import Mathlib
import PointCloud.Kernel.RunLength
import PointCloud.Proofs.Kernel.Varint

/-!
# Run-length streams: round trip

A stream written from a column reads back as that column. The reader takes one run at a time and
keeps count of the room that is left; the runs of a column fill the room exactly. A length is read
from any form of it, so a stream is more than what is written. The byte order changes bytes of the
stream, but neither its length nor what is read from it.

Main results:

* `RunLength.Spells.readRuns_eq` — runs are read, with the room they leave;
* `RunLength.IsStream.decode_eq` — a stream of runs that add up is read;
* `RunLength.decode_encode_eq` — a written column is read back;
* `RunLength.length_encode_order` — the byte order does not change the length of a stream.
-/

namespace PointCloud

namespace RunLength

/-! ## What the runs of a column are -/

theorem word_mem_of_mem_runs {words : List Nat} {r : Run} (h : r ∈ runs words) :
    r.word ∈ words := by
  have hr : r.word ∈ expand (runs words) := by
    rw [expand, List.mem_flatMap]
    exact ⟨r, h, List.mem_replicate.mpr ⟨Nat.ne_of_gt (length_pos_of_mem_runs h), rfl⟩⟩
  rwa [expand_runs] at hr

theorem length_expand (rs : List Run) : (expand rs).length = (rs.map (·.length)).sum := by
  simp [expand, List.length_flatMap]

theorem sum_length_runs (words : List Nat) :
    ((runs words).map (·.length)).sum = words.length := by
  rw [← length_expand, expand_runs]

/-- A column has no more runs than words, for no run is empty. -/
theorem length_runs_le (words : List Nat) : (runs words).length ≤ words.length := by
  -- Lengths that are positive add up to at least their number.
  have hsum : ∀ rs : List Run, (∀ r ∈ rs, 0 < r.length) →
      rs.length ≤ (rs.map (·.length)).sum := by
    intro rs
    induction rs with
    | nil => simp
    | cons r rs ih =>
      intro hpos
      have hr := hpos r (by simp)
      have hrs := ih fun r' h => hpos r' (by simp [h])
      simp only [List.length_cons, List.map_cons, List.sum_cons]
      omega
  rw [← sum_length_runs words]
  exact hsum _ fun r h => length_pos_of_mem_runs h

/-! ## Streams of runs -/

/-- A run that can be written: its word fits its size, and its length is one that is counted. -/
def Run.Fits (size : Nat) (r : Run) : Prop := r.word < 256 ^ size ∧ 0 < r.length ∧ r.length < 2 ^ 64

/-- The bytes of runs one after another: of each its word, and its length in any form that it is
read from. Runs may be empty. -/
inductive Spells (size : Nat) (order : ByteOrder) : List Run → Bytes → Prop
  | nil : Spells size order [] []
  | cons {r : Run} {rs : List Run} {form rest : Bytes} (hword : r.word < 256 ^ size)
      (hform : Varint.read 64 form = .ok (r.length, [])) (hrest : Spells size order rs rest) :
      Spells size order (r :: rs) (order.bytes size r.word ++ form ++ rest)

/-- A stream of runs: their count, and the bytes of one after another. -/
structure IsStream (size : Nat) (order : ByteOrder) (rs : List Run) (bytes : Bytes) : Prop where
  count_lt : rs.length < 2 ^ 32
  count_eq : bytes.take 4 = order.bytes 4 rs.length
  spells : Spells size order rs (bytes.drop 4)

theorem Spells.of_fits {size : Nat} (order : ByteOrder) {rs : List Run}
    (h : ∀ r ∈ rs, r.Fits size) : Spells size order rs (rs.flatMap (Run.bytes size order)) := by
  induction rs with
  | nil => exact .nil
  | cons r rs ih =>
    obtain ⟨hword, -, hlt⟩ := h r List.mem_cons_self
    have hform := Varint.read_write 64 r.length [] hlt (by decide)
    rw [List.append_nil] at hform
    exact .cons hword hform (ih fun r' hr => h r' (List.mem_cons_of_mem r hr))

/-- Runs that have room are read, with what they leave of it. -/
theorem Spells.readRuns_eq {size room : Nat} {order : ByteOrder} {rs : List Run} {body : Bytes}
    (h : Spells size order rs body) (expected : Nat) (rest : Bytes)
    (hpos : ∀ r ∈ rs, 0 < r.length) (hroom : (rs.map (·.length)).sum ≤ room) :
    readRuns size order expected rs.length room (body ++ rest) =
      .ok (rs, room - (rs.map (·.length)).sum, rest) := by
  induction h generalizing room with
  | nil => simp [readRuns]
  | @cons r rs form body hword hform _ ih =>
    simp only [List.map_cons, List.sum_cons] at hroom ⊢
    have hread := Varint.read_append hform (body ++ rest)
    rw [List.nil_append] at hread
    -- A run takes its length from the room, and the rest of the runs fit into what it leaves.
    have hleft : (rs.map (·.length)).sum ≤ room - r.length := by omega
    have hrest := ih (fun r' hr => hpos r' (List.mem_cons_of_mem r hr)) hleft
    rw [List.length_cons, readRuns, List.append_assoc, List.append_assoc,
      if_neg (by simp), List.take_left' (by simp), List.drop_left' (by simp), hread,
      ByteOrder.word_bytes, Nat.mod_eq_of_lt hword]
    -- Neither refusal of a run comes up: it is not empty, and there is room for it.
    have hok : ¬ (r.length = 0 ∨ room < r.length) := by
      have := hpos r List.mem_cons_self
      omega
    simp only [Result.mapError_ok, Result.ok_bind, Bool.or_eq_true, decide_eq_true_eq, hok,
      if_false, hrest, Result.pure_eq, Nat.sub_sub]

theorem IsStream.four_le_length {size : Nat} {order : ByteOrder} {rs : List Run} {bytes : Bytes}
    (h : IsStream size order rs bytes) : 4 ≤ bytes.length := by
  have hlength := congrArg List.length h.count_eq
  rw [List.length_take, ByteOrder.length_bytes] at hlength
  omega

/-- A stream of runs that add up is read, if there is room for the words. -/
theorem IsStream.decode_eq {size expected : Nat} {order : ByteOrder} {rs : List Run} {bytes : Bytes}
    (h : IsStream size order rs bytes) (hpos : ∀ r ∈ rs, 0 < r.length)
    (hsum : (rs.map (·.length)).sum = expected) :
    decode size order expected bytes = (reserve (8 * expected) >>= fun _ => .ok (expand rs)) := by
  have hcount : order.word (bytes.take 4) = rs.length := by
    rw [h.count_eq, ByteOrder.word_bytes, Nat.mod_eq_of_lt h.count_lt]
  have hread := h.spells.readRuns_eq expected [] hpos (Nat.le_of_eq hsum)
  rw [List.append_nil, hsum, Nat.sub_self] at hread
  simp only [decode, if_neg (Nat.not_lt.mpr h.four_le_length), hcount, hread]
  rfl

/-! ## Round trip -/

/-- What is written is a stream of the runs of the column. -/
theorem isStream_of_encode {size : Nat} {order : ByteOrder} {words : List Nat} {bytes : Bytes}
    (hfits : ∀ w ∈ words, w < 256 ^ size) (hlength : words.length < 2 ^ 64)
    (h : encode size order words = .ok bytes) : IsStream size order (runs words) bytes := by
  simp only [encode] at h
  split at h
  · rename_i hcount
    obtain rfl := Except.ok.inj h
    -- The runs of a column that fits can be written, for none is longer than the column.
    have hruns : ∀ r ∈ runs words, r.Fits size := by
      intro r hr
      have hle : r.length ≤ words.length := by
        rw [← sum_length_runs words]
        exact List.single_le_sum (fun _ _ => Nat.zero_le _) _ (List.mem_map_of_mem hr)
      exact ⟨hfits _ (word_mem_of_mem_runs hr), length_pos_of_mem_runs hr, by omega⟩
    constructor
    · rwa [length_runs]
    · rw [List.take_left' (ByteOrder.length_bytes _ _ _), length_runs]
    · rw [List.drop_left' (ByteOrder.length_bytes _ _ _)]
      exact .of_fits order hruns
  · cases h

/-- Without room for the words, a stream is not looked at past the count of its runs. -/
theorem decode_without_room {size : Nat} (order : ByteOrder) {words : List Nat} {bytes : Bytes}
    (hroom : ¬8 * words.length < 2 ^ 62) (h : encode size order words = .ok bytes) :
    decode size order words.length bytes = .error .allocationFailed := by
  simp only [encode] at h
  split at h
  · have hlength : ¬ bytes.length < 4 := by
      rw [← Except.ok.inj h]
      simp
    simp [decode, hlength, reserve, hroom]
  · cases h

/-- A written column is read back, if there is room for the words. -/
theorem decode_encode_eq {size : Nat} {order : ByteOrder} {words : List Nat} {bytes : Bytes}
    (hfits : ∀ w ∈ words, w < 256 ^ size) (h : encode size order words = .ok bytes) :
    decode size order words.length bytes =
      (reserve (8 * words.length) >>= fun _ => .ok words) := by
  by_cases hroom : 8 * words.length < 2 ^ 62
  · -- So few words have lengths that can be counted, so what is written is a stream of their runs.
    have hstream := isStream_of_encode hfits (by omega) h
    rw [hstream.decode_eq (fun r hr => length_pos_of_mem_runs hr) (sum_length_runs words),
      expand_runs]
  · rw [decode_without_room order hroom h, reserve, if_neg hroom, Result.error_bind]

theorem decode_of_encode {size : Nat} {order : ByteOrder} {words : List Nat} {bytes : Bytes}
    (hfits : ∀ w ∈ words, w < 256 ^ size) (hroom : 8 * words.length < 2 ^ 62)
    (h : encode size order words = .ok bytes) :
    decode size order words.length bytes = .ok words := by
  rw [decode_encode_eq hfits h, reserve_eq_ok_iff.mpr hroom, Result.ok_bind]

/-- A column is refused only for the number of its runs. -/
theorem exists_encode {size : Nat} {order : ByteOrder} {words : List Nat}
    (h : countRuns words < 2 ^ 32) : ∃ bytes, encode size order words = .ok bytes := by
  simp only [encode, if_pos h]
  exact ⟨_, rfl⟩

theorem encode_isOk {size : Nat} {order : ByteOrder} {words : List Nat}
    (h : words.length < 2 ^ 32) : ∃ bytes, encode size order words = .ok bytes := by
  have hruns := length_runs_le words
  rw [length_runs] at hruns
  exact exists_encode (Nat.lt_of_le_of_lt hruns h)

/-! ## Byte orders -/

theorem Run.length_bytes (size : Nat) (order : ByteOrder) (r : Run) :
    (r.bytes size order).length = size + (Varint.write r.length).length := by
  rw [Run.bytes, List.length_append, ByteOrder.length_bytes]

/-- The byte order changes neither whether a column can be written nor how long its stream is. -/
theorem length_encode_order (size : Nat) (order other : ByteOrder) (words : List Nat) :
    (encode size order words).map List.length = (encode size other words).map List.length := by
  have hruns : (runs words).map (fun r => (r.bytes size order).length) =
      (runs words).map fun r => (r.bytes size other).length :=
    List.map_congr_left fun r _ => by rw [Run.length_bytes, Run.length_bytes]
  simp only [encode]
  split
  · simp [Except.map, List.length_flatMap, hruns]
  · rfl

/-- The streams of a column in two byte orders are read alike. -/
theorem decode_encode_order {size : Nat} {order other : ByteOrder} {words : List Nat}
    {bytes bytes' : Bytes} (hfits : ∀ w ∈ words, w < 256 ^ size)
    (h : encode size order words = .ok bytes) (h' : encode size other words = .ok bytes') :
    decode size order words.length bytes = decode size other words.length bytes' := by
  rw [decode_encode_eq hfits h, decode_encode_eq hfits h']

end RunLength

end PointCloud
