import Mathlib
import PointCloud.Kernel.SharedBits
import PointCloud.Kernel.Zlib
import PointCloud.Kernel.Zstd
import PointCloud.Proofs.Kernel.RunLength
import PointCloud.Proofs.Machine.Reader

/-!
# Streams on the machine

The readers of streams are where a length that nobody has checked meets the room that is left: a run
is subtracted from it, packed words are cut by their width, a stream is one byte longer than
allowed. On the machine they end as the readers of lists do.

Main results:

* `Machine.readRuns_follows`, `Machine.runLength_follows` — runs and the words still expected;
* `Machine.sharedBits_follows` — packed bits, for every width that a header may claim;
* `Machine.zlib_follows`, `Machine.zstd_follows` — what is done around compressed streams.
-/

namespace PointCloud

namespace Machine

variable {size points expected : Nat} {order : ByteOrder} {bytes : Bytes}

/-! ## Runs -/

/-- Reads runs from a position on, after the words that runs before it spelled. -/
def readRuns (size : Nat) (order : ByteOrder) (expected : Nat) (bytes : Bytes) :
    Nat → Nat → List Nat → Run (List Nat × Nat)
  | 0, position, words => .ok (words, position)
  | count + 1, position, words => do
    let stop ← add position size
    if bytes.length < stop then refuse (.kernel (.runLength .missingValue))
    let word ← readWordAt order size bytes position
    let (length, position) ← readVarint bytes stop 0 0
    let room ← sub expected words.length
    if length = 0 || room < length then
      refuse (.kernel (.runLength (.runOverflow length expected)))
    readRuns size order expected bytes count position (words ++ List.replicate length word)

/-- The column of `expected` words that a run-length stream holds. -/
def runLength (size : Nat) (order : ByteOrder) (expected : Nat) (bytes : Bytes) :
    Run (List Nat) := do
  if bytes.length < 4 then refuse (.kernel (.runLength .missingRunCount))
  let count ← readWordAt order 4 bytes 0
  ofReader (reserve (8 * expected))
  let (words, position) ← readRuns size order expected bytes count 4 []
  if words.length ≠ expected then
    refuse (.kernel (.runLength (.wrongCount words.length expected)))
  if position ≠ bytes.length then refuse (.kernel (.runLength .trailingBytes))
  return words

/-- The words so far take up what is gone of the room. -/
theorem readRuns_follows (hshort : bytes.length < 2 ^ 63) (hsize : size ≤ 8)
    {count position room : Nat} {words : List Nat} (hposition : position ≤ bytes.length)
    (hroom : words.length + room = expected) :
    Follows (fun x y => x.1 = words ++ RunLength.expand y.1 ∧ x.1.length + y.2.1 = expected ∧
        y.2.2 = bytes.drop x.2 ∧ x.2 ≤ bytes.length)
      (readRuns size order expected bytes count position words)
      ((RunLength.readRuns size order expected count room (bytes.drop position)).mapError
        .kernel) := by
  induction count generalizing position room words with
  | zero => exact .ok ⟨by simp [RunLength.expand], hroom, rfl, hposition⟩
  | succ count ih =>
    have hadd : add position size = .ok (position + size) := add_eq (by omega)
    unfold readRuns RunLength.readRuns
    simp only [hadd, Result.ok_bind, Result.throw_eq, Result.error_bind, refuse_bind,
      apply_ite (Except.mapError Error.kernel), Result.mapError_error, Result.mapError_bind,
      Result.mapError_mapError]
    refine Follows.check _ ?_ fun hvalue => ?_
    · rw [List.length_drop]
      omega
    have hstop : position + size ≤ bytes.length := by
      rw [List.length_drop] at hvalue
      omega
    rw [readWordAt_eq order hsize hstop hshort, Result.ok_bind, List.drop_drop]
    refine (readVarint_start hshort hstop).bind ?_
    rintro ⟨length, stop⟩ ⟨_, rest⟩ ⟨rfl, hrest, hle⟩
    -- The words so far leave exactly the room that the reader of lists counts down.
    have hsub : sub expected words.length = .ok room := by
      rw [sub_eq (by omega)]
      congr 1
      omega
    dsimp only at hrest hle ⊢
    rw [hsub, Result.ok_bind, hrest]
    refine Follows.check _ Iff.rfl fun hlength => ?_
    simp only [Bool.or_eq_true, decide_eq_true_eq, not_or, Nat.not_lt] at hlength
    have htotal :
        (words ++ List.replicate length (order.word ((bytes.drop position).take size))).length +
          (room - length) = expected := by
      rw [List.length_append, List.length_replicate]
      omega
    refine (ih hle htotal).bind_right ?_
    rintro ⟨all, stop⟩ ⟨rs, left, rest⟩ _ ⟨hall, htotal, hrest, hle⟩
    refine .ok ⟨?_, htotal, hrest, hle⟩
    dsimp only at hall ⊢
    rw [hall, List.append_assoc]
    rfl

theorem runLength_follows (hshort : bytes.length < 2 ^ 63) (hsize : size ≤ 8) :
    Follows Eq (runLength size order expected bytes)
      (RunLength.decode size order expected bytes) := by
  unfold runLength RunLength.decode
  simp only [Result.throw_eq, Result.error_bind, refuse_bind]
  refine Follows.check _ Iff.rfl fun hheader => ?_
  have hfour : 4 ≤ bytes.length := Nat.le_of_not_lt hheader
  rw [readWordAt_eq order (by decide) hfour hshort, Result.ok_bind, List.drop_zero]
  refine (Follows.ofReader _).bind fun _ _ _ => ?_
  -- Before the first run there are no words, and all the room.
  have hnone : ([] : List Nat).length + expected = expected := Nat.zero_add expected
  refine (readRuns_follows hshort hsize hfour hnone).bind ?_
  rintro ⟨words, position⟩ ⟨rs, room, rest⟩ ⟨hwords, hroom, hrest, hle⟩
  dsimp only at hwords hroom hrest hle ⊢
  -- The machine counts words where the list reader subtracts the room from what it began with.
  have hlength : expected - room = words.length := by omega
  rw [hlength]
  refine Follows.check _ (by omega) fun _ => Follows.check _ ?_ fun _ => ?_
  · rw [hrest, Bool.not_eq_true', List.isEmpty_eq_false_iff, ne_eq, ne_eq, List.drop_eq_nil_iff]
    omega
  · rw [hwords, List.nil_append]
    exact .ok rfl

/-! ## Packed bits -/

/-- The number that the low bits of a piece write, from bit `i` on. -/
def gatherBits : Nat → Nat → List Bool → Run Nat
  | _, low, [] => .ok low
  | i, low, false :: bits => gatherBits (i + 1) low bits
  | i, low, true :: bits => do
    let bit ← shiftLeft 64 1 i
    gatherBits (i + 1) (low ||| bit) bits

/-- The words of the first `count` pieces of `width` bits. The last piece may be short. -/
def unpackBits (width leading : Nat) : Nat → List Bool → Run (List Nat)
  | 0, _ => .ok []
  | _, [] => .ok []
  | count + 1, bits => do
    let low ← gatherBits 0 0 (bits.take width)
    let words ← unpackBits width leading count (bits.drop width)
    return (leading ||| low) :: words

/-- The column of `count` words that an encoding by shared bits holds. -/
def sharedBits (size : Nat) (order : ByteOrder) (count : Nat) (bytes : Bytes) :
    Run (List Nat) := do
  let bits ← mul size 8
  match bytes[0]? with
  | none => refuse (.kernel .sharedBits)
  | some width =>
    let width := width.toNat
    if bits < width then refuse (.kernel .sharedBits)
    let stop ← add 1 size
    if bytes.length < stop then refuse (.kernel .sharedBits)
    let leading ← readWordAt order size bytes 1
    let packed ← slice bytes stop bytes.length
    if 2 ^ 64 ≤ count * width || packed.length ≠ (count * width + 7) / 8 then
      refuse (.kernel .sharedBits)
    ofReader (reserve (8 * count))
    if width = 0 then return List.replicate count leading
    nonzero width
    unpackBits width leading count (Bits.ofBytes packed)

theorem gatherBits_eq {i low : Nat} {bits : List Bool} (hlow : low < 2 ^ i)
    (hbits : i + bits.length ≤ 64) :
    gatherBits i low bits = .ok (low + 2 ^ i * Bits.toNat bits) := by
  induction bits generalizing i low with
  | nil => simp [gatherBits, Bits.toNat]
  | cons b bits ih =>
    rw [List.length_cons] at hbits
    have hpow : 2 ^ (i + 1) = 2 ^ i * 2 := Nat.pow_succ 2 i
    cases b with
    | false =>
      rw [gatherBits, ih (by omega) (by omega), hpow, Bits.toNat]
      congr 1
      simp only [Bool.toNat_false]
      ring
    | true =>
      have hbit : 1 * 2 ^ i < 2 ^ 64 := by
        rw [Nat.one_mul]
        exact Nat.pow_lt_pow_right (by decide) (by omega)
      -- The bit is above all that were gathered, so setting it is adding it.
      have hor : low ||| 1 * 2 ^ i = low + 2 ^ i := by
        rw [Nat.or_comm, Nat.mul_comm, ← Nat.two_pow_add_eq_or_of_lt hlow]
        omega
      rw [gatherBits, shiftLeft_eq (by omega), Nat.mod_eq_of_lt hbit, Result.ok_bind, hor,
        ih (by omega) (by omega), hpow, Bits.toNat]
      congr 1
      simp only [Bool.toNat_true]
      ring

theorem unpackBits_eq {width leading count : Nat} {bits : List Bool} (hwidth : 0 < width)
    (hle : width ≤ 64) (hbits : count * width ≤ bits.length) :
    unpackBits width leading count bits =
      .ok ((cut width count bits).map fun piece => leading ||| Bits.toNat piece) := by
  induction count generalizing bits with
  | zero => simp [unpackBits, cut]
  | succ count ih =>
    rw [Nat.succ_mul] at hbits
    have htake : 0 + (bits.take width).length ≤ 64 := by
      rw [List.length_take]
      omega
    have hpiece := gatherBits_eq (show 0 < 2 ^ 0 by decide) htake
    have hroom : count * width ≤ (bits.drop width).length := by
      rw [List.length_drop]
      omega
    have hrest := ih hroom
    rw [Nat.pow_zero, Nat.one_mul, Nat.zero_add] at hpiece
    -- A piece that is missing altogether would leave too little room.
    cases bits with
    | nil =>
      rw [List.length_nil] at hbits
      omega
    | cons b bits =>
      rw [unpackBits, hpiece, Result.ok_bind, hrest, Result.ok_bind]
      · rfl
      · simp

/-- With no bits of their own, all words are the one that they share. -/
theorem unpack_zero (count : Nat) (bytes : Bytes) :
    SharedBits.unpack 0 count bytes = List.replicate count 0 := by
  have hcut : ∀ bits : List Bool, cut 0 count bits = List.replicate count [] := by
    induction count with
    | zero => exact fun _ => rfl
    | succ count ih =>
      intro bits
      rw [cut, List.take_zero, List.drop_zero, ih, List.replicate_succ]
  rw [SharedBits.unpack, hcut, List.map_replicate]
  rfl

theorem sharedBits_follows {count : Nat} (hshort : bytes.length < 2 ^ 63) (hsize : size ≤ 8) :
    Follows Eq (sharedBits size order count bytes) (SharedBits.decode size order count bytes) := by
  have hbits : mul size 8 = .ok (size * 8) := mul_eq (by omega)
  have hadd : add 1 size = .ok (1 + size) := add_eq (by omega)
  unfold sharedBits SharedBits.decode
  rw [hbits, Result.ok_bind]
  cases bytes with
  | nil => exact .refused _
  | cons width rest =>
    rw [List.length_cons] at hshort
    simp only [List.getElem?_cons_zero, Result.throw_eq, Result.error_bind, refuse_bind, hadd,
      Result.ok_bind, List.length_cons]
    -- The two checks of the header are one on the side of lists.
    by_cases hwidth : size * 8 < width.toNat
    · rw [if_pos hwidth, if_pos (by simp; omega)]
      exact .refused _
    by_cases hword : rest.length < size
    · rw [if_neg hwidth, if_pos (by omega), if_pos (by simp [hword])]
      exact .refused _
    have hle : 1 + size ≤ (width :: rest).length := by
      rw [List.length_cons]
      omega
    have hpacked : slice (width :: rest) (1 + size) (rest.length + 1) = .ok (rest.drop size) := by
      rw [← List.length_cons, slice_length_eq hle, Nat.add_comm, List.drop_succ_cons]
    rw [if_neg hwidth, if_neg (by omega), if_neg (by simp [hword]; omega),
      readWordAt_eq order hsize hle (by rw [List.length_cons]; omega), Result.ok_bind, hpacked,
      Result.ok_bind, List.drop_succ_cons, List.drop_zero]
    refine Follows.check _ Iff.rfl fun hlength => ?_
    refine (Follows.ofReader _).bind fun _ _ _ => ?_
    simp only [Bool.or_eq_true, decide_eq_true_eq, not_or, ne_eq, not_not] at hlength
    -- Without bits of their own, no word is cut from the rest.
    by_cases hzero : width.toNat = 0
    · rw [if_pos hzero, hzero, unpack_zero, List.map_replicate, Nat.or_zero]
      exact .ok rfl
    · have hroom : count * width.toNat ≤ (Bits.ofBytes (rest.drop size)).length := by
        rw [Bits.length_ofBytes, hlength.2]
        omega
      rw [if_neg hzero, nonzero_eq (by omega), Result.ok_bind,
        unpackBits_eq (by omega) (by omega) hroom, SharedBits.unpack, List.map_map]
      exact .ok rfl

/-! ## Compressed streams -/

/-- What a zlib stream inflates to, which has to be `expected` bytes. One byte more is asked for. -/
def zlib (expected : Nat) (bytes : Bytes) : Run Bytes := do
  ofReader (reserve expected)
  let _ ← add expected 1
  ofReader (Zlib.decode expected bytes)

theorem zlib_follows : Follows Eq (zlib expected bytes) (Zlib.decode expected bytes) := by
  cases hreserve : reserve expected with
  | error e =>
    have hdecode : Zlib.decode expected bytes = .error e := by
      rw [Zlib.decode, hreserve]
      rfl
    rw [zlib, hreserve, hdecode]
    exact .refused e
  | ok u =>
    -- What can be set aside is far from the greatest number.
    have hroom : expected < 2 ^ 62 := reserve_eq_ok_iff.mp hreserve
    rw [zlib, hreserve, ofReader_ok, Result.ok_bind, add_eq (by omega), Result.ok_bind]
    exact .ofReader _

/-- The content of a zstd stream behind its length. -/
def zstd (bytes : Bytes) : Run Bytes := do
  if bytes.isEmpty then return []
  if bytes.length < 8 then refuse (.kernel (.zstd .missingSize))
  let size := Numeral.ofBytes (← slice bytes 0 8)
  ofReader (reserve size)
  let frames ← slice bytes 8 bytes.length
  match Zstd.frames? (bytes.length + 1) frames with
  | none => refuse (.kernel (.zstd .corrupt))
  | some content =>
    if content.length ≠ size then refuse (.kernel (.zstd (.wrongSize size content.length)))
    return content

theorem zstd_follows : Follows Eq (zstd bytes) (Zstd.decode bytes) := by
  unfold zstd Zstd.decode
  by_cases hempty : bytes.isEmpty
  · rw [if_pos hempty, if_pos hempty]
    exact .ok rfl
  rw [if_neg hempty, if_neg hempty]
  simp only [Result.throw_eq, Result.error_bind, refuse_bind]
  refine Follows.check _ Iff.rfl fun hlength => ?_
  have height : 8 ≤ bytes.length := Nat.le_of_not_lt hlength
  rw [slice_eq (Nat.zero_le _) height, Result.ok_bind, List.drop_zero]
  refine (Follows.ofReader _).bind fun _ _ _ => ?_
  rw [slice_length_eq height, Result.ok_bind]
  cases Zstd.frames? (bytes.length + 1) (bytes.drop 8) with
  | none => exact .refused _
  | some content => exact Follows.check _ Iff.rfl fun _ => .ok rfl

end Machine

end PointCloud
