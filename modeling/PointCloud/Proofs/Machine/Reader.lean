import Mathlib
import PointCloud.Bytes.Cursor
import PointCloud.Proofs.Machine.Word

/-!
# Reading by position

The machine reads a byte string by the position that it has come to. A position is a number that is
added to and subtracted from the length, so all that keeps it in range is that it never passes the
end; a cursor has no position to get wrong.

Main results:

* `Machine.readVarint_follows` — no shift of a variable-length number is too far;
* `Machine.Reader.take_follows` and the like — every field is read as by a cursor.
-/

namespace PointCloud

namespace Machine

/-! ## Variable-length numbers -/

/-- What of a group at a shift is past the end of a number. The group is in a byte, so it cannot be
shifted by eight or more. -/
def excess (shift group : Nat) : Run Nat := do
  if 64 < (← add shift 7) then shiftRight 8 group (← sub 64 shift) else return 0

/-- Reads a variable-length number at a position, with the position after it: `result` is what its
groups up to `shift` bits came to. -/
def readVarint (bytes : Bytes) (position shift result : Nat) : Run (Nat × Nat) :=
  match h : bytes[position]? with
  | none => refuse (.kernel (.varint .unexpectedEnd))
  | some b => do
    let _ ← add position 1
    if 64 ≤ shift then refuse (.kernel (.varint .overflow))
    let group := b.toNat % 128
    if 0 < (← excess shift group) then refuse (.kernel (.varint .overflow))
    let result := result ||| (← shiftLeft 64 group shift)
    if b.toNat < 128 then return (result, position + 1)
    readVarint bytes (position + 1) (← add shift 7) result
termination_by bytes.length - position
decreasing_by
  obtain ⟨hlt, -⟩ := List.getElem?_eq_some_iff.mp h
  omega

theorem excess_eq {shift : Nat} (group : Nat) (hshift : shift < 64) :
    ∃ past, excess shift group = .ok past ∧
      (0 < past ↔ (64 < shift + 7 && 0 < group >>> (64 - shift)) = true) := by
  have hadd : add shift 7 = .ok (shift + 7) := add_eq (by omega)
  by_cases hlast : 64 < shift + 7
  · have hsub : sub 64 shift = .ok (64 - shift) := sub_eq (by omega)
    refine ⟨group >>> (64 - shift), ?_, by simp [hlast]⟩
    rw [excess, hadd, Result.ok_bind, if_pos hlast, hsub, Result.ok_bind, shiftRight,
      if_pos (by omega)]
  · -- The group ends inside the number: seven bits fit, whatever they are.
    exact ⟨0, by rw [excess, hadd, Result.ok_bind, if_neg hlast, Result.pure_eq], by simp [hlast]⟩

/-- The groups from a shift on are read as by the reader of lists, whatever came before them. -/
theorem readVarint_follows {bytes rest : Bytes} {position shift result : Nat}
    (hshort : bytes.length < 2 ^ 63) (hrest : bytes.drop position = rest)
    (hposition : position ≤ bytes.length) (hshift : shift < 2 ^ 7) :
    Follows (fun x y => x.1 = y.1 ∧ y.2 = bytes.drop x.2 ∧ x.2 ≤ bytes.length)
      (readVarint bytes position shift result)
      ((Varint.readFrom 64 shift result rest).mapError fun fault => .kernel (.varint fault)) := by
  induction rest generalizing position shift result with
  | nil =>
    have hnone : bytes[position]? = none :=
      List.getElem?_eq_none_iff.mpr (List.drop_eq_nil_iff.mp hrest)
    rw [readVarint]
    split
    · exact .refused _
    · simp_all
  | cons b rest ih =>
    have hsome : bytes[position]? = some b := by
      rw [← List.head?_drop, hrest, List.head?_cons]
    have hnext : bytes.drop (position + 1) = rest := by
      rw [← List.drop_drop, hrest, List.drop_one, List.tail_cons]
    obtain ⟨hlt, -⟩ := List.getElem?_eq_some_iff.mp hsome
    have hadd : add position 1 = .ok (position + 1) := add_eq (by omega)
    rw [readVarint]
    split
    · simp_all
    rename_i b' hb'
    obtain rfl : b = b' := Option.some.inj (hsome.symm.trans hb')
    rw [hadd, Result.ok_bind, Varint.readFrom]
    simp only [refuse_bind, apply_ite (Except.mapError _), Result.mapError_error]
    -- All sixty-four bits are taken up.
    refine Follows.check _ Iff.rfl fun hend => ?_
    obtain ⟨past, hpast, hrefused⟩ := excess_eq (b.toNat % 128) (Nat.lt_of_not_le hend)
    rw [hpast, Result.ok_bind]
    -- The group has bits past the end of the number.
    refine Follows.check _ hrefused fun hfits => ?_
    rw [shiftLeft, if_pos (Nat.lt_of_not_le hend), Result.ok_bind]
    by_cases hlast : b.toNat < 128
    · rw [if_pos hlast, if_pos hlast]
      exact .ok ⟨rfl, hnext.symm, hlt⟩
    · have hafter : add shift 7 = .ok (shift + 7) := add_eq (by omega)
      rw [if_neg hlast, if_neg hlast, hafter, Result.ok_bind]
      exact ih hnext hlt (by omega)

/-- A number is read from its first group on. -/
theorem readVarint_start {bytes : Bytes} {position : Nat} (hshort : bytes.length < 2 ^ 63)
    (hposition : position ≤ bytes.length) :
    Follows (fun x y => x.1 = y.1 ∧ y.2 = bytes.drop x.2 ∧ x.2 ≤ bytes.length)
      (readVarint bytes position 0 0)
      ((Varint.read 64 (bytes.drop position)).mapError fun fault => .kernel (.varint fault)) :=
  readVarint_follows hshort rfl hposition (by decide)

/-! ## Fields -/

/-- The position that reading a byte string has come to. -/
structure Reader (input : Bytes) where
  position : Nat

namespace Reader

/-- The reader before the first byte. -/
def start (input : Bytes) : Reader input := ⟨0⟩

variable {input : Bytes}

/-- The count of bytes that are left. -/
def remaining (r : Reader input) : Run Nat := sub input.length r.position

/-- Reads `count` bytes. -/
def take (r : Reader input) (count : Nat) : Run (Bytes × Reader input) := do
  -- A sum that no machine holds is past the end as well.
  if input.length < r.position + count then
    let available ← r.remaining
    refuse (.corruptPatch (.truncated count r.position available))
  let taken ← slice input r.position (r.position + count)
  return (taken, { position := r.position + count })

/-- Reads one byte. -/
def byte (r : Reader input) : Run (UInt8 × Reader input) := do
  let (taken, r) ← r.take 1
  return (← index taken 0, r)

/-- Reads a word of `size` bytes. -/
def word (r : Reader input) (order : ByteOrder) (size : Nat) : Run (Nat × Reader input) := do
  let (taken, r) ← r.take size
  return (← readWord order size taken, r)

/-- Reads a number of thirty-two bits. -/
def uint32 (r : Reader input) (order : ByteOrder) : Run (UInt32 × Reader input) := do
  let (w, r) ← r.word order 4
  return (UInt32.ofNat w, r)

/-- Reads a variable-length number of sixty-four bits. -/
def varint (r : Reader input) : Run (Nat × Reader input) := do
  let rest ← slice input r.position input.length
  let (n, length) ← readVarint rest 0 0 0
  return (n, { position := ← add r.position length })

/-- Reads `count` floating values that are known to be there. -/
def floatsOf (order : ByteOrder) : Nat → Reader input → Run (List Binary64 × Reader input)
  | 0, r => .ok ([], r)
  | count + 1, r => do
    let (w, r) ← r.word order 8
    let (values, r) ← floatsOf order count r
    return (Binary64.ofWord w :: values, r)

/-- Reads `count` floating values. -/
def floats (r : Reader input) (order : ByteOrder) (count : Nat) :
    Run (List Binary64 × Reader input) := do
  let available ← r.remaining
  -- The product stays at the greatest number of the machine if it is past it.
  if available < min (8 * count) (2 ^ 64 - 1) then
    refuse (.corruptPatch (.truncatedValues count available))
  floatsOf order count r

/-- Refuses bytes that are left over. -/
def finish (r : Reader input) (context : String) : Run Unit := do
  let available ← r.remaining
  if available ≠ 0 then refuse (.corruptPatch (.trailing context available))

/-! ## Fields are read as by a cursor -/

/-- A reader stands where a cursor stands, in a byte string that a machine can hold. -/
structure At (r : Reader input) (c : Cursor) : Prop where
  total_eq    : c.total = input.length
  rest_eq     : c.rest = input.drop r.position
  position_le : r.position ≤ input.length
  length_lt   : input.length < 2 ^ 63

/-- Both have read the same, and stand at the same place. -/
def Same {α : Type} (x : α × Reader input) (y : α × Cursor) : Prop := x.1 = y.1 ∧ x.2.At y.2

theorem at_start (h : input.length < 2 ^ 63) : (Reader.start input).At (Cursor.start input) :=
  ⟨rfl, rfl, Nat.zero_le _, h⟩

variable {r : Reader input} {c : Cursor}

namespace At

theorem length_rest (h : r.At c) : c.rest.length = input.length - r.position := by
  rw [h.rest_eq, List.length_drop]

theorem length_rest_lt (h : r.At c) : c.rest.length < 2 ^ 63 := by
  have := h.length_lt
  rw [h.length_rest]
  omega

theorem offset_eq (h : r.At c) : c.offset = r.position := by
  have := h.position_le
  rw [Cursor.offset, h.total_eq, h.length_rest]
  omega

theorem remaining_eq (h : r.At c) : r.remaining = .ok c.rest.length := by
  rw [remaining, sub_eq h.position_le, h.length_rest]

/-- Both go on by a count of bytes that are there. -/
theorem advance (h : r.At c) {count : Nat} (hcount : count ≤ c.rest.length) :
    (⟨r.position + count⟩ : Reader input).At { c with rest := c.rest.drop count } := by
  have := h.position_le
  rw [h.length_rest] at hcount
  refine ⟨h.total_eq, ?_, by dsimp only; omega, h.length_lt⟩
  rw [h.rest_eq, List.drop_drop]

end At

theorem take_follows (h : r.At c) (count : Nat) : Follows Same (r.take count) (c.take count) := by
  have hposition := h.position_le
  have hrest := h.length_rest
  unfold take Cursor.take
  simp only [h.remaining_eq, Result.ok_bind, refuse_bind, h.offset_eq]
  -- The end of the field is past the input just when the rest is too short.
  refine Follows.check _ ?_ fun hcount => ?_
  · rw [List.length_take]
    omega
  · have hle : count ≤ c.rest.length := by
      rw [List.length_take] at hcount
      omega
    rw [slice_eq (Nat.le_add_right _ _) (by omega), Result.ok_bind, Nat.add_sub_cancel_left,
      ← h.rest_eq]
    exact .ok ⟨rfl, h.advance hle⟩

theorem byte_follows (h : r.At c) : Follows Same r.byte c.byte := by
  have htake := r.take_follows h 1
  unfold byte Cursor.byte
  unfold Cursor.take at htake
  cases hrest : c.rest with
  | nil =>
    rw [hrest] at htake
    rw [htake.eq_refuse]
    exact .refused _
  | cons b rest =>
    rw [hrest] at htake
    obtain ⟨⟨taken, r'⟩, hrun, htaken, hat⟩ := htake.exists_of_ok
    obtain rfl : taken = [b] := htaken
    rw [hrun]
    exact .ok ⟨rfl, hat⟩

theorem word_follows (h : r.At c) (order : ByteOrder) {size : Nat} (hsize : size ≤ 8) :
    Follows Same (r.word order size) (c.word order size) := by
  refine (take_follows h size).bind_of_eq ?_
  rintro ⟨taken, r⟩ ⟨taken', c⟩ hread hsame
  obtain ⟨rfl, hat⟩ := hsame
  have hlength := (Cursor.take_eq_ok_iff.mp hread).2.1
  dsimp only
  rw [readWord_eq order hsize (Nat.le_of_eq hlength.symm), List.take_of_length_le (by omega)]
  exact .ok ⟨rfl, hat⟩

theorem uint32_follows (h : r.At c) (order : ByteOrder) :
    Follows Same (r.uint32 order) (c.uint32 order) := by
  refine (word_follows h order (by decide)).bind ?_
  rintro ⟨w, r⟩ ⟨w', c⟩ hsame
  obtain ⟨rfl, hat⟩ := hsame
  exact .ok ⟨rfl, hat⟩

theorem varint_follows (h : r.At c) : Follows Same r.varint c.varint := by
  have hle := h.position_le
  have hlt := h.length_lt
  have hrest := h.length_rest
  have hread := readVarint_start (show c.rest.length < 2 ^ 63 by omega) (Nat.zero_le _)
  -- The number is read in a slice, so its positions start from zero again.
  unfold varint Cursor.varint
  rw [slice_length_eq hle, Result.ok_bind, ← h.rest_eq]
  cases hvarint : Varint.read 64 c.rest with
  | error fault =>
    rw [List.drop_zero, hvarint] at hread
    rw [hread.eq_refuse]
    exact .refused _
  | ok more =>
    rw [List.drop_zero, hvarint] at hread
    obtain ⟨⟨n, length⟩, hrun, hn, htail, hlength⟩ := hread.exists_of_ok
    dsimp only at htail hlength
    have hadd : add r.position length = .ok (r.position + length) := add_eq (by omega)
    simp only [hrun, Result.ok_bind, hadd, Result.pure_eq]
    refine .ok ⟨hn, ?_⟩
    dsimp only
    rw [htail]
    exact h.advance hlength

theorem floatsOf_follows (h : r.At c) (order : ByteOrder) {count : Nat}
    (hcount : 8 * count ≤ c.rest.length) :
    Follows Same (floatsOf order count r)
      (.ok ((cut 8 count c.rest).map fun bytes => Binary64.ofWord (order.word bytes),
        { c with rest := c.rest.drop (8 * count) })) := by
  induction count generalizing r c with
  | zero => exact .ok ⟨rfl, h⟩
  | succ count ih =>
    have htake : c.take 8 = .ok (c.rest.take 8, { c with rest := c.rest.drop 8 }) :=
      Cursor.take_eq_ok_iff.mpr ⟨(List.take_append_drop 8 c.rest).symm, by
        rw [List.length_take]
        omega, rfl⟩
    -- Eight bytes are there, so the first value is read on both sides.
    have hword : c.word order 8 =
        .ok (order.word (c.rest.take 8), { c with rest := c.rest.drop 8 }) := by
      rw [Cursor.word, htake]
      rfl
    have hfirst := word_follows h order (Nat.le_refl 8)
    rw [hword] at hfirst
    obtain ⟨⟨w, r'⟩, hrun, hw, hat⟩ := hfirst.exists_of_ok
    have hrest := ih hat (by dsimp only; rw [List.length_drop]; omega)
    obtain ⟨⟨values, r''⟩, hvalues, hsame, hat'⟩ := hrest.exists_of_ok
    dsimp only at hw hsame
    have hdrop : (c.rest.drop 8).drop (8 * count) = c.rest.drop (8 * (count + 1)) := by
      rw [List.drop_drop]
      congr 1
      omega
    rw [hdrop] at hat'
    simp only [floatsOf, hrun, hvalues, Result.ok_bind, Result.pure_eq]
    refine .ok ⟨?_, hat'⟩
    dsimp only
    rw [hw, hsame]
    rfl

theorem floats_follows (h : r.At c) (order : ByteOrder) (count : Nat) :
    Follows Same (r.floats order count) (c.floats order count) := by
  have hlt := h.length_lt
  have hrest := h.length_rest
  unfold floats
  rw [h.remaining_eq, Result.ok_bind]
  -- The greatest number of the machine is more than any rest, so stopping there changes nothing.
  by_cases hcount : 8 * count ≤ c.rest.length
  · rw [if_neg (by omega), Cursor.floats, if_pos hcount]
    exact floatsOf_follows h order hcount
  · rw [if_pos (by omega), Cursor.floats, if_neg hcount]
    exact .refused _

theorem finish_follows (h : r.At c) (context : String) :
    Follows Eq (r.finish context) (c.finish context) := by
  unfold finish Cursor.finish
  rw [h.remaining_eq, Result.ok_bind]
  cases c.rest with
  | nil => exact .ok rfl
  | cons b rest => exact .refused _

end Reader

end Machine

end PointCloud
