import PointCloud.Bytes.Order
import PointCloud.Bytes.Pieces
import PointCloud.Error
import PointCloud.Kernel.Varint

/-!
# Cursors

A cursor is the part of a byte string that has not been read, with the length of the whole string.
Reading a field gives its value and the cursor after it; a field that is not all there leaves an
error that names the place.

Main results:

* `Cursor.take_eq_ok_iff` — a field is read exactly if it is all there, and nothing is lost;
* `Cursor.take_append` — bytes after a field do not matter to reading it.
-/

namespace PointCloud

/-- The unread part of a byte string. -/
structure Cursor where
  /-- The length of the whole byte string. -/
  total : Nat
  rest : Bytes
  deriving DecidableEq, Repr

namespace Cursor

/-- The cursor before the first byte. -/
def start (bytes : Bytes) : Cursor := ⟨bytes.length, bytes⟩

/-- The count of bytes read before. -/
def offset (c : Cursor) : Nat := c.total - c.rest.length

/-- Reads `count` bytes. -/
def take (c : Cursor) (count : Nat) : Except Error (Bytes × Cursor) :=
  -- Measuring what was taken keeps a long rest from being gone through for every field.
  let taken := c.rest.take count
  if taken.length < count then
    .error (.corruptPatch (.truncated count c.offset c.rest.length))
  else .ok (taken, { c with rest := c.rest.drop count })

/-- Reads one byte. -/
def byte (c : Cursor) : Except Error (UInt8 × Cursor) :=
  match c.rest with
  | b :: rest => .ok (b, { c with rest })
  | [] => .error (.corruptPatch (.truncated 1 c.offset 0))

/-- Reads a word of `size` bytes. -/
def word (c : Cursor) (order : ByteOrder) (size : Nat) : Except Error (Nat × Cursor) := do
  let (bytes, c) ← c.take size
  return (order.word bytes, c)

/-- Reads a number of thirty-two bits. -/
def uint32 (c : Cursor) (order : ByteOrder) : Except Error (UInt32 × Cursor) := do
  let (w, c) ← c.word order 4
  return (UInt32.ofNat w, c)

/-- Reads a variable-length number of sixty-four bits. -/
def varint (c : Cursor) : Except Error (Nat × Cursor) :=
  match Varint.read 64 c.rest with
  | .ok (n, rest) => .ok (n, { c with rest })
  | .error fault => .error (.kernel (.varint fault))

/-- Reads `count` floating values. -/
def floats (c : Cursor) (order : ByteOrder) (count : Nat) : Except Error (List Binary64 × Cursor) :=
  if 8 * count ≤ c.rest.length then
    let values := (cut 8 count c.rest).map fun bytes => Binary64.ofWord (order.word bytes)
    .ok (values, { c with rest := c.rest.drop (8 * count) })
  else .error (.corruptPatch (.truncatedValues count c.rest.length))

/-- Refuses bytes that are left over. -/
def finish (c : Cursor) (context : String) : Except Error Unit :=
  if c.rest.isEmpty then .ok () else .error (.corruptPatch (.trailing context c.rest.length))

/-! ## Laws -/

theorem take_eq_ok_iff {c c' : Cursor} {count : Nat} {bytes : Bytes} :
    c.take count = .ok (bytes, c') ↔
      c.rest = bytes ++ c'.rest ∧ bytes.length = count ∧ c'.total = c.total := by
  obtain ⟨total', rest'⟩ := c'
  simp only [take, List.length_take]
  split
  · rename_i h
    simp only [reduceCtorEq, false_iff, not_and]
    intro hrest hlength
    rw [hrest, List.length_append] at h
    omega
  · rename_i h
    have hcount : count ≤ c.rest.length := by omega
    simp only [Except.ok.injEq, Prod.mk.injEq, Cursor.mk.injEq]
    constructor
    · rintro ⟨rfl, rfl, rfl⟩
      simp [Nat.min_eq_left hcount]
    · rintro ⟨hrest, rfl, rfl⟩
      simp [hrest]

theorem take_append (total count : Nat) (bytes more : Bytes) (h : count ≤ bytes.length) :
    (Cursor.mk total (bytes ++ more)).take count =
      .ok (bytes.take count, ⟨total, bytes.drop count ++ more⟩) := by
  rw [take_eq_ok_iff]
  refine ⟨?_, by simp [Nat.min_eq_left h], rfl⟩
  rw [← List.append_assoc, List.take_append_drop]

end Cursor

end PointCloud
