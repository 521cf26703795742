import Mathlib
import PointCloud.Bytes.Cursor
import PointCloud.Proofs.Result

/-!
# Reading what was written

A cursor before a field that was written reads it, and stands before what follows the field.

Main results:

* `Cursor.word_append` — for words of a fixed size;
* `Cursor.varint_append` — for variable-length numbers.
-/

namespace PointCloud

namespace Cursor

variable (total : Nat) (rest : Bytes)

@[simp] theorem byte_cons (b : UInt8) :
    (Cursor.mk total (b :: rest)).byte = .ok (b, ⟨total, rest⟩) :=
  rfl

@[simp] theorem finish_nil (context : String) : (Cursor.mk total []).finish context = .ok () := rfl

/-- Reading may end only where no byte is left. -/
theorem finish_eq_ok_iff {c : Cursor} {context : String} {u : Unit} :
    c.finish context = .ok u ↔ c.rest = [] := by
  unfold finish
  split <;> simp_all

/-- A field that was written is taken whole. -/
theorem take_length_append {count : Nat} (bytes : Bytes) (h : bytes.length = count) :
    (Cursor.mk total (bytes ++ rest)).take count = .ok (bytes, ⟨total, rest⟩) :=
  take_eq_ok_iff.mpr ⟨rfl, h, rfl⟩

theorem word_append (order : ByteOrder) {size w : Nat} (h : w < 256 ^ size) :
    (Cursor.mk total (order.bytes size w ++ rest)).word order size = .ok (w, ⟨total, rest⟩) := by
  have htake := take_length_append total rest (order.bytes size w) (order.length_bytes size w)
  have hword : order.word (order.bytes size w) = w := by
    rw [ByteOrder.word_bytes, Nat.mod_eq_of_lt h]
  simp only [word, htake, Result.ok_bind, Result.pure_eq, hword]

theorem varint_append {n : Nat} (h : n < 2 ^ 64) :
    (Cursor.mk total (Varint.write n ++ rest)).varint = .ok (n, ⟨total, rest⟩) := by
  have hread := Varint.read_write 64 n rest h (by omega)
  simp only [varint, hread]

end Cursor

end PointCloud
