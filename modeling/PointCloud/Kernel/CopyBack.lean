import PointCloud.Bytes.Numeral

/-!
# Copies of earlier output

A repeated stretch is stored as how far back it began and how long it is. It may be longer than it
began far back: then it runs into its own output and goes round. It may begin before all output:
what lies there counts as zeros.

Main results:

* `size_copyBack` — a copy has its length;
* `copyBack_eq_append` — earlier output stays as it is.
-/

namespace PointCloud

/-- The byte that lies `distance` bytes before the end, or zero before the beginning. -/
def byteBack (distance : Nat) (out : Array UInt8) : UInt8 :=
  if distance ≤ out.size then out.getD (out.size - distance) 0 else 0

/-- Appends a copy of `length` bytes that begin `distance` bytes before the end. -/
def copyBack (distance : Nat) : Nat → Array UInt8 → Array UInt8
  | 0, out => out
  | length + 1, out => copyBack distance length (out.push (byteBack distance out))

theorem size_copyBack (distance length : Nat) (out : Array UInt8) :
    (copyBack distance length out).size = out.size + length := by
  induction length generalizing out with
  | zero => rfl
  | succ length ih => rw [copyBack, ih, Array.size_push]; omega

theorem copyBack_eq_append (distance length : Nat) (out : Array UInt8) :
    ∃ copy : Array UInt8, copyBack distance length out = out ++ copy := by
  induction length generalizing out with
  | zero => exact ⟨#[], by simp [copyBack]⟩
  | succ length ih =>
    obtain ⟨copy, h⟩ := ih (out.push (byteBack distance out))
    exact ⟨#[byteBack distance out] ++ copy, by rw [copyBack, h]; simp⟩

end PointCloud
