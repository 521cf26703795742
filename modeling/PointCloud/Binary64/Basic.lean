import PointCloud.Binary64.Format
import PointCloud.Bytes.Order

/-!
# Eight-byte floating-point values

A value is a sign and the bits of its magnitude. Comparison is the numeric one: a NaN compares
with nothing and the two zeros are equal. `rank` is the total order on bit patterns that puts
negative NaNs first and the others last.
-/

namespace PointCloud

open BinaryFormat (binary32 binary64)

/-- An eight-byte floating-point value. -/
structure Binary64 where
  negative : Bool
  /-- Exponent and fraction field, read as one number. -/
  magnitude : Nat
  magnitude_lt : magnitude < 2 ^ 63 := by decide
  deriving DecidableEq, Repr

namespace Binary64

/-! ## Words -/

/-- The value with the given bit pattern; bits past the sixty-fourth are ignored. -/
def ofWord (word : Nat) : Binary64 where
  negative := word / 2 ^ 63 % 2 = 1
  magnitude := word % 2 ^ 63
  magnitude_lt := Nat.mod_lt _ (by decide)

/-- The bit pattern of a value. -/
def toWord (x : Binary64) : Nat :=
  (if x.negative then 2 ^ 63 else 0) + x.magnitude

theorem toWord_lt (x : Binary64) : x.toWord < 2 ^ 64 := by
  have := x.magnitude_lt
  unfold toWord
  split <;> omega

theorem toWord_ofWord (word : Nat) : (ofWord word).toWord = word % 2 ^ 64 := by
  simp only [toWord, ofWord, decide_eq_true_eq]
  split <;> omega

theorem ofWord_toWord (x : Binary64) : ofWord x.toWord = x := by
  obtain ⟨negative, magnitude, h⟩ := x
  cases negative
  · have hdiv : magnitude / 2 ^ 63 = 0 := Nat.div_eq_of_lt h
    simp only [toWord, ofWord, Bool.false_eq_true, if_false, Nat.zero_add, hdiv,
      Nat.mod_eq_of_lt h, Nat.zero_mod, Nat.zero_ne_one, decide_false]
  · have hdiv : (2 ^ 63 + magnitude) / 2 ^ 63 = 1 := by omega
    have hmod : (2 ^ 63 + magnitude) % 2 ^ 63 = magnitude := by omega
    simp only [toWord, ofWord, if_true, hdiv, hmod, Nat.one_mod, decide_true]

instance : Inhabited Binary64 := ⟨ofWord 0⟩

/-! ## Classes and named values -/

/-- The value of sign `negative` and magnitude bits `min magnitude infinity`. -/
def ofMagnitude (negative : Bool) (magnitude : Nat) : Binary64 where
  negative
  magnitude := min magnitude binary64.infinity
  magnitude_lt := Nat.lt_of_le_of_lt (Nat.min_le_right ..) (by decide)

/-- The NaN that arithmetic produces. -/
def nan : Binary64 := ⟨false, 0x7ff8000000000000, by decide⟩

/-- Positive infinity, or negative infinity. -/
def infinity (negative : Bool) : Binary64 := ⟨negative, 0x7ff0000000000000, by decide⟩

/-- Positive or negative zero. -/
def zero (negative : Bool) : Binary64 := ⟨negative, 0, by decide⟩

/-- One. -/
def one : Binary64 := ⟨false, 0x3ff0000000000000, by decide⟩

/-- Whether a value is a NaN. -/
def isNaN (x : Binary64) : Bool := binary64.infinity < x.magnitude

/-- Whether a value is neither an infinity nor a NaN. -/
def isFinite (x : Binary64) : Bool := x.magnitude < binary64.infinity

/-- Whether a value is one of the two zeros. -/
def isZero (x : Binary64) : Bool := x.magnitude = 0

/-- The same magnitude with the other sign. -/
def neg (x : Binary64) : Binary64 := { x with negative := !x.negative }

/-- The same magnitude with a positive sign. -/
def abs (x : Binary64) : Binary64 := { x with negative := false }

/-! ## Order -/

/-- Places values other than NaNs in numeric order; the two zeros share a place. -/
def place (x : Binary64) : Int := if x.negative then -(x.magnitude : Int) else x.magnitude

/-- Numeric `≤`, false when either side is a NaN. -/
def le (x y : Binary64) : Bool := !x.isNaN && !y.isNaN && decide (x.place ≤ y.place)

/-- Numeric `<`, false when either side is a NaN. -/
def lt (x y : Binary64) : Bool := !x.isNaN && !y.isNaN && decide (x.place < y.place)

/-- Numeric equality, false when either side is a NaN. -/
def equals (x y : Binary64) : Bool := !x.isNaN && !y.isNaN && decide (x.place = y.place)

/-- The lesser of two values; a NaN gives way to the other side. -/
def minimum (x y : Binary64) : Binary64 :=
  if y.isNaN || x.le y then x else y

/-- The greater of two values; a NaN gives way to the other side. -/
def maximum (x y : Binary64) : Binary64 :=
  if y.isNaN || y.le x then x else y

/-- Places every bit pattern in a total order that refines the numeric one. -/
def rank (x : Binary64) : Int := if x.negative then -1 - (x.magnitude : Int) else x.magnitude

end Binary64

end PointCloud
