import PointCloud.Error

/-!
# Dimensions

A dimension is one named number of every point. Words of an integer type stand for
`integer * scale + offset`; words of a floating type stand for themselves, and scale and offset do
not apply. A value is encoded as the nearest word, an exact half going away from zero, and refused
if the type has no such word.
-/

namespace PointCloud

/-- One number of every point. -/
structure Dimension where
  name : String
  description : Option String := none
  /-- The place among the dimensions of a point. -/
  position : Nat
  interpretation : Interpretation
  scale : Binary64 := .one
  offset : Binary64 := .zero false
  deriving DecidableEq, Repr

namespace Dimension

/-- The bytes of a stored word. -/
def size (d : Dimension) : Nat := d.interpretation.size

/-- The value that a word stands for. -/
def value (d : Dimension) (word : Nat) : Binary64 :=
  if d.interpretation.isFloat then d.interpretation.float word
  else d.interpretation.number word * d.scale + d.offset

/-- A value once offset and scale are taken off, rounded to a whole number. -/
def unscaled (d : Dimension) (value : Binary64) : Binary64 := ((value - d.offset) / d.scale).toWhole

/-- The word that stands for a value. -/
def word? (d : Dimension) (value : Binary64) : Option Nat :=
  match d.interpretation with
  | .float64 => some value.toWord
  | .float32 =>
    if value.isFinite && Binary64.greatestBinary32.lt value.abs then none else some value.toBinary32
  | t => (t.integerOf? (d.unscaled value)).map t.ofInteger

/-- The word that stands for a value, which has to exist. -/
def word (d : Dimension) (value : Binary64) : Except Error Nat :=
  match d.word? value with
  | some w => .ok w
  | none => .error (.valueOutOfRange d.name value d.interpretation)

/-- The place of a word in the order of the values it stands for: the order key, turned around if
values fall as integers rise. Negative and positive zero share a place. -/
def sortKey (d : Dimension) (word : Nat) : Nat :=
  let t := d.interpretation
  if t.isFloat then t.orderKey (if word = 2 ^ (t.bits - 1) then 0 else word)
  else
    let key := t.orderKey word
    if d.scale.lt (.zero false) then t.mask - key % 2 ^ t.bits else key

end Dimension

end PointCloud
