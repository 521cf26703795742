import PointCloud.Binary64.Arithmetic

/-!
# Interpretations of words

An interpretation says what number a word stands for: one of eight integer types or a floating
value of four or eight bytes. The order key of a word is a word whose natural order is the order of
the stored numbers; for floating types it is the total order on bit patterns.
-/

namespace PointCloud

/-- What the words of a dimension stand for. -/
inductive Interpretation where
  | int8 | uint8 | int16 | uint16 | int32 | uint32 | int64 | uint64 | float32 | float64
  deriving DecidableEq, Repr, Inhabited

namespace Interpretation

/-- Every interpretation. -/
def all : List Interpretation :=
  [int8, uint8, int16, uint16, int32, uint32, int64, uint64, float32, float64]

/-- The bytes of a stored word. -/
def size : Interpretation → Nat
  | int8 | uint8 => 1
  | int16 | uint16 => 2
  | int32 | uint32 | float32 => 4
  | int64 | uint64 | float64 => 8

/-- The bits of a stored word. -/
def bits (t : Interpretation) : Nat := 8 * t.size

/-- Whether words stand for two's complement integers. -/
def isSigned : Interpretation → Bool
  | int8 | int16 | int32 | int64 => true
  | _ => false

/-- Whether words stand for floating values. -/
def isFloat : Interpretation → Bool
  | float32 | float64 => true
  | _ => false

/-- Whether words stand for integers. -/
def isInteger (t : Interpretation) : Bool := !t.isFloat

/-- The name used in messages. -/
def name : Interpretation → String
  | int8 => "Int8" | uint8 => "UInt8" | int16 => "Int16" | uint16 => "UInt16"
  | int32 => "Int32" | uint32 => "UInt32" | int64 => "Int64" | uint64 => "UInt64"
  | float32 => "Float32" | float64 => "Float64"

/-- The name used in documents. -/
def keyword : Interpretation → String
  | int8 => "int8" | uint8 => "uint8" | int16 => "int16" | uint16 => "uint16"
  | int32 => "int32" | uint32 => "uint32" | int64 => "int64" | uint64 => "uint64"
  | float32 => "float32" | float64 => "float64"

/-- The second name that documents may use. -/
def alternative : Interpretation → String
  | float32 => "float"
  | float64 => "double"
  | t => t.keyword ++ "_t"

/-- The interpretation of a document name. -/
def ofKeyword? (s : String) : Option Interpretation :=
  all.find? fun t => s == t.keyword || s == t.alternative

/-- The greatest word. -/
def mask (t : Interpretation) : Nat := 2 ^ t.bits - 1

/-- The least and the greatest integer that words stand for; none for floating types. -/
def range? (t : Interpretation) : Option (Int × Int) :=
  if t.isFloat then none
  else if t.isSigned then some (-2 ^ (t.bits - 1), 2 ^ (t.bits - 1) - 1)
  else some (0, 2 ^ t.bits - 1)

/-- The floating value of a word. -/
def float (t : Interpretation) (word : Nat) : Binary64 :=
  match t with
  | float32 => Binary64.ofBinary32 word
  | _ => Binary64.ofWord word

/-- The least and greatest integer that a floating value is cut to. -/
def truncationRange : Int × Int := (-2 ^ 127, 2 ^ 127 - 1)

/-- The integer of a word. A floating value is cut toward zero; bits past the width of a signed
type are ignored. -/
def integer (t : Interpretation) (word : Nat) : Int :=
  if t.isFloat then (t.float word).truncate truncationRange.1 truncationRange.2
  else if t.isSigned then Int.bmod word (2 ^ t.bits)
  else word

/-- The integer of a whole value, if words stand for it. The ends of the widest types are not
floating values, and their neighbours lie outside the range. So the value is held against the
rounded ends first, for it may be too great to be converted, and its integer against the ends. -/
def integerOf? (t : Interpretation) (x : Binary64) : Option Int :=
  match t.range? with
  | none => none
  | some (lo, hi) =>
    if !x.isFinite then none
    else if x.lt (.ofInt lo) || (Binary64.ofInt hi).lt x then none
    else
      let n := x.truncate truncationRange.1 truncationRange.2
      if n < lo ∨ hi < n then none else some n

/-- The word of an integer: its low bits in two's complement. -/
def ofInteger (t : Interpretation) (n : Int) : Nat := (n % 2 ^ t.bits).toNat

/-- The number of a word, before scale and offset. -/
def number (t : Interpretation) (word : Nat) : Binary64 :=
  if t.isFloat then t.float word else Binary64.ofInt (t.integer word)

/-- The order key of a word: for unsigned types the word itself, for signed types the word with its
sign bit flipped, for floating types every bit flipped below a set sign bit and the sign bit set
otherwise. -/
def orderKey (t : Interpretation) (word : Nat) : Nat :=
  let sign := 2 ^ (t.bits - 1)
  if t.isFloat then
    if word / sign % 2 = 1 then t.mask - word % 2 ^ t.bits else word + sign
  else if t.isSigned then (word + sign) % 2 ^ t.bits
  else word

end Interpretation

end PointCloud
