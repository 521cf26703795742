import PointCloud.Decimal.Reading

/-!
# Documents

A document is a JSON text. Its tree keeps what was written: the members of an object in order and
with repetitions, numbers as decimals of limited length, strings as glyphs in which escaped code
units may still be halves of a pair. Whether a string or a number has a meaning is decided where it
is used, so a document may carry, in places that nobody reads, strings and numbers that mean
nothing.
-/

namespace PointCloud

/-- One sign of a written string. -/
inductive Glyph where
  /-- A character, written itself or by a short escape. -/
  | char (c : Char)
  /-- A code unit of sixteen bits, written as an escape. -/
  | unit (u : Nat)
  deriving DecidableEq, Repr

/-- A written number: `coefficient * 10 ^ exponent`, as far as the coefficient holds its digits. -/
structure Numeral10 where
  negative : Bool
  coefficient : Nat
  exponent : Int
  /-- Whether the number has neither a fraction nor an exponent part and the coefficient holds all
  of its digits. -/
  whole : Bool
  deriving DecidableEq, Repr

/-- The tree of a document. -/
inductive Document where
  | null
  | bool (b : Bool)
  | number (n : Numeral10)
  | string (glyphs : List Glyph)
  | array (items : List Document)
  | object (members : List (List Glyph × Document))
  deriving Repr, Inhabited

namespace Glyph

/-- The characters of a written string. A high half of a pair has to be followed by an escaped low
half; a half that stands alone means nothing. -/
def characters? : List Glyph → Option (List Char)
  | [] => some []
  | char c :: glyphs => (characters? glyphs).map (c :: ·)
  | unit u :: glyphs =>
    if u < 0xd800 || 0xdfff < u then (characters? glyphs).map (Char.ofNat u :: ·)
    else
      match glyphs with
      | unit v :: glyphs =>
        if u < 0xdc00 && 0xdc00 ≤ v && v ≤ 0xdfff then
          let code := 0x10000 + (u - 0xd800) * 0x400 + (v - 0xdc00)
          (characters? glyphs).map (Char.ofNat code :: ·)
        else none
      | _ => none

/-- The text of a written string. -/
def text? (glyphs : List Glyph) : Option String := (characters? glyphs).map String.ofList

end Glyph

namespace Numeral10

/-- The eight-byte value; none past the largest. -/
def float? (n : Numeral10) : Option Binary64 :=
  Binary64.ofDecimal? n.negative n.coefficient n.exponent

/-- The integer, if the number is written as one. Minus zero is not. -/
def integer? (n : Numeral10) : Option Int :=
  if !n.whole || (n.negative && n.coefficient = 0) then none
  else some (if n.negative then -(n.coefficient : Int) else n.coefficient)

end Numeral10

end PointCloud
