import PointCloud.Decimal.Shortest

/-!
# Number styles

A style says how a shortest decimal is laid out: which decimal exponents are written without an
exponent part, whether a whole number keeps a point and a zero, how a tie between two shortest
decimals falls, and the names of the values that have no digits.
-/

namespace PointCloud

/-- A layout for eight-byte values. The exponent limits are those of the leading digit. -/
structure NumberStyle where
  /-- The least exponent written positionally, if there is one. -/
  lowest : Option Int
  /-- The greatest exponent written positionally, if there is one. -/
  highest : Option Int
  /-- Whether a whole number ends in a point and a zero. -/
  pointZero : Bool
  tie : Tie
  nan : String
  infinity : String
  negativeInfinity : String

namespace NumberStyle

/-- Numbers in documents: positional for exponents -5 to 15, and always with a fraction or an
exponent. Values without digits are written as the document's null. -/
def document : NumberStyle where
  lowest := some (-5)
  highest := some 15
  pointZero := true
  tie := .toEven
  nan := "null"
  infinity := "null"
  negativeInfinity := "null"

/-- Numbers in messages: always positional, whole numbers without a fraction. -/
def message : NumberStyle where
  lowest := none
  highest := none
  pointZero := false
  tie := .up
  nan := "NaN"
  infinity := "inf"
  negativeInfinity := "-inf"

/-- Whether a number whose leading digit has exponent `e` is written without an exponent part. -/
def positional (style : NumberStyle) (e : Int) : Bool :=
  style.lowest.all (· ≤ e) && style.highest.all (e ≤ ·)

/-- Lays out the decimal `c * 10 ^ p`. -/
def layout (style : NumberStyle) (c : Nat) (p : Int) : List Char :=
  let digits := Nat.toDigits 10 c
  let e := p + digits.length - 1
  if style.positional e then
    if 0 ≤ p then
      digits ++ List.replicate p.toNat '0' ++ (if style.pointZero then ['.', '0'] else [])
    else if 0 ≤ e then
      digits.take (e.toNat + 1) ++ '.' :: digits.drop (e.toNat + 1)
    else
      '0' :: '.' :: List.replicate ((-e).toNat - 1) '0' ++ digits
  else
    let fraction := digits.drop 1
    digits.take 1 ++ (if fraction.isEmpty then [] else '.' :: fraction) ++
      ['e', if e < 0 then '-' else '+'] ++ Nat.toDigits 10 e.natAbs

/-- The text of a value. -/
def text (style : NumberStyle) (x : Binary64) : String :=
  if x.isNaN then style.nan
  else if !x.isFinite then
    if x.negative then style.negativeInfinity else style.infinity
  else
    let (c, p) := if x.isZero then (0, 0) else Decimal.shortest style.tie x.magnitude
    String.ofList ((if x.negative then ['-'] else []) ++ style.layout c p)

end NumberStyle

end PointCloud
