import PointCloud.Document.Tree

/-!
# Reading document texts

A text is one value between blanks. Blanks are space, tab, line feed and carriage return; there are
no comments, no trailing commas, no leading zeros, and no raw control characters in strings. Every
function returns what it read with the characters after it.
-/

namespace PointCloud

namespace Document

/-! ## Characters -/

/-- Whether a character may stand between the signs of a document. -/
def isBlank (c : Char) : Bool := c = ' ' || c = '\t' || c = '\n' || c = '\r'

/-- Drops the blanks in front. -/
def skipBlanks (cs : List Char) : List Char := cs.dropWhile isBlank

/-- Drops a word in front, which has to be there. -/
def skipWord? (word : List Char) (cs : List Char) : Option (List Char) :=
  if word.isPrefixOf cs then some (cs.drop word.length) else none

/-- The value of a hexadecimal digit. -/
def hexDigit? (c : Char) : Option Nat :=
  if '0' ≤ c && c ≤ '9' then some (c.toNat - '0'.toNat)
  else if 'a' ≤ c && c ≤ 'f' then some (c.toNat - 'a'.toNat + 10)
  else if 'A' ≤ c && c ≤ 'F' then some (c.toNat - 'A'.toNat + 10)
  else none

/-! ## Numbers -/

/-- The number that decimal digits spell. -/
def ofDigits (cs : List Char) : Nat := cs.foldl (fun n c => 10 * n + (c.toNat - '0'.toNat)) 0

/-- The greatest coefficient that a number keeps. -/
def coefficientLimit : Nat := 2 ^ 64 - 1

/-- Appends digits to a coefficient, up to the first one that would carry it past the limit. Returns
the digits that are left. -/
def extend (n : Nat) : List Char → Nat × List Char
  | [] => (n, [])
  | c :: cs =>
    let next := 10 * n + (c.toNat - '0'.toNat)
    if coefficientLimit < next then (n, c :: cs) else extend next cs

/-- Reads one decimal digit or more. -/
def takeDigits? (cs : List Char) : Option (List Char × List Char) :=
  let (digits, rest) := cs.span Char.isDigit
  if digits.isEmpty then none else some (digits, rest)

/-- Reads the digits after a point, if there is a point. -/
def takeFraction? : List Char → Option (Option (List Char) × List Char)
  | '.' :: cs => (takeDigits? cs).map fun (digits, rest) => (some digits, rest)
  | cs => some (none, cs)

/-- Reads an exponent part, if there is one. -/
def takeExponent? : List Char → Option (Option Int × List Char)
  | c :: cs =>
    if c = 'e' || c = 'E' then
      let (negative, cs) :=
        match cs with
        | '-' :: cs => (true, cs)
        | '+' :: cs => (false, cs)
        | cs => (false, cs)
      (takeDigits? cs).map fun (digits, rest) =>
        (some (if negative then -(ofDigits digits : Int) else ofDigits digits), rest)
    else some (none, c :: cs)
  | [] => some (none, [])

/-- Reads a number. Digits before the point that the coefficient cannot hold count as places; the
fraction starts over with what the coefficient then holds. -/
def takeNumber? (cs : List Char) : Option (Numeral10 × List Char) := do
  let (negative, cs) := match cs with | '-' :: cs => (true, cs) | cs => (false, cs)
  let (digits, cs) ← takeDigits? cs
  guard (digits.length = 1 || digits.head? ≠ some '0')
  let (fraction?, cs) ← takeFraction? cs
  let (exponent?, cs) ← takeExponent? cs
  let (coefficient, places) := extend 0 digits
  let fraction := fraction?.getD []
  let (coefficient, unheld) := extend coefficient fraction
  let n : Numeral10 :=
    { negative
      coefficient
      exponent := exponent?.getD 0 + places.length - (fraction.length - unheld.length)
      whole := fraction?.isNone && exponent?.isNone && places.isEmpty }
  return (n, cs)

/-! ## Strings -/

/-- The character of a short escape. -/
def shortEscape? : Char → Option Char
  | '"' => some '"'
  | '\\' => some '\\'
  | '/' => some '/'
  | 'b' => some '\x08'
  | 'f' => some '\x0c'
  | 'n' => some '\n'
  | 'r' => some '\r'
  | 't' => some '\t'
  | _ => none

/-- Reads the rest of a string, after its opening quote. -/
def takeString? : List Char → Option (List Glyph × List Char)
  | [] => none
  | '"' :: cs => some ([], cs)
  | '\\' :: 'u' :: a :: b :: c :: d :: cs => do
    let unit := 4096 * (← hexDigit? a) + 256 * (← hexDigit? b) + 16 * (← hexDigit? c) +
      (← hexDigit? d)
    let (glyphs, cs) ← takeString? cs
    return (.unit unit :: glyphs, cs)
  | '\\' :: e :: cs => do
    let c ← shortEscape? e
    let (glyphs, cs) ← takeString? cs
    return (.char c :: glyphs, cs)
  | c :: cs => do
    guard (0x20 ≤ c.toNat)
    let (glyphs, cs) ← takeString? cs
    return (.char c :: glyphs, cs)

/-! ## Values -/

mutual

/-- Reads a value, after its blanks. -/
def takeValue? : Nat → List Char → Option (Document × List Char)
  | 0, _ => none
  | steps + 1, cs =>
    match skipBlanks cs with
    | 'n' :: cs => (skipWord? ['u', 'l', 'l'] cs).map (null, ·)
    | 't' :: cs => (skipWord? ['r', 'u', 'e'] cs).map (bool true, ·)
    | 'f' :: cs => (skipWord? ['a', 'l', 's', 'e'] cs).map (bool false, ·)
    | '"' :: cs => (takeString? cs).map fun (glyphs, cs) => (string glyphs, cs)
    | '[' :: cs =>
      match skipBlanks cs with
      | ']' :: cs => some (array [], cs)
      | cs => (takeItems? steps cs).map fun (items, cs) => (array items, cs)
    | '{' :: cs =>
      match skipBlanks cs with
      | '}' :: cs => some (object [], cs)
      | cs => (takeMembers? steps cs).map fun (members, cs) => (object members, cs)
    | cs => (takeNumber? cs).map fun (n, cs) => (number n, cs)

/-- Reads the items of an array and its closing bracket. -/
def takeItems? : Nat → List Char → Option (List Document × List Char)
  | 0, _ => none
  | steps + 1, cs => do
    let (item, cs) ← takeValue? steps cs
    match skipBlanks cs with
    | ',' :: cs => (takeItems? steps cs).map fun (items, cs) => (item :: items, cs)
    | ']' :: cs => return ([item], cs)
    | _ => none

/-- Reads the members of an object and its closing brace. -/
def takeMembers? : Nat → List Char → Option (List (List Glyph × Document) × List Char)
  | 0, _ => none
  | steps + 1, cs =>
    match skipBlanks cs with
    | '"' :: cs => do
      let (key, cs) ← takeString? cs
      let cs ← skipWord? [':'] (skipBlanks cs)
      let (value, cs) ← takeValue? steps cs
      match skipBlanks cs with
      | ',' :: cs => (takeMembers? steps cs).map fun (members, cs) => ((key, value) :: members, cs)
      | '}' :: cs => return ([(key, value)], cs)
      | _ => none
    | _ => none

end

/-- The tree of a text. Every level of nesting takes a character and at most two steps. -/
def parse? (text : String) : Option Document :=
  let cs := text.toList
  match takeValue? (2 * cs.length + 2) cs with
  | some (document, rest) => if (skipBlanks rest).isEmpty then some document else none
  | none => none

end Document

end PointCloud
