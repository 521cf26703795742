import PointCloud.Decimal.Style

/-!
# Writing document texts

Documents are written without blanks. In strings, quotes, backslashes and control characters are
escaped, the common ones by a letter and the others by their code unit; every other character stands
for itself.
-/

namespace PointCloud

namespace Document

/-- A digit of a written code unit. -/
private def hexDigit (n : Nat) : Char := (Nat.toDigits 16 n).getLastD '0'

/-- The characters that stand for one character in a string. -/
def escape (c : Char) : List Char :=
  if c = '"' then ['\\', '"']
  else if c = '\\' then ['\\', '\\']
  else if c = '\x08' then ['\\', 'b']
  else if c = '\t' then ['\\', 't']
  else if c = '\n' then ['\\', 'n']
  else if c = '\x0c' then ['\\', 'f']
  else if c = '\r' then ['\\', 'r']
  else if c.toNat < 0x20 then
    ['\\', 'u', '0', '0', hexDigit (c.toNat / 16), hexDigit (c.toNat % 16)]
  else [c]

/-- A string. -/
def ofText (s : String) : String := String.ofList ('"' :: s.toList.flatMap escape ++ ['"'])

/-- A floating value, written as the shortest decimal. -/
def ofFloat (x : Binary64) : String := NumberStyle.document.text x

/-- A truth value. -/
def ofBool (b : Bool) : String := if b then "true" else "false"

/-- A value, or a null. -/
def ofOption {α : Type} (write : α → String) : Option α → String
  | none => "null"
  | some x => write x

/-- An array of written values. -/
def ofItems (items : List String) : String := "[" ++ ",".intercalate items ++ "]"

/-- An object of written values. -/
def ofMembers (members : List (String × String)) : String :=
  "\x7b" ++ ",".intercalate (members.map fun (key, value) => ofText key ++ ":" ++ value) ++ "\x7d"

end Document

end PointCloud
