import PointCloud.Document.Parse
import PointCloud.Error

/-!
# Values from documents

A record is written as an object, or as an array of its fields in order. Fields that the record does
not know are passed over in an object and refused in an array; a field given twice is refused. A
choice without data is written as its name, or as an object with that name and a null.
-/

namespace PointCloud

namespace Document

/-! ## Single values -/

/-- A text. -/
def text? : Document → Option String
  | string glyphs => Glyph.text? glyphs
  | _ => none

/-- A truth value. -/
def bool? : Document → Option Bool
  | bool b => some b
  | _ => none

/-- A floating value. -/
def float? : Document → Option Binary64
  | number n => n.float?
  | _ => none

/-- An integer from `lo` to `hi`. -/
def integer? (lo hi : Int) : Document → Option Int
  | number n => n.integer?.filter fun i => lo ≤ i && i ≤ hi
  | _ => none

/-- A natural number of at most `bits` bits. -/
def natural? (bits : Nat) (d : Document) : Option Nat :=
  (d.integer? 0 (2 ^ bits - 1)).map Int.toNat

/-- A signed number of at most `bits` bits. -/
def signed? (bits : Nat) (d : Document) : Option Int :=
  d.integer? (-2 ^ (bits - 1)) (2 ^ (bits - 1) - 1)

/-- A null, or a value. -/
def optional? {α : Type} (read : Document → Option α) : Document → Option (Option α)
  | null => some none
  | d => (read d).map some

/-- An array of values. -/
def list? {α : Type} (read : Document → Option α) : Document → Option (List α)
  | array items => items.mapM read
  | _ => none

/-! ## Records and choices -/

/-- The texts of the keys of an object, beside their values. -/
def members? (members : List (List Glyph × Document)) : Option (List (String × Document)) :=
  members.mapM fun (key, value) => (Glyph.text? key).map (·, value)

/-- The value of a field in an object, if it is there; refused if it is there twice. -/
def field? (members : List (String × Document)) (name : String) : Option (Option Document) :=
  match members.filter fun (key, _) => key == name with
  | [] => some none
  | [(_, value)] => some (some value)
  | _ => none

/-- The values of the fields of a record, in order, as far as they are there. -/
def record? (names : List String) : Document → Option (List (Option Document))
  | object members => do
    let members ← members? members
    names.mapM (field? members)
  | array items =>
    if names.length < items.length then none
    else some (items.map some ++ List.replicate (names.length - items.length) none)
  | _ => none

/-- A field that has to be there. -/
def required? {α : Type} (read : Document → Option α) (field : Option Document) : Option α :=
  field.bind read

/-- A field that may be missing. -/
def defaulted? {α : Type} (default : α) (read : Document → Option α) :
    Option Document → Option α
  | none => some default
  | some d => read d

/-- The name of a choice and its data, if it has any. -/
def choice? : Document → Option (String × Option Document)
  | string glyphs => (Glyph.text? glyphs).map (·, none)
  | object [(key, value)] => (Glyph.text? key).map (·, some value)
  | _ => none

/-- A choice without data. -/
def plainChoice? {α : Type} (ofName? : String → Option α) (d : Document) : Option α :=
  match d.choice? with
  | some (name, none) => ofName? name
  | some (name, some null) => ofName? name
  | _ => none

/-! ## Values that are kept aside

A record whose shape depends on one of its fields is first read in full. What is kept aside has to
have a meaning throughout, and may not be nested too deeply. -/

/-- The deepest nesting of arrays and objects in a value that is kept aside. -/
def depthLimit : Nat := 127

/-- Whether every text and number in a value has a meaning, within `depth` levels of nesting. -/
def isKept : Nat → Document → Bool
  | _, null => true
  | _, bool _ => true
  | _, number n => n.float?.isSome
  | _, string glyphs => (Glyph.text? glyphs).isSome
  | 0, _ => false
  | depth + 1, array items => items.all (isKept depth)
  | depth + 1, object members =>
    members.all fun (key, value) => (Glyph.text? key).isSome && isKept depth value

/-! ## Whole texts -/

/-- Reads a text whose tree has to be a value of the expected kind. -/
def read {α : Type} (value? : Document → Option α) (text : String) : Except Error α :=
  match (parse? text).bind value? with
  | some value => .ok value
  | none => .error .malformedDocument

end Document

end PointCloud
