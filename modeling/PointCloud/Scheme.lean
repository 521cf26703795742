import PointCloud.Error

/-!
# Schemes

A scheme says how the points of a patch are stored. Its tag is one byte of the patch header.

Main result:

* `Scheme.ofTag?_eq_some_iff` — a byte is the tag of a scheme exactly if reading gives that scheme.
-/

namespace PointCloud

/-- How the points of a patch are stored. -/
inductive Scheme where
  /-- The bytes of the points as they are. -/
  | uncompressed
  /-- A column for every dimension, each encoded by its own method. -/
  | dimensional
  /-- Points grouped by place, words of a group stored as differences. -/
  | hierarchical
  /-- The bytes of all points in one compressed stream. -/
  | externalLossless
  deriving DecidableEq, Repr, Inhabited

namespace Scheme

/-- Every scheme, in the order of the tags. -/
def all : List Scheme := [uncompressed, dimensional, hierarchical, externalLossless]

/-- The byte that stands for a scheme. -/
def tag : Scheme → UInt8
  | uncompressed => 0
  | dimensional => 1
  | hierarchical => 2
  | externalLossless => 3

/-- The scheme of a tag. -/
def ofTag? (tag : UInt8) : Option Scheme := all.find? fun s => s.tag == tag

/-- The scheme of a tag, which has to be known. -/
def ofTag (tag : UInt8) : Except Error Scheme :=
  match ofTag? tag with
  | some s => .ok s
  | none => .error (.unsupportedScheme tag)

/-- The name used in messages. -/
def name : Scheme → String
  | uncompressed => "Uncompressed"
  | dimensional => "Dimensional"
  | hierarchical => "Hierarchical"
  | externalLossless => "ExternalLossless"

/-- The name used in documents. -/
def keyword : Scheme → String
  | uncompressed => "uncompressed"
  | dimensional => "dimensional"
  | hierarchical => "hierarchical"
  | externalLossless => "external_lossless"

/-- The scheme of a document name. -/
def ofKeyword? (s : String) : Option Scheme := all.find? fun scheme => scheme.keyword == s

theorem ofTag?_eq_some_iff {tag : UInt8} {s : Scheme} : ofTag? tag = some s ↔ tag = s.tag := by
  constructor
  · intro h
    have := List.find?_some h
    simpa using (eq_of_beq this).symm
  · rintro rfl
    cases s <;> rfl

/-- A scheme that keeps the order of the points: the given one, unless it groups points. -/
def keepingOrder : Scheme → Scheme
  | hierarchical => dimensional
  | s => s

end Scheme

end PointCloud
