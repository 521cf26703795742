import PointCloud.Column.Basic
import PointCloud.Document.Decode
import PointCloud.Document.Write

/-!
# Tallies

A tally adds up, over the patches of a schema, how many runs the columns of every dimension have and
how many leading bits they share. From these totals it estimates how long the columns would be under
each method and recommends one: runs if they are more than four times shorter than the words, else
shared bits if they are more than 1.6 times shorter, else a zlib stream.

Main result:

* `Tally.recommend_of_isFloat` — columns of floating values are always left to zlib.
-/

namespace PointCloud

/-- The totals of one dimension. -/
structure DimensionTally where
  runs : Nat := 0
  sharedBits : Nat := 0
  recommendation : ColumnMethod := .deflate
  deriving DecidableEq, Repr, Inhabited

/-- The totals of a schema. -/
structure Tally where
  /-- The count of dimensions that are followed. -/
  width : Nat
  points : Nat
  patches : Nat
  dimensions : List DimensionTally
  deriving DecidableEq, Repr, Inhabited

namespace Tally

/-! ## Recommendations -/

/-- The ratio past which runs are recommended: four. -/
def runLengthRatio : Binary64 := .ofNat 4

/-- The ratio past which shared bits are recommended: 1.6. -/
def sharedBitsRatio : Binary64 := .ofNat 16 / .ofNat 10

/-- The method for a dimension with the given totals. A run takes a word and a byte; a patch takes
two words, and every point the bits that are not shared on average. -/
def recommend (d : Dimension) (points patches runs sharedBits : Nat) : ColumnMethod :=
  if d.interpretation.isFloat || patches = 0 then .deflate
  else
    let eight := Binary64.ofNat 8
    let size := Binary64.ofNat d.size
    let verbatim := .ofNat points * size
    let inRuns := .ofNat runs * (size + .one)
    let unique := eight * size - .ofNat sharedBits / .ofNat patches
    let packed := .ofNat patches * .ofNat 2 * size + .ofNat points * unique / eight
    if runLengthRatio.lt (verbatim / inRuns) then .runLength
    else if sharedBitsRatio.lt (verbatim / packed) then .sharedBits
    else .deflate

theorem recommend_of_isFloat {d : Dimension} (h : d.interpretation.isFloat = true)
    (points patches runs sharedBits : Nat) :
    recommend d points patches runs sharedBits = .deflate := by
  simp [recommend, h]

/-- The method for one column by itself. -/
def recommendColumn (c : Column) : ColumnMethod :=
  recommend c.dimension c.words.length 1 (RunLength.countRuns c.words)
    (SharedBits.shared c.dimension.interpretation.bits c.words)

end Tally

namespace DimensionTally

/-- The totals of one dimension with those of a column added. What they recommend stays as it is. -/
def add (c : Column) (t : DimensionTally) : DimensionTally :=
  { t with
    runs := t.runs + RunLength.countRuns c.words
    sharedBits := t.sharedBits + SharedBits.shared c.dimension.interpretation.bits c.words }

/-- The totals of one dimension with what they recommend, over `points` points in `patches`
patches. -/
def refresh (points patches : Nat) (d : Dimension) (t : DimensionTally) : DimensionTally :=
  { t with recommendation := Tally.recommend d points patches t.runs t.sharedBits }

/-- Reads the totals of one dimension. -/
def read? (document : Document) : Option DimensionTally := do
  match ← document.record? ["total_runs", "total_commonbits", "recommended_compression"] with
  | [runs, sharedBits, recommendation] =>
    let tag ← Document.required? (Document.natural? 8) recommendation
    return {
      runs := ← Document.required? (Document.natural? 64) runs
      sharedBits := ← Document.required? (Document.natural? 64) sharedBits
      recommendation := ← ColumnMethod.ofTag? (UInt8.ofNat tag) }
  | _ => none

/-- Writes the totals of one dimension. -/
def text (t : DimensionTally) : String :=
  Document.ofMembers [
    ("total_runs", toString t.runs),
    ("total_commonbits", toString t.sharedBits),
    ("recommended_compression", toString t.recommendation.tag)]

end DimensionTally

namespace Tally

/-- The method recommended for the dimension at a position. -/
def recommendation? (t : Tally) (position : Nat) : Option ColumnMethod :=
  t.dimensions[position]?.map (·.recommendation)

/-! ## Adding up -/

/-- The tally of no patches. -/
def empty (s : Schema) : Tally := ⟨s.width, 0, 0, List.replicate s.width {}⟩

/-- Changes the totals that stand beside the elements of a list. Totals beside none stay as they
are. -/
def changeBeside {α : Type} (f : α → DimensionTally → DimensionTally) :
    List α → List DimensionTally → List DimensionTally
  | a :: as, t :: tallies => f a t :: changeBeside f as tallies
  | _, tallies => tallies

/-- Adds a patch of `points` points in place. Had a change been made before a refusal, it would
stay. -/
def addPatch (s : Schema) (buffer : Bytes) (points : Nat) : EStateM Error Tally Unit := do
  let width := (← get).width
  if s.width ≠ width then throw (.invalidSchema (.tallyCountFor width s.pcid s.width))
  let expected ← MonadExcept.ofExcept (bufferLength points s.size)
  if buffer.length ≠ expected then throw (.corruptPatch (.bufferCount buffer.length points))
  modify fun t => { t with points := t.points + points }
  modify fun t => { t with patches := t.patches + 1 }
  let columns := Column.ofRows s (s.rows buffer)
  modify fun t => { t with dimensions := changeBeside DimensionTally.add columns t.dimensions }
  -- What is recommended depends on all totals, so it comes last.
  modify fun t =>
    let refresh := DimensionTally.refresh t.points t.patches
    { t with dimensions := changeBeside refresh s.dimensions t.dimensions }

/-- The tally with a patch of `points` points added. -/
def update (t : Tally) (s : Schema) (buffer : Bytes) (points : Nat) : Except Error Tally :=
  match (addPatch s buffer points).run t with
  | .ok _ t => .ok t
  | .error e _ => .error e

/-! ## Documents -/

/-- Reads the tree of a document. -/
def read? (document : Document) : Option Tally := do
  match ← document.record? ["ndims", "total_points", "total_patches", "dims"] with
  | [width, points, patches, dimensions] =>
    return {
      width := ← Document.required? (Document.natural? 64) width
      points := ← Document.required? (Document.natural? 64) points
      patches := ← Document.required? (Document.natural? 64) patches
      dimensions := ← Document.required? (Document.list? DimensionTally.read?) dimensions }
  | _ => none

/-- Reads the text of a document. -/
def read (text : String) : Except Error Tally := Document.read read? text

/-- Writes a document. -/
def text (t : Tally) : String :=
  Document.ofMembers [
    ("ndims", toString t.width),
    ("total_points", toString t.points),
    ("total_patches", toString t.patches),
    ("dims", Document.ofItems (t.dimensions.map DimensionTally.text))]

end Tally

end PointCloud
