import PointCloud.Patch.Basic
import PointCloud.Predicate
import PointCloud.Repeats

/-!
# Filters

A filter keeps the points whose value of one dimension passes a test, in order. The value is the one
that bounds and points report, so a limit taken from a patch selects the points that attain it.
-/

namespace PointCloud

namespace Patch

variable [Compressors]

/-- Encodes a patch again under another scheme. -/
def recompress (p : Patch) (config : Config) (s : Schema) (scheme : Scheme) :
    Except Error Patch := do
  let rows ← p.rows s
  ofRows config s rows scheme

/-- Whether a row passes a test of one dimension. -/
def passes (d : Dimension) (predicate : Predicate) (row : Row) : Bool :=
  predicate.holds (d.value (row.getD d.position 0))

/-- The points that pass a test of the named dimension. -/
def filter (p : Patch) (config : Config) (s : Schema) (name : String) (predicate : Predicate)
    (target : Option Scheme) : Except Error Patch := do
  let d ← s.named name
  let rows ← p.rows s
  ofRows config s (filterRepeats (passes d predicate) rows) (target.getD p.scheme)

end Patch

end PointCloud
