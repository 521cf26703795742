import PointCloud.Key
import PointCloud.Patch.Basic

/-!
# Sorting

Points are sorted by the values of named dimensions, the first named counting most. Words are
compared by their sort keys, which have the order of the values, so no value is computed. Points of
equal keys keep their order, and the result is stored under a scheme that keeps it.
-/

namespace PointCloud

namespace Patch

variable [Compressors]

/-- The sort key of a row. -/
def sortKey (dimensions : List Dimension) (row : Row) : List Nat :=
  dimensions.map fun d => d.sortKey (row.getD d.position 0)

/-- The points in ascending order of the named dimensions. -/
def sort (p : Patch) (config : Config) (s : Schema) (names : List String)
    (target : Option Scheme) : Except Error Patch := do
  let dimensions ← names.mapM s.named
  let rows ← p.rows s
  ofRows config s (Key.sortBy (sortKey dimensions) rows) (target.getD p.scheme).keepingOrder

/-- Whether the points are in ascending order of the named dimensions; if strict, without equal
neighbours. -/
def isSorted (p : Patch) (s : Schema) (names : List String) (strict : Bool) :
    Except Error Bool := do
  let dimensions ← names.mapM s.named
  let rows ← p.rows s
  return Key.ascending (if strict then Key.lt else Key.le) (rows.map (sortKey dimensions))

end Patch

end PointCloud
