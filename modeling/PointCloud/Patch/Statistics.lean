import PointCloud.Patch.Bounds
import PointCloud.Repeats
import PointCloud.Schema.Basic

/-!
# Statistics

The bounds and statistics of points are computed from decoded values. A NaN never widens a box. The
average does not depend on the order of the points: raw integers are summed exactly, and scale and
offset applied once; floating values are summed in ascending order, with compensation for what each
addition loses.
-/

namespace PointCloud

/-- The least, the greatest and the average value of every dimension. -/
structure Statistics where
  lows : List Binary64
  highs : List Binary64
  averages : List Binary64
  deriving DecidableEq, Repr, Inhabited

/-! ## Ends -/

/-- The least of a list of values, infinity if there is none. -/
def least (values : List Binary64) : Binary64 := values.foldl .minimum (.infinity false)

/-- The greatest of a list of values, negative infinity if there is none. -/
def greatest (values : List Binary64) : Binary64 := values.foldl .maximum (.infinity true)

namespace Schema

/-- The values of rows, dimension by dimension. -/
def columnValues (s : Schema) (rows : List Row) : List (List Binary64) :=
  List.zipWith (fun d words => mapRepeats d.value words) s.dimensions (s.columns rows)

/-- The bounds of the first `points` rows. -/
def bounds (s : Schema) (rows : List Row) (points : Nat) : Bounds :=
  if points = 0 then .empty
  else
    let values := s.columnValues (rows.take points)
    .extent (values.map least) (values.map greatest)

end Schema

/-! ## Averages -/

/-- A sum, and what its additions have lost so far. -/
structure CompensatedSum where
  sum : Binary64 := .zero false
  lost : Binary64 := .zero false

namespace CompensatedSum

/-- Adds a value. What is lost is the part of the lesser side that the sum has no room for. -/
def add (s : CompensatedSum) (value : Binary64) : CompensatedSum :=
  let sum := s.sum + value
  let lost :=
    if value.abs.le s.sum.abs then (s.sum - sum) + value else (value - sum) + s.sum
  ⟨sum, s.lost + lost⟩

/-- The sum with what was lost. -/
def total (s : CompensatedSum) : Binary64 := s.sum + s.lost

end CompensatedSum

/-- The sum of floating values, added in ascending order. -/
def sumAscending (values : List Binary64) : Binary64 :=
  let sorted := values.mergeSort fun a b => a.rank ≤ b.rank
  (sorted.foldl CompensatedSum.add {}).total

/-- The average of the words of a dimension, over `points` points. -/
def Dimension.average (d : Dimension) (points : Nat) (words : List Nat) : Binary64 :=
  let t := d.interpretation
  if t.isFloat then sumAscending (words.map t.float) / .ofNat points
  else Binary64.ofInt (words.map t.integer).sum / .ofNat points * d.scale + d.offset

namespace Schema

/-- The statistics of the first `points` rows, whose bounds are known; none for no points. -/
def statisticsIn? (s : Schema) (bounds : Bounds) (rows : List Row) (points : Nat) :
    Option Statistics :=
  match bounds with
  | .empty => none
  | .extent lows highs =>
    let columns := s.columns (rows.take points)
    some {
      lows
      highs
      averages := List.zipWith (fun d words => d.average points words) s.dimensions columns }

/-- The statistics of the first `points` rows; none for no points. -/
def statistics? (s : Schema) (rows : List Row) (points : Nat) : Option Statistics :=
  s.statisticsIn? (s.bounds rows points) rows points

end Schema

namespace Statistics

/-- Writes a document. -/
def text (s : Statistics) : String :=
  let write (values : List Binary64) := Document.ofItems (values.map Document.ofFloat)
  Document.ofMembers [("min", write s.lows), ("max", write s.highs), ("avg", write s.averages)]

end Statistics

end PointCloud
