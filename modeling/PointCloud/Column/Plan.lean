import PointCloud.Column.Tally
import PointCloud.Config

/-!
# Planning columns

A plan picks the method of a column and gives its encoding. Either every method is tried, or one is
guessed. In both cases a method is taken only if its encoding is shorter than the words as they are.
-/

namespace PointCloud

namespace Column

variable [Compressors]

/-- A method with the encoding that it gives. -/
abbrev Plan := ColumnMethod × Bytes

/-- The words as they are. -/
def verbatimPlan (c : Column) : Plan := (.verbatim, c.bytes)

/-- The encoding by one method, or the words as they are if that is not longer. -/
def planWith (c : Column) (level : Nat) (method : ColumnMethod) : Except Error Plan :=
  if method = .verbatim then .ok c.verbatimPlan
  else do
    let encoded ← c.encode level method
    return if encoded.length < c.bytes.length then (method, encoded) else c.verbatimPlan

/-- The shorter of a plan and the encoding by a method. A method that fails is passed over. -/
def improve (c : Column) (level : Nat) (best : Plan) (method : ColumnMethod) : Plan :=
  match c.encode level method with
  | .ok encoded => if encoded.length < best.2.length then (method, encoded) else best
  | .error _ => best

/-- The shortest encoding, the first candidate among equals. -/
def shortestPlan (c : Column) (level : Nat) : Plan :=
  -- The verbatim candidate never wins against the verbatim plan that the search begins with.
  (ColumnMethod.candidates c.dimension.interpretation).foldl (c.improve level) c.verbatimPlan

/-- The plan of a column by itself. -/
def plan (config : Config) (c : Column) : Except Error Plan :=
  if config.profile.triesAll then .ok (c.shortestPlan config.deflateLevel)
  else c.planWith config.deflateLevel (Tally.recommendColumn c)

/-- The plan of a column that follows a tally. A recommendation that does not apply to the
dimension, or is missing, gives way to zlib. -/
def planByTally (t : Tally) (config : Config) (c : Column) : Except Error Plan :=
  let candidates := ColumnMethod.candidates c.dimension.interpretation
  let recommended := (t.recommendation? c.dimension.position).filter (· ∈ candidates)
  c.planWith config.deflateLevel (recommended.getD .deflate)

end Column

end PointCloud
