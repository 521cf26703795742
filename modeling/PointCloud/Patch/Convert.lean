import PointCloud.Patch.Basic

/-!
# Moving patches between schemas

A patch can be given to a schema that reads the same bytes as the same values, or its points encoded
anew: for another schema, by the names of the dimensions, or by a function on points.
-/

namespace PointCloud

namespace Patch

variable [Compressors]

/-- Gives a patch to another schema, without touching the payload. -/
def retag (p : Patch) (s new : Schema) : Except Error Patch := do
  s.checkPcid p.pcid
  if !s.isCompatible new then throw (.schemaMismatch s.pcid new.pcid)
  return { p with pcid := new.pcid }

/-- The values of a row for another schema. Dimensions that the row lacks take the default. -/
def valuesUnder (s new : Schema) (default : Binary64) (row : Row) : List Binary64 :=
  new.dimensions.map fun d =>
    match s.named? d.name with
    | some source => source.value (row.getD source.position 0)
    | none => default

/-- Encodes the points for another schema of the same spatial reference. -/
def transform (p : Patch) (config : Config) (s new : Schema) (default : Binary64)
    (target : Option Scheme) : Except Error Patch := do
  if s.srid ≠ new.srid then throw (.invalidSchema (.spatialReference s.srid new.srid))
  let rows ← p.rows s
  -- Points of the other schema may be longer.
  reserve (p.count.toNat * new.size)
  -- A value may fit the old dimension and not the new one, which makes the point fail.
  let points ← rows.mapM fun row => Point.ofValues new (valuesUnder s new default row)
  ofBuffer config new (points.flatMap (·.raw)) points.length (target.getD p.scheme)

/-- Replaces every point by its image, which has to belong to the same schema. -/
def mapPoints (p : Patch) (config : Config) (s : Schema) (image : Point → Except Error Point)
    (target : Option Scheme) : Except Error Patch := do
  let points ← p.points s
  let images ← points.mapM image
  ofPoints config s images (target.getD p.scheme)

end Patch

end PointCloud
