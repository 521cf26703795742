import PointCloud.Patch.Statistics
import PointCloud.Point
import PointCloud.Scheme.Payload

/-!
# Patches

A patch holds many points of one schema: a payload under a scheme, the count of points, their
bounds, and statistics if the configuration keeps them. Bounds and statistics are those of the
points as they were given; a scheme may bring the points back in another order, but never loses or
alters one.
-/

namespace PointCloud

/-- Many points of one schema. -/
structure Patch where
  pcid : UInt32
  scheme : Scheme
  /-- The count of points. -/
  count : UInt32
  bounds : Bounds
  statistics : Option Statistics
  payload : Bytes
  deriving DecidableEq, Repr

namespace Patch

variable [Compressors]

/-! ## Building -/

/-- The patch of a buffer of `points` points. -/
def ofBuffer (config : Config) (s : Schema) (buffer : Bytes) (points : Nat) (scheme : Scheme) :
    Except Error Patch := do
  if 2 ^ 32 ≤ points then throw (.corruptPatch (.pointCount points))
  -- The scheme refuses a buffer of the wrong length, so the rows below are `points` many.
  let payload ← scheme.compress config s buffer points
  let rows := s.rows buffer
  let bounds := s.bounds rows points
  return {
    pcid := s.pcid
    scheme
    count := UInt32.ofNat points
    bounds
    statistics := if config.keepStatistics then s.statisticsIn? bounds rows points else none
    payload }

/-- The patch of rows. -/
def ofRows (config : Config) (s : Schema) (rows : List Row) (scheme : Scheme) :
    Except Error Patch :=
  ofBuffer config s (s.bytes rows) rows.length scheme

/-- The patch of points, which all have to belong to the schema. -/
def ofPoints (config : Config) (s : Schema) (points : List Point) (scheme : Scheme) :
    Except Error Patch := do
  reserve (← bufferLength points.length s.size)
  points.zipIdx.forM fun (p, index) => do
    s.checkPcid p.pcid
    if p.raw.length ≠ s.size then
      throw (.corruptPatch (.pointOfPatch index p.raw.length s.pcid s.size))
  ofBuffer config s (points.flatMap (·.raw)) points.length scheme

/-- The patch of lists of values, each in the order of positions. -/
def ofValues (config : Config) (s : Schema) (values : List (List Binary64)) (scheme : Scheme) :
    Except Error Patch := do
  reserve (← bufferLength values.length s.size)
  let points ← values.mapM (Point.ofValues s)
  ofBuffer config s (points.flatMap (·.raw)) points.length scheme

/-! ## Reading -/

/-- Whether a patch has no points. -/
def isEmpty (p : Patch) : Bool := p.count == 0

/-- The buffer of the points of a patch. -/
def decode (p : Patch) (s : Schema) : Except Error Bytes := do
  s.checkPcid p.pcid
  p.scheme.decompress s p.count.toNat p.payload

/-- The rows of a patch. -/
def rows (p : Patch) (s : Schema) : Except Error (List Row) := do
  let buffer ← p.decode s
  return s.rows buffer

/-- The points of a patch. -/
def points (p : Patch) (s : Schema) : Except Error (List Point) := do
  let rows ← p.rows s
  return rows.map fun row => ⟨p.pcid, s.rowBytes row⟩

/-- The bytes of the points of a patch once decoded. -/
def memorySize (p : Patch) (s : Schema) : Except Error Nat := do
  s.checkPcid p.pcid
  return p.count.toNat * s.size

/-! ## Summaries -/

/-- Writes what is known of a patch without decoding it. -/
def summary (p : Patch) (s : Schema) : Except Error String := do
  s.checkPcid p.pcid
  return Document.ofMembers [
    ("pcid", toString p.pcid),
    ("srid", toString s.srid),
    ("compression", Document.ofText p.scheme.keyword),
    ("npoints", toString p.count),
    ("dimensions", Document.ofItems (s.dimensions.map fun d => Document.ofText d.name)),
    ("bounds", p.bounds.text),
    ("stats", Document.ofOption Statistics.text p.statistics)]

end Patch

end PointCloud
