import PointCloud.Kernel.Builtin
import PointCloud.Patch.Combine
import PointCloud.Patch.Convert
import PointCloud.Patch.Extract
import PointCloud.Patch.Filter
import PointCloud.Patch.Sort
import PointCloud.Patch.Wire

/-!
# Operations on serialized data

Every operation takes serialized points or patches and gives serialized ones back. It finds schemas
in a registry and is told the configuration; nothing is kept from one call to the next. Questions
that the header answers leave the payload alone.
-/

namespace PointCloud

/-- The sizes of a serialized patch, from its header. -/
structure PatchAnalysis where
  pcid : UInt32
  scheme : Scheme
  count : UInt32
  headerSize : Nat
  payloadSize : Nat
  totalSize : Nat
  /-- The bytes of the points once decoded. -/
  decodedSize : Nat
  deriving DecidableEq, Repr

namespace PatchAnalysis

/-- The decoded bytes for every serialized byte; none without points. -/
def ratio? (a : PatchAnalysis) : Option Binary64 :=
  if a.decodedSize = 0 then none
  else some (Binary64.ofNat a.decodedSize / .ofNat a.totalSize)

/-- Writes a document. -/
def text (a : PatchAnalysis) : String :=
  Document.ofMembers [
    ("pcid", toString a.pcid),
    ("compression", Document.ofText a.scheme.keyword),
    ("npoints", toString a.count),
    ("header_size", toString a.headerSize),
    ("payload_size", toString a.payloadSize),
    ("total_size", toString a.totalSize),
    ("decoded_size", toString a.decodedSize)]

end PatchAnalysis

namespace Service

variable [Compressors]

/-! ## Construction -/

/-- A point of values in the order of positions. -/
def makePoint (registry : Registry) (pcid : UInt32) (values : List Binary64) :
    Except Error Bytes := do
  let s ← registry.resolve pcid
  let p ← Point.ofValues s values
  p.serialize s

/-- A patch of points. -/
def makePatch (registry : Registry) (config : Config) (pcid : UInt32) (points : List Bytes)
    (scheme : Option Scheme) : Except Error Bytes := do
  -- Every point is read under the schema that it names itself, and compared with `s` afterwards.
  let s ← registry.resolve pcid
  let points ← points.mapM (Point.deserialize registry)
  let p ← Patch.ofPoints config s points (scheme.getD config.defaultScheme)
  p.serialize s

/-! ## Storage -/

/-- Encodes a patch again, under the named scheme or the default one. -/
def compress (registry : Registry) (config : Config) (bytes : Bytes) (scheme : Option Scheme) :
    Except Error Bytes := do
  let (s, p) ← Patch.deserialize registry bytes
  let p ← p.recompress config s (scheme.getD config.defaultScheme)
  p.serialize s

/-- Encodes a patch again as it is decoded. -/
def uncompress (registry : Registry) (config : Config) (bytes : Bytes) : Except Error Bytes :=
  compress registry config bytes (some .uncompressed)

/-! ## Queries -/

/-- The points of a patch that pass a test. -/
def filter (registry : Registry) (config : Config) (bytes : Bytes) (name : String)
    (predicate : Predicate) : Except Error Bytes := do
  let (s, p) ← Patch.deserialize registry bytes
  let p ← p.filter config s name predicate none
  p.serialize s

/-- The points of one patch in the bounds of another. -/
def intersect (registry : Registry) (config : Config) (a b : Bytes) : Except Error Bytes := do
  let (s, a) ← Patch.deserialize registry a
  let (_, b) ← Patch.deserialize registry b
  let p ← a.intersection b config s none
  p.serialize s

/-- The points of patches, in order. -/
def union (registry : Registry) (config : Config) (patches : List Bytes) : Except Error Bytes := do
  match patches with
  | [] => throw .emptyPatchList
  | first :: rest =>
    let (s, first) ← Patch.deserialize registry first
    let rest ← rest.mapM (Patch.deserialize registry)
    let p ← Patch.merge config s (first :: rest.map (·.2)) none
    p.serialize s

/-- The points of a patch in ascending order. -/
def sort (registry : Registry) (config : Config) (bytes : Bytes) (names : List String) :
    Except Error Bytes := do
  let (s, p) ← Patch.deserialize registry bytes
  let p ← p.sort config s names none
  p.serialize s

/-- Whether the points of a patch are in ascending order. -/
def isSorted (registry : Registry) (bytes : Bytes) (names : List String) (strict : Bool) :
    Except Error Bool := do
  let (s, p) ← Patch.deserialize registry bytes
  p.isSorted s names strict

/-- The point at an index. -/
def pointAt (registry : Registry) (bytes : Bytes) (index : Nat) : Except Error Bytes := do
  let (s, p) ← Patch.deserialize registry bytes
  let point ← p.pointAt s index
  point.serialize s

/-- Gives a patch to another registered schema. -/
def retag (registry : Registry) (bytes : Bytes) (pcid : UInt32) : Except Error Bytes := do
  let (s, p) ← Patch.deserialize registry bytes
  let new ← registry.resolve pcid
  let p ← p.retag s new
  p.serialize new

/-! ## Questions -/

/-- What is known of a patch without decoding it, as a document. -/
def summary (registry : Registry) (bytes : Bytes) : Except Error String := do
  let (s, p) ← Patch.deserialize registry bytes
  p.summary s

/-- The bytes of the points of a patch once decoded. -/
def memorySize (registry : Registry) (bytes : Bytes) : Except Error Nat := do
  let (s, h) ← PatchHeader.read registry bytes
  return h.decodedSize s

/-- The bounds of a patch. -/
def bounds (registry : Registry) (bytes : Bytes) : Except Error Bounds := do
  let (_, h) ← PatchHeader.read registry bytes
  return h.bounds

/-- The sizes of a patch. -/
def analyze (registry : Registry) (bytes : Bytes) : Except Error PatchAnalysis := do
  let (s, h) ← PatchHeader.read registry bytes
  return {
    pcid := h.pcid
    scheme := h.scheme
    count := h.count
    headerSize := h.size
    payloadSize := h.payload.length
    totalSize := bytes.length
    decodedSize := h.decodedSize s }

end Service

end PointCloud
