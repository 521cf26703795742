import PointCloud.Bytes.Cursor
import PointCloud.Schema.Registry

/-!
# Points

A point is the bytes of one row with the identifier of its schema. It is encoded from values given
by name or in order, and serialized with the marker of its byte order and the identifier in front.
-/

namespace PointCloud

/-- The bytes of a point of a schema. -/
structure Point where
  pcid : UInt32
  raw : Bytes
  deriving DecidableEq, Repr

namespace Point

/-! ## Encoding -/

/-- The bytes of a point before a word is written. -/
def blank (s : Schema) : Bytes := List.replicate s.size 0

/-- Writes the word of a dimension's value into the bytes of a point. -/
def put (s : Schema) (raw : Bytes) : Dimension × Binary64 → Except Error Bytes
  | (d, value) => do
    let word ← d.word value
    return s.putWord raw d word

/-- The point of values in the order of positions. -/
def ofValues (s : Schema) (values : List Binary64) : Except Error Point := do
  if let some missing := s.dimension? values.length then throw (.missingDimension missing.name)
  if s.width < values.length then throw (.unknownDimension s!"position {s.width}")
  let raw ← (s.dimensions.zip values).foldlM (put s) (blank s)
  return ⟨s.pcid, raw⟩

/-- Puts a named value into the slot of its dimension. -/
def fill (s : Schema) (slots : List (Option Binary64)) :
    String × Binary64 → Except Error (List (Option Binary64))
  | (name, value) => do
    let d ← s.named name
    return slots.set d.position (some value)

/-- Writes the word of a dimension's value, which has to be given. -/
def putGiven (s : Schema) (raw : Bytes) : Dimension × Option Binary64 → Except Error Bytes
  | (d, some value) => put s raw (d, value)
  | (d, none) => throw (.missingDimension d.name)

/-- The point of named values. Of values of one name the last counts. -/
def ofNamed (s : Schema) (values : List (String × Binary64)) : Except Error Point := do
  -- A name that is not known counts before any value that does not fit.
  let slots ← values.foldlM (fill s) (List.replicate s.width none)
  let raw ← (s.dimensions.zip slots).foldlM (putGiven s) (blank s)
  return ⟨s.pcid, raw⟩

/-- The point of bytes that are already encoded. -/
def ofBytes (s : Schema) (raw : Bytes) : Except Error Point :=
  if raw.length = s.size then .ok ⟨s.pcid, raw⟩
  else .error (.corruptPatch (.pointOfSchema raw.length s.pcid s.size))

/-! ## Decoding -/

/-- The words of a point, which has to belong to the schema. -/
def row (p : Point) (s : Schema) : Except Error Row := do
  s.checkPcid p.pcid
  if p.raw.length ≠ s.size then throw (.corruptPatch (.pointSize p.raw.length s.size))
  return s.row p.raw

/-- The values of a point, in the order of positions. -/
def values (p : Point) (s : Schema) : Except Error (List Binary64) := do
  let row ← p.row s
  return s.values row

/-- The values of a point with the names of their dimensions. -/
def namedValues (p : Point) (s : Schema) : Except Error (List (String × Binary64)) := do
  let values ← p.values s
  return (s.dimensions.map (·.name)).zip values

/-- The value of the dimension of a name. -/
def value (p : Point) (s : Schema) (name : String) : Except Error Binary64 := do
  let row ← p.row s
  let d ← s.named name
  return d.value (row.getD d.position 0)

/-- The value of the dimension at a position. -/
def valueAt (p : Point) (s : Schema) (position : Nat) : Except Error Binary64 := do
  let row ← p.row s
  match s.dimension? position with
  | some d => return d.value (row.getD position 0)
  | none => throw (.unknownDimension s!"position {position}")

/-- The point with the value of one dimension replaced. -/
def withValue (p : Point) (s : Schema) (name : String) (value : Binary64) : Except Error Point := do
  discard (p.row s)
  let d ← s.named name
  let raw ← put s p.raw (d, value)
  return { p with raw }

/-! ## Serialized points -/

/-- The serialized form: a marker of the byte order, the identifier in four bytes, and the words. -/
def serialize (p : Point) (s : Schema) : Except Error Bytes := do
  discard (p.row s)
  return s.order.marker :: s.order.bytes 4 p.pcid.toNat ++ p.raw

/-- Reads the marker and the identifier in front of serialized data, and finds their schema. -/
def readOwner (registry : Registry) (bytes : Bytes) : Except Error (Schema × Cursor) := do
  let (marker, c) ← (Cursor.start bytes).byte
  let some found := ByteOrder.ofMarker? marker | throw (.corruptPatch (.byteOrderMarker marker))
  let (pcid, c) ← c.uint32 found
  let s ← registry.resolve pcid
  if s.order ≠ found then throw (.byteOrderMismatch s.order found)
  return (s, c)

/-- Reads a serialized point. -/
def deserialize (registry : Registry) (bytes : Bytes) : Except Error Point := do
  let (s, c) ← readOwner registry bytes
  ofBytes s c.rest

end Point

end PointCloud
