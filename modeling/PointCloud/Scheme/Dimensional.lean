import PointCloud.Bytes.Cursor
import PointCloud.Column.Plan

/-!
# Dimensional payloads

The payload is a sequence of columns, one for every dimension: the tag of the method, the length of
the encoding in four bytes, and the encoding.
-/

namespace PointCloud

namespace Dimensional

/-! ## Writing -/

/-- The bytes of a planned column. -/
def columnBytes (order : ByteOrder) (plan : Column.Plan) : Except Error Bytes :=
  if plan.2.length < 2 ^ 32 then .ok (plan.1.tag :: order.bytes 4 plan.2.length ++ plan.2)
  else .error (.corruptPatch (.columnTooLong plan.2.length))

/-- The payload of columns that are planned one after the other. -/
def writeColumns (plan : Column → Except Error Column.Plan) : List Column → Except Error Bytes
  | [] => .ok []
  | c :: columns => do
    let planned ← plan c
    let bytes ← columnBytes c.order planned
    let rest ← writeColumns plan columns
    return bytes ++ rest

/-- The payload of a buffer of points. -/
def compress [Compressors] (config : Config) (s : Schema) (buffer : Bytes) : Except Error Bytes :=
  writeColumns (Column.plan config) (Column.ofRows s (s.rows buffer))

/-- The payload of a buffer of points, by the methods that a tally recommends. -/
def compressByTally [Compressors] (t : Tally) (config : Config) (s : Schema) (buffer : Bytes)
    (points : Nat) : Except Error Bytes := do
  let expected ← bufferLength points s.size
  if buffer.length ≠ expected then throw (.corruptPatch (.bufferCount buffer.length points))
  if t.width ≠ s.width then throw (.invalidSchema (.tallyCount t.width s.width))
  writeColumns (Column.planByTally t config) (Column.ofRows s (s.rows buffer))

/-! ## Reading -/

/-- Reads the column of a dimension. -/
def readColumn (d : Dimension) (order : ByteOrder) (points : Nat) (c : Cursor) :
    Except Error (List Nat × Cursor) := do
  let (tag, c) ← c.byte
  let method ← ColumnMethod.ofTag tag
  let (length, c) ← c.word order 4
  let (encoded, c) ← c.take length
  let words ← Column.decode d order points encoded method
  return (words, c)

/-- Reads the columns of dimensions, in order. -/
def readColumns (order : ByteOrder) (points : Nat) :
    List Dimension → Cursor → Except Error (List (List Nat) × Cursor)
  | [], c => .ok ([], c)
  | d :: dimensions, c => do
    let (words, c) ← readColumn d order points c
    let (columns, c) ← readColumns order points dimensions c
    return (words :: columns, c)

/-- The buffer of points that a payload holds. -/
def decompress (s : Schema) (points : Nat) (payload : Bytes) : Except Error Bytes := do
  reserve (← bufferLength points s.size)
  let (columns, c) ← readColumns s.order points s.dimensions (.start payload)
  c.finish "Dimensional payload"
  return s.bytes (Row.ofColumns points columns)

end Dimensional

end PointCloud
