import PointCloud.Column.Method
import PointCloud.Kernel.RunLength
import PointCloud.Kernel.SharedBits
import PointCloud.Kernel.Zlib
import PointCloud.Schema.Basic

/-!
# Columns

A column holds the words of one dimension, in the order of the points. Every method encodes it to
bytes; decoding needs the method, the dimension and the count of points, and refuses bytes that hold
another count.
-/

namespace PointCloud

/-- The words of one dimension. -/
structure Column where
  dimension : Dimension
  order : ByteOrder
  words : List Nat

namespace Column

/-- The columns of the rows of a schema. -/
def ofRows (s : Schema) (rows : List Row) : List Column :=
  List.zipWith (fun dimension words => { dimension, order := s.order, words })
    s.dimensions (s.columns rows)

/-- The words as they are stored in points. -/
def bytes (c : Column) : Bytes := c.words.flatMap (c.order.bytes c.dimension.size)

/-- The encoding of a column by a method, with zlib streams of the given level. -/
def encode [Compressors] (c : Column) (level : Nat) : ColumnMethod → Except Error Bytes
  | .verbatim => .ok c.bytes
  | .runLength => RunLength.encode c.dimension.size c.order c.words
  | .sharedBits => SharedBits.encode c.dimension.size c.order c.words
  | .deflate => .ok (Zlib.encode level c.bytes)

/-- The words that bytes hold as they are. -/
def ofVerbatim (d : Dimension) (order : ByteOrder) (points : Nat) (bytes : Bytes) :
    Except Error (List Nat) := do
  let expected ← bufferLength points d.size
  if bytes.length ≠ expected then
    throw (.corruptPatch (.columnSize d.name bytes.length points d.size))
  return (cut d.size points bytes).map order.word

/-- The words that an encoding by a method holds. -/
def decode (d : Dimension) (order : ByteOrder) (points : Nat) (bytes : Bytes) :
    ColumnMethod → Except Error (List Nat)
  | .verbatim => ofVerbatim d order points bytes
  | .runLength => RunLength.decode d.size order points bytes
  | .sharedBits => SharedBits.decode d.size order points bytes
  | .deflate => do
    let expected ← bufferLength points d.size
    let inflated ← Zlib.decode expected bytes
    ofVerbatim d order points inflated

end Column

end PointCloud
