import PointCloud.Bytes.Cursor
import PointCloud.Config
import PointCloud.Key
import PointCloud.Kernel.SharedBits
import PointCloud.Kernel.ZigZag
import PointCloud.Schema.Basic

/-!
# Hierarchical payloads

The leading bits of the order keys of a point's place in space form its cluster key. Points are
sorted by that key, points of one key staying in order, and stored cluster by cluster. In a cluster
the words of a dimension are stored as the bits they share and the differences of what is left.

The payload is the count of key bits in a byte, the count of clusters, and for every cluster its
count of points and its columns. A column is the count of shared bits in a byte, the shared bits,
the first of the low words and the zig-zag differences of the others. Counts, shared bits, low words
and differences are variable-length numbers.

Points come back in the order of the clusters.
-/

namespace PointCloud

namespace Hierarchical

/-! ## Clusters -/

/-- The positions of the axes that form the cluster key: X, Y, and Z if there is one. -/
def keyAxes (s : Schema) : Except Error (List Nat) :=
  match s.axis? 'x', s.axis? 'y' with
  | some x, some y => .ok ([x, y] ++ (s.axis? 'z').toList)
  | _, _ => .error (.invalidSchema (.missingAxis s.pcid))

/-- The leading `keyBits` bits of the order key of a word, all of them if it has no more. -/
def keyPart (d : Dimension) (keyBits word : Nat) : Nat :=
  let t := d.interpretation
  t.orderKey word / 2 ^ (t.bits - min keyBits t.bits)

/-- The cluster key of a row. -/
def key (s : Schema) (axes : List Nat) (keyBits : Nat) (row : Row) : List Nat :=
  axes.filterMap fun position =>
    (s.dimension? position).map fun d => keyPart d keyBits (row.getD position 0)

/-- Splits a list into the longest stretches of one key. -/
def stretches {α : Type} (key : α → List Nat) : List α → List (List α)
  | [] => []
  | x :: xs =>
    match stretches key xs with
    | (next :: stretch) :: rest =>
      if key x = key next then (x :: next :: stretch) :: rest
      else [x] :: (next :: stretch) :: rest
    | rest => [x] :: rest

/-- The indices of the points of a buffer in groups of one cluster key, in ascending order of the
keys. -/
def clusterPoints (s : Schema) (keyBits : Nat) (buffer : Bytes) :
    Except Error (List (List Nat)) := do
  let axes ← keyAxes s
  let rows := (s.rows buffer).toArray
  let key (index : Nat) := key s axes keyBits (rows.getD index [])
  return stretches key (Key.sortBy key (List.range rows.size))

/-! ## Writing -/

/-- The greatest count of key bits. -/
def keyBitLimit : Nat := 64

/-- The differences of a list of words from the word before each, as words of sixty-four bits. -/
def differences (previous : Nat) : List Nat → Bytes
  | [] => []
  | low :: lows =>
    Varint.write (ZigZag.number (Int.bmod (low - previous) (2 ^ 64))) ++ differences low lows

/-- The bytes of a column of a cluster. -/
def columnBytes (d : Dimension) (words : List Nat) : Bytes :=
  let bits := d.interpretation.bits
  let unique := SharedBits.unique bits words
  let lows := words.map (· % 2 ^ unique)
  UInt8.ofNat (bits - unique) ::
    Varint.write (SharedBits.leadingWord bits words / 2 ^ unique) ++
      match lows with
      | [] => Varint.write 0
      | low :: lows => Varint.write low ++ differences low lows

/-- The bytes of a cluster. -/
def clusterBytes (s : Schema) (rows : List Row) : Bytes :=
  Varint.write rows.length ++
    (List.zipWith columnBytes s.dimensions (s.columns rows)).flatten

/-- The payload of a buffer of points. -/
def compress (config : Config) (s : Schema) (buffer : Bytes) : Except Error Bytes := do
  let keyBits := min config.keyBits keyBitLimit
  let clusters ← clusterPoints s keyBits buffer
  let rows := (s.rows buffer).toArray
  return UInt8.ofNat keyBits :: Varint.write clusters.length ++
    clusters.flatMap fun indices => clusterBytes s (indices.map (rows.getD · []))

/-! ## Reading -/

/-- Reads the low words of a column: the given one, and `more` that follow as differences. A low
word may have only the bits that are not shared. -/
def readLows (d : Dimension) (unique : Nat) :
    Nat → Nat → Cursor → Except Error (List Nat × Cursor)
  | more, low, c => do
    -- A word is refused before the difference that follows it is read.
    if 2 ^ unique ≤ low then throw (.corruptPatch (.lowValue d.name unique))
    match more with
    | 0 => return ([low], c)
    | more + 1 =>
      let (n, c) ← c.varint
      let next := ((low + ZigZag.integer n) % 2 ^ 64).toNat
      let (lows, c) ← readLows d unique more next c
      return (low :: lows, c)

/-- Reads a column of `points` words, one at least. -/
def readColumn (d : Dimension) (points : Nat) (c : Cursor) : Except Error (List Nat × Cursor) := do
  let bits := d.interpretation.bits
  let (shared, c) ← c.byte
  let shared := shared.toNat
  if bits < shared then throw (.corruptPatch (.sharedBitCount d.name shared bits))
  let unique := bits - shared
  let (leading, c) ← c.varint
  let (low, c) ← c.varint
  let (lows, c) ← readLows d unique (points - 1) low c
  -- Shared bits that do not fit the width are cut off with it.
  return (lows.map fun low => (leading * 2 ^ unique + low) % 2 ^ bits, c)

/-- Reads the columns of a cluster. -/
def readColumns (points : Nat) :
    List Dimension → Cursor → Except Error (List (List Nat) × Cursor)
  | [], c => .ok ([], c)
  | d :: dimensions, c => do
    let (words, c) ← readColumn d points c
    let (columns, c) ← readColumns points dimensions c
    return (words :: columns, c)

/-- Reads `clusters` clusters with at most `room` of the `expected` points, with the room left. -/
def readClusters (s : Schema) (expected : Nat) :
    Nat → Nat → Cursor → Except Error (List Row × Nat × Cursor)
  | 0, room, c => .ok ([], room, c)
  | clusters + 1, room, c => do
    let (points, c) ← c.varint
    -- Every cluster has a point, so a count of clusters that is too great runs out of room.
    if points = 0 || room < points then
      throw (.corruptPatch (.clusterOverflow points expected))
    let (columns, c) ← readColumns points s.dimensions c
    let (rows, room, c) ← readClusters s expected clusters (room - points) c
    return (Row.ofColumns points columns ++ rows, room, c)

/-- The buffer of points that a payload holds. -/
def decompress (s : Schema) (points : Nat) (payload : Bytes) : Except Error Bytes := do
  reserve (← bufferLength points s.size)
  let (keyBits, c) ← (Cursor.start payload).byte
  if keyBitLimit < keyBits.toNat then throw (.corruptPatch (.clusterKeyWidth keyBits.toNat))
  let (clusters, c) ← c.varint
  let (rows, room, c) ← readClusters s points clusters points c
  if room ≠ 0 then throw (.corruptPatch (.clusterTotal (points - room) points))
  c.finish "Hierarchical payload"
  return s.bytes rows

end Hierarchical

end PointCloud
