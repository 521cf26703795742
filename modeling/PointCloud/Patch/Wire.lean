import PointCloud.Patch.Basic

/-!
# Serialized patches

A serialized patch is a header and the payload. In the byte order of the schema, which a marker
announces, the header holds the identifier, the tag of the scheme, the count of points, the least
and the greatest value of every dimension, and a flag with the statistics after it if there are any.
A patch without points has infinite ends, the least above the greatest, and no statistics.

A header can be read by itself: nothing in it depends on the payload.
-/

namespace PointCloud

/-- What the header of a serialized patch says. -/
structure PatchHeader where
  order : ByteOrder
  pcid : UInt32
  scheme : Scheme
  count : UInt32
  bounds : Bounds
  statistics : Option Statistics
  /-- The bytes in front of the payload. -/
  size : Nat
  payload : Bytes
  deriving DecidableEq, Repr

namespace PatchHeader

/-- Reads the statistics of a patch of `count` points, behind their flag. -/
def readStatistics (order : ByteOrder) (width : Nat) (count : UInt32) (c : Cursor) :
    Except Error (Option Statistics × Cursor) := do
  let (flag, c) ← c.byte
  if flag = 0 then return (none, c)
  if flag ≠ 1 || count = 0 then throw (.corruptPatch (.statisticsFlag flag count.toNat))
  let (lows, c) ← c.floats order width
  let (highs, c) ← c.floats order width
  let (averages, c) ← c.floats order width
  return (some ⟨lows, highs, averages⟩, c)

/-- Reads a header, with the schema that the patch belongs to. -/
def read (registry : Registry) (bytes : Bytes) : Except Error (Schema × PatchHeader) := do
  let (s, c) ← Point.readOwner registry bytes
  let (tag, c) ← c.byte
  let scheme ← Scheme.ofTag tag
  let (count, c) ← c.uint32 s.order
  let (lows, c) ← c.floats s.order s.width
  let (highs, c) ← c.floats s.order s.width
  -- The ends of a patch without points are read and dropped.
  let bounds := if count = 0 then .empty else .extent lows highs
  let (statistics, c) ← readStatistics s.order s.width count c
  return (s,
    { order := s.order, pcid := s.pcid, scheme, count, bounds, statistics
      size := c.offset, payload := c.rest })

/-- The bytes that a patch takes once decoded. -/
def decodedSize (h : PatchHeader) (s : Schema) : Nat := h.count.toNat * s.size

end PatchHeader

namespace Patch

/-- The bytes of floating values. -/
def floatBytes (order : ByteOrder) (values : List Binary64) : Bytes :=
  values.flatMap fun x => order.bytes 8 x.toWord

/-- Refuses a block of the header that has not one entry for every dimension. -/
def checkEntries (s : Schema) (block : String) (entries : Nat) : Except Error Unit :=
  if entries = s.width then .ok () else .error (.corruptPatch (.entryCount block entries s.width))

/-- The ends of the bounds as they are written. -/
def boundsBytes (s : Schema) : Bounds → Except Error Bytes
  | .empty =>
    .ok (floatBytes s.order (List.replicate s.width (.infinity false)) ++
      floatBytes s.order (List.replicate s.width (.infinity true)))
  | .extent lows highs => do
    checkEntries s "bounds" (max lows.length highs.length)
    return floatBytes s.order lows ++ floatBytes s.order highs

/-- The flag and the statistics as they are written. -/
def statisticsBytes (s : Schema) : Option Statistics → Except Error Bytes
  | none => .ok [0]
  | some stats => do
    checkEntries s "stats" stats.lows.length
    checkEntries s "stats" stats.highs.length
    checkEntries s "stats" stats.averages.length
    return 1 :: floatBytes s.order (stats.lows ++ stats.highs ++ stats.averages)

/-- The serialized form of a patch. -/
def serialize (p : Patch) (s : Schema) : Except Error Bytes := do
  s.checkPcid p.pcid
  let bounds ← boundsBytes s p.bounds
  let statistics ← statisticsBytes s p.statistics
  return s.order.marker :: s.order.bytes 4 p.pcid.toNat ++ p.scheme.tag ::
    s.order.bytes 4 p.count.toNat ++ bounds ++ statistics ++ p.payload

/-- Reads a serialized patch, with the schema that it belongs to. The payload is kept as it is. -/
def deserialize (registry : Registry) (bytes : Bytes) : Except Error (Schema × Patch) := do
  let (s, h) ← PatchHeader.read registry bytes
  return (s,
    { pcid := h.pcid, scheme := h.scheme, count := h.count, bounds := h.bounds
      statistics := h.statistics, payload := h.payload })

end Patch

end PointCloud
