import PointCloud.Config
import PointCloud.Kernel.Zstd
import PointCloud.Schema.Basic

/-!
# External payloads

The payload is a zstd stream of the points. Its length header is checked against the count of points
before anything of that length is set aside; a patch without points has an empty payload.
-/

namespace PointCloud

namespace External

/-- The payload of a buffer of points. -/
def compress [Compressors] (config : Config) (buffer : Bytes) : Bytes :=
  Zstd.encode buffer config.zstdLevel

/-- The buffer of points that a payload holds. -/
def decompress (s : Schema) (points : Nat) (payload : Bytes) : Except Error Bytes := do
  let expected ← bufferLength points s.size
  if expected = 0 then
    if !payload.isEmpty then throw (.corruptPatch .payloadOfEmpty)
  else
    if payload.length < 8 then throw (.corruptPatch .missingLength)
    -- The header is little-endian in every schema.
    let declared := Numeral.ofBytes (payload.take 8)
    if declared ≠ expected then throw (.corruptPatch (.declaredLength declared expected))
  Zstd.decode payload

end External

end PointCloud
