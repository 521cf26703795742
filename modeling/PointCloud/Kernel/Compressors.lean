import PointCloud.Bytes.Numeral

/-!
# Compressors

Streams are read here, but written by libraries. What such a library makes of bytes depends on the
bytes and on a level, and on nothing else.
-/

namespace PointCloud

/-- What the libraries that write streams make of bytes. -/
class Compressors where
  /-- The zlib stream of bytes at a level. -/
  zlib : Nat → Bytes → Bytes
  /-- The zstd frames of bytes at a level. -/
  zstd : Int → Bytes → Bytes

end PointCloud
