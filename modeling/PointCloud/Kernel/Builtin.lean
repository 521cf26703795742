import PointCloud.Kernel.Deflate.Compress
import PointCloud.Kernel.Zlib
import PointCloud.Kernel.Zstd

/-!
# Built-in compressors

The compressors that are used if there are no others. A stream is matched, or its blocks are packed,
as long as it reads back; otherwise the bytes are stored verbatim.
-/

namespace PointCloud

/-! ## Zlib streams -/

namespace Zlib

/-- Puts a deflate stream of `bytes` into its frame. -/
def frame (stream bytes : Bytes) : Bytes :=
  [0x78, 0x01] ++ stream ++ (Numeral.toBytes 4 (checksum bytes)).reverse

/-- The stream of a byte string that stores it verbatim. -/
def store (bytes : Bytes) : Bytes := frame (Deflate.stored bytes) bytes

/-- The stream of a byte string: stored at level zero, matched at every other. -/
def write (level : Nat) (bytes : Bytes) : Bytes :=
  if level = 0 then store bytes
  else
    let candidate := frame (Deflate.matched bytes) bytes
    match decode bytes.length candidate with
    | .ok out => if out = bytes then candidate else store bytes
    | .error _ => store bytes

end Zlib

/-! ## Zstd frames -/

namespace Zstd

/-- One block of a kind. -/
def block (final : Bool) (kind : Nat) (content : Bytes) : Bytes :=
  Numeral.toBytes 3 (8 * content.length + 2 * kind + (if final then 1 else 0)) ++ content

/-- One block that is packed, or verbatim if that is not worth it, and the last distances after it.
-/
def packedBlock (final : Bool) (r : Repeats) (content : Bytes) : Bytes × Repeats :=
  match pack? r content with
  | some (packed, r) => (block final 2 packed, r)
  | none => (block final 0 content, r)

/-- Packed blocks: `fuller` full ones and a final one. -/
def packedBlocks : Nat → Repeats → Bytes → Bytes
  | 0, r, content => (packedBlock true r content).1
  | fuller + 1, r, content =>
    let (first, r) := packedBlock false r (content.take blockLimit)
    first ++ packedBlocks fuller r (content.drop blockLimit)

/-- Verbatim blocks: `fuller` full ones and a final one. -/
def storedBlocks : Nat → Bytes → Bytes
  | 0, content => block true 0 content
  | fuller + 1, content =>
    block false 0 (content.take blockLimit) ++ storedBlocks fuller (content.drop blockLimit)

/-- The frame of blocks, with a window of two megabytes, that does not announce its length. -/
def frame (blocks : Bytes) : Bytes := Numeral.toBytes 4 frameMagic ++ [0x00, 0x58] ++ blocks

/-- The frame of a byte string that stores it verbatim. -/
def store (content : Bytes) : Bytes :=
  frame (storedBlocks ((content.length - 1) / blockLimit) content)

/-- The frame of a byte string. -/
def write (content : Bytes) : Bytes :=
  let candidate := frame (packedBlocks ((content.length - 1) / blockLimit) {} content)
  match decode (withLength content candidate) with
  | .ok decoded => if decoded = content then candidate else store content
  | .error _ => store content

end Zstd

/-- The built-in compressors. One level above zero is as good as another to them. -/
instance builtin : Compressors where
  zlib := Zlib.write
  zstd _ := Zstd.write

end PointCloud
