import PointCloud.Capacity
import PointCloud.Kernel.Compressors
import PointCloud.Kernel.Deflate.Inflate

/-!
# Zlib streams

A zlib stream is a two-byte header, a deflate stream and a checksum of what it inflates to. A reader
knows how long the result has to be, and asks for one byte more. Output is inflated a window at a
time and then handed out, so damage past the window that holds the first byte too many goes
unnoticed: such a stream is refused for its size. So is a stream that ends early, if the byte too
many comes up before its end.

Streams are written by a compressor.
-/

namespace PointCloud

namespace Zlib

/-! ## Framing -/

/-- The checksum of a byte string: the sum of its bytes, from one, and the sum of those sums, both
modulo 65521, in two halves. -/
def checksum (bytes : Bytes) : Nat :=
  let (low, high) := bytes.foldl
    (fun (low, high) b =>
      let low := (low + b.toNat) % 65521
      (low, (high + low) % 65521)) (1, 0)
  65536 * high + low

/-- Whether two bytes announce a zlib stream: the method is deflate, the window is at most 32 KiB,
no dictionary is needed, and the pair is a multiple of 31. -/
def isHeader (method flags : UInt8) : Bool :=
  (256 * method.toNat + flags.toNat) % 31 = 0 && method.toNat % 16 = 8 &&
    method.toNat / 16 ≤ 7 && flags.toNat / 32 % 2 = 0

/-- The size of the window that is inflated at a time. -/
def windowSize : Nat := 32768

/-- The least room that output is handed out to. -/
def leastRoom : Nat := 32

/-! ## Reading -/

/-- Inflates a stream, up to the first byte after `limit` bytes. -/
def inflate (limit : Nat) : Bytes → Except Deflate.Halt Bytes
  | method :: flags :: bytes => do
    if !isHeader method flags then throw ⟨.corrupt, 0⟩
    let (out, rest) ← Deflate.inflate limit bytes
    if rest.length < 4 then throw ⟨.truncated, out.length⟩
    if Numeral.ofBytes (rest.take 4).reverse ≠ checksum out then throw ⟨.corrupt, out.length⟩
    return out
  | _ => .error ⟨.truncated, 0⟩

/-- Whether no whole byte of a stream is left when the first byte of a later window comes up. -/
def endsBefore (window : Nat) (bytes : Bytes) : Bool :=
  0 < window &&
    match inflate window bytes with
    | .error ⟨.full left, _⟩ => left < 8
    | _ => false

/-- What a stream inflates to, which has to be `expected` bytes. Bytes after the stream are
ignored. -/
def decode (expected : Nat) (bytes : Bytes) : Except Error Bytes := do
  reserve expected
  -- No more than one byte past the expected ones is asked for.
  let wrongSize (found : Nat) : Error :=
    .kernel (.zlib (.wrongSize expected (min found (expected + 1))))
  -- The window that the first byte too many would be in.
  let window := expected / windowSize * windowSize
  match inflate (window + windowSize) bytes with
  | .ok out => if out.length = expected then return out else throw (wrongSize out.length)
  | .error ⟨.corrupt, _⟩ => throw (.kernel (.zlib .corrupt))
  | .error ⟨.full _, produced⟩ => throw (wrongSize produced)
  | .error ⟨.truncated, produced⟩ =>
    -- Once the stream has ended, output is handed out once: it has to reach the byte too many.
    if expected < produced && (expected < window + leastRoom || !endsBefore window bytes) then
      throw (wrongSize produced)
    else throw (.kernel (.zlib .corrupt))

/-! ## Writing -/

/-- The greatest level. -/
def levelLimit : Nat := 9

/-- The stream of a byte string. A level past the greatest one counts as that. -/
def encode [Compressors] (level : Nat) (bytes : Bytes) : Bytes :=
  Compressors.zlib (min level levelLimit) bytes

end Zlib

end PointCloud
