import PointCloud.Scheme.Dimensional
import PointCloud.Scheme.External
import PointCloud.Scheme.Hierarchical

/-!
# Payloads

A payload holds the points of a patch under a scheme. A failure of a kernel that reads a payload is
corruption of the patch, reported with the name of the scheme.
-/

namespace PointCloud

namespace Uncompressed

/-- The buffer of points that a payload holds: the payload itself, if it has the right length. -/
def decompress (s : Schema) (points : Nat) (payload : Bytes) : Except Error Bytes := do
  let expected ← bufferLength points s.size
  if payload.length ≠ expected then
    throw (.corruptPatch (.verbatimSize payload.length points s.size))
  reserve expected
  return payload

end Uncompressed

namespace Scheme

/-- The payload of a buffer of `points` points. -/
def compress [Compressors] (scheme : Scheme) (config : Config) (s : Schema) (buffer : Bytes)
    (points : Nat) : Except Error Bytes := do
  let expected ← bufferLength points s.size
  if buffer.length ≠ expected then
    throw (.corruptPatch (.bufferSize buffer.length points s.size))
  match scheme with
  | uncompressed => return buffer
  | dimensional => Dimensional.compress config s buffer
  | hierarchical => Hierarchical.compress config s buffer
  | externalLossless => return External.compress config buffer

/-- Reads a payload by the rules of a scheme. -/
def read (scheme : Scheme) (s : Schema) (points : Nat) (payload : Bytes) : Except Error Bytes :=
  match scheme with
  | uncompressed => Uncompressed.decompress s points payload
  | dimensional => Dimensional.decompress s points payload
  | hierarchical => Hierarchical.decompress s points payload
  | externalLossless => External.decompress s points payload

/-- The buffer of `points` points that a payload holds. Its length is looked at once more, whatever
the scheme has checked. -/
def decompress (scheme : Scheme) (s : Schema) (points : Nat) (payload : Bytes) :
    Except Error Bytes := do
  let buffer ← (scheme.read s points payload).mapError (Error.asCorruption scheme.name)
  let expected ← bufferLength points s.size
  if buffer.length ≠ expected then
    throw (.corruptPatch (.decodedLength scheme.name buffer.length expected))
  return buffer

end Scheme

end PointCloud
