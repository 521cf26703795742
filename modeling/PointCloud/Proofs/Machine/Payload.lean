import Mathlib
import PointCloud.Proofs.Machine.Dimensional
import PointCloud.Proofs.Machine.Hierarchical

/-!
# Payloads on the machine

Main result:

* `Machine.decompress_safe` — under every scheme the machine reads a payload as it is meant to be
  read, and no step on the way is out of range.
-/

namespace PointCloud

namespace Machine

/-- The buffer of points that an external payload holds. -/
def external (s : Schema) (points : Nat) (payload : Bytes) : Run Bytes := do
  let expected ← ofReader (bufferLength points s.size)
  if expected = 0 then
    if !payload.isEmpty then refuse (.corruptPatch .payloadOfEmpty)
  else
    if payload.length < 8 then refuse (.corruptPatch .missingLength)
    let declared := Numeral.ofBytes (← slice payload 0 8)
    if declared ≠ expected then refuse (.corruptPatch (.declaredLength declared expected))
  zstd payload

/-- The buffer of points that a payload is. -/
def uncompressed (s : Schema) (points : Nat) (payload : Bytes) : Run Bytes := do
  let expected ← ofReader (bufferLength points s.size)
  if payload.length ≠ expected then
    refuse (.corruptPatch (.verbatimSize payload.length points s.size))
  ofReader (reserve expected)
  return payload

/-- The scheme at an index of the table of schemes. -/
def schemeAt (tag : UInt8) : Run Scheme :=
  match Scheme.all[tag.toNat]? with
  | some scheme => .ok scheme
  | none => .error .outOfRange

/-- Reads a payload by the rules of a scheme. -/
def read (scheme : Scheme) (s : Schema) (points : Nat) (payload : Bytes) : Run Bytes := do
  match ← schemeAt scheme.tag with
  | .uncompressed => uncompressed s points payload
  | .dimensional => dimensional s points payload
  | .hierarchical => hierarchical s points payload
  | .externalLossless => external s points payload

/-- A failure of a kernel is reported as corruption; a step out of range cannot be. -/
def report (scheme : Scheme) : Run Bytes → Run Bytes
  | .error (.refused e) => refuse (e.asCorruption scheme.name)
  | run => run

/-- The buffer of `points` points that a payload holds. -/
def decompress (scheme : Scheme) (s : Schema) (points : Nat) (payload : Bytes) : Run Bytes := do
  let buffer ← report scheme (read scheme s points payload)
  let expected ← ofReader (bufferLength points s.size)
  if buffer.length ≠ expected then
    refuse (.corruptPatch (.decodedLength scheme.name buffer.length expected))
  return buffer

variable {s : Schema} {points : Nat} {payload : Bytes}

theorem external_follows :
    Follows Eq (external s points payload) (External.decompress s points payload) := by
  unfold external External.decompress
  refine (Follows.ofReader _).bind ?_
  rintro expected _ rfl
  simp only [Result.throw_eq, Result.error_bind, refuse_bind]
  -- A buffer without bytes is checked by itself, for its payload has no length in front.
  by_cases hzero : expected = 0
  · rw [if_pos hzero, if_pos hzero]
    exact Follows.check _ Iff.rfl fun _ => zstd_follows
  · rw [if_neg hzero, if_neg hzero]
    refine Follows.check _ Iff.rfl fun hlength => ?_
    rw [slice_eq (Nat.zero_le _) (Nat.le_of_not_lt hlength), Result.ok_bind, List.drop_zero]
    exact Follows.check _ Iff.rfl fun _ => zstd_follows

theorem uncompressed_follows :
    Follows Eq (uncompressed s points payload) (Uncompressed.decompress s points payload) := by
  unfold uncompressed Uncompressed.decompress
  refine (Follows.ofReader _).bind ?_
  rintro expected _ rfl
  simp only [Result.throw_eq, Result.error_bind, refuse_bind]
  refine Follows.check _ Iff.rfl fun _ => ?_
  exact (Follows.ofReader _).bind fun _ _ _ => .ok rfl

theorem schemeAt_tag (scheme : Scheme) : schemeAt scheme.tag = .ok scheme := by
  cases scheme <;> rfl

theorem read_follows (scheme : Scheme) (s : Schema) (points : Nat)
    (hshort : payload.length < 2 ^ 63) :
    Follows Eq (read scheme s points payload) (scheme.read s points payload) := by
  rw [read, schemeAt_tag, Result.ok_bind]
  cases scheme with
  | uncompressed => exact uncompressed_follows
  | dimensional => exact dimensional_follows s points hshort
  | hierarchical => exact hierarchical_follows s points hshort
  | externalLossless => exact external_follows

theorem report_follows {scheme : Scheme} {run : Run Bytes} {reader : Except Error Bytes}
    (h : Follows Eq run reader) :
    Follows Eq (report scheme run) (reader.mapError (Error.asCorruption scheme.name)) := by
  rcases h with hsame | e
  -- a buffer
  · exact .ok hsame
  -- a refusal
  · exact .refused _

/-- For every payload, the machine is never stopped. -/
theorem decompress_safe (scheme : Scheme) (s : Schema) (points : Nat)
    (hshort : payload.length < 2 ^ 63) :
    Safe (decompress scheme s points payload) (scheme.decompress s points payload) := by
  refine Follows.safe ?_
  unfold decompress Scheme.decompress
  refine (report_follows (read_follows scheme s points hshort)).bind ?_
  rintro buffer _ rfl
  refine (Follows.ofReader _).bind ?_
  rintro expected _ rfl
  simp only [Result.throw_eq, Result.error_bind, refuse_bind]
  exact Follows.check _ Iff.rfl fun _ => .ok rfl

end Machine

end PointCloud
