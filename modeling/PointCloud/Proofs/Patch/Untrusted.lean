import Mathlib
import PointCloud.Proofs.Machine.Header
import PointCloud.Proofs.Machine.Payload
import PointCloud.Proofs.Scheme.Lengths
import PointCloud.Proofs.Scheme.Untrusted

/-!
# Patches that nobody has checked

Bytes from outside are read or refused, whatever they are: a header by one of its refusals, a
payload as corruption or for want of room. Nothing else can happen, on a machine as little as with
numbers and lists that have no end.

Main result:

* `Patch.untrusted_bytes` — headers, patches and payloads, for every registry, schema and scheme.
-/

namespace PointCloud

open Error (IsHeaderRefusal IsRefusal)
open Result (FailsOnly)

/-- A machine holds byte strings shorter than `2 ^ 63`. Apart from that, nothing is asked of the
bytes. -/
theorem Patch.untrusted_bytes (registry : Registry) (bytes : Bytes) (scheme : Scheme) (s : Schema)
    (points : Nat) (payload : Bytes) :
    (FailsOnly IsHeaderRefusal (PatchHeader.read registry bytes) ∧
      FailsOnly IsHeaderRefusal (deserialize registry bytes)) ∧
    ((∀ raw, scheme.decompress s points payload = .ok raw → raw.length = points * s.size) ∧
      FailsOnly IsRefusal (scheme.decompress s points payload)) ∧
    (∀ fault, scheme.read s points payload = .error (.kernel fault) → ∃ cause,
      scheme.decompress s points payload = .error (.corruptPatch cause) ∧
        ∃ rest, cause.message = scheme.name ++ rest) ∧
    (bytes.length < 2 ^ 63 →
      Machine.Safe (Machine.readHeader registry bytes) (PatchHeader.read registry bytes) ∧
        Machine.Safe (Machine.deserialize registry bytes) (deserialize registry bytes)) ∧
    (payload.length < 2 ^ 63 →
      Machine.Safe (Machine.decompress scheme s points payload)
        (scheme.decompress s points payload)) := by
  refine ⟨⟨PatchHeader.read_failsOnly registry bytes, deserialize_failsOnly registry bytes⟩,
    ⟨fun raw h => Scheme.length_of_decompress h, scheme.decompress_failsOnly s points payload⟩,
    fun fault h => ?_, fun hbytes => ?_, fun hpayload => ?_⟩
  · exact ⟨.kernel scheme.name fault, Scheme.decompress_of_kernelFault h, _,
      Corruption.message_kernel scheme.name fault⟩
  · exact ⟨Machine.readHeader_safe registry hbytes, Machine.deserialize_safe registry hbytes⟩
  · exact Machine.decompress_safe scheme s points hpayload

/-- A header with the tag of no scheme, and a payload that ends inside a count. -/
theorem Patch.untrusted_bytes_planar :
    let registry : Registry := ⟨[.planar]⟩
    let bytes : Bytes := [0, 0, 0, 0, 1, 4]
    let payload : Bytes := [8, 0x80]
    let fault : KernelFault := .varint .unexpectedEnd
    bytes.length < 2 ^ 63 ∧ payload.length < 2 ^ 63 ∧
    Scheme.hierarchical.read .planar 2 payload = .error (.kernel fault) ∧
    (∃ cause, Scheme.hierarchical.decompress .planar 2 payload = .error (.corruptPatch cause) ∧
      ∃ rest, cause.message = "Hierarchical" ++ rest) ∧
    Machine.deserialize registry bytes = Machine.refuse (.unsupportedScheme 4) ∧
    Machine.decompress .hierarchical .planar 2 payload =
      Machine.refuse (.corruptPatch (.kernel "Hierarchical" fault)) := by
  intro registry bytes payload fault
  have hbytes : bytes.length < 2 ^ 63 := by decide
  have hpayload : payload.length < 2 ^ 63 := by decide
  have hread : Scheme.hierarchical.read .planar 2 payload = .error (.kernel fault) := by rfl
  have hdeserialize : deserialize registry bytes = .error (.unsupportedScheme 4) := by rfl
  have hdecompress : Scheme.hierarchical.decompress .planar 2 payload =
      .error (.corruptPatch (.kernel "Hierarchical" fault)) := by rfl
  obtain ⟨-, -, hkernel, hpatch, hraw⟩ :=
    Patch.untrusted_bytes registry bytes .hierarchical .planar 2 payload
  refine ⟨hbytes, hpayload, hread, hkernel fault hread, ?_, ?_⟩
  · rw [(hpatch hbytes).2.eq_ofReader, hdeserialize]
    rfl
  · rw [(hraw hpayload).eq_ofReader, hdecompress]
    rfl

end PointCloud
