import PointCloud.Proofs.Kernel.Zlib
import PointCloud.Proofs.Kernel.Zstd

/-!
# Lawful compressors

Nothing is known of a compressor but that its streams read back. That is asked of it only where the
readers have room for the result, and of zlib only at the levels that it is called with. How long a
stream is, and what else is in it, is left open.

Main results:

* `Zlib.decode_encode`, `Zstd.decode_encode` — what lawful compressors write reads back, at every
  level;
* `lawful_builtin` — the built-in compressors are lawful.
-/

namespace PointCloud

/-- Compressors whose streams read back as what was compressed. -/
class LawfulCompressors [Compressors] : Prop where
  decode_zlib : ∀ level bytes, level ≤ Zlib.levelLimit → bytes.length < 2 ^ 62 →
    Zlib.decode bytes.length (Compressors.zlib level bytes) = .ok bytes
  decode_zstd : ∀ level content, content ≠ [] → content.length < 2 ^ 62 →
    Zstd.decode (Zstd.withLength content (Compressors.zstd level content)) = .ok content

section Streams

variable [Compressors]

/-- A written zlib stream inflates to the bytes it was written from. -/
theorem Zlib.decode_encode [LawfulCompressors] (level : Nat) (bytes : Bytes)
    (hroom : bytes.length < 2 ^ 62) : decode bytes.length (encode level bytes) = .ok bytes :=
  LawfulCompressors.decode_zlib _ bytes (Nat.min_le_right level levelLimit) hroom

/-- A written zstd stream begins with the length of its content. -/
theorem Zstd.encode_of_ne_nil {content : Bytes} (hne : content ≠ []) (level : Int) :
    encode content level = withLength content (Compressors.zstd level content) := by
  unfold encode
  rw [List.isEmpty_eq_false_iff.mpr hne]
  rfl

/-- A written zstd stream reads back as the content it was written from. -/
theorem Zstd.decode_encode [LawfulCompressors] (content : Bytes) (level : Int)
    (hroom : content.length < 2 ^ 62) : decode (encode content level) = .ok content := by
  by_cases hne : content = []
  · subst hne
    rfl
  · rw [encode_of_ne_nil hne]
    exact LawfulCompressors.decode_zstd level content hne hroom

end Streams

instance lawful_builtin : @LawfulCompressors builtin where
  decode_zlib level bytes _ hroom := Zlib.decode_write level bytes hroom
  decode_zstd _ _ hne hroom := Zstd.decode_write hne hroom

end PointCloud
