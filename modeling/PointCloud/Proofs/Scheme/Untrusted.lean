import Mathlib
import PointCloud.Patch.Wire
import PointCloud.Proofs.Scheme.Lengths

/-!
# Bytes that nobody has checked

Whatever bytes a header or a payload is read from, it is read or refused, and the refusal is of a
kind that a caller can tell: corruption, or an allocation that failed; for a header also a schema or
a scheme that is not known, or the wrong byte order.

Main results:

* `Error.IsRefusal`, `Error.IsHeaderRefusal` — the kinds of refusals;
* `Patch.deserialize_failsOnly`, `PatchHeader.read_failsOnly` — serialized patches;
* `Scheme.decompress_failsOnly` — payloads;
* `Scheme.decompress_of_kernelFault`, `Corruption.message_kernel` — a kernel failure is corruption,
  and its wording begins with the scheme.
-/

namespace PointCloud

open Result (FailsOnly)

/-! ## Kinds of errors -/

namespace Error

/-- The errors of reading a payload. -/
inductive IsRefusal : Error → Prop
  | corruptPatch (cause : Corruption) : IsRefusal (.corruptPatch cause)
  | allocationFailed : IsRefusal .allocationFailed

/-- The errors inside a scheme: a kernel may fail besides. -/
inductive IsReading : Error → Prop
  | corruptPatch (cause : Corruption) : IsReading (.corruptPatch cause)
  | allocationFailed : IsReading .allocationFailed
  | kernel (fault : KernelFault) : IsReading (.kernel fault)

/-- The errors of reading a header. -/
inductive IsHeaderRefusal : Error → Prop
  | corruptPatch (cause : Corruption) : IsHeaderRefusal (.corruptPatch cause)
  | unknownSchema (pcid : UInt32) : IsHeaderRefusal (.unknownSchema pcid)
  | byteOrderMismatch (declared found : ByteOrder) :
      IsHeaderRefusal (.byteOrderMismatch declared found)
  | unsupportedScheme (tag : UInt8) : IsHeaderRefusal (.unsupportedScheme tag)

/-- The errors of reading fields: there is nothing but corruption. -/
inductive IsCorruption : Error → Prop
  | corruptPatch (cause : Corruption) : IsCorruption (.corruptPatch cause)

theorem IsCorruption.isReading {e : Error} (h : e.IsCorruption) : e.IsReading := by
  cases h with
  | corruptPatch cause => exact .corruptPatch cause

theorem IsCorruption.isHeaderRefusal {e : Error} (h : e.IsCorruption) : e.IsHeaderRefusal := by
  cases h with
  | corruptPatch cause => exact .corruptPatch cause

theorem IsReading.asCorruption {e : Error} (h : e.IsReading) (scheme : String) :
    (e.asCorruption scheme).IsRefusal := by
  cases h with
  | corruptPatch cause => exact .corruptPatch cause
  | allocationFailed => exact .allocationFailed
  | kernel fault => exact .corruptPatch (.kernel scheme fault)

end Error

open Error (IsCorruption IsReading IsHeaderRefusal)

/-! ## Sizes, tags and schemas -/

theorem bufferLength_failsOnly (points size : Nat) :
    FailsOnly IsReading (bufferLength points size) := by
  unfold bufferLength
  split
  · exact FailsOnly.ok _
  · exact FailsOnly.error (.corruptPatch _)

theorem reserve_failsOnly (bytes : Nat) : FailsOnly IsReading (reserve bytes) := by
  unfold reserve
  split
  · exact FailsOnly.ok _
  · exact FailsOnly.error .allocationFailed

theorem ColumnMethod.ofTag_failsOnly (tag : UInt8) : FailsOnly IsCorruption (ofTag tag) := by
  unfold ofTag
  split
  · exact FailsOnly.ok _
  · exact FailsOnly.error (.corruptPatch _)

theorem Scheme.ofTag_failsOnly (tag : UInt8) : FailsOnly IsHeaderRefusal (ofTag tag) := by
  unfold ofTag
  split
  · exact FailsOnly.ok _
  · exact FailsOnly.error (.unsupportedScheme _)

theorem Registry.resolve_failsOnly (registry : Registry) (pcid : UInt32) :
    FailsOnly IsHeaderRefusal (registry.resolve pcid) := by
  unfold resolve
  split
  · exact FailsOnly.ok _
  · exact FailsOnly.error (.unknownSchema _)

/-! ## Fields -/

namespace Cursor

theorem take_failsOnly (c : Cursor) (count : Nat) : FailsOnly IsCorruption (c.take count) := by
  unfold take
  dsimp only
  exact FailsOnly.check (.corruptPatch _) (FailsOnly.ok _)

theorem byte_failsOnly (c : Cursor) : FailsOnly IsCorruption c.byte := by
  unfold byte
  split
  · exact FailsOnly.ok _
  · exact FailsOnly.error (.corruptPatch _)

theorem word_failsOnly (c : Cursor) (order : ByteOrder) (size : Nat) :
    FailsOnly IsCorruption (c.word order size) :=
  (c.take_failsOnly size).bind fun _ => FailsOnly.ok _

theorem uint32_failsOnly (c : Cursor) (order : ByteOrder) :
    FailsOnly IsCorruption (c.uint32 order) :=
  (c.word_failsOnly order 4).bind fun _ => FailsOnly.ok _

theorem floats_failsOnly (c : Cursor) (order : ByteOrder) (count : Nat) :
    FailsOnly IsCorruption (c.floats order count) := by
  unfold floats
  split
  · exact FailsOnly.ok _
  · exact FailsOnly.error (.corruptPatch _)

theorem finish_failsOnly (c : Cursor) (context : String) :
    FailsOnly IsCorruption (c.finish context) := by
  unfold finish
  split
  · exact FailsOnly.ok _
  · exact FailsOnly.error (.corruptPatch _)

theorem varint_failsOnly (c : Cursor) : FailsOnly IsReading c.varint := by
  unfold varint
  split
  · exact FailsOnly.ok _
  · exact FailsOnly.error (.kernel _)

end Cursor

/-! ## Headers -/

theorem Point.readOwner_failsOnly (registry : Registry) (bytes : Bytes) :
    FailsOnly IsHeaderRefusal (readOwner registry bytes) := by
  unfold readOwner
  refine ((Cursor.byte_failsOnly _).mono fun _ h => h.isHeaderRefusal).bind ?_
  rintro ⟨marker, c⟩
  dsimp only
  split
  · refine ((c.uint32_failsOnly _).mono fun _ h => h.isHeaderRefusal).bind ?_
    rintro ⟨pcid, c⟩
    refine (registry.resolve_failsOnly pcid).bind fun s => ?_
    simp only [Result.throw_eq, Result.error_bind, Result.pure_eq]
    exact FailsOnly.check (.byteOrderMismatch _ _) (FailsOnly.ok _)
  · exact FailsOnly.error (.corruptPatch _)

namespace PatchHeader

theorem readStatistics_failsOnly (order : ByteOrder) (width : Nat) (count : UInt32) (c : Cursor) :
    FailsOnly IsCorruption (readStatistics order width count c) := by
  unfold readStatistics
  refine c.byte_failsOnly.bind ?_
  rintro ⟨flag, c⟩
  dsimp only
  split
  · exact FailsOnly.ok _
  · simp only [Result.throw_eq, Result.error_bind]
    refine FailsOnly.check (.corruptPatch _) ?_
    refine (c.floats_failsOnly order width).bind ?_
    rintro ⟨lows, c⟩
    refine (c.floats_failsOnly order width).bind ?_
    rintro ⟨highs, c⟩
    exact (c.floats_failsOnly order width).bind fun _ => FailsOnly.ok _

theorem read_failsOnly (registry : Registry) (bytes : Bytes) :
    FailsOnly IsHeaderRefusal (read registry bytes) := by
  have hfield : ∀ e : Error, e.IsCorruption → e.IsHeaderRefusal := fun _ h => h.isHeaderRefusal
  unfold read
  refine (Point.readOwner_failsOnly registry bytes).bind ?_
  rintro ⟨s, c⟩
  refine (c.byte_failsOnly.mono hfield).bind ?_
  rintro ⟨tag, c⟩
  refine (Scheme.ofTag_failsOnly tag).bind fun scheme => ?_
  refine ((c.uint32_failsOnly _).mono hfield).bind ?_
  rintro ⟨count, c⟩
  refine ((c.floats_failsOnly _ _).mono hfield).bind ?_
  rintro ⟨lows, c⟩
  refine ((c.floats_failsOnly _ _).mono hfield).bind ?_
  rintro ⟨highs, c⟩
  exact ((readStatistics_failsOnly _ _ _ c).mono hfield).bind fun _ => FailsOnly.ok _

end PatchHeader

theorem Patch.deserialize_failsOnly (registry : Registry) (bytes : Bytes) :
    FailsOnly IsHeaderRefusal (deserialize registry bytes) :=
  (PatchHeader.read_failsOnly registry bytes).bind fun _ => FailsOnly.ok _

/-! ## Payloads: refusals -/

theorem RunLength.decode_failsOnly (size : Nat) (order : ByteOrder) (expected : Nat)
    (bytes : Bytes) : FailsOnly IsReading (decode size order expected bytes) := by
  unfold decode
  simp only [Result.throw_eq, Result.error_bind]
  refine FailsOnly.check (.kernel _) ?_
  refine (reserve_failsOnly _).bind fun _ => ?_
  refine (FailsOnly.mapError .kernel _).bind ?_
  rintro ⟨rs, room, rest⟩
  refine FailsOnly.check (.kernel _) (FailsOnly.check (.kernel _) (FailsOnly.ok _))

theorem SharedBits.decode_failsOnly (size : Nat) (order : ByteOrder) (count : Nat)
    (bytes : Bytes) : FailsOnly IsReading (decode size order count bytes) := by
  unfold decode
  split
  · exact FailsOnly.error (.kernel _)
  · simp only [Result.throw_eq, Result.error_bind]
    refine FailsOnly.check (.kernel _) (FailsOnly.check (.kernel _) ?_)
    exact (reserve_failsOnly _).bind fun _ => FailsOnly.ok _

theorem Zlib.decode_failsOnly (expected : Nat) (bytes : Bytes) :
    FailsOnly IsReading (decode expected bytes) := by
  unfold decode
  refine (reserve_failsOnly _).bind fun _ => ?_
  dsimp only
  split
  · split
    · exact FailsOnly.ok _
    · exact FailsOnly.error (.kernel _)
  · exact FailsOnly.error (.kernel _)
  · exact FailsOnly.error (.kernel _)
  · split
    · exact FailsOnly.error (.kernel _)
    · exact FailsOnly.error (.kernel _)

theorem Zstd.decode_failsOnly (bytes : Bytes) : FailsOnly IsReading (decode bytes) := by
  unfold decode
  split
  · exact FailsOnly.ok _
  · simp only [Result.throw_eq, Result.error_bind]
    refine FailsOnly.check (.kernel _) ?_
    refine (reserve_failsOnly _).bind fun _ => ?_
    split
    · exact FailsOnly.error (.kernel _)
    · exact FailsOnly.check (.kernel _) (FailsOnly.ok _)

namespace Column

theorem ofVerbatim_failsOnly (d : Dimension) (order : ByteOrder) (points : Nat) (bytes : Bytes) :
    FailsOnly IsReading (ofVerbatim d order points bytes) := by
  unfold ofVerbatim
  refine (bufferLength_failsOnly _ _).bind fun expected => ?_
  simp only [Result.throw_eq, Result.error_bind]
  exact FailsOnly.check (.corruptPatch _) (FailsOnly.ok _)

theorem decode_failsOnly (d : Dimension) (order : ByteOrder) (points : Nat) (bytes : Bytes)
    (method : ColumnMethod) : FailsOnly IsReading (decode d order points bytes method) := by
  cases method with
  | verbatim => exact ofVerbatim_failsOnly d order points bytes
  | runLength => exact RunLength.decode_failsOnly d.size order points bytes
  | sharedBits => exact SharedBits.decode_failsOnly d.size order points bytes
  | deflate =>
    refine (bufferLength_failsOnly _ _).bind fun expected => ?_
    exact (Zlib.decode_failsOnly _ _).bind fun inflated => ofVerbatim_failsOnly d order points _

end Column

namespace Dimensional

theorem readColumn_failsOnly (d : Dimension) (order : ByteOrder) (points : Nat) (c : Cursor) :
    FailsOnly IsReading (readColumn d order points c) := by
  have hfield : ∀ e : Error, e.IsCorruption → e.IsReading := fun _ h => h.isReading
  unfold readColumn
  refine (c.byte_failsOnly.mono hfield).bind ?_
  rintro ⟨tag, c⟩
  refine ((ColumnMethod.ofTag_failsOnly tag).mono hfield).bind fun method => ?_
  refine ((c.word_failsOnly _ _).mono hfield).bind ?_
  rintro ⟨length, c⟩
  refine ((c.take_failsOnly _).mono hfield).bind ?_
  rintro ⟨encoded, c⟩
  exact (Column.decode_failsOnly d order points encoded method).bind fun _ => FailsOnly.ok _

theorem readColumns_failsOnly (order : ByteOrder) (points : Nat) (dimensions : List Dimension)
    (c : Cursor) : FailsOnly IsReading (readColumns order points dimensions c) := by
  induction dimensions generalizing c with
  | nil => exact FailsOnly.ok _
  | cons d dimensions ih =>
    refine (readColumn_failsOnly d order points c).bind ?_
    rintro ⟨words, c⟩
    exact (ih c).bind fun _ => FailsOnly.ok _

theorem decompress_failsOnly (s : Schema) (points : Nat) (payload : Bytes) :
    FailsOnly IsReading (decompress s points payload) := by
  unfold decompress
  refine (bufferLength_failsOnly _ _).bind fun expected => ?_
  refine (reserve_failsOnly _).bind fun _ => ?_
  refine (readColumns_failsOnly _ _ _ _).bind ?_
  rintro ⟨columns, c⟩
  exact ((c.finish_failsOnly _).mono fun _ h => h.isReading).bind fun _ => FailsOnly.ok _

end Dimensional

namespace Hierarchical

theorem readLows_failsOnly (d : Dimension) (unique more low : Nat) (c : Cursor) :
    FailsOnly IsReading (readLows d unique more low c) := by
  induction more generalizing low c with
  | zero =>
    unfold readLows
    simp only [Result.throw_eq, Result.error_bind]
    exact FailsOnly.check (.corruptPatch _) (FailsOnly.ok _)
  | succ more ih =>
    unfold readLows
    simp only [Result.throw_eq, Result.error_bind]
    refine FailsOnly.check (.corruptPatch _) ?_
    refine c.varint_failsOnly.bind ?_
    rintro ⟨n, c⟩
    exact (ih _ c).bind fun _ => FailsOnly.ok _

theorem readColumn_failsOnly (d : Dimension) (points : Nat) (c : Cursor) :
    FailsOnly IsReading (readColumn d points c) := by
  unfold readColumn
  refine (c.byte_failsOnly.mono fun _ h => h.isReading).bind ?_
  rintro ⟨shared, c⟩
  simp only [Result.throw_eq, Result.error_bind]
  refine FailsOnly.check (.corruptPatch _) ?_
  refine c.varint_failsOnly.bind ?_
  rintro ⟨leading, c⟩
  refine c.varint_failsOnly.bind ?_
  rintro ⟨low, c⟩
  exact (readLows_failsOnly d _ _ low c).bind fun _ => FailsOnly.ok _

theorem readColumns_failsOnly (points : Nat) (dimensions : List Dimension) (c : Cursor) :
    FailsOnly IsReading (readColumns points dimensions c) := by
  induction dimensions generalizing c with
  | nil => exact FailsOnly.ok _
  | cons d dimensions ih =>
    refine (readColumn_failsOnly d points c).bind ?_
    rintro ⟨words, c⟩
    exact (ih c).bind fun _ => FailsOnly.ok _

theorem readClusters_failsOnly (s : Schema) (expected clusters room : Nat) (c : Cursor) :
    FailsOnly IsReading (readClusters s expected clusters room c) := by
  induction clusters generalizing room c with
  | zero => exact FailsOnly.ok _
  | succ clusters ih =>
    unfold readClusters
    refine c.varint_failsOnly.bind ?_
    rintro ⟨points, c⟩
    simp only [Result.throw_eq, Result.error_bind]
    refine FailsOnly.check (.corruptPatch _) ?_
    refine (readColumns_failsOnly points s.dimensions c).bind ?_
    rintro ⟨columns, c⟩
    exact (ih _ c).bind fun _ => FailsOnly.ok _

theorem decompress_failsOnly (s : Schema) (points : Nat) (payload : Bytes) :
    FailsOnly IsReading (decompress s points payload) := by
  have hfield : ∀ e : Error, e.IsCorruption → e.IsReading := fun _ h => h.isReading
  unfold decompress
  refine (bufferLength_failsOnly _ _).bind fun expected => ?_
  refine (reserve_failsOnly _).bind fun _ => ?_
  refine ((Cursor.byte_failsOnly _).mono hfield).bind ?_
  rintro ⟨keyBits, c⟩
  simp only [Result.throw_eq, Result.error_bind]
  refine FailsOnly.check (.corruptPatch _) ?_
  refine c.varint_failsOnly.bind ?_
  rintro ⟨clusters, c⟩
  refine (readClusters_failsOnly s points clusters points c).bind ?_
  rintro ⟨rows, room, c⟩
  refine FailsOnly.check (.corruptPatch _) ?_
  exact ((c.finish_failsOnly _).mono hfield).bind fun _ => FailsOnly.ok _

end Hierarchical

theorem External.decompress_failsOnly (s : Schema) (points : Nat) (payload : Bytes) :
    FailsOnly IsReading (decompress s points payload) := by
  unfold decompress
  refine (bufferLength_failsOnly _ _).bind fun expected => ?_
  dsimp only
  split
  · simp only [Result.throw_eq, Result.error_bind]
    exact FailsOnly.check (.corruptPatch _) (Zstd.decode_failsOnly payload)
  · simp only [Result.throw_eq, Result.error_bind]
    refine FailsOnly.check (.corruptPatch _) (FailsOnly.check (.corruptPatch _) ?_)
    exact Zstd.decode_failsOnly payload

theorem Uncompressed.decompress_failsOnly (s : Schema) (points : Nat) (payload : Bytes) :
    FailsOnly IsReading (decompress s points payload) := by
  unfold decompress
  refine (bufferLength_failsOnly _ _).bind fun expected => ?_
  simp only [Result.throw_eq, Result.error_bind]
  refine FailsOnly.check (.corruptPatch _) ?_
  exact (reserve_failsOnly _).bind fun _ => FailsOnly.ok _

theorem Corruption.message_kernel (scheme : String) (fault : KernelFault) :
    (Corruption.kernel scheme fault).message = scheme ++ (": " ++ fault.message) := by
  delta Corruption.message
  dsimp only
  rw [← String.append_assoc]
  rfl

namespace Scheme

theorem read_failsOnly (scheme : Scheme) (s : Schema) (points : Nat) (payload : Bytes) :
    FailsOnly IsReading (scheme.read s points payload) := by
  cases scheme with
  | uncompressed => exact Uncompressed.decompress_failsOnly s points payload
  | dimensional => exact Dimensional.decompress_failsOnly s points payload
  | hierarchical => exact Hierarchical.decompress_failsOnly s points payload
  | externalLossless => exact External.decompress_failsOnly s points payload

theorem decompress_failsOnly (scheme : Scheme) (s : Schema) (points : Nat) (payload : Bytes) :
    FailsOnly Error.IsRefusal (scheme.decompress s points payload) := by
  -- What is reported is the error of reading, with a kernel failure turned into corruption.
  intro e h
  rw [decompress_eq] at h
  obtain ⟨e', hread, rfl⟩ := Result.mapError_eq_error_iff.mp h
  exact (scheme.read_failsOnly s points payload e' hread).asCorruption scheme.name

/-- A kernel failure is reported under the name of the scheme. -/
theorem decompress_of_kernelFault {scheme : Scheme} {s : Schema} {points : Nat} {payload : Bytes}
    {fault : KernelFault} (h : scheme.read s points payload = .error (.kernel fault)) :
    scheme.decompress s points payload = .error (.corruptPatch (.kernel scheme.name fault)) := by
  rw [decompress_eq, h]
  rfl

end Scheme

end PointCloud
