import Mathlib
import PointCloud.Proofs.Result
import PointCloud.Proofs.Schema.Alike
import PointCloud.Proofs.Scheme.Lengths

/-!
# Reading a payload under a schema that reads alike

What a payload holds depends on the interpretations of the dimensions and the byte order, so it can
be read under another schema that reads alike. Only a refusal may be worded differently: it names
the dimension.

Main result:

* `Scheme.decompress_sameValue` — a payload holds the same buffer under both schemas, if any.
-/

namespace PointCloud

open Result (SameValue)

variable {d e : Dimension} {s t : Schema}

/-! ## Columns -/

theorem Column.ofVerbatim_sameValue (h : d.Alike e) (order : ByteOrder) (points : Nat)
    (bytes : Bytes) :
    SameValue (ofVerbatim d order points bytes) (ofVerbatim e order points bytes) := by
  unfold ofVerbatim
  rw [h.size_eq]
  refine (SameValue.refl _).bind fun expected => ?_
  simp only [Result.throw_eq, Result.error_bind, ne_eq]
  exact SameValue.check _ _ (SameValue.refl _)

theorem Column.decode_sameValue (h : d.Alike e) (order : ByteOrder) (points : Nat) (bytes : Bytes)
    (method : ColumnMethod) :
    SameValue (decode d order points bytes method) (decode e order points bytes method) := by
  -- Only the size of a word matters to a kernel, and the dimensions have one size.
  cases method with
  | verbatim => exact ofVerbatim_sameValue h order points bytes
  | runLength =>
    unfold decode
    rw [h.size_eq]
    exact SameValue.refl _
  | sharedBits =>
    unfold decode
    rw [h.size_eq]
    exact SameValue.refl _
  | deflate =>
    unfold decode
    rw [h.size_eq]
    refine (SameValue.refl _).bind fun expected => (SameValue.refl _).bind fun inflated => ?_
    exact ofVerbatim_sameValue h order points inflated

/-! ## Dimensional payloads -/

namespace Dimensional

theorem readColumn_sameValue (h : d.Alike e) (order : ByteOrder) (points : Nat) (c : Cursor) :
    SameValue (readColumn d order points c) (readColumn e order points c) := by
  unfold readColumn
  refine (SameValue.refl _).bind ?_
  rintro ⟨tag, c⟩
  refine (SameValue.refl _).bind fun method => ?_
  refine (SameValue.refl _).bind ?_
  rintro ⟨length, c⟩
  refine (SameValue.refl _).bind ?_
  rintro ⟨encoded, c⟩
  refine SameValue.bind ?_ fun words => SameValue.refl _
  exact Column.decode_sameValue h order points encoded method

theorem readColumns_sameValue {ds es : List Dimension} (h : List.Forall₂ Dimension.Alike ds es)
    (order : ByteOrder) (points : Nat) (c : Cursor) :
    SameValue (readColumns order points ds c) (readColumns order points es c) := by
  induction h generalizing c with
  | nil => exact SameValue.refl _
  | cons hde _ ih =>
    unfold readColumns
    refine (readColumn_sameValue hde order points c).bind ?_
    rintro ⟨words, c⟩
    exact (ih c).bind fun _ => SameValue.refl _

theorem decompress_sameValue (h : s.Alike t) (points : Nat) (payload : Bytes) :
    SameValue (decompress s points payload) (decompress t points payload) := by
  unfold decompress
  rw [h.size_eq, h.order, funext h.bytes_eq]
  refine (SameValue.refl _).bind fun expected => (SameValue.refl _).bind fun _ => ?_
  refine SameValue.bind ?_ fun _ => SameValue.refl _
  exact readColumns_sameValue h.dimensions t.order points (.start payload)

end Dimensional

/-! ## Hierarchical payloads -/

namespace Hierarchical

theorem readLows_sameValue (d e : Dimension) (unique more low : Nat) (c : Cursor) :
    SameValue (readLows d unique more low c) (readLows e unique more low c) := by
  -- The name of the dimension is in the refusal alone.
  induction more generalizing low c with
  | zero =>
    unfold readLows
    simp only [Result.throw_eq, Result.error_bind]
    exact SameValue.check _ _ (SameValue.refl _)
  | succ more ih =>
    unfold readLows
    simp only [Result.throw_eq, Result.error_bind]
    refine SameValue.check _ _ ?_
    refine (SameValue.refl _).bind ?_
    rintro ⟨n, c⟩
    exact (ih _ c).bind fun _ => SameValue.refl _

theorem readColumn_sameValue (h : d.Alike e) (points : Nat) (c : Cursor) :
    SameValue (readColumn d points c) (readColumn e points c) := by
  unfold readColumn
  rw [h.interpretation]
  refine (SameValue.refl _).bind ?_
  rintro ⟨shared, c⟩
  simp only [Result.throw_eq, Result.error_bind]
  refine SameValue.check _ _ ?_
  refine (SameValue.refl _).bind ?_
  rintro ⟨leading, c⟩
  refine (SameValue.refl _).bind ?_
  rintro ⟨low, c⟩
  exact (readLows_sameValue d e _ _ low c).bind fun _ => SameValue.refl _

theorem readColumns_sameValue {ds es : List Dimension} (h : List.Forall₂ Dimension.Alike ds es)
    (points : Nat) (c : Cursor) :
    SameValue (readColumns points ds c) (readColumns points es c) := by
  induction h generalizing c with
  | nil => exact SameValue.refl _
  | cons hde _ ih =>
    unfold readColumns
    refine (readColumn_sameValue hde points c).bind ?_
    rintro ⟨words, c⟩
    exact (ih c).bind fun _ => SameValue.refl _

theorem readClusters_sameValue (h : s.Alike t) (expected clusters room : Nat) (c : Cursor) :
    SameValue (readClusters s expected clusters room c)
      (readClusters t expected clusters room c) := by
  induction clusters generalizing room c with
  | zero => exact SameValue.refl _
  | succ clusters ih =>
    unfold readClusters
    refine (SameValue.refl _).bind ?_
    rintro ⟨points, c⟩
    simp only [Result.throw_eq, Result.error_bind]
    refine SameValue.check _ _ ?_
    refine (readColumns_sameValue h.dimensions points c).bind ?_
    rintro ⟨columns, c⟩
    exact (ih _ c).bind fun _ => SameValue.refl _

theorem decompress_sameValue (h : s.Alike t) (points : Nat) (payload : Bytes) :
    SameValue (decompress s points payload) (decompress t points payload) := by
  unfold decompress
  rw [h.size_eq, funext h.bytes_eq]
  refine (SameValue.refl _).bind fun expected => (SameValue.refl _).bind fun _ => ?_
  refine (SameValue.refl _).bind ?_
  rintro ⟨keyBits, c⟩
  simp only [Result.throw_eq, Result.error_bind]
  refine SameValue.check _ _ ?_
  refine (SameValue.refl _).bind ?_
  rintro ⟨clusters, c⟩
  exact (readClusters_sameValue h points clusters points c).bind fun _ => SameValue.refl _

end Hierarchical

/-! ## All schemes -/

theorem Scheme.decompress_sameValue (h : s.Alike t) (scheme : Scheme) (points : Nat)
    (payload : Bytes) :
    SameValue (scheme.decompress s points payload) (scheme.decompress t points payload) := by
  -- Reporting a failure as corruption leaves values as they are.
  rw [decompress_eq, decompress_eq]
  refine SameValue.mapError _ ?_
  cases scheme with
  | uncompressed =>
    unfold read Uncompressed.decompress
    rw [h.size_eq]
    exact SameValue.refl _
  | dimensional => exact Dimensional.decompress_sameValue h points payload
  | hierarchical => exact Hierarchical.decompress_sameValue h points payload
  | externalLossless =>
    unfold read External.decompress
    rw [h.size_eq]
    exact SameValue.refl _

end PointCloud
