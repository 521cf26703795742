import Mathlib
import PointCloud.Proofs.Dimension.Faithful
import PointCloud.Proofs.Patch.Extent
import PointCloud.Proofs.Patch.Reachable

/-!
# Patches given to other schemas

Giving a patch to another schema writes the identifier and nothing else; the payload is not looked
at, and may hold nothing at all. Still no point is read as another one. Schemas that read alike cut
a buffer into the same words, since the interpretations decide where a word lies, and a word stands
for the same value under both. There are two ways of being the same. A floating word stands for
itself, so its value is the same to the bit, and only this makes a NaN the same as it was: it does
not compare as equal, not even to itself. An integer is never a NaN, and its values compare as
equal, but may be opposite zeros.

Main results:

* `Schema.isCompatible_equivalence` — schemas fall into classes that read alike;
* `Schema.Alike.sameReadings` — a point has the same values under both schemas;
* `Patch.retag_reinterprets`, `Patch.retag_keeps_nan` — all of this, and why a NaN is apart.
-/

namespace PointCloud

/-! ## Classes of schemas -/

namespace Dimension

variable {d e f : Dimension}

theorem Alike.symm (h : d.Alike e) : e.Alike d :=
  ⟨h.position.symm, h.interpretation.symm, Binary64.equals_symm h.scale,
    Binary64.equals_symm h.offset⟩

theorem Alike.trans (hde : d.Alike e) (hef : e.Alike f) : d.Alike f :=
  ⟨hde.position.trans hef.position, hde.interpretation.trans hef.interpretation,
    Binary64.equals_trans hde.scale hef.scale, Binary64.equals_trans hde.offset hef.offset⟩

/-- Two readings of one word: they compare as equal, or are one NaN, as a floating word can be. -/
def SameReading (d : Dimension) (x y : Binary64) : Prop :=
  x.equals y = true ∨ d.interpretation.isFloat = true ∧ x.isNaN = true ∧ y = x

theorem Alike.sameReading (h : d.Alike e) (hd : d.IsScaled) {word : Nat}
    (hword : word < 2 ^ d.interpretation.bits) : d.SameReading (d.value word) (e.value word) := by
  have hnumber := number?_value_congr h.sameNumbers hd.scale_ne word
  by_cases hnan : (d.value word).isNaN = true
  · -- Numbers say nothing of a NaN, but a floating word stands for itself, whatever the scale.
    right
    have hfloat : d.interpretation.isFloat = true := by
      by_contra hinteger
      rw [Bool.not_eq_true] at hinteger
      rw [isNaN_value hd hinteger hword] at hnan
      cases hnan
    have hsame : e.value word = d.value word := by
      rw [value_of_float hfloat, value_of_float (by rw [← h.interpretation]; exact hfloat),
        h.interpretation]
    exact ⟨hfloat, hnan, hsame⟩
  · left
    rw [Bool.not_eq_true] at hnan
    exact Binary64.equals_of_number? (Binary64.number?_of_not_isNaN hnan) hnumber

end Dimension

namespace Schema

variable {s t u : Schema}

theorem Alike.symm (h : s.Alike t) : t.Alike s :=
  ⟨h.order.symm, (h.dimensions.imp fun _ _ => Dimension.Alike.symm).flip⟩

theorem Alike.trans (hst : s.Alike t) (htu : t.Alike u) : s.Alike u :=
  ⟨hst.order.trans htu.order, forall₂_trans hst.dimensions htu.dimensions Dimension.Alike.trans⟩

theorem isCompatible_equivalence : Equivalence fun s t : Schema => s.isCompatible t = true := by
  simp only [isCompatible_iff]
  exact ⟨Alike.refl, Alike.symm, Alike.trans⟩

/-! ## One buffer under two schemas -/

theorem Alike.byteOffset_eq (h : s.Alike t) (position : Nat) :
    s.byteOffset position = t.byteOffset position := by
  unfold byteOffset
  rw [h.sizes_eq]

/-- Words lie at the same places. -/
theorem Alike.wordAt_eq (h : s.Alike t) {d e : Dimension} (hde : d.Alike e) (buffer : Bytes)
    (index : Nat) : s.wordAt buffer index d = t.wordAt buffer index e := by
  unfold wordAt
  rw [h.order, h.size_eq, h.byteOffset_eq, hde.position, hde.size_eq]

/-- A point is read as the same words and the same values, dimension by dimension. -/
theorem Alike.sameReadings (h : s.Alike t) (buffer : Bytes) (index : Nat) :
    List.Forall₂ (fun d e => s.wordAt buffer index d = t.wordAt buffer index e ∧
        d.SameReading (s.valueAt buffer index d) (t.valueAt buffer index e))
      s.dimensions t.dimensions := by
  obtain ⟨hwidth, hall⟩ := List.forall₂_iff_zip.mp h.dimensions
  refine List.forall₂_iff_zip.mpr ⟨hwidth, fun {d e} hmem => ?_⟩
  have hde := hall hmem
  have hd : d.IsScaled := Dimension.isScaled_of_mem (List.of_mem_zip hmem).1
  have hword := h.wordAt_eq hde buffer index
  refine ⟨hword, ?_⟩
  unfold valueAt
  rw [← hword]
  exact hde.sameReading hd (wordAt_lt buffer index d)

/-- The soundings under other names and another spatial reference, with a negative zero to add. -/
def resounded : Schema where
  pcid := 2
  srid := 3857
  order := .big
  dimensions := [
    { name := "Down", description := some "Below the surface", position := 0,
      interpretation := .int32, scale := halfDown, offset := .zero true },
    { name := "Up", position := 1, interpretation := .float32 }]
  valid := by decide

end Schema

/-! ## Giving a patch away -/

namespace Patch

variable {s t : Schema} {p : Patch}

theorem retag_of_not_isCompatible (hpcid : p.pcid = s.pcid) (h : s.isCompatible t = false) :
    p.retag s t = .error (.schemaMismatch s.pcid t.pcid) := by
  unfold retag Schema.checkPcid
  rw [if_pos hpcid, Result.ok_bind, h]
  rfl

/-- A patch that is given to a schema that reads alike holds the same buffer, if any, whatever its
payload, and can be given back. A point of a buffer has the same words under both schemas, and
values that compare as equal, a NaN of a floating dimension apart, which stays the same bit for bit.
Other schemas are refused. -/
theorem retag_reinterprets :
    (Equivalence fun s t : Schema => s.isCompatible t = true) ∧
    ∀ (s t : Schema) (p : Patch), p.pcid = s.pcid →
      if s.isCompatible t = true then
        ∃ q, p.retag s t = .ok q ∧ q = { p with pcid := t.pcid } ∧ q.retag t s = .ok p ∧
          (∀ buffer, q.decode t = .ok buffer ↔ p.decode s = .ok buffer) ∧
          ∀ buffer index,
            List.Forall₂ (fun d e => s.wordAt buffer index d = t.wordAt buffer index e ∧
                d.SameReading (s.valueAt buffer index d) (t.valueAt buffer index e))
              s.dimensions t.dimensions
      else p.retag s t = .error (.schemaMismatch s.pcid t.pcid) := by
  refine ⟨Schema.isCompatible_equivalence, fun s t p hpcid => ?_⟩
  split
  · rename_i hcompatible
    have halike := Schema.isCompatible_iff.mp hcompatible
    have hgiven : p.retag s t = .ok { p with pcid := t.pcid } :=
      retag_eq_ok_iff.mpr ⟨hpcid, halike, rfl⟩
    -- On the way back the identifier is written over again, with the one that the patch had.
    have hback : ({ p with pcid := t.pcid } : Patch).retag t s = .ok p := by
      refine retag_eq_ok_iff.mpr ⟨rfl, halike.symm, ?_⟩
      rw [← hpcid]
    exact ⟨_, hgiven, rfl, hback, fun buffer => (decode_retag hgiven buffer).symm,
      halike.sameReadings⟩
  · rename_i hcompatible
    rw [Bool.not_eq_true] at hcompatible
    exact retag_of_not_isCompatible hpcid hcompatible

/-- No steps of depth are one zero under one schema and the other zero under the other. -/
theorem retag_reinterprets_sounded :
    let s := Schema.sounded
    let t := Schema.resounded
    let depth := s.dimensions[0]
    let down := t.dimensions[0]
    let buffer : Bytes := [0, 0, 0, 0, 63, 128, 0, 0]
    let p : Patch := ⟨1, .uncompressed, 1, .empty, none, buffer⟩
    p.pcid = s.pcid ∧ s.isCompatible t = true ∧
      (s.valueAt buffer 0 depth = .zero false ∧ t.valueAt buffer 0 down = .zero true) ∧
      depth.SameReading (s.valueAt buffer 0 depth) (t.valueAt buffer 0 down) ∧
      ∃ q, p.retag s t = .ok q ∧ q.retag t s = .ok p ∧ q.decode t = .ok buffer := by
  intro s t depth down buffer p
  have hgiven := retag_reinterprets.2 s t p rfl
  have hcompatible : s.isCompatible t = true := by decide
  rw [if_pos hcompatible] at hgiven
  obtain ⟨q, hq, -, hback, hdecode, hvalues⟩ := hgiven
  have hdepth := (List.forall₂_cons.mp (hvalues buffer 0)).1.2
  exact ⟨rfl, hcompatible, by decide, hdepth, q, hq, hback, (hdecode buffer).mpr rfl⟩

/-- A height that is missing is one NaN under both schemas, and compares as equal to nothing. -/
theorem retag_keeps_nan :
    let s := Schema.sounded
    let t := Schema.resounded
    let height := s.dimensions[1]
    let up := t.dimensions[1]
    let buffer : Bytes := [0, 0, 0, 7, 127, 192, 0, 0]
    s.isCompatible t = true ∧
      ∃ p q, Patch.ofBuffer {} s buffer 1 .uncompressed = .ok p ∧ p.retag s t = .ok q ∧
        p.decode s = .ok buffer ∧ q.decode t = .ok buffer ∧
        t.valueAt buffer 0 up = s.valueAt buffer 0 height ∧
        (s.valueAt buffer 0 height).equals (t.valueAt buffer 0 up) = false := by
  intro s t height up buffer
  let rows := s.rows buffer
  let p : Patch := ⟨1, .uncompressed, 1, s.bounds rows 1,
    s.statisticsIn? (s.bounds rows 1) rows 1, buffer⟩
  have hbuilt : Patch.ofBuffer {} s buffer 1 .uncompressed = .ok p := rfl
  have hgiven : p.retag s t = .ok { p with pcid := 2 } := rfl
  have hdecode : p.decode s = .ok buffer := rfl
  refine ⟨by decide, p, _, hbuilt, hgiven, hdecode, ?_, by decide, by decide⟩
  exact (decode_retag hgiven buffer).mp hdecode

end Patch

end PointCloud
