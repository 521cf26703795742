import Mathlib
import PointCloud.Proofs.Binary64.Numeric
import PointCloud.Schema.Basic

/-!
# Schemas that read alike

Two compatible schemas have the same byte order and, dimension by dimension, the same
interpretation, scale and offset. They write rows as the same bytes, and read every word as the same
number. They need not read it as the same value: offsets compare as equal when they are opposite
zeros.

Main results:

* `Schema.isCompatible_iff` — compatible schemas are the ones that read alike;
* `Schema.Alike.bytes_eq` — rows have the same bytes under both;
* `Dimension.number?_value_congr` — a word is the same number in both.
-/

namespace PointCloud

/-! ## Dimensions -/

namespace Dimension

variable {d e : Dimension}

/-- Two dimensions that give one number to a word, up to the sign of a zero. -/
structure SameNumbers (d e : Dimension) : Prop where
  interpretation : d.interpretation = e.interpretation
  scale          : d.scale.equals e.scale = true
  offset         : d.offset.equals e.offset = true

/-- What two dimensions of one encoding share, with offsets that compare as equal. -/
structure Alike (d e : Dimension) : Prop where
  position       : d.position = e.position
  interpretation : d.interpretation = e.interpretation
  scale          : d.scale.equals e.scale = true
  offset         : d.offset.equals e.offset = true

theorem sameEncoding_iff : Schema.sameEncoding d e = true ↔ d.Alike e := by
  unfold Schema.sameEncoding
  simp only [Bool.and_eq_true, beq_iff_eq]
  constructor
  · rintro ⟨⟨⟨hposition, hinterpretation⟩, hscale⟩, hoffset⟩
    exact ⟨hposition, hinterpretation, hscale, hoffset⟩
  · rintro ⟨hposition, hinterpretation, hscale, hoffset⟩
    exact ⟨⟨⟨hposition, hinterpretation⟩, hscale⟩, hoffset⟩

theorem Alike.sameNumbers (h : d.Alike e) : d.SameNumbers e :=
  ⟨h.interpretation, h.scale, h.offset⟩

theorem Alike.size_eq (h : d.Alike e) : d.size = e.size := by
  unfold size
  rw [h.interpretation]

/-- A scale is not zero, so scales that compare as equal are the same. -/
theorem SameNumbers.scale_eq (h : d.SameNumbers e) (hscale : ¬ d.scale.isZero) :
    d.scale = e.scale := by
  rcases Binary64.eq_or_isZero_of_equals h.scale with heq | ⟨hzero, -⟩
  · exact heq
  · exact absurd hzero hscale

theorem number?_value_congr (h : d.SameNumbers e) (hscale : ¬ d.scale.isZero) (word : Nat) :
    (d.value word).number? = (e.value word).number? := by
  unfold value
  rw [← h.interpretation, ← h.scale_eq hscale]
  split
  · rfl
  · exact Binary64.number?_add_congr h.offset _

end Dimension

/-! ## Schemas -/

namespace Schema

variable {s t : Schema}

/-- A schema reads what is of its own identifier. -/
theorem checkPcid_eq_ok_iff {pcid : UInt32} {u : Unit} :
    s.checkPcid pcid = .ok u ↔ pcid = s.pcid := by
  unfold checkPcid
  split <;> simp_all

/-- Schemas that cut a buffer into the same words and read them as the same numbers. -/
structure Alike (s t : Schema) : Prop where
  order      : s.order = t.order
  dimensions : List.Forall₂ Dimension.Alike s.dimensions t.dimensions

theorem isCompatible_iff : s.isCompatible t = true ↔ s.Alike t := by
  unfold isCompatible width
  simp only [Bool.and_eq_true, beq_iff_eq, List.all_eq_true]
  constructor
  · rintro ⟨⟨horder, hwidth⟩, hall⟩
    refine ⟨horder, List.forall₂_iff_zip.mpr ⟨hwidth, fun hmem => ?_⟩⟩
    exact Dimension.sameEncoding_iff.mp (hall _ hmem)
  · rintro ⟨horder, hdimensions⟩
    obtain ⟨hwidth, hall⟩ := List.forall₂_iff_zip.mp hdimensions
    exact ⟨⟨horder, hwidth⟩, fun pair hmem => Dimension.sameEncoding_iff.mpr (hall hmem)⟩

/-- A valid schema reads like itself: no scale and no offset is a NaN. -/
theorem Alike.refl (s : Schema) : s.Alike s := by
  refine ⟨rfl, List.forall₂_same.mpr fun d hd => ⟨rfl, rfl, ?_, ?_⟩⟩
  · exact Binary64.equals_self (s.valid.2.2.1 d hd).1
  · exact Binary64.equals_self (s.valid.2.2.2.1 d hd)

/-- The dimensions of a valid schema are moreover of a scale that is not zero. -/
theorem Alike.scaled (h : s.Alike t) :
    List.Forall₂ (fun d e => d.Alike e ∧ ¬ d.scale.isZero) s.dimensions t.dimensions := by
  obtain ⟨hwidth, hall⟩ := List.forall₂_iff_zip.mp h.dimensions
  refine List.forall₂_iff_zip.mpr ⟨hwidth, fun {d e} hmem => ⟨hall hmem, ?_⟩⟩
  exact (s.valid.2.2.1 d (List.of_mem_zip hmem).1).2

theorem Alike.sizes_eq (h : s.Alike t) : s.sizes = t.sizes := by
  have hsizes : List.Forall₂ (· = ·) (s.dimensions.map (·.size)) (t.dimensions.map (·.size)) := by
    rw [List.forall₂_map_left_iff, List.forall₂_map_right_iff]
    exact h.dimensions.imp fun _ _ hd => hd.size_eq
  rwa [List.forall₂_eq_eq_eq] at hsizes

theorem Alike.size_eq (h : s.Alike t) : s.size = t.size := by
  unfold size
  rw [h.sizes_eq]

theorem Alike.width_eq (h : s.Alike t) : s.width = t.width := h.dimensions.length_eq

theorem Alike.bytes_eq (h : s.Alike t) (rows : List Row) : s.bytes rows = t.bytes rows := by
  have hrow : s.rowBytes = t.rowBytes := by
    funext row
    unfold rowBytes
    rw [h.order, h.sizes_eq]
  unfold bytes
  rw [hrow]

end Schema

end PointCloud
