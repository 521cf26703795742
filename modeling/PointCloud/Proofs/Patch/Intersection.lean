import Mathlib
import PointCloud.Proofs.Patch.Bounds

/-!
# Intersections

Cutting a patch down to the box of another keeps the points that the box encloses. If the boxes of
the two have no place in common, no point is decoded; the box of a patch covers its points, so there
is none to keep.

Main results:

* `Patch.Holds.not_encloses` — a box apart from that of a patch encloses none of its points;
* `Patch.Holds.intersection` — what is held after cutting down, on either way;
* `Patch.Reachable.intersection_filters` — cutting a patch that is reached down to the box of
  another filters its points, and doing it again changes nothing.
-/

namespace PointCloud

/-- The rows whose values a box encloses, in order. -/
def Schema.enclosed (s : Schema) (b : Bounds) (rows : List Row) : List Row :=
  rows.filter fun row => b.Encloses (s.values row)

namespace Patch

variable {config : Config} {s : Schema} {a b q : Patch} {target : Option Scheme}
  {rows : List Row}

/-- A box apart from that of a patch encloses none of the points of the patch. -/
theorem Holds.not_encloses (ha : a.Holds s rows) (hapart : a.bounds.intersects b.bounds = false)
    {row : Row} (hrow : row ∈ rows) : ¬ b.bounds.Encloses (s.values row) := by
  intro hencloses
  have hmeet := Bounds.intersects_of_covers (ha.covers hrow) hencloses
  rw [hapart] at hmeet
  cases hmeet

/-- The test of rows by the box of a patch keeps the rows that the box encloses. -/
theorem Holds.filter_contains (ha : a.Holds s rows) (hwidth : b.bounds.HasWidth s.width) :
    filterRepeats (fun row => b.bounds.contains (s.values row)) rows =
      s.enclosed b.bounds rows := by
  rw [filterRepeats_eq_filter]
  refine List.filter_congr fun row hrow => ?_
  have hlength : (s.values row).length = s.width :=
    Schema.length_values (s.length_of_fits (ha.fits row hrow))
  rw [← hlength] at hwidth
  rw [Bool.eq_iff_iff, decide_eq_true_iff]
  exact Bounds.contains_iff_encloses hwidth

/-- Either way a patch that is cut down is built from the rows that the box encloses, and there is
room for them: if no row was decoded, there is none. -/
theorem Holds.ofRows_of_intersection [Compressors] (ha : a.Holds s rows)
    (hwidth : b.bounds.HasWidth s.width)
    (hroom : ∀ decoded, a.rows s = .ok decoded → reserve (a.count.toNat * s.size) = .ok ())
    (h : a.intersection b config s target = .ok q) :
    reserve ((s.enclosed b.bounds rows).length * s.size) = .ok () ∧
      ofRows config s (s.enclosed b.bounds rows) (target.getD (preferredScheme a [b])) = .ok q := by
  unfold Patch.intersection at h
  obtain ⟨_, -, h⟩ := Result.bind_eq_ok_iff.mp h
  obtain ⟨_, -, h⟩ := Result.bind_eq_ok_iff.mp h
  dsimp only at h
  split at h
  · rename_i hcheck
    have hapart : a.bounds.intersects b.bounds = false := by simpa using hcheck
    have hnone : s.enclosed b.bounds rows = [] := by
      refine List.filter_eq_nil_iff.mpr fun row hrow => ?_
      rw [decide_eq_true_iff]
      exact ha.not_encloses hapart hrow
    rw [hnone, List.length_nil, Nat.zero_mul]
    exact ⟨rfl, h⟩
  · obtain ⟨decoded, hdecoded, -⟩ := Result.bind_eq_ok_iff.mp h
    have hdecode := hroom decoded hdecoded
    rw [ha.rows_eq hdecode, Result.ok_bind, ha.filter_contains hwidth] at h
    rw [← ha.count] at hdecode
    exact ⟨reserve_mono (Nat.mul_le_mul_right _ (List.length_filter_le _ _)) hdecode, h⟩

theorem Holds.fits_enclosed (ha : a.Holds s rows) (box : Bounds) :
    ∀ row ∈ s.enclosed box rows, Row.Fits s.sizes row :=
  ha.fits_of_sublist List.filter_sublist

/-- Cutting a patch down keeps the rows that the box encloses, in an order that the scheme may
choose. -/
theorem Holds.intersection [Compressors] [LawfulCompressors] (ha : a.Holds s rows)
    (hwidth : b.bounds.HasWidth s.width) (hroom : reserve (a.count.toNat * s.size) = .ok ())
    (h : a.intersection b config s target = .ok q) :
    ∃ kept, kept.Perm (s.enclosed b.bounds rows) ∧
      (q.scheme ≠ .hierarchical → kept = s.enclosed b.bounds rows) ∧ q.Holds s kept := by
  obtain ⟨-, hbuilt⟩ := ha.ofRows_of_intersection hwidth (fun _ _ => hroom) h
  obtain ⟨hscheme, hkept⟩ := exists_holds_of_ofRows (ha.fits_enclosed b.bounds) hbuilt
  rwa [← hscheme] at hkept

/-- Cutting a patch that is reached down to the box of another filters its points. The result
decodes to the points that the box encloses, in order unless its scheme groups points. If the boxes
have no place in common there are none. Cutting down again keeps every point. -/
theorem Reachable.intersection_filters [Compressors] [LawfulCompressors] (ha : Reachable s a)
    (hb : Reachable s b) (hroom : reserve (a.count.toNat * s.size) = .ok ())
    (h : a.intersection b config s target = .ok q) :
    ∃ buffer, a.decode s = .ok buffer ∧
      (a.bounds.intersects b.bounds = false →
        ∀ row ∈ s.rows buffer, ¬ b.bounds.Encloses (s.values row)) ∧
      ∃ kept, q.decode s = .ok (s.bytes kept) ∧
        kept.Perm (s.enclosed b.bounds (s.rows buffer)) ∧
        (q.scheme ≠ .hierarchical → kept = s.enclosed b.bounds (s.rows buffer)) ∧
        ∀ config' target' q', q.intersection b config' s target' = .ok q' →
          ∃ kept', q'.decode s = .ok (s.bytes kept') ∧ kept'.Perm kept ∧
            (q'.scheme ≠ .hierarchical → kept' = kept) := by
  obtain ⟨rows, ha⟩ := ha.exists_holds
  obtain ⟨others, hb⟩ := hb.exists_holds
  obtain ⟨kept, hperm, hkept, hq⟩ := ha.intersection hb.hasWidth hroom h
  -- No more points are kept than there were, so there is room for them.
  have hle : kept.length ≤ rows.length := by
    rw [hperm.length_eq]
    exact List.length_filter_le _ rows
  have hroom' : reserve (q.count.toNat * s.size) = .ok () := by
    refine reserve_mono ?_ hroom
    rw [← hq.count, ← ha.count]
    exact Nat.mul_le_mul_right s.size hle
  refine ⟨s.bytes rows, ha.decode_eq hroom, ?_, kept, hq.decode_eq hroom', ?_, ?_, ?_⟩
  · intro hapart row hrow
    rw [s.rows_bytes ha.fits] at hrow
    exact ha.not_encloses hapart hrow
  · rwa [s.rows_bytes ha.fits]
  · rwa [s.rows_bytes ha.fits]
  · intro config' target' q' h'
    obtain ⟨kept', hperm', hkept', hq'⟩ := hq.intersection hb.hasWidth hroom' h'
    -- All that was kept is enclosed, so it passes the filter once more.
    have hagain : s.enclosed b.bounds kept = kept := by
      refine List.filter_eq_self.mpr fun row hrow => ?_
      exact (List.mem_filter.mp (hperm.mem_iff.mp hrow)).2
    rw [hagain] at hperm' hkept'
    have hcount : q'.count.toNat = q.count.toNat := by
      rw [← hq'.count, ← hq.count, hperm'.length_eq]
    have hroom'' : reserve (q'.count.toNat * s.size) = .ok () := by rwa [hcount]
    exact ⟨kept', hq'.decode_eq hroom'', hperm', hkept'⟩

/-- Two points of the plane, cut down to the box of one of them. -/
theorem Reachable.intersection_filters_planar :
    let s := Schema.planar
    ∃ b, Reachable s planar ∧ Reachable s b ∧
      reserve (planar.count.toNat * s.size) = .ok () ∧
      planar.intersection b {} s (some .uncompressed) = .ok b ∧
      ∃ buffer, planar.decode s = .ok buffer ∧
        ∃ kept, b.decode s = .ok (s.bytes kept) ∧ kept = s.enclosed b.bounds (s.rows buffer) := by
  intro s
  let point : Bytes := [0, 9, 255, 1, 3]
  let b : Patch := ⟨1, .uncompressed, 1, s.bounds (s.rows point) 1,
    s.statisticsIn? (s.bounds (s.rows point) 1) (s.rows point) 1, point⟩
  have hbuilt : Patch.ofBuffer {} s point 1 .uncompressed = .ok b := rfl
  have hcut : planar.intersection b {} s (some .uncompressed) = .ok b := by
    decide +kernel
  have hroom : reserve (planar.count.toNat * s.size) = .ok () := by decide
  obtain ⟨buffer, hbuffer, -, kept, hdecode, -, hkept, -⟩ :=
    reachable_planar.intersection_filters (.ofBuffer hbuilt) hroom hcut
  exact ⟨b, reachable_planar, .ofBuffer hbuilt, hroom, hcut, buffer, hbuffer, kept, hdecode,
    hkept (by decide)⟩

end Patch

end PointCloud
