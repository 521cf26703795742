import Mathlib
import PointCloud.Proofs.Patch.Query

/-!
# Sorted patches

A sorted patch holds the stable sort of the points by their keys: the scheme that is asked for gives
way if it groups points, so nothing undoes the order on the way into the payload and out of it.
There is only one stable sort. So a patch whose neighbours are in order decodes to the same buffer
once sorted, any other does not, and sorting again builds the same patch from the same rows.

Main results:

* `Patch.Holds.isSorted_eq` — what the test of neighbours answers;
* `Patch.sort_sort` — a sorted patch is its own sort, bit for bit;
* `Patch.Reachable.sort_stable` — sorting a patch that is reached, and the test of neighbours before
  and after it.
-/

namespace PointCloud

theorem Scheme.keepingOrder_keepingOrder (scheme : Scheme) :
    scheme.keepingOrder.keepingOrder = scheme.keepingOrder := by
  cases scheme <;> rfl

/-- Rows that fit are told apart by the buffers they write. -/
theorem Schema.bytes_inj {s : Schema} {rows others : List Row}
    (hrows : ∀ row ∈ rows, Row.Fits s.sizes row) (hothers : ∀ row ∈ others, Row.Fits s.sizes row) :
    s.bytes rows = s.bytes others ↔ rows = others := by
  constructor
  · intro h
    rw [← s.rows_bytes hrows, ← s.rows_bytes hothers, h]
  · rintro rfl
    rfl

namespace Patch

variable {config : Config} {s : Schema} {p q : Patch} {names : List String}
  {target : Option Scheme} {rows : List Row} {dimensions : List Dimension}

/-! ## Sorting rows -/

/-- The test of neighbours looks at the keys of the rows that a patch holds. -/
theorem Holds.isSorted_eq (hp : p.Holds s rows) (hroom : reserve (p.count.toNat * s.size) = .ok ())
    (hnames : names.mapM s.named = .ok dimensions) (strict : Bool) :
    p.isSorted s names strict =
      .ok (Key.ascending (if strict then Key.lt else Key.le) (rows.map (sortKey dimensions))) := by
  unfold isSorted
  rw [hnames, Result.ok_bind, hp.rows_eq hroom]
  rfl

theorem Holds.sort_eq [Compressors] (hp : p.Holds s rows)
    (hroom : reserve (p.count.toNat * s.size) = .ok ())
    (hnames : names.mapM s.named = .ok dimensions) :
    p.sort config s names target = ofRows config s (Key.sortBy (sortKey dimensions) rows)
      (target.getD p.scheme).keepingOrder := by
  unfold Patch.sort
  rw [hnames, Result.ok_bind, hp.rows_eq hroom]
  rfl

/-- The result holds the sorted rows, in a scheme that keeps their order and has been chosen from
the target and the scheme of the patch. -/
theorem Holds.exists_dimensions_of_sort [Compressors] [LawfulCompressors] (hp : p.Holds s rows)
    (h : p.sort config s names target = .ok q) :
    ∃ dimensions, names.mapM s.named = .ok dimensions ∧
      reserve (p.count.toNat * s.size) = .ok () ∧
      q.scheme = (target.getD p.scheme).keepingOrder ∧
      HoldsInOrder s q (Key.sortBy (sortKey dimensions) rows) := by
  have hsorted := hp.sort h
  obtain ⟨dimensions, hnames, h⟩ := Result.bind_eq_ok_iff.mp h
  obtain ⟨decoded, hdecoded, h⟩ := Result.bind_eq_ok_iff.mp h
  rw [Schema.filterMap_named? hnames] at hsorted
  exact ⟨dimensions, hnames, reserve_of_rows hdecoded, (exists_holds_of_ofBuffer h).1, hsorted⟩

/-- A sorted patch is its own sort: the same rows are given to the same scheme. -/
theorem sort_sort [Compressors] [LawfulCompressors] (hp : p.Holds s rows)
    (h : p.sort config s names target = .ok q) :
    q.sort config s names target = .ok q := by
  obtain ⟨dimensions, hnames, hroom, hscheme, hq⟩ := hp.exists_dimensions_of_sort h
  rw [hp.sort_eq hroom hnames] at h
  rw [hq.holds.sort_eq hq.room hnames, Key.sortBy_sortBy]
  -- Whether a scheme is asked for or not, the second sort takes the one of the first.
  have hagain : (target.getD q.scheme).keepingOrder = (target.getD p.scheme).keepingOrder := by
    cases target with
    | none =>
      rw [Option.getD_none, Option.getD_none, hscheme, Option.getD_none,
        Scheme.keepingOrder_keepingOrder]
    | some scheme => rfl
  rwa [hagain]

/-! ## Sorting patches -/

/-- Sorting a patch that is reached. The result decodes to the stable sort of the points by their
keys, and its neighbours are in order. The neighbours of the patch itself are in order exactly if
sorting leaves its buffer alone, and strictly so exactly if moreover no two points have one key.
Sorting again gives the same patch. -/
theorem Reachable.sort_stable [Compressors] [LawfulCompressors] (hp : Reachable s p)
    (h : p.sort config s names target = .ok q) :
    ∃ dimensions buffer rows, names.mapM s.named = .ok dimensions ∧ p.decode s = .ok buffer ∧
      q.decode s = .ok (s.bytes rows) ∧
      Key.IsStableSort (sortKey dimensions) (s.rows buffer) rows ∧
      q.isSorted s names false = .ok true ∧
      p.isSorted s names false = .ok (decide (s.bytes rows = buffer)) ∧
      p.isSorted s names true = .ok (decide (s.bytes rows = buffer ∧
        ((s.rows buffer).map (sortKey dimensions)).Nodup)) ∧
      q.sort config s names target = .ok q := by
  obtain ⟨rows, hp⟩ := hp.exists_holds
  obtain ⟨dimensions, hnames, hroom, -, hq⟩ := hp.exists_dimensions_of_sort h
  -- The buffers are the same exactly if the rows are, and these exactly if they are in order.
  have hsame : s.bytes (Key.sortBy (sortKey dimensions) rows) = s.bytes rows ↔
      Key.ascending Key.le (rows.map (sortKey dimensions)) = true := by
    rw [Schema.bytes_inj hq.holds.fits hp.fits, Key.sortBy_eq_self_iff]
  refine ⟨dimensions, s.bytes rows, Key.sortBy (sortKey dimensions) rows, hnames,
    hp.decode_eq hroom, hq.decode_eq, ?_, ?_, ?_, ?_, sort_sort hp h⟩
  · rw [s.rows_bytes hp.fits]
    exact Key.isStableSort_sortBy _ rows
  · rw [hq.holds.isSorted_eq hq.room hnames false]
    exact congrArg _ (Key.sortBy_eq_self_iff.mp (Key.sortBy_sortBy _ rows))
  · rw [hp.isSorted_eq hroom hnames false]
    refine congrArg _ (Bool.eq_iff_iff.mpr ?_)
    rw [decide_eq_true_iff]
    exact hsame.symm
  · rw [hp.isSorted_eq hroom hnames true, s.rows_bytes hp.fits]
    refine congrArg _ (Bool.eq_iff_iff.mpr ?_)
    rw [decide_eq_true_iff, hsame]
    exact Key.ascending_lt_iff _

/-- Two points of the plane of one class, sorted by class and then by place, where a scheme that
groups points is asked for. -/
theorem Reachable.sort_stable_planar :
    let s := Schema.planar
    let names := ["Class", "Y"]
    Reachable s planar ∧
    ∃ q, planar.sort {} s names (some .hierarchical) = .ok q ∧
      ∃ dimensions buffer rows, names.mapM s.named = .ok dimensions ∧
        planar.decode s = .ok buffer ∧ q.decode s = .ok (s.bytes rows) ∧
        Key.IsStableSort (sortKey dimensions) (s.rows buffer) rows ∧
        q.isSorted s names false = .ok true ∧ q.sort {} s names (some .hierarchical) = .ok q := by
  intro s names
  obtain ⟨rows, hp⟩ := reachable_planar.exists_holds
  have hnames : names.mapM s.named = .ok [s.dimensions[2], s.dimensions[1]] := rfl
  have hroom : reserve (planar.count.toNat * s.size) = .ok () := rfl
  have hlength : (Key.sortBy (sortKey [s.dimensions[2], s.dimensions[1]]) rows).length = 2 := by
    rw [(Key.perm_sortBy _ rows).length_eq, hp.count]
    rfl
  have hwidth : ∀ row ∈ Key.sortBy (sortKey [s.dimensions[2], s.dimensions[1]]) rows,
      row.length = s.width := fun row hrow =>
    s.length_of_fits (hp.fits row ((Key.perm_sortBy _ rows).mem_iff.mp hrow))
  obtain ⟨q, hq⟩ := exists_ofBuffer {} (Scheme.keepingOrder_ne .hierarchical)
    (s.length_bytes hwidth) (by rw [hlength]; decide) (by rw [hlength]; rfl)
  have hsort : planar.sort {} s names (some .hierarchical) = .ok q := by
    rw [hp.sort_eq hroom hnames]
    exact hq
  obtain ⟨dimensions, buffer, sorted, hdimensions, hbuffer, hdecode, hstable, hsorted, -, -,
    hagain⟩ := reachable_planar.sort_stable hsort
  exact ⟨reachable_planar, q, hsort, dimensions, buffer, sorted, hdimensions, hbuffer, hdecode,
    hstable, hsorted, hagain⟩

end Patch

end PointCloud
