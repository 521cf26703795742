import Mathlib
import PointCloud.Proofs.Patch.Query
import PointCloud.Proofs.Schema.Words

/-!
# Points by their indices

Sorting and filtering look at words and move whole points. Each of them is therefore a choice of
indices, made from the words of a buffer, and the same whatever else the bytes say. The points at
these indices, one after the other, are what the result decodes to.

Main results:

* `Patch.decode_sort` — a sorted patch decodes to the points in the order of the sorted indices;
* `Patch.exists_indices_of_filter` — a filtered patch decodes to the points that are kept.
-/

namespace PointCloud

/-- What is a rearrangement of images is the image of a rearrangement. -/
theorem exists_perm_of_perm_map {α β : Type} {f : α → β} {xs : List α} {ys : List β}
    (h : ys.Perm (xs.map f)) : ∃ zs : List α, zs.Perm xs ∧ ys = zs.map f := by
  have hcomp := congrFun (congrFun (List.eq_map_comp_perm f) ys) xs
  obtain ⟨zs, hys, hzs⟩ := hcomp.mpr h
  exact ⟨zs, hzs, hys⟩

/-! ## Choices of indices -/

namespace Schema

variable (s : Schema)

/-- The indices of points in ascending order of some dimensions. -/
def sortedIndices (dimensions : List Dimension) (buffer : Bytes) (points : Nat) : List Nat :=
  Key.sortBy (fun index => dimensions.map fun d => d.sortKey (s.wordAt buffer index d))
    (List.range points)

/-- The indices of points that pass a test of a dimension. -/
def selectedIndices (d : Dimension) (predicate : Predicate) (buffer : Bytes) (points : Nat) :
    List Nat :=
  (List.range points).filter fun index => predicate.holds (d.value (s.wordAt buffer index d))

end Schema

/-! ## From indices to rows -/

section Rows

variable {s : Schema} {buffer : Bytes} {points : Nat}

theorem Patch.sortKey_map_wordAt {dimensions : List Dimension}
    (h : ∀ d ∈ dimensions, d ∈ s.dimensions) (buffer : Bytes) (index : Nat) :
    sortKey dimensions (s.dimensions.map (s.wordAt buffer index)) =
      dimensions.map fun d => d.sortKey (s.wordAt buffer index d) :=
  List.map_congr_left fun d hd => by rw [Schema.getD_map_wordAt (h d hd)]

/-- Rows are sorted as their indices are. -/
theorem Patch.sortBy_rows (h : buffer.length = points * s.size) {dimensions : List Dimension}
    (hdimensions : ∀ d ∈ dimensions, d ∈ s.dimensions) :
    Key.sortBy (sortKey dimensions) (s.rows buffer) =
      (s.sortedIndices dimensions buffer points).map fun index =>
        s.dimensions.map (s.wordAt buffer index) := by
  rw [Schema.rows_eq_map_words h, Key.sortBy_map]
  simp only [sortKey_map_wordAt hdimensions]
  rfl

/-- Rows are kept as their indices are. -/
theorem Patch.filter_rows (h : buffer.length = points * s.size) {d : Dimension}
    (hd : d ∈ s.dimensions) (predicate : Predicate) :
    (s.rows buffer).filter (passes d predicate) =
      (s.selectedIndices d predicate buffer points).map fun index =>
        s.dimensions.map (s.wordAt buffer index) := by
  rw [Schema.rows_eq_map_words h, List.filter_map, Schema.selectedIndices]
  congr 1
  refine List.filter_congr fun index _ => ?_
  show passes d predicate _ = _
  rw [passes, Schema.getD_map_wordAt hd]

end Rows

/-! ## Patches -/

namespace Patch

variable {config : Config} {s : Schema} {p q : Patch} {buffer : Bytes} {target : Option Scheme}

theorem length_of_decode (h : p.decode s = .ok buffer) :
    buffer.length = p.count.toNat * s.size := by
  obtain ⟨u, -, h⟩ := Result.bind_eq_ok_iff.mp h
  exact Scheme.length_of_decompress h

theorem count_of_decode {points : Nat} (h : p.decode s = .ok buffer)
    (hbuffer : buffer.length = points * s.size) : p.count.toNat = points :=
  Nat.eq_of_mul_eq_mul_right s.size_pos ((length_of_decode h).symm.trans hbuffer)

theorem rows_of_decode (h : p.decode s = .ok buffer) : p.rows s = .ok (s.rows buffer) := by
  unfold Patch.rows
  rw [h]
  rfl

theorem mem_of_mapM_named {names : List String} {dimensions : List Dimension}
    (h : names.mapM s.named = .ok dimensions) : ∀ d ∈ dimensions, d ∈ s.dimensions := by
  intro d hd
  rw [← Schema.filterMap_named? h] at hd
  obtain ⟨name, -, hname⟩ := List.mem_filterMap.mp hd
  exact (Schema.named?_eq_some_iff.mp hname).1

variable [Compressors] [LawfulCompressors]

/-- A sorted patch holds the sorted rows, in order. -/
theorem holdsInOrder_of_sort {names : List String} {dimensions : List Dimension}
    (hp : p.decode s = .ok buffer) (hnames : names.mapM s.named = .ok dimensions)
    (h : p.sort config s names target = .ok q) :
    HoldsInOrder s q (Key.sortBy (sortKey dimensions) (s.rows buffer)) := by
  have hperm := Key.perm_sortBy (sortKey dimensions) (s.rows buffer)
  unfold Patch.sort at h
  rw [hnames, Result.ok_bind, rows_of_decode hp, Result.ok_bind] at h
  refine holdsInOrder_of_ofRows ?_ (Scheme.keepingOrder_ne _) ?_ h
  · intro row hrow
    exact s.fits_of_mem_rows (hperm.mem_iff.mp hrow)
  · rw [hperm.length_eq, s.length_rows (length_of_decode hp)]
    exact reserve_of_decode hp

/-- A sorted patch decodes to the points in the order of the sorted indices. -/
theorem decode_sort {names : List String} {dimensions : List Dimension}
    (hp : p.decode s = .ok buffer) (hnames : names.mapM s.named = .ok dimensions)
    (h : p.sort config s names target = .ok q) :
    q.decode s = .ok (s.gather buffer (s.sortedIndices dimensions buffer p.count.toNat)) := by
  have hlength := length_of_decode hp
  rw [(holdsInOrder_of_sort hp hnames h).decode_eq,
    sortBy_rows hlength (mem_of_mapM_named hnames), Schema.bytes_map hlength]
  intro index hindex
  exact List.mem_range.mp ((Key.perm_sortBy _ _).mem_iff.mp hindex)

/-- A filtered patch decodes to the points that are kept, in order unless the scheme groups
points. -/
theorem exists_indices_of_filter {name : String} {d : Dimension} {predicate : Predicate}
    (hp : p.decode s = .ok buffer) (hd : s.named name = .ok d)
    (h : p.filter config s name predicate target = .ok q) :
    ∃ indices, indices.Perm (s.selectedIndices d predicate buffer p.count.toNat) ∧
      (q.scheme ≠ .hierarchical →
        indices = s.selectedIndices d predicate buffer p.count.toNat) ∧
      q.decode s = .ok (s.gather buffer indices) := by
  have hlength := length_of_decode hp
  obtain ⟨hmem, -⟩ := Schema.named_eq_ok_iff.mp hd
  rw [filter_of_rows hd (rows_of_decode hp)] at h
  obtain ⟨hscheme, kept, hperm, hkept, hq⟩ := exists_holds_of_ofRows
    (fun row hrow => s.fits_of_mem_rows (List.mem_filter.mp hrow).1) h
  rw [filter_rows hlength hmem] at hperm hkept
  -- The rows that are held are those of some order of the indices that are kept.
  obtain ⟨indices, hindices, hheld, hordered⟩ : ∃ indices,
      indices.Perm (s.selectedIndices d predicate buffer p.count.toNat) ∧
      kept = (indices.map fun index => s.dimensions.map (s.wordAt buffer index)) ∧
      (q.scheme ≠ .hierarchical →
        indices = s.selectedIndices d predicate buffer p.count.toNat) := by
    rw [hscheme]
    by_cases hgroups : target.getD p.scheme = .hierarchical
    · obtain ⟨indices, hindices, hheld⟩ := exists_perm_of_perm_map hperm
      exact ⟨indices, hindices, hheld, fun hne => absurd hgroups hne⟩
    · exact ⟨_, List.Perm.refl _, hkept hgroups, fun _ => rfl⟩
  refine ⟨indices, hindices, hordered, ?_⟩
  have hroom : reserve (q.count.toNat * s.size) = .ok () := by
    have hle : q.count.toNat ≤ p.count.toNat := by
      rw [← hq.count, hheld, List.length_map, hindices.length_eq]
      exact (List.length_filter_le _ _).trans (Nat.le_of_eq (List.length_range ..))
    exact reserve_mono (Nat.mul_le_mul_right _ hle) (reserve_of_decode hp)
  rw [hq.decode_eq hroom, hheld, Schema.bytes_map hlength]
  intro index hindex
  have hselected := hindices.mem_iff.mp hindex
  exact List.mem_range.mp (List.mem_filter.mp hselected).1

end Patch

end PointCloud
