import Mathlib
import PointCloud.Proofs.Binary64.Order
import PointCloud.Proofs.Patch.Bounds
import PointCloud.Proofs.Schema.Words

/-!
# The exact box of a buffer

The box of points is computed by a fold that starts from the inverted infinities, passes over NaNs,
and may keep either of two zeros. As numbers, its ends are nevertheless determined: they are on the
outer side of every value, and one of the values is on them as soon as any value is a number at all.
Only values that are all NaNs leave an end where the fold started.

Main results:

* `isExtent_least_greatest` — the ends of a list of values;
* `Schema.columnValues_rows` — the columns of a buffer are its values, dimension by dimension;
* `Schema.bounds_exact` — the box of a buffer.
-/

namespace PointCloud

open Binary64 (number?)

/-! ## Folds that select -/

section Folds

variable {r : Int → Int → Prop} {op : Int → Int → Int}

/-- A fold of an operation that gives one of its arguments ends at its start, or at something that
it went over. -/
theorem foldl_mem_cons (hop : ∀ a b, op a b = a ∨ op a b = b) (ns : List Int) (start : Int) :
    ns.foldl op start ∈ start :: ns := by
  induction ns generalizing start with
  | nil => exact List.mem_singleton_self start
  | cons n ns ih =>
    rw [List.foldl_cons]
    rcases List.mem_cons.mp (ih (op start n)) with hstart | hmem
    · -- Nothing after the first one was picked: it is up to the first step.
      rw [hstart]
      rcases hop start n with h | h
      · rw [h]
        exact List.mem_cons_self
      · rw [h]
        exact List.mem_cons_of_mem _ List.mem_cons_self
    · exact List.mem_cons_of_mem _ (List.mem_cons_of_mem _ hmem)

/-- A fold that starts from beyond everything ends at something that it went over. -/
theorem foldl_mem_of_rel [IsPreorder Int r] [Std.Antisymm r] (hop : ∀ a b, op a b = a ∨ op a b = b)
    (hleft : ∀ a b, r (op a b) a) (hright : ∀ a b, r (op a b) b) {ns : List Int} (hne : ns ≠ [])
    {start : Int} (hstart : ∀ n ∈ ns, r n start) : ns.foldl op start ∈ ns := by
  rcases List.mem_cons.mp (foldl_mem_cons hop ns start) with heq | hmem
  · -- The start is left only for something else, so what is there is the start as well.
    obtain ⟨n, hn⟩ := List.exists_mem_of_ne_nil ns hne
    have hfold := foldl_rel_of_mem hleft hright hn start
    have hsame : ns.foldl op start = n :=
      antisymm_of r hfold (by rw [heq]; exact hstart n hn)
    rw [hsame]
    exact hn
  · exact hmem

end Folds

/-! ## The ends of values -/

/-- The ends of values, NaNs aside. -/
structure IsExtent (values : List Binary64) (low high : Binary64) : Prop where
  /-- The ends are numbers. -/
  isNaN_low  : low.isNaN = false
  isNaN_high : high.isNaN = false
  /-- Every number is between the ends. -/
  low_le     : ∀ value ∈ values, value.isNaN = false → low.le value = true
  le_high    : ∀ value ∈ values, value.isNaN = false → value.le high = true
  /-- Both ends are reached if there is any number. -/
  low_mem    : (∃ value ∈ values, value.isNaN = false) → ∃ value ∈ values, value.equals low = true
  high_mem   : (∃ value ∈ values, value.isNaN = false) → ∃ value ∈ values, value.equals high = true
  /-- They are inverted if there is none. -/
  inverted   : (∀ value ∈ values, value.isNaN = true) →
    low = .infinity false ∧ high = .infinity true

section Ends

variable {values : List Binary64}

/-- Every number lies between the infinities. -/
theorem place_of_mem_numbers {n : Int} (h : n ∈ values.filterMap number?) :
    (Binary64.infinity true).place ≤ n ∧ n ≤ (Binary64.infinity false).place := by
  obtain ⟨value, -, hn⟩ := List.mem_filterMap.mp h
  have hnumber := Binary64.isNaN_of_number? hn
  obtain rfl : value.place = n :=
    Option.some.inj ((Binary64.number?_of_not_isNaN hnumber).symm.trans hn)
  exact ⟨Binary64.neg_infinity_le_place hnumber, Binary64.place_le_infinity hnumber⟩

theorem numbers_ne_nil (h : ∃ value ∈ values, value.isNaN = false) :
    values.filterMap number? ≠ [] := by
  obtain ⟨value, hvalue, hnumber⟩ := h
  exact List.ne_nil_of_mem
    (List.mem_filterMap.mpr ⟨value, hvalue, Binary64.number?_of_not_isNaN hnumber⟩)

/-- What is the number of some value is equal to a value. -/
theorem exists_equals_of_mem_numbers {bound : Binary64} {n : Int} (hbound : bound.number? = some n)
    (h : n ∈ values.filterMap number?) : ∃ value ∈ values, value.equals bound = true := by
  obtain ⟨value, hvalue, hn⟩ := List.mem_filterMap.mp h
  exact ⟨value, hvalue, Binary64.equals_of_number? hn (hn.trans hbound.symm)⟩

/-- A fold that passes over NaNs does not leave its start for them. -/
theorem foldl_of_isNaN {f : Binary64 → Binary64 → Binary64}
    (hf : ∀ x y : Binary64, y.number? = none → f x y = x) (start : Binary64)
    (h : ∀ value ∈ values, value.isNaN = true) : values.foldl f start = start := by
  induction values with
  | nil => rfl
  | cons value values ih =>
    have hvalue := Binary64.number?_eq_none_iff.mpr (h value List.mem_cons_self)
    rw [List.foldl_cons, hf start value hvalue]
    exact ih fun other hother => h other (List.mem_cons_of_mem _ hother)

/-- The least and the greatest of values are the ends of the values. -/
theorem isExtent_least_greatest (values : List Binary64) :
    IsExtent values (least values) (greatest values) where
  isNaN_low      := Binary64.isNaN_of_number? (number?_least values)
  isNaN_high     := Binary64.isNaN_of_number? (number?_greatest values)
  low_le _ h hn  := least_le h hn
  le_high _ h hn := le_greatest h hn
  low_mem h      := by
    refine exists_equals_of_mem_numbers (number?_least values) ?_
    exact foldl_mem_of_rel min_choice Int.min_le_left Int.min_le_right (numbers_ne_nil h)
      fun n hn => (place_of_mem_numbers hn).2
  high_mem h     := by
    refine exists_equals_of_mem_numbers (number?_greatest values) ?_
    exact foldl_mem_of_rel (r := (· ≥ ·)) max_choice Int.le_max_left Int.le_max_right
      (numbers_ne_nil h) fun n hn => (place_of_mem_numbers hn).1
  inverted h     :=
    ⟨foldl_of_isNaN Binary64.minimum_of_number?_eq_none _ h,
      foldl_of_isNaN Binary64.maximum_of_number?_eq_none _ h⟩

end Ends

/-! ## The values of a buffer -/

/-- The columns of rows that are read off words are those words, place by place. -/
theorem Row.columns_map {α β : Type} (word : α → β → Nat) (places : List β) (items : List α) :
    columns places.length (items.map fun a => places.map (word a)) =
      places.map fun b => items.map fun a => word a b := by
  induction places with
  | nil => rfl
  | cons b places ih =>
    rw [List.length_cons, columns, List.map_map, List.map_map, List.map_cons, ← ih]
    rfl

namespace Schema

variable {s : Schema}

/-- The value of a dimension in the point at an index. -/
def valueAt (s : Schema) (buffer : Bytes) (index : Nat) (d : Dimension) : Binary64 :=
  d.value (s.wordAt buffer index d)

/-- The values of a dimension in the first points of a buffer. -/
def valuesOf (s : Schema) (buffer : Bytes) (points : Nat) (d : Dimension) : List Binary64 :=
  (List.range points).map fun index => s.valueAt buffer index d

theorem valueAt_mem_valuesOf {buffer : Bytes} {index points : Nat} (h : index < points)
    (d : Dimension) : s.valueAt buffer index d ∈ s.valuesOf buffer points d :=
  List.mem_map.mpr ⟨index, List.mem_range.mpr h, rfl⟩

/-- The columns of a buffer are its values, dimension by dimension. -/
theorem columnValues_rows {buffer : Bytes} {points : Nat} (h : buffer.length = points * s.size) :
    s.columnValues (s.rows buffer) = s.dimensions.map (s.valuesOf buffer points) := by
  unfold columnValues columns
  rw [rows_eq_map_words h, width, Row.columns_map, List.zipWith_map_right, List.zipWith_self]
  refine List.map_congr_left fun d _ => ?_
  rw [mapRepeats_eq_map, List.map_map]
  rfl

/-- The box of a buffer of points. -/
theorem bounds_rows {buffer : Bytes} {points : Nat} (hpoints : 0 < points)
    (hbuffer : buffer.length = points * s.size) :
    s.bounds (s.rows buffer) points =
      .extent (s.dimensions.map fun d => least (s.valuesOf buffer points d))
        (s.dimensions.map fun d => greatest (s.valuesOf buffer points d)) := by
  have hlength := s.length_rows hbuffer
  have hne : s.rows buffer ≠ [] := List.ne_nil_of_length_pos (by omega)
  have hbounds := s.bounds_of_ne_nil hne
  rw [hlength, columnValues_rows hbuffer, List.map_map, List.map_map] at hbounds
  exact hbounds

/-- A point of numbers is enclosed by the box of its buffer. -/
theorem bounds_encloses {buffer : Bytes} {index points : Nat} (hindex : index < points)
    (hbuffer : buffer.length = points * s.size)
    (h : ∀ d ∈ s.dimensions, (s.valueAt buffer index d).isNaN = false) :
    (s.bounds (s.rows buffer) points).Encloses (s.dimensions.map (s.valueAt buffer index)) := by
  rw [bounds_rows (Nat.zero_lt_of_lt hindex) hbuffer]
  show List.Forall₂ _ _ _ ∧ List.Forall₂ _ _ _
  simp only [List.forall₂_map_left_iff, List.forall₂_map_right_iff, List.forall₂_same]
  have hmem : ∀ d, s.valueAt buffer index d ∈ s.valuesOf buffer points d :=
    valueAt_mem_valuesOf hindex
  exact ⟨fun d hd => least_le (hmem d) (h d hd), fun d hd => le_greatest (hmem d) (h d hd)⟩

/-- The points of a buffer in another order. -/
theorem rows_gather_perm {buffer : Bytes} {points : Nat} (hbuffer : buffer.length = points * s.size)
    {indices : List Nat} (h : indices.Perm (List.range points)) :
    (s.rows (s.gather buffer indices)).Perm (s.rows buffer) := by
  have hindices : ∀ index ∈ indices, index < points := fun index hindex =>
    List.mem_range.mp (h.mem_iff.mp hindex)
  have hperm := h.map fun index => s.dimensions.map (s.wordAt buffer index)
  rw [← rows_eq_map_words hbuffer] at hperm
  rw [← bytes_map hbuffer hindices, rows_bytes]
  · exact hperm
  · exact fun row hrow => s.fits_of_mem_rows (hperm.mem_iff.mp hrow)

/-- The box of a buffer has the ends of every dimension, holds every point of numbers, and does not
depend on the order of the points. -/
theorem bounds_exact (s : Schema) {buffer : Bytes} {points : Nat} (hpoints : 0 < points)
    (hbuffer : buffer.length = points * s.size) :
    ∃ lows highs : List Binary64,
      s.bounds (s.rows buffer) points = .extent lows highs ∧
      lows.length = s.width ∧ highs.length = s.width ∧
      (∀ d ∈ s.dimensions, ∃ low high,
        lows[d.position]? = some low ∧ highs[d.position]? = some high ∧
        IsExtent (s.valuesOf buffer points d) low high) ∧
      (∀ index < points, (∀ d ∈ s.dimensions, (s.valueAt buffer index d).isNaN = false) →
        (Bounds.extent lows highs).contains (s.dimensions.map (s.valueAt buffer index)) = true) ∧
      ∀ indices : List Nat, indices.Perm (List.range points) →
        (s.bounds (s.rows (s.gather buffer indices)) points).Agree (.extent lows highs) := by
  have hbounds := bounds_rows hpoints hbuffer
  refine ⟨_, _, hbounds, ?_, ?_, ?_, ?_, ?_⟩
  · exact List.length_map ..
  · exact List.length_map ..
  -- the ends of every dimension, found at its position
  · intro d hd
    refine ⟨_, _, ?_, ?_, isExtent_least_greatest (s.valuesOf buffer points d)⟩
    · rw [List.getElem?_map, getElem_position hd, Option.map_some]
    · rw [List.getElem?_map, getElem_position hd, Option.map_some]
  -- the points of numbers, which are enclosed
  · intro index hindex hnumbers
    rw [← hbounds, Bounds.contains_iff_encloses]
    · exact bounds_encloses hindex hbuffer hnumbers
    · rw [hbounds]
      simp [Bounds.HasWidth]
  -- the points in another order, which are the same rows in another order
  · intro indices hindices
    have hperm := rows_gather_perm hbuffer hindices
    have hagree := bounds_agree (Alike.refl s) hperm
    rw [hperm.length_eq, s.length_rows hbuffer] at hagree
    rw [← hbounds]
    exact hagree

/-- Points with a place on a line and a height that may be missing. -/
def measured : Schema where
  pcid := 1
  srid := 4326
  order := .big
  dimensions := [
    { name := "X", position := 0, interpretation := .int16 },
    { name := "Height", position := 1, interpretation := .float32 }]
  valid := by decide

/-- A point without a height does not widen the box of the other one, and is outside of it. -/
theorem bounds_exact_measured :
    let s := measured
    let height : Dimension := { name := "Height", position := 1, interpretation := .float32 }
    let buffer : Bytes := [0, 7, 127, 192, 0, 0, 255, 255, 63, 128, 0, 0]
    buffer.length = 2 * s.size ∧ (s.valueAt buffer 0 height).isNaN = true ∧
      s.valueAt buffer 1 height = .one ∧
      ∃ lows highs : List Binary64,
        s.bounds (s.rows buffer) 2 = .extent lows highs ∧
        lows.length = 2 ∧ highs.length = 2 ∧
        (∃ low high, lows[1]? = some low ∧ highs[1]? = some high ∧
          IsExtent (s.valuesOf buffer 2 height) low high) ∧
        (Bounds.extent lows highs).contains (s.dimensions.map (s.valueAt buffer 1)) = true ∧
        (s.bounds (s.rows (s.gather buffer [1, 0])) 2).Agree (.extent lows highs) := by
  intro s height buffer
  obtain ⟨lows, highs, hbounds, hlows, hhighs, hends, hcontains, hperm⟩ :=
    bounds_exact s (by decide : 0 < 2) (rfl : buffer.length = 2 * s.size)
  have hnumbers : ∀ d ∈ s.dimensions, (s.valueAt buffer 1 d).isNaN = false := by decide
  refine ⟨rfl, by decide, by decide, lows, highs, hbounds, hlows, hhighs, ?_, ?_, ?_⟩
  · exact hends height (by decide)
  · exact hcontains 1 (by decide) hnumbers
  · exact hperm [1, 0] (by decide)

end Schema

end PointCloud
