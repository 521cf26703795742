import Mathlib
import PointCloud.Patch.Statistics
import PointCloud.Proofs.Schema.Alike

/-!
# Summaries of points

Bounds and statistics are numbers that belong to a set of points: they do not depend on the order of
the points, nor on which of two schemas that read alike the points are read under. Ends and averages
may still differ as bit patterns, by the sign of a zero or by which NaN they are.

Main results:

* `sumAscending_perm` — the sum of floating values does not depend on their order, bit for bit;
* `Schema.bounds_agree`, `Schema.statistics_agree` — bounds and statistics of the same points in
  another order, under a schema that reads alike, agree.
-/

namespace PointCloud

open Binary64 (number?)

/-! ## Lists side by side -/

section Lists

variable {α β γ δ ε ζ : Type}

theorem forall₂_zipWith {R : α → β → Prop} {S : γ → δ → Prop} {T : ε → ζ → Prop} {f : α → γ → ε}
    {g : β → δ → ζ} (h : ∀ a b c d, R a b → S c d → T (f a c) (g b d)) {as : List α} {bs : List β}
    {cs : List γ} {ds : List δ} (hab : List.Forall₂ R as bs) (hcd : List.Forall₂ S cs ds) :
    List.Forall₂ T (List.zipWith f as cs) (List.zipWith g bs ds) := by
  induction hab generalizing cs ds with
  | nil => exact .nil
  | cons hab _ ih =>
    cases hcd with
    | nil => exact .nil
    | cons hcd hrest => exact .cons (h _ _ _ _ hab hcd) (ih hrest)

theorem forall₂_trans {R : α → β → Prop} {S : β → γ → Prop} {T : α → γ → Prop} {as : List α}
    {bs : List β} {cs : List γ} (hab : List.Forall₂ R as bs) (hbc : List.Forall₂ S bs cs)
    (h : ∀ {a b c}, R a b → S b c → T a c) : List.Forall₂ T as cs := by
  induction hab generalizing cs with
  | nil =>
    cases hbc
    exact .nil
  | cons hab _ ih =>
    cases hbc with
    | cons hbc hrest => exact .cons (h hab hbc) (ih hrest)

theorem exists_mem_of_forall₂ {R : α → β → Prop} {as : List α} {bs : List β}
    (h : List.Forall₂ R as bs) {b : β} (hb : b ∈ bs) : ∃ a ∈ as, R a b := by
  induction h with
  | nil => cases hb
  | cons hab _ ih =>
    rcases List.mem_cons.mp hb with rfl | hb
    · exact ⟨_, List.mem_cons_self, hab⟩
    · obtain ⟨a, ha, hab⟩ := ih hb
      exact ⟨a, List.mem_cons_of_mem _ ha, hab⟩

end Lists

/-! ## Ends -/

theorem number?_least (values : List Binary64) :
    (least values).number? = some ((values.filterMap number?).foldl min
      (Binary64.infinity false).place) :=
  Binary64.number?_foldl Binary64.minimum_of_number?_eq_none
    (fun _ _ _ _ hx hy => Binary64.number?_minimum hx hy) values rfl

theorem number?_greatest (values : List Binary64) :
    (greatest values).number? = some ((values.filterMap number?).foldl max
      (Binary64.infinity true).place) :=
  Binary64.number?_foldl Binary64.maximum_of_number?_eq_none
    (fun _ _ _ _ hx hy => Binary64.number?_maximum hx hy) values rfl

section Ends

variable {values others : List Binary64}

/-- The least of the same numbers in another order is the same number. -/
theorem least_equals (h : (values.filterMap number?).Perm (others.filterMap number?)) :
    (least values).equals (least others) = true := by
  refine Binary64.equals_of_number? (number?_least values) ?_
  rw [number?_least, number?_least]
  -- The least of numbers does not depend on the order they come in.
  congr 1
  exact h.foldl_eq' (fun a _ b _ c => min_right_comm c a b) _

theorem greatest_equals (h : (values.filterMap number?).Perm (others.filterMap number?)) :
    (greatest values).equals (greatest others) = true := by
  refine Binary64.equals_of_number? (number?_greatest values) ?_
  rw [number?_greatest, number?_greatest]
  congr 1
  exact h.foldl_eq' (fun a _ b _ c => max_right_comm c a b) _

/-! ## Averages -/

/-- Sorting by rank leaves one order. -/
theorem mergeSort_rank_perm (h : values.Perm others) :
    values.mergeSort (fun a b => a.rank ≤ b.rank) =
      others.mergeSort fun a b => a.rank ≤ b.rank := by
  have htrans : ∀ a b c : Binary64, decide (a.rank ≤ b.rank) → decide (b.rank ≤ c.rank) →
      decide (a.rank ≤ c.rank) := by
    simp only [decide_eq_true_eq]
    exact fun a b c hab hbc => Int.le_trans hab hbc
  have htotal : ∀ a b : Binary64, decide (a.rank ≤ b.rank) || decide (b.rank ≤ a.rank) := by
    intro a b
    simpa using Int.le_total a.rank b.rank
  -- No two values have one rank, so both sorts end in the same list.
  refine List.Perm.eq_of_pairwise ?_ (List.pairwise_mergeSort htrans htotal values)
    (List.pairwise_mergeSort htrans htotal others) ?_
  · intro a b _ _ hab hba
    simp only [decide_eq_true_eq] at hab hba
    exact Binary64.rank_injective (Int.le_antisymm hab hba)
  · exact (List.mergeSort_perm values _).trans (h.trans (List.mergeSort_perm others _).symm)

/-- So the sum does not depend on the order of the values. -/
theorem sumAscending_perm (h : values.Perm others) : sumAscending values = sumAscending others := by
  unfold sumAscending
  rw [mergeSort_rank_perm h]

end Ends

theorem Dimension.number?_average_congr {d e : Dimension} (h : d.SameNumbers e)
    (hscale : ¬ d.scale.isZero) (points : Nat) {words others : List Nat}
    (hwords : words.Perm others) :
    (d.average points words).number? = (e.average points others).number? := by
  unfold average
  rw [← h.interpretation, ← h.scale_eq hscale]
  dsimp only
  -- Integers are summed exactly; floating values by rank.
  split
  · rw [sumAscending_perm (hwords.map _)]
  · rw [(hwords.map d.interpretation.integer).sum_eq]
    exact Binary64.number?_add_congr h.offset _

/-! ## Columns -/

theorem Row.columns_perm (width : Nat) {rows others : List Row} (h : rows.Perm others) :
    List.Forall₂ List.Perm (columns width rows) (columns width others) := by
  induction width generalizing rows others with
  | zero => exact .nil
  | succ width ih => exact .cons (h.map _) (ih (h.map List.tail))

/-! ## Agreement -/

/-- Both boxes are empty, or their ends compare as equal, entry by entry. -/
def Bounds.Agree : Bounds → Bounds → Prop
  | .empty, .empty => True
  | .extent lows highs, .extent lows' highs' =>
    List.Forall₂ (fun a b => a.equals b = true) lows lows' ∧
      List.Forall₂ (fun a b => a.equals b = true) highs highs'
  | _, _ => False

/-- Every entry compares as equal to its counterpart, or both are NaNs. -/
structure Statistics.Agree (a b : Statistics) : Prop where
  lows     : List.Forall₂ (fun x y => x.equals y = true ∨ x.isNaN ∧ y.isNaN) a.lows b.lows
  highs    : List.Forall₂ (fun x y => x.equals y = true ∨ x.isNaN ∧ y.isNaN) a.highs b.highs
  averages : List.Forall₂ (fun x y => x.equals y = true ∨ x.isNaN ∧ y.isNaN)
    a.averages b.averages

theorem Bounds.Agree.trans {a b c : Bounds} (hab : a.Agree b) (hbc : b.Agree c) : a.Agree c := by
  cases a <;> cases b <;> cases c <;> simp only [Agree] at hab hbc ⊢
  refine ⟨?_, ?_⟩
  · exact forall₂_trans hab.1 hbc.1 Binary64.equals_trans
  · exact forall₂_trans hab.2 hbc.2 Binary64.equals_trans

theorem Statistics.Agree.trans {a b c : Statistics} (hab : a.Agree b) (hbc : b.Agree c) :
    a.Agree c where
  lows     := forall₂_trans hab.lows hbc.lows Binary64.equals_or_isNaN_trans
  highs    := forall₂_trans hab.highs hbc.highs Binary64.equals_or_isNaN_trans
  averages := forall₂_trans hab.averages hbc.averages Binary64.equals_or_isNaN_trans

theorem Statistics.rel_agree_trans {a b c : Option Statistics} (hab : Option.Rel Agree a b)
    (hbc : Option.Rel Agree b c) : Option.Rel Agree a c := by
  cases hab with
  | none => exact hbc
  | some hab =>
    cases hbc with
    | some hbc => exact .some (hab.trans hbc)

namespace Schema

variable {s t : Schema} {rows others : List Row}

/-- The numbers in every column are the same, in another order. -/
theorem columnValues_perm (hst : s.Alike t) (hrows : rows.Perm others) :
    List.Forall₂ (fun values values' =>
        (values.filterMap number?).Perm (values'.filterMap number?))
      (s.columnValues rows) (t.columnValues others) := by
  have hcolumns := Row.columns_perm s.width hrows
  unfold columnValues columns
  rw [← hst.width_eq]
  refine forall₂_zipWith ?_ hst.scaled hcolumns
  rintro d e words words' ⟨hde, hscale⟩ hwords
  have hvalue : (number? ∘ d.value) = number? ∘ e.value :=
    funext fun w => Dimension.number?_value_congr hde.sameNumbers hscale w
  rw [mapRepeats_eq_map, mapRepeats_eq_map, List.filterMap_map, List.filterMap_map, hvalue]
  exact hwords.filterMap _

/-- Bounds do not depend on the order of points, nor on the schema as long as it reads alike. -/
theorem bounds_agree (hst : s.Alike t) (hrows : rows.Perm others) :
    (s.bounds rows rows.length).Agree (t.bounds others others.length) := by
  have hlength := hrows.length_eq
  have hcolumns := columnValues_perm hst hrows
  unfold bounds
  rw [← hlength, List.take_length, List.take_of_length_le (Nat.le_of_eq hlength.symm)]
  -- Without points both are empty; with points there is an end for every column.
  split
  · trivial
  · refine ⟨?_, ?_⟩
    · rw [List.forall₂_map_left_iff, List.forall₂_map_right_iff]
      exact hcolumns.imp fun _ _ h => least_equals h
    · rw [List.forall₂_map_left_iff, List.forall₂_map_right_iff]
      exact hcolumns.imp fun _ _ h => greatest_equals h

/-- Neither do statistics. -/
theorem statistics_agree (hst : s.Alike t) (hrows : rows.Perm others) :
    Option.Rel Statistics.Agree (s.statistics? rows rows.length)
      (t.statistics? others others.length) := by
  have hbounds := bounds_agree hst hrows
  have hlength := hrows.length_eq
  unfold statistics? statisticsIn?
  generalize s.bounds rows rows.length = a at hbounds
  generalize t.bounds others others.length = b at hbounds
  cases a with
  | empty =>
    cases b with
    | empty => exact .none
    | extent => exact hbounds.elim
  | extent lows highs =>
    cases b with
    | empty => exact hbounds.elim
    | extent lows' highs' =>
      -- The ends of the bounds are those of the statistics, and averages go column by column.
      refine .some ⟨hbounds.1.imp fun _ _ h => .inl h, hbounds.2.imp fun _ _ h => .inl h, ?_⟩
      rw [← hlength, List.take_length, List.take_of_length_le (Nat.le_of_eq hlength.symm)]
      have hcolumns := Row.columns_perm s.width hrows
      show List.Forall₂ _ (List.zipWith _ s.dimensions (Row.columns s.width rows))
        (List.zipWith _ t.dimensions (Row.columns t.width others))
      rw [← hst.width_eq]
      refine forall₂_zipWith ?_ hst.scaled hcolumns
      rintro d e words words' ⟨hde, hscale⟩ hwords
      have hsame := hde.sameNumbers
      exact Binary64.number?_eq_iff.mp (Dimension.number?_average_congr hsame hscale _ hwords)

end Schema

end PointCloud
