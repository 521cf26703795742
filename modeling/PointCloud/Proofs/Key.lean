import Mathlib
import PointCloud.Key

/-!
# Stable sorting by key

What a sort by key does is fixed without saying how: the result is in ascending order, has the same
elements, and keeps those of one key in the order they had. There is only one such list, so sorting
again changes nothing.

Main results:

* `Key.isStableSort_sortBy` — sorting by key is a stable sort;
* `Key.IsStableSort.unique` — a list has one stable sort;
* `Key.sortBy_filter`, `Key.sortBy_append_sortBy` — so leaving elements out and sorting parts first
  go together with sorting the whole;
* `Key.sortBy_eq_self_iff` — a list is its own sort exactly if its neighbours are in order;
* `Key.ascending_lt_iff` — neighbours are strictly in order if moreover no key occurs twice.
-/

namespace PointCloud

namespace Key

/-! ## The order of keys -/

theorem le_refl (a : List Nat) : le a a := by
  have h := le_total a a
  simpa using h

theorem le_antisymm {a b : List Nat} (hab : le a b) (hba : le b a) : a = b := by
  induction a generalizing b with
  | nil =>
    cases b with
    | nil => rfl
    | cons y b => simp [le] at hba
  | cons x a ih =>
    cases b with
    | nil => simp [le] at hab
    | cons y b =>
      simp only [le, Bool.or_eq_true, Bool.and_eq_true, decide_eq_true_eq, beq_iff_eq] at hab hba
      -- Neither first word is less than the other, so the rests decide.
      have hxy : x = y := by omega
      subst hxy
      have hab' : le a b := by simpa using hab
      have hba' : le b a := by simpa using hba
      rw [ih hab' hba']

/-! ## Stable sorts -/

variable {α : Type} {key : α → List Nat} {xs ys zs : List α}

/-- A list in ascending order of keys, with the elements of another that keep their order among
those of one key. -/
structure IsStableSort (key : α → List Nat) (xs ys : List α) : Prop where
  sorted : ys.Pairwise fun a b => le (key a) (key b)
  perm   : ys.Perm xs
  stable : ∀ k, ys.filter (fun x => key x = k) = xs.filter (fun x => key x = k)

theorem perm_sortBy (key : α → List Nat) (xs : List α) : (sortBy key xs).Perm xs := by
  rw [sortBy_eq_mergeSort]
  exact List.mergeSort_perm xs _

/-- Elements of one key keep their order. -/
theorem filter_sortBy (key : α → List Nat) (xs : List α) (k : List Nat) :
    (sortBy key xs).filter (fun x => key x = k) = xs.filter (fun x => key x = k) := by
  have htrans : ∀ a b c : α, le (key a) (key b) → le (key b) (key c) → le (key a) (key c) :=
    fun a b c hab hbc => le_trans hab hbc
  -- Elements of one key are in order, whatever order they have.
  have hpairwise : (xs.filter fun x => key x = k).Pairwise fun a b => le (key a) (key b) := by
    refine List.pairwise_of_forall_mem_list fun a ha b hb => ?_
    have hka : key a = k := by simpa using (List.mem_filter.mp ha).2
    have hkb : key b = k := by simpa using (List.mem_filter.mp hb).2
    rw [hka, hkb]
    exact le_refl k
  -- Merge sort keeps a sorted sublist, and the counts leave no room for anything else.
  have hsub := List.sublist_mergeSort htrans (fun a b => le_total (key a) (key b)) hpairwise
    List.filter_sublist
  rw [← sortBy_eq_mergeSort] at hsub
  have hkept := hsub.filter fun x => key x = k
  simp only [List.filter_filter, Bool.and_self] at hkept
  have hlength := ((perm_sortBy key xs).filter fun x => key x = k).length_eq
  exact (hkept.eq_of_length hlength.symm).symm

theorem isStableSort_sortBy (key : α → List Nat) (xs : List α) :
    IsStableSort key xs (sortBy key xs) where
  sorted := pairwise_sortBy key xs
  perm   := perm_sortBy key xs
  stable := filter_sortBy key xs

theorem mem_iff_of_filter
    (h : ∀ k, ys.filter (fun x => key x = k) = zs.filter (fun x => key x = k)) (x : α) :
    x ∈ ys ↔ x ∈ zs := by
  have hx : x ∈ ys.filter (fun y => key y = key x) ↔ x ∈ zs.filter fun y => key y = key x := by
    rw [h (key x)]
  simpa using hx

/-- The elements of every key, and the order of keys, leave one list. -/
theorem eq_of_sorted_of_filter (hys : ys.Pairwise fun a b => le (key a) (key b))
    (hzs : zs.Pairwise fun a b => le (key a) (key b))
    (h : ∀ k, ys.filter (fun x => key x = k) = zs.filter (fun x => key x = k)) : ys = zs := by
  have hmem := mem_iff_of_filter h
  induction ys generalizing zs with
  | nil =>
    cases zs with
    | nil => rfl
    | cons z zs => exact absurd ((hmem z).mpr List.mem_cons_self) List.not_mem_nil
  | cons y ys ih =>
    cases zs with
    | nil => exact absurd ((hmem y).mp List.mem_cons_self) List.not_mem_nil
    | cons z zs =>
      obtain ⟨hy, hys'⟩ := List.pairwise_cons.mp hys
      obtain ⟨hz, hzs'⟩ := List.pairwise_cons.mp hzs
      -- Each of the two first elements comes before the other.
      have hyz : le (key y) (key z) := by
        rcases List.mem_cons.mp ((hmem z).mpr List.mem_cons_self) with rfl | hin
        · exact le_refl _
        · exact hy z hin
      have hzy : le (key z) (key y) := by
        rcases List.mem_cons.mp ((hmem y).mp List.mem_cons_self) with rfl | hin
        · exact le_refl _
        · exact hz y hin
      have hkey := le_antisymm hyz hzy
      have hfirst := h (key y)
      rw [List.filter_cons_of_pos (by simp), List.filter_cons_of_pos (by simp [hkey])] at hfirst
      obtain ⟨rfl, htail⟩ := List.cons.inj hfirst
      -- Taking the common first element off leaves the elements of every key alike.
      have hrest : ∀ k, ys.filter (fun x => key x = k) = zs.filter (fun x => key x = k) := by
        intro k
        by_cases hk : key y = k
        · rw [← hk]
          exact htail
        · have hk' := h k
          rwa [List.filter_cons_of_neg (by simp [hk]), List.filter_cons_of_neg (by simp [hk])]
            at hk'
      rw [ih hys' hzs' hrest (mem_iff_of_filter hrest)]

theorem IsStableSort.unique (hys : IsStableSort key xs ys) (hzs : IsStableSort key xs zs) :
    ys = zs :=
  eq_of_sorted_of_filter hys.sorted hzs.sorted fun k => (hys.stable k).trans (hzs.stable k).symm

/-- A list in ascending order is its own stable sort. -/
theorem sortBy_of_sorted (h : xs.Pairwise fun a b => le (key a) (key b)) : sortBy key xs = xs :=
  (isStableSort_sortBy key xs).unique ⟨h, List.Perm.refl xs, fun _ => rfl⟩

/-- Images can be sorted by their keys, or what they are the images of. -/
theorem sortBy_map {β : Type} (f : β → α) (key : α → List Nat) (xs : List β) :
    sortBy key (xs.map f) = (sortBy (fun x => key (f x)) xs).map f := by
  rw [sortBy_eq_mergeSort, sortBy_eq_mergeSort]
  exact (List.map_mergeSort (r := fun a b => le (key (f a)) (key (f b)))
    (s := fun a b => le (key a) (key b)) (f := f) (l := xs) fun _ _ _ _ => rfl).symm

/-- Elements can be left out before sorting or after it. -/
theorem sortBy_filter (key : α → List Nat) (p : α → Bool) (xs : List α) :
    sortBy key (xs.filter p) = (sortBy key xs).filter p := by
  refine (isStableSort_sortBy key _).unique ⟨?_, (perm_sortBy key xs).filter p, ?_⟩
  · exact (pairwise_sortBy key xs).filter p
  · intro k
    rw [List.filter_comm, filter_sortBy, List.filter_comm]

/-- Sorting parts first does not change how the whole is sorted. -/
theorem sortBy_append_sortBy (key : α → List Nat) (xs ys : List α) :
    sortBy key (sortBy key xs ++ sortBy key ys) = sortBy key (xs ++ ys) := by
  have hparts : IsStableSort key (xs ++ ys) (sortBy key (sortBy key xs ++ sortBy key ys)) := by
    refine ⟨pairwise_sortBy key _, ?_, ?_⟩
    · exact (perm_sortBy key _).trans ((perm_sortBy key xs).append (perm_sortBy key ys))
    · intro k
      rw [filter_sortBy, List.filter_append, filter_sortBy, filter_sortBy, ← List.filter_append]
  exact hparts.unique (isStableSort_sortBy key _)

/-! ## Ascending lists -/

theorem lt_iff {a b : List Nat} : lt a b = true ↔ le a b = true ∧ a ≠ b := by
  rw [lt, Bool.not_eq_true', Bool.eq_false_iff]
  constructor
  · intro hnot
    have htotal := le_total a b
    rw [Bool.or_eq_true] at htotal
    refine ⟨htotal.resolve_right hnot, ?_⟩
    rintro rfl
    exact hnot (le_refl a)
  · rintro ⟨hab, hne⟩ hba
    exact hne (le_antisymm hab hba)

theorem lt_trans {a b c : List Nat} (hab : lt a b = true) (hbc : lt b c = true) :
    lt a c = true := by
  rw [lt_iff] at hab hbc ⊢
  refine ⟨le_trans hab.1 hbc.1, ?_⟩
  rintro rfl
  exact hab.2 (le_antisymm hab.1 hbc.1)

/-- Under a transitive relation it is enough to compare neighbours. -/
theorem ascending_iff_pairwise (rel : List Nat → List Nat → Bool)
    (htrans : ∀ a b c, rel a b = true → rel b c = true → rel a c = true)
    (keys : List (List Nat)) :
    ascending rel keys = true ↔ keys.Pairwise fun a b => rel a b = true := by
  induction keys with
  | nil => simp [ascending]
  | cons a keys ih =>
    cases keys with
    | nil => simp [ascending]
    | cons b keys =>
      rw [ascending, Bool.and_eq_true, ih, List.pairwise_cons (a := a)]
      constructor
      · rintro ⟨hab, hkeys⟩
        refine ⟨?_, hkeys⟩
        -- What comes after the neighbour is reached through it.
        intro c hc
        rcases List.mem_cons.mp hc with rfl | hc
        · exact hab
        · exact htrans a b c hab ((List.pairwise_cons.mp hkeys).1 c hc)
      · rintro ⟨hall, hkeys⟩
        exact ⟨hall b List.mem_cons_self, hkeys⟩

theorem ascending_le_iff (keys : List (List Nat)) :
    ascending le keys = true ↔ keys.Pairwise fun a b => le a b = true :=
  ascending_iff_pairwise le (fun _ _ _ => le_trans) keys

/-- Neighbours are strictly in order exactly if they are in order and no key occurs twice. -/
theorem ascending_lt_iff (keys : List (List Nat)) :
    ascending lt keys = true ↔ ascending le keys = true ∧ keys.Nodup := by
  rw [ascending_iff_pairwise lt (fun _ _ _ => lt_trans), ascending_le_iff, List.Nodup,
    ← List.pairwise_and_iff]
  exact List.Pairwise.iff fun _ _ => lt_iff

/-- A list is its own stable sort exactly if its neighbours are in order. -/
theorem sortBy_eq_self_iff : sortBy key xs = xs ↔ ascending le (xs.map key) = true := by
  rw [ascending_le_iff, List.pairwise_map]
  constructor
  · intro h
    rw [← h]
    exact pairwise_sortBy key xs
  · exact sortBy_of_sorted

theorem sortBy_sortBy (key : α → List Nat) (xs : List α) :
    sortBy key (sortBy key xs) = sortBy key xs :=
  sortBy_of_sorted (pairwise_sortBy key xs)

end Key

end PointCloud
