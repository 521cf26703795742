/-!
# Keys

A key is a list of words, compared word by word: the first difference decides, and a key comes
before every longer key that begins with it. Lists are sorted by key stably.

Main results:

* `Key.le_trans`, `Key.le_total` — the comparison is a total order on keys;
* `Key.sortBy_eq_mergeSort` — sorting by key is merge sort under the comparison of keys;
* `Key.pairwise_sortBy` — a sorted list is in ascending order of its keys.
-/

namespace PointCloud

namespace Key

/-- Whether a key comes before another or is the same. -/
def le : List Nat → List Nat → Bool
  | [], _ => true
  | _ :: _, [] => false
  | a :: as, b :: bs => decide (a < b) || (a == b && le as bs)

/-- Whether a key comes before another. -/
def lt (a b : List Nat) : Bool := !le b a

/-- Sorts by key; elements of one key keep their order. The key of an element is found once. -/
def sortBy {α : Type} (key : α → List Nat) (xs : List α) : List α :=
  ((xs.map fun x => (key x, x)).mergeSort fun a b => le a.1 b.1).map (·.2)

/-- Whether neighbours are in the given relation. -/
def ascending (rel : List Nat → List Nat → Bool) : List (List Nat) → Bool
  | a :: b :: rest => rel a b && ascending rel (b :: rest)
  | _ => true

/-! ## Laws -/

theorem le_trans {a b c : List Nat} (hab : le a b) (hbc : le b c) : le a c := by
  induction a generalizing b c with
  | nil => rfl
  | cons x a ih =>
    cases b with
    | nil => simp [le] at hab
    | cons y b =>
      cases c with
      | nil => simp [le] at hbc
      | cons z c =>
        simp only [le, Bool.or_eq_true, Bool.and_eq_true, decide_eq_true_eq, beq_iff_eq] at *
        rcases hab with hxy | ⟨rfl, hab⟩
        · rcases hbc with hyz | ⟨rfl, -⟩
          · exact .inl (Nat.lt_trans hxy hyz)
          · exact .inl hxy
        · rcases hbc with hyz | ⟨rfl, hbc⟩
          · exact .inl hyz
          · exact .inr ⟨rfl, ih hab hbc⟩

theorem le_total (a b : List Nat) : le a b || le b a := by
  induction a generalizing b with
  | nil => rfl
  | cons x a ih =>
    cases b with
    | nil => simp [le]
    | cons y b =>
      have := ih b
      simp only [le, Bool.or_eq_true, Bool.and_eq_true, decide_eq_true_eq, beq_iff_eq] at *
      rcases Nat.lt_trichotomy x y with hlt | rfl | hlt
      · exact .inl (.inl hlt)
      · exact this.imp (fun h => .inr ⟨rfl, h⟩) fun h => .inr ⟨rfl, h⟩
      · exact .inr (.inl hlt)

theorem sortBy_eq_mergeSort {α : Type} (key : α → List Nat) (xs : List α) :
    sortBy key xs = xs.mergeSort fun a b => le (key a) (key b) := by
  have h := List.map_mergeSort (r := fun a b => le (key a) (key b))
    (s := fun a b => le a.1 b.1) (f := fun x => (key x, x)) (l := xs) fun _ _ _ _ => rfl
  rw [sortBy, ← h, List.map_map]
  simp [Function.comp_def]

theorem pairwise_sortBy {α : Type} (key : α → List Nat) (xs : List α) :
    (sortBy key xs).Pairwise fun a b => le (key a) (key b) := by
  rw [sortBy_eq_mergeSort]
  have htrans (a b c : α) (hab : le (key a) (key b)) (hbc : le (key b) (key c)) :
      le (key a) (key c) := le_trans hab hbc
  exact List.pairwise_mergeSort htrans (fun a b => le_total (key a) (key b)) xs

end Key

end PointCloud
