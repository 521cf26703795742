/-!
# Lists with repeats

Neighbouring points often agree, so a function of the elements of a list is evaluated once for every
stretch of equal neighbours. That changes the work and nothing else.

Main results:

* `mapRepeats_eq_map` — mapping stretch by stretch is mapping;
* `filterRepeats_eq_filter` — filtering stretch by stretch is filtering.
-/

namespace PointCloud

variable {α β : Type} [DecidableEq α]

/-- Maps the elements after `x`, of which the image is known. -/
def mapRepeatsAfter (f : α → β) (x : α) (image : β) : List α → List β
  | [] => []
  | y :: ys =>
    if y = x then image :: mapRepeatsAfter f x image ys
    else
      let image := f y
      image :: mapRepeatsAfter f y image ys

/-- Maps a list, evaluating the function once for every stretch of equal neighbours. -/
def mapRepeats (f : α → β) : List α → List β
  | [] => []
  | x :: xs =>
    let image := f x
    image :: mapRepeatsAfter f x image xs

/-- Filters a list, testing once for every stretch of equal neighbours. -/
def filterRepeats (p : α → Bool) (xs : List α) : List α :=
  (xs.zip (mapRepeats p xs)).filterMap fun (x, keep) => if keep then some x else none

/-! ## Laws -/

theorem mapRepeatsAfter_eq_map (f : α → β) (x : α) (xs : List α) :
    mapRepeatsAfter f x (f x) xs = xs.map f := by
  induction xs generalizing x with
  | nil => rfl
  | cons y ys ih =>
    simp only [mapRepeatsAfter, List.map_cons, ih]
    split
    · rename_i h; rw [h]
    · rfl

@[simp] theorem mapRepeats_eq_map (f : α → β) (xs : List α) : mapRepeats f xs = xs.map f := by
  cases xs with
  | nil => rfl
  | cons x xs => simp only [mapRepeats, mapRepeatsAfter_eq_map, List.map_cons]

@[simp] theorem filterRepeats_eq_filter (p : α → Bool) (xs : List α) :
    filterRepeats p xs = xs.filter p := by
  rw [filterRepeats, mapRepeats_eq_map]
  induction xs with
  | nil => rfl
  | cons x xs ih => cases h : p x <;> simp [h, ih]

end PointCloud
