/-!
# Cutting lists into pieces

A buffer of points, a column of words and a string of packed bits are all cut the same way: into a
given count of consecutive pieces of one size.

Main results:

* `flatten_cut` — the pieces of a list of the right length join to the list;
* `cut_flatten` — cutting joined pieces gives the pieces back.
-/

namespace PointCloud

variable {α : Type _}

/-- The first `count` consecutive pieces of `size` elements. -/
def cut (size : Nat) : Nat → List α → List (List α)
  | 0, _ => []
  | count + 1, xs => xs.take size :: cut size count (xs.drop size)

@[simp] theorem length_cut (size count : Nat) (xs : List α) :
    (cut size count xs).length = count := by
  induction count generalizing xs with
  | zero => rfl
  | succ count ih => simp [cut, ih]

theorem flatten_cut (size count : Nat) (xs : List α) (h : xs.length = count * size) :
    (cut size count xs).flatten = xs := by
  induction count generalizing xs with
  | zero =>
    have : xs = [] := List.eq_nil_of_length_eq_zero (by simpa using h)
    simp [cut, this]
  | succ count ih =>
    have hdrop : (xs.drop size).length = count * size := by
      rw [List.length_drop, h, Nat.succ_mul]; omega
    simp [cut, ih _ hdrop]

theorem cut_flatten_append (size : Nat) (pieces : List (List α)) (rest : List α)
    (h : ∀ p ∈ pieces, p.length = size) :
    cut size pieces.length (pieces.flatten ++ rest) = pieces := by
  induction pieces with
  | nil => rfl
  | cons p pieces ih =>
    have hp : p.length = size := h p (by simp)
    simp only [List.length_cons, List.flatten_cons, List.append_assoc, cut]
    rw [List.take_left' hp, List.drop_left' hp, ih fun q hq => h q (by simp [hq])]

theorem cut_flatten (size : Nat) (pieces : List (List α)) (h : ∀ p ∈ pieces, p.length = size) :
    cut size pieces.length pieces.flatten = pieces := by
  simpa using cut_flatten_append size pieces [] h

theorem length_of_mem_cut {size count : Nat} {xs p : List α} (h : count * size ≤ xs.length)
    (hp : p ∈ cut size count xs) : p.length = size := by
  induction count generalizing xs with
  | zero => simp [cut] at hp
  | succ count ih =>
    rw [Nat.succ_mul] at h
    rcases List.mem_cons.mp hp with rfl | hp
    · simp; omega
    · exact ih (by rw [List.length_drop]; omega) hp

theorem length_le_of_mem_cut {size count : Nat} {xs p : List α} (hp : p ∈ cut size count xs) :
    p.length ≤ size := by
  induction count generalizing xs with
  | zero => simp [cut] at hp
  | succ count ih =>
    rcases List.mem_cons.mp hp with rfl | hp
    · exact List.length_take_le size xs
    · exact ih hp

end PointCloud
