import Mathlib
import PointCloud.Binary64.Arithmetic

/-!
# Values as numbers

Two values are the same number if they compare as equal, and the same as far as numbers go if both
are NaNs. The number of a value is its place, so both relations become equality of one thing: the
two zeros have one number, and a NaN has none.

Main results:

* `Binary64.equals_iff_number?`, `Binary64.number?_eq_iff` — the two relations;
* `Binary64.number?_foldl` — a fold that passes over NaNs is the fold of the numbers;
* `Binary64.number?_add_of_isZero` — adding one zero or the other gives one number;
* `Binary64.rank_injective` — the total order tells all values apart.
-/

namespace PointCloud

namespace Binary64

variable {x y : Binary64}

/-! ## Numbers -/

/-- The place of a value among the numbers; none for a NaN. -/
def number? (x : Binary64) : Option Int := if x.isNaN then none else some x.place

theorem number?_eq_none_iff : x.number? = none ↔ x.isNaN = true := by
  unfold number?
  split <;> simp_all

theorem number?_of_not_isNaN (h : x.isNaN = false) : x.number? = some x.place := by
  rw [number?, h]
  rfl

theorem isNaN_of_number? {n : Int} (h : x.number? = some n) : x.isNaN = false := by
  by_contra hnan
  rw [Bool.not_eq_false, ← number?_eq_none_iff, h] at hnan
  cases hnan

theorem equals_iff_number? : x.equals y = true ↔ ∃ n, x.number? = some n ∧ y.number? = some n := by
  unfold equals number?
  cases x.isNaN <;> cases y.isNaN <;> simp [eq_comm]

/-- Values have the same number if they compare as equal, or if neither is a number. -/
theorem number?_eq_iff :
    x.number? = y.number? ↔ x.equals y = true ∨ x.isNaN = true ∧ y.isNaN = true := by
  rw [equals_iff_number?, ← number?_eq_none_iff, ← number?_eq_none_iff]
  constructor
  · intro h
    cases hx : x.number? with
    | none => exact .inr ⟨rfl, by rw [← h, hx]⟩
    | some n => exact .inl ⟨n, rfl, by rw [← h, hx]⟩
  · rintro (⟨n, hx, hy⟩ | ⟨hx, hy⟩)
    · rw [hx, hy]
    · rw [hx, hy]

theorem equals_of_number? {n : Int} (hx : x.number? = some n) (h : x.number? = y.number?) :
    x.equals y = true :=
  equals_iff_number?.mpr ⟨n, hx, by rw [← h, hx]⟩

theorem equals_or_isNaN_trans {a b c : Binary64} (hab : a.equals b = true ∨ a.isNaN ∧ b.isNaN)
    (hbc : b.equals c = true ∨ b.isNaN ∧ c.isNaN) : a.equals c = true ∨ a.isNaN ∧ c.isNaN :=
  number?_eq_iff.mp ((number?_eq_iff.mpr hab).trans (number?_eq_iff.mpr hbc))

theorem equals_trans {a b c : Binary64} (hab : a.equals b = true) (hbc : b.equals c = true) :
    a.equals c = true := by
  obtain ⟨n, ha, -⟩ := equals_iff_number?.mp hab
  refine equals_of_number? ha ?_
  exact (number?_eq_iff.mpr (.inl hab)).trans (number?_eq_iff.mpr (.inl hbc))

theorem equals_self (h : x.isFinite = true) : x.equals x = true :=
  equals_of_number? (number?_of_not_isNaN (isNaN_eq_false h)) rfl

theorem number?_zero (negative : Bool) : (zero negative).number? = some 0 := by
  cases negative <;> rfl

/-! ## Folds over numbers -/

theorem number?_minimum {a b : Int} (hx : x.number? = some a) (hy : y.number? = some b) :
    (x.minimum y).number? = some (min a b) := by
  unfold number? at hx hy
  split at hx <;> split at hy <;> simp only [Option.some.injEq, reduceCtorEq] at hx hy
  rename_i hxn hyn
  subst hx hy
  simp only [minimum, le, hyn, hxn]
  by_cases h : x.place ≤ y.place
  · simp [h, number?, hxn]
  · simp [h, number?, hyn, Int.le_of_not_le h]

theorem number?_maximum {a b : Int} (hx : x.number? = some a) (hy : y.number? = some b) :
    (x.maximum y).number? = some (max a b) := by
  unfold number? at hx hy
  split at hx <;> split at hy <;> simp only [Option.some.injEq, reduceCtorEq] at hx hy
  rename_i hxn hyn
  subst hx hy
  simp only [maximum, le, hyn, hxn]
  by_cases h : y.place ≤ x.place
  · simp [h, number?, hxn]
  · simp [h, number?, hyn, Int.le_of_not_le h]

/-- A fold that passes over NaNs, and is a function of numbers otherwise, is the fold of that
function over the numbers. -/
theorem number?_foldl {f : Binary64 → Binary64 → Binary64} {g : Int → Int → Int}
    (hnan : ∀ x y : Binary64, y.number? = none → f x y = x)
    (hnumber : ∀ (x y : Binary64) a b, x.number? = some a → y.number? = some b →
      (f x y).number? = some (g a b))
    (values : List Binary64) {start : Binary64} {n : Int} (hstart : start.number? = some n) :
    (values.foldl f start).number? = some ((values.filterMap number?).foldl g n) := by
  -- The fold so far is a number, and stays the fold of the numbers so far.
  induction values generalizing start n with
  | nil => exact hstart
  | cons value values ih =>
    rw [List.foldl_cons]
    cases hvalue : value.number? with
    | none =>
      rw [hnan start value hvalue, List.filterMap_cons_none hvalue]
      exact ih hstart
    | some m =>
      rw [List.filterMap_cons_some hvalue, List.foldl_cons]
      exact ih (hnumber start value n m hstart hvalue)

theorem minimum_of_number?_eq_none (x y : Binary64) (h : y.number? = none) : x.minimum y = x := by
  simp [minimum, number?_eq_none_iff.mp h]

theorem maximum_of_number?_eq_none (x y : Binary64) (h : y.number? = none) : x.maximum y = x := by
  simp [maximum, number?_eq_none_iff.mp h]

/-! ## Zeros -/

theorem isZero_iff : x.isZero = true ↔ x.magnitude = 0 := by simp [isZero]

/-- Values that compare as equal are the same, unless both are zeros. -/
theorem eq_or_isZero_of_equals (h : x.equals y = true) : x = y ∨ x.isZero ∧ y.isZero := by
  simp only [equals, Bool.and_eq_true] at h
  have hplace : x.place = y.place := of_decide_eq_true h.2
  rw [isZero_iff, isZero_iff]
  -- Of two values in one place, the signs agree, or the place is that of the zeros.
  obtain ⟨nx, mx, hx⟩ := x
  obtain ⟨ny, my, hy⟩ := y
  simp only [Binary64.mk.injEq]
  simp only [place] at hplace
  cases nx <;> cases ny <;> simp only [Bool.false_eq_true, if_true, if_false] at hplace <;>
    simp <;> omega

theorem signedUnits_of_isZero (h : x.isZero) : x.signedUnits = 0 := by
  simp [signedUnits, units_eq, coefficient_eq_zero h]

theorem isFinite_of_isZero (h : x.isZero) : x.isFinite = true := by
  rw [isZero_iff] at h
  rw [isFinite, h]
  decide

/-- Adding one zero or the other gives one number. -/
theorem number?_add_of_isZero (hx : x.isZero) (hy : y.isZero) (value : Binary64) :
    (value + x).number? = (value + y).number? := by
  have hfx := isFinite_of_isZero hx
  have hfy := isFinite_of_isZero hy
  show (value.add x).number? = (value.add y).number?
  -- A finite value is moved by no units; any other does not look at what is added.
  by_cases hvalue : value.isFinite = true
  · rw [add_eq_ofUnits hvalue hfx, add_eq_ofUnits hvalue hfy, signedUnits_of_isZero hx,
      signedUnits_of_isZero hy]
    dsimp only
    split
    · rw [number?_zero, number?_zero]
    · rfl
  · simp only [add, hvalue, isNaN_eq_false hfx, isNaN_eq_false hfy, hfx, hfy]
    simp

/-- Offsets that compare as equal move a value to one number. -/
theorem number?_add_congr (h : x.equals y = true) (value : Binary64) :
    (value + x).number? = (value + y).number? := by
  rcases eq_or_isZero_of_equals h with rfl | ⟨hx, hy⟩
  · rfl
  · exact number?_add_of_isZero hx hy value

/-! ## The total order -/

theorem rank_injective (h : x.rank = y.rank) : x = y := by
  obtain ⟨nx, mx, hx⟩ := x
  obtain ⟨ny, my, hy⟩ := y
  simp only [rank] at h
  simp only [Binary64.mk.injEq]
  cases nx <;> cases ny <;> simp only [Bool.false_eq_true, if_true, if_false] at h <;>
    simp <;> omega

end Binary64

end PointCloud
