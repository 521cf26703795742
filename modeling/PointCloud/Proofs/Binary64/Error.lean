import Mathlib
import PointCloud.Proofs.Binary64.Order

/-!
# Rounding errors

A finite value stands for a rational number. The result of an operation on finite values, if it is
finite, stands for the exact result up to a relative error of `2 ^ -53`. Only quotients, and
products of two fractions, may lose half a unit on top of that; sums, and products with a whole
number, are whole numbers of units before they are rounded.

Main results:

* `Binary64.abs_toRat_add_sub_le`, `Binary64.abs_toRat_mul_sub_le`,
  `Binary64.abs_toRat_div_sub_le` — the errors of the operations;
* `Binary64.toRat_ofInt` — integers up to `2 ^ 53` are not changed.
-/

namespace PointCloud

open BinaryFormat (binary64)

namespace Binary64

variable {x y z : Binary64}

-- Proofs about numbers do not look at how many units make one.
attribute [local irreducible] unitsPerOne

/-! ## Rational numbers -/

/-- The number that a finite value stands for. -/
def toRat (x : Binary64) : ℚ := x.signedUnits / unitsPerOne

theorem unitsPerOne_cast_pos : (0 : ℚ) < unitsPerOne := by exact_mod_cast unitsPerOne_pos

theorem toRat_mul_unitsPerOne (x : Binary64) : x.toRat * unitsPerOne = x.signedUnits :=
  div_mul_cancel₀ _ (ne_of_gt unitsPerOne_cast_pos)

theorem toRat_ne_zero (hx : x.isFinite) (h : x.isZero = false) : x.toRat ≠ 0 := by
  have hunits := units_pos_of_not_isZero hx h
  have hne : x.signedUnits ≠ 0 := by
    unfold signedUnits
    split <;> omega
  exact div_ne_zero (by exact_mod_cast hne) (ne_of_gt unitsPerOne_cast_pos)

theorem toRat_of_isZero (h : x.isZero) : x.toRat = 0 := by
  rw [toRat, signedUnits_of_isZero h, Int.cast_zero, zero_div]

theorem toRat_eq_of_equals (h : x.equals y = true) : x.toRat = y.toRat := by
  rcases eq_or_isZero_of_equals h with rfl | ⟨hx, hy⟩
  · rfl
  · rw [toRat_of_isZero hx, toRat_of_isZero hy]

/-! ## Finite results -/

theorem isFinite_of_add (h : (x + z).isFinite) (hz : z.isFinite) : x.isFinite := by
  by_contra hx
  have hinfinite : x.isFinite = false := by simpa using hx
  cases hnan : x.isNaN with
  | true =>
    have hresult : x + z = nan := by
      show x.add z = nan
      simp [add, hnan]
    rw [hresult] at h
    cases h
  | false =>
    rw [add_of_not_isFinite hnan hinfinite hz] at h
    exact hx h

theorem isFinite_of_sub (h : (x - z).isFinite) (hz : z.isFinite) : x.isFinite := by
  have hneg : z.neg.isFinite := by rwa [isFinite_neg]
  exact isFinite_of_add (z := z.neg) h hneg

theorem isFinite_of_div (h : (x / z).isFinite) (hz : z.isFinite) : x.isFinite := by
  by_contra hx
  have hinfinite : x.isFinite = false := by simpa using hx
  have hznan := isNaN_eq_false hz
  cases hnan : x.isNaN with
  | true =>
    have hresult : x / z = nan := by
      show x.div z = nan
      rw [div, hnan, Bool.true_or, if_pos rfl]
    rw [hresult] at h
    cases h
  | false =>
    have hresult : x / z = infinity (x.negative != z.negative) := by
      show x.div z = _
      rw [div, hnan, hznan, hinfinite, hz]
      rfl
    rw [hresult, isFinite_infinity] at h
    cases h

/-! ## Errors in units -/

section Units

variable {num : Int} {den : Nat}

theorem natAbs_nearestPlace (num : Int) (den : Nat) :
    (nearestPlace num den).natAbs = binary64.round num.natAbs den :=
  natAbs_signed _ _

/-- The units of a finite value that lies at the place of a quotient. -/
theorem signedUnits_of_place (h : x.place = nearestPlace num den) :
    x.signedUnits = if num < 0 then -(binary64.units (binary64.round num.natAbs den) : Int)
      else binary64.units (binary64.round num.natAbs den) := by
  have hmagnitude : x.magnitude = binary64.round num.natAbs den := by
    rw [← natAbs_place, h, natAbs_nearestPlace]
  unfold signedUnits units
  rw [hmagnitude]
  unfold place nearestPlace at h
  rw [hmagnitude] at h
  -- The signs agree, or the magnitude is zero and has no units.
  rcases Nat.eq_zero_or_pos (binary64.round num.natAbs den) with hzero | hpos
  · rw [hzero, units_zero]
    split <;> split <;> rfl
  · split at h <;> split at h <;> simp_all

theorem round_lt_of_place (hx : x.isFinite) (h : x.place = nearestPlace num den) :
    binary64.round num.natAbs den < binary64.infinity := by
  rw [← natAbs_nearestPlace, ← h, natAbs_place]
  exact isFinite_iff.mp hx

/-- The error is that of the magnitude. -/
theorem abs_signedUnits_sub (h : x.place = nearestPlace num den) :
    |(x.signedUnits : ℚ) - num / den| =
      |(binary64.units (binary64.round num.natAbs den) : ℚ) - (num.natAbs : ℚ) / den| := by
  rw [signedUnits_of_place h]
  split
  · rename_i hneg
    have hnum : (num : ℚ) = -(num.natAbs : ℚ) := by
      have := Int.ofNat_natAbs_of_nonpos (le_of_lt hneg)
      rw [← Int.cast_natCast, this]
      simp
    rw [hnum, ← abs_neg]
    push_cast
    congr 1
    ring
  · rename_i hneg
    have hnum : (num : ℚ) = (num.natAbs : ℚ) := by
      have := Int.natAbs_of_nonneg (not_lt.mp hneg)
      rw [← Int.cast_natCast, this]
    rw [hnum]
    push_cast
    rfl

theorem abs_div_cast (num : Int) (den : Nat) : (num.natAbs : ℚ) / den = |(num : ℚ) / den| := by
  rw [abs_div, Nat.abs_cast, Nat.cast_natAbs, Int.cast_abs]

/-- A quotient is rounded with a relative error, and half a unit. -/
theorem abs_signedUnits_sub_le (hden : 0 < den) (hx : x.isFinite)
    (h : x.place = nearestPlace num den) :
    |(x.signedUnits : ℚ) - num / den| ≤ |(num : ℚ) / den| / 2 ^ 53 + 1 / 2 := by
  rw [abs_signedUnits_sub h, ← abs_div_cast]
  exact BinaryFormat.abs_units_round_sub_le hden (round_lt_of_place hx h)

/-- A quotient that is whole is rounded with a relative error alone. -/
theorem abs_signedUnits_sub_le_of_whole {whole : Int} (hden : 0 < den)
    (hwhole : (num : ℚ) / den = whole) (hx : x.isFinite) (h : x.place = nearestPlace num den) :
    |(x.signedUnits : ℚ) - whole| ≤ |(whole : ℚ)| / 2 ^ 53 := by
  have habs : (num.natAbs : ℚ) / den = whole.natAbs := by
    rw [abs_div_cast, hwhole, Nat.cast_natAbs, Int.cast_abs]
  have herror := abs_signedUnits_sub h
  rw [hwhole, habs] at herror
  rw [herror, ← Int.cast_abs, ← Nat.cast_natAbs]
  exact BinaryFormat.abs_units_round_sub_le_of_whole hden habs (round_lt_of_place hx h)

end Units

/-! ## Errors of operations -/

/-- An error in units is one of numbers. -/
private theorem abs_toRat_sub (x : Binary64) (number : ℚ) :
    |x.toRat - number| = |(x.signedUnits : ℚ) - number * unitsPerOne| / unitsPerOne := by
  have hpos := unitsPerOne_cast_pos
  rw [toRat, ← abs_of_pos hpos, ← abs_div, abs_of_pos hpos]
  congr 1
  field_simp

theorem abs_toRat_add_sub_le (hx : x.isFinite) (hy : y.isFinite) (h : (x + y).isFinite) :
    |(x + y).toRat - (x.toRat + y.toRat)| ≤ |x.toRat + y.toRat| / 2 ^ 53 := by
  have hpos := unitsPerOne_cast_pos
  have hwhole : ((x.signedUnits + y.signedUnits : Int) : ℚ) / (1 : Nat) =
      (x.signedUnits + y.signedUnits : Int) := by simp
  have herror := abs_signedUnits_sub_le_of_whole Nat.one_pos hwhole h (place_add hx hy)
  have hsum : (x.toRat + y.toRat) * unitsPerOne = (x.signedUnits + y.signedUnits : Int) := by
    rw [add_mul, toRat_mul_unitsPerOne, toRat_mul_unitsPerOne, Int.cast_add]
  rw [abs_toRat_sub, hsum, div_le_iff₀ hpos]
  calc _ ≤ |((x.signedUnits + y.signedUnits : Int) : ℚ)| / 2 ^ 53 := herror
    _ = |x.toRat + y.toRat| / 2 ^ 53 * unitsPerOne := by
        rw [← hsum, abs_mul, abs_of_pos hpos]
        ring

theorem toRat_neg (x : Binary64) : x.neg.toRat = -x.toRat := by
  rw [toRat, toRat, signedUnits_neg, Int.cast_neg, neg_div]

theorem abs_toRat_sub_sub_le (hx : x.isFinite) (hy : y.isFinite) (h : (x - y).isFinite) :
    |(x - y).toRat - (x.toRat - y.toRat)| ≤ |x.toRat - y.toRat| / 2 ^ 53 := by
  have herror := abs_toRat_add_sub_le hx (y := y.neg) (by rwa [isFinite_neg]) h
  rwa [toRat_neg, ← sub_eq_add_neg] at herror

/-- Products with a whole number. -/
theorem abs_toRat_mul_sub_le {n : Int} (hx : x.isFinite) (hn : x.toRat = n) (hy : y.isFinite)
    (h : (x * y).isFinite) :
    |(x * y).toRat - n * y.toRat| ≤ |n * y.toRat| / 2 ^ 53 := by
  have hpos := unitsPerOne_cast_pos
  have hunits : (x.signedUnits : ℚ) = n * unitsPerOne := by rw [← hn, toRat_mul_unitsPerOne]
  -- A whole number of multiples of a unit is a multiple of a unit.
  have hwhole : ((x.signedUnits * y.signedUnits : Int) : ℚ) / unitsPerOne =
      (n * y.signedUnits : Int) := by
    rw [div_eq_iff (ne_of_gt hpos)]
    push_cast
    rw [hunits]
    ring
  have herror := abs_signedUnits_sub_le_of_whole unitsPerOne_pos hwhole h (place_mul hx hy)
  have hproduct : n * y.toRat * unitsPerOne = (n * y.signedUnits : Int) := by
    rw [mul_assoc, toRat_mul_unitsPerOne, Int.cast_mul]
  rw [abs_toRat_sub, hproduct, div_le_iff₀ hpos]
  calc _ ≤ |((n * y.signedUnits : Int) : ℚ)| / 2 ^ 53 := herror
    _ = |n * y.toRat| / 2 ^ 53 * unitsPerOne := by
        rw [← hproduct, abs_mul, abs_of_pos hpos]
        ring

/-- Half a unit is small. -/
theorem half_unit_le : 1 / 2 / (unitsPerOne : ℚ) ≤ 1 / 2 ^ 60 := by
  have hle : 2 ^ 60 ≤ unitsPerOne := by
    rw [unitsPerOne]
    exact Nat.pow_le_pow_right (by decide) (by decide)
  have hcast : (2 : ℚ) ^ 60 ≤ unitsPerOne := by exact_mod_cast hle
  rw [div_div, div_le_div_iff₀ (by positivity) (by positivity)]
  linarith

theorem abs_toRat_div_sub_le (hx : x.isFinite) (hy : y.isFinite) (hzero : y.isZero = false)
    (h : (x / y).isFinite) :
    |(x / y).toRat - x.toRat / y.toRat| ≤ |x.toRat / y.toRat| / 2 ^ 53 + 1 / 2 ^ 60 := by
  have hpos := unitsPerOne_cast_pos
  have hunits := units_pos_of_not_isZero hy hzero
  have hcast : (0 : ℚ) < y.units := by exact_mod_cast hunits
  have herror := abs_signedUnits_sub_le hunits h (place_div hx hy hzero)
  have hquotient : (((if y.negative then -(x.signedUnits * unitsPerOne)
      else x.signedUnits * unitsPerOne : Int)) : ℚ) / y.units =
        x.toRat / y.toRat * unitsPerOne := by
    unfold toRat
    rw [div_div_div_cancel_right₀ (ne_of_gt hpos)]
    unfold signedUnits
    cases y.negative
    · simp only [Bool.false_eq_true, if_false]
      push_cast
      ring
    · simp only [if_true]
      push_cast
      field_simp
  rw [hquotient] at herror
  rw [abs_toRat_sub]
  calc _ ≤ (|x.toRat / y.toRat * unitsPerOne| / 2 ^ 53 + 1 / 2) / unitsPerOne := by gcongr
    _ = |x.toRat / y.toRat| / 2 ^ 53 + 1 / 2 / unitsPerOne := by
        rw [abs_mul, abs_of_pos hpos]
        field_simp
    _ ≤ |x.toRat / y.toRat| / 2 ^ 53 + 1 / 2 ^ 60 := by
        have := half_unit_le
        gcongr

/-! ## Integers -/

/-- Integers up to `2 ^ 53` are not changed. -/
theorem toRat_ofInt {n : Int} (h : n.natAbs ≤ 2 ^ 53) : (ofInt n).toRat = n := by
  have hfinite : (ofInt n).isFinite = true :=
    isFinite_ofInt (le_trans h (Nat.pow_le_pow_right (by decide) (by decide)))
  have hround := round_lt_of_place hfinite (place_ofInt n)
  have habs : (n * unitsPerOne : Int).natAbs = n.natAbs * unitsPerOne := by
    rw [Int.natAbs_mul, Int.natAbs_natCast]
  -- The integer, or half of it if it is the greatest one, fits the coefficient.
  have hunits : binary64.units (binary64.round (n * unitsPerOne : Int).natAbs 1) =
      n.natAbs * unitsPerOne := by
    rw [habs] at hround ⊢
    rcases Nat.lt_or_eq_of_le h with hlt | heq
    · rw [unitsPerOne] at hround ⊢
      exact BinaryFormat.units_round_of_lt hlt Nat.one_pos (by rw [Nat.cast_one, div_one]) hround
    · have hsplit : n.natAbs * unitsPerOne = 2 ^ 52 * 2 ^ (binary64.scale + 1) := by
        rw [heq, unitsPerOne, ← Nat.pow_add, ← Nat.pow_add, show 53 + binary64.scale =
          52 + (binary64.scale + 1) by omega]
      rw [hsplit] at hround ⊢
      exact BinaryFormat.units_round_of_lt (by decide) Nat.one_pos
        (by rw [Nat.cast_one, div_one]) hround
  have hsigned : (ofInt n).signedUnits = n * unitsPerOne := by
    rw [signedUnits_of_place (place_ofInt n), hunits]
    have hone : (0 : Int) < unitsPerOne := by exact_mod_cast unitsPerOne_pos
    split
    · rename_i hneg
      have hn : n < 0 := by
        by_contra hnonneg
        exact absurd hneg (not_lt.mpr (mul_nonneg (not_lt.mp hnonneg) (le_of_lt hone)))
      push_cast
      rw [abs_of_neg hn]
      ring
    · rename_i hneg
      have hn : 0 ≤ n := by
        by_contra hlt
        exact hneg (mul_neg_of_neg_of_pos (not_le.mp hlt) hone)
      push_cast
      rw [abs_of_nonneg hn]
  rw [toRat, hsigned, Int.cast_mul, Int.cast_natCast,
    mul_div_cancel_right₀ _ (ne_of_gt unitsPerOne_cast_pos)]

end Binary64

end PointCloud
