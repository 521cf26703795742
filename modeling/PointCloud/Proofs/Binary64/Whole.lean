import Mathlib
import PointCloud.Proofs.Binary64.Error
import PointCloud.Proofs.Binary64.Narrow

/-!
# Whole numbers among values

A finite value has a nearest whole number, an exact half going away from zero. That number is a
value again: either no bit of the value counts less than one, and it is whole as it stands, or it is
so small that every whole number near it is a value. So a value can be rounded to a whole number
without a second error, and the number is then read off, compared and converted exactly.

Main results:

* `Binary64.isNearestWhole_of_nearestInt?` — what the nearest whole number is;
* `Binary64.nearestInt?_eq_some` — the integer that a value is near;
* `Binary64.isWhole_toWhole` — a rounded value stands for it;
* `Binary64.truncate_of_isWhole` — converting a whole value, within the ends of the type;
* `Binary64.lt_iff_toRat` — order of finite values is order of numbers.
-/

namespace PointCloud

open BinaryFormat (binary64)

/-- The whole number nearest to a number, an exact half going away from zero. -/
def IsNearestWhole (q : ℚ) (n : Int) : Prop :=
  |q - n| ≤ 1 / 2 ∧ (|q - n| = 1 / 2 → |q| < |(n : ℚ)|)

theorem IsNearestWhole.neg {q : ℚ} {n : Int} (h : IsNearestWhole q n) :
    IsNearestWhole (-q) (-n) := by
  have hdistance : |(-q) - ((-n : Int) : ℚ)| = |q - n| := by
    rw [Int.cast_neg, sub_neg_eq_add, neg_add_eq_sub, abs_sub_comm]
  rw [IsNearestWhole, hdistance, Int.cast_neg, abs_neg, abs_neg]
  exact h

/-- A number of no sign lies half a unit around the nearest whole one, the upper end excluded. -/
theorem isNearestWhole_of_bounds {q : ℚ} {whole : Nat} (hlow : (whole : ℚ) - 1 / 2 ≤ q)
    (hhigh : q < whole + 1 / 2) (hq : 0 ≤ q) : IsNearestWhole q whole := by
  rw [IsNearestWhole, Int.cast_natCast]
  constructor
  · rw [abs_le]
    constructor <;> linarith
  · intro htie
    -- Half a unit away can only be below.
    have hbelow : q - whole = -(1 / 2) := by
      rcases abs_eq (by norm_num : (0 : ℚ) ≤ 1 / 2) |>.mp htie with h | h
      · linarith
      · exact h
    rw [abs_of_nonneg hq, Nat.abs_cast]
    linarith

namespace Binary64

variable {x y : Binary64} {m n : Int}

-- Proofs about numbers do not look at how many units make one.
attribute [local irreducible] unitsPerOne

/-- A finite value that stands for an integer. -/
def IsWhole (x : Binary64) (n : Int) : Prop := x.isFinite = true ∧ x.toRat = n

/-! ## Units of whole numbers -/

theorem isWhole_iff : x.IsWhole n ↔ x.isFinite = true ∧ x.signedUnits = n * unitsPerOne := by
  have hne := ne_of_gt unitsPerOne_cast_pos
  unfold IsWhole toRat
  rw [div_eq_iff hne]
  norm_cast

theorem IsWhole.unique (h : x.IsWhole n) (h' : x.IsWhole m) : n = m := by
  exact_mod_cast h.2.symm.trans h'.2

theorem IsWhole.signedUnits_eq (h : x.IsWhole n) : x.signedUnits = n * unitsPerOne :=
  (isWhole_iff.mp h).2

theorem IsWhole.units_eq (h : x.IsWhole n) : x.units = n.natAbs * unitsPerOne := by
  have hunits : x.signedUnits.natAbs = x.units := natAbs_signed _ _
  rw [← hunits, h.signedUnits_eq, Int.natAbs_mul, Int.natAbs_natCast]

/-- A value lies where its number is rounded to. -/
theorem IsWhole.place_eq (h : x.IsWhole n) : x.place = (ofInt n).place := by
  rw [place_ofInt, ← h.signedUnits_eq, nearestPlace_signedUnits h.1]

theorem negative_ofUnits (negative : Bool) (num den : Nat) :
    (ofUnits negative num den).negative = negative := rfl

/-- A value that has as many units as a magnitude has that magnitude. -/
theorem magnitude_ofUnits_units (negative : Bool) {magnitude : Nat}
    (h : magnitude ≤ binary64.infinity) :
    (ofUnits negative (binary64.units magnitude) 1).magnitude = magnitude := by
  show min (binary64.round (binary64.units magnitude) 1) binary64.infinity = magnitude
  rw [BinaryFormat.round_units h, Nat.min_eq_left h]

theorem abs_toRat (x : Binary64) : |x.toRat| = x.units / unitsPerOne := by
  have hpos := unitsPerOne_cast_pos
  rw [toRat, abs_div, abs_of_pos hpos]
  unfold signedUnits
  split <;> simp

/-! ## Rounding -/

/-- Whole numbers up to `2 ^ 53` are values. -/
theorem exists_units_eq {whole : Nat} (h : whole ≤ 2 ^ 53) :
    ∃ magnitude < binary64.infinity, binary64.units magnitude = whole * unitsPerOne := by
  have hvalue := toRat_ofInt (n := whole) h
  have hfinite : (ofInt whole).isFinite = true :=
    isFinite_ofInt (le_trans h (Nat.pow_le_pow_right (by decide) (by decide)))
  have hwhole : (ofInt whole).IsWhole whole := ⟨hfinite, hvalue⟩
  exact ⟨_, isFinite_iff.mp hfinite, hwhole.units_eq⟩

/-- The magnitude of the nearest whole number lies half a unit around the magnitude of the value,
the upper end excluded. -/
theorem nearest_bounds (x : Binary64) :
    let nearest := (2 * x.units + unitsPerOne) / (2 * unitsPerOne)
    (nearest : ℚ) - 1 / 2 ≤ |x.toRat| ∧ |x.toRat| < nearest + 1 / 2 := by
  intro nearest
  have hpos := unitsPerOne_cast_pos
  have hone := unitsPerOne_pos
  have hlow : nearest * (2 * unitsPerOne) ≤ 2 * x.units + unitsPerOne := Nat.div_mul_le_self _ _
  have hhigh : 2 * x.units + unitsPerOne < (nearest + 1) * (2 * unitsPerOne) :=
    Nat.lt_mul_of_div_lt (Nat.lt_succ_self nearest) (by omega)
  have hlow' : (nearest : ℚ) * (2 * unitsPerOne) ≤ 2 * x.units + unitsPerOne := by
    exact_mod_cast hlow
  have hhigh' : (2 : ℚ) * x.units + unitsPerOne < (nearest + 1) * (2 * unitsPerOne) := by
    exact_mod_cast hhigh
  rw [abs_toRat, le_div_iff₀ hpos, div_lt_iff₀ hpos]
  constructor <;> linarith

theorem toRat_eq_abs (x : Binary64) :
    x.toRat = if x.negative then -|x.toRat| else |x.toRat| := by
  rw [abs_toRat, toRat, signedUnits]
  split
  · push_cast
    rw [neg_div]
  · rw [Int.cast_natCast]

/-- What the nearest whole number is. -/
theorem isNearestWhole_of_nearestInt? (h : x.nearestInt? = some n) :
    IsNearestWhole x.toRat n := by
  have hbounds := nearest_bounds x
  dsimp only at hbounds
  unfold nearestInt? at h
  generalize (2 * x.units + unitsPerOne) / (2 * unitsPerOne) = nearest at *
  have habs := isNearestWhole_of_bounds hbounds.1 hbounds.2 (abs_nonneg _)
  have hsign := toRat_eq_abs x
  split at h
  · obtain rfl := Option.some.inj h
    rw [hsign]
    split
    · exact habs.neg
    · exact habs
  · cases h

theorem isFinite_of_nearestInt? (h : x.nearestInt? = some n) : x.isFinite = true := by
  unfold nearestInt? at h
  split at h
  · assumption
  · cases h

theorem exists_nearestInt? (hx : x.isFinite) : ∃ n, x.nearestInt? = some n := by
  unfold nearestInt?
  rw [if_pos hx]
  exact ⟨_, rfl⟩

/-- The integer that a value is near. -/
theorem nearestInt?_eq_some (hx : x.isFinite) (h : |x.toRat - n| < 1 / 2) :
    x.nearestInt? = some n := by
  obtain ⟨m, hm⟩ := exists_nearestInt? hx
  have hnearest := (isNearestWhole_of_nearestInt? hm).1
  -- Less than one apart, the two integers are one.
  have hclose : |((m - n : Int) : ℚ)| < 1 := by
    rw [Int.cast_sub]
    calc |(m : ℚ) - n| ≤ |(m : ℚ) - x.toRat| + |x.toRat - n| := abs_sub_le _ _ _
      _ = |x.toRat - m| + |x.toRat - n| := by rw [abs_sub_comm]
      _ < 1 := by linarith
  have hzero : m - n = 0 := by
    rw [← Int.abs_lt_one_iff]
    exact_mod_cast hclose
  rw [hm, sub_eq_zero.mp hzero]

/-- The nearest whole number of a value is a value. -/
theorem exists_units_eq_nearest (hx : x.isFinite) :
    ∃ magnitude < binary64.infinity, binary64.units magnitude =
      (2 * x.units + unitsPerOne) / (2 * unitsPerOne) * unitsPerOne := by
  have hone := unitsPerOne_pos
  have hscale : unitsPerOne = 2 ^ binary64.scale := by unfold unitsPerOne; rfl
  have hcoefficient : x.coefficient < 2 ^ 53 := coefficient_lt binary64 x.magnitude
  rcases Nat.lt_or_ge x.power binary64.scale with hsmall | hlarge
  · -- No whole number near a value this small needs more bits than a value has.
    refine exists_units_eq (Nat.le_of_lt_succ ?_)
    have hunits : 2 * x.units < 2 ^ 53 * unitsPerOne := by
      obtain ⟨rest, hrest⟩ := Nat.exists_eq_add_of_lt hsmall
      calc 2 * x.units = x.coefficient * 2 ^ (x.power + 1) := by rw [units_eq, Nat.pow_succ]; ring
        _ < 2 ^ 53 * 2 ^ (x.power + 1) :=
            Nat.mul_lt_mul_of_pos_right hcoefficient (Nat.two_pow_pos _)
        _ ≤ 2 ^ 53 * unitsPerOne := by
            rw [hscale]
            exact Nat.mul_le_mul_left _ (Nat.pow_le_pow_right (by decide) (by omega))
    rw [Nat.div_lt_iff_lt_mul (by omega)]
    omega
  · -- No bit of the value counts less than one, so the value is the whole number.
    refine ⟨x.magnitude, isFinite_iff.mp hx, ?_⟩
    obtain ⟨rest, hrest⟩ := Nat.exists_eq_add_of_le hlarge
    have hunits : x.units = x.coefficient * 2 ^ rest * unitsPerOne := by
      rw [units_eq, hrest, Nat.pow_add, hscale]
      ring
    show x.units = _
    have hdiv : (2 * x.units + unitsPerOne) / (2 * unitsPerOne) = x.coefficient * 2 ^ rest := by
      have hhalf : unitsPerOne / (2 * unitsPerOne) = 0 := Nat.div_eq_of_lt (by omega)
      rw [hunits, show 2 * (x.coefficient * 2 ^ rest * unitsPerOne) + unitsPerOne =
        2 * unitsPerOne * (x.coefficient * 2 ^ rest) + unitsPerOne by ring,
        Nat.mul_add_div (by omega), hhalf, Nat.add_zero]
    rw [hdiv, hunits]

theorem toWhole_eq (h : x.nearestInt? = some n) :
    x.toWhole = ofUnits x.negative (n.natAbs * unitsPerOne) 1 := by
  rw [toWhole, h]
  dsimp only
  rw [ofScaled_eq_ofUnits, Nat.pow_zero, unitsPerOne]

/-- A rounded value stands for the nearest whole number, without a second error. -/
theorem isWhole_toWhole (h : x.nearestInt? = some n) : x.toWhole.IsWhole n := by
  have hx := isFinite_of_nearestInt? h
  obtain ⟨magnitude, hfinite, hunits⟩ := exists_units_eq_nearest hx
  have hwhole := toWhole_eq h
  unfold nearestInt? at h
  rw [if_pos hx] at h
  generalize (2 * x.units + unitsPerOne) / (2 * unitsPerOne) = nearest at *
  obtain rfl := Option.some.inj h
  rw [natAbs_signed, ← hunits] at hwhole
  -- The result has the magnitude of the nearest whole number, and the sign of the value.
  have hmagnitude : x.toWhole.magnitude = magnitude := by
    rw [hwhole, magnitude_ofUnits_units _ (Nat.le_of_lt hfinite)]
  have hnegative : x.toWhole.negative = x.negative := by
    rw [hwhole, negative_ofUnits]
  refine isWhole_iff.mpr ⟨isFinite_iff.mpr (by rwa [hmagnitude]), ?_⟩
  rw [signedUnits, units, hmagnitude, hnegative, hunits]
  split
  · push_cast
    ring
  · push_cast
    rfl

theorem toWhole_of_not_isFinite (hx : x.isFinite = false) : x.toWhole = x := by
  unfold toWhole nearestInt?
  rw [hx]
  rfl

/-- Rounding to a whole number keeps a value finite or not. -/
theorem isFinite_toWhole (x : Binary64) : x.toWhole.isFinite = x.isFinite := by
  by_cases hx : x.isFinite = true
  · obtain ⟨n, hn⟩ := exists_nearestInt? hx
    rw [(isWhole_toWhole hn).1, hx]
  · rw [Bool.not_eq_true] at hx
    rw [toWhole_of_not_isFinite hx]

/-! ## Reading the number off -/

/-- Converting a whole value gives its number, held within the ends of the type. -/
theorem truncate_of_isWhole (h : x.IsWhole n) (lo hi : Int) :
    x.truncate lo hi = max lo (min hi n) := by
  have hquotient : x.units / unitsPerOne = n.natAbs := by
    rw [h.units_eq, Nat.mul_div_cancel _ unitsPerOne_pos]
  have hsigned := h.signedUnits_eq
  have hone : (0 : Int) < unitsPerOne := by exact_mod_cast unitsPerOne_pos
  unfold truncate
  rw [isNaN_eq_false h.1, if_neg Bool.false_ne_true, if_pos h.1]
  dsimp only
  rw [hquotient]
  congr 2
  unfold signedUnits at hsigned
  -- The number has the sign of the value.
  split at hsigned <;> rename_i hnegative
  · rw [if_pos hnegative]
    have hn : n ≤ 0 := by
      by_contra hpos
      have := mul_pos (not_le.mp hpos) hone
      omega
    omega
  · rw [if_neg hnegative]
    have hn : 0 ≤ n := by
      by_contra hneg
      have := mul_neg_of_neg_of_pos (not_le.mp hneg) hone
      omega
    omega

/-- Order of finite values is order of numbers. -/
theorem lt_iff_toRat (hx : x.isFinite) (hy : y.isFinite) :
    x.lt y = true ↔ x.toRat < y.toRat := by
  have hplaces := place_le_place_iff hy hx
  have hlt : x.lt y = true ↔ x.place < y.place := by
    simp [lt, isNaN_eq_false hx, isNaN_eq_false hy]
  rw [hlt, toRat, toRat, div_lt_div_iff_of_pos_right unitsPerOne_cast_pos, Int.cast_lt,
    ← not_le, ← not_le, hplaces]

/-- A whole value below the value of an integer is below the integer, though the latter may have
been rounded. -/
theorem lt_of_lt_ofInt (h : x.IsWhole n) (hlt : x.lt (ofInt m) = true) : n < m := by
  by_contra hle
  have hplaces := place_ofInt_mono (not_lt.mp hle)
  simp only [lt, Bool.and_eq_true, decide_eq_true_eq, h.place_eq] at hlt
  omega

theorem lt_of_ofInt_lt (h : x.IsWhole n) (hlt : (ofInt m).lt x = true) : m < n := by
  by_contra hle
  have hplaces := place_ofInt_mono (not_lt.mp hle)
  simp only [lt, Bool.and_eq_true, decide_eq_true_eq, h.place_eq] at hlt
  omega

end Binary64

end PointCloud
