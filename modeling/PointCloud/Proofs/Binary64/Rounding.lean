import Mathlib
import PointCloud.Binary64.Format

/-!
# Rounding

A quotient is rounded to the nearest whole number of steps, and the step is the distance between
neighbours in the binade of the quotient. Both the rounding and the choice of the step respect the
order of quotients, so the whole does: a greater quotient has no lesser magnitude. Magnitudes round
to themselves. It follows that units rise with magnitudes, that rounding depends on a quotient alone
and not on how it is written, and that what fits a magnitude is not changed. The error is at most
half a step, a fixed part of the quotient, unless the quotient lies below the first binade and is
not whole.

Main results:

* `BinaryFormat.round_mono` — rounding keeps the order of quotients;
* `BinaryFormat.round_units` — a magnitude is what its units round to;
* `BinaryFormat.units_le_units_iff` — order of units is order of magnitudes;
* `BinaryFormat.abs_units_round_sub_le` — how far the units of the result are from the quotient.
-/

namespace PointCloud

/-! ## Whole numbers -/

section Half

variable {num den num' den' : Nat}

/-- The quotient is its whole part and a rest. -/
private theorem div_eq_add_rest (num : Nat) (hden : 0 < den) :
    (num : ℚ) / den = (num / den : Nat) + ((num % den : Nat) : ℚ) / den := by
  have hne : (den : ℚ) ≠ 0 := by exact_mod_cast Nat.ne_of_gt hden
  have hdiv : (num : ℚ) = den * (num / den : Nat) + (num % den : Nat) := by
    exact_mod_cast (Nat.div_add_mod num den).symm
  rw [hdiv]
  field_simp

/-- What a rounded quotient may be: the nearest whole number, or the even one of two. -/
theorem roundHalfEven_cases (num : Nat) (hden : 0 < den) :
    |(num : ℚ) / den - roundHalfEven num den| < 1 / 2 ∨
      |(num : ℚ) / den - roundHalfEven num den| = 1 / 2 ∧ roundHalfEven num den % 2 = 0 := by
  have hpos : (0 : ℚ) < den := by exact_mod_cast hden
  have hrest := div_eq_add_rest num hden
  have hsmall := Nat.mod_lt num hden
  unfold roundHalfEven
  generalize num / den = quotient at *
  generalize num % den = rest at *
  have hnonneg : (0 : ℚ) ≤ (rest : ℚ) / den := by positivity
  dsimp only
  split
  · -- less than half
    rename_i h
    left
    have hlt : (rest : ℚ) / den < 1 / 2 := by
      rw [div_lt_div_iff₀ hpos (by norm_num)]
      exact_mod_cast (by omega : rest * 2 < 1 * den)
    rw [hrest, abs_lt]
    constructor <;> linarith
  · split
    · -- more than half
      rename_i h
      left
      have hgt : 1 / 2 < (rest : ℚ) / den := by
        rw [div_lt_div_iff₀ (by norm_num) hpos]
        exact_mod_cast (by omega : 1 * den < rest * 2)
      have hone : (rest : ℚ) / den < 1 := by
        rw [div_lt_one hpos]
        exact_mod_cast hsmall
      rw [hrest, abs_lt]
      push_cast
      constructor <;> linarith
    · -- exactly half
      rename_i h h'
      right
      have heq : (rest : ℚ) / den = 1 / 2 := by
        rw [div_eq_div_iff (ne_of_gt hpos) (by norm_num)]
        exact_mod_cast (by omega : rest * 2 = 1 * den)
      refine ⟨?_, by omega⟩
      rw [hrest, heq]
      rcases Nat.mod_two_eq_zero_or_one quotient with hmod | hmod
      · rw [hmod]
        norm_num
      · rw [hmod]
        push_cast
        norm_num

theorem abs_sub_roundHalfEven_le (num : Nat) (hden : 0 < den) :
    |(num : ℚ) / den - roundHalfEven num den| ≤ 1 / 2 := by
  rcases roundHalfEven_cases num hden with h | ⟨h, -⟩
  · exact le_of_lt h
  · exact le_of_eq h

/-- Rounding keeps the order of quotients. -/
theorem roundHalfEven_mono (hden : 0 < den) (hden' : 0 < den')
    (h : (num : ℚ) / den ≤ num' / den') : roundHalfEven num den ≤ roundHalfEven num' den' := by
  by_contra hlt
  have hstep : (roundHalfEven num' den' : ℚ) + 1 ≤ roundHalfEven num den := by
    exact_mod_cast (by omega : roundHalfEven num' den' + 1 ≤ roundHalfEven num den)
  have hcases := roundHalfEven_cases num hden
  have hcases' := roundHalfEven_cases num' hden'
  have hle := abs_le.mp (abs_sub_roundHalfEven_le num hden)
  have hle' := abs_le.mp (abs_sub_roundHalfEven_le num' hden')
  -- Only one half is between the two results, and both would have to be even.
  have heq : (roundHalfEven num' den' : ℚ) + 1 = roundHalfEven num den := by linarith
  rcases hcases with hcases | ⟨-, heven⟩
  · have := abs_lt.mp hcases
    linarith
  rcases hcases' with hcases' | ⟨-, heven'⟩
  · have := abs_lt.mp hcases'
    linarith
  have : roundHalfEven num' den' + 1 = roundHalfEven num den := by exact_mod_cast heq
  omega

theorem roundHalfEven_mul_self (n : Nat) (hden : 0 < den) : roundHalfEven (n * den) den = n := by
  have h := roundHalfEven_mul_right n 1 hden
  rwa [Nat.one_mul, roundHalfEven_one] at h

end Half

namespace BinaryFormat

variable (format : BinaryFormat)

/-! ## Units of magnitudes -/

theorem binade_pos : 0 < format.binade := by
  rw [format.binade_eq]
  exact Nat.two_pow_pos _

/-- Steps counted from a binade on, past its end at most to the first of the next. -/
theorem units_add {k steps : Nat} (hlow : k = 0 ∨ format.binade ≤ steps)
    (hhigh : steps ≤ 2 * format.binade) :
    format.units (k * format.binade + steps) = steps * 2 ^ k := by
  have hpos := format.binade_pos
  unfold units coefficient power
  rcases Nat.lt_or_ge steps format.binade with hsmall | hlarge
  · -- below the first binade
    obtain rfl : k = 0 := by omega
    rw [Nat.zero_mul, Nat.zero_add, if_pos hsmall, Nat.div_eq_of_lt hsmall]
  · have hnot : ¬ k * format.binade + steps < format.binade := by
      have := Nat.zero_le (k * format.binade)
      omega
    rw [if_neg hnot]
    rcases Nat.lt_or_ge steps (2 * format.binade) with hin | hend
    · -- inside the binade
      obtain ⟨rest, rfl⟩ := Nat.exists_eq_add_of_le hlarge
      have hrest : rest < format.binade := by omega
      have hsplit : k * format.binade + (format.binade + rest) =
          rest + format.binade * (k + 1) := by ring
      rw [hsplit, Nat.add_mul_mod_self_left, Nat.add_mul_div_left _ _ hpos,
        Nat.mod_eq_of_lt hrest, Nat.div_eq_of_lt hrest]
      congr 2
      omega
    · -- at its end
      obtain rfl : steps = 2 * format.binade := by omega
      have hsplit : k * format.binade + 2 * format.binade = format.binade * (k + 2) := by ring
      rw [hsplit, Nat.mul_mod_right, Nat.mul_div_cancel_left _ hpos, Nat.add_zero,
        show k + 2 - 1 = k + 1 by omega, Nat.pow_succ]
      ring

/-! ## Steps -/

/-- The power of two between neighbours near a quotient. -/
def stepPower (num den : Nat) : Nat := (num / den).log2 - format.fractionBits

/-- The quotient in steps, rounded. -/
def steps (num den : Nat) : Nat := roundHalfEven num (den * 2 ^ format.stepPower num den)

theorem round_eq (num den : Nat) : format.round num den =
    min format.infinity (format.stepPower num den * format.binade + format.steps num den) := rfl

variable {format} {num den num' den' : Nat}

/-- The quotient in steps. -/
private theorem div_steps (num : Nat) (k : Nat) :
    (num : ℚ) / (den * 2 ^ k : Nat) = num / den / 2 ^ k := by
  push_cast
  rw [div_mul_eq_div_div]

theorem div_lt_two_pow (hden : 0 < den) :
    (num : ℚ) / den < 2 ^ (format.stepPower num den + format.fractionBits + 1) := by
  have hpos : (0 : ℚ) < den := by exact_mod_cast hden
  have hlog : num / den < 2 ^ ((num / den).log2 + 1) := Nat.lt_log2_self
  have hle : (num / den).log2 + 1 ≤ format.stepPower num den + format.fractionBits + 1 := by
    unfold stepPower
    omega
  have hlt : num / den < 2 ^ (format.stepPower num den + format.fractionBits + 1) :=
    Nat.lt_of_lt_of_le hlog (Nat.pow_le_pow_right (by decide) hle)
  rw [div_lt_iff₀ hpos]
  exact_mod_cast (Nat.div_lt_iff_lt_mul hden).mp hlt

/-- Past the first binade the quotient fills the fraction. -/
theorem two_pow_le_div (hden : 0 < den) (hk : 0 < format.stepPower num den) :
    2 ^ (format.stepPower num den + format.fractionBits) ≤ (num : ℚ) / den := by
  have hpos : (0 : ℚ) < den := by exact_mod_cast hden
  have hlog : format.stepPower num den + format.fractionBits = (num / den).log2 := by
    unfold stepPower at hk ⊢
    omega
  have hne : num / den ≠ 0 := by
    intro hzero
    rw [stepPower, hzero, Nat.log2_zero] at hk
    omega
  have hle := Nat.log2_self_le hne
  rw [← hlog] at hle
  rw [le_div_iff₀ hpos]
  exact_mod_cast (Nat.le_div_iff_mul_le hden).mp hle

theorem steps_le (hden : 0 < den) : format.steps num den ≤ 2 * format.binade := by
  have hlt : (num : ℚ) / den < 2 ^ (format.stepPower num den + format.fractionBits + 1) :=
    div_lt_two_pow hden
  -- In steps the quotient is below two binades, and so is what it is rounded to.
  have hquotient : (num : ℚ) / (den * 2 ^ format.stepPower num den : Nat) ≤
      (2 * format.binade : Nat) / (1 : Nat) := by
    rw [div_steps, format.binade_eq, div_le_iff₀ (by positivity)]
    push_cast
    calc (num : ℚ) / den ≤ 2 ^ (format.stepPower num den + format.fractionBits + 1) := le_of_lt hlt
      _ = 2 * 2 ^ format.fractionBits / 1 * 2 ^ format.stepPower num den := by ring
  have hmono := roundHalfEven_mono (Nat.mul_pos hden (Nat.two_pow_pos _)) Nat.one_pos hquotient
  rwa [roundHalfEven_one] at hmono

theorem binade_le_steps (hden : 0 < den) (hk : 0 < format.stepPower num den) :
    format.binade ≤ format.steps num den := by
  have hle := two_pow_le_div hden hk
  have hquotient : (format.binade : Nat) / (1 : Nat) ≤
      (num : ℚ) / (den * 2 ^ format.stepPower num den : Nat) := by
    rw [div_steps, format.binade_eq, le_div_iff₀ (by positivity)]
    push_cast
    calc (2 : ℚ) ^ format.fractionBits / 1 * 2 ^ format.stepPower num den
        = 2 ^ (format.stepPower num den + format.fractionBits) := by ring
      _ ≤ (num : ℚ) / den := hle
  have hmono := roundHalfEven_mono Nat.one_pos (Nat.mul_pos hden (Nat.two_pow_pos _)) hquotient
  rwa [roundHalfEven_one] at hmono

theorem stepPower_mono (hden : 0 < den) (hden' : 0 < den') (h : (num : ℚ) / den ≤ num' / den') :
    format.stepPower num den ≤ format.stepPower num' den' := by
  have hpos : (0 : ℚ) < den := by exact_mod_cast hden
  have hpos' : (0 : ℚ) < den' := by exact_mod_cast hden'
  have hmul : num * den' ≤ num' * den := by
    rw [div_le_div_iff₀ hpos hpos'] at h
    exact_mod_cast h
  have hdiv : num / den ≤ num' / den' := by
    rw [Nat.le_div_iff_mul_le hden']
    refine Nat.le_of_mul_le_mul_right ?_ hden
    calc num / den * den' * den = num / den * den * den' := by ring
      _ ≤ num * den' := Nat.mul_le_mul_right _ (Nat.div_mul_le_self _ _)
      _ ≤ num' * den := hmul
  have hlog : (num / den).log2 ≤ (num' / den').log2 := by
    rw [Nat.log2_eq_log_two, Nat.log2_eq_log_two]
    exact Nat.log_mono_right hdiv
  unfold stepPower
  omega

/-! ## Rounding -/

/-- Rounding keeps the order of quotients. -/
theorem round_mono (hden : 0 < den) (hden' : 0 < den') (h : (num : ℚ) / den ≤ num' / den') :
    format.round num den ≤ format.round num' den' := by
  have hpower : format.stepPower num den ≤ format.stepPower num' den' :=
    stepPower_mono hden hden' h
  rw [round_eq, round_eq]
  refine min_le_min_left _ ?_
  rcases Nat.eq_or_lt_of_le hpower with heq | hlt
  · -- the same step
    rw [heq]
    refine Nat.add_le_add_left ?_ _
    unfold steps
    rw [heq]
    refine roundHalfEven_mono (Nat.mul_pos hden (Nat.two_pow_pos _))
      (Nat.mul_pos hden' (Nat.two_pow_pos _)) ?_
    rw [div_steps, div_steps]
    gcongr
  · -- a longer step, of which the greater quotient has a full binade
    have hle : format.steps num den ≤ 2 * format.binade := steps_le hden
    have hge : format.binade ≤ format.steps num' den' := binade_le_steps hden' (by omega)
    calc format.stepPower num den * format.binade + format.steps num den
        ≤ format.stepPower num den * format.binade + 2 * format.binade := by omega
      _ = (format.stepPower num den + 1) * format.binade + format.binade := by ring
      _ ≤ format.stepPower num' den' * format.binade + format.binade :=
          Nat.add_le_add_right (Nat.mul_le_mul_right _ hlt) _
      _ ≤ format.stepPower num' den' * format.binade + format.steps num' den' :=
          Nat.add_le_add_left hge _

/-- Rounding depends on a quotient alone. -/
theorem round_congr (hden : 0 < den) (hden' : 0 < den') (h : (num : ℚ) / den = num' / den') :
    format.round num den = format.round num' den' :=
  le_antisymm (round_mono hden hden' (le_of_eq h)) (round_mono hden' hden (le_of_eq h.symm))

theorem round_mul_self {factor : Nat} (num : Nat) (hfactor : 0 < factor) :
    format.round (num * factor) factor = format.round num 1 := by
  have hne : (factor : ℚ) ≠ 0 := by exact_mod_cast Nat.ne_of_gt hfactor
  refine round_congr hfactor Nat.one_pos ?_
  push_cast
  rw [mul_div_cancel_right₀ _ hne, div_one]

theorem round_le_infinity : format.round num den ≤ format.infinity := min_le_left _ _

/-- A result that is finite is as many steps as the quotient has. -/
theorem units_round (hden : 0 < den) (h : format.round num den < format.infinity) :
    format.units (format.round num den) = format.steps num den * 2 ^ format.stepPower num den := by
  have hround : format.round num den =
      format.stepPower num den * format.binade + format.steps num den := by
    rw [round_eq] at h ⊢
    omega
  rw [hround]
  refine format.units_add ?_ (steps_le hden)
  rcases Nat.eq_zero_or_pos (format.stepPower num den) with hk | hk
  · exact .inl hk
  · exact .inr (binade_le_steps hden hk)

/-- A magnitude is the steps of its binade, counted from there on. -/
theorem power_mul_add_coefficient (magnitude : Nat) :
    format.power magnitude * format.binade + format.coefficient magnitude = magnitude := by
  have hpos := format.binade_pos
  unfold power coefficient
  split
  · rename_i h
    rw [Nat.div_eq_of_lt h, Nat.zero_sub, Nat.zero_mul, Nat.zero_add]
  · rename_i h
    have hquotient : 1 ≤ magnitude / format.binade :=
      (Nat.one_le_div_iff hpos).mpr (Nat.le_of_not_lt h)
    obtain ⟨binades, hbinades⟩ := Nat.exists_eq_add_of_le' hquotient
    have hdiv := Nat.div_add_mod magnitude format.binade
    rw [hbinades] at hdiv
    rw [hbinades, Nat.add_sub_cancel]
    calc binades * format.binade + (format.binade + magnitude % format.binade)
        = format.binade * (binades + 1) + magnitude % format.binade := by ring
      _ = magnitude := hdiv

theorem stepPower_units (magnitude : Nat) :
    format.stepPower (format.units magnitude) 1 = format.power magnitude := by
  have hpos := format.binade_pos
  rw [stepPower, Nat.div_one]
  by_cases h : magnitude < format.binade
  · -- below the first binade a unit is a step
    have hpower : format.power magnitude = 0 := by rw [power, Nat.div_eq_of_lt h]
    have hunits : format.units magnitude = magnitude := by
      rw [units, hpower, coefficient, if_pos h, Nat.pow_zero, Nat.mul_one]
    rw [hunits, hpower]
    rcases Nat.eq_zero_or_pos magnitude with rfl | hmagnitude
    · simp
    · rw [format.binade_eq] at h
      have := (Nat.log2_lt (Nat.ne_of_gt hmagnitude)).mpr h
      omega
  · have hcoefficient : format.coefficient magnitude =
        format.binade + magnitude % format.binade := by rw [coefficient, if_neg h]
    have hrest := Nat.mod_lt magnitude hpos
    -- The leading bit of the coefficient counts the binade.
    have hlog : (format.units magnitude).log2 = format.fractionBits + format.power magnitude := by
      refine (Nat.log2_eq_iff ?_).mpr ⟨?_, ?_⟩
      · rw [units, hcoefficient]
        have := Nat.two_pow_pos (format.power magnitude)
        positivity
      · rw [units, Nat.pow_add, ← format.binade_eq, hcoefficient]
        exact Nat.mul_le_mul_right _ (Nat.le_add_right _ _)
      · rw [units, show format.fractionBits + format.power magnitude + 1 =
          (format.fractionBits + 1) + format.power magnitude by omega, Nat.pow_add, Nat.pow_succ,
          ← format.binade_eq, hcoefficient]
        exact Nat.mul_lt_mul_of_pos_right (by omega) (Nat.two_pow_pos _)
    rw [hlog, Nat.add_sub_cancel_left]

/-- A magnitude is what its units round to. -/
theorem round_units {magnitude : Nat} (h : magnitude ≤ format.infinity) :
    format.round (format.units magnitude) 1 = magnitude := by
  have hpower : format.stepPower (format.units magnitude) 1 = format.power magnitude :=
    stepPower_units magnitude
  have hsteps : format.steps (format.units magnitude) 1 = format.coefficient magnitude := by
    rw [steps, hpower, Nat.one_mul, units, roundHalfEven_mul_self _ (Nat.two_pow_pos _)]
  rw [round_eq, hpower, hsteps, power_mul_add_coefficient, Nat.min_eq_right h]

/-- What is no more than the units of a magnitude is rounded to no more than that magnitude. -/
theorem round_le_of_le_units {magnitude : Nat} (hmagnitude : magnitude ≤ format.infinity)
    (hden : 0 < den) (h : num ≤ format.units magnitude * den) :
    format.round num den ≤ magnitude := by
  rw [← round_units hmagnitude, ← round_mul_self (format.units magnitude) hden]
  refine round_mono hden hden ?_
  gcongr

/-- Order of units is order of magnitudes. -/
theorem units_le_units_iff {a b : Nat} (ha : a ≤ format.infinity) (hb : b ≤ format.infinity) :
    format.units a ≤ format.units b ↔ a ≤ b := by
  have hmono : ∀ {a b : Nat}, a ≤ format.infinity → b ≤ format.infinity →
      format.units a ≤ format.units b → a ≤ b := by
    intro a b ha hb hle
    rw [← round_units ha, ← round_units hb]
    refine round_mono Nat.one_pos Nat.one_pos ?_
    gcongr
  refine ⟨hmono ha hb, fun hle => ?_⟩
  by_contra hlt
  -- Otherwise both would be one magnitude, of one count of units.
  have heq : a = b := le_antisymm hle (hmono hb ha (Nat.le_of_not_le hlt))
  rw [heq] at hlt
  exact hlt (Nat.le_refl _)

/-! ## Exact results -/

/-- A quotient that is a whole number of units, and has no more bits than fit a magnitude, is not
changed. -/
theorem units_round_of_lt {coefficient power : Nat}
    (hcoefficient : coefficient < 2 ^ (format.fractionBits + 1)) (hden : 0 < den)
    (hnum : (num : ℚ) / den = (coefficient * 2 ^ power : Nat))
    (h : format.round num den < format.infinity) :
    format.units (format.round num den) = coefficient * 2 ^ power := by
  have hwhole : (num : ℚ) / den = (coefficient * 2 ^ power : Nat) / (1 : Nat) := by
    rw [hnum, Nat.cast_one, div_one]
  rw [round_congr hden Nat.one_pos hwhole] at h ⊢
  -- The step is no longer than the power that the quotient is a multiple of.
  have hpower : format.stepPower (coefficient * 2 ^ power) 1 ≤ power := by
    rw [stepPower, Nat.div_one]
    rcases Nat.eq_zero_or_pos coefficient with rfl | hpos
    · simp
    · have hne : coefficient * 2 ^ power ≠ 0 :=
        Nat.ne_of_gt (Nat.mul_pos hpos (Nat.two_pow_pos _))
      have hlog : (coefficient * 2 ^ power).log2 < format.fractionBits + 1 + power := by
        rw [Nat.log2_lt hne, Nat.pow_add]
        exact Nat.mul_lt_mul_of_pos_right hcoefficient (Nat.two_pow_pos _)
      omega
  rw [units_round Nat.one_pos h, steps, Nat.one_mul]
  generalize format.stepPower (coefficient * 2 ^ power) 1 = k at hpower
  obtain ⟨rest, rfl⟩ := Nat.exists_eq_add_of_le hpower
  rw [Nat.pow_add, Nat.mul_comm (2 ^ k), ← Nat.mul_assoc,
    roundHalfEven_mul_self _ (Nat.two_pow_pos k)]

/-- A quotient that is no greater than the units of a finite magnitude rounds to a finite one. -/
theorem round_lt_infinity {magnitude : Nat} (hmagnitude : magnitude < format.infinity)
    (hden : 0 < den) (h : (num : ℚ) / den ≤ format.units magnitude) :
    format.round num den < format.infinity := by
  have hwhole : (num : ℚ) / den ≤ (format.units magnitude : Nat) / (1 : Nat) := by
    rw [Nat.cast_one, div_one]
    exact h
  have hmono : format.round num den ≤ format.round (format.units magnitude) 1 :=
    round_mono hden Nat.one_pos hwhole
  rw [round_units (Nat.le_of_lt hmagnitude)] at hmono
  exact Nat.lt_of_le_of_lt hmono hmagnitude

/-! ## Errors -/

/-- The units of the result are at most half a step away from the quotient. -/
theorem abs_units_round_sub_le_step (hden : 0 < den)
    (h : format.round num den < format.infinity) :
    |(format.units (format.round num den) : ℚ) - num / den| ≤
      2 ^ format.stepPower num den / 2 := by
  have hstep : (0 : ℚ) < 2 ^ format.stepPower num den := by positivity
  have hhalf := abs_sub_roundHalfEven_le num
    (Nat.mul_pos hden (Nat.two_pow_pos (format.stepPower num den)))
  rw [div_steps, abs_sub_comm] at hhalf
  have hsplit : (format.units (format.round num den) : ℚ) - num / den =
      (format.steps num den - num / den / 2 ^ format.stepPower num den) *
        2 ^ format.stepPower num den := by
    rw [units_round hden h]
    push_cast
    field_simp
  rw [hsplit, abs_mul, abs_of_pos hstep]
  calc _ ≤ 1 / 2 * (2 : ℚ) ^ format.stepPower num den :=
        mul_le_mul_of_nonneg_right hhalf (le_of_lt hstep)
    _ = 2 ^ format.stepPower num den / 2 := by ring

/-- The error of a finite result is a fixed part of the quotient, or half a unit. -/
theorem abs_units_round_sub_le (hden : 0 < den) (h : format.round num den < format.infinity) :
    |(format.units (format.round num den) : ℚ) - num / den| ≤
      num / den / 2 ^ (format.fractionBits + 1) + 1 / 2 := by
  have hstep := abs_units_round_sub_le_step hden h
  have hnonneg : (0 : ℚ) ≤ num / den / 2 ^ (format.fractionBits + 1) := by positivity
  rcases Nat.eq_zero_or_pos (format.stepPower num den) with hk | hk
  · -- a step is a unit
    rw [hk, pow_zero] at hstep
    linarith
  · -- a step is a part of the quotient
    have hle := two_pow_le_div hden hk
    have hpart : (2 : ℚ) ^ format.stepPower num den / 2 ≤
        num / den / 2 ^ (format.fractionBits + 1) := by
      rw [le_div_iff₀ (by positivity)]
      calc (2 : ℚ) ^ format.stepPower num den / 2 * 2 ^ (format.fractionBits + 1)
          = 2 ^ (format.stepPower num den + format.fractionBits) := by ring
        _ ≤ num / den := hle
    linarith

/-- Whole numbers of units below the first binade are not changed, so no half unit is lost. -/
theorem abs_units_round_sub_le_of_whole {whole : Nat} (hden : 0 < den)
    (hwhole : (num : ℚ) / den = whole) (h : format.round num den < format.infinity) :
    |(format.units (format.round num den) : ℚ) - whole| ≤
      whole / 2 ^ (format.fractionBits + 1) := by
  have hquotient : (num : ℚ) / den = (whole : Nat) / (1 : Nat) := by
    rw [hwhole, Nat.cast_one, div_one]
  rw [round_congr hden Nat.one_pos hquotient] at h ⊢
  have hstep := abs_units_round_sub_le_step Nat.one_pos h
  rw [Nat.cast_one, div_one] at hstep
  rcases Nat.eq_zero_or_pos (format.stepPower whole 1) with hk | hk
  · -- a step is a unit
    have hexact : format.units (format.round whole 1) = whole := by
      rw [units_round Nat.one_pos h, steps, hk, Nat.pow_zero, Nat.mul_one, Nat.mul_one,
        roundHalfEven_one]
    rw [hexact, sub_self, abs_zero]
    positivity
  · -- a step is a part of the whole
    have hle : 2 ^ (format.stepPower whole 1 + format.fractionBits) ≤ (whole : ℚ) / (1 : Nat) :=
      two_pow_le_div Nat.one_pos hk
    rw [Nat.cast_one, div_one] at hle
    refine le_trans hstep ?_
    rw [le_div_iff₀ (by positivity)]
    calc (2 : ℚ) ^ format.stepPower whole 1 / 2 * 2 ^ (format.fractionBits + 1)
        = 2 ^ (format.stepPower whole 1 + format.fractionBits) := by ring
      _ ≤ whole := hle

end BinaryFormat

end PointCloud
