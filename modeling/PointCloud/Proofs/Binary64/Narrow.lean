import Mathlib
import PointCloud.Proofs.Binary64.Order

/-!
# Four-byte values

Every four-byte value that is not a NaN is an eight-byte value, of the same number. So reading a
four-byte pattern keeps order and loses nothing, and writing it again gives the pattern back. A NaN
stays a NaN, but its pattern is not kept.

Main results:

* `Binary64.units_ofBinary32` — a finite pattern stands for its own units, in finer ones;
* `Binary64.place_ofBinary32_le_iff` — patterns are ordered as the values they stand for;
* `Binary64.toBinary32_ofBinary32` — a pattern is what its value is written as;
* `Binary64.isFinite_ofBinary32_toBinary32` — which values are written as infinities or NaNs.
-/

namespace PointCloud

open BinaryFormat (binary32 binary64)

namespace Binary64

variable {word other : Nat}

/-! ## Patterns -/

/-- The magnitude bits of a four-byte pattern. -/
def magnitude32 (word : Nat) : Nat := word % binary32.signWeight

/-- The sign of a four-byte pattern. -/
def negative32 (word : Nat) : Bool := word / binary32.signWeight % 2 = 1

/-- The place of a four-byte pattern among the patterns of its format. -/
def place32 (word : Nat) : Int :=
  if negative32 word then -(magnitude32 word : Int) else magnitude32 word

theorem isNaN_ofBinary32 :
    (ofBinary32 word).isNaN = decide (binary32.infinity < magnitude32 word) := by
  unfold ofBinary32
  dsimp only
  split
  · rename_i h
    have hfraction : 0 < word % binary32.signWeight % 2 ^ 22 * 2 ^ 29 + 1 := Nat.succ_pos _
    simp only [isNaN, magnitude32, h, decide_true, decide_eq_true_eq]
    show 0x7ff0000000000000 < _
    omega
  · rename_i h
    rw [magnitude32, decide_eq_false h]
    split
    · rfl
    · rw [ofScaled_eq_ofUnits]
      exact isNaN_ofUnits ..

theorem ofBinary32_of_eq_infinity (h : magnitude32 word = binary32.infinity) :
    ofBinary32 word = infinity (negative32 word) := by
  unfold magnitude32 at h
  unfold ofBinary32 negative32
  dsimp only
  rw [if_neg (by omega), if_pos h]

theorem ofBinary32_of_lt_infinity (h : magnitude32 word < binary32.infinity) :
    ofBinary32 word =
      ofUnits (negative32 word) (binary32.units (magnitude32 word) * 2 ^ 925) 1 := by
  have hshift : binary64.scale - binary32.scale = 925 := by decide
  unfold magnitude32 at h
  unfold ofBinary32 negative32 magnitude32
  dsimp only
  rw [if_neg (by omega), if_neg (by omega), ofScaled_eq_ofUnits, hshift, Nat.pow_zero,
    BinaryFormat.units, Nat.pow_add, Nat.mul_assoc]

/-! ## Values -/

theorem coefficient_lt (format : BinaryFormat) (magnitude : Nat) :
    format.coefficient magnitude < 2 ^ (format.fractionBits + 1) := by
  have hrest := Nat.mod_lt magnitude format.binade_pos
  rw [Nat.pow_succ, ← format.binade_eq]
  unfold BinaryFormat.coefficient
  split <;> omega

/-- No finite four-byte value leaves the range of eight bytes. -/
theorem round_units32_lt {magnitude : Nat} (h : magnitude < binary32.infinity) :
    binary64.round (binary32.units magnitude * 2 ^ 925) 1 < binary64.infinity := by
  have hunits := (BinaryFormat.units_le_units_iff (Nat.le_of_lt h)
    (Nat.le_refl binary32.infinity)).mpr (Nat.le_of_lt h)
  -- The units of the four-byte infinity, in those of eight bytes.
  have hgreatest : binary32.units binary32.infinity * 2 ^ 925 = binary64.units (1151 * 2 ^ 52) := by
    decide +kernel
  refine BinaryFormat.round_lt_infinity (by decide : 1151 * 2 ^ 52 < binary64.infinity)
    Nat.one_pos ?_
  rw [Nat.cast_one, div_one, ← hgreatest]
  exact_mod_cast Nat.mul_le_mul_right (2 ^ 925) hunits

/-- A finite pattern stands for its own units, in finer ones. -/
theorem units_ofBinary32 (h : magnitude32 word < binary32.infinity) :
    (ofBinary32 word).units = binary32.units (magnitude32 word) * 2 ^ 925 := by
  have hfinite := round_units32_lt h
  have hmin : min (binary64.round (binary32.units (magnitude32 word) * 2 ^ 925) 1)
      binary64.infinity = binary64.round (binary32.units (magnitude32 word) * 2 ^ 925) 1 :=
    Nat.min_eq_left BinaryFormat.round_le_infinity
  have hcoefficient : binary32.coefficient (magnitude32 word) < 2 ^ (binary64.fractionBits + 1) :=
    Nat.lt_of_lt_of_le (coefficient_lt binary32 _) (by decide)
  rw [ofBinary32_of_lt_infinity h]
  show binary64.units (min _ binary64.infinity) = _
  rw [hmin]
  have hsplit : binary32.units (magnitude32 word) * 2 ^ 925 =
      binary32.coefficient (magnitude32 word) * 2 ^ (binary32.power (magnitude32 word) + 925) := by
    rw [BinaryFormat.units, Nat.pow_add, Nat.mul_assoc]
  rw [hsplit] at hfinite ⊢
  exact BinaryFormat.units_round_of_lt hcoefficient Nat.one_pos (by rw [Nat.cast_one, div_one])
    hfinite

theorem isFinite_ofBinary32 (h : magnitude32 word < binary32.infinity) :
    (ofBinary32 word).isFinite = true := by
  rw [ofBinary32_of_lt_infinity h, isFinite_iff]
  exact Nat.lt_of_le_of_lt (Nat.min_le_left ..) (round_units32_lt h)

theorem negative_ofBinary32 (h : magnitude32 word ≤ binary32.infinity) :
    (ofBinary32 word).negative = negative32 word := by
  rcases Nat.eq_or_lt_of_le h with heq | hlt
  · rw [ofBinary32_of_eq_infinity heq]
    rfl
  · rw [ofBinary32_of_lt_infinity hlt]
    rfl

/-- Magnitudes of patterns are ordered as those of their values. -/
theorem magnitude_ofBinary32_le_iff (h : magnitude32 word ≤ binary32.infinity)
    (h' : magnitude32 other ≤ binary32.infinity) :
    (ofBinary32 word).magnitude ≤ (ofBinary32 other).magnitude ↔
      magnitude32 word ≤ magnitude32 other := by
  rcases Nat.eq_or_lt_of_le h' with heq' | hlt'
  · -- nothing is greater than an infinity
    have hnan : (ofBinary32 word).isNaN = false := by
      rw [isNaN_ofBinary32, decide_eq_false (by omega)]
    rw [ofBinary32_of_eq_infinity heq', heq']
    exact ⟨fun _ => h, fun _ => magnitude_le_infinity hnan⟩
  · have hfinite' := isFinite_iff.mp (isFinite_ofBinary32 hlt')
    rcases Nat.eq_or_lt_of_le h with heq | hlt
    · -- an infinity is greater than what is finite
      have hinfinite : (ofBinary32 word).magnitude = binary64.infinity := by
        rw [ofBinary32_of_eq_infinity heq]
        rfl
      omega
    · have hfinite := isFinite_iff.mp (isFinite_ofBinary32 hlt)
      rw [← BinaryFormat.units_le_units_iff (Nat.le_of_lt hfinite) (Nat.le_of_lt hfinite'),
        ← BinaryFormat.units_le_units_iff h h']
      show (ofBinary32 word).units ≤ (ofBinary32 other).units ↔ _
      rw [units_ofBinary32 hlt, units_ofBinary32 hlt']
      exact Nat.mul_le_mul_right_iff (Nat.two_pow_pos 925)

/-- Patterns are ordered as the values they stand for. -/
theorem place_ofBinary32_le_iff (h : magnitude32 word ≤ binary32.infinity)
    (h' : magnitude32 other ≤ binary32.infinity) :
    (ofBinary32 word).place ≤ (ofBinary32 other).place ↔ place32 word ≤ place32 other := by
  have hle := magnitude_ofBinary32_le_iff h h'
  have hge := magnitude_ofBinary32_le_iff h' h
  -- The zeros have no magnitude on either side.
  have hzero : magnitude32 0 = 0 ∧ (ofBinary32 0).magnitude = 0 := by decide
  have hsmall : magnitude32 0 ≤ binary32.infinity := by decide
  have hzeros := magnitude_ofBinary32_le_iff h hsmall
  have hzeros' := magnitude_ofBinary32_le_iff h' hsmall
  rw [hzero.1, hzero.2] at hzeros hzeros'
  unfold place place32
  rw [negative_ofBinary32 h, negative_ofBinary32 h']
  cases negative32 word <;> cases negative32 other <;>
    simp only [Bool.false_eq_true, if_true, if_false] <;> omega

/-- A pattern is its sign and its magnitude. -/
theorem sign_add_magnitude32 (h : word < 2 ^ 32) :
    (if negative32 word then binary32.signWeight else 0) + magnitude32 word = word := by
  have hweight : binary32.signWeight = 2 ^ 31 := by decide
  unfold negative32 magnitude32
  rw [hweight]
  simp only [decide_eq_true_eq]
  split <;> omega

theorem toBinary32_lt (x : Binary64) : x.toBinary32 < 2 ^ 32 := by
  have hweight : binary32.signWeight = 2 ^ 31 := by decide
  have hinfinity : binary32.infinity < 2 ^ 31 := by decide
  unfold toBinary32
  split
  · decide
  · have hmagnitude : (if x.isFinite then
        binary32.round x.units (2 ^ (binary64.scale - binary32.scale))
        else binary32.infinity) ≤ binary32.infinity := by
      split
      · exact BinaryFormat.round_le_infinity
      · exact Nat.le_refl _
    dsimp only
    rw [hweight]
    split <;> omega

/-- A pattern is what its value is written as. -/
theorem toBinary32_ofBinary32 (hword : word < 2 ^ 32)
    (h : magnitude32 word ≤ binary32.infinity) : (ofBinary32 word).toBinary32 = word := by
  have hnan : (ofBinary32 word).isNaN = false := by
    rw [isNaN_ofBinary32, decide_eq_false (by omega)]
  have hshift : binary64.scale - binary32.scale = 925 := by decide
  conv => rhs; rw [← sign_add_magnitude32 hword]
  unfold toBinary32
  rw [hnan, negative_ofBinary32 h, hshift]
  simp only [Bool.false_eq_true, if_false]
  rw [Nat.add_left_cancel_iff]
  rcases Nat.eq_or_lt_of_le h with heq | hlt
  · rw [ofBinary32_of_eq_infinity heq, isFinite_infinity, if_neg Bool.false_ne_true, heq]
  · rw [isFinite_ofBinary32 hlt, if_pos rfl, units_ofBinary32 hlt]
    -- The finer units cancel.
    rw [BinaryFormat.round_mul_self _ (Nat.two_pow_pos 925), BinaryFormat.round_units h]

/-! ## Values that are too great -/

theorem isFinite_ofBinary32_iff :
    (ofBinary32 word).isFinite = true ↔ magnitude32 word < binary32.infinity := by
  refine ⟨fun h => ?_, isFinite_ofBinary32⟩
  by_contra hge
  have hnan := isNaN_eq_false h
  rw [isNaN_ofBinary32, decide_eq_false_iff_not] at hnan
  -- What is neither finite nor a NaN is an infinity.
  rw [ofBinary32_of_eq_infinity (by omega), isFinite_infinity] at h
  cases h

/-- The magnitude of the pattern that a value is written as. -/
theorem magnitude32_toBinary32 (x : Binary64) :
    magnitude32 x.toBinary32 = if x.isNaN then 0x7fc00000
      else if x.isFinite then binary32.round x.units (2 ^ 925) else binary32.infinity := by
  have hweight : binary32.signWeight = 2 ^ 31 := by decide
  have hshift : binary64.scale - binary32.scale = 925 := by decide
  have hinfinity : binary32.infinity < 2 ^ 31 := by decide
  have hround : binary32.round x.units (2 ^ 925) ≤ binary32.infinity :=
    BinaryFormat.round_le_infinity
  unfold magnitude32 toBinary32
  rw [hweight, hshift]
  by_cases hnan : x.isNaN = true
  · rw [if_pos hnan, if_pos hnan]
  · rw [if_neg hnan, if_neg hnan]
    dsimp only
    split <;> split <;> omega

theorem units_greatestBinary32 :
    greatestBinary32.units = binary32.units (binary32.infinity - 1) * 2 ^ 925 := by
  have hlt : magnitude32 (binary32.infinity - 1) < binary32.infinity := by decide
  have hunits := units_ofBinary32 hlt
  rwa [show magnitude32 (binary32.infinity - 1) = binary32.infinity - 1 by decide] at hunits

/-- A value is written as a finite pattern if it is no greater than the greatest of those. -/
theorem isFinite_ofBinary32_toBinary32 {x : Binary64} (hx : x.isFinite)
    (hle : x.units ≤ greatestBinary32.units) : (ofBinary32 x.toBinary32).isFinite = true := by
  have hlt : binary32.infinity - 1 < binary32.infinity := by decide
  rw [units_greatestBinary32] at hle
  have hround : binary32.round x.units (2 ^ 925) ≤ binary32.infinity - 1 :=
    BinaryFormat.round_le_of_le_units (Nat.sub_le _ _) (Nat.two_pow_pos 925) hle
  rw [isFinite_ofBinary32_iff, magnitude32_toBinary32, isNaN_eq_false hx, if_neg Bool.false_ne_true,
    if_pos hx]
  exact Nat.lt_of_le_of_lt hround hlt

theorem not_isFinite_ofBinary32_toBinary32 {x : Binary64} (hx : x.isFinite = false) :
    (ofBinary32 x.toBinary32).isFinite = false := by
  rw [← Bool.not_eq_true, isFinite_ofBinary32_iff, magnitude32_toBinary32, hx,
    if_neg Bool.false_ne_true]
  split
  · decide
  · exact Nat.lt_irrefl _

end Binary64

end PointCloud
