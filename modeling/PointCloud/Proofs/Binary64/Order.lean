import Mathlib
import PointCloud.Proofs.Binary64.Numeric
import PointCloud.Proofs.Binary64.Rounding

/-!
# Arithmetic and the order of values

The exact result of an operation on finite values is a quotient of whole numbers of units, with its
sign. The place of the rounded result depends on that quotient alone, and rises with it. So an
operation keeps the order of values wherever its exact counterpart keeps the order of numbers: sums
always, products with a factor that is not negative. Results that leave the range become infinite
and stay in order.

Main results:

* `Binary64.place_le_place_iff` — order of finite values is order of their signed units;
* `Binary64.place_ofInt`, `Binary64.place_mul`, `Binary64.place_add`, `Binary64.place_div` — where
  the results of operations lie;
* `Binary64.place_mul_mono`, `Binary64.place_add_mono` — products and sums keep the order.
-/

namespace PointCloud

open BinaryFormat (binary64)

namespace Binary64

variable {x y z : Binary64}

/-! ## Places and units -/

theorem natAbs_signed (negative : Prop) [Decidable negative] (magnitude : Nat) :
    (if negative then -(magnitude : Int) else magnitude).natAbs = magnitude := by
  split <;> simp

theorem natAbs_place (x : Binary64) : x.place.natAbs = x.magnitude := natAbs_signed _ _

theorem isFinite_iff : x.isFinite = true ↔ x.magnitude < binary64.infinity := by
  simp [isFinite]

theorem magnitude_le_infinity (h : x.isNaN = false) : x.magnitude ≤ binary64.infinity := by
  simpa [isNaN] using h

theorem isFinite_infinity (negative : Bool) : (infinity negative).isFinite = false := by
  cases negative <;> decide

theorem unitsPerOne_pos : 0 < unitsPerOne := Nat.two_pow_pos _

theorem units_zero : binary64.units 0 = 0 := by decide

theorem units_pos_of_not_isZero (hx : x.isFinite) (h : x.isZero = false) : 0 < x.units := by
  by_contra hzero
  have hle : x.units ≤ binary64.units 0 := by rw [units_zero]; omega
  have hmagnitude := (BinaryFormat.units_le_units_iff (Nat.le_of_lt (isFinite_iff.mp hx))
    (Nat.zero_le _)).mp hle
  have hne : ¬ x.magnitude = 0 := by simpa [isZero] using h
  omega

/-- Order of finite values is order of their signed units. -/
theorem place_le_place_iff (hx : x.isFinite) (hy : y.isFinite) :
    x.place ≤ y.place ↔ x.signedUnits ≤ y.signedUnits := by
  have hxm := Nat.le_of_lt (isFinite_iff.mp hx)
  have hym := Nat.le_of_lt (isFinite_iff.mp hy)
  have hle := BinaryFormat.units_le_units_iff hxm hym
  have hge := BinaryFormat.units_le_units_iff hym hxm
  have hzerox := BinaryFormat.units_le_units_iff hxm (Nat.zero_le binary64.infinity)
  have hzeroy := BinaryFormat.units_le_units_iff hym (Nat.zero_le binary64.infinity)
  rw [units_zero] at hzerox hzeroy
  -- Signs are compared first, then magnitudes, forward or backward.
  unfold place signedUnits units
  cases x.negative <;> cases y.negative <;>
    simp only [Bool.false_eq_true, if_true, if_false] <;> omega

/-! ## The place of a quotient -/

/-- The place of the value nearest to a quotient of units. -/
def nearestPlace (num : Int) (den : Nat) : Int :=
  if num < 0 then -(binary64.round num.natAbs den : Int) else binary64.round num.natAbs den

theorem round_zero {den : Nat} (hden : 0 < den) : binary64.round 0 den = 0 := by
  have hzero : ((0 : Nat) : ℚ) / den = (binary64.units 0 : Nat) / (1 : Nat) := by
    rw [units_zero]
    simp
  rw [BinaryFormat.round_congr hden Nat.one_pos hzero, BinaryFormat.round_units (Nat.zero_le _)]

/-- The sign of a value rounded from units is that of the units, unless there are none. -/
theorem place_ofUnits (negative : Bool) (num : Nat) {den : Nat} (hden : 0 < den) :
    (ofUnits negative num den).place =
      nearestPlace (if negative then -(num : Int) else num) den := by
  have hmin : min (binary64.round num den) binary64.infinity = binary64.round num den :=
    Nat.min_eq_left BinaryFormat.round_le_infinity
  unfold place ofUnits ofMagnitude nearestPlace
  cases negative with
  | false => simp [hmin]
  | true =>
    rcases Nat.eq_zero_or_pos num with rfl | hnum
    · simp [round_zero hden]
    · simp [hmin, hnum]

theorem isNaN_ofUnits (negative : Bool) (num den : Nat) :
    (ofUnits negative num den).isNaN = false := by
  simp [ofUnits, ofMagnitude, isNaN]

theorem isNaN_mul (hx : x.isFinite) (hy : y.isFinite) : (x * y).isNaN = false := by
  show (x.mul y).isNaN = false
  rw [mul_eq_ofUnits hx hy]
  exact isNaN_ofUnits ..

/-- A greater quotient has no lesser place. -/
theorem nearestPlace_mono {num num' : Int} {den den' : Nat} (hden : 0 < den) (hden' : 0 < den')
    (h : (num : ℚ) / den ≤ num' / den') : nearestPlace num den ≤ nearestPlace num' den' := by
  have hpos : (0 : ℚ) < den := by exact_mod_cast hden
  have hpos' : (0 : ℚ) < den' := by exact_mod_cast hden'
  have hmul : num * den' ≤ num' * den := by
    rw [div_le_div_iff₀ hpos hpos'] at h
    exact_mod_cast h
  unfold nearestPlace
  by_cases hneg : num < 0
  · rw [if_pos hneg]
    by_cases hneg' : num' < 0
    · -- both negative: magnitudes are in the other order
      rw [if_pos hneg', neg_le_neg_iff]
      have hround : binary64.round num'.natAbs den' ≤ binary64.round num.natAbs den :=
        BinaryFormat.round_mono hden' hden ?_
      · exact_mod_cast hround
      · rw [div_le_div_iff₀ hpos' hpos]
        have habs : (num'.natAbs : Int) * den ≤ num.natAbs * den' := by
          rw [Int.ofNat_natAbs_of_nonpos (le_of_lt hneg'),
            Int.ofNat_natAbs_of_nonpos (le_of_lt hneg), neg_mul, neg_mul]
          omega
        exact_mod_cast habs
    · rw [if_neg hneg']
      omega
  · rw [if_neg hneg]
    have hnonneg : 0 ≤ num := not_lt.mp hneg
    have hnonneg' : 0 ≤ num' := by
      by_contra hlt
      have hleft : 0 ≤ num * den' := by positivity
      have hright : num' * den < 0 := mul_neg_of_neg_of_pos (not_le.mp hlt) (by exact_mod_cast hden)
      omega
    rw [if_neg (not_lt.mpr hnonneg')]
    have hround : binary64.round num.natAbs den ≤ binary64.round num'.natAbs den' :=
      BinaryFormat.round_mono hden hden' ?_
    · exact_mod_cast hround
    · rw [div_le_div_iff₀ hpos hpos']
      have habs : (num.natAbs : Int) * den' ≤ num'.natAbs * den := by
        rw [Int.natAbs_of_nonneg hnonneg, Int.natAbs_of_nonneg hnonneg']
        exact hmul
      exact_mod_cast habs

/-- A finite value lies where its units round to. -/
theorem nearestPlace_signedUnits (hx : x.isFinite) : nearestPlace x.signedUnits 1 = x.place := by
  have hround := BinaryFormat.round_units (Nat.le_of_lt (isFinite_iff.mp hx))
  have hsigned : x.signedUnits = if x.negative then -(x.units : Int) else x.units := rfl
  have hplace := place_ofUnits x.negative x.units Nat.one_pos
  rw [hsigned, ← hplace]
  unfold ofUnits place ofMagnitude
  show (if x.negative then -((min (binary64.round (binary64.units x.magnitude) 1) _ : Nat) : Int)
    else (min (binary64.round (binary64.units x.magnitude) 1) _ : Nat)) = _
  rw [hround, Nat.min_eq_left (Nat.le_of_lt (isFinite_iff.mp hx))]

/-! ## Where results lie -/

theorem ofInt_eq_ofUnits (n : Int) : ofInt n = ofUnits (n < 0) (n.natAbs * unitsPerOne) 1 := by
  rw [ofInt, ofScaled_eq_ofUnits, Nat.pow_zero, unitsPerOne]

theorem place_ofInt (n : Int) : (ofInt n).place = nearestPlace (n * unitsPerOne) 1 := by
  rw [ofInt_eq_ofUnits, place_ofUnits _ _ Nat.one_pos]
  congr 1
  push_cast
  split
  · rename_i h
    have hneg : n < 0 := by simpa using h
    rw [abs_of_neg hneg, neg_mul, neg_neg]
  · rename_i h
    have hnonneg : ¬ n < 0 := by simpa using h
    rw [abs_of_nonneg (not_lt.mp hnonneg)]

theorem place_mul (hx : x.isFinite) (hy : y.isFinite) :
    (x * y).place = nearestPlace (x.signedUnits * y.signedUnits) unitsPerOne := by
  show (x.mul y).place = _
  rw [mul_eq_ofUnits hx hy, place_ofUnits _ _ unitsPerOne_pos]
  congr 1
  unfold signedUnits
  cases x.negative <;> cases y.negative <;> simp

theorem place_add (hx : x.isFinite) (hy : y.isFinite) :
    (x + y).place = nearestPlace (x.signedUnits + y.signedUnits) 1 := by
  show (x.add y).place = _
  rw [add_eq_ofUnits hx hy]
  dsimp only
  generalize x.signedUnits + y.signedUnits = sum
  split
  · -- the exact zero
    rename_i hzero
    rw [hzero]
    cases x.negative && y.negative <;> rfl
  · rw [place_ofUnits _ _ Nat.one_pos]
    congr 1
    split
    · rename_i h
      have hneg : sum < 0 := by simpa using h
      omega
    · rename_i h
      have hnonneg : ¬ sum < 0 := by simpa using h
      omega

theorem signedUnits_neg (x : Binary64) : x.neg.signedUnits = -x.signedUnits := by
  unfold signedUnits neg units
  cases x.negative <;> simp

theorem isFinite_neg (x : Binary64) : x.neg.isFinite = x.isFinite := rfl

theorem place_sub (hx : x.isFinite) (hy : y.isFinite) :
    (x - y).place = nearestPlace (x.signedUnits - y.signedUnits) 1 := by
  have hadd := place_add hx (y := y.neg) (by rwa [isFinite_neg])
  rwa [signedUnits_neg, ← sub_eq_add_neg] at hadd

theorem place_div (hx : x.isFinite) (hy : y.isFinite) (hzero : y.isZero = false) :
    (x / y).place = nearestPlace
      (if y.negative then -(x.signedUnits * unitsPerOne) else x.signedUnits * unitsPerOne)
      y.units := by
  have hdiv : x.div y = ofUnits (x.negative != y.negative) (x.units * unitsPerOne) y.units := by
    unfold div
    simp [isNaN_eq_false hx, isNaN_eq_false hy, hx, hy, hzero]
  show (x.div y).place = _
  rw [hdiv, place_ofUnits _ _ (units_pos_of_not_isZero hy hzero)]
  generalize unitsPerOne = one
  congr 1
  unfold signedUnits
  cases x.negative <;> cases y.negative <;> simp

/-- Integers up to the greatest of eight bytes are finite. -/
theorem isFinite_ofInt {n : Int} (h : n.natAbs ≤ 2 ^ 64) : (ofInt n).isFinite = true := by
  have hgreatest : 2 ^ 64 * unitsPerOne = binary64.units (1087 * 2 ^ 52) := by decide +kernel
  rw [ofInt_eq_ofUnits, isFinite_iff]
  refine Nat.lt_of_le_of_lt (Nat.min_le_left ..) ?_
  refine BinaryFormat.round_lt_infinity (by decide : 1087 * 2 ^ 52 < binary64.infinity)
    Nat.one_pos ?_
  rw [Nat.cast_one, div_one, ← hgreatest]
  exact_mod_cast Nat.mul_le_mul_right unitsPerOne h

/-! ## Keeping the order -/

theorem signedUnits_nonpos_of_lt (hx : x.isFinite) (h : x.lt (zero false) = true) :
    x.signedUnits ≤ 0 := by
  simp only [lt, Bool.and_eq_true, decide_eq_true_eq] at h
  exact (place_le_place_iff hx (y := zero false) rfl).mp (le_of_lt h.2)

theorem signedUnits_nonneg_of_not_lt (hx : x.isFinite) (h : ¬ x.lt (zero false) = true) :
    0 ≤ x.signedUnits := by
  have hnan := isNaN_eq_false hx
  have hplace : ¬ x.place < (zero false).place := by
    intro hlt
    exact h (by simp only [lt, hnan, hlt, decide_true]; rfl)
  exact (place_le_place_iff (x := zero false) rfl hx).mp (not_lt.mp hplace)

theorem place_ofInt_mono {m n : Int} (h : m ≤ n) : (ofInt m).place ≤ (ofInt n).place := by
  rw [place_ofInt, place_ofInt]
  refine nearestPlace_mono Nat.one_pos Nat.one_pos ?_
  gcongr

/-- Products with a factor that is not negative keep the order. -/
theorem place_mul_mono (hx : x.isFinite) (hy : y.isFinite) (hz : z.isFinite)
    (hsign : 0 ≤ z.signedUnits) (h : x.place ≤ y.place) : (x * z).place ≤ (y * z).place := by
  rw [place_mul hx hz, place_mul hy hz]
  have hunits := (place_le_place_iff hx hy).mp h
  refine nearestPlace_mono unitsPerOne_pos unitsPerOne_pos ?_
  gcongr

/-- Products with a factor that is not positive turn the order around. -/
theorem place_mul_anti (hx : x.isFinite) (hy : y.isFinite) (hz : z.isFinite)
    (hsign : z.signedUnits ≤ 0) (h : x.place ≤ y.place) : (y * z).place ≤ (x * z).place := by
  rw [place_mul hx hz, place_mul hy hz]
  have hunits := (place_le_place_iff hx hy).mp h
  have hproduct := mul_le_mul_of_nonpos_right hunits hsign
  refine nearestPlace_mono unitsPerOne_pos unitsPerOne_pos ?_
  gcongr

theorem neg_infinity_le_place (h : x.isNaN = false) : -(binary64.infinity : Int) ≤ x.place := by
  have hle := magnitude_le_infinity h
  unfold place
  split <;> omega

theorem place_le_infinity (h : x.isNaN = false) : x.place ≤ binary64.infinity := by
  have hle := magnitude_le_infinity h
  unfold place
  split <;> omega

/-- An infinity absorbs what is added. -/
theorem add_of_not_isFinite (hx : x.isNaN = false) (hinfinite : x.isFinite = false)
    (hz : z.isFinite) : x + z = x := by
  show x.add z = x
  unfold add
  simp [hx, isNaN_eq_false hz, hinfinite, hz]

theorem isNaN_add (hx : x.isNaN = false) (hz : z.isFinite) : (x + z).isNaN = false := by
  by_cases hfinite : x.isFinite = true
  · show (x.add z).isNaN = false
    rw [add_eq_ofUnits hfinite hz]
    dsimp only
    split
    · cases x.negative && z.negative <;> rfl
    · exact isNaN_ofUnits ..
  · rwa [add_of_not_isFinite hx (by simpa using hfinite) hz]

/-- Adding a finite value keeps the order. -/
theorem place_add_mono (hx : x.isNaN = false) (hy : y.isNaN = false) (hz : z.isFinite)
    (h : x.place ≤ y.place) : (x + z).place ≤ (y + z).place := by
  by_cases hfx : x.isFinite = true
  · by_cases hfy : y.isFinite = true
    · -- both finite
      rw [place_add hfx hz, place_add hfy hz]
      have hunits := (place_le_place_iff hfx hfy).mp h
      refine nearestPlace_mono Nat.one_pos Nat.one_pos ?_
      gcongr
    · -- the greater one is infinite, and positive
      have hfy' : y.isFinite = false := by simpa using hfy
      have hmagnitude : y.magnitude = binary64.infinity := by
        have hle := magnitude_le_infinity hy
        have hge : ¬ y.magnitude < binary64.infinity := by rw [← isFinite_iff]; exact hfy
        omega
      have hlt := isFinite_iff.mp hfx
      have hplace : y.place = binary64.infinity := by
        unfold place at h ⊢
        split at h <;> split at h <;> split <;> simp_all <;> omega
      rw [add_of_not_isFinite hy hfy' hz, hplace]
      exact place_le_infinity (isNaN_add hx hz)
  · have hfx' : x.isFinite = false := by simpa using hfx
    rw [add_of_not_isFinite hx hfx' hz]
    by_cases hfy : y.isFinite = true
    · -- the lesser one is infinite, and negative
      have hmagnitude : x.magnitude = binary64.infinity := by
        have hle := magnitude_le_infinity hx
        have hge : ¬ x.magnitude < binary64.infinity := by rw [← isFinite_iff]; exact hfx
        omega
      have hlt := isFinite_iff.mp hfy
      have hplace : x.place = -(binary64.infinity : Int) := by
        unfold place at h ⊢
        split at h <;> split at h <;> split <;> simp_all <;> omega
      rw [hplace]
      exact neg_infinity_le_place (isNaN_add hy hz)
    · rwa [add_of_not_isFinite hy (by simpa using hfy) hz]

end Binary64

end PointCloud
