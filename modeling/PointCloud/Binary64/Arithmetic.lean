import PointCloud.Binary64.Basic

/-!
# Arithmetic on eight-byte floating-point values

Every operation on finite values computes the exact result as a quotient of whole numbers of units
and rounds it once (`ofUnits`). Sums and products keep powers of two apart, so that they are found
without long numbers (`ofScaled`). The special cases give a NaN where no value is defined: opposite
infinities added, zero times infinity, zero by zero, infinity by infinity.

Main results:

* `Binary64.mul_eq_ofUnits` — a product of finite values is the exact one, rounded;
* `Binary64.add_eq_ofUnits` — a sum of finite values is the exact one, rounded.
-/

namespace PointCloud

open BinaryFormat (binary32 binary64)

namespace Binary64

/-! ## Exact values -/

/-- What a finite value counts. -/
def coefficient (x : Binary64) : Nat := binary64.coefficient x.magnitude

/-- The power of two, in units of `2 ^ -1074`, of which a finite value is a multiple. -/
def power (x : Binary64) : Nat := binary64.power x.magnitude

/-- The magnitude of a finite value, in units of `2 ^ -1074`. -/
def units (x : Binary64) : Nat := binary64.units x.magnitude

/-- A finite value with its sign, in units of `2 ^ -1074`. -/
def signedUnits (x : Binary64) : Int := if x.negative then -(x.units : Int) else x.units

/-- How many units make one. -/
def unitsPerOne : Nat := 2 ^ binary64.scale

/-- The value nearest to `num / den` units, with the given sign. -/
def ofUnits (negative : Bool) (num den : Nat) : Binary64 :=
  ofMagnitude negative (binary64.round num den)

/-- The value nearest to `num * 2 ^ up / 2 ^ down` units, with the given sign. -/
def ofScaled (negative : Bool) (num up down : Nat) : Binary64 :=
  ofMagnitude negative (binary64.roundScaled num up down)

/-- The value nearest to an integer. -/
def ofInt (n : Int) : Binary64 := ofScaled (n < 0) n.natAbs binary64.scale 0

/-- The value nearest to a natural number. -/
def ofNat (n : Nat) : Binary64 := ofScaled false n binary64.scale 0

/-! ## The four operations -/

/-- A finite value with its sign, in multiples of the given power of two of units. -/
def signedMultiple (x : Binary64) (power : Nat) : Int :=
  let multiple := x.coefficient * 2 ^ (x.power - power)
  if x.negative then -(multiple : Int) else multiple

/-- A power of two of units of which two finite values are multiples. A zero, being a multiple of
every power, leaves the choice to the other side. -/
def commonPower (x y : Binary64) : Nat :=
  if x.isZero then y.power else if y.isZero then x.power else min x.power y.power

/-- The sum, rounded. An exact zero is negative only if both sides are. -/
def add (x y : Binary64) : Binary64 :=
  if x.isNaN || y.isNaN then nan
  else if !x.isFinite then
    if !y.isFinite && x.negative != y.negative then nan else x
  else if !y.isFinite then y
  else
    let power := commonPower x y
    let sum := x.signedMultiple power + y.signedMultiple power
    if sum = 0 then zero (x.negative && y.negative) else ofScaled (sum < 0) sum.natAbs power 0

/-- The difference, rounded. -/
def sub (x y : Binary64) : Binary64 := x.add y.neg

/-- The product, rounded. -/
def mul (x y : Binary64) : Binary64 :=
  let negative := x.negative != y.negative
  if x.isNaN || y.isNaN then nan
  else if !x.isFinite || !y.isFinite then
    if x.isZero || y.isZero then nan else infinity negative
  else ofScaled negative (x.coefficient * y.coefficient) (x.power + y.power) binary64.scale

/-- The quotient, rounded. Anything but zero divided by zero is an infinity. -/
def div (x y : Binary64) : Binary64 :=
  let negative := x.negative != y.negative
  if x.isNaN || y.isNaN then nan
  else if !x.isFinite then
    if !y.isFinite then nan else infinity negative
  else if !y.isFinite then zero negative
  else if y.isZero then
    if x.isZero then nan else infinity negative
  else ofUnits negative (x.units * unitsPerOne) y.units

instance : Add Binary64 := ⟨add⟩
instance : Sub Binary64 := ⟨sub⟩
instance : Mul Binary64 := ⟨mul⟩
instance : Div Binary64 := ⟨div⟩
instance : Neg Binary64 := ⟨neg⟩

/-! ## Laws -/

theorem units_eq (x : Binary64) : x.units = x.coefficient * 2 ^ x.power := rfl

theorem ofScaled_eq_ofUnits (negative : Bool) (num up down : Nat) :
    ofScaled negative num up down = ofUnits negative (num * 2 ^ up) (2 ^ down) := by
  rw [ofScaled, ofUnits, BinaryFormat.round_mul_two_pow]

theorem coefficient_eq_zero {x : Binary64} (h : x.isZero) : x.coefficient = 0 := by
  have hx : x.magnitude = 0 := by simpa [isZero] using h
  rw [coefficient, hx]
  decide

theorem signedUnits_eq {x : Binary64} {power : Nat} (h : power ≤ x.power ∨ x.isZero) :
    x.signedUnits = x.signedMultiple power * 2 ^ power := by
  have hunits : (x.units : Int) = (x.coefficient * 2 ^ (x.power - power) : Nat) * 2 ^ power := by
    rcases h with h | h
    · rw [units_eq, ← Nat.sub_add_cancel h, Nat.pow_add, Nat.add_sub_cancel, ← Nat.mul_assoc]
      simp
    · simp [units_eq, coefficient_eq_zero h]
  unfold signedUnits signedMultiple
  split
  · rw [hunits, Int.neg_mul]
  · exact hunits

theorem commonPower_le (x y : Binary64) :
    (commonPower x y ≤ x.power ∨ x.isZero) ∧ (commonPower x y ≤ y.power ∨ y.isZero) := by
  unfold commonPower
  split
  · rename_i h; exact ⟨.inr h, .inl (Nat.le_refl _)⟩
  · split
    · rename_i h; exact ⟨.inl (Nat.le_refl _), .inr h⟩
    · exact ⟨.inl (Nat.min_le_left ..), .inl (Nat.min_le_right ..)⟩

theorem isNaN_eq_false {x : Binary64} (h : x.isFinite) : x.isNaN = false := by
  simp only [isFinite, isNaN, decide_eq_true_eq, decide_eq_false_iff_not] at *
  omega

theorem mul_eq_ofUnits {x y : Binary64} (hx : x.isFinite) (hy : y.isFinite) :
    x.mul y = ofUnits (x.negative != y.negative) (x.units * y.units) unitsPerOne := by
  have hprod : x.coefficient * y.coefficient * 2 ^ (x.power + y.power) = x.units * y.units := by
    rw [units_eq, units_eq, Nat.pow_add]
    ac_rfl
  simp only [mul, isNaN_eq_false hx, isNaN_eq_false hy, hx, hy, ofScaled_eq_ofUnits, hprod,
    unitsPerOne]
  simp

theorem add_eq_ofUnits {x y : Binary64} (hx : x.isFinite) (hy : y.isFinite) :
    x.add y =
      let sum := x.signedUnits + y.signedUnits
      if sum = 0 then zero (x.negative && y.negative) else ofUnits (sum < 0) sum.natAbs 1 := by
  have hpos : (0 : Int) < 2 ^ commonPower x y := Int.pow_pos (by decide)
  have hsum : x.signedUnits + y.signedUnits =
      (x.signedMultiple (commonPower x y) + y.signedMultiple (commonPower x y)) *
        2 ^ commonPower x y := by
    rw [signedUnits_eq (commonPower_le x y).1, signedUnits_eq (commonPower_le x y).2, Int.add_mul]
  simp only [add, isNaN_eq_false hx, isNaN_eq_false hy, hx, hy, hsum, ofScaled_eq_ofUnits]
  generalize x.signedMultiple _ + y.signedMultiple _ = sum
  have hzero : sum * 2 ^ commonPower x y = 0 ↔ sum = 0 := by
    simp [Int.mul_eq_zero, Int.ne_of_gt hpos]
  have hneg : sum * 2 ^ commonPower x y < 0 ↔ sum < 0 := by
    simpa using Int.mul_lt_mul_right (b := sum) (c := 0) hpos
  simp [hzero, hneg, Int.natAbs_mul, Int.natAbs_pow]

/-! ## Integers -/

/-- The integer nearest to a finite value, an exact half going away from zero; none for an infinity
or a NaN. -/
def nearestInt? (x : Binary64) : Option Int :=
  if x.isFinite then
    let nearest := (2 * x.units + unitsPerOne) / (2 * unitsPerOne)
    some (if x.negative then -(nearest : Int) else nearest)
  else none

/-- The value rounded to a whole number, an exact half going away from zero. An infinity or a NaN
stays as it is. -/
def toWhole (x : Binary64) : Binary64 :=
  match x.nearestInt? with
  | some n => ofScaled x.negative n.natAbs binary64.scale 0
  | none => x

/-- The value cut to an integer toward zero and held within `lo` and `hi`; zero for a NaN. -/
def truncate (x : Binary64) (lo hi : Int) : Int :=
  if x.isNaN then 0
  else if x.isFinite then
    let whole := x.units / unitsPerOne
    max lo (min hi (if x.negative then -(whole : Int) else whole))
  else if x.negative then lo else hi

/-! ## Four-byte values -/

/-- The value of a four-byte pattern. A NaN keeps its sign and fraction and becomes quiet. -/
def ofBinary32 (word : Nat) : Binary64 :=
  let negative : Bool := word / binary32.signWeight % 2 = 1
  let magnitude := word % binary32.signWeight
  if binary32.infinity < magnitude then
    let fraction := magnitude % 2 ^ 22 * 2 ^ 29
    ⟨negative, 0x7ff8000000000000 + fraction, by
      have := Nat.mod_lt magnitude (show 0 < 2 ^ 22 by decide)
      omega⟩
  else if magnitude = binary32.infinity then infinity negative
  else
    ofScaled negative (binary32.coefficient magnitude)
      (binary32.power magnitude + (binary64.scale - binary32.scale)) 0

/-- The four-byte pattern nearest to a value. Every NaN becomes the quiet one. -/
def toBinary32 (x : Binary64) : Nat :=
  if x.isNaN then 0x7fc00000
  else
    let magnitude :=
      if x.isFinite then binary32.round x.units (2 ^ (binary64.scale - binary32.scale))
      else binary32.infinity
    (if x.negative then binary32.signWeight else 0) + magnitude

/-- The greatest finite value of the four-byte format. -/
def greatestBinary32 : Binary64 := ofBinary32 (binary32.infinity - 1)

end Binary64

end PointCloud
