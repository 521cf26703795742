import PointCloud.Numbers

/-!
# Binary floating-point formats

A format stores a sign and a magnitude. The magnitude bits, read as a number, count the finite
values in increasing order: below the first binade they are the multiples of the format's unit,
and each further step of `2 ^ fractionBits` doubles the distance between neighbours. So every
finite value is a whole number of units, and order on magnitudes is order on magnitude bits.

Arithmetic is done on exact quotients of units and rounded once, to the nearest magnitude, a tie
going to the even one. Where only powers of two are in the way, numerator and denominator are kept
short.

Main results:

* `roundHalfEven_mul_right` — rounding a quotient does not depend on how it is written;
* `BinaryFormat.round_mul_two_pow` — powers of two may be kept apart from what is rounded.
-/

namespace PointCloud

/-- A binary format, given by the widths of its two magnitude fields. -/
structure BinaryFormat where
  fractionBits : Nat
  exponentBits : Nat
  /-- How many magnitudes a binade has. -/
  binade : Nat := 2 ^ fractionBits
  /-- The magnitude bits of infinity; every larger magnitude is a NaN. -/
  infinity : Nat := (2 ^ exponentBits - 1) * 2 ^ fractionBits
  binade_eq : binade = 2 ^ fractionBits := by rfl
  infinity_eq : infinity = (2 ^ exponentBits - 1) * 2 ^ fractionBits := by rfl
  deriving DecidableEq, Repr

/-- The whole number nearest to `num / den`, an exact half going to the even neighbour. -/
def roundHalfEven (num den : Nat) : Nat :=
  let quotient := num / den
  let twice := 2 * (num % den)
  if twice < den then quotient
  else if den < twice then quotient + 1
  else quotient + quotient % 2

theorem roundHalfEven_mul_right (num den : Nat) {c : Nat} (hc : 0 < c) :
    roundHalfEven (num * c) (den * c) = roundHalfEven num den := by
  simp only [roundHalfEven, Nat.mul_div_mul_right _ _ hc, Nat.mul_mod_mul_right, ← Nat.mul_assoc,
    Nat.mul_lt_mul_right hc]

theorem roundHalfEven_zero {den : Nat} (hden : 0 < den) : roundHalfEven 0 den = 0 := by
  simp [roundHalfEven, hden]

theorem roundHalfEven_one (num : Nat) : roundHalfEven num 1 = num := by
  simp [roundHalfEven, Nat.mod_one]

theorem roundHalfEven_two_pow (num up down : Nat) :
    roundHalfEven (num * 2 ^ up) (2 ^ down) =
      if down ≤ up then num * 2 ^ (up - down) else roundHalfEven num (2 ^ (down - up)) := by
  split
  · rename_i h
    have hnum : num * 2 ^ up = num * 2 ^ (up - down) * 2 ^ down := by
      rw [Nat.mul_assoc, ← Nat.pow_add, Nat.sub_add_cancel h]
    have hrw := roundHalfEven_mul_right (num * 2 ^ (up - down)) 1 (Nat.two_pow_pos down)
    rw [Nat.one_mul] at hrw
    rw [hnum, hrw, roundHalfEven_one]
  · rename_i h
    have hden : 2 ^ down = 2 ^ (down - up) * 2 ^ up := by
      rw [← Nat.pow_add, Nat.sub_add_cancel (Nat.le_of_not_le h)]
    rw [hden, roundHalfEven_mul_right _ _ (Nat.two_pow_pos up)]

namespace BinaryFormat

/-- The format of four-byte numbers. -/
def binary32 : BinaryFormat where
  fractionBits := 23
  exponentBits := 8

/-- The format of eight-byte numbers. -/
def binary64 : BinaryFormat where
  fractionBits := 52
  exponentBits := 11

/-- The weight of the sign bit in a word of the format. -/
def signWeight (format : BinaryFormat) : Nat :=
  2 ^ (format.fractionBits + format.exponentBits)

/-- The unit of the format is `2 ^ -scale`, its least positive value. -/
def scale (format : BinaryFormat) : Nat :=
  2 ^ (format.exponentBits - 1) - 2 + format.fractionBits

/-- What a finite magnitude counts: its fraction, with the leading bit that is not stored. -/
def coefficient (format : BinaryFormat) (magnitude : Nat) : Nat :=
  if magnitude < format.binade then magnitude else format.binade + magnitude % format.binade

/-- The power of two, in units, of which a finite magnitude is a multiple. -/
def power (format : BinaryFormat) (magnitude : Nat) : Nat :=
  magnitude / format.binade - 1

/-- The value of a finite magnitude, in units. -/
def units (format : BinaryFormat) (magnitude : Nat) : Nat :=
  format.coefficient magnitude * 2 ^ format.power magnitude

/-- The magnitude nearest to `num / den` units, or infinity past the largest finite value.

With `q` the whole part of the quotient, neighbours near it are `2 ^ k` units apart for
`k = log2 q - fractionBits`, and `k` is zero throughout the first two binades. A carry out of the
fraction moves into the exponent field by itself. -/
def round (format : BinaryFormat) (num den : Nat) : Nat :=
  let k := (num / den).log2 - format.fractionBits
  min format.infinity (k * format.binade + roundHalfEven num (den * 2 ^ k))

/-- The magnitude nearest to `num * 2 ^ up / 2 ^ down` units, or infinity past the largest finite
value. No power is carried out that cancels. -/
def roundScaled (format : BinaryFormat) (num up down : Nat) : Nat :=
  if num = 0 then 0
  else
    let k := num.log2 + up - down - format.fractionBits
    let low := down + k
    let rounded :=
      if low ≤ up then num * 2 ^ (up - low) else roundHalfEven num (2 ^ (low - up))
    min format.infinity (k * format.binade + rounded)

/-! ## Laws -/

private theorem log2_mul_two_pow_div {num : Nat} (h : num ≠ 0) (up down : Nat) :
    (num * 2 ^ up / 2 ^ down).log2 = num.log2 + up - down := by
  obtain ⟨hle, hlt⟩ := (Nat.log2_eq_iff h).mp rfl
  have hle : 2 ^ (num.log2 + up) ≤ num * 2 ^ up := by
    rw [Nat.pow_add]; exact Nat.mul_le_mul_right _ hle
  have hlt : num * 2 ^ up < 2 ^ (num.log2 + 1 + up) := by
    rw [Nat.pow_add]; exact Nat.mul_lt_mul_of_pos_right hlt (Nat.two_pow_pos up)
  by_cases hdown : down ≤ num.log2 + up
  · have hlow : 2 ^ (num.log2 + up - down) ≤ num * 2 ^ up / 2 ^ down := by
      rw [Nat.le_div_iff_mul_le (Nat.two_pow_pos down), ← Nat.pow_add, Nat.sub_add_cancel hdown]
      exact hle
    have hhigh : num * 2 ^ up / 2 ^ down < 2 ^ (num.log2 + up - down + 1) := by
      rw [Nat.div_lt_iff_lt_mul (Nat.two_pow_pos down), ← Nat.pow_add]
      have : num.log2 + up - down + 1 + down = num.log2 + 1 + up := by omega
      rwa [this]
    have hne : num * 2 ^ up / 2 ^ down ≠ 0 :=
      Nat.ne_of_gt (Nat.lt_of_lt_of_le (Nat.two_pow_pos _) hlow)
    exact (Nat.log2_eq_iff hne).mpr ⟨hlow, hhigh⟩
  · have hsmall : num * 2 ^ up < 2 ^ down :=
      Nat.lt_of_lt_of_le hlt (Nat.pow_le_pow_right (by decide) (by omega))
    rw [Nat.div_eq_of_lt hsmall, Nat.log2_zero]
    omega

theorem round_mul_two_pow (format : BinaryFormat) (num up down : Nat) :
    format.round (num * 2 ^ up) (2 ^ down) = format.roundScaled num up down := by
  by_cases h : num = 0
  · simp [h, round, roundScaled, roundHalfEven_zero, Nat.two_pow_pos]
  · simp only [round, roundScaled, if_neg h, log2_mul_two_pow_div h, ← Nat.pow_add,
      roundHalfEven_two_pow]

end BinaryFormat

example : BinaryFormat.binary64.scale = 1074 ∧ BinaryFormat.binary32.scale = 149 := by decide

end PointCloud
