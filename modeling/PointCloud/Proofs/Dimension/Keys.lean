import Mathlib
import PointCloud.Proofs.Binary64.Narrow
import PointCloud.Proofs.Schema.Rows

/-!
# Sort keys and values

The order key of a word orders the numbers that words stand for: integers by their value, floating
values by their place, with both zeros in one. A value is found from an integer by operations that
keep the order or, if the scale is negative, turn it around as the sort key does. So a greater key
never has a lesser value. The converse holds for floating values. It fails for integers where
rounding gives two of them one value.

Main results:

* `Interpretation.orderKey_le_iff` — order of keys is order of integers;
* `Interpretation.place_float_le_iff` — order of floating values is order of their words, by sign;
* `Dimension.le_value_of_sortKey_le` — values do not fall while keys rise;
* `Dimension.sortKey_eq_of_equals` — floating values that compare as equal share a key.
-/

namespace PointCloud

open BinaryFormat (binary32 binary64)

/-! ## Words -/

namespace Interpretation

variable {t : Interpretation} {word other : Nat}

/-- The weight of the leading bit of a word. -/
def half (t : Interpretation) : Nat := 2 ^ (t.bits - 1)

theorem half_pos (t : Interpretation) : 0 < t.half := Nat.two_pow_pos _

theorem two_pow_bits (t : Interpretation) : 2 ^ t.bits = 2 * t.half := by cases t <;> rfl

theorem half_le (t : Interpretation) : t.half ≤ 2 ^ 63 := by cases t <;> decide

/-! ## Integers -/

/-- The order key of a word counts from the least integer of its type. -/
theorem orderKey_of_integer (hfloat : t.isFloat = false) (hword : word < 2 ^ t.bits) :
    (t.orderKey word : Int) = t.integer word + if t.isSigned then (t.half : Int) else 0 := by
  have hbits := t.two_pow_bits
  have hhalf : 2 ^ (t.bits - 1) = t.half := rfl
  unfold orderKey integer
  dsimp only
  rw [hfloat, hbits, hhalf]
  simp only [Bool.false_eq_true, if_false]
  rw [hbits] at hword
  by_cases hsigned : t.isSigned = true
  · rw [if_pos hsigned, if_pos hsigned, if_pos hsigned, Int.bmod_def]
    have hmod : (word : Int) % (2 * t.half : Nat) = word := by
      exact_mod_cast Nat.mod_eq_of_lt hword
    rw [hmod]
    -- The leading bit is carried out if it is set, and is the sign.
    by_cases hlow : word < t.half
    · rw [Nat.mod_eq_of_lt (by omega), if_pos (by omega)]
      omega
    · rw [Nat.mod_eq_sub_mod (by omega), Nat.mod_eq_of_lt (by omega), if_neg (by omega)]
      omega
  · rw [if_neg hsigned, if_neg hsigned, if_neg hsigned]
    omega

theorem orderKey_lt (hfloat : t.isFloat = false) (hword : word < 2 ^ t.bits) :
    t.orderKey word < 2 ^ t.bits := by
  unfold orderKey
  dsimp only
  rw [hfloat]
  simp only [Bool.false_eq_true, if_false]
  split
  · exact Nat.mod_lt _ (Nat.two_pow_pos _)
  · exact hword

/-- Order of keys is order of integers. -/
theorem orderKey_le_iff (hfloat : t.isFloat = false) (hword : word < 2 ^ t.bits)
    (hother : other < 2 ^ t.bits) :
    t.orderKey word ≤ t.orderKey other ↔ t.integer word ≤ t.integer other := by
  have h := orderKey_of_integer hfloat hword
  have h' := orderKey_of_integer hfloat hother
  omega

/-- No integer of a word leaves the range of sixty-four bits. -/
theorem natAbs_integer_le (hfloat : t.isFloat = false) (hword : word < 2 ^ t.bits) :
    (t.integer word).natAbs ≤ 2 ^ 64 := by
  have hkey := orderKey_of_integer hfloat hword
  have hlt := orderKey_lt hfloat hword
  have hhalf := t.half_le
  rw [t.two_pow_bits] at hlt
  split at hkey <;> omega

/-! ## Floating values -/

/-- The place of a floating word among the words of its type. -/
def wordPlace (t : Interpretation) (word : Nat) : Int :=
  if t.half ≤ word then -((word - t.half : Nat) : Int) else word

theorem place_ofWord (hword : word < 2 ^ 64) :
    (Binary64.ofWord word).place = float64.wordPlace word := by
  have hhalf : float64.half = 2 ^ 63 := rfl
  unfold Binary64.place Binary64.ofWord wordPlace
  rw [hhalf]
  simp only [decide_eq_true_eq]
  by_cases h : 2 ^ 63 ≤ word
  · rw [if_pos (by omega), if_pos h]
    omega
  · rw [if_neg (by omega), if_neg h]
    omega

theorem place32_eq (hword : word < 2 ^ 32) :
    Binary64.place32 word = float32.wordPlace word := by
  have hhalf : float32.half = 2 ^ 31 := rfl
  have hweight : binary32.signWeight = 2 ^ 31 := by decide
  unfold Binary64.place32 Binary64.negative32 Binary64.magnitude32 wordPlace
  rw [hhalf, hweight]
  simp only [decide_eq_true_eq]
  by_cases h : 2 ^ 31 ≤ word
  · rw [if_pos (by omega), if_pos h]
    omega
  · rw [if_neg (by omega), if_neg h]
    omega

/-- Order of floating values is order of their words, by sign. -/
theorem place_float_le_iff (hfloat : t.isFloat = true) (hword : word < 2 ^ t.bits)
    (hother : other < 2 ^ t.bits) (hnan : (t.float word).isNaN = false)
    (hnan' : (t.float other).isNaN = false) :
    (t.float word).place ≤ (t.float other).place ↔ t.wordPlace word ≤ t.wordPlace other := by
  cases t <;> simp only [isFloat, Bool.false_eq_true] at hfloat
  · -- four bytes
    have hword' : word < 2 ^ 32 := hword
    have hother' : other < 2 ^ 32 := hother
    have h : (Binary64.ofBinary32 word).isNaN = false := hnan
    have h' : (Binary64.ofBinary32 other).isNaN = false := hnan'
    rw [Binary64.isNaN_ofBinary32, decide_eq_false_iff_not, not_lt] at h h'
    rw [← place32_eq hword', ← place32_eq hother']
    exact Binary64.place_ofBinary32_le_iff h h'
  · -- eight bytes
    show (Binary64.ofWord word).place ≤ (Binary64.ofWord other).place ↔ _
    rw [place_ofWord hword, place_ofWord hother]

end Interpretation

/-! ## Dimensions -/

namespace Dimension

variable {d : Dimension} {word other : Nat}

/-- What a schema demands of the scale and the offset of a dimension. -/
structure IsScaled (d : Dimension) : Prop where
  scale  : d.scale.isFinite = true
  turns  : d.scale.isZero = false
  offset : d.offset.isFinite = true

theorem IsScaled.scale_ne (hd : d.IsScaled) : ¬ d.scale.isZero := by
  rw [hd.turns]
  exact Bool.false_ne_true

/-- Every dimension of a schema is scaled so. -/
theorem isScaled_of_mem {s : Schema} (h : d ∈ s.dimensions) : d.IsScaled := by
  obtain ⟨-, -, hscale, hoffset, -⟩ := s.valid
  exact ⟨(hscale d h).1, by simpa using (hscale d h).2, hoffset d h⟩

/-- The key of a floating word tells its place, past a gap between the signs. -/
theorem sortKey_of_float (hfloat : d.interpretation.isFloat = true)
    (hword : word < 2 ^ d.interpretation.bits) :
    (d.sortKey word : Int) = d.interpretation.wordPlace word + d.interpretation.half -
      if d.interpretation.wordPlace word < 0 then 1 else 0 := by
  have hbits := d.interpretation.two_pow_bits
  have hhalf : 2 ^ (d.interpretation.bits - 1) = d.interpretation.half := rfl
  have hpos := d.interpretation.half_pos
  unfold sortKey Interpretation.orderKey Interpretation.mask Interpretation.wordPlace
  dsimp only
  rw [hfloat, hhalf, hbits]
  rw [hbits] at hword
  generalize d.interpretation.half = half at *
  simp only [if_true]
  by_cases hzero : word = half
  · -- the negative zero, which is read as the positive one
    rw [if_pos hzero, hzero]
    simp
  · rw [if_neg hzero]
    by_cases hlow : word < half
    · -- positive
      rw [Nat.div_eq_of_lt hlow, if_neg (by decide), if_neg (by omega), if_neg (by omega)]
      omega
    · -- negative, with every bit turned
      have hdiv : word / half = 1 := by
        rw [Nat.div_eq_iff hpos]
        omega
      rw [hdiv, if_pos (by decide), Nat.mod_eq_of_lt hword, if_pos (by omega), if_pos (by omega)]
      omega

theorem sortKey_le_iff_of_float (hfloat : d.interpretation.isFloat = true)
    (hword : word < 2 ^ d.interpretation.bits) (hother : other < 2 ^ d.interpretation.bits) :
    d.sortKey word ≤ d.sortKey other ↔
      d.interpretation.wordPlace word ≤ d.interpretation.wordPlace other := by
  have h := sortKey_of_float hfloat hword
  have h' := sortKey_of_float hfloat hother
  split at h <;> split at h' <;> omega

/-- The key of an integer counts up or down, by the sign of the scale. -/
theorem sortKey_le_iff_of_integer (hfloat : d.interpretation.isFloat = false)
    (hword : word < 2 ^ d.interpretation.bits) (hother : other < 2 ^ d.interpretation.bits) :
    d.sortKey word ≤ d.sortKey other ↔
      if d.scale.lt (.zero false) then
        d.interpretation.integer other ≤ d.interpretation.integer word
      else d.interpretation.integer word ≤ d.interpretation.integer other := by
  have hlt := Interpretation.orderKey_lt hfloat hword
  have hlt' := Interpretation.orderKey_lt hfloat hother
  rw [← Interpretation.orderKey_le_iff hfloat hword hother,
    ← Interpretation.orderKey_le_iff hfloat hother hword]
  unfold sortKey Interpretation.mask
  dsimp only
  rw [hfloat, Nat.mod_eq_of_lt hlt, Nat.mod_eq_of_lt hlt']
  simp only [Bool.false_eq_true, if_false]
  split
  · omega
  · rfl

/-! ## Values -/

theorem value_of_float (hfloat : d.interpretation.isFloat = true) (word : Nat) :
    d.value word = d.interpretation.float word := by
  rw [value, if_pos hfloat]

theorem value_of_integer (hfloat : d.interpretation.isFloat = false) (word : Nat) :
    d.value word = Binary64.ofInt (d.interpretation.integer word) * d.scale + d.offset := by
  rw [value, hfloat, if_neg Bool.false_ne_true, Interpretation.number, hfloat,
    if_neg Bool.false_ne_true]

/-- The number of an integer word is finite. -/
theorem isFinite_number (hfloat : d.interpretation.isFloat = false)
    (hword : word < 2 ^ d.interpretation.bits) :
    (Binary64.ofInt (d.interpretation.integer word)).isFinite = true :=
  Binary64.isFinite_ofInt (Interpretation.natAbs_integer_le hfloat hword)

/-- The value of an integer word is a number, infinite at worst. -/
theorem isNaN_value (hd : d.IsScaled) (hfloat : d.interpretation.isFloat = false)
    (hword : word < 2 ^ d.interpretation.bits) : (d.value word).isNaN = false := by
  rw [value_of_integer hfloat]
  exact Binary64.isNaN_add (Binary64.isNaN_mul (isFinite_number hfloat hword) hd.scale) hd.offset

/-- Values do not fall while integers rise, or do not rise if the scale is negative. -/
theorem place_value_mono (hd : d.IsScaled) (hfloat : d.interpretation.isFloat = false)
    (hword : word < 2 ^ d.interpretation.bits) (hother : other < 2 ^ d.interpretation.bits)
    (h : if d.scale.lt (.zero false) then
        d.interpretation.integer other ≤ d.interpretation.integer word
      else d.interpretation.integer word ≤ d.interpretation.integer other) :
    (d.value word).place ≤ (d.value other).place := by
  have hfinite := isFinite_number hfloat hword
  have hfinite' := isFinite_number hfloat hother
  rw [value_of_integer hfloat, value_of_integer hfloat]
  refine Binary64.place_add_mono (Binary64.isNaN_mul hfinite hd.scale)
    (Binary64.isNaN_mul hfinite' hd.scale) hd.offset ?_
  split at h
  · -- a negative scale turns the order around
    rename_i hnegative
    exact Binary64.place_mul_anti hfinite' hfinite hd.scale
      (Binary64.signedUnits_nonpos_of_lt hd.scale hnegative) (Binary64.place_ofInt_mono h)
  · rename_i hnegative
    exact Binary64.place_mul_mono hfinite hfinite' hd.scale
      (Binary64.signedUnits_nonneg_of_not_lt hd.scale hnegative) (Binary64.place_ofInt_mono h)

/-- Values do not fall while keys rise. -/
theorem le_value_of_sortKey_le (hd : d.IsScaled) (hword : word < 2 ^ d.interpretation.bits)
    (hother : other < 2 ^ d.interpretation.bits) (hnan : (d.value word).isNaN = false)
    (hnan' : (d.value other).isNaN = false) (h : d.sortKey word ≤ d.sortKey other) :
    (d.value word).le (d.value other) = true := by
  have hplace : (d.value word).place ≤ (d.value other).place := by
    by_cases hfloat : d.interpretation.isFloat = true
    · rw [value_of_float hfloat] at hnan hnan'
      rw [value_of_float hfloat, value_of_float hfloat]
      exact (Interpretation.place_float_le_iff hfloat hword hother hnan hnan').mpr
        ((sortKey_le_iff_of_float hfloat hword hother).mp h)
    · have hinteger : d.interpretation.isFloat = false := by simpa using hfloat
      exact place_value_mono hd hinteger hword hother
        ((sortKey_le_iff_of_integer hinteger hword hother).mp h)
  simp only [Binary64.le, hnan, hnan', hplace, decide_true, Bool.not_false, Bool.and_self]

/-- Floating values that compare as equal share a key. -/
theorem sortKey_eq_of_equals (hfloat : d.interpretation.isFloat = true)
    (hword : word < 2 ^ d.interpretation.bits) (hother : other < 2 ^ d.interpretation.bits)
    (h : (d.value word).equals (d.value other) = true) : d.sortKey word = d.sortKey other := by
  rw [value_of_float hfloat, value_of_float hfloat] at h
  simp only [Binary64.equals, Bool.and_eq_true, Bool.not_eq_true', decide_eq_true_eq] at h
  obtain ⟨⟨hnan, hnan'⟩, hplace⟩ := h
  have hle :=
    (Interpretation.place_float_le_iff hfloat hword hother hnan hnan').mp (le_of_eq hplace)
  have hge := (Interpretation.place_float_le_iff hfloat hother hword hnan' hnan).mp
    (le_of_eq hplace.symm)
  exact le_antisymm ((sortKey_le_iff_of_float hfloat hword hother).mpr hle)
    ((sortKey_le_iff_of_float hfloat hother hword).mpr hge)

end Dimension

end PointCloud
