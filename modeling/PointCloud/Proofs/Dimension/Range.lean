import Mathlib
import PointCloud.Proofs.Binary64.Whole
import PointCloud.Proofs.Dimension.Keys

/-!
# Values in range

A value is encoded if the type has a word for it, and refused otherwise; it is never wrapped round.
For an integer type the value is unscaled and rounded to a whole number, which is one of the type's
integers or is not. The ends of the widest types are not values: the last integer of eight bytes
rounds to the one after it. So a whole number that is not above the rounded end may still be above
the end, and only the comparison of integers tells. For the floating type of four bytes, finite
values are refused above the greatest finite word.

Main results:

* `Interpretation.integerOf?_of_isWhole` — the integers of a type, one by one;
* `Interpretation.integer_ofInteger` — the word of such an integer stands for it;
* `Dimension.word?_eq_some_iff` — when a value has a word of an integer type, and which;
* `Dimension.word?_eq_none_iff_of_float32` — when it has none of four bytes;
* `Dimension.word_ok_iff_in_range` — all of these together.
-/

namespace PointCloud

open BinaryFormat (binary64)

namespace Interpretation

variable {t : Interpretation} {x : Binary64} {lo hi n : Int}

theorem exists_range? (h : t.isInteger = true) : ∃ lo hi, t.range? = some (lo, hi) := by
  unfold isInteger at h
  rw [Bool.not_eq_true'] at h
  unfold range?
  rw [h, if_neg Bool.false_ne_true]
  split
  · exact ⟨_, _, rfl⟩
  · exact ⟨_, _, rfl⟩

theorem isFloat_of_range? (h : t.range? = some (lo, hi)) : t.isFloat = false := by
  unfold range? at h
  split at h
  · cases h
  · rwa [Bool.not_eq_true] at *

/-- No integer is cut off before it is held against the ends of its type. -/
theorem truncationRange_of_range? (h : t.range? = some (lo, hi)) :
    truncationRange.1 < lo ∧ hi < truncationRange.2 := by
  cases t <;> first
    | (obtain ⟨rfl, rfl⟩ := Prod.mk.inj (Option.some.inj h); decide)
    | cases h

/-- The integers of a type are those between its ends. Where the value is not held to be outside the
rounded ends, it is held against the ends themselves. -/
theorem integerOf?_of_isWhole (h : t.range? = some (lo, hi)) (hx : x.IsWhole n) :
    t.integerOf? x = if lo ≤ n ∧ n ≤ hi then some n else none := by
  obtain ⟨hlo, hhi⟩ := truncationRange_of_range? h
  unfold integerOf?
  rw [h]
  dsimp only
  rw [hx.1, Binary64.truncate_of_isWhole hx, Bool.not_true, if_neg Bool.false_ne_true]
  split
  · rename_i hout
    have hends : n < lo ∨ hi < n := by
      rcases Bool.or_eq_true _ _ |>.mp hout with hbelow | habove
      · exact .inl (Binary64.lt_of_lt_ofInt hx hbelow)
      · exact .inr (Binary64.lt_of_ofInt_lt hx habove)
    rw [if_neg (by omega)]
  · by_cases hin : lo ≤ n ∧ n ≤ hi
    · have hsame : max truncationRange.1 (min truncationRange.2 n) = n := by omega
      rw [hsame, if_neg (by omega), if_pos hin]
    · -- Cut off or not, what is outside the type stays outside.
      rw [if_pos (by omega), if_neg hin]

theorem integerOf?_of_not_isFinite (hx : x.isFinite = false) : t.integerOf? x = none := by
  unfold integerOf?
  split
  · rfl
  · rw [hx, Bool.not_false, if_pos rfl]

theorem ofInteger_lt (n : Int) : t.ofInteger n < 2 ^ t.bits := by
  have hpos : (0 : Int) < 2 ^ t.bits := Int.pow_pos (by decide)
  have hlt := Int.emod_lt_of_pos n hpos
  have hnonneg := Int.emod_nonneg n (ne_of_gt hpos)
  zify
  unfold ofInteger
  rwa [Int.toNat_of_nonneg hnonneg]

/-- The word of an integer of the type stands for it. -/
theorem integer_ofInteger (h : t.range? = some (lo, hi)) (hlo : lo ≤ n) (hhi : n ≤ hi) :
    t.integer (t.ofInteger n) = n := by
  have hfloat := isFloat_of_range? h
  have hpos : (0 : Int) < 2 ^ t.bits := Int.pow_pos (by decide)
  have hword : (t.ofInteger n : Int) = n % 2 ^ t.bits :=
    Int.toNat_of_nonneg (Int.emod_nonneg n (ne_of_gt hpos))
  have hbits : (2 : Int) ^ t.bits = 2 * 2 ^ (t.bits - 1) := by
    rw [← pow_succ', Nat.sub_add_cancel (by cases t <;> decide)]
  unfold range? at h
  rw [hfloat, if_neg Bool.false_ne_true] at h
  unfold integer
  rw [hfloat, if_neg Bool.false_ne_true, hword]
  split at h <;> rename_i hsigned <;> obtain ⟨rfl, rfl⟩ := Prod.mk.inj (Option.some.inj h)
  · -- a signed type: the number that the low bits stand for, between the halves
    have hcast : ((2 ^ t.bits : Nat) : Int) = 2 ^ t.bits := by push_cast; rfl
    rw [if_pos hsigned, ← hcast, Int.emod_bmod]
    apply Int.bmod_eq_of_le_mul_two <;> omega
  · rw [if_neg hsigned, Int.emod_eq_of_lt hlo (by omega)]

end Interpretation

namespace Binary64

variable {x : Binary64}

/-- The greatest finite value of four bytes, in units. -/
theorem units_greatestBinary32_eq :
    greatestBinary32.units = (2 ^ 24 - 1) * 2 ^ 104 * unitsPerOne := by decide +kernel

theorem signedUnits_greatestBinary32 :
    greatestBinary32.signedUnits = greatestBinary32.units := by decide +kernel

-- Proofs about numbers do not look at how many units make one.
attribute [local irreducible] unitsPerOne

theorem cast_units_greatestBinary32 :
    (greatestBinary32.units : ℚ) = (2 ^ 24 - 1) * 2 ^ 104 * unitsPerOne := by
  rw [units_greatestBinary32_eq, Nat.cast_mul]
  congr 1
  norm_num

theorem toRat_greatestBinary32 : greatestBinary32.toRat = (2 ^ 24 - 1) * 2 ^ 104 := by
  rw [toRat, signedUnits_greatestBinary32, Int.cast_natCast, cast_units_greatestBinary32,
    mul_div_cancel_right₀ _ (ne_of_gt unitsPerOne_cast_pos)]

theorem toRat_abs (x : Binary64) : x.abs.toRat = |x.toRat| := by
  have hsigned : x.abs.signedUnits = x.units := if_neg Bool.false_ne_true
  rw [abs_toRat, toRat, hsigned, Int.cast_natCast]

/-- A value that is not above the greatest finite value of four bytes has no more units. -/
theorem units_le_greatestBinary32 (h : |x.toRat| ≤ (2 ^ 24 - 1) * 2 ^ 104) :
    x.units ≤ greatestBinary32.units := by
  rw [abs_toRat, div_le_iff₀ unitsPerOne_cast_pos, ← cast_units_greatestBinary32] at h
  exact_mod_cast h

end Binary64

namespace Dimension

variable {d : Dimension} {value : Binary64} {word : Nat} {lo hi n : Int}

theorem word_eq_ok_iff : d.word value = .ok word ↔ d.word? value = some word := by
  unfold Dimension.word
  cases d.word? value <;> simp

theorem word_eq_error_iff :
    d.word value = .error (.valueOutOfRange d.name value d.interpretation) ↔
      d.word? value = none := by
  unfold Dimension.word
  cases d.word? value <;> simp

/-! ## Integers -/

theorem word?_of_integer (h : d.interpretation.isFloat = false) :
    d.word? value =
      (d.interpretation.integerOf? (d.unscaled value)).map d.interpretation.ofInteger := by
  unfold word?
  split
  · rename_i ht
    rw [ht] at h
    cases h
  · rename_i ht
    rw [ht] at h
    cases h
  · rfl

/-- What is rounded is the quotient, to the nearest whole number, unless it is not finite. -/
theorem exists_isNearestWhole_unscaled (h : ((value - d.offset) / d.scale).isFinite = true) :
    ∃ n, (d.unscaled value).IsWhole n ∧
      IsNearestWhole ((value - d.offset) / d.scale).toRat n := by
  obtain ⟨n, hn⟩ := Binary64.exists_nearestInt? h
  exact ⟨n, Binary64.isWhole_toWhole hn, Binary64.isNearestWhole_of_nearestInt? hn⟩

/-- A rounded value is an integer, if it is finite. -/
theorem exists_isWhole_unscaled (h : (d.unscaled value).isFinite = true) :
    ∃ n, (d.unscaled value).IsWhole n := by
  rw [unscaled, Binary64.isFinite_toWhole] at h
  obtain ⟨n, hn, -⟩ := exists_isNearestWhole_unscaled h
  exact ⟨n, hn⟩

/-- A value has a word of an integer type if it is unscaled to one of the type's integers, and then
the word of that. -/
theorem word?_eq_some_iff (h : d.interpretation.range? = some (lo, hi)) :
    d.word? value = some word ↔
      ∃ n, (d.unscaled value).IsWhole n ∧ lo ≤ n ∧ n ≤ hi ∧
        d.interpretation.ofInteger n = word := by
  rw [word?_of_integer (Interpretation.isFloat_of_range? h), Option.map_eq_some_iff]
  constructor
  · rintro ⟨n, hn, hword⟩
    -- What is not finite is no integer of any type.
    have hfinite : (d.unscaled value).isFinite = true := by
      by_contra hnot
      rw [Bool.not_eq_true] at hnot
      rw [Interpretation.integerOf?_of_not_isFinite hnot] at hn
      cases hn
    obtain ⟨m, hm⟩ := exists_isWhole_unscaled hfinite
    rw [Interpretation.integerOf?_of_isWhole h hm] at hn
    split at hn
    · rename_i hin
      obtain rfl := Option.some.inj hn
      exact ⟨m, hm, hin.1, hin.2, hword⟩
    · cases hn
  · rintro ⟨n, hn, hlo, hhi, hword⟩
    exact ⟨n, by rw [Interpretation.integerOf?_of_isWhole h hn, if_pos ⟨hlo, hhi⟩], hword⟩

theorem exists_word_iff (h : d.interpretation.range? = some (lo, hi)) :
    (∃ w, d.word value = .ok w) ↔ ∃ n, (d.unscaled value).IsWhole n ∧ lo ≤ n ∧ n ≤ hi := by
  constructor
  · rintro ⟨w, hw⟩
    obtain ⟨n, hn, hlo, hhi, -⟩ := (word?_eq_some_iff h).mp (word_eq_ok_iff.mp hw)
    exact ⟨n, hn, hlo, hhi⟩
  · rintro ⟨n, hn, hlo, hhi⟩
    exact ⟨_, word_eq_ok_iff.mpr ((word?_eq_some_iff h).mpr ⟨n, hn, hlo, hhi, rfl⟩)⟩

/-- The word of a value stands for the integer that the value is unscaled to. -/
theorem isWhole_integer_of_word (h : d.interpretation.range? = some (lo, hi))
    (hword : d.word value = .ok word) :
    word < 2 ^ d.interpretation.bits ∧
      (d.unscaled value).IsWhole (d.interpretation.integer word) := by
  obtain ⟨n, hn, hlo, hhi, rfl⟩ := (word?_eq_some_iff h).mp (word_eq_ok_iff.mp hword)
  rw [Interpretation.integer_ofInteger h hlo hhi]
  exact ⟨Interpretation.ofInteger_lt n, hn⟩

/-- What is unscaled to none of the type's integers is refused. -/
theorem word_eq_error_of_not_isWhole (h : d.interpretation.range? = some (lo, hi))
    (hnone : ¬∃ n, (d.unscaled value).IsWhole n ∧ lo ≤ n ∧ n ≤ hi) :
    d.word value = .error (.valueOutOfRange d.name value d.interpretation) := by
  rw [← exists_word_iff h] at hnone
  refine word_eq_error_iff.mpr (Option.eq_none_iff_forall_ne_some.mpr ?_)
  intro w hw
  exact hnone ⟨w, word_eq_ok_iff.mpr hw⟩

/-! ## Floating values of four bytes -/

theorem word?_of_float32 (h : d.interpretation = .float32) :
    d.word? value = if value.isFinite && Binary64.greatestBinary32.lt value.abs then none
      else some value.toBinary32 := by
  unfold word?
  rw [h]

theorem exists_toBinary32_of_word? (ht : d.interpretation = .float32)
    (h : d.word? value = some word) : word = value.toBinary32 := by
  rw [word?_of_float32 ht] at h
  split at h
  · cases h
  · exact (Option.some.inj h).symm

/-- Finite values above the greatest finite word have none. -/
theorem word?_eq_none_iff_of_float32 (h : d.interpretation = .float32) :
    d.word? value = none ↔
      value.isFinite = true ∧ ((2 ^ 24 - 1) * 2 ^ 104 : ℚ) < |value.toRat| := by
  have hgreatest : Binary64.greatestBinary32.isFinite = true := by decide +kernel
  rw [word?_of_float32 h, ite_eq_left_iff, Bool.and_eq_true]
  simp only [reduceCtorEq, imp_false, not_not]
  refine and_congr_right fun hfinite => ?_
  have habs : value.abs.isFinite = true := hfinite
  rw [Binary64.lt_iff_toRat hgreatest habs, Binary64.toRat_abs, Binary64.toRat_greatestBinary32]

/-- What is finite stays so, and what is not does not become so. -/
theorem isFinite_value_of_float32 (ht : d.interpretation = .float32)
    (h : d.word? value = some word) : (d.value word).isFinite = value.isFinite := by
  have hvalue : d.value word = Binary64.ofBinary32 value.toBinary32 := by
    rw [value_of_float (by rw [ht]; rfl), exists_toBinary32_of_word? ht h, ht]
    rfl
  rw [hvalue]
  by_cases hfinite : value.isFinite = true
  · -- A finite value that was not refused is not too great for four bytes.
    have hle : |value.toRat| ≤ (2 ^ 24 - 1) * 2 ^ 104 := by
      by_contra hgt
      have hnone := (word?_eq_none_iff_of_float32 ht).mpr ⟨hfinite, not_le.mp hgt⟩
      rw [hnone] at h
      cases h
    rw [hfinite, Binary64.isFinite_ofBinary32_toBinary32 hfinite
      (Binary64.units_le_greatestBinary32 hle)]
  · rw [Bool.not_eq_true] at hfinite
    rw [hfinite, Binary64.not_isFinite_ofBinary32_toBinary32 hfinite]

/-- What is not refused has a word of four bytes. -/
theorem exists_word_of_float32 (ht : d.interpretation = .float32) (h : d.word? value ≠ none) :
    ∃ w, d.word value = .ok w ∧ w < 2 ^ d.interpretation.bits ∧
      (d.value w).isFinite = value.isFinite := by
  obtain ⟨w, hw⟩ := Option.ne_none_iff_exists'.mp h
  have hlt : w < 2 ^ d.interpretation.bits := by
    rw [exists_toBinary32_of_word? ht hw, ht]
    exact value.toBinary32_lt
  exact ⟨w, word_eq_ok_iff.mpr hw, hlt, isFinite_value_of_float32 ht hw⟩

/-! ## Every value -/

/-- The ends of the widest types round to the integers after them. -/
theorem isWhole_ofInt_last : (Binary64.ofInt (2 ^ 63 - 1)).IsWhole (2 ^ 63) ∧
    (Binary64.ofInt (2 ^ 64 - 1)).IsWhole (2 ^ 64) := by
  rw [Binary64.isWhole_iff, Binary64.isWhole_iff]
  decide +kernel

/-- So the integers after the ends are refused. -/
theorem word_eq_error_of_isWhole (h : d.interpretation.range? = some (lo, hi))
    (hn : (d.unscaled value).IsWhole n) (hout : hi < n) :
    d.word value = .error (.valueOutOfRange d.name value d.interpretation) := by
  refine word_eq_error_of_not_isWhole h ?_
  rintro ⟨m, hm, -, hhi⟩
  rw [Binary64.IsWhole.unique hm hn] at hhi
  omega

/-- Encoding never wraps. The quotient of a value is rounded to the nearest whole number, a half
going away from zero, and stays as it is if it is not finite. An integer type has a word if and only
if the result is one of its integers, and the word is then that integer; otherwise the value is
refused. So the whole numbers that the ends of the widest types round to are refused. The floating
type of four bytes refuses what is finite and greater than its greatest finite value, and nothing
else, so nothing finite becomes infinite. -/
theorem word_ok_iff_in_range (d : Dimension) (value : Binary64) :
    let quotient := (value - d.offset) / d.scale
    let r := d.unscaled value
    let refused := d.word value = .error (.valueOutOfRange d.name value d.interpretation)
    (quotient.isFinite = true → ∃ n, r.IsWhole n ∧ IsNearestWhole quotient.toRat n) ∧
    (quotient.isFinite = false → r = quotient) ∧
    (d.interpretation.isInteger = true → ∃ lo hi, d.interpretation.range? = some (lo, hi) ∧
      ((∃ w, d.word value = .ok w) ↔ ∃ n, r.IsWhole n ∧ lo ≤ n ∧ n ≤ hi) ∧
      (∀ w, d.word value = .ok w →
        w < 2 ^ d.interpretation.bits ∧ r.IsWhole (d.interpretation.integer w)) ∧
      ((¬∃ n, r.IsWhole n ∧ lo ≤ n ∧ n ≤ hi) → refused)) ∧
    ((Binary64.ofInt (2 ^ 63 - 1)).IsWhole (2 ^ 63) ∧
      (d.interpretation = .int64 → r.IsWhole (2 ^ 63) → refused)) ∧
    ((Binary64.ofInt (2 ^ 64 - 1)).IsWhole (2 ^ 64) ∧
      (d.interpretation = .uint64 → r.IsWhole (2 ^ 64) → refused)) ∧
    (d.interpretation = .float32 →
      (refused ↔ value.isFinite = true ∧ ((2 ^ 24 - 1) * 2 ^ 104 : ℚ) < |value.toRat|) ∧
      (¬refused → ∃ w, d.word value = .ok w ∧ w < 2 ^ d.interpretation.bits ∧
        (d.value w).isFinite = value.isFinite)) := by
  intro quotient r refused
  refine ⟨exists_isNearestWhole_unscaled, Binary64.toWhole_of_not_isFinite, ?_,
    ⟨isWhole_ofInt_last.1, ?_⟩, ⟨isWhole_ofInt_last.2, ?_⟩, ?_⟩
  · -- integer types
    intro hinteger
    obtain ⟨lo, hi, hrange⟩ := Interpretation.exists_range? hinteger
    refine ⟨lo, hi, hrange, exists_word_iff hrange, ?_, word_eq_error_of_not_isWhole hrange⟩
    intro w hw
    exact isWhole_integer_of_word hrange hw
  · -- the integer after the last of eight bytes, with a sign
    intro ht hlast
    have hrange : d.interpretation.range? = some (-2 ^ 63, 2 ^ 63 - 1) := by rw [ht]; rfl
    exact word_eq_error_of_isWhole hrange hlast (by decide)
  · -- and without one
    intro ht hlast
    have hrange : d.interpretation.range? = some (0, 2 ^ 64 - 1) := by rw [ht]; rfl
    exact word_eq_error_of_isWhole hrange hlast (by decide)
  · -- the floating type of four bytes
    intro ht
    refine ⟨word_eq_error_iff.trans (word?_eq_none_iff_of_float32 ht), ?_⟩
    intro hnot
    exact exists_word_of_float32 ht fun hnone => hnot (word_eq_error_iff.mpr hnone)

/-- The last integer of eight bytes is refused as a value, for it is the one after it. -/
theorem word_ok_iff_in_range_last :
    let d : Dimension := { name := "T", position := 0, interpretation := .int64 }
    (d.unscaled (.ofInt (2 ^ 63 - 1))).IsWhole (2 ^ 63) ∧
    d.word (.ofInt (2 ^ 63 - 1)) =
      .error (.valueOutOfRange "T" (.ofInt (2 ^ 63 - 1)) .int64) := by
  intro d
  have hwhole : (d.unscaled (.ofInt (2 ^ 63 - 1))).IsWhole (2 ^ 63) := by
    rw [Binary64.isWhole_iff]
    decide +kernel
  obtain ⟨-, -, -, ⟨-, hrefused⟩, -⟩ := word_ok_iff_in_range d (.ofInt (2 ^ 63 - 1))
  exact ⟨hwhole, hrefused rfl hwhole⟩

end Dimension

end PointCloud
