import Mathlib
import PointCloud.Proofs.Dimension.Range
import PointCloud.Proofs.Schema.Alike

/-!
# Encoding what was decoded

A word is decoded to a value and the value encoded again. Floating words of eight bytes come back
bit for bit, and those of four bytes unless they are NaNs. An integer comes back if what rounding
has done to it adds up to less than a half. Decoding rounds twice, and encoding twice more; each
time the error is relative, to the integer or to the offset in steps of the scale. So the integer
comes back as long as four times itself and the offset stay below the precision of a value. If scale
and offset do nothing, no rounding takes place up to `2 ^ 53`.

Main results:

* `Dimension.abs_sub_lt_half` — the four errors together;
* `Dimension.unscaled?_value_of_precise` — an integer within the precision is found again;
* `Dimension.unscaled?_value_of_plain` — so is one that is not scaled, up to `2 ^ 53`;
* `Dimension.word_eq_of_float32`, `Dimension.word?_of_float64` — floating words;
* `Dimension.Recovers.word_eq` — all of these together.
-/

namespace PointCloud

open BinaryFormat (binary64)

/-! ## Values that are not changed -/

namespace Binary64

variable {x y z : Binary64}

theorem place_add_of_isZero (hx : x.isFinite) (hz : z.isZero) : (x + z).place = x.place := by
  rw [place_add hx (isFinite_of_isZero hz), signedUnits_of_isZero hz, add_zero,
    nearestPlace_signedUnits hx]

theorem place_sub_of_isZero (hx : x.isFinite) (hz : z.isZero) : (x - z).place = x.place := by
  rw [place_sub hx (isFinite_of_isZero hz), signedUnits_of_isZero hz, sub_zero,
    nearestPlace_signedUnits hx]

theorem signedUnits_one : one.signedUnits = unitsPerOne := by decide +kernel

theorem units_one : one.units = unitsPerOne := by decide +kernel

theorem nearestPlace_mul_self (num : Int) :
    nearestPlace (num * unitsPerOne) unitsPerOne = nearestPlace num 1 := by
  have hne : (unitsPerOne : ℚ) ≠ 0 := ne_of_gt unitsPerOne_cast_pos
  have heq : ((num * unitsPerOne : Int) : ℚ) / unitsPerOne = (num : ℚ) / (1 : Nat) := by
    rw [Int.cast_mul, Int.cast_natCast, mul_div_cancel_right₀ _ hne, Nat.cast_one, div_one]
  exact le_antisymm (nearestPlace_mono unitsPerOne_pos Nat.one_pos (le_of_eq heq))
    (nearestPlace_mono Nat.one_pos unitsPerOne_pos (le_of_eq heq.symm))

theorem place_mul_one (hx : x.isFinite) : (x * one).place = x.place := by
  rw [place_mul hx rfl, signedUnits_one, nearestPlace_mul_self, nearestPlace_signedUnits hx]

theorem place_div_one (hx : x.isFinite) : (x / one).place = x.place := by
  have hplace := place_div hx (y := one) rfl rfl
  rw [units_one] at hplace
  rw [hplace, if_neg (by decide), nearestPlace_mul_self, nearestPlace_signedUnits hx]

theorem isFinite_of_place (h : x.place = y.place) (hy : y.isFinite) : x.isFinite := by
  rw [isFinite_iff, ← natAbs_place, h, natAbs_place]
  exact isFinite_iff.mp hy

theorem toRat_of_place (hx : x.isFinite) (hy : y.isFinite) (h : x.place = y.place) :
    x.toRat = y.toRat := by
  have hle := (place_le_place_iff hx hy).mp (le_of_eq h)
  have hge := (place_le_place_iff hy hx).mp (le_of_eq h.symm)
  rw [toRat, toRat, le_antisymm hle hge]

end Binary64

namespace Interpretation

variable {t : Interpretation} {word : Nat}

/-- An integer of a word has that word. -/
theorem ofInteger_integer (hfloat : t.isFloat = false) (hword : word < 2 ^ t.bits) :
    t.ofInteger (t.integer word) = word := by
  have hpow : ((2 : Int) ^ t.bits) = (2 ^ t.bits : Nat) := by push_cast; rfl
  have hmod : (word : Int) % (2 ^ t.bits : Nat) = word := by
    exact_mod_cast Nat.mod_eq_of_lt hword
  unfold ofInteger integer
  rw [hfloat, if_neg Bool.false_ne_true, hpow]
  split
  · rw [Int.bmod_emod, hmod, Int.toNat_natCast]
  · rw [hmod, Int.toNat_natCast]

end Interpretation

namespace Dimension

variable {d e : Dimension} {word result : Nat}

/-! ## Integers -/

/-- The four errors together. The integer `n` is scaled to `a` and moved to `v`, and the value moved
back to `b` and unscaled to `r`. -/
theorem abs_sub_lt_half {n scale offset a v b r : ℚ} (hscale : scale ≠ 0)
    (ha : |a - n * scale| ≤ |n * scale| / 2 ^ 53)
    (hv : |v - (a + offset)| ≤ |a + offset| / 2 ^ 53)
    (hb : |b - (v - offset)| ≤ |v - offset| / 2 ^ 53)
    (hr : |r - b / scale| ≤ |b / scale| / 2 ^ 53 + 1 / 2 ^ 60)
    (h : 4 * |n| + |offset / scale| + 2 ≤ 2 ^ 52) : |r - n| < 1 / 2 := by
  have hpos : 0 < |scale| := abs_pos.mpr hscale
  -- Everything is measured in steps of the scale.
  have hsteps : ∀ {x y : ℚ}, |x - y| ≤ |y| / 2 ^ 53 →
      |x / scale - y / scale| ≤ |y / scale| / 2 ^ 53 := by
    intro x y hxy
    rw [← sub_div, abs_div, abs_div, div_right_comm]
    exact div_le_div_of_nonneg_right hxy (le_of_lt hpos)
  have ha' := hsteps ha
  have hv' := hsteps hv
  have hb' := hsteps hb
  rw [mul_div_cancel_right₀ _ hscale] at ha'
  rw [add_div] at hv'
  rw [sub_div] at hb'
  generalize a / scale = a' at *
  generalize v / scale = v' at *
  generalize b / scale = b' at *
  generalize offset / scale = o at *
  -- How far each result is from the integer, and how great it can be.
  have hscaled := abs_sub_abs_le_abs_sub a' n
  have hsum := abs_add_le a' o
  have hmoved : |v' - o - n| ≤ |v' - (a' + o)| + |a' - n| := by
    have htriangle := abs_sub_le v' (a' + o) (n + o)
    rwa [add_sub_add_right_eq_sub, add_comm n o, ← sub_sub] at htriangle
  have hback := abs_sub_abs_le_abs_sub (v' - o) n
  have hunscaled := abs_sub_le b' (v' - o) n
  have hsize := abs_sub_abs_le_abs_sub b' n
  have hlast := abs_sub_le r b' n
  have hn := abs_nonneg n
  have ho := abs_nonneg o
  linarith

/-- The integer nearest to a value, once offset and scale are taken off. -/
def unscaled? (d : Dimension) (value : Binary64) : Option Int :=
  ((value - d.offset) / d.scale).nearestInt?

/-- An integer is found again if rounding leaves it within its half. -/
theorem unscaled?_value_of_precise {m : Int} (hd : d.IsScaled) (he : e.IsScaled)
    (h : d.SameNumbers e) (hfloat : e.interpretation.isFloat = false)
    (hword : word < 2 ^ e.interpretation.bits)
    (hprecise : 4 * |(e.interpretation.integer word : ℚ)| +
      |e.offset.toRat / e.scale.toRat| + 2 ≤ 2 ^ 52)
    (hm : d.unscaled? (e.value word) = some m) : m = e.interpretation.integer word := by
  have hnumber := isFinite_number hfloat hword
  have hscale := h.scale_eq hd.scale_ne
  have hoffset := Binary64.toRat_eq_of_equals h.offset
  rw [value_of_integer hfloat] at hm
  unfold unscaled? at hm
  generalize e.interpretation.integer word = n at *
  rw [hscale] at hm
  -- The result is finite, so everything on the way to it was.
  have hr := Binary64.isFinite_of_nearestInt? hm
  have hb := Binary64.isFinite_of_div hr he.scale
  have hv := Binary64.isFinite_of_sub hb hd.offset
  have ha := Binary64.isFinite_of_add hv he.offset
  have hexact : (Binary64.ofInt n).toRat = n := by
    refine Binary64.toRat_ofInt ?_
    have hn : |(n : ℚ)| ≤ 2 ^ 53 := by
      have := abs_nonneg (e.offset.toRat / e.scale.toRat)
      linarith
    have hcast : ((n.natAbs : Nat) : ℚ) ≤ (2 ^ 53 : Nat) := by
      rw [Nat.cast_natAbs, Int.cast_abs]
      push_cast
      exact hn
    exact_mod_cast hcast
  have herror := abs_sub_lt_half (Binary64.toRat_ne_zero he.scale he.turns)
    (Binary64.abs_toRat_mul_sub_le hnumber hexact he.scale ha)
    (Binary64.abs_toRat_add_sub_le ha he.offset hv)
    (by rw [← hoffset]; exact Binary64.abs_toRat_sub_sub_le hv hd.offset hb)
    (Binary64.abs_toRat_div_sub_le hb he.scale he.turns hr) hprecise
  have hnearest := Binary64.nearestInt?_eq_some hr herror
  rw [hnearest] at hm
  exact (Option.some.inj hm).symm

/-- An integer that is not scaled, nor moved, is found again as long as it is a value. -/
theorem unscaled?_value_of_plain {m : Int} (hd : d.IsScaled) (h : d.SameNumbers e)
    (hfloat : e.interpretation.isFloat = false) (hword : word < 2 ^ e.interpretation.bits)
    (hscale : e.scale = .one) (hoffset : e.offset.isZero)
    (hsmall : (e.interpretation.integer word).natAbs ≤ 2 ^ 53)
    (hm : d.unscaled? (e.value word) = some m) : m = e.interpretation.integer word := by
  have hnumber := isFinite_number hfloat hword
  have hexact := Binary64.toRat_ofInt hsmall
  have hscale' : d.scale = .one := (h.scale_eq hd.scale_ne).trans hscale
  have hoffset' : d.offset.isZero := by
    rcases Binary64.eq_or_isZero_of_equals h.offset with heq | ⟨hzero, -⟩
    · rwa [heq]
    · exact hzero
  rw [value_of_integer hfloat] at hm
  unfold unscaled? at hm
  generalize e.interpretation.integer word = n at *
  rw [hscale, hscale'] at hm
  -- No operation leaves the place of the integer.
  have ha := Binary64.place_mul_one hnumber
  have hfa := Binary64.isFinite_of_place ha hnumber
  have hv := Binary64.place_add_of_isZero hfa hoffset
  have hfv := Binary64.isFinite_of_place hv hfa
  have hb := Binary64.place_sub_of_isZero hfv hoffset'
  have hfb := Binary64.isFinite_of_place hb hfv
  have hr := Binary64.place_div_one hfb
  have hfr := Binary64.isFinite_of_place hr hfb
  have htoRat := Binary64.toRat_of_place hfr hnumber (((hr.trans hb).trans hv).trans ha)
  have hnearest := Binary64.nearestInt?_eq_some (n := n) hfr (by
    rw [htoRat, hexact, sub_self, abs_zero]
    norm_num)
  rw [hnearest] at hm
  exact (Option.some.inj hm).symm

/-! ## Words -/

/-- The word of an integer type is that of the unscaled integer, if there is one. -/
theorem exists_unscaled_of_word? {value : Binary64} (hfloat : d.interpretation.isFloat = false)
    (h : d.word? value = some result) :
    ∃ m, d.unscaled? value = some m ∧ result = d.interpretation.ofInteger m := by
  have hinteger : d.interpretation.isInteger = true := by
    rw [Interpretation.isInteger, hfloat, Bool.not_false]
  obtain ⟨lo, hi, hrange⟩ := Interpretation.exists_range? hinteger
  obtain ⟨n, hn, -, -, hresult⟩ := (word?_eq_some_iff hrange).mp h
  obtain ⟨m, hm⟩ := Binary64.exists_nearestInt? (x := (value - d.offset) / d.scale) (by
    rw [← Binary64.isFinite_toWhole]
    exact hn.1)
  -- Rounding before the number is read off makes no difference.
  have hsame : (n : ℚ) = m := hn.2.symm.trans (Binary64.isWhole_toWhole hm).2
  obtain rfl : n = m := by exact_mod_cast hsame
  exact ⟨n, hm, hresult.symm⟩

/-- An integer that is found again has its word. -/
theorem word_eq_of_unscaled (h : d.SameNumbers e) (hfloat : e.interpretation.isFloat = false)
    (hword : word < 2 ^ e.interpretation.bits)
    (hinteger : ∀ m, d.unscaled? (e.value word) = some m → m = e.interpretation.integer word)
    (hresult : d.word? (e.value word) = some result) : result = word := by
  obtain ⟨m, hm, rfl⟩ := exists_unscaled_of_word? (by rw [h.interpretation]; exact hfloat) hresult
  rw [hinteger m hm, h.interpretation, Interpretation.ofInteger_integer hfloat hword]

theorem word?_of_float64 (h : d.SameNumbers e) (ht : e.interpretation = .float64)
    (hword : word < 2 ^ 64) : d.word? (e.value word) = some word := by
  have hvalue : e.value word = Binary64.ofWord word := by
    rw [value_of_float (by rw [ht]; rfl), ht]
    rfl
  unfold word?
  rw [h.interpretation, ht, hvalue]
  dsimp only
  rw [Binary64.toWord_ofWord, Nat.mod_eq_of_lt hword]

/-- Floating words of four bytes are kept, apart from NaNs, which stay NaNs. -/
theorem word_eq_of_float32 (h : d.SameNumbers e) (ht : e.interpretation = .float32)
    (hword : word < 2 ^ 32) (hresult : d.word? (e.value word) = some result) :
    ((e.value word).isNaN = false → result = word) ∧
      ((e.value word).isNaN = true → (d.value result).isNaN = true) := by
  have ht' : d.interpretation = .float32 := h.interpretation.trans ht
  have hvalue : e.value word = Binary64.ofBinary32 word := by
    rw [value_of_float (by rw [ht]; rfl), ht]
    rfl
  rw [exists_toBinary32_of_word? ht' hresult, hvalue]
  constructor
  · intro hnan
    rw [Binary64.isNaN_ofBinary32, decide_eq_false_iff_not, not_lt] at hnan
    exact Binary64.toBinary32_ofBinary32 hword hnan
  · intro hnan
    have hquiet : (Binary64.ofBinary32 word).toBinary32 = 0x7fc00000 := by
      rw [Binary64.toBinary32, if_pos hnan]
    rw [hquiet, value_of_float (by rw [ht']; rfl), ht']
    show (Binary64.ofBinary32 0x7fc00000).isNaN = true
    rw [Binary64.isNaN_ofBinary32]
    decide

/-- A value is encoded as a word of the type. -/
theorem lt_of_word? {value : Binary64} (h : d.word? value = some result) :
    result < 2 ^ d.interpretation.bits := by
  by_cases hfloat : d.interpretation.isFloat = true
  -- a pattern of four bytes or of eight
  · cases ht : d.interpretation with
    | float32 =>
      rw [exists_toBinary32_of_word? ht h]
      exact value.toBinary32_lt
    | float64 =>
      unfold word? at h
      rw [ht] at h
      obtain rfl := Option.some.inj h
      exact value.toWord_lt
    | _ =>
      rw [ht] at hfloat
      cases hfloat
  -- the low bits of an integer
  · rw [Bool.not_eq_true] at hfloat
    obtain ⟨m, -, rfl⟩ := exists_unscaled_of_word? hfloat h
    exact Interpretation.ofInteger_lt m

/-- The words that are found again when their values are encoded. -/
inductive Recovers (d : Dimension) (word : Nat) : Prop
  | float64 (h : d.interpretation = .float64)
  | float32 (h : d.interpretation = .float32) (hnan : (d.value word).isNaN = false)
  /-- Four times the integer and the offset, in steps of the scale, stay below the precision. -/
  | precise (hfloat : d.interpretation.isFloat = false)
      (h : 4 * |(d.interpretation.integer word : ℚ)| +
        |d.offset.toRat / d.scale.toRat| + 2 ≤ 2 ^ 52)
  /-- An integer that is not scaled, nor moved, is itself a value. -/
  | plain (hfloat : d.interpretation.isFloat = false) (hscale : d.scale = .one)
      (hoffset : d.offset.isZero) (h : (d.interpretation.integer word).natAbs ≤ 2 ^ 53)

/-- Encoding the value of such a word gives it back, in every dimension of the same numbers. -/
theorem Recovers.word_eq (hrecovers : e.Recovers word) (hd : d.IsScaled) (he : e.IsScaled)
    (h : d.SameNumbers e) (hword : word < 2 ^ e.interpretation.bits)
    (hresult : d.word? (e.value word) = some result) : result = word := by
  cases hrecovers with
  | float64 ht =>
    rw [word?_of_float64 h ht (by rwa [ht] at hword)] at hresult
    exact (Option.some.inj hresult).symm
  | float32 ht hnan => exact (word_eq_of_float32 h ht (by rwa [ht] at hword) hresult).1 hnan
  | precise hfloat hprecise =>
    refine word_eq_of_unscaled h hfloat hword ?_ hresult
    exact fun m hm => unscaled?_value_of_precise hd he h hfloat hword hprecise hm
  | plain hfloat hscale hoffset hsmall =>
    refine word_eq_of_unscaled h hfloat hword ?_ hresult
    exact fun m hm => unscaled?_value_of_plain hd h hfloat hword hscale hoffset hsmall hm

/-- What is not a number does not become one. -/
theorem isNaN_value_of_word? (he : e.IsScaled) (h : d.SameNumbers e)
    (hword : word < 2 ^ e.interpretation.bits) (hnan : (e.value word).isNaN = true)
    (hresult : d.word? (e.value word) = some result) : (d.value result).isNaN = true := by
  by_cases hfloat : e.interpretation.isFloat = true
  · cases ht : e.interpretation with
    | float32 => exact (word_eq_of_float32 h ht (by rwa [ht] at hword) hresult).2 hnan
    | float64 =>
      rw [word?_of_float64 h ht (by rwa [ht] at hword)] at hresult
      obtain rfl := Option.some.inj hresult
      rw [value_of_float hfloat] at hnan
      rwa [value_of_float (by rw [h.interpretation]; exact hfloat), h.interpretation]
    | _ =>
      rw [ht] at hfloat
      cases hfloat
  · -- Integers have no NaNs.
    rw [Bool.not_eq_true] at hfloat
    rw [isNaN_value he hfloat hword] at hnan
    cases hnan

end Dimension

end PointCloud
