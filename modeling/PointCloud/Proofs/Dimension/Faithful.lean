import Mathlib
import PointCloud.Proofs.Dimension.Encoding
import PointCloud.Proofs.Patch.Indices

/-!
# Sort keys and stored numbers

A sort key says which number a word stores, and nothing else: keys are in the order of the numbers,
or in the opposite order for integers of a negative scale, and no two words share a key unless they
are the two zeros of a floating type. All of it is read off where a key lies: the key of an integer
counts from one end of its type, and that of a floating word is the place of the word, past a gap
between the signs. The places of NaNs are beyond those of the infinities, on the side of their sign.

Main results:

* `Dimension.sortKey_lt_two_pow` — a key is a word of the same size;
* `Dimension.sortKey_lt_iff_of_integer`, `Dimension.sortKey_lt_iff_of_float` — order of keys is
  order of numbers;
* `Dimension.sortKey_of_isNaN` — NaNs lie on the outside;
* `Dimension.sortKey_eq_iff` — which words share a key;
* `Dimension.sortKey_faithful` — all of this, for the dimensions of a schema.
-/

namespace PointCloud

open BinaryFormat (binary32 binary64)

/-! ## Floating words -/

namespace Interpretation

variable {t : Interpretation} {word other : Nat}

/-- The magnitude bits of the infinities of a floating type. -/
def infinity (t : Interpretation) : Nat :=
  match t with
  | float32 => binary32.infinity
  | _ => binary64.infinity

theorem natAbs_wordPlace (hword : word < 2 ^ t.bits) :
    (t.wordPlace word).natAbs = word % t.half := by
  rw [t.two_pow_bits] at hword
  unfold wordPlace
  split
  · rename_i h
    rw [Nat.mod_eq_sub_mod h, Nat.mod_eq_of_lt (by omega)]
    omega
  · rw [Nat.mod_eq_of_lt (by omega)]
    omega

/-- A word is a NaN if its place is beyond the infinities. -/
theorem isNaN_float_iff (hfloat : t.isFloat = true) (hword : word < 2 ^ t.bits) :
    (t.float word).isNaN = true ↔ t.infinity < (t.wordPlace word).natAbs := by
  rw [natAbs_wordPlace hword]
  cases t <;> simp only [isFloat, Bool.false_eq_true] at hfloat
  · -- four bytes
    show (Binary64.ofBinary32 word).isNaN = true ↔ _
    rw [Binary64.isNaN_ofBinary32, decide_eq_true_iff]
    rfl
  · -- eight bytes
    exact decide_eq_true_iff

theorem wordPlace_nonpos (h : t.half ≤ word) : t.wordPlace word ≤ 0 := by
  rw [wordPlace, if_pos h]
  omega

theorem wordPlace_nonneg (h : ¬ t.half ≤ word) : 0 ≤ t.wordPlace word := by
  rw [wordPlace, if_neg h]
  omega

/-- The words of the two zeros of a floating type. -/
def zeros (t : Interpretation) : List Nat := [0, t.half]

/-- One place belongs to one word, or to both zeros. -/
theorem wordPlace_eq_iff : t.wordPlace word = t.wordPlace other ↔
    word = other ∨ word ∈ t.zeros ∧ other ∈ t.zeros := by
  have hpos := t.half_pos
  simp only [zeros, List.mem_cons, List.not_mem_nil, or_false]
  unfold wordPlace
  split <;> split <;> omega

end Interpretation

/-! ## Comparing values -/

namespace Binary64

variable {x y : Binary64}

theorem lt_iff_place (hx : x.isNaN = false) (hy : y.isNaN = false) :
    x.lt y = true ↔ x.place < y.place := by
  simp [lt, hx, hy]

theorem equals_iff_place (hx : x.isNaN = false) (hy : y.isNaN = false) :
    x.equals y = true ↔ x.place = y.place := by
  simp [equals, hx, hy]

/-- A finite value other than a zero is above zero or below it. -/
theorem lt_zero_or_zero_lt (hx : x.isFinite = true) (hzero : x.isZero = false) :
    x.lt (zero false) = true ∨ (zero false).lt x = true := by
  have hnan := isNaN_eq_false hx
  have hne : x.magnitude ≠ 0 := by simpa [isZero] using hzero
  rw [lt_iff_place hnan rfl, lt_iff_place rfl hnan]
  have hplace := natAbs_place x
  show x.place < 0 ∨ 0 < x.place
  omega

theorem not_lt_zero_of_zero_lt (h : (zero false).lt x = true) : ¬ x.lt (zero false) = true := by
  simp only [lt, Bool.and_eq_true, decide_eq_true_eq] at h ⊢
  omega

end Binary64

/-! ## Keys -/

namespace Dimension

variable {d : Dimension} {word other : Nat}

/-- A key is a word of the same size. -/
theorem sortKey_lt_two_pow (hword : word < 2 ^ d.interpretation.bits) :
    d.sortKey word < 2 ^ d.interpretation.bits := by
  by_cases hfloat : d.interpretation.isFloat = true
  · have hkey := sortKey_of_float hfloat hword
    have habs := Interpretation.natAbs_wordPlace hword
    have hmod := Nat.mod_lt word d.interpretation.half_pos
    rw [d.interpretation.two_pow_bits]
    split at hkey <;> omega
  · have hinteger : d.interpretation.isFloat = false := by simpa using hfloat
    have hlt := Interpretation.orderKey_lt hinteger hword
    unfold sortKey Interpretation.mask
    dsimp only
    rw [hinteger, Nat.mod_eq_of_lt hlt]
    simp only [Bool.false_eq_true, if_false]
    split <;> omega

/-- Order of keys is order of integers, turned around if the scale is negative. -/
theorem sortKey_lt_iff_of_integer (hfloat : d.interpretation.isFloat = false)
    (hword : word < 2 ^ d.interpretation.bits) (hother : other < 2 ^ d.interpretation.bits) :
    d.sortKey word < d.sortKey other ↔
      if d.scale.lt (.zero false) then
        d.interpretation.integer other < d.interpretation.integer word
      else d.interpretation.integer word < d.interpretation.integer other := by
  rw [← Nat.not_le, sortKey_le_iff_of_integer hfloat hother hword]
  split
  · exact Int.not_le
  · exact Int.not_le

/-- Order of keys is order of floating values. -/
theorem sortKey_lt_iff_of_float (hfloat : d.interpretation.isFloat = true)
    (hword : word < 2 ^ d.interpretation.bits) (hother : other < 2 ^ d.interpretation.bits)
    (hnan : (d.interpretation.float word).isNaN = false)
    (hnan' : (d.interpretation.float other).isNaN = false) :
    d.sortKey word < d.sortKey other ↔
      (d.interpretation.float word).lt (d.interpretation.float other) = true := by
  rw [Binary64.lt_iff_place hnan hnan', ← Nat.not_le, ← Int.not_le,
    sortKey_le_iff_of_float hfloat hother hword,
    Interpretation.place_float_le_iff hfloat hother hword hnan' hnan]

/-- Floating values share a key exactly if they compare as equal. -/
theorem sortKey_eq_iff_equals (hfloat : d.interpretation.isFloat = true)
    (hword : word < 2 ^ d.interpretation.bits) (hother : other < 2 ^ d.interpretation.bits)
    (hnan : (d.interpretation.float word).isNaN = false)
    (hnan' : (d.interpretation.float other).isNaN = false) :
    d.sortKey word = d.sortKey other ↔
      (d.interpretation.float word).equals (d.interpretation.float other) = true := by
  rw [Binary64.equals_iff_place hnan hnan', Nat.le_antisymm_iff, Int.le_antisymm_iff,
    sortKey_le_iff_of_float hfloat hword hother, sortKey_le_iff_of_float hfloat hother hword,
    Interpretation.place_float_le_iff hfloat hword hother hnan hnan',
    Interpretation.place_float_le_iff hfloat hother hword hnan' hnan]

/-- Words share a key exactly if they are the same, or the zeros of a floating type. -/
theorem sortKey_eq_iff (hword : word < 2 ^ d.interpretation.bits)
    (hother : other < 2 ^ d.interpretation.bits) :
    d.sortKey word = d.sortKey other ↔ word = other ∨
      d.interpretation.isFloat = true ∧ word ∈ d.interpretation.zeros ∧
        other ∈ d.interpretation.zeros := by
  by_cases hfloat : d.interpretation.isFloat = true
  · have hle := sortKey_le_iff_of_float hfloat hword hother
    have hge := sortKey_le_iff_of_float hfloat hother hword
    rw [Nat.le_antisymm_iff, hle, hge, ← Int.le_antisymm_iff, Interpretation.wordPlace_eq_iff]
    simp only [hfloat, true_and]
  · have hinteger : d.interpretation.isFloat = false := by simpa using hfloat
    simp only [hinteger, Bool.false_eq_true, false_and, or_false]
    constructor
    · intro hkey
      have hlt := sortKey_lt_iff_of_integer hinteger hword hother
      have hgt := sortKey_lt_iff_of_integer hinteger hother hword
      -- Neither integer is less than the other, and an integer has one word.
      have hsame : d.interpretation.integer word = d.interpretation.integer other := by
        rw [hkey] at hlt hgt
        by_cases hscale : d.scale.lt (.zero false) = true
        · rw [if_pos hscale] at hlt hgt
          omega
        · rw [if_neg hscale] at hlt hgt
          omega
      rw [← Interpretation.ofInteger_integer hinteger hword, hsame,
        Interpretation.ofInteger_integer hinteger hother]
    · rintro rfl
      rfl

/-- NaNs lie on the outside of all numbers, on the side of their sign. -/
theorem sortKey_of_isNaN (hfloat : d.interpretation.isFloat = true)
    (hword : word < 2 ^ d.interpretation.bits) (hother : other < 2 ^ d.interpretation.bits)
    (hnan : (d.interpretation.float word).isNaN = true)
    (hnan' : (d.interpretation.float other).isNaN = false) :
    if d.interpretation.half ≤ word then d.sortKey word < d.sortKey other
    else d.sortKey other < d.sortKey word := by
  have hkey := sortKey_of_float hfloat hword
  have hkey' := sortKey_of_float hfloat hother
  have hbeyond := (Interpretation.isNaN_float_iff hfloat hword).mp hnan
  have hinside : ¬ d.interpretation.infinity < (d.interpretation.wordPlace other).natAbs := by
    rw [← Interpretation.isNaN_float_iff hfloat hother, hnan']
    exact Bool.false_ne_true
  -- A number lies between the places of the infinities, and the NaN beyond one of them.
  split
  · rename_i hsign
    have hplace := Interpretation.wordPlace_nonpos hsign
    split at hkey <;> split at hkey' <;> omega
  · rename_i hsign
    have hplace := Interpretation.wordPlace_nonneg hsign
    split at hkey <;> split at hkey' <;> omega

/-- The entries of the key of a point are faithful to the numbers that its words store. Integers are
in the order of their keys, turned around if the scale is negative, and so are floating values.
NaNs come before the negative infinity or after the positive one, by their sign. Only the two zeros
of a floating type share a key, and a key is a word of the size of the dimension. -/
theorem sortKey_faithful {s : Schema} (hd : d ∈ s.dimensions) (hword : word < 2 ^ (8 * d.size))
    (hother : other < 2 ^ (8 * d.size)) :
    let t := d.interpretation
    (∀ dimensions buffer index, (∀ e ∈ dimensions, e ∈ s.dimensions) →
      Patch.sortKey dimensions (s.row (s.pointAt buffer index)) =
        dimensions.map fun e => e.sortKey (s.wordAt buffer index e)) ∧
    d.sortKey word < 2 ^ (8 * d.size) ∧
    (t.isInteger = true →
      (d.scale.lt (.zero false) = true ∨ (Binary64.zero false).lt d.scale = true) ∧
      ((Binary64.zero false).lt d.scale = true →
        (d.sortKey word < d.sortKey other ↔ t.integer word < t.integer other)) ∧
      (d.scale.lt (.zero false) = true →
        (d.sortKey word < d.sortKey other ↔ t.integer other < t.integer word))) ∧
    (t.isFloat = true → (t.float word).isNaN = false → (t.float other).isNaN = false →
      (d.sortKey word < d.sortKey other ↔ (t.float word).lt (t.float other) = true) ∧
      (d.sortKey word = d.sortKey other ↔ (t.float word).equals (t.float other) = true)) ∧
    (t.isFloat = true → (t.float word).isNaN = true → (t.float other).isNaN = false →
      if t.half ≤ word then d.sortKey word < d.sortKey other
      else d.sortKey other < d.sortKey word) ∧
    (d.sortKey word = d.sortKey other ↔
      word = other ∨ t.isFloat = true ∧ word ∈ t.zeros ∧ other ∈ t.zeros) := by
  intro t
  have hscaled := isScaled_of_mem hd
  refine ⟨?_, sortKey_lt_two_pow hword, ?_, ?_, ?_, sortKey_eq_iff hword hother⟩
  · intro dimensions buffer index hdimensions
    rw [Schema.row_pointAt]
    exact Patch.sortKey_map_wordAt hdimensions buffer index
  · intro hinteger
    have hfloat : d.interpretation.isFloat = false := by
      simpa [Interpretation.isInteger] using hinteger
    have hlt := sortKey_lt_iff_of_integer hfloat hword hother
    refine ⟨Binary64.lt_zero_or_zero_lt hscaled.scale hscaled.turns, ?_, ?_⟩
    · intro hscale
      rwa [if_neg (Binary64.not_lt_zero_of_zero_lt hscale)] at hlt
    · intro hscale
      rwa [if_pos hscale] at hlt
  · intro hfloat hnan hnan'
    exact ⟨sortKey_lt_iff_of_float hfloat hword hother hnan hnan',
      sortKey_eq_iff_equals hfloat hword hother hnan hnan'⟩
  · exact fun hfloat => sortKey_of_isNaN hfloat hword hother

end Dimension

/-- The value -0.5, a step of soundings. -/
def Schema.halfDown : Binary64 := ⟨true, 0x3fe0000000000000, by decide⟩

/-- Soundings: depths that count downward, in steps of a half, and a height that may be missing. -/
def Schema.sounded : Schema where
  pcid := 1
  srid := 4326
  order := .big
  dimensions := [
    { name := "Depth", position := 0, interpretation := .int32, scale := halfDown },
    { name := "Height", position := 1, interpretation := .float32 }]
  valid := by decide

namespace Dimension

/-- The key of a depth of 5 steps is less than that of a depth of -2 steps. The two zeros share a
key, and a NaN whose sign is set comes before the negative infinity. -/
theorem sortKey_faithful_sounded :
    let depth := Schema.sounded.dimensions[0]
    let height := Schema.sounded.dimensions[1]
    depth ∈ Schema.sounded.dimensions ∧ height ∈ Schema.sounded.dimensions ∧
    (depth.interpretation.integer 5 = 5 ∧ depth.interpretation.integer 0xfffffffe = -2) ∧
    depth.sortKey 5 < depth.sortKey 0xfffffffe ∧
    height.sortKey 0x80000000 = height.sortKey 0 ∧
    height.interpretation.float 0xff800000 = .infinity true ∧
    (height.interpretation.float 0xffc00000).isNaN = true ∧
    height.sortKey 0xffc00000 < height.sortKey 0xff800000 := by
  intro depth height
  have hdepth : depth ∈ Schema.sounded.dimensions := by decide
  have hheight : height ∈ Schema.sounded.dimensions := by decide
  obtain ⟨-, -, hinteger, -⟩ := sortKey_faithful hdepth (by decide : 5 < 2 ^ (8 * depth.size))
    (by decide : 0xfffffffe < 2 ^ (8 * depth.size))
  obtain ⟨-, -, -, hfloat, -⟩ := sortKey_faithful hheight
    (by decide : 0x80000000 < 2 ^ (8 * height.size)) (by decide : 0 < 2 ^ (8 * height.size))
  obtain ⟨-, -, -, -, hnan, -⟩ := sortKey_faithful hheight
    (by decide : 0xffc00000 < 2 ^ (8 * height.size))
    (by decide : 0xff800000 < 2 ^ (8 * height.size))
  have houter := hnan rfl (by decide) (by decide)
  rw [if_pos (by decide)] at houter
  refine ⟨hdepth, hheight, by decide, ?_, ?_, by decide, by decide, houter⟩
  · exact ((hinteger rfl).2.2 (by decide)).mpr (by decide)
  · exact (hfloat rfl (by decide) (by decide)).2.mpr (by decide)

end Dimension

end PointCloud
