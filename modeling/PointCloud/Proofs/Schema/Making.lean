import Mathlib
import PointCloud.Proofs.Schema.Words

/-!
# Making schemas

A schema is made from dimensions in any order: they are sorted by position, and the sorted list has
to be valid. Positions that count from zero without gap leave one order to sort into. So whether a
list makes a schema, and which one, depends on what is in the list and not on the order it is in.

The axes of space are found by name. The dimensions are searched in the order of their positions,
which makes the first one that is found the one of the lowest position.

Main results:

* `Schema.valid_sort_iff` — the lists that are valid once they are sorted;
* `Schema.make_eq_ok_iff` — a list makes the schemas that have its dimensions;
* `Schema.axis?_eq_some_iff`, `Schema.axis?_eq_none_iff` — which position an axis has.
-/

namespace PointCloud

namespace Schema

variable {pcid : UInt32} {srid : Int} {order : ByteOrder} {dimensions others : List Dimension}
  {s : Schema}

/-! ## Lists of dimensions -/

/-- The dimensions that make a schema, whatever their order. -/
structure Admissible (dimensions : List Dimension) : Prop where
  ne_nil    : dimensions ≠ []
  positions : (dimensions.map (·.position)).Perm (List.range dimensions.length)
  scales    : ∀ d ∈ dimensions, d.scale.isFinite ∧ ¬ d.scale.isZero
  offsets   : ∀ d ∈ dimensions, d.offset.isFinite
  names     : (dimensions.map (·.name)).Nodup

theorem Admissible.perm (h : Admissible dimensions) (hperm : dimensions.Perm others) :
    Admissible others where
  ne_nil       := by
    rintro rfl
    exact h.ne_nil hperm.eq_nil
  positions    := by
    have hpositions := (hperm.map (·.position)).symm.trans h.positions
    rwa [hperm.length_eq] at hpositions
  scales d hd  := h.scales d (hperm.mem_iff.mpr hd)
  offsets d hd := h.offsets d (hperm.mem_iff.mpr hd)
  names        := (hperm.map _).nodup_iff.mp h.names

/-- Valid dimensions are admissible, and in the order of their positions. -/
theorem valid_iff : ValidDimensions dimensions ↔
    Admissible dimensions ∧ dimensions.map (·.position) = List.range dimensions.length := by
  constructor
  · rintro ⟨hne, hpositions, hscales, hoffsets, hnames⟩
    exact ⟨⟨hne, hpositions ▸ .refl _, hscales, hoffsets, hnames⟩, hpositions⟩
  · rintro ⟨h, hpositions⟩
    exact ⟨h.ne_nil, hpositions, h.scales, h.offsets, h.names⟩

/-! ## Sorting by position -/

/-- Sorting gives the numbers below a bound in their order. -/
theorem mergeSort_of_perm_range {ns : List Nat} {n : Nat} (h : ns.Perm (List.range n)) :
    (ns.mergeSort fun a b => a ≤ b) = List.range n := by
  have hsorted : (ns.mergeSort fun a b => a ≤ b).Pairwise (· ≤ ·) := by
    have hpairwise : (ns.mergeSort fun a b => a ≤ b).Pairwise fun a b => decide (a ≤ b) = true :=
      List.pairwise_mergeSort (by simpa using fun a b c => Nat.le_trans)
        (by simpa using Nat.le_total) ns
    exact hpairwise.imp of_decide_eq_true
  have hrange : (List.range n).Pairwise (· ≤ ·) := List.pairwise_lt_range.imp Nat.le_of_lt
  -- The range is sorted as well, and of one collection of numbers there is one sorted list.
  refine List.Perm.eq_of_pairwise ?_ hsorted hrange ((List.mergeSort_perm ns _).trans h)
  exact fun a b _ _ => Nat.le_antisymm

/-- Sorted by position, admissible dimensions count from zero. -/
theorem Admissible.positions_sort (h : Admissible dimensions) :
    (dimensions.mergeSort fun a b => a.position ≤ b.position).map (·.position) =
      List.range dimensions.length := by
  have hmap := List.map_mergeSort (r := fun a b : Dimension => decide (a.position ≤ b.position))
    (s := fun a b => decide (a ≤ b)) (f := (·.position)) (l := dimensions) fun _ _ _ _ => rfl
  rw [hmap, mergeSort_of_perm_range h.positions]

theorem valid_sort_iff :
    ValidDimensions (dimensions.mergeSort fun a b => a.position ≤ b.position) ↔
      Admissible dimensions := by
  have hperm := List.mergeSort_perm dimensions fun a b => decide (a.position ≤ b.position)
  rw [valid_iff, hperm.length_eq]
  constructor
  · exact fun h => h.1.perm hperm
  · exact fun h => ⟨h.perm hperm.symm, h.positions_sort⟩

/-- Dimensions that are found in a schema are sorted into its order. -/
theorem sort_of_perm (h : s.dimensions.Perm dimensions) :
    (dimensions.mergeSort fun a b => a.position ≤ b.position) = s.dimensions := by
  have hadmissible := (valid_iff.mp s.valid).1
  have hsorted := (hadmissible.perm h).positions_sort
  have hperm := (List.mergeSort_perm dimensions fun a b => decide (a.position ≤ b.position)).trans
    h.symm
  rw [← h.length_eq, ← s.valid.2.1] at hsorted
  generalize (dimensions.mergeSort fun a b => a.position ≤ b.position) = sorted at *
  -- Of one position there is one dimension, so lists of one sequence of positions are the same.
  apply List.ext_getElem hperm.length_eq
  intro i hi hi'
  have hposition : sorted[i].position = (s.dimensions[i]).position := by
    have hget := congrArg (fun positions => positions[i]?) hsorted
    simpa [hi, hi'] using hget
  have hnodup : (s.dimensions.map (·.position)).Nodup := s.valid.2.1 ▸ List.nodup_range
  exact List.inj_on_of_nodup_map hnodup (hperm.mem_iff.mp (List.getElem_mem hi))
    (List.getElem_mem hi') hposition

/-- A list makes the schemas that have its dimensions, of which there is at most one. -/
theorem make_eq_ok_iff : make pcid srid order dimensions = .ok s ↔
    s.pcid = pcid ∧ s.srid = srid ∧ s.order = order ∧ s.dimensions.Perm dimensions := by
  unfold make
  dsimp only
  constructor
  · intro h
    split at h
    · obtain rfl := Except.ok.inj h
      exact ⟨rfl, rfl, rfl, List.mergeSort_perm _ _⟩
    · cases h
  · rintro ⟨rfl, rfl, rfl, hperm⟩
    have hsort := sort_of_perm hperm
    split
    · simp only [hsort]
    · -- The sorted list is that of a schema, so there is no fault to find.
      rename_i fault hfault
      rw [hsort, fault?_eq_none_iff.mpr s.valid] at hfault
      cases hfault

theorem exists_make_iff : (∃ s, make pcid srid order dimensions = .ok s) ↔
    Admissible dimensions :=
  make_isOk_iff.trans valid_sort_iff

/-- What does not make a schema is refused as one. -/
theorem make_of_not_admissible (h : ¬ Admissible dimensions) :
    ∃ fault, make pcid srid order dimensions = .error (.invalidSchema fault) := by
  unfold make
  dsimp only
  split
  · rename_i hnone
    exact absurd (valid_sort_iff.mp (fault?_eq_none_iff.mp hnone)) h
  · exact ⟨_, rfl⟩

end Schema

/-! ## Names of axes -/

/-- The small letters of the axes of space. -/
def axisLetters : List Char := ['x', 'y', 'z']

/-- A dimension is named by a letter, in either case. -/
def Dimension.IsNamed (d : Dimension) (letter : Char) : Prop :=
  d.name = String.singleton letter ∨ d.name = String.singleton letter.toUpper

instance (d : Dimension) (letter : Char) : Decidable (d.IsNamed letter) :=
  inferInstanceAs (Decidable (_ ∨ _))

/-- The letter of an axis is read from itself and from its capital, and from nothing else. -/
theorem toLower_eq_iff {c letter : Char} (h : letter ∈ axisLetters) :
    c.toLower = letter ↔ c = letter ∨ c = letter.toUpper := by
  -- Characters are compared by their numbers.
  have hnumber : ∀ a b : Char, a = b ↔ a.val.toNat = b.val.toNat := by
    intro a b
    rw [UInt32.toNat_inj, Char.ext_iff]
  have hletter : letter.toUpper.val.toNat + 32 = letter.val.toNat ∧
      65 ≤ letter.toUpper.val.toNat ∧ letter.toUpper.val.toNat ≤ 90 := by
    simp only [axisLetters, List.mem_cons, List.not_mem_nil, or_false] at h
    rcases h with rfl | rfl | rfl <;> decide
  have hdistance : ('a'.val - 'A'.val).toNat = 32 := rfl
  rw [hnumber, hnumber, hnumber]
  unfold Char.toLower
  split
  · rename_i hcapital
    have hlow : 65 ≤ c.val.toNat := UInt32.le_iff_toNat_le.mp hcapital.1
    have hhigh : c.val.toNat ≤ 90 := UInt32.le_iff_toNat_le.mp hcapital.2
    rw [UInt32.toNat_add, hdistance]
    omega
  · rename_i hother
    have hnone : ¬ (65 ≤ c.val.toNat ∧ c.val.toNat ≤ 90) := by
      intro hcapital
      exact hother ⟨UInt32.le_iff_toNat_le.mpr hcapital.1, UInt32.le_iff_toNat_le.mpr hcapital.2⟩
    omega

theorem Dimension.isNamed_iff {d : Dimension} {letter : Char} (h : letter ∈ axisLetters) :
    d.IsNamed letter ↔ (d.name.toList.map Char.toLower == [letter]) = true := by
  have hsingleton : ∀ c : Char, d.name = String.singleton c ↔ d.name.toList = [c] := by
    intro c
    rw [← String.toList_inj, String.toList_singleton]
  rw [IsNamed, hsingleton, hsingleton, beq_iff_eq, List.map_eq_singleton_iff]
  constructor
  · rintro (hname | hname)
    · exact ⟨letter, hname, (toLower_eq_iff h).mpr (.inl rfl)⟩
    · exact ⟨letter.toUpper, hname, (toLower_eq_iff h).mpr (.inr rfl)⟩
  · rintro ⟨c, hname, hlower⟩
    rcases (toLower_eq_iff h).mp hlower with rfl | rfl
    · exact .inl hname
    · exact .inr hname

namespace Schema

variable {s : Schema} {letter : Char}

theorem axis?_eq_none_iff (h : letter ∈ axisLetters) :
    s.axis? letter = none ↔ ∀ d ∈ s.dimensions, ¬ d.IsNamed letter := by
  rw [axis?, Option.map_eq_none_iff, List.find?_eq_none]
  exact forall₂_congr fun d _ => not_congr (Dimension.isNamed_iff h).symm

/-- What the search finds is named by the letter, and nothing before it is. -/
theorem lowest_of_axis? (h : letter ∈ axisLetters) {position : Nat}
    (haxis : s.axis? letter = some position) :
    (∃ d ∈ s.dimensions, d.IsNamed letter ∧ d.position = position) ∧
      ∀ d ∈ s.dimensions, d.IsNamed letter → position ≤ d.position := by
  obtain ⟨d, hfind, rfl⟩ := Option.map_eq_some_iff.mp haxis
  obtain ⟨hname, i, hi, rfl, hbefore⟩ := List.find?_eq_some_iff_getElem.mp hfind
  refine ⟨⟨_, List.getElem_mem hi, (Dimension.isNamed_iff h).mpr hname, rfl⟩, ?_⟩
  intro e he hnamed
  obtain ⟨j, hj, rfl⟩ := List.mem_iff_getElem.mp he
  rw [position_getElem hi, position_getElem hj]
  by_contra hlt
  have hpassed := hbefore j (by omega)
  rw [(Dimension.isNamed_iff h).mp hnamed] at hpassed
  exact absurd hpassed (by decide)

/-- The axis of a letter is the dimension of that name with the lowest position. -/
theorem axis?_eq_some_iff (h : letter ∈ axisLetters) {position : Nat} :
    s.axis? letter = some position ↔
      (∃ d ∈ s.dimensions, d.IsNamed letter ∧ d.position = position) ∧
        ∀ d ∈ s.dimensions, d.IsNamed letter → position ≤ d.position := by
  constructor
  · exact lowest_of_axis? h
  · rintro ⟨⟨d, hd, hnamed, rfl⟩, hlowest⟩
    cases haxis : s.axis? letter with
    | none => exact absurd hnamed ((axis?_eq_none_iff h).mp haxis d hd)
    | some found =>
      -- Two dimensions of lowest position have one position.
      obtain ⟨⟨e, he, hnamed', rfl⟩, hlowest'⟩ := lowest_of_axis? h haxis
      rw [Nat.le_antisymm (hlowest' d hd hnamed) (hlowest e he hnamed')]

end Schema

end PointCloud
