import Mathlib
import PointCloud.Proofs.Patch.Bounds

/-!
# Joins of boxes

A box is within another if no end of it is outside of the other's. Between boxes of numbers this is
an order, up to the signs of zeros, and merging takes two boxes to the least box that both are
within. That merging does not depend on order or on grouping follows from this alone. What a box
contains is contained in every box that it is within, and what it intersects is intersected.

A low end need not be below the high end. Where it is in every dimension, two boxes intersect
exactly if some values are in both: the greater of both low ends, dimension by dimension, are such
values.

Main results:

* `Bounds.agree_iff_within` — boxes agree if each is within the other;
* `Bounds.merge_within_iff` — merging is the join of boxes;
* `Bounds.Within.contains`, `Bounds.Within.intersects` — what goes by the order;
* `Bounds.intersects_iff_exists` — boxes that intersect have values in common;
* `Bounds.merge_join_structure` — all laws of merging, containing and intersecting.
-/

namespace PointCloud

open Binary64

/-! ## The lesser and the greater number -/

namespace Binary64

variable {x y z : Binary64}

theorem le_self (h : x.isNaN = false) : x.le x = true := by
  have hnumber := number?_of_not_isNaN h
  exact le_iff_number?.mpr ⟨_, _, hnumber, hnumber, Int.le_refl _⟩

theorem equals_iff_le : x.equals y = true ↔ x.le y = true ∧ y.le x = true := by
  constructor
  · intro h
    obtain ⟨n, hx, hy⟩ := equals_iff_number?.mp h
    exact ⟨le_of_equals_of_le h (le_self (isNaN_of_number? hy)),
      le_of_le_of_equals (le_self (isNaN_of_number? hy)) h⟩
  · rintro ⟨hxy, hyx⟩
    exact equals_of_le_of_le hxy hyx

theorem le_minimum_iff (hx : x.isNaN = false) (hy : y.isNaN = false) :
    z.le (x.minimum y) = true ↔ z.le x = true ∧ z.le y = true := by
  have hx := number?_of_not_isNaN hx
  have hy := number?_of_not_isNaN hy
  have hmin := number?_minimum hx hy
  simp only [le_iff_number?, hx, hy, hmin, Option.some.injEq]
  grind

theorem maximum_le_iff (hx : x.isNaN = false) (hy : y.isNaN = false) :
    (x.maximum y).le z = true ↔ x.le z = true ∧ y.le z = true := by
  have hx := number?_of_not_isNaN hx
  have hy := number?_of_not_isNaN hy
  have hmax := number?_maximum hx hy
  simp only [le_iff_number?, hx, hy, hmax, Option.some.injEq]
  grind

theorem minimum_eq_or (x y : Binary64) : x.minimum y = x ∨ x.minimum y = y := by
  unfold minimum
  split
  · exact .inl rfl
  · exact .inr rfl

theorem maximum_eq_or (x y : Binary64) : x.maximum y = x ∨ x.maximum y = y := by
  unfold maximum
  split
  · exact .inl rfl
  · exact .inr rfl

end Binary64

/-! ## Ends side by side -/

section Ends

variable {xs ys : List Binary64}

theorem forall₂_and_of_forall {α β : Type} {P : α → Prop} {Q : β → Prop} {as : List α} {bs : List β}
    (hlength : as.length = bs.length) (has : ∀ a ∈ as, P a) (hbs : ∀ b ∈ bs, Q b) :
    List.Forall₂ (fun a b => P a ∧ Q b) as bs := by
  refine List.forall₂_iff_zip.mpr ⟨hlength, fun {a b} hmem => ?_⟩
  obtain ⟨ha, hb⟩ := List.of_mem_zip hmem
  exact ⟨has a ha, hbs b hb⟩

/-- What bounds the result of an operation exactly if it bounds both arguments does so for all
entries of a list. -/
theorem forall₂_zipWith_iff {α β : Type} {R : β → α → Prop} {f : α → α → α} {as bs : List α}
    (h : List.Forall₂ (fun a b => ∀ c, R c (f a b) ↔ R c a ∧ R c b) as bs) (cs : List β) :
    List.Forall₂ R cs (List.zipWith f as bs) ↔ List.Forall₂ R cs as ∧ List.Forall₂ R cs bs := by
  induction h generalizing cs with
  | nil => simp
  | cons hab _ ih =>
    cases cs with
    | nil => simp
    | cons c cs =>
      simp only [List.zipWith_cons_cons, List.forall₂_cons, hab, ih]
      exact and_and_and_comm

theorem forall₂_minimum_iff (zs : List Binary64) (hlength : xs.length = ys.length)
    (hxs : ∀ x ∈ xs, x.isNaN = false) (hys : ∀ y ∈ ys, y.isNaN = false) :
    List.Forall₂ (fun z x => z.le x = true) zs (List.zipWith .minimum xs ys) ↔
      List.Forall₂ (fun z x => z.le x = true) zs xs ∧
        List.Forall₂ (fun z y => z.le y = true) zs ys := by
  refine forall₂_zipWith_iff ((forall₂_and_of_forall hlength hxs hys).imp ?_) zs
  rintro x y ⟨hx, hy⟩ z
  exact Binary64.le_minimum_iff hx hy

theorem forall₂_maximum_iff (zs : List Binary64) (hlength : xs.length = ys.length)
    (hxs : ∀ x ∈ xs, x.isNaN = false) (hys : ∀ y ∈ ys, y.isNaN = false) :
    List.Forall₂ (fun z x : Binary64 => x.le z = true) zs (List.zipWith .maximum xs ys) ↔
      List.Forall₂ (fun z x => x.le z = true) zs xs ∧
        List.Forall₂ (fun z y => y.le z = true) zs ys := by
  refine forall₂_zipWith_iff ((forall₂_and_of_forall hlength hxs hys).imp ?_) zs
  rintro x y ⟨hx, hy⟩ z
  exact Binary64.maximum_le_iff hx hy

theorem isNaN_of_forall₂_le (h : List.Forall₂ (fun x y : Binary64 => x.le y = true) xs ys) :
    ∀ x ∈ xs, x.isNaN = false := by
  intro x hx
  obtain ⟨y, -, hxy⟩ := exists_mem_of_forall₂ h.flip hx
  exact isNaN_of_le_left hxy

theorem forall₂_equals_iff :
    List.Forall₂ (fun x y => x.equals y = true) xs ys ↔
      List.Forall₂ (fun x y => x.le y = true) xs ys ∧
        List.Forall₂ (fun y x => y.le x = true) ys xs := by
  constructor
  · intro h
    refine ⟨h.imp fun x y hxy => ?_, h.flip.imp fun y x hxy => ?_⟩
    · exact (equals_iff_le.mp hxy).1
    · exact (equals_iff_le.mp hxy).2
  · rintro ⟨hle, hge⟩
    induction hle with
    | nil => exact .nil
    | cons hxy _ ih =>
      cases hge with
      | cons hyx hrest => exact .cons (equals_iff_le.mpr ⟨hxy, hyx⟩) (ih hrest)

/-- An operation that chooses one of two numbers leaves numbers. -/
theorem isNaN_of_mem_zipWith {f : Binary64 → Binary64 → Binary64}
    (hf : ∀ x y, f x y = x ∨ f x y = y) (hxs : ∀ x ∈ xs, x.isNaN = false)
    (hys : ∀ y ∈ ys, y.isNaN = false) : ∀ z ∈ List.zipWith f xs ys, z.isNaN = false := by
  intro z hz
  rw [← List.map_uncurry_zip_eq_zipWith] at hz
  obtain ⟨⟨x, y⟩, hmem, rfl⟩ := List.mem_map.mp hz
  obtain ⟨hx, hy⟩ := List.of_mem_zip hmem
  rcases hf x y with heq | heq
  · exact (congrArg isNaN heq).trans (hxs x hx)
  · exact (congrArg isNaN heq).trans (hys y hy)

end Ends

namespace Bounds

variable {width : Nat} {a b c d : Bounds} {values : List Binary64}

/-! ## Boxes of numbers -/

/-- No end is a NaN. -/
def IsNumeric : Bounds → Prop
  | .empty => True
  | .extent lows highs => (∀ low ∈ lows, low.isNaN = false) ∧ ∀ high ∈ highs, high.isNaN = false

/-- A box of some width with numbers for ends. A low end may be above the high end. -/
structure IsBox (width : Nat) (b : Bounds) : Prop where
  hasWidth  : b.HasWidth width
  isNumeric : b.IsNumeric

/-- No low end is above the high end. -/
def IsOrdered : Bounds → Prop
  | .empty => True
  | .extent lows highs => List.Forall₂ (fun low high => low.le high = true) lows highs

/-- The ends of the second box are as far out as those of the first one, or further out. The outer
ends come first on both sides, so that one lemma is about the low ends and about the high ends. -/
def Within : Bounds → Bounds → Prop
  | .empty, _ => True
  | .extent .., .empty => False
  | .extent lows highs, .extent lows' highs' =>
    List.Forall₂ (fun low' low => low'.le low = true) lows' lows ∧
      List.Forall₂ (fun high' high => high.le high' = true) highs' highs

theorem IsBox.merge (ha : a.IsBox width) (hb : b.IsBox width) : (a.merge b).IsBox width := by
  cases a with
  | empty => exact (empty_merge b).symm ▸ hb
  | extent lows highs =>
    cases b with
    | empty => exact ha
    | extent lows' highs' =>
      obtain ⟨⟨hlows, hhighs⟩, hlow, hhigh⟩ := ha
      obtain ⟨⟨hlows', hhighs'⟩, hlow', hhigh'⟩ := hb
      refine ⟨⟨?_, ?_⟩, ?_, ?_⟩
      -- An end of either box stands beside every end of the other one, so none is lost.
      · rw [List.length_zipWith, hlows, hlows', Nat.min_self]
      · rw [List.length_zipWith, hhighs, hhighs', Nat.min_self]
      · exact isNaN_of_mem_zipWith minimum_eq_or hlow hlow'
      · exact isNaN_of_mem_zipWith maximum_eq_or hhigh hhigh'

/-! ## The order of boxes -/

theorem Within.refl (h : a.IsNumeric) : a.Within a := by
  cases a with
  | empty => trivial
  | extent lows highs =>
    obtain ⟨hlows, hhighs⟩ := h
    exact ⟨List.forall₂_same.mpr fun low hlow => le_self (hlows low hlow),
      List.forall₂_same.mpr fun high hhigh => le_self (hhighs high hhigh)⟩

/-- Boxes agree if each is within the other. -/
theorem agree_iff_within : a.Agree b ↔ a.Within b ∧ b.Within a := by
  cases a <;> cases b <;> simp only [Agree, Within, and_self, and_false, false_and]
  constructor
  · rintro ⟨hlows, hhighs⟩
    obtain ⟨hle, hge⟩ := forall₂_equals_iff.mp hlows
    obtain ⟨hle', hge'⟩ := forall₂_equals_iff.mp hhighs
    -- Low ends go down where high ends go up.
    exact ⟨⟨hge, hle'.flip⟩, hle, hge'.flip⟩
  · rintro ⟨⟨hge, hle'⟩, hle, hge'⟩
    exact ⟨forall₂_equals_iff.mpr ⟨hle, hge⟩, forall₂_equals_iff.mpr ⟨hle'.flip, hge'.flip⟩⟩

/-- Merging is the join: a box that two boxes are within is one that the merged box is within. -/
theorem merge_within_iff (ha : a.IsBox width) (hb : b.IsBox width) :
    (a.merge b).Within d ↔ a.Within d ∧ b.Within d := by
  cases a with
  -- An empty box is within every box, so only the other one counts.
  | empty =>
    rw [empty_merge]
    exact (and_iff_right trivial).symm
  | extent lows highs =>
    cases b with
    | empty =>
      rw [merge_empty]
      exact (and_iff_left trivial).symm
    | extent lows' highs' =>
      cases d with
      | empty => exact (and_self_iff (a := False)).symm
      | extent lows'' highs'' =>
        obtain ⟨⟨hlows, hhighs⟩, hlow, hhigh⟩ := ha
        obtain ⟨⟨hlows', hhighs'⟩, hlow', hhigh'⟩ := hb
        -- An end is outside of the merged one exactly if it is outside of both ends.
        have hlower := forall₂_minimum_iff lows'' (hlows.trans hlows'.symm) hlow hlow'
        have hupper := forall₂_maximum_iff highs'' (hhighs.trans hhighs'.symm) hhigh hhigh'
        show _ ∧ _ ↔ (_ ∧ _) ∧ (_ ∧ _)
        rw [hlower, hupper]
        exact and_and_and_comm

theorem within_merge (ha : a.IsBox width) (hb : b.IsBox width) :
    a.Within (a.merge b) ∧ b.Within (a.merge b) :=
  (merge_within_iff ha hb).mp (Within.refl (ha.merge hb).isNumeric)

/-- Boxes that are within the same boxes agree. So the laws of merging are those of conjunction. -/
theorem agree_of_within_iff (ha : a.IsNumeric) (hb : b.IsNumeric)
    (h : ∀ d : Bounds, a.Within d ↔ b.Within d) : a.Agree b :=
  agree_iff_within.mpr ⟨(h b).mpr (Within.refl hb), (h a).mp (Within.refl ha)⟩

theorem merge_comm_agree (ha : a.IsBox width) (hb : b.IsBox width) :
    (a.merge b).Agree (b.merge a) := by
  refine agree_of_within_iff (ha.merge hb).isNumeric (hb.merge ha).isNumeric fun d => ?_
  rw [merge_within_iff ha hb, merge_within_iff hb ha]
  exact and_comm

theorem merge_assoc_agree (ha : a.IsBox width) (hb : b.IsBox width) (hc : c.IsBox width) :
    ((a.merge b).merge c).Agree (a.merge (b.merge c)) := by
  have hab := ha.merge hb
  have hbc := hb.merge hc
  refine agree_of_within_iff (hab.merge hc).isNumeric (ha.merge hbc).isNumeric fun d => ?_
  rw [merge_within_iff hab hc, merge_within_iff ha hb, merge_within_iff ha hbc,
    merge_within_iff hb hc]
  exact and_assoc

theorem merge_self_agree (ha : a.IsBox width) : (a.merge a).Agree a := by
  refine agree_of_within_iff (ha.merge ha).isNumeric ha.isNumeric fun d => ?_
  rw [merge_within_iff ha ha]
  exact and_self_iff

/-! ## Containing -/

theorem Encloses.hasWidth (h : b.Encloses values) : b.HasWidth values.length := by
  cases b with
  | empty => exact h.elim
  | extent lows highs => exact ⟨h.1.length_eq, h.2.length_eq.symm⟩

/-- Values are contained in a box only if there is one for every dimension. -/
theorem encloses_of_contains (hwidth : b.HasWidth width) (h : b.contains values = true) :
    b.Encloses values := by
  have hlength : b.HasWidth values.length := by
    cases b with
    | empty => trivial
    | extent lows highs =>
      obtain ⟨hlows, hhighs⟩ := hwidth
      simp only [contains, Bool.and_eq_true, beq_iff_eq] at h
      -- The test counts low ends only, of which there are as many as high ends.
      exact ⟨h.1, hhighs.trans (hlows.symm.trans h.1)⟩
  exact (contains_iff_encloses hlength).mp h

theorem Within.encloses (h : a.Within b) (hvalues : a.Encloses values) : b.Encloses values := by
  cases a with
  | empty => exact hvalues.elim
  | extent lows highs =>
    cases b with
    | empty => exact h.elim
    | extent lows' highs' =>
      obtain ⟨hlows, hhighs⟩ := h
      obtain ⟨hlower, hupper⟩ := hvalues
      exact ⟨forall₂_trans hlows hlower le_trans, forall₂_trans hupper hhighs.flip le_trans⟩

/-- A wider box contains no less. -/
theorem Within.contains (h : a.Within b) (hwidth : a.HasWidth width)
    (hvalues : a.contains values = true) : b.contains values = true := by
  have hencloses := h.encloses (encloses_of_contains hwidth hvalues)
  exact (contains_iff_encloses hencloses.hasWidth).mpr hencloses

/-! ## Intersecting -/

/-- Boxes intersect if no low end is above a high end of the other box. -/
theorem intersects_extent_iff {lows highs lows' highs' : List Binary64}
    (ha : HasWidth width (.extent lows highs)) (hb : HasWidth width (.extent lows' highs')) :
    (Bounds.extent lows highs).intersects (.extent lows' highs') = true ↔
      List.Forall₂ (fun low high' => low.le high' = true) lows highs' ∧
        List.Forall₂ (fun low' high => low'.le high = true) lows' highs := by
  obtain ⟨hlows, hhighs⟩ := ha
  obtain ⟨hlows', hhighs'⟩ := hb
  simp only [Bounds.intersects, hlows, hlows', beq_self_eq_true, Bool.true_and]
  -- One dimension after the other.
  induction width generalizing lows highs lows' highs' with
  | zero =>
    obtain rfl := List.eq_nil_of_length_eq_zero hlows
    obtain rfl := List.eq_nil_of_length_eq_zero hhighs
    obtain rfl := List.eq_nil_of_length_eq_zero hlows'
    obtain rfl := List.eq_nil_of_length_eq_zero hhighs'
    simp
  | succ width ih =>
    obtain ⟨low, lows, rfl⟩ := List.exists_cons_of_length_eq_add_one hlows
    obtain ⟨high, highs, rfl⟩ := List.exists_cons_of_length_eq_add_one hhighs
    obtain ⟨low', lows', rfl⟩ := List.exists_cons_of_length_eq_add_one hlows'
    obtain ⟨high', highs', rfl⟩ := List.exists_cons_of_length_eq_add_one hhighs'
    have hrest := ih (Nat.succ.inj hlows) (Nat.succ.inj hhighs) (Nat.succ.inj hlows')
      (Nat.succ.inj hhighs')
    simp only [List.zip_cons_cons, List.all_cons, Bool.and_eq_true, hrest, List.forall₂_cons]
    exact and_and_and_comm

theorem Within.hasWidth (h : a.Within b) (hne : a ≠ .empty) (ha : a.HasWidth width) :
    b.HasWidth width := by
  cases a with
  | empty => exact absurd rfl hne
  | extent lows highs =>
    cases b with
    | empty => exact h.elim
    | extent lows' highs' =>
      exact ⟨h.1.length_eq.trans ha.1, h.2.length_eq.trans ha.2⟩

/-- A wider box intersects no less. -/
theorem Within.intersects (h : a.Within b) (ha : a.HasWidth width) (hc : c.HasWidth width)
    (hac : a.intersects c = true) : b.intersects c = true := by
  cases a with
  | empty => cases hac
  | extent lows highs =>
    cases b with
    | empty => exact h.elim
    | extent lows' highs' =>
      cases c with
      | empty => cases hac
      | extent lows'' highs'' =>
        have hb := h.hasWidth (by simp) ha
        obtain ⟨hlow, hhigh⟩ := (intersects_extent_iff ha hc).mp hac
        refine (intersects_extent_iff hb hc).mpr ⟨?_, ?_⟩
        -- Lower low ends stay below the high ends of the other box, and higher high ends above.
        · exact forall₂_trans h.1 hlow le_trans
        · exact forall₂_trans hhigh h.2.flip le_trans

/-- Boxes with ends in order have values in common if they intersect. -/
theorem exists_encloses_of_intersects (ha : a.HasWidth width) (hb : b.HasWidth width)
    (hordered : a.IsOrdered) (hordered' : b.IsOrdered) (h : a.intersects b = true) :
    ∃ values, a.Encloses values ∧ b.Encloses values := by
  cases a with
  | empty => cases h
  | extent lows highs =>
    cases b with
    | empty => cases h
    | extent lows' highs' =>
      obtain ⟨hlow, hlow'⟩ := (intersects_extent_iff ha hb).mp h
      have hnumbers := isNaN_of_forall₂_le hordered
      have hnumbers' := isNaN_of_forall₂_le hordered'
      have hgreater (zs : List Binary64) := forall₂_maximum_iff zs
        (ha.1.trans hb.1.symm) hnumbers hnumbers'
      -- The greater low end is above both low ends, and below a high end if both low ends are.
      have hself : ∀ z ∈ List.zipWith maximum lows lows', z.le z = true :=
        fun z hz => le_self (isNaN_of_mem_zipWith maximum_eq_or hnumbers hnumbers' z hz)
      obtain ⟨hlower, hlower'⟩ := (hgreater _).mp (List.forall₂_same.mpr hself)
      refine ⟨List.zipWith .maximum lows lows', ⟨hlower.flip, ?_⟩, hlower'.flip, ?_⟩
      · exact ((hgreater highs).mpr ⟨hordered.flip, hlow'.flip⟩).flip
      · exact ((hgreater highs').mpr ⟨hlow.flip, hordered'.flip⟩).flip

theorem intersects_iff_exists (ha : a.HasWidth width) (hb : b.HasWidth width)
    (hordered : a.IsOrdered) (hordered' : b.IsOrdered) :
    a.intersects b = true ↔ ∃ values, a.contains values = true ∧ b.contains values = true := by
  constructor
  · intro h
    obtain ⟨values, hvalues, hvalues'⟩ := exists_encloses_of_intersects ha hb hordered hordered' h
    exact ⟨values, (contains_iff_encloses hvalues.hasWidth).mpr hvalues,
      (contains_iff_encloses hvalues'.hasWidth).mpr hvalues'⟩
  -- The low ends of both boxes are below the values, and the high ends of both above them.
  · rintro ⟨values, hvalues, hvalues'⟩
    exact intersects_of_covers (encloses_of_contains ha hvalues).covers
      (encloses_of_contains hb hvalues')

/-- Boxes of different widths have no place in common. -/
theorem intersects_of_ne {m n : Nat} (hne : m ≠ n) (ha : a.HasWidth m) (hb : b.HasWidth n) :
    a.intersects b = false := by
  cases a with
  | empty => rfl
  | extent lows highs =>
    cases b with
    | empty => rfl
    | extent lows' highs' =>
      have hlength : lows.length ≠ lows'.length := by rwa [ha.1, hb.1]
      simp [Bounds.intersects, hlength]

/-! ## All laws -/

/-- Boxes of one width whose ends are numbers, be they in order or not. Up to the signs of zeros,
merging is commutative, associative and idempotent, and the empty box changes nothing. Both boxes
are within the merged one, which is within every box that both are within; so it contains what
either contains, and no more than any other such box, and it intersects what either intersects.
Boxes with ends in order intersect exactly if some values are contained in both. For all boxes,
intersecting is symmetric, and boxes of different widths do not intersect. -/
theorem merge_join_structure (ha : a.IsBox width) (hb : b.IsBox width) (hc : c.IsBox width) :
    ((a.merge b).IsBox width ∧ (a.merge b).Agree (b.merge a) ∧
      ((a.merge b).merge c).Agree (a.merge (b.merge c)) ∧ (a.merge a).Agree a ∧
      Bounds.empty.merge a = a ∧ a.merge .empty = a) ∧
    (a.Within (a.merge b) ∧ b.Within (a.merge b) ∧
      ∀ d : Bounds, a.Within d → b.Within d → (a.merge b).Within d ∧
        ∀ values, (a.merge b).contains values = true → d.contains values = true) ∧
    (∀ values, a.contains values = true ∨ b.contains values = true →
      (a.merge b).contains values = true) ∧
    (a.intersects c = true ∨ b.intersects c = true → (a.merge b).intersects c = true) ∧
    (a.IsOrdered → b.IsOrdered → (a.intersects b = true ↔
      ∃ values, a.contains values = true ∧ b.contains values = true)) ∧
    (∀ d e : Bounds, d.intersects e = e.intersects d) ∧
    ∀ (m n : Nat) (d e : Bounds), m ≠ n → d.HasWidth m → e.HasWidth n →
      d.intersects e = false := by
  have hmerged := ha.merge hb
  obtain ⟨hleft, hright⟩ := within_merge ha hb
  refine ⟨⟨hmerged, merge_comm_agree ha hb, merge_assoc_agree ha hb hc, merge_self_agree ha,
    empty_merge a, merge_empty a⟩, ⟨hleft, hright, ?_⟩, ?_, ?_,
    intersects_iff_exists ha.hasWidth hb.hasWidth, intersects_comm,
    fun m n d e hne hd he => intersects_of_ne hne hd he⟩
  -- a box that both are within
  · intro d hwithin hwithin'
    have hleast := (merge_within_iff ha hb).mpr ⟨hwithin, hwithin'⟩
    exact ⟨hleast, fun values hvalues => hleast.contains hmerged.hasWidth hvalues⟩
  -- values in one of the two boxes, and a box that one of the two intersects
  · rintro values (hvalues | hvalues)
    · exact hleft.contains ha.hasWidth hvalues
    · exact hright.contains hb.hasWidth hvalues
  · rintro (hac | hbc)
    · exact hleft.intersects ha.hasWidth hc.hasWidth hac
    · exact hright.intersects hb.hasWidth hc.hasWidth hbc

/-- Two unbounded boxes with an edge in common, where the zeros have different signs, and a box
whose first low end is above its high end. -/
theorem merge_join_structure_edge :
    let a : Bounds := .extent [zero true, one] [one, infinity false]
    let b : Bounds := .extent [zero false, infinity true] [zero false, one]
    let c : Bounds := .extent [one, one] [zero false, one]
    (a.IsBox 2 ∧ b.IsBox 2 ∧ c.IsBox 2 ∧ a.IsOrdered ∧ b.IsOrdered ∧ ¬ c.IsOrdered) ∧
    a.merge b ≠ b.merge a ∧ (a.merge b).Agree (b.merge a) ∧
    ((a.merge b).merge c).Agree (a.merge (b.merge c)) ∧
    (a.merge b).contains [one, zero false] = true ∧
    (∃ values, a.contains values = true ∧ b.contains values = true) ∧
    (a.merge b).intersects c = true ∧ a.intersects (.extent [one] [one]) = false := by
  intro a b c
  have ha : a.IsBox 2 := ⟨⟨rfl, rfl⟩, by decide, by decide⟩
  have hb : b.IsBox 2 := ⟨⟨rfl, rfl⟩, by decide, by decide⟩
  have hc : c.IsBox 2 := ⟨⟨rfl, rfl⟩, by decide, by decide⟩
  have hordered : a.IsOrdered := .cons (by decide) (.cons (by decide) .nil)
  have hordered' : b.IsOrdered := .cons (by decide) (.cons (by decide) .nil)
  have hinverted : ¬ c.IsOrdered := fun h => absurd (List.forall₂_cons.mp h).1 (by decide)
  obtain ⟨⟨-, hcomm, hassoc, -⟩, -, -, hintersects, hexists, -, hwidths⟩ :=
    merge_join_structure ha hb hc
  refine ⟨⟨ha, hb, hc, hordered, hordered', hinverted⟩, by decide, hcomm, hassoc, by decide,
    (hexists hordered hordered').mp (by decide), hintersects (.inl (by decide)), ?_⟩
  exact hwidths 2 1 _ _ (by decide) ⟨rfl, rfl⟩ ⟨rfl, rfl⟩

end Bounds

end PointCloud
