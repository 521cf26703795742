import Mathlib
import PointCloud.Proofs.Patch.Reachable

/-!
# The box around the points of a patch

The bounds of a patch are the least box around the numbers that its points have for values. A NaN is
outside of every box, and does not widen one either, so there are two ways for values to relate to a
box: it encloses values that all are numbers inside of it, and it covers values of which those that
are numbers are inside of it. The box of a patch covers its points, and a box that encloses one of
them has a place in common with it.

Main results:

* `Bounds.contains_iff_encloses` — the test of points by a box;
* `Patch.Holds.covers` — the box of a patch covers the points of the patch;
* `Bounds.intersects_of_covers` — a box that encloses what another covers intersects it;
* `Schema.bounds_append_agree` — the box of joined points is the two boxes merged.
-/

namespace PointCloud

open Binary64 (number?)

/-! ## Comparing numbers -/

namespace Binary64

variable {x y z : Binary64}

theorem le_iff_number? :
    x.le y = true ↔ ∃ m n, x.number? = some m ∧ y.number? = some n ∧ m ≤ n := by
  unfold le number?
  cases x.isNaN <;> cases y.isNaN <;> simp

theorem le_trans (hxy : x.le y = true) (hyz : y.le z = true) : x.le z = true := by
  obtain ⟨l, m, hx, hy, hlm⟩ := le_iff_number?.mp hxy
  obtain ⟨m', n, hy', hz, hmn⟩ := le_iff_number?.mp hyz
  obtain rfl : m = m' := Option.some.inj (hy.symm.trans hy')
  exact le_iff_number?.mpr ⟨l, n, hx, hz, Int.le_trans hlm hmn⟩

/-- What compares as equal may take the place of a lower end. -/
theorem le_of_equals_of_le (hxy : x.equals y = true) (hyz : y.le z = true) : x.le z = true := by
  obtain ⟨m, n, hy, hz, hmn⟩ := le_iff_number?.mp hyz
  exact le_iff_number?.mpr ⟨m, n, (number?_eq_iff.mpr (.inl hxy)).trans hy, hz, hmn⟩

/-- And of an upper end. -/
theorem le_of_le_of_equals (hxy : x.le y = true) (hyz : z.equals y = true) : x.le z = true := by
  obtain ⟨m, n, hx, hy, hmn⟩ := le_iff_number?.mp hxy
  exact le_iff_number?.mpr ⟨m, n, hx, (number?_eq_iff.mpr (.inl hyz)).trans hy, hmn⟩

theorem equals_symm (h : x.equals y = true) : y.equals x = true := by
  obtain ⟨n, hx, hy⟩ := equals_iff_number?.mp h
  exact equals_iff_number?.mpr ⟨n, hy, hx⟩

theorem equals_of_le_of_le (hxy : x.le y = true) (hyx : y.le x = true) : x.equals y = true := by
  simp only [le, equals, Bool.and_eq_true, decide_eq_true_eq] at *
  exact ⟨hxy.1, le_antisymm hxy.2 hyx.2⟩

theorem isNaN_of_le_left (h : x.le y = true) : x.isNaN = false := by
  obtain ⟨m, n, hx, -⟩ := le_iff_number?.mp h
  exact isNaN_of_number? hx

end Binary64

/-! ## Ends -/

section Ends

variable {r : Int → Int → Prop} {op : Int → Int → Int}

/-- A fold of an operation that stays on one side of both of its arguments stays on that side of
where it starts. -/
theorem foldl_rel_start [IsPreorder Int r] (hleft : ∀ a b, r (op a b) a) (ns : List Int)
    (start : Int) : r (ns.foldl op start) start := by
  induction ns generalizing start with
  | nil => exact refl start
  | cons n ns ih =>
    rw [List.foldl_cons]
    exact IsTrans.trans _ _ _ (ih (op start n)) (hleft start n)

/-- And on that side of all that it goes over. -/
theorem foldl_rel_of_mem [IsPreorder Int r] (hleft : ∀ a b, r (op a b) a)
    (hright : ∀ a b, r (op a b) b) {ns : List Int} {n : Int} (h : n ∈ ns) (start : Int) :
    r (ns.foldl op start) n := by
  induction ns generalizing start with
  | nil => cases h
  | cons m ns ih =>
    rw [List.foldl_cons]
    -- After the element the fold only goes further; before it, the start does not matter.
    rcases List.mem_cons.mp h with heq | hmem
    · rw [heq]
      exact IsTrans.trans _ _ _ (foldl_rel_start hleft ns (op start m)) (hright start m)
    · exact ih hmem (op start m)

variable {values : List Binary64} {value : Binary64}

theorem least_le (h : value ∈ values) (hnumber : value.isNaN = false) :
    (least values).le value = true := by
  have hplace := Binary64.number?_of_not_isNaN hnumber
  have hmem : value.place ∈ values.filterMap number? := List.mem_filterMap.mpr ⟨value, h, hplace⟩
  exact Binary64.le_iff_number?.mpr ⟨_, _, number?_least values, hplace,
    foldl_rel_of_mem Int.min_le_left Int.min_le_right hmem _⟩

theorem le_greatest (h : value ∈ values) (hnumber : value.isNaN = false) :
    value.le (greatest values) = true := by
  have hplace := Binary64.number?_of_not_isNaN hnumber
  have hmem : value.place ∈ values.filterMap number? := List.mem_filterMap.mpr ⟨value, h, hplace⟩
  exact Binary64.le_iff_number?.mpr ⟨_, _, hplace, number?_greatest values,
    foldl_rel_of_mem (r := (· ≥ ·)) Int.le_max_left Int.le_max_right hmem _⟩

end Ends

/-! ## Boxes and values -/

namespace Bounds

/-- All values are numbers inside of a box. -/
def Encloses : Bounds → List Binary64 → Prop
  | .empty, _ => False
  | .extent lows highs, values =>
    List.Forall₂ (fun low value => low.le value = true) lows values ∧
      List.Forall₂ (fun value high => value.le high = true) values highs

instance : (b : Bounds) → (values : List Binary64) → Decidable (b.Encloses values)
  | .empty, _ => .isFalse id
  | .extent _ _, _ => inferInstanceAs (Decidable (_ ∧ _))

/-- The values that are numbers are inside of a box. -/
def Covers : Bounds → List Binary64 → Prop
  | .empty, _ => False
  | .extent lows highs, values =>
    List.Forall₂ (fun low value => value.isNaN = false → low.le value = true) lows values ∧
      List.Forall₂ (fun value high => value.isNaN = false → value.le high = true) values highs

/-- A box with an end of either kind for every dimension. -/
def HasWidth (width : Nat) : Bounds → Prop
  | .empty => True
  | .extent lows highs => lows.length = width ∧ highs.length = width

theorem contains_iff_encloses {b : Bounds} {values : List Binary64}
    (hwidth : b.HasWidth values.length) : b.contains values = true ↔ b.Encloses values := by
  cases b with
  | empty => simp [contains, Encloses]
  | extent lows highs =>
    obtain ⟨hlows, hhighs⟩ := hwidth
    simp only [contains, Encloses, hlows, beq_self_eq_true, Bool.true_and]
    -- One dimension after the other.
    induction values generalizing lows highs with
    | nil =>
      obtain rfl := List.eq_nil_of_length_eq_zero hlows
      obtain rfl := List.eq_nil_of_length_eq_zero hhighs
      simp
    | cons value values ih =>
      obtain ⟨low, lows, rfl⟩ := List.exists_cons_of_length_eq_add_one hlows
      obtain ⟨high, highs, rfl⟩ := List.exists_cons_of_length_eq_add_one hhighs
      have hrest := ih lows highs (Nat.succ.inj hlows) (Nat.succ.inj hhighs)
      simp only [List.zip_cons_cons, List.all_cons, Bool.and_eq_true, hrest, List.forall₂_cons]
      exact and_and_and_comm

theorem Encloses.covers {b : Bounds} {values : List Binary64} (h : b.Encloses values) :
    b.Covers values := by
  cases b with
  | empty => exact h
  | extent lows highs =>
    refine ⟨h.1.imp ?_, h.2.imp ?_⟩
    · exact fun _ _ hle _ => hle
    · exact fun _ _ hle _ => hle

/-- Boxes intersect if one covers what the other encloses. -/
theorem intersects_of_covers {a b : Bounds} {values : List Binary64} (ha : a.Covers values)
    (hb : b.Encloses values) : a.intersects b = true := by
  cases a with
  | empty => exact ha.elim
  | extent lows highs =>
    cases b with
    | empty => exact hb.elim
    | extent lows' highs' =>
      obtain ⟨hlows, hhighs⟩ := ha
      obtain ⟨hlows', hhighs'⟩ := hb
      have hlength : lows.length = lows'.length :=
        hlows.length_eq.trans hlows'.length_eq.symm
      simp only [intersects, hlength, beq_self_eq_true, Bool.true_and]
      clear hlength
      -- In every dimension the value is between the ends of both boxes.
      induction hlows generalizing highs lows' highs' with
      | nil =>
        cases hlows'
        simp
      | @cons low value lows values hlow _ ih =>
        obtain ⟨high, highs, hhigh, hupper, rfl⟩ := List.forall₂_cons_left_iff.mp hhighs
        obtain ⟨low', lows', hlow', hlower', rfl⟩ := List.forall₂_cons_right_iff.mp hlows'
        obtain ⟨high', highs', hhigh', hupper', rfl⟩ := List.forall₂_cons_left_iff.mp hhighs'
        have hnumber : value.isNaN = false := Binary64.isNaN_of_le_left hhigh'
        have hrest := ih highs lows' highs' hupper hlower' hupper'
        simp only [List.zip_cons_cons, List.all_cons, hrest, Bool.and_true, Bool.and_eq_true]
        exact ⟨Binary64.le_trans (hlow hnumber) hhigh', Binary64.le_trans hlow' (hhigh hnumber)⟩

end Bounds

/-! ## Boxes and rows -/

theorem Row.mem_columns {width : Nat} {rows : List Row} {row : Row} (h : row ∈ rows)
    (hlength : row.length = width) :
    List.Forall₂ (fun words word => word ∈ words) (columns width rows) row := by
  induction width generalizing rows row with
  | zero =>
    obtain rfl := List.eq_nil_of_length_eq_zero hlength
    exact .nil
  | succ width ih =>
    obtain ⟨word, row, rfl⟩ := List.exists_cons_of_length_eq_add_one hlength
    refine .cons ?_ (ih (List.mem_map.mpr ⟨_, h, rfl⟩) (Nat.succ.inj hlength))
    exact List.mem_map.mpr ⟨_, h, rfl⟩

namespace Schema

variable {s : Schema} {rows : List Row} {row : Row}

@[simp] theorem length_columnValues (s : Schema) (rows : List Row) :
    (s.columnValues rows).length = s.width := by
  simp [columnValues, columns, width]

theorem length_values (h : row.length = s.width) : (s.values row).length = s.width := by
  rw [values, List.length_zipWith, h]
  exact Nat.min_self s.width

/-- The values of a row are found in the columns that it is a row of. -/
theorem values_mem_columnValues (h : row ∈ rows) (hlength : row.length = s.width) :
    List.Forall₂ (fun values value => value ∈ values) (s.columnValues rows) (s.values row) := by
  refine forall₂_zipWith (R := (· = ·)) ?_ (List.forall₂_eq_eq_eq ▸ rfl)
    (Row.mem_columns h hlength)
  intro d e words word hde hword
  rw [hde, mapRepeats_eq_map]
  exact List.mem_map.mpr ⟨word, hword, rfl⟩

theorem bounds_of_ne_nil (h : rows ≠ []) : s.bounds rows rows.length =
    .extent ((s.columnValues rows).map least) ((s.columnValues rows).map greatest) := by
  have hlength : rows.length ≠ 0 := fun hzero => h (List.eq_nil_of_length_eq_zero hzero)
  rw [bounds, if_neg hlength, List.take_length]

end Schema

namespace Patch

variable {s : Schema} {p : Patch} {rows : List Row}

theorem Holds.count_eq_zero_iff (hp : p.Holds s rows) : p.count = 0 ↔ rows = [] := by
  rw [← UInt32.toNat_inj, ← hp.count]
  exact List.length_eq_zero_iff

/-- A patch with points has a box, whose ends are those of the columns as far as numbers go. -/
theorem Holds.exists_ends (hp : p.Holds s rows) (hne : rows ≠ []) :
    ∃ lows highs, p.bounds = .extent lows highs ∧
      List.Forall₂ (fun low values => low.equals (least values) = true) lows (s.columnValues rows) ∧
      List.Forall₂ (fun high values => high.equals (greatest values) = true) highs
        (s.columnValues rows) := by
  have hbounds := hp.bounds
  rw [Schema.bounds_of_ne_nil hne] at hbounds
  cases hextent : p.bounds with
  | empty =>
    rw [hextent] at hbounds
    exact hbounds.elim
  | extent lows highs =>
    rw [hextent] at hbounds
    exact ⟨lows, highs, rfl, List.forall₂_map_right_iff.mp hbounds.1,
      List.forall₂_map_right_iff.mp hbounds.2⟩

theorem Holds.hasWidth (hp : p.Holds s rows) : p.bounds.HasWidth s.width := by
  by_cases hne : rows = []
  · rw [hp.bounds_eq_empty_iff.mpr (hp.count_eq_zero_iff.mpr hne)]
    trivial
  · obtain ⟨lows, highs, hbounds, hlows, hhighs⟩ := hp.exists_ends hne
    rw [hbounds]
    exact ⟨hlows.length_eq.trans (s.length_columnValues rows),
      hhighs.length_eq.trans (s.length_columnValues rows)⟩

/-- The box of a patch covers the points of the patch. -/
theorem Holds.covers (hp : p.Holds s rows) {row : Row} (h : row ∈ rows) :
    p.bounds.Covers (s.values row) := by
  have hlength := s.length_of_fits (hp.fits row h)
  obtain ⟨lows, highs, hbounds, hlows, hhighs⟩ := hp.exists_ends (List.ne_nil_of_mem h)
  have hmem := Schema.values_mem_columnValues h hlength
  rw [hbounds]
  -- The value of a dimension is between the ends of its column.
  refine ⟨forall₂_trans hlows hmem ?_, forall₂_trans hmem.flip hhighs.flip ?_⟩
  · intro low values value hlow hvalue hnumber
    exact Binary64.le_of_equals_of_le hlow (least_le hvalue hnumber)
  · intro value values high hvalue hhigh hnumber
    exact Binary64.le_of_le_of_equals (le_greatest hvalue hnumber) hhigh

/-- Two points of the plane: one at (7, -256) of class 3, one at (9, -255) of class 3. -/
def planar : Patch :=
  let s := Schema.planar
  let buffer : Bytes := [0, 7, 255, 0, 3, 0, 9, 255, 1, 3]
  let bounds := s.bounds (s.rows buffer) 2
  ⟨1, .uncompressed, 2, bounds, s.statisticsIn? bounds (s.rows buffer) 2, buffer⟩

theorem reachable_planar : Reachable Schema.planar planar := by
  have hbuilt : ofBuffer {} Schema.planar [0, 7, 255, 0, 3, 0, 9, 255, 1, 3] 2 .uncompressed =
      .ok planar := rfl
  exact .ofBuffer hbuilt

end Patch

/-! ## Joined points -/

section Joined

variable {values others : List Binary64}

theorem least_append :
    (least (values ++ others)).equals ((least values).minimum (least others)) = true := by
  refine Binary64.equals_of_number? (number?_least _) ?_
  rw [Binary64.number?_minimum (number?_least values) (number?_least others), number?_least,
    List.filterMap_append, List.foldl_append]
  -- The second fold goes on from the first, which is not above where it would have started.
  have hstart : (values.filterMap number?).foldl min (Binary64.infinity false).place ≤
      (Binary64.infinity false).place := foldl_rel_start Int.min_le_left _ _
  conv => lhs; rw [← Int.min_eq_left hstart]
  exact congrArg some List.foldl_assoc

theorem greatest_append :
    (greatest (values ++ others)).equals ((greatest values).maximum (greatest others)) = true := by
  refine Binary64.equals_of_number? (number?_greatest _) ?_
  rw [Binary64.number?_maximum (number?_greatest values) (number?_greatest others),
    number?_greatest, List.filterMap_append, List.foldl_append]
  have hstart : (Binary64.infinity true).place ≤
      (values.filterMap number?).foldl max (Binary64.infinity true).place :=
    foldl_rel_start (r := (· ≥ ·)) Int.le_max_left _ _
  conv => lhs; rw [← Int.max_eq_left hstart]
  exact congrArg some List.foldl_assoc

end Joined

theorem Row.columns_append (width : Nat) (rows others : List Row) :
    columns width (rows ++ others) =
      List.zipWith (· ++ ·) (columns width rows) (columns width others) := by
  induction width generalizing rows others with
  | zero => rfl
  | succ width ih => simp only [columns, List.map_append, ih, List.zipWith_cons_cons]

namespace Schema

theorem columnValues_append (s : Schema) (rows others : List Row) :
    s.columnValues (rows ++ others) =
      List.zipWith (· ++ ·) (s.columnValues rows) (s.columnValues others) := by
  unfold columnValues columns
  rw [Row.columns_append]
  simp only [mapRepeats_eq_map]
  -- From here on nothing depends on where the columns came from.
  generalize s.dimensions = dimensions
  generalize Row.columns s.width rows = columns
  generalize Row.columns s.width others = columns'
  induction dimensions generalizing columns columns' with
  | nil => rfl
  | cons d dimensions ih =>
    cases columns with
    | nil => rfl
    | cons words columns =>
      cases columns' with
      | nil => rfl
      | cons words' columns' =>
        simp only [List.zipWith_cons_cons, List.map_append, ih]

end Schema

namespace Bounds

variable {a b c d : Bounds}

theorem Agree.symm (h : a.Agree b) : b.Agree a := by
  cases a <;> cases b <;> simp only [Agree] at h ⊢
  have hsymm : ∀ x y : Binary64, x.equals y = true → y.equals x = true :=
    fun _ _ => Binary64.equals_symm
  exact ⟨(h.1.imp hsymm).flip, (h.2.imp hsymm).flip⟩

/-- Boxes that agree are merged into boxes that agree. -/
theorem Agree.merge (hab : a.Agree b) (hcd : c.Agree d) : (a.merge c).Agree (b.merge d) := by
  cases a <;> cases b <;> cases c <;> cases d <;> simp only [Agree] at hab hcd
  · trivial
  · exact hcd
  · exact hab
  -- Both are boxes: the lesser of two equal numbers is equal, and so is the greater.
  · refine ⟨forall₂_zipWith ?_ hab.1 hcd.1, forall₂_zipWith ?_ hab.2 hcd.2⟩
    · intro x y z w hxy hzw
      obtain ⟨m, hx, hy⟩ := Binary64.equals_iff_number?.mp hxy
      obtain ⟨n, hz, hw⟩ := Binary64.equals_iff_number?.mp hzw
      exact Binary64.equals_iff_number?.mpr
        ⟨min m n, Binary64.number?_minimum hx hz, Binary64.number?_minimum hy hw⟩
    · intro x y z w hxy hzw
      obtain ⟨m, hx, hy⟩ := Binary64.equals_iff_number?.mp hxy
      obtain ⟨n, hz, hw⟩ := Binary64.equals_iff_number?.mp hzw
      exact Binary64.equals_iff_number?.mpr
        ⟨max m n, Binary64.number?_maximum hx hz, Binary64.number?_maximum hy hw⟩

end Bounds

namespace Schema

/-- The box of joined points is the two boxes merged. -/
theorem bounds_append_agree (s : Schema) (rows others : List Row) :
    (s.bounds (rows ++ others) (rows ++ others).length).Agree
      ((s.bounds rows rows.length).merge (s.bounds others others.length)) := by
  -- No points have the empty box, which is neutral for merging.
  by_cases hrows : rows = []
  · subst hrows
    rw [List.nil_append, List.length_nil]
    show Bounds.Agree _ (Bounds.empty.merge _)
    rw [Bounds.empty_merge]
    exact bounds_agree (Alike.refl s) (List.Perm.refl others)
  by_cases hothers : others = []
  · subst hothers
    rw [List.append_nil, List.length_nil]
    show Bounds.Agree _ (Bounds.merge _ Bounds.empty)
    rw [Bounds.merge_empty]
    exact bounds_agree (Alike.refl s) (List.Perm.refl rows)
  -- With points on both sides, every column is the two columns joined.
  have hjoined : rows ++ others ≠ [] := List.append_ne_nil_of_left_ne_nil hrows others
  rw [bounds_of_ne_nil hrows, bounds_of_ne_nil hothers, bounds_of_ne_nil hjoined,
    columnValues_append]
  show Bounds.Agree (.extent _ _) (.extent (List.zipWith _ _ _) (List.zipWith _ _ _))
  rw [List.map_zipWith, List.map_zipWith, List.zipWith_map, List.zipWith_map]
  have hsame (columns : List (List Binary64)) : List.Forall₂ (· = ·) columns columns :=
    List.forall₂_same.mpr fun _ _ => rfl
  refine ⟨forall₂_zipWith ?_ (hsame _) (hsame _), forall₂_zipWith ?_ (hsame _) (hsame _)⟩
  · rintro values _ others _ rfl rfl
    exact least_append
  · rintro values _ others _ rfl rfl
    exact greatest_append

end Schema

end PointCloud
