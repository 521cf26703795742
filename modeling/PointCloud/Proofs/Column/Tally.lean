import Mathlib
import PointCloud.Column.Tally
import PointCloud.Proofs.Patch.PointOrder
import PointCloud.Proofs.Result

/-!
# Tallies of many patches

A patch that is offered to a tally is taken or refused. All checks come before the first change, so
a refusal leaves the tally as it was, and whether there is one depends on the width of the tally
alone, which never changes. So the refused patches of a sequence can be left out.

The patches that are taken are added up. A total is a sum over them, and what is recommended depends
on totals alone, whatever was recommended on the way. So the tally of the patches is that of the
same patches in another order.

Main results:

* `Tally.run_of_fits`, `Tally.run_of_not_fits` — the patches that are taken, and what a refusal is;
* `Tally.offerAll_filter` — patches that are refused may be left out;
* `Tally.offer_ofPatches` — one more patch that is taken;
* `Tally.offers_order_invisible` — the totals of a sequence of patches, whatever their order.
-/

namespace PointCloud

open DimensionTally (add refresh)

/-- A patch that is offered to a tally: the buffer of its points, and the schema it is under. -/
structure Offer where
  schema : Schema
  buffer : Bytes
  points : Nat

/-- A patch is taken by a tally of its width if its buffer holds its points. -/
def Offer.Fits (o : Offer) (width : Nat) : Prop :=
  o.schema.width = width ∧ o.buffer.length = o.points * o.schema.size ∧ o.buffer.length < 2 ^ 64

instance (o : Offer) (width : Nat) : Decidable (o.Fits width) :=
  inferInstanceAs (Decidable (_ ∧ _ ∧ _))

namespace Tally

variable {s : Schema} {t : Tally} {o : Offer} {offers others patches : List Offer}

/-! ## One patch -/

section Lifted

variable {ε σ α : Type} {result : Except ε α}

theorem run_ofExcept_ok {a : α} (h : result = .ok a) (s : σ) :
    (MonadExcept.ofExcept result : EStateM ε σ α).run s = .ok a s := by
  rw [h]
  rfl

theorem run_ofExcept_error {e : ε} (h : result = .error e) (s : σ) :
    (MonadExcept.ofExcept result : EStateM ε σ α).run s = .error e s := by
  rw [h]
  rfl

end Lifted

/-- What comes of an offer: whether it was taken, and the tally after it. -/
def run (t : Tally) (o : Offer) : EStateM.Result Error Tally Unit :=
  (addPatch o.schema o.buffer o.points).run t

/-- A patch that fits is taken. All totals are changed before the first recommendation. -/
theorem run_of_fits (h : o.Fits t.width) :
    t.run o = .ok () { t with
      points := t.points + o.points
      patches := t.patches + 1
      dimensions := changeBeside (refresh (t.points + o.points) (t.patches + 1)) o.schema.dimensions
        (changeBeside add (Column.ofRows o.schema (o.schema.rows o.buffer)) t.dimensions) } := by
  obtain ⟨hwidth, hlength, hshort⟩ := h
  have hexpected : bufferLength o.points o.schema.size = .ok o.buffer.length :=
    bufferLength_eq_ok_iff.mpr ⟨hlength ▸ hshort, hlength⟩
  simp [run, addPatch, hwidth, run_ofExcept_ok hexpected]

/-- A patch of another width is refused, and the tally stays as it was. -/
theorem run_of_other_width (h : o.schema.width ≠ t.width) :
    t.run o = .error (.invalidSchema (.tallyCountFor t.width o.schema.pcid o.schema.width)) t := by
  simp [run, addPatch, h]

/-- A patch whose buffer does not hold its points is refused, and the tally stays as it was. -/
theorem run_of_other_length (hwidth : o.schema.width = t.width) (h : ¬ o.Fits t.width) :
    ∃ cause, t.run o = .error (.corruptPatch cause) t := by
  by_cases hshort : o.points * o.schema.size < 2 ^ 64
  · have hne : ¬ o.buffer.length = o.points * o.schema.size := by
      intro hlength
      exact h ⟨hwidth, hlength, hlength ▸ hshort⟩
    have hexpected := bufferLength_eq_ok_iff.mpr ⟨hshort, rfl⟩
    refine ⟨.bufferCount o.buffer.length o.points, ?_⟩
    simp [run, addPatch, hwidth, run_ofExcept_ok hexpected, hne]
  · -- The length that the points ask for is more than any buffer may have.
    have hexpected : bufferLength o.points o.schema.size =
        .error (.corruptPatch (.addressSpace o.points o.schema.size)) := if_neg hshort
    refine ⟨.addressSpace o.points o.schema.size, ?_⟩
    simp [run, addPatch, hwidth, run_ofExcept_error hexpected]

/-- Either way a refusal changes nothing. -/
theorem run_of_not_fits (h : ¬ o.Fits t.width) : ∃ e, t.run o = .error e t := by
  by_cases hwidth : o.schema.width = t.width
  · obtain ⟨cause, hrun⟩ := run_of_other_length hwidth h
    exact ⟨_, hrun⟩
  · exact ⟨_, run_of_other_width hwidth⟩

/-! ## One after the other -/

/-- The tally after an offer, whether or not it was taken. -/
def offer (t : Tally) (o : Offer) : Tally :=
  match t.run o with
  | .ok _ t => t
  | .error _ t => t

/-- The tally after all offers of a list. -/
def offerAll (t : Tally) (offers : List Offer) : Tally := offers.foldl offer t

theorem offer_of_not_fits (h : ¬ o.Fits t.width) : t.offer o = t := by
  obtain ⟨e, herror⟩ := run_of_not_fits h
  rw [offer, herror]

/-- The width never changes. -/
theorem width_offer (t : Tally) (o : Offer) : (t.offer o).width = t.width := by
  by_cases h : o.Fits t.width
  · rw [offer, run_of_fits h]
  · rw [offer_of_not_fits h]

/-- So the patches that do not fit may be left out. -/
theorem offerAll_filter (t : Tally) (offers : List Offer) :
    t.offerAll (offers.filter (·.Fits t.width)) = t.offerAll offers := by
  induction offers generalizing t with
  | nil => rfl
  | cons o offers ih =>
    have hrest := ih (t.offer o)
    rw [width_offer] at hrest
    show _ = (t.offer o).offerAll offers
    by_cases h : o.Fits t.width
    · rw [List.filter_cons_of_pos (by simpa using h)]
      exact hrest
    · rw [List.filter_cons_of_neg (by simpa using h), offer_of_not_fits h]
      rwa [offer_of_not_fits h] at hrest

/-! ## Totals -/

/-- The points of all patches of a list. -/
def pointsOf (patches : List Offer) : Nat := (patches.map (·.points)).sum

/-- The runs of a dimension in all patches of a list. -/
def runsOf (s : Schema) (patches : List Offer) (d : Dimension) : Nat :=
  (patches.map fun o => RunLength.countRuns (s.wordsOf o.buffer o.points d)).sum

/-- The leading bits that the words of a dimension share, over all patches of a list. -/
def sharedBitsOf (s : Schema) (patches : List Offer) (d : Dimension) : Nat :=
  (patches.map fun o =>
    SharedBits.shared d.interpretation.bits (s.wordsOf o.buffer o.points d)).sum

/-- The totals of a dimension over all patches of a list, with what they recommend. -/
def dimensionOf (s : Schema) (patches : List Offer) (d : Dimension) : DimensionTally :=
  let runs := runsOf s patches d
  let sharedBits := sharedBitsOf s patches d
  ⟨runs, sharedBits, recommend d (pointsOf patches) patches.length runs sharedBits⟩

/-- The tally that is made of patches of one schema. -/
def ofPatches (s : Schema) (patches : List Offer) : Tally :=
  ⟨s.width, pointsOf patches, patches.length, s.dimensions.map (dimensionOf s patches)⟩

/-- Without patches nothing is recommended but zlib. -/
theorem ofPatches_nil (s : Schema) : ofPatches s [] = empty s := by
  have hrecommend : ∀ d : Dimension, recommend d 0 0 0 0 = .deflate := by
    intro d
    rw [recommend, if_pos (by simp)]
  rw [ofPatches, empty, Schema.width, ← List.map_const']
  refine congrArg (Tally.mk _ 0 0) (List.map_congr_left fun d _ => ?_)
  exact congrArg (DimensionTally.mk 0 0) (hrecommend d)

/-- A patch is one more of the patches for every dimension, whatever was recommended before. -/
theorem refresh_add (patches : List Offer) (o : Offer) (d : Dimension) :
    refresh (pointsOf patches + o.points) (patches.length + 1) d
        (add ⟨d, s.order, s.wordsOf o.buffer o.points d⟩ (dimensionOf s patches d)) =
      dimensionOf s (patches ++ [o]) d := by
  simp [refresh, add, dimensionOf, pointsOf, runsOf, sharedBitsOf]

/-- If there is something beside each element, all of it is changed. -/
theorem changeBeside_map {α β : Type} (f : α → DimensionTally → DimensionTally) (g : β → α)
    (h : β → DimensionTally) (bs : List β) :
    changeBeside f (bs.map g) (bs.map h) = bs.map fun b => f (g b) (h b) := by
  induction bs with
  | nil => rfl
  | cons b bs ih => rw [List.map_cons, List.map_cons, List.map_cons, changeBeside, ih]

theorem ofRows_rows (hbuffer : o.buffer.length = o.points * s.size) :
    Column.ofRows s (s.rows o.buffer) =
      s.dimensions.map fun d => ⟨d, s.order, s.wordsOf o.buffer o.points d⟩ := by
  rw [Column.ofRows, Schema.columns_rows hbuffer, List.zipWith_map_right, List.zipWith_self]

/-- And so it is for the tally. -/
theorem offer_ofPatches (howner : o.schema = s) (h : o.Fits s.width) (patches : List Offer) :
    (ofPatches s patches).offer o = ofPatches s (patches ++ [o]) := by
  have hbuffer : o.buffer.length = o.points * s.size := howner ▸ h.2.1
  have hpoints : pointsOf (patches ++ [o]) = pointsOf patches + o.points := by
    simp [pointsOf]
  have hdimensions := changeBeside_map
    (refresh (pointsOf patches + o.points) (patches.length + 1)) id
    (fun d => add ⟨d, s.order, s.wordsOf o.buffer o.points d⟩ (dimensionOf s patches d))
    s.dimensions
  rw [List.map_id] at hdimensions
  -- First the column of every dimension is added, then every dimension is looked at again.
  rw [offer, run_of_fits (t := ofPatches s patches) h, howner, ofRows_rows hbuffer]
  dsimp only [ofPatches]
  rw [changeBeside_map, hdimensions, hpoints, List.length_append, List.length_singleton]
  exact congrArg (Tally.mk _ _ _) (List.map_congr_left fun d _ => refresh_add patches o d)

/-- So a tally that takes all patches of a list is made of them. -/
theorem offerAll_ofPatches (htaken : ∀ o ∈ patches, o.Fits s.width ∧ o.schema = s) :
    (empty s).offerAll patches = ofPatches s patches := by
  rw [← ofPatches_nil]
  -- The tally so far is made of the patches so far.
  induction patches using List.reverseRecOn with
  | nil => rfl
  | append_singleton patches o ih =>
    simp only [List.forall_mem_append, List.forall_mem_singleton] at htaken
    obtain ⟨hpatches, hfits, howner⟩ := htaken
    rw [offerAll, List.foldl_append, List.foldl_cons, List.foldl_nil, ← offerAll, ih hpatches]
    exact offer_ofPatches howner hfits patches

/-- The patches that a tally takes are all it depends on, if they are under one schema. -/
theorem offerAll_empty (howner : ∀ o ∈ offers, o.Fits s.width → o.schema = s) :
    (empty s).offerAll offers = ofPatches s (offers.filter (·.Fits s.width)) := by
  have hleft := offerAll_filter (empty s) offers
  rw [← hleft]
  refine offerAll_ofPatches fun o ho => ?_
  obtain ⟨hmem, hfits⟩ := List.mem_filter.mp ho
  exact ⟨of_decide_eq_true hfits, howner o hmem (of_decide_eq_true hfits)⟩

/-- Sums do not depend on the order of what is added, and recommendations depend on sums. -/
theorem ofPatches_perm (h : patches.Perm others) : ofPatches s patches = ofPatches s others := by
  have hpoints : pointsOf patches = pointsOf others := (h.map _).sum_eq
  have hruns : runsOf s patches = runsOf s others := funext fun d => (h.map _).sum_eq
  have hshared : sharedBitsOf s patches = sharedBitsOf s others :=
    funext fun d => (h.map _).sum_eq
  have hdimension : dimensionOf s patches = dimensionOf s others := by
    funext d
    rw [dimensionOf, dimensionOf, hpoints, hruns, hshared, h.length_eq]
  rw [ofPatches, ofPatches, hpoints, hdimension, h.length_eq]

/-- All totals fit into words of eight bytes. -/
def FitsWords (t : Tally) : Prop :=
  t.points < 2 ^ 64 ∧ t.patches < 2 ^ 64 ∧
    ∀ d ∈ t.dimensions, d.runs < 2 ^ 64 ∧ d.sharedBits < 2 ^ 64

/-- Totals only grow. -/
theorem fitsWords_of_append (h : (ofPatches s (patches ++ others)).FitsWords) :
    (ofPatches s patches).FitsWords := by
  obtain ⟨hpoints, hpatches, hdimensions⟩ := h
  simp only [ofPatches, List.forall_mem_map, dimensionOf, pointsOf, runsOf, sharedBitsOf,
    List.map_append, List.sum_append, List.length_append] at hpoints hpatches hdimensions
  refine ⟨Nat.lt_of_add_right_lt hpoints, Nat.lt_of_add_right_lt hpatches, ?_⟩
  refine List.forall_mem_map.mpr fun d hd => ?_
  obtain ⟨hruns, hshared⟩ := hdimensions d hd
  exact ⟨Nat.lt_of_add_right_lt hruns, Nat.lt_of_add_right_lt hshared⟩

/-! ## Every sequence of patches -/

/-- The same patches in another order, with other refusals among them, end in the same tally. -/
theorem offerAll_perm (howner : ∀ o ∈ offers, o.Fits s.width → o.schema = s)
    (h : (others.filter (·.Fits s.width)).Perm (offers.filter (·.Fits s.width))) :
    (empty s).offerAll others = (empty s).offerAll offers := by
  -- What fits is found among the first offers, where it is under the schema of the tally.
  have howner' : ∀ o ∈ others, o.Fits s.width → o.schema = s := by
    intro o ho hfits
    have htaken := h.mem_iff.mp (List.mem_filter.mpr ⟨ho, decide_eq_true hfits⟩)
    exact howner o (List.mem_filter.mp htaken).1 hfits
  rw [offerAll_empty howner', offerAll_empty howner, ofPatches_perm h]

/-- Totals that fit into words in the end do all along. -/
theorem fitsWords_of_isPrefix {fewer : List Offer}
    (howner : ∀ o ∈ offers, o.Fits s.width → o.schema = s) (hfewer : fewer <+: offers)
    (h : ((empty s).offerAll offers).FitsWords) : ((empty s).offerAll fewer).FitsWords := by
  obtain ⟨more, rfl⟩ := hfewer
  rw [List.forall_mem_append] at howner
  rw [offerAll_empty (List.forall_mem_append.mpr howner), List.filter_append] at h
  rw [offerAll_empty howner.1]
  exact fitsWords_of_append h

/-- A tally that begins empty is offered patches, those that fit it all under its schema. Its totals
are then the sums over the patches that fit, and recommendations follow from the totals, zlib for
all floating dimensions. Another sequence of offers ends in the same tally if the same patches fit,
in whatever order, whatever else is offered among them. If the totals fit into words in the end,
they do all along. An offer to any tally is taken if it fits; else it is refused, for its width or
for its length, and the tally stays as it was, so that it may be left out. -/
theorem offers_order_invisible (s : Schema) (offers : List Offer)
    (howner : ∀ o ∈ offers, o.Fits s.width → o.schema = s) :
    let t := (empty s).offerAll offers
    let taken := offers.filter (·.Fits s.width)
    (t.width = s.width ∧ t.points = (taken.map (·.points)).sum ∧ t.patches = taken.length ∧
      t.dimensions.length = s.width) ∧
    (∀ d ∈ s.dimensions, ∃ total, t.dimensions[d.position]? = some total ∧
      total.runs =
        (taken.map fun o => RunLength.countRuns (s.wordsOf o.buffer o.points d)).sum ∧
      total.sharedBits = (taken.map fun o =>
        SharedBits.shared d.interpretation.bits (s.wordsOf o.buffer o.points d)).sum ∧
      total.recommendation = recommend d t.points t.patches total.runs total.sharedBits ∧
      (d.interpretation.isFloat = true → total.recommendation = .deflate)) ∧
    (∀ others, (others.filter (·.Fits s.width)).Perm taken → (empty s).offerAll others = t) ∧
    (t.FitsWords → ∀ fewer, fewer <+: offers → ((empty s).offerAll fewer).FitsWords) ∧
    (∀ (t' : Tally) (more : List Offer),
      t'.offerAll (more.filter (·.Fits t'.width)) = t'.offerAll more) ∧
    ∀ (t' : Tally) (o : Offer),
      (o.Fits t'.width → t'.run o = .ok () (t'.offer o)) ∧
      (¬ o.Fits t'.width → t'.offer o = t' ∧
        (o.schema.width ≠ t'.width ∧ (∃ fault, t'.run o = .error (.invalidSchema fault) t') ∨
          o.schema.width = t'.width ∧ ∃ cause, t'.run o = .error (.corruptPatch cause) t')) := by
  intro t taken
  have ht : t = ofPatches s taken := offerAll_empty howner
  refine ⟨?_, ?_, fun others hperm => offerAll_perm howner hperm,
    fun hwords fewer hfewer => fitsWords_of_isPrefix howner hfewer hwords, offerAll_filter, ?_⟩
  · rw [ht]
    exact ⟨rfl, rfl, rfl, List.length_map _⟩
  -- the totals of a dimension, found at its position
  · intro d hd
    refine ⟨dimensionOf s taken d, ?_, rfl, rfl, ?_, ?_⟩
    · rw [ht, ofPatches, List.getElem?_map, Schema.getElem_position hd, Option.map_some]
    · rw [ht]
      rfl
    · exact fun hfloat => recommend_of_isFloat hfloat _ _ _ _
  -- one offer, to any tally
  · intro t' o
    refine ⟨fun hfits => ?_, fun hfits => ⟨offer_of_not_fits hfits, ?_⟩⟩
    · rw [offer, run_of_fits hfits]
    · by_cases hwidth : o.schema.width = t'.width
      · exact .inr ⟨hwidth, run_of_other_length hwidth hfits⟩
      · exact .inl ⟨hwidth, _, run_of_other_width hwidth⟩

/-- Two patches, and the same patches in the other order with two offers among them that are
refused: one of a wider schema, one whose buffer is too short. -/
theorem offers_order_invisible_measured :
    let s := Schema.measured
    let height : Dimension := { name := "Height", position := 1, interpretation := .float32 }
    let two : Offer := ⟨s, [0, 7, 127, 192, 0, 0, 255, 255, 63, 128, 0, 0], 2⟩
    let one : Offer := ⟨s, [0, 7, 63, 128, 0, 0], 1⟩
    let wide : Offer := ⟨Schema.planar, [0, 7, 255, 0, 3], 1⟩
    let short : Offer := ⟨s, [0, 7, 63], 1⟩
    let t := (empty s).offerAll [two, one]
    (∀ o ∈ [two, one], o.Fits s.width → o.schema = s) ∧
    (empty s).offerAll [one, wide, two, short] = t ∧ t.points = 3 ∧ t.patches = 2 ∧
    (∃ total, t.dimensions[height.position]? = some total ∧ total.runs = 3 ∧
      total.sharedBits = 33 ∧ total.recommendation = .deflate) ∧
    (∃ fault, t.run wide = .error (.invalidSchema fault) t) ∧
    (∃ cause, t.run short = .error (.corruptPatch cause) t) := by
  intro s height two one wide short t
  have howner : ∀ o ∈ [two, one], o.Fits s.width → o.schema = s := by
    intro o ho _
    rcases List.mem_pair.mp ho with rfl | rfl <;> rfl
  have htaken : [two, one].filter (·.Fits s.width) = [two, one] := rfl
  have hothers : [one, wide, two, short].filter (·.Fits s.width) = [one, two] := rfl
  obtain ⟨⟨-, hpoints, hpatches, -⟩, htotals, horder, -, -, hoffer⟩ :=
    offers_order_invisible s [two, one] howner
  obtain ⟨total, htotal, hruns, hshared, -, hfloat⟩ := htotals height (by decide)
  rw [htaken] at hpoints hpatches horder hruns hshared
  refine ⟨howner, ?_, hpoints, hpatches, ⟨total, htotal, ?_, ?_, hfloat rfl⟩, ?_, ?_⟩
  · exact horder _ (hothers ▸ List.Perm.swap two one [])
  · rw [hruns]
    decide
  · rw [hshared]
    decide
  · rcases ((hoffer t wide).2 (by decide)).2 with ⟨-, hrefused⟩ | ⟨hsame, -⟩
    · exact hrefused
    · exact absurd hsame (by decide)
  · rcases ((hoffer t short).2 (by decide)).2 with ⟨hother, -⟩ | ⟨-, hrefused⟩
    · exact absurd rfl hother
    · exact hrefused

end Tally

end PointCloud
