import Mathlib
import PointCloud.Proofs.Patch.Bounds

/-!
# Joined patches

Joining patches concatenates what they decode to, whatever their schemes are: a scheme that groups
points gives way to one that keeps their order. Counts add up and boxes merge. The result is
determined by the points alone, so it does not matter in which way several patches are joined.

Main results:

* `Patch.exists_holds_of_merge` — a joined patch holds the rows of the patches, in order;
* `Patch.bounds_flatten_agree` — the box of joined points is the boxes merged one by one;
* `Patch.exists_merge` — patches can be joined if there is room and no column gets too long;
* `Patch.merge_concatenates` — joining patches that are reached, and joining in another way.
-/

namespace PointCloud

theorem Scheme.keepingOrder_ne (scheme : Scheme) : scheme.keepingOrder ≠ .hierarchical := by
  cases scheme <;> decide

theorem Schema.bytes_flatten (s : Schema) (parts : List (List Row)) :
    s.bytes parts.flatten = (parts.map s.bytes).flatten := by
  induction parts with
  | nil => rfl
  | cons rows parts ih =>
    rw [List.flatten_cons, List.map_cons, List.flatten_cons, ← ih, bytes_append]

namespace Patch

variable {config : Config} {s : Schema} {patches : List Patch} {parts : List (List Row)}
  {target : Option Scheme} {q : Patch}

/-! ## Rows -/

/-- The room for all patches together is room for each of them. -/
theorem mapM_rows_eq (hparts : List.Forall₂ (Holds s) patches parts)
    (hroom : reserve ((patches.map fun p => p.count.toNat * s.size).sum) = .ok ()) :
    patches.mapM (·.rows s) = .ok parts := by
  induction hparts with
  | nil => rfl
  | @cons p rows patches parts hp _ ih =>
    rw [List.map_cons, List.sum_cons] at hroom
    have hfirst := hp.rows_eq (reserve_mono (Nat.le_add_right _ _) hroom)
    have hrest := ih (reserve_mono (Nat.le_add_left _ _) hroom)
    rw [List.mapM_cons, hfirst, Result.ok_bind, hrest]
    rfl

theorem length_flatten_parts (hparts : List.Forall₂ (Holds s) patches parts) :
    parts.flatten.length = (patches.map fun p => p.count.toNat).sum := by
  induction hparts with
  | nil => rfl
  | cons hp _ ih =>
    rw [List.flatten_cons, List.length_append, ih, hp.count, List.map_cons, List.sum_cons]

theorem fits_of_mem_flatten (hparts : List.Forall₂ (Holds s) patches parts) :
    ∀ row ∈ parts.flatten, Row.Fits s.sizes row := by
  intro row hrow
  obtain ⟨rows, hrows, hrow⟩ := List.mem_flatten.mp hrow
  obtain ⟨p, -, hp⟩ := exists_mem_of_forall₂ hparts hrows
  exact hp.fits row hrow

theorem sum_sizes (patches : List Patch) (s : Schema) :
    (patches.map fun p => p.count.toNat * s.size).sum =
      (patches.map fun p => p.count.toNat).sum * s.size := by
  induction patches with
  | nil => simp
  | cons p patches ih =>
    rw [List.map_cons, List.sum_cons, ih, List.map_cons, List.sum_cons, Nat.add_mul]

/-- A joined patch holds the rows of the patches, in order. -/
theorem exists_holds_of_merge [Compressors] [LawfulCompressors]
    (hparts : List.Forall₂ (Holds s) patches parts) (h : merge config s patches target = .ok q) :
    reserve (parts.flatten.length * s.size) = .ok () ∧ q.scheme ≠ .hierarchical ∧
      q.Holds s parts.flatten := by
  unfold merge at h
  split at h
  · cases h
  rename_i first rest
  obtain ⟨_, -, h⟩ := Result.bind_eq_ok_iff.mp h
  obtain ⟨⟨⟩, hroom, h⟩ := Result.bind_eq_ok_iff.mp h
  obtain ⟨rows, hrows, hbuilt⟩ := Result.bind_eq_ok_iff.mp h
  unfold joinedRows at hrows
  rw [mapM_rows_eq hparts hroom, Result.ok_bind] at hrows
  obtain rfl : parts.flatten = rows := Except.ok.inj hrows
  -- The scheme keeps the order, so the rows are held as they were given.
  obtain ⟨hscheme, kept, -, hkept, hq⟩ := exists_holds_of_ofRows (fits_of_mem_flatten hparts) hbuilt
  obtain rfl := hkept (Scheme.keepingOrder_ne _)
  refine ⟨?_, ?_, hq⟩
  · rw [length_flatten_parts hparts, ← sum_sizes]
    exact hroom
  · rw [hscheme]
    exact Scheme.keepingOrder_ne _

/-- A patch joined from two holds the rows of the one and then those of the other. -/
theorem exists_holds_of_union [Compressors] [LawfulCompressors] {a b : Patch}
    {rows others : List Row} (ha : a.Holds s rows) (hb : b.Holds s others)
    (h : a.union b config s target = .ok q) :
    reserve ((rows ++ others).length * s.size) = .ok () ∧ q.scheme ≠ .hierarchical ∧
      q.Holds s (rows ++ others) := by
  have hjoined := exists_holds_of_merge (.cons ha (.cons hb .nil)) h
  rwa [List.flatten_cons, List.flatten_cons, List.flatten_nil, List.append_nil] at hjoined

/-! ## Boxes -/

/-- The box of joined points is the boxes of the patches merged one by one, from that of the points
before them. -/
theorem foldl_merge_agree (hparts : List.Forall₂ (Holds s) patches parts) {before : List Row}
    {box : Bounds} (hbox : (s.bounds before before.length).Agree box) :
    (s.bounds (before ++ parts.flatten) (before ++ parts.flatten).length).Agree
      ((patches.map fun p => p.bounds).foldl Bounds.merge box) := by
  induction hparts generalizing before box with
  | nil => rwa [List.flatten_nil, List.append_nil]
  | @cons p rows patches parts hp _ ih =>
    rw [List.map_cons, List.foldl_cons, List.flatten_cons, ← List.append_assoc]
    -- The points of the first patch go to those before, and its box is merged into theirs.
    refine ih ((s.bounds_append_agree before rows).trans ?_)
    exact hbox.merge hp.bounds.symm

theorem bounds_flatten_agree (hparts : List.Forall₂ (Holds s) patches parts) :
    (s.bounds parts.flatten parts.flatten.length).Agree
      ((patches.map fun p => p.bounds).foldl Bounds.merge .empty) := by
  have hbox : (s.bounds ([] : List Row) ([] : List Row).length).Agree .empty := trivial
  exact foldl_merge_agree hparts hbox

/-! ## Refusals -/

/-- Patches are refused for the first of them that is of another schema. -/
theorem forM_checkPcid {p : Patch} (h : patches.find? (fun p => p.pcid ≠ s.pcid) = some p) :
    (patches.forM fun p => s.checkPcid p.pcid) = .error (.schemaMismatch s.pcid p.pcid) := by
  induction patches with
  | nil => cases h
  | cons first rest ih =>
    show (s.checkPcid first.pcid >>= fun _ => rest.forM fun p => s.checkPcid p.pcid) = _
    -- The check passes over a patch exactly if the search does.
    by_cases hfirst : first.pcid = s.pcid
    · rw [List.find?_cons_of_neg (by simpa using hfirst)] at h
      rw [Schema.checkPcid, if_pos hfirst, Result.ok_bind]
      exact ih h
    · rw [List.find?_cons_of_pos (by simpa using hfirst)] at h
      obtain rfl : first = p := Option.some.inj h
      rw [Schema.checkPcid, if_neg hfirst, Result.error_bind]

theorem merge_of_other_schema [Compressors] {p : Patch}
    (h : patches.find? (fun p => p.pcid ≠ s.pcid) = some p) :
    merge config s patches target = .error (.schemaMismatch s.pcid p.pcid) := by
  cases patches with
  | nil => cases h
  | cons first rest =>
    unfold merge
    rw [forM_checkPcid h]
    rfl

/-! ## Joining -/

/-- A patch of the points of several patches, one after the other. -/
structure Joins (s : Schema) (patches : List Patch) (q : Patch) (buffers : List Bytes) : Prop where
  decoded : List.Forall₂ (fun p buffer => p.decode s = .ok buffer) patches buffers
  decode  : q.decode s = .ok buffers.flatten
  count   : q.count.toNat = (patches.map fun p => p.count.toNat).sum
  bounds  : q.bounds.Agree ((patches.map fun p => p.bounds).foldl Bounds.merge .empty)
  ordered : q.scheme ≠ .hierarchical

theorem Reachable.exists_parts [Compressors] [LawfulCompressors]
    (hpatches : ∀ p ∈ patches, Reachable s p) :
    ∃ parts, List.Forall₂ (Holds s) patches parts := by
  induction patches with
  | nil => exact ⟨[], .nil⟩
  | cons p patches ih =>
    obtain ⟨rows, hp⟩ := (hpatches p List.mem_cons_self).exists_holds
    obtain ⟨parts, hparts⟩ := ih fun p hp => hpatches p (List.mem_cons_of_mem _ hp)
    exact ⟨rows :: parts, .cons hp hparts⟩

/-- With room for all of them, patches decode to the buffers of their rows. -/
theorem decode_eq_of_parts (hparts : List.Forall₂ (Holds s) patches parts)
    (hroom : reserve (parts.flatten.length * s.size) = .ok ()) :
    List.Forall₂ (fun p buffer => p.decode s = .ok buffer) patches (parts.map s.bytes) := by
  induction hparts with
  | nil => exact .nil
  | @cons p rows patches parts hp _ ih =>
    rw [List.flatten_cons, List.length_append, Nat.add_mul] at hroom
    refine .cons (hp.decode_eq ?_) (ih (reserve_mono (Nat.le_add_left _ _) hroom))
    rw [← hp.count]
    exact reserve_mono (Nat.le_add_right _ _) hroom

theorem exists_joins [Compressors] [LawfulCompressors] (hpatches : ∀ p ∈ patches, Reachable s p)
    (h : merge config s patches target = .ok q) : ∃ buffers, Joins s patches q buffers := by
  obtain ⟨parts, hparts⟩ := Reachable.exists_parts hpatches
  obtain ⟨hroom, hordered, hq⟩ := exists_holds_of_merge hparts h
  refine ⟨parts.map s.bytes, decode_eq_of_parts hparts hroom, ?_, ?_, ?_, hordered⟩
  · have hroom' : reserve (q.count.toNat * s.size) = .ok () := by rwa [← hq.count]
    rw [hq.decode_eq hroom', s.bytes_flatten]
  · rw [← hq.count, length_flatten_parts hparts]
  · exact hq.bounds.trans (bounds_flatten_agree hparts)

/-! ## Success -/

/-- A buffer whose columns fit the length field of a column can be built under every scheme that
keeps the order. -/
theorem exists_ofBuffer [Compressors] (config : Config) {buffer : Bytes} {points : Nat}
    {scheme : Scheme} (hscheme : scheme ≠ .hierarchical) (hbuffer : buffer.length = points * s.size)
    (hcolumns : ∀ d ∈ s.dimensions, points * d.size < 2 ^ 32)
    (hroom : reserve (points * s.size) = .ok ()) :
    ∃ p, ofBuffer config s buffer points scheme = .ok p := by
  have hwrites := Scheme.writes_of_columns hscheme config hbuffer hcolumns hroom
  exact exists_ofBuffer_of_writes hwrites (s.points_lt_of_columns hcolumns)

theorem forM_checkPcid_eq_ok (hparts : List.Forall₂ (Holds s) patches parts) :
    (patches.forM fun p => s.checkPcid p.pcid) = .ok () := by
  refine Result.forM_eq_ok fun p hp => ?_
  obtain ⟨rows, -, hp⟩ := exists_mem_of_forall₂ hparts.flip hp
  exact if_pos hp.pcid

/-- With room for all of them, patches are joined by building a patch of their rows. -/
theorem merge_eq_of_parts [Compressors] (config : Config) (target : Option Scheme) {first : Patch}
    {rest : List Patch} (hparts : List.Forall₂ (Holds s) (first :: rest) parts)
    (hroom : reserve (parts.flatten.length * s.size) = .ok ()) :
    merge config s (first :: rest) target =
      ofRows config s parts.flatten (target.getD (preferredScheme first rest)).keepingOrder := by
  have hreserved : reserve (((first :: rest).map fun p => p.count.toNat * s.size).sum) =
      .ok () := by
    rw [sum_sizes, ← length_flatten_parts hparts]
    exact hroom
  show ((first :: rest).forM (fun p => s.checkPcid p.pcid) >>= fun _ => reserve _ >>= fun _ =>
    ((first :: rest).mapM (·.rows s) >>= fun parts => .ok parts.flatten) >>= fun rows =>
      ofRows config s rows _) = _
  rw [forM_checkPcid_eq_ok hparts, Result.ok_bind, hreserved, Result.ok_bind,
    mapM_rows_eq hparts hreserved, Result.ok_bind, Result.ok_bind]

/-- Patches can be joined whenever there is room for all of them and the columns of the whole fit
the length field of a column. -/
theorem exists_merge [Compressors] (config : Config) (target : Option Scheme)
    (hparts : List.Forall₂ (Holds s) patches parts) (hne : patches ≠ [])
    (hroom : reserve (parts.flatten.length * s.size) = .ok ())
    (hcolumns : ∀ d ∈ s.dimensions, parts.flatten.length * d.size < 2 ^ 32) :
    ∃ q, merge config s patches target = .ok q := by
  have hlength : (s.bytes parts.flatten).length = parts.flatten.length * s.size :=
    s.length_bytes fun row hrow => s.length_of_fits (fits_of_mem_flatten hparts row hrow)
  cases patches with
  | nil => exact absurd rfl hne
  | cons first rest =>
    obtain ⟨q, hq⟩ := exists_ofBuffer config
      (Scheme.keepingOrder_ne (target.getD (preferredScheme first rest))) hlength hcolumns hroom
    exact ⟨q, (merge_eq_of_parts config target hparts hroom).trans hq⟩

/-! ## Joining in another way -/

/-- A patch joined from two patches, under some configuration and target. -/
def IsUnion [Compressors] (s : Schema) (a b q : Patch) : Prop :=
  ∃ config target, a.union b config s target = .ok q

theorem Holds.union [Compressors] [LawfulCompressors] {a b : Patch} {rows others : List Row}
    (ha : a.Holds s rows) (hb : b.Holds s others) (h : IsUnion s a b q) :
    reserve (q.count.toNat * s.size) = .ok () ∧ q.Holds s (rows ++ others) := by
  obtain ⟨config, target, h⟩ := h
  obtain ⟨hroom, -, hq⟩ := exists_holds_of_union ha hb h
  rw [hq.count] at hroom
  exact ⟨hroom, hq⟩

/-- Patches that hold the same rows decode to the same buffer, and have boxes that agree. -/
theorem Holds.agree {p : Patch} {rows : List Row} (hp : p.Holds s rows) (hq : q.Holds s rows) :
    p.bounds.Agree q.bounds :=
  hp.bounds.trans hq.bounds.symm

theorem union_assoc_agree [Compressors] [LawfulCompressors] {a b c ab bc x y z : Patch}
    (ha : Reachable s a) (hb : Reachable s b) (hc : Reachable s c) (hab : IsUnion s a b ab)
    (hx : IsUnion s ab c x) (hbc : IsUnion s b c bc) (hy : IsUnion s a bc y)
    (hz : ∃ config target, merge config s [a, b, c] target = .ok z) :
    ∃ buffer, x.decode s = .ok buffer ∧ y.decode s = .ok buffer ∧ z.decode s = .ok buffer ∧
      x.bounds.Agree y.bounds ∧ y.bounds.Agree z.bounds := by
  obtain ⟨rows, ha⟩ := ha.exists_holds
  obtain ⟨rows', hb⟩ := hb.exists_holds
  obtain ⟨rows'', hc⟩ := hc.exists_holds
  obtain ⟨-, hab⟩ := ha.union hb hab
  obtain ⟨-, hbc⟩ := hb.union hc hbc
  obtain ⟨hroomx, hx⟩ := hab.union hc hx
  obtain ⟨hroomy, hy⟩ := ha.union hbc hy
  obtain ⟨config, target, hz⟩ := hz
  obtain ⟨hroomz, -, hz⟩ := exists_holds_of_merge (.cons ha (.cons hb (.cons hc .nil))) hz
  -- All three hold the rows of the three patches, in order.
  have hflat : [rows, rows', rows''].flatten = rows ++ (rows' ++ rows'') := by simp
  rw [hflat] at hroomz hz
  rw [hz.count] at hroomz
  rw [List.append_assoc] at hx
  exact ⟨_, hx.decode_eq hroomx, hy.decode_eq hroomy, hz.decode_eq hroomz, hx.agree hy, hy.agree hz⟩

/-- Joining patches that are reached concatenates what they decode to, whatever the schemes are:
counts add up, boxes merge, and the order is kept. Joining two is joining a list of two, and it does
not matter in which way three are joined. Patches of another schema are refused, and so is no patch
at all. -/
theorem merge_concatenates [Compressors] [LawfulCompressors] (s : Schema) :
    (∀ config patches target q, (∀ p ∈ patches, Reachable s p) →
      merge config s patches target = .ok q → ∃ buffers, Joins s patches q buffers) ∧
    (∀ config a b target, a.union b config s target = merge config s [a, b] target) ∧
    (∀ a b c ab bc x y z, Reachable s a → Reachable s b → Reachable s c → IsUnion s a b ab →
      IsUnion s ab c x → IsUnion s b c bc → IsUnion s a bc y →
      (∃ config target, merge config s [a, b, c] target = .ok z) →
      ∃ buffer, x.decode s = .ok buffer ∧ y.decode s = .ok buffer ∧ z.decode s = .ok buffer ∧
        x.bounds.Agree y.bounds ∧ y.bounds.Agree z.bounds) ∧
    (∀ config patches target, (∃ p ∈ patches, p.pcid ≠ s.pcid) →
      ∃ p, patches.find? (fun p => p.pcid ≠ s.pcid) = some p ∧
        merge config s patches target = .error (.schemaMismatch s.pcid p.pcid)) ∧
    ∀ config target, merge config s [] target = .error .emptyPatchList := by
  refine ⟨?_, ?_, ?_, ?_, ?_⟩
  · intro config patches target q hpatches h
    exact exists_joins hpatches h
  · intro config a b target
    rfl
  · intro a b c ab bc x y z ha hb hc hab hx hbc hy hz
    exact union_assoc_agree ha hb hc hab hx hbc hy hz
  · intro config patches target hother
    have hfound : (patches.find? fun p => p.pcid ≠ s.pcid).isSome = true := by
      rw [List.find?_isSome]
      simpa using hother
    obtain ⟨p, hp⟩ := Option.isSome_iff_exists.mp hfound
    exact ⟨p, hp, merge_of_other_schema hp⟩
  · intro config target
    rfl

/-- Two points of the plane joined with themselves, where a scheme that groups points is asked
for. -/
theorem merge_concatenates_planar :
    let s := Schema.planar
    (∀ p ∈ [planar, planar], Reachable s p) ∧
    ∃ q, merge {} s [planar, planar] (some .hierarchical) = .ok q ∧
      ∃ buffers, Joins s [planar, planar] q buffers := by
  intro s
  have hpatches : ∀ p ∈ [planar, planar], Reachable s p := by
    intro p hp
    obtain rfl : p = planar := by simpa using hp
    exact reachable_planar
  obtain ⟨parts, hparts⟩ := Reachable.exists_parts hpatches
  have hlength : parts.flatten.length = 4 := length_flatten_parts hparts
  obtain ⟨q, hq⟩ := exists_merge {} (some .hierarchical) hparts (List.cons_ne_nil _ _)
    (by rw [hlength]; rfl) (by rw [hlength]; decide)
  exact ⟨hpatches, q, hq, (merge_concatenates s).1 {} [planar, planar] _ q hpatches hq⟩

end Patch

end PointCloud
