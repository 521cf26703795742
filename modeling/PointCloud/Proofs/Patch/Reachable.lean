import Mathlib
import PointCloud.Patch.Combine
import PointCloud.Patch.Convert
import PointCloud.Patch.Extract
import PointCloud.Patch.Filter
import PointCloud.Patch.Sort
import PointCloud.Proofs.Patch.Summary
import PointCloud.Proofs.Scheme.Alike
import PointCloud.Proofs.Scheme.Arrangement

/-!
# Patches that can be reached

A patch is reached by building it or by an operation on patches that were reached. As long as
compressors are lawful, every patch that is reached holds rows: its payload decodes to them, it
counts them, and its bounds and statistics agree with theirs.

All operations but one end in building a patch from a buffer, so one law about building carries
them. The exception is `Patch.retag`, which copies the payload and the summaries to another schema.
It may because the other schema reads alike.

Main results:

* `Patch.Holds` — the invariant, and `Patch.exists_holds_of_ofBuffer`, `Patch.Holds.retag` that the
  two kinds of steps keep it;
* `Patch.ReachableUnder.building` — the step for all operations: to build, or to give away;
* `Patch.ReachableUnder.exists_holds` — every patch that is reached holds rows;
* `Patch.Reachable.exists_describes` — so it decodes, and its summaries are those of what it decodes
  to.
-/

namespace PointCloud

namespace Patch

/-! ## The invariant -/

/-- A patch of a schema whose payload holds the given rows, with summaries that agree with
theirs. -/
structure Holds (s : Schema) (p : Patch) (rows : List Row) : Prop where
  pcid       : p.pcid = s.pcid
  fits       : ∀ row ∈ rows, Row.Fits s.sizes row
  count      : rows.length = p.count.toNat
  payload    : reserve (rows.length * s.size) = .ok () →
    p.scheme.decompress s rows.length p.payload = .ok (s.bytes rows)
  bounds     : p.bounds.Agree (s.bounds rows rows.length)
  statistics : p.statistics = none ∨
    Option.Rel Statistics.Agree p.statistics (s.statistics? rows rows.length)

section Steps

variable {config : Config} {s t : Schema} {p q : Patch} {target : Option Scheme}

section Building

variable [Compressors]

/-- What a patch is built of. -/
theorem ofBuffer_eq_ok_iff {buffer : Bytes} {points : Nat} {scheme : Scheme} :
    ofBuffer config s buffer points scheme = .ok p ↔ points < 2 ^ 32 ∧
      ∃ payload, scheme.compress config s buffer points = .ok payload ∧
        p = {
          pcid := s.pcid
          scheme
          count := UInt32.ofNat points
          bounds := s.bounds (s.rows buffer) points
          statistics :=
            if config.keepStatistics then s.statistics? (s.rows buffer) points else none
          payload } := by
  unfold ofBuffer
  simp only [Result.throw_eq, Result.error_bind, Result.check_eq_ok_iff, Nat.not_le]
  refine and_congr_right fun _ => Result.bind_eq_ok_iff.trans ?_
  simp only [Result.pure_eq, Except.ok.injEq, Schema.statistics?, eq_comm]

/-- What can be written is built into a patch. -/
theorem exists_ofBuffer_of_writes {buffer : Bytes} {points : Nat} {scheme : Scheme}
    (h : scheme.Writes config s buffer points) (hpoints : points < 2 ^ 32) :
    ∃ q, ofBuffer config s buffer points scheme = .ok q := by
  obtain ⟨payload, hpayload⟩ := h
  exact ⟨_, ofBuffer_eq_ok_iff.mpr ⟨hpoints, payload, hpayload, rfl⟩⟩

/-- A filter builds a patch of the rows that pass. -/
theorem filter_of_rows {rows : List Row} {name : String} {d : Dimension} (hd : s.named name = .ok d)
    (hrows : p.rows s = .ok rows) (config : Config) (predicate : Predicate)
    (target : Option Scheme) : p.filter config s name predicate target =
      ofRows config s (rows.filter (passes d predicate)) (target.getD p.scheme) := by
  unfold filter
  rw [hd, Result.ok_bind, hrows, Result.ok_bind, filterRepeats_eq_filter]

theorem filter_eq_ok_iff {name : String} {predicate : Predicate} :
    p.filter config s name predicate target = .ok q ↔
      ∃ d rows, s.named name = .ok d ∧ p.rows s = .ok rows ∧
        ofRows config s (rows.filter (passes d predicate)) (target.getD p.scheme) = .ok q := by
  constructor
  · intro h
    obtain ⟨d, hd, hrest⟩ := Result.bind_eq_ok_iff.mp h
    obtain ⟨rows, hrows, -⟩ := Result.bind_eq_ok_iff.mp hrest
    rw [filter_of_rows hd hrows] at h
    exact ⟨d, rows, hd, hrows, h⟩
  · rintro ⟨d, rows, hd, hrows, h⟩
    rw [filter_of_rows hd hrows]
    exact h

/-- Building a patch from a buffer establishes the invariant, for the rows of the buffer in the
order of the scheme. -/
theorem holds_of_ofBuffer [LawfulCompressors] {buffer : Bytes} {points : Nat} {scheme : Scheme}
    (h : ofBuffer config s buffer points scheme = .ok p) :
    p.Holds s (scheme.arranged config s (s.rows buffer)) := by
  obtain ⟨hpoints, payload, hpayload, rfl⟩ := ofBuffer_eq_ok_iff.mp h
  have hperm := scheme.arranged_perm config s (s.rows buffer)
  have hcount : (s.rows buffer).length = points :=
    s.length_rows (Scheme.length_of_compress hpayload)
  have hlength := hperm.length_eq.trans hcount
  refine ⟨rfl, ?_, ?_, ?_, ?_, ?_⟩
  · exact Scheme.fits_arranged (fun row hrow => s.fits_of_mem_rows hrow) scheme config
  · show _ = (UInt32.ofNat points).toNat
    rw [hlength, UInt32.toNat_ofNat', Nat.mod_eq_of_lt hpoints]
  · rw [hlength]
    exact fun hroom => Scheme.decompress_of_compress hpoints hroom hpayload
  · -- The summaries are those of the buffer, whose rows come back in another order at most.
    have hagree := Schema.bounds_agree (Schema.Alike.refl s) hperm.symm
    rwa [hcount] at hagree
  · show (if config.keepStatistics then _ else none) = none ∨ _
    cases config.keepStatistics with
    | false => exact .inl rfl
    | true =>
      have hagree := Schema.statistics_agree (Schema.Alike.refl s) hperm.symm
      rw [hcount] at hagree
      exact .inr hagree

theorem exists_holds_of_ofBuffer [LawfulCompressors] {buffer : Bytes} {points : Nat}
    {scheme : Scheme} (h : ofBuffer config s buffer points scheme = .ok p) :
    p.scheme = scheme ∧
    ∃ rows, rows.Perm (s.rows buffer) ∧ (scheme ≠ .hierarchical → rows = s.rows buffer) ∧
      p.Holds s rows := by
  refine ⟨?_, _, scheme.arranged_perm config s _, ?_, holds_of_ofBuffer h⟩
  · obtain ⟨-, payload, -, rfl⟩ := ofBuffer_eq_ok_iff.mp h
    rfl
  · exact fun hscheme => Scheme.arranged_of_ne hscheme config s _

/-- Building a patch from rows that fit establishes it for these rows, likewise. -/
theorem exists_holds_of_ofRows [LawfulCompressors] {rows : List Row} {scheme : Scheme}
    (hfits : ∀ row ∈ rows, Row.Fits s.sizes row) (h : ofRows config s rows scheme = .ok p) :
    p.scheme = scheme ∧
    ∃ kept, kept.Perm rows ∧ (scheme ≠ .hierarchical → kept = rows) ∧ p.Holds s kept := by
  have hbuilt := exists_holds_of_ofBuffer h
  rwa [s.rows_bytes hfits] at hbuilt

end Building

/-! ## Moving to another schema -/

/-- A patch is given to exactly the schemas that read alike, and nothing but the identifier
changes. -/
theorem retag_eq_ok_iff : p.retag s t = .ok q ↔
    p.pcid = s.pcid ∧ s.Alike t ∧ q = { p with pcid := t.pcid } := by
  unfold Patch.retag
  simp only [Result.bind_eq_ok_iff, exists_const, Schema.checkPcid_eq_ok_iff, Result.throw_eq,
    Result.error_bind, Result.check_eq_ok_iff, Result.pure_eq, Bool.not_eq_true', Bool.not_eq_false,
    Except.ok.injEq, Schema.isCompatible_iff]
  exact and_congr_right fun _ => and_congr_right fun _ => eq_comm

/-- A patch holds the same buffer under both schemas, or none under either. -/
theorem decode_retag (h : p.retag s t = .ok q) : Result.SameValue (p.decode s) (q.decode t) := by
  obtain ⟨hpcid, halike, rfl⟩ := retag_eq_ok_iff.mp h
  unfold decode Schema.checkPcid
  rw [if_pos hpcid, if_pos rfl]
  exact Scheme.decompress_sameValue halike p.scheme p.count.toNat p.payload

/-- A patch given to a schema that reads alike holds the same rows there. -/
theorem Holds.retag {rows : List Row} (hp : p.Holds s rows) (h : p.retag s t = .ok q) :
    q.Holds t rows := by
  obtain ⟨-, halike, rfl⟩ := retag_eq_ok_iff.mp h
  -- Every field is read under the new schema.
  refine ⟨rfl, ?_, hp.count, ?_, ?_, ?_⟩
  · rw [← halike.sizes_eq]
    exact hp.fits
  · intro hroom
    rw [← halike.size_eq] at hroom
    rw [← halike.bytes_eq]
    exact (Scheme.decompress_sameValue halike p.scheme rows.length p.payload _).mp
      (hp.payload hroom)
  · -- The bounds are those of the old schema, whose numbers are the same.
    exact hp.bounds.trans (Schema.bounds_agree halike (List.Perm.refl rows))
  · rcases hp.statistics with hnone | hsome
    · exact .inl hnone
    · exact .inr (Statistics.rel_agree_trans hsome
        (Schema.statistics_agree halike (List.Perm.refl rows)))

/-! ## Building -/

variable [Compressors]

/-- A patch that was built from some buffer of a schema. -/
def IsBuilt (s : Schema) (p : Patch) : Prop :=
  ∃ config buffer points scheme, ofBuffer config s buffer points scheme = .ok p

theorem IsBuilt.pcid_eq (h : IsBuilt s p) : p.pcid = s.pcid := by
  obtain ⟨config, buffer, points, scheme, h⟩ := h
  obtain ⟨-, payload, -, rfl⟩ := ofBuffer_eq_ok_iff.mp h
  rfl

theorem IsBuilt.exists_holds [LawfulCompressors] (h : IsBuilt s p) : ∃ rows, p.Holds s rows := by
  obtain ⟨config, buffer, points, scheme, h⟩ := h
  obtain ⟨-, rows, -, -, hp⟩ := exists_holds_of_ofBuffer h
  exact ⟨rows, hp⟩

theorem isBuilt_ofBuffer {buffer : Bytes} {points : Nat} {scheme : Scheme}
    (h : ofBuffer config s buffer points scheme = .ok p) : IsBuilt s p :=
  ⟨config, buffer, points, scheme, h⟩

theorem isBuilt_ofPoints {points : List Point} {scheme : Scheme}
    (h : ofPoints config s points scheme = .ok p) : IsBuilt s p := by
  unfold ofPoints at h
  obtain ⟨_, -, h⟩ := Result.bind_eq_ok_iff.mp h
  obtain ⟨_, -, h⟩ := Result.bind_eq_ok_iff.mp h
  obtain ⟨_, -, h⟩ := Result.bind_eq_ok_iff.mp h
  exact isBuilt_ofBuffer h

theorem isBuilt_ofValues {values : List (List Binary64)} {scheme : Scheme}
    (h : ofValues config s values scheme = .ok p) : IsBuilt s p := by
  unfold ofValues at h
  obtain ⟨_, -, h⟩ := Result.bind_eq_ok_iff.mp h
  obtain ⟨_, -, h⟩ := Result.bind_eq_ok_iff.mp h
  obtain ⟨_, -, h⟩ := Result.bind_eq_ok_iff.mp h
  exact isBuilt_ofBuffer h

theorem isBuilt_recompress {scheme : Scheme} (h : p.recompress config s scheme = .ok q) :
    IsBuilt s q := by
  unfold recompress at h
  obtain ⟨rows, -, h⟩ := Result.bind_eq_ok_iff.mp h
  exact isBuilt_ofBuffer h

theorem isBuilt_filter {name : String} {predicate : Predicate}
    (h : p.filter config s name predicate target = .ok q) : IsBuilt s q := by
  obtain ⟨d, rows, -, -, h⟩ := filter_eq_ok_iff.mp h
  exact isBuilt_ofBuffer h

theorem isBuilt_sort {names : List String} (h : p.sort config s names target = .ok q) :
    IsBuilt s q := by
  unfold sort at h
  obtain ⟨dimensions, -, h⟩ := Result.bind_eq_ok_iff.mp h
  obtain ⟨rows, -, h⟩ := Result.bind_eq_ok_iff.mp h
  exact isBuilt_ofBuffer h

theorem isBuilt_merge {patches : List Patch} (h : merge config s patches target = .ok q) :
    IsBuilt s q := by
  unfold merge at h
  split at h
  · simp at h
  · obtain ⟨_, -, h⟩ := Result.bind_eq_ok_iff.mp h
    obtain ⟨_, -, h⟩ := Result.bind_eq_ok_iff.mp h
    obtain ⟨rows, -, h⟩ := Result.bind_eq_ok_iff.mp h
    exact isBuilt_ofBuffer h

theorem isBuilt_range {first count : Nat} (h : p.range config s first count target = .ok q) :
    IsBuilt s q := by
  unfold range at h
  obtain ⟨_, -, h⟩ := Result.bind_eq_ok_iff.mp h
  simp only [Result.throw_eq, Result.error_bind, Result.check_eq_ok_iff] at h
  obtain ⟨-, h⟩ := h
  obtain ⟨rows, -, h⟩ := Result.bind_eq_ok_iff.mp h
  exact isBuilt_ofBuffer h

theorem isBuilt_intersection {other : Patch}
    (h : p.intersection other config s target = .ok q) : IsBuilt s q := by
  unfold intersection at h
  obtain ⟨_, -, h⟩ := Result.bind_eq_ok_iff.mp h
  obtain ⟨_, -, h⟩ := Result.bind_eq_ok_iff.mp h
  dsimp only at h
  split at h
  · exact isBuilt_ofBuffer h
  · obtain ⟨rows, -, h⟩ := Result.bind_eq_ok_iff.mp h
    exact isBuilt_ofBuffer h

theorem isBuilt_mapPoints {image : Point → Except Error Point}
    (h : p.mapPoints config s image target = .ok q) : IsBuilt s q := by
  unfold mapPoints at h
  obtain ⟨points, -, h⟩ := Result.bind_eq_ok_iff.mp h
  obtain ⟨images, -, h⟩ := Result.bind_eq_ok_iff.mp h
  exact isBuilt_ofPoints h

theorem isBuilt_transform {default : Binary64}
    (h : p.transform config s t default target = .ok q) : IsBuilt t q := by
  unfold transform at h
  simp only [Result.throw_eq, Result.error_bind, Result.check_eq_ok_iff] at h
  obtain ⟨-, h⟩ := h
  obtain ⟨rows, -, h⟩ := Result.bind_eq_ok_iff.mp h
  obtain ⟨u, -, h⟩ := Result.bind_eq_ok_iff.mp h
  obtain ⟨points, -, h⟩ := Result.bind_eq_ok_iff.mp h
  exact isBuilt_ofBuffer h

end Steps

/-! ## Runs -/

section Runs

variable [Compressors]

/-- The patches that building and the operations give, each with the schema it belongs to. Every
operation is given patches that were reached, under the schema they belong to. A patch is given to
another schema only as `allowed` permits. -/
inductive ReachableUnder (allowed : Patch → Schema → Prop) : Schema → Patch → Prop
  | ofPoints {config s points scheme p} (h : ofPoints config s points scheme = .ok p) :
      ReachableUnder allowed s p
  | ofBuffer {config s buffer points scheme p}
      (h : ofBuffer config s buffer points scheme = .ok p) : ReachableUnder allowed s p
  | ofValues {config s values scheme p} (h : ofValues config s values scheme = .ok p) :
      ReachableUnder allowed s p
  | recompress {config s p scheme q} (hp : ReachableUnder allowed s p)
      (h : p.recompress config s scheme = .ok q) : ReachableUnder allowed s q
  | filter {config s p name predicate target q} (hp : ReachableUnder allowed s p)
      (h : p.filter config s name predicate target = .ok q) : ReachableUnder allowed s q
  | sort {config s p names target q} (hp : ReachableUnder allowed s p)
      (h : p.sort config s names target = .ok q) : ReachableUnder allowed s q
  | union {config s a b target q} (ha : ReachableUnder allowed s a)
      (hb : ReachableUnder allowed s b) (h : a.union b config s target = .ok q) :
      ReachableUnder allowed s q
  | merge {config s patches target q} (hpatches : ∀ p ∈ patches, ReachableUnder allowed s p)
      (h : merge config s patches target = .ok q) : ReachableUnder allowed s q
  | range {config s p first count target q} (hp : ReachableUnder allowed s p)
      (h : p.range config s first count target = .ok q) : ReachableUnder allowed s q
  | intersection {config s a b target q} (ha : ReachableUnder allowed s a)
      (hb : ReachableUnder allowed s b) (h : a.intersection b config s target = .ok q) :
      ReachableUnder allowed s q
  | mapPoints {config s p image target q} (hp : ReachableUnder allowed s p)
      (h : p.mapPoints config s image target = .ok q) : ReachableUnder allowed s q
  | transform {config s t p default target q} (hp : ReachableUnder allowed s p)
      (h : p.transform config s t default target = .ok q) : ReachableUnder allowed t q
  | retag {s t p q} (hp : ReachableUnder allowed s p) (hallowed : allowed p t)
      (h : p.retag s t = .ok q) : ReachableUnder allowed t q

/-- The patches that are reached if a patch may be given to any schema that takes it. -/
abbrev Reachable : Schema → Patch → Prop := ReachableUnder fun _ _ => True

variable {allowed : Patch → Schema → Prop} {s : Schema} {p : Patch}

/-- What is true of every patch that is built, and stays true when a patch is given to a schema as
permitted, is true of every patch that is reached: a step that builds needs nothing of the patches
it began with. -/
@[elab_as_elim]
theorem ReachableUnder.building {motive : Schema → Patch → Prop}
    (built : ∀ {s p}, IsBuilt s p → motive s p)
    (retag : ∀ {s t p q}, motive s p → allowed p t → p.retag s t = .ok q → motive t q)
    (h : ReachableUnder allowed s p) : motive s p := by
  -- One case an operation. What was reached before matters where a patch is given away, and nowhere
  -- else: an operation that builds starts from a buffer, wherever that came from.
  induction h with
  | ofPoints h => exact built (isBuilt_ofPoints h)
  | ofBuffer h => exact built (isBuilt_ofBuffer h)
  | ofValues h => exact built (isBuilt_ofValues h)
  | recompress _ h => exact built (isBuilt_recompress h)
  | filter _ h => exact built (isBuilt_filter h)
  | sort _ h => exact built (isBuilt_sort h)
  | union _ _ h => exact built (isBuilt_merge h)
  | merge _ h => exact built (isBuilt_merge h)
  | range _ h => exact built (isBuilt_range h)
  | intersection _ _ h => exact built (isBuilt_intersection h)
  | mapPoints _ h => exact built (isBuilt_mapPoints h)
  | transform _ h => exact built (isBuilt_transform h)
  | retag _ hallowed h ih => exact retag ih hallowed h

/-- A patch that is reached belongs to its schema. -/
theorem ReachableUnder.pcid_eq (h : ReachableUnder allowed s p) : p.pcid = s.pcid := by
  refine h.building ?_ ?_
  · exact fun hbuilt => hbuilt.pcid_eq
  · intro s t p q _ _ hgiven
    obtain ⟨-, -, rfl⟩ := retag_eq_ok_iff.mp hgiven
    rfl

/-- Every patch that is reached holds rows. -/
theorem ReachableUnder.exists_holds [LawfulCompressors] (h : ReachableUnder allowed s p) :
    ∃ rows, p.Holds s rows := by
  refine h.building ?_ ?_
  · exact fun hbuilt => hbuilt.exists_holds
  · -- What the patch held before, it holds under the new schema.
    rintro s t p q ⟨rows, hp⟩ _ hgiven
    exact ⟨rows, hp.retag hgiven⟩

end Runs

/-! ## What is decoded -/

variable {s : Schema} {p : Patch}

namespace Holds

variable {rows : List Row}

theorem decode_eq (hp : p.Holds s rows) (hroom : reserve (p.count.toNat * s.size) = .ok ()) :
    p.decode s = .ok (s.bytes rows) := by
  have hpayload := hp.payload
  rw [hp.count] at hpayload
  simp only [decode, Schema.checkPcid, hp.pcid, if_true, Result.ok_bind, hpayload hroom]

theorem rows_eq (hp : p.Holds s rows) (hroom : reserve (p.count.toNat * s.size) = .ok ()) :
    p.rows s = .ok rows := by
  unfold Patch.rows
  rw [hp.decode_eq hroom, Result.ok_bind, s.rows_bytes hp.fits]
  rfl

section Sublists

variable {kept : List Row} (hp : p.Holds s rows) (hkept : kept.Sublist rows)
include hp hkept

/-- Rows that are left of those of a patch fit as before. -/
theorem fits_of_sublist : ∀ row ∈ kept, Row.Fits s.sizes row :=
  fun row hrow => hp.fits row (hkept.subset hrow)

/-- They need no more room. -/
theorem reserve_of_sublist (hroom : reserve (p.count.toNat * s.size) = .ok ()) :
    reserve (kept.length * s.size) = .ok () := by
  rw [← hp.count] at hroom
  exact reserve_mono (Nat.mul_le_mul_right _ hkept.length_le) hroom

end Sublists

theorem bounds_eq_empty_iff (hp : p.Holds s rows) : p.bounds = .empty ↔ p.count = 0 := by
  have hcount : p.count = 0 ↔ rows.length = 0 := by
    rw [hp.count, ← UInt32.toNat_inj]
    rfl
  have hbounds := hp.bounds
  rw [hcount]
  unfold Schema.bounds at hbounds
  split at hbounds
  · rename_i hzero
    cases hempty : p.bounds with
    | empty => simp [hzero]
    | extent => simp [hempty, Bounds.Agree] at hbounds
  · rename_i hpos
    cases hextent : p.bounds with
    | empty => simp [hextent, Bounds.Agree] at hbounds
    | extent => simp [hpos]

theorem statistics_eq_none (hp : p.Holds s rows) (hcount : p.count = 0) : p.statistics = none := by
  have hzero : rows.length = 0 := by
    rw [hp.count, hcount]
    rfl
  rcases hp.statistics with hnone | hsome
  · exact hnone
  · have hempty : s.statistics? rows rows.length = none := by
      simp [Schema.statistics?, Schema.statisticsIn?, Schema.bounds, hzero]
    rw [hempty] at hsome
    cases hstatistics : p.statistics with
    | none => rfl
    | some stats =>
      rw [hstatistics] at hsome
      cases hsome

end Holds

/-- A patch that decodes to a buffer, of as many points as it counts, and whose summaries are those
of the buffer: bounds entry by entry, statistics likewise if it keeps any. -/
structure Describes (p : Patch) (s : Schema) (buffer : Bytes) : Prop where
  decode        : p.decode s = .ok buffer
  length        : buffer.length = p.count.toNat * s.size
  empty_iff     : p.bounds = .empty ↔ p.count = 0
  bounds        : p.bounds.Agree (s.bounds (s.rows buffer) p.count.toNat)
  statistics    : p.statistics = none ∨
    Option.Rel Statistics.Agree p.statistics (s.statistics? (s.rows buffer) p.count.toNat)
  no_statistics : p.count = 0 → p.statistics = none

/-- Every patch that is reached decodes, if its buffer can be set aside, and describes what it
decodes to. -/
theorem Reachable.exists_describes [Compressors] [LawfulCompressors] (h : Reachable s p)
    (hroom : reserve (p.count.toNat * s.size) = .ok ()) : ∃ buffer, p.Describes s buffer := by
  obtain ⟨rows, hp⟩ := h.exists_holds
  have hbounds := hp.bounds
  have hstatistics := hp.statistics
  rw [hp.count] at hbounds hstatistics
  refine ⟨s.bytes rows, hp.decode_eq hroom, ?_, hp.bounds_eq_empty_iff, ?_, ?_,
    hp.statistics_eq_none⟩
  · rw [s.length_bytes fun row hrow => s.length_of_fits (hp.fits row hrow), hp.count]
  · rwa [s.rows_bytes hp.fits]
  · rwa [s.rows_bytes hp.fits]

/-- Two points of the plane, given to another schema after they were built. -/
theorem Reachable.exists_describes_planar :
    let s := Schema.planar
    let t : Schema := { Schema.planar with pcid := 2 }
    ∃ p q, Patch.ofBuffer {} s [0, 7, 255, 0, 3, 0, 9, 255, 1, 3] 2 .uncompressed = .ok p ∧
      p.retag s t = .ok q ∧ reserve (q.count.toNat * t.size) = .ok () ∧
      ∃ buffer, q.Describes t buffer := by
  intro s t
  let rows := s.rows [0, 7, 255, 0, 3, 0, 9, 255, 1, 3]
  let p : Patch := ⟨1, .uncompressed, 2, s.bounds rows 2,
    s.statisticsIn? (s.bounds rows 2) rows 2, [0, 7, 255, 0, 3, 0, 9, 255, 1, 3]⟩
  have hbuilt : Patch.ofBuffer {} s [0, 7, 255, 0, 3, 0, 9, 255, 1, 3] 2 .uncompressed = .ok p :=
    rfl
  have hretagged : p.retag s t = .ok { p with pcid := 2 } := rfl
  have hroom : reserve (2 * t.size) = .ok () := by decide
  exact ⟨p, { p with pcid := 2 }, hbuilt, hretagged, hroom,
    Reachable.exists_describes (.retag (.ofBuffer hbuilt) trivial hretagged) hroom⟩

end Patch

end PointCloud
