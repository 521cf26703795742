import Mathlib
import PointCloud.Proofs.Patch.Indices
import PointCloud.Proofs.Patch.Reencoding
import PointCloud.Proofs.Patch.Sort

/-!
# Filtered patches

A filter picks rows and hands them to a scheme, so a filtered patch holds the rows that pass, in the
order of the scheme. A scheme that groups points sorts them by their cluster keys. It leaves rows
alone that were sorted that way before, and so it does with any of them. Once filtered, all rows
pass, and the scheme gets them in the order it has brought them into itself: filtering again writes
the payload again.

Main results:

* `Patch.IsClustered.arranged_eq` — points in clusters stay where they are;
* `Patch.exists_ofRows_arranged` — what a patch holds builds the patch again;
* `Patch.Reachable.filter_exact` — what a filter keeps, in which order, and what filtering again
  does.
-/

namespace PointCloud

namespace Patch

/-- Patches of one payload, whose summaries agree. -/
structure Agree (p q : Patch) : Prop where
  pcid       : p.pcid = q.pcid
  scheme     : p.scheme = q.scheme
  count      : p.count = q.count
  payload    : p.payload = q.payload
  bounds     : p.bounds.Agree q.bounds
  statistics : Option.Rel Statistics.Agree p.statistics q.statistics

/-- A patch whose payload was written under its own schema by grouping points, with as many key bits
as a configuration asks for. -/
def IsClustered [Compressors] (config : Config) (s : Schema) (p : Patch) : Prop :=
  p.scheme = .hierarchical ∧ ∃ (written : Config) (raw : Bytes),
    Scheme.hierarchical.compress written s raw p.count.toNat = .ok p.payload ∧
      min written.keyBits 64 = min config.keyBits 64

section Order

variable {config : Config} {s : Schema} {p q : Patch} {rows : List Row} {scheme : Scheme}

/-- Points that were grouped are grouped again where they are. -/
theorem IsClustered.arranged_eq [Compressors] [LawfulCompressors] (h : p.IsClustered config s)
    (hp : p.Holds s rows) (hroom : reserve (p.count.toNat * s.size) = .ok ()) :
    Scheme.hierarchical.arranged config s rows = rows := by
  obtain ⟨hscheme, written, raw, hwritten, hbits⟩ := h
  have hcount : p.count.toNat < 2 ^ 32 := p.count.toNat_lt
  have hraw : ∀ row ∈ s.rows raw, Row.Fits s.sizes row := fun row hrow => s.fits_of_mem_rows hrow
  -- The payload holds the rows of the patch, and those it was written from, sorted.
  have hheld := hp.payload (by rwa [hp.count])
  have hsorted := Scheme.decompress_of_compress hcount hroom hwritten
  rw [hp.count, hscheme, hsorted, Except.ok.injEq,
    Schema.bytes_inj (Scheme.fits_arranged hraw _ written) hp.fits] at hheld
  rw [← hheld]
  exact Scheme.arranged_arranged _ hbits.symm s (s.rows raw)

/-- A patch of rows that fit holds them in the order of the scheme. -/
theorem holds_of_ofRows [Compressors] [LawfulCompressors]
    (hfits : ∀ row ∈ rows, Row.Fits s.sizes row) (h : ofRows config s rows scheme = .ok q) :
    q.Holds s (scheme.arranged config s rows) := by
  have hq := holds_of_ofBuffer h
  rwa [s.rows_bytes hfits] at hq

/-- Of points that were grouped, those that are left are grouped where they are. -/
theorem IsClustered.holds_filter [Compressors] [LawfulCompressors] (h : p.IsClustered config s)
    (hp : p.Holds s rows) (hroom : reserve (p.count.toNat * s.size) = .ok ()) {test : Row → Bool}
    (hq : ofRows config s (rows.filter test) .hierarchical = .ok q) :
    q.Holds s (rows.filter test) := by
  have hheld := holds_of_ofRows (hp.fits_of_sublist List.filter_sublist) hq
  rwa [Scheme.arranged_filter, h.arranged_eq hp hroom] at hheld

/-- What a patch holds builds the patch again. -/
theorem exists_ofRows_arranged [Compressors] (hfits : ∀ row ∈ rows, Row.Fits s.sizes row)
    (h : ofRows config s rows scheme = .ok q) :
    ∃ again, ofRows config s (scheme.arranged config s rows) scheme = .ok again ∧
      again.Agree q := by
  obtain ⟨hpoints, payload, hpayload, rfl⟩ := ofBuffer_eq_ok_iff.mp h
  have hperm := scheme.arranged_perm config s rows
  have hfits' := Scheme.fits_arranged hfits scheme config
  have hlength := hperm.length_eq
  rw [← Scheme.compress_arranged scheme config hfits, ← hlength] at hpayload
  refine ⟨_, ofBuffer_eq_ok_iff.mpr ⟨by rwa [hlength], payload, hpayload, rfl⟩, ?_⟩
  -- Only the summaries are computed from rows in another order.
  refine ⟨rfl, rfl, congrArg UInt32.ofNat hlength, rfl, ?_, ?_⟩
  · show (s.bounds (s.rows (s.bytes _)) _).Agree (s.bounds (s.rows (s.bytes _)) _)
    rw [s.rows_bytes hfits, s.rows_bytes hfits']
    exact Schema.bounds_agree (Schema.Alike.refl s) hperm
  · show Option.Rel Statistics.Agree (if config.keepStatistics then _ else none)
      (if config.keepStatistics then _ else none)
    cases config.keepStatistics with
    | false => exact .none
    | true =>
      show Option.Rel _ (s.statistics? (s.rows (s.bytes _)) _)
        (s.statistics? (s.rows (s.bytes _)) _)
      rw [s.rows_bytes hfits, s.rows_bytes hfits']
      exact Schema.statistics_agree (Schema.Alike.refl s) hperm

end Order

section Filter

variable {config : Config} {s : Schema} {p q : Patch} {rows : List Row} {name : String}
  {d : Dimension} {predicate : Predicate} {target : Option Scheme}

/-- Filtering again keeps everything, and writes the same payload. -/
theorem exists_filter_filter [Compressors] [LawfulCompressors] (hp : p.Holds s rows)
    (hroom : reserve (p.count.toNat * s.size) = .ok ()) (hd : s.named name = .ok d)
    (h : p.filter config s name predicate target = .ok q) :
    ∃ again, q.filter config s name predicate none = .ok again ∧ again.Agree q := by
  rw [filter_of_rows hd (hp.rows_eq hroom)] at h
  have hfits : ∀ row ∈ rows.filter (passes d predicate), Row.Fits s.sizes row :=
    hp.fits_of_sublist List.filter_sublist
  have hq := holds_of_ofRows hfits h
  have hscheme := (exists_holds_of_ofRows hfits h).1
  have hroomq : reserve (q.count.toNat * s.size) = .ok () := by
    rw [← hq.count, (Scheme.arranged_perm _ config s _).length_eq]
    exact hp.reserve_of_sublist List.filter_sublist hroom
  obtain ⟨again, hagain, hagree⟩ := exists_ofRows_arranged hfits h
  refine ⟨again, ?_, hagree⟩
  -- All that was kept passes, wherever the scheme has put it.
  have hkept : ((target.getD p.scheme).arranged config s
      (rows.filter (passes d predicate))).filter (passes d predicate) =
        (target.getD p.scheme).arranged config s (rows.filter (passes d predicate)) := by
    rw [← Scheme.arranged_filter, List.filter_filter]
    simp only [Bool.and_self]
  rw [filter_of_rows hd (hq.rows_eq hroomq), hkept, Option.getD_none, hscheme]
  exact hagain

/-- Filtering a patch that is reached. The result decodes to the points whose value passes, in some
order; in the order of the patch if the result does not group points, or if the points of the patch
are grouped with as many key bits. Filtering again gives a patch of the same payload. -/
theorem Reachable.filter_exact [Compressors] [LawfulCompressors] (hp : Reachable s p)
    (h : p.filter config s name predicate target = .ok q) :
    ∃ d buffer indices, s.named name = .ok d ∧ p.decode s = .ok buffer ∧
      q.decode s = .ok (s.gather buffer indices) ∧
      indices.Perm ((List.range p.count.toNat).filter fun index =>
        predicate.holds (d.value (s.wordAt buffer index d))) ∧
      q.scheme = target.getD p.scheme ∧
      (q.scheme ≠ .hierarchical ∨ p.IsClustered config s →
        q.decode s = .ok (s.gather buffer ((List.range p.count.toNat).filter fun index =>
          predicate.holds (d.value (s.wordAt buffer index d))))) ∧
      ∃ again, q.filter config s name predicate none = .ok again ∧ again.Agree q := by
  obtain ⟨rows, hp⟩ := hp.exists_holds
  obtain ⟨d, decoded, hd, hdecoded, hbuilt⟩ := filter_eq_ok_iff.mp h
  have hroom := reserve_of_rows hdecoded
  rw [hp.eq_of_rows hdecoded] at hbuilt
  have hbuffer := hp.decode_eq hroom
  have hagain := exists_filter_filter hp hroom hd h
  obtain ⟨indices, hindices, hkept, hdecode⟩ := exists_indices_of_filter hbuffer hd h
  have hfits : ∀ row ∈ rows.filter (passes d predicate), Row.Fits s.sizes row :=
    hp.fits_of_sublist List.filter_sublist
  have hscheme := (exists_holds_of_ofRows hfits hbuilt).1
  refine ⟨d, s.bytes rows, indices, hd, hbuffer, hdecode, hindices, hscheme, ?_, hagain⟩
  intro hcase
  by_cases hordered : q.scheme = .hierarchical
  · have hclustered := hcase.resolve_left (not_not.mpr hordered)
    rw [← hscheme, hordered] at hbuilt
    have hq := hclustered.holds_filter hp hroom hbuilt
    -- The rows that pass are those of the indices that pass.
    have hlength := length_of_decode hbuffer
    have hselected := filter_rows hlength (Schema.named_eq_ok_iff.mp hd).1 predicate
    rw [s.rows_bytes hp.fits] at hselected
    rw [hq.decode_eq (reserve_of_decode hdecode), hselected, Schema.bytes_map hlength]
    · rfl
    · intro index hindex
      exact List.mem_range.mp (List.mem_filter.mp hindex).1
  · -- The rows are written as they come.
    rw [hdecode, hkept hordered]
    rfl

end Filter

/-- Grouped points of the plane, of which those to the left of 8 are kept. -/
theorem Reachable.filter_exact_planar :
    let s := Schema.planar
    let left := Predicate.less (.ofNat 8)
    ∃ p q, Reachable s p ∧ p.IsClustered {} s ∧ p.filter {} s "X" left none = .ok q ∧
      ∃ buffer indices, p.decode s = .ok buffer ∧ q.decode s = .ok (s.gather buffer indices) ∧
        indices.Perm ((List.range 2).filter fun index =>
          left.holds (s.dimensions[0].value (s.wordAt buffer index s.dimensions[0]))) ∧
        q.scheme = .hierarchical ∧
        q.decode s = .ok (s.gather buffer ((List.range 2).filter fun index =>
          left.holds (s.dimensions[0].value (s.wordAt buffer index s.dimensions[0])))) ∧
        ∃ again, q.filter {} s "X" left none = .ok again ∧ again.Agree q := by
  intro s left
  obtain ⟨p, hgrouped, hscheme, hcount⟩ := exists_isGrouped
  have hreachable : Reachable s p := .ofBuffer hgrouped
  obtain ⟨rows, hp⟩ := hreachable.exists_holds
  have hclustered : p.IsClustered {} s := by
    obtain ⟨-, payload, hpayload, rfl⟩ := ofBuffer_eq_ok_iff.mp hgrouped
    exact ⟨rfl, {}, _, hpayload, rfl⟩
  have hroom : reserve (p.count.toNat * s.size) = .ok () := by
    rw [hcount]
    rfl
  have hd : s.named "X" = .ok s.dimensions[0] := rfl
  -- At most the two points are kept, so the result can be written.
  have hlength : (rows.filter (passes s.dimensions[0] left)).length ≤ 2 := by
    have hrows : rows.length = 2 := by
      rw [hp.count, hcount]
      rfl
    exact hrows ▸ List.length_filter_le _ rows
  obtain ⟨q, hq⟩ := ofRows_of_hasPlane (hp.fits_of_sublist List.filter_sublist)
    (Nat.lt_of_le_of_lt hlength (by decide)) (hp.reserve_of_sublist List.filter_sublist hroom)
    (by decide : s.HasPlane) {}
  have hfilter : p.filter {} s "X" left none = .ok q := by
    rw [filter_of_rows hd (hp.rows_eq hroom), hscheme]
    exact hq
  obtain ⟨d, buffer, indices, hd', hbuffer, hdecode, hindices, hkept, hordered, hagain⟩ :=
    hreachable.filter_exact hfilter
  obtain rfl : s.dimensions[0] = d := Except.ok.inj (hd.symm.trans hd')
  rw [hcount] at hindices hordered
  exact ⟨p, q, hreachable, hclustered, hfilter, buffer, indices, hbuffer, hdecode, hindices,
    hkept.trans hscheme, hordered (.inr hclustered), hagain⟩

end Patch

end PointCloud
