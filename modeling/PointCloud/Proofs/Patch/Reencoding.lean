import Mathlib
import PointCloud.Proofs.Patch.Bounds
import PointCloud.Proofs.Schema.Words
import PointCloud.Proofs.Scheme.Writing

/-!
# Encoding again

A patch may be encoded again under its own schema and scheme: as it is, after a test of one of its
dimensions, or point by point. Only the scheme that groups points asks more of a schema than its
types, namely an X and a Y axis. A patch under that scheme was built under a schema with axes; but
giving a patch to another schema looks at types, scales and offsets and not at names, so the patch
may come to a schema without them. There it is still decoded, and can no longer be encoded.

Main results:

* `Patch.Holds.reencodes_of_hasPlane`, `Patch.Holds.reencodes_of_not_hasPlane` — with axes a patch
  that groups points is encoded again, and without them it is not;
* `Patch.Reencodes.retag` — what can be encoded again still can be under another schema, if that
  has axes or the scheme asks for none;
* `Patch.ReachableUnder.reencoding_never_invalid` — so in runs that give no grouped points to a
  schema without axes, no schema is refused.
-/

namespace PointCloud

open Result (FailsOnly)

namespace Patch

variable {config : Config} {s t : Schema} {p q : Patch} {scheme : Scheme} {rows : List Row}

/-! ## Building -/

section Building

variable [Compressors]

/-- What was built under the scheme that groups points was built under a schema with axes. -/
theorem IsBuilt.hasPlane (h : IsBuilt s p) (hscheme : p.scheme = .hierarchical) : s.HasPlane := by
  obtain ⟨config, buffer, points, scheme, h⟩ := h
  obtain ⟨-, payload, hpayload, rfl⟩ := ofBuffer_eq_ok_iff.mp h
  obtain rfl : scheme = .hierarchical := hscheme
  exact Scheme.hasPlane_of_compress hpayload

theorem ofRows_failsOnly (hplane : scheme = .hierarchical → s.HasPlane) (config : Config)
    (rows : List Row) : FailsOnly Error.IsWriting (ofRows config s rows scheme) := by
  unfold ofRows ofBuffer
  refine FailsOnly.check (.reading (.corruptPatch _)) ?_
  exact (Scheme.compress_failsOnly hplane config _ _).bind fun _ => FailsOnly.ok _

theorem ofRows_neverInvalid (hplane : scheme = .hierarchical → s.HasPlane) (config : Config)
    (rows : List Row) : NeverInvalid (ofRows config s rows scheme) :=
  (ofRows_failsOnly hplane config rows).mono fun _ he => he.not_isInvalidSchema

/-- Rows that are built under a schema are built under one that reads alike, where points may be
grouped only if it has axes. -/
theorem ofRows_isOk_alike (hst : s.Alike t) (hplane : scheme = .hierarchical → t.HasPlane)
    (h : ofRows config s rows scheme = .ok p) : ∃ q, ofRows config t rows scheme = .ok q := by
  obtain ⟨hpoints, payload, hpayload, -⟩ := ofBuffer_eq_ok_iff.mp h
  rw [hst.bytes_eq] at hpayload
  have hwrites := Scheme.Writes.alike hst hplane ⟨payload, hpayload⟩
  exact exists_ofBuffer_of_writes hwrites hpoints

section Grouping

variable (hfits : ∀ row ∈ rows, Row.Fits s.sizes row) (hcount : rows.length < 2 ^ 32)
  (hroom : reserve (rows.length * s.size) = .ok ())
include hfits hcount hroom

theorem ofRows_of_hasPlane (hplane : s.HasPlane) (config : Config) :
    ∃ q, ofRows config s rows .hierarchical = .ok q := by
  have hlength := s.length_bytes fun row hrow => s.length_of_fits (hfits row hrow)
  obtain ⟨hspace, -⟩ := bufferLength_eq_ok_iff.mp (bufferLength_of_reserve hroom)
  have hwrites := Scheme.writes_of_hasPlane hplane config hlength hspace
  exact exists_ofBuffer_of_writes hwrites hcount

theorem ofRows_of_not_hasPlane (hplane : ¬ s.HasPlane) (config : Config) :
    ofRows config s rows .hierarchical = .error (.invalidSchema (.missingAxis s.pcid)) := by
  have hlength := s.length_bytes fun row hrow => s.length_of_fits (hfits row hrow)
  obtain ⟨hspace, -⟩ := bufferLength_eq_ok_iff.mp (bufferLength_of_reserve hroom)
  have hrefused := Scheme.compress_hierarchical_of_not_hasPlane hplane config hlength hspace
  unfold ofRows ofBuffer
  rw [if_neg (Nat.not_le.mpr hcount), hrefused]
  rfl

end Grouping

end Building

/-! ## Reading -/

/-- Rows are refused for the schema that is named, or for the payload. -/
theorem rows_failsOnly (p : Patch) (s : Schema) :
    FailsOnly (fun e => e = .schemaMismatch s.pcid p.pcid ∨ e.IsRefusal) (p.rows s) := by
  unfold Patch.rows decode
  refine FailsOnly.bind ?_ fun buffer => FailsOnly.ok _
  refine FailsOnly.bind ?_ fun _ => ?_
  · unfold Schema.checkPcid
    split
    · exact FailsOnly.ok _
    · exact FailsOnly.error (.inl rfl)
  · exact (Scheme.decompress_failsOnly _ _ _ _).mono fun _ he => .inr he

theorem rows_neverInvalid (p : Patch) (s : Schema) : NeverInvalid (p.rows s) := by
  refine (p.rows_failsOnly s).mono ?_
  rintro e (rfl | he) hinvalid
  · cases hinvalid
  · exact he.not_isInvalidSchema hinvalid

theorem fits_of_rows_eq (h : p.rows s = .ok rows) : ∀ row ∈ rows, Row.Fits s.sizes row := by
  obtain ⟨buffer, -, hrows⟩ := Result.bind_eq_ok_iff.mp h
  obtain rfl : s.rows buffer = rows := Except.ok.inj hrows
  intro row hrow
  exact s.fits_of_mem_rows hrow

/-- A patch that is given to a schema which reads alike has the same rows there. -/
theorem rows_eq_alike (hst : s.Alike t) (h : p.rows s = .ok rows) :
    { p with pcid := t.pcid }.rows t = .ok rows := by
  obtain ⟨buffer, hdecode, hrows⟩ := Result.bind_eq_ok_iff.mp h
  obtain ⟨_, hpcid, -⟩ := Result.bind_eq_ok_iff.mp hdecode
  have hgiven : p.retag s t = .ok { p with pcid := t.pcid } :=
    retag_eq_ok_iff.mpr ⟨Schema.checkPcid_eq_ok_iff.mp hpcid, hst, rfl⟩
  unfold Patch.rows
  rw [(decode_retag hgiven buffer).mp hdecode, Result.ok_bind, ← hst.rows_eq]
  exact hrows

variable [Compressors]

theorem ofPoints_map_eq (hfits : ∀ row ∈ rows, Row.Fits s.sizes row) (config : Config)
    (scheme : Scheme) :
    ofPoints config s (rows.map fun row => ⟨s.pcid, s.rowBytes row⟩) scheme =
      bufferLength rows.length s.size >>= fun bytes => reserve bytes >>= fun _ =>
        ofRows config s rows scheme := by
  unfold ofPoints
  rw [List.length_map, List.flatMap_map]
  refine congrArg (_ >>= ·) (funext fun bytes => congrArg (_ >>= ·) (funext fun _ => ?_))
  -- Every point is of the schema and of its size, so none is refused.
  refine (congrArg (· >>= _) (Result.forM_eq_ok ?_)).trans rfl
  intro x hx
  obtain ⟨point, index⟩ := x
  obtain ⟨row, hrow, rfl⟩ := List.mem_map.mp (List.fst_mem_of_mem_zipIdx hx)
  have hlength := s.length_rowBytes (s.length_of_fits (hfits row hrow))
  dsimp only
  rw [Schema.checkPcid, if_pos rfl, Result.ok_bind, if_neg (not_not.mpr hlength)]
  rfl

/-- Points that are not changed are built from their rows. -/
theorem mapPoints_ok_eq (hpcid : p.pcid = s.pcid) (config : Config) (target : Option Scheme) :
    p.mapPoints config s .ok target = p.rows s >>= fun rows =>
      bufferLength rows.length s.size >>= fun bytes => reserve bytes >>= fun _ =>
        ofRows config s rows (target.getD p.scheme) := by
  unfold mapPoints points
  cases hrows : p.rows s with
  | error e => rfl
  | ok rows =>
    have hsame (points : List Point) : points.mapM Except.ok = (.ok points : Except Error _) := by
      have hmap := List.mapM_pure (m := Except Error) (f := id) (l := points)
      rwa [List.map_id] at hmap
    rw [Result.ok_bind, Result.ok_bind, hpcid]
    show ((rows.map fun row => Point.mk s.pcid (s.rowBytes row)).mapM Except.ok >>= _) = _
    rw [hsame, Result.ok_bind]
    exact ofPoints_map_eq (fits_of_rows_eq hrows) config _

/-! ## Encoding again -/

/-- What is true of a patch encoded again under its own schema and scheme: as it is, after any test
of any dimension, and point by point. -/
structure Reencodes (P : Except Error Patch → Prop) (config : Config) (s : Schema) (p : Patch) :
    Prop where
  recompress : P (p.recompress config s p.scheme)
  filter     : ∀ name d predicate, s.named name = .ok d →
    P (p.filter config s name predicate none)
  mapPoints  : P (p.mapPoints config s .ok none)

/-- A computation that gives a patch. -/
def Succeeds (x : Except Error Patch) : Prop := ∃ q, x = .ok q

/-- The schema is never refused if it has axes or the scheme asks for none. -/
theorem reencodes_neverInvalid (hpcid : p.pcid = s.pcid)
    (hplane : p.scheme = .hierarchical → s.HasPlane) (config : Config) :
    Reencodes NeverInvalid config s p where
  recompress := (p.rows_neverInvalid s).bind fun rows => ofRows_neverInvalid hplane config rows
  filter := by
    intro name d predicate hd
    unfold Patch.filter
    rw [hd, Result.ok_bind]
    exact (p.rows_neverInvalid s).bind fun rows => ofRows_neverInvalid hplane config _
  mapPoints := by
    rw [mapPoints_ok_eq hpcid]
    refine (p.rows_neverInvalid s).bind fun rows => ?_
    refine (bufferLength_neverInvalid _ _).bind fun bytes => ?_
    exact (reserve_neverInvalid bytes).bind fun _ => ofRows_neverInvalid hplane config rows

/-- A patch that groups points is encoded again as its rows are: what is true of building any part
of the rows is true of all three ways. -/
theorem Holds.reencodes {P : Except Error Patch → Prop} (hp : p.Holds s rows)
    (hroom : reserve (p.count.toNat * s.size) = .ok ())
    (hbuilt : ∀ kept : List Row, (∀ row ∈ kept, Row.Fits s.sizes row) → kept.length < 2 ^ 32 →
      reserve (kept.length * s.size) = .ok () → P (ofRows config s kept p.scheme)) :
    Reencodes P config s p := by
  have hrows := hp.rows_eq hroom
  have hcount : rows.length < 2 ^ 32 := by
    rw [hp.count]
    exact p.count.toNat_lt
  have hwhole : reserve (rows.length * s.size) = .ok () := by rwa [hp.count]
  refine ⟨?_, ?_, ?_⟩
  · unfold Patch.recompress
    rw [hrows, Result.ok_bind]
    exact hbuilt rows hp.fits hcount hwhole
  · intro name d predicate hd
    have hkept : (rows.filter (passes d predicate)).Sublist rows := List.filter_sublist
    rw [filter_of_rows hd hrows]
    exact hbuilt _ (hp.fits_of_sublist hkept) (Nat.lt_of_le_of_lt hkept.length_le hcount)
      (hp.reserve_of_sublist hkept hroom)
  · rw [mapPoints_ok_eq hp.pcid, hrows, Result.ok_bind, bufferLength_of_reserve hwhole,
      Result.ok_bind, hwhole, Result.ok_bind]
    exact hbuilt rows hp.fits hcount hwhole

/-- With axes, a patch that groups points is encoded again. -/
theorem Holds.reencodes_of_hasPlane (hp : p.Holds s rows)
    (hroom : reserve (p.count.toNat * s.size) = .ok ()) (hscheme : p.scheme = .hierarchical)
    (hplane : s.HasPlane) (config : Config) : Reencodes Succeeds config s p := by
  refine hp.reencodes hroom fun kept hfits hcount hkept => ?_
  rw [hscheme]
  exact ofRows_of_hasPlane hfits hcount hkept hplane config

/-- Without them it is not: the schema is refused. -/
theorem Holds.reencodes_of_not_hasPlane (hp : p.Holds s rows)
    (hroom : reserve (p.count.toNat * s.size) = .ok ()) (hscheme : p.scheme = .hierarchical)
    (hplane : ¬ s.HasPlane) (config : Config) :
    Reencodes (fun x => x = .error (.invalidSchema (.missingAxis s.pcid))) config s p := by
  refine hp.reencodes hroom fun kept hfits hcount hkept => ?_
  rw [hscheme]
  exact ofRows_of_not_hasPlane hfits hcount hkept hplane config

end Patch

/-! ## Tests under another schema -/

/-- A test looks at a value as a number. -/
theorem Predicate.holds_congr (predicate : Predicate) {x y : Binary64}
    (h : x.number? = y.number?) : predicate.holds x = predicate.holds y := by
  by_cases hx : x.isNaN = true
  · have hy : y.isNaN = true := by
      rw [← Binary64.number?_eq_none_iff, ← h, Binary64.number?_eq_none_iff]
      exact hx
    rw [predicate.holds_nan hx, predicate.holds_nan hy]
  · -- Of two numbers in one place, neither test tells one from the other.
    rw [Bool.not_eq_true] at hx
    rw [Binary64.number?_of_not_isNaN hx, eq_comm] at h
    unfold Binary64.number? at h
    split at h
    · cases h
    · rename_i hy
      rw [Bool.not_eq_true] at hy
      have hplace : y.place = x.place := Option.some.inj h
      cases predicate <;> simp [holds, Binary64.equals, Binary64.lt, Binary64.le, hx, hy, hplace]

namespace Patch

section Moving

variable {config : Config} {s t : Schema} {p q : Patch}

theorem passes_alike {d e : Dimension} (hde : d.Alike e) (hscale : ¬ d.scale.isZero)
    (predicate : Predicate) : passes d predicate = passes e predicate := by
  funext row
  unfold passes
  rw [hde.position]
  exact predicate.holds_congr (Dimension.number?_value_congr hde.sameNumbers hscale _)

/-- What can be encoded again can be under another schema that reads alike, where points may be
grouped only if it has axes. -/
theorem Reencodes.retag [Compressors] (hs : Reencodes Succeeds config s p) (h : p.retag s t = .ok q)
    (hplane : p.scheme = .hierarchical → t.HasPlane) : Reencodes Succeeds config t q := by
  obtain ⟨hpcid, hst, rfl⟩ := retag_eq_ok_iff.mp h
  refine ⟨?_, ?_, ?_⟩
  · obtain ⟨q, hq⟩ := hs.recompress
    obtain ⟨rows, hrows, hq⟩ := Result.bind_eq_ok_iff.mp hq
    obtain ⟨q', hq'⟩ := ofRows_isOk_alike hst hplane hq
    exact ⟨q', Result.bind_eq_ok_iff.mpr ⟨rows, rows_eq_alike hst hrows, hq'⟩⟩
  · intro name e predicate he
    -- The dimension of the other schema is at the place of one of this schema.
    obtain ⟨he', -⟩ := Schema.named_eq_ok_iff.mp he
    obtain ⟨d, hd, hde, hscale⟩ := exists_mem_of_forall₂ hst.scaled he'
    have hnamed : s.named d.name = .ok d := Schema.named_eq_ok_iff.mpr ⟨hd, rfl⟩
    obtain ⟨q, hq⟩ := hs.filter d.name d predicate hnamed
    obtain ⟨d', rows, hd', hrows, hq⟩ := filter_eq_ok_iff.mp hq
    obtain rfl : d = d' := Except.ok.inj (hnamed.symm.trans hd')
    rw [passes_alike hde hscale] at hq
    obtain ⟨q', hq'⟩ := ofRows_isOk_alike hst hplane hq
    exact ⟨q', filter_eq_ok_iff.mpr ⟨e, rows, he, rows_eq_alike hst hrows, hq'⟩⟩
  · obtain ⟨q, hq⟩ := hs.mapPoints
    rw [mapPoints_ok_eq hpcid] at hq
    obtain ⟨rows, hrows, hq⟩ := Result.bind_eq_ok_iff.mp hq
    rw [hst.size_eq] at hq
    obtain ⟨bytes, hbytes, hq⟩ := Result.bind_eq_ok_iff.mp hq
    obtain ⟨_, hreserve, hq⟩ := Result.bind_eq_ok_iff.mp hq
    obtain ⟨q', hq'⟩ := ofRows_isOk_alike hst hplane hq
    refine ⟨q', ?_⟩
    rw [mapPoints_ok_eq rfl, rows_eq_alike hst hrows, Result.ok_bind, hbytes, Result.ok_bind,
      hreserve, Result.ok_bind]
    exact hq'

end Moving

/-! ## Runs -/

/-- Points that are grouped are given to a schema only if it has axes. -/
def KeepsPlane (p : Patch) (t : Schema) : Prop := p.scheme = .hierarchical → t.HasPlane

/-- A step keeps the axes: building needs them, and giving away is done under this condition. -/
theorem ReachableUnder.hasPlane [Compressors] (h : ReachableUnder KeepsPlane s p) :
    p.scheme = .hierarchical → s.HasPlane := by
  refine h.building ?_ ?_
  -- built: the scheme has looked for the axes
  · exact fun hbuilt => hbuilt.hasPlane
  -- given away: nobody has looked, but the condition asks for them
  · intro s t p q _ hallowed hgiven
    obtain ⟨-, -, rfl⟩ := retag_eq_ok_iff.mp hgiven
    exact hallowed

/-- In a run that gives grouped points only to schemas with axes, a patch that groups points has
axes, and no patch that is encoded again has its schema refused. Giving away under this condition
leaves a patch that can be encoded again if it could before. -/
theorem ReachableUnder.reencoding_never_invalid [Compressors] :
    (∀ s p, ReachableUnder KeepsPlane s p →
      (p.scheme = .hierarchical → s.HasPlane) ∧ ∀ config, Reencodes NeverInvalid config s p) ∧
    ∀ config s t p q, p.retag s t = .ok q → KeepsPlane p t → Reencodes Succeeds config s p →
      Reencodes Succeeds config t q := by
  constructor
  · intro s p h
    exact ⟨h.hasPlane, reencodes_neverInvalid h.pcid_eq h.hasPlane⟩
  · intro config s t p q h hplane hs
    exact hs.retag h hplane

/-! ## Grouped points of the plane -/

/-- Two points of the plane, grouped. -/
def IsGrouped (p : Patch) : Prop :=
  ofBuffer {} Schema.planar [0, 7, 255, 0, 3, 0, 9, 255, 1, 3] 2 .hierarchical = .ok p

theorem exists_isGrouped : ∃ p, IsGrouped p ∧ p.scheme = .hierarchical ∧ p.count = 2 := by
  have hplane : Schema.planar.HasPlane := by decide
  have hlength : ([0, 7, 255, 0, 3, 0, 9, 255, 1, 3] : Bytes).length = 2 * Schema.planar.size := by
    decide
  obtain ⟨payload, hpayload⟩ := Scheme.writes_of_hasPlane hplane {} hlength (by decide)
  refine ⟨⟨1, .hierarchical, 2, planar.bounds, planar.statistics, payload⟩, ?_, rfl, rfl⟩
  unfold IsGrouped ofBuffer
  rw [if_neg (by decide), hpayload]
  rfl

/-- Grouped points can be encoded again, as long as there are axes. -/
theorem IsGrouped.reencodes (h : IsGrouped p) (hscheme : p.scheme = .hierarchical)
    (hcount : p.count = 2) (config : Config) : Reencodes Succeeds config Schema.planar p := by
  obtain ⟨rows, hp⟩ := (isBuilt_ofBuffer h).exists_holds
  refine hp.reencodes_of_hasPlane ?_ hscheme (by decide) config
  rw [hcount]
  decide

/-- Grouped points of the plane, given to a schema of another identifier. -/
theorem ReachableUnder.reencoding_never_invalid_planar :
    let s := Schema.planar
    let t : Schema := { Schema.planar with pcid := 2 }
    ∃ p q, IsGrouped p ∧ p.retag s t = .ok q ∧ KeepsPlane p t ∧ Reencodes Succeeds {} s p ∧
      ReachableUnder KeepsPlane t q ∧ (q.scheme = .hierarchical → t.HasPlane) ∧
      Reencodes NeverInvalid {} t q ∧ Reencodes Succeeds {} t q := by
  intro s t
  obtain ⟨p, hp, hscheme, hcount⟩ := exists_isGrouped
  have hreencodes := hp.reencodes hscheme hcount {}
  have hreached : ReachableUnder KeepsPlane s p := .ofBuffer hp
  have hst : s.Alike t := Schema.isCompatible_iff.mp (by decide)
  have hgiven : p.retag s t = .ok { p with pcid := 2 } :=
    retag_eq_ok_iff.mpr ⟨hreached.pcid_eq, hst, rfl⟩
  have hplane : KeepsPlane p t := fun _ => by decide
  have hrun := ReachableUnder.retag hreached hplane hgiven
  obtain ⟨hkept, hnever⟩ := ReachableUnder.reencoding_never_invalid.1 t _ hrun
  exact ⟨p, _, hp, hgiven, hplane, hreencodes, hrun, hkept, hnever {},
    ReachableUnder.reencoding_never_invalid.2 {} s t p _ hgiven hplane hreencodes⟩

/-- Grouped points of the plane, given to a schema that calls the axes A and B. It reads alike, so
nothing is refused; but the points are grouped by axes that can no longer be found. -/
theorem retag_loses_axes :
    let s := Schema.planar
    ∃ t : Schema, t.pcid = 2 ∧ t.dimensions.map (·.name) = ["A", "B", "Class"] ∧ ¬ t.HasPlane ∧
      ∃ p q, IsGrouped p ∧ Reachable s p ∧ (∀ config, Reencodes Succeeds config s p) ∧
        p.retag s t = .ok q ∧ Reachable t q ∧ q.scheme = .hierarchical ∧
        ∀ config,
          Reencodes (fun x => x = .error (.invalidSchema (.missingAxis 2))) config t q := by
  intro s
  let t : Schema := {
    Schema.planar with
    pcid := 2
    dimensions := [
      { name := "A", position := 0, interpretation := .int16 },
      { name := "B", position := 1, interpretation := .int16 },
      { name := "Class", position := 2, interpretation := .uint8 }]
    valid := by decide }
  obtain ⟨p, hp, hscheme, hcount⟩ := exists_isGrouped
  have hreachable : Reachable s p := .ofBuffer hp
  have hst : s.Alike t := Schema.isCompatible_iff.mp (by decide)
  obtain ⟨rows, hholds⟩ := hreachable.exists_holds
  have hgiven : p.retag s t = .ok { p with pcid := 2 } :=
    retag_eq_ok_iff.mpr ⟨hholds.pcid, hst, rfl⟩
  have hplane : ¬ t.HasPlane := by decide
  have hroom : reserve (p.count.toNat * t.size) = .ok () := by
    rw [hcount]
    decide
  have hlost := (hholds.retag hgiven).reencodes_of_not_hasPlane hroom hscheme hplane
  exact ⟨t, rfl, rfl, hplane, p, _, hp, hreachable, hp.reencodes hscheme hcount, hgiven,
    .retag hreachable trivial hgiven, hscheme, hlost⟩

end Patch

end PointCloud
