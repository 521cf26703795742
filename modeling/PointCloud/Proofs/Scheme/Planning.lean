import Mathlib
import PointCloud.Proofs.Scheme.RoundTrip

/-!
# How long dimensional payloads are

A payload is its columns in a row, each with five bytes in front. So a bound on every column is a
bound on the payload, and columns that are no longer one by one make a payload that is no longer.
How long zlib streams come out decides the choices of the planner, and what is known of those is
known of any compressor.

Main results:

* `Dimensional.length_writeColumns_rows_le` — five bytes for every dimension are the most that a
  payload adds to the points;
* `Dimensional.exists_writeColumns_le` — plans that are no longer make payloads that are no longer;
* `Dimensional.planner_optimal` — no choice loses to the words as they are, and none to the search.
-/

namespace PointCloud

namespace Column

/-- The columns of rows hold the bytes of the rows. -/
theorem sum_length_bytes_ofRows {s : Schema} {rows : List Row}
    (h : ∀ row ∈ rows, Row.Fits s.sizes row) :
    ((ofRows s rows).map fun c => c.bytes.length).sum = rows.length * s.size := by
  have hcolumn : ∀ c ∈ ofRows s rows, c.bytes.length = rows.length * c.dimension.size := by
    intro c hc
    rw [c.length_bytes, (fits_of_mem_ofRows h hc).length_words]
  have hsizes : (ofRows s rows).map (fun c => c.dimension.size) = s.sizes := by
    rw [Schema.sizes, ← map_dimension_ofRows s rows, List.map_map]
    rfl
  rw [List.map_congr_left hcolumn, List.sum_map_mul_left, hsizes]
  rfl

theorem length_ofRows (s : Schema) (rows : List Row) : (ofRows s rows).length = s.width := by
  have hlength := congrArg List.length (map_dimension_ofRows s rows)
  rwa [List.length_map] at hlength

end Column

namespace Dimensional

open Column (IsPlan IsFirstShortest)

theorem compressByTally_eq_ok_iff [Compressors] {t : Tally} {config : Config} {s : Schema}
    {buffer payload : Bytes} {points : Nat} :
    compressByTally t config s buffer points = .ok payload ↔
      bufferLength points s.size = .ok buffer.length ∧ t.width = s.width ∧
      writeColumns (Column.planByTally t config) (Column.ofRows s (s.rows buffer)) =
        .ok payload := by
  unfold compressByTally
  rw [Result.bind_eq_ok_iff]
  constructor
  · rintro ⟨expected, hexpected, h⟩
    obtain ⟨hlength, h⟩ := Result.check_eq_ok_iff.mp h
    obtain ⟨hwidth, h⟩ := Result.check_eq_ok_iff.mp h
    rw [not_not.mp hlength]
    exact ⟨hexpected, not_not.mp hwidth, h⟩
  · rintro ⟨hexpected, hwidth, h⟩
    refine ⟨_, hexpected, Result.check_eq_ok_iff.mpr ⟨not_not.mpr rfl, ?_⟩⟩
    exact Result.check_eq_ok_iff.mpr ⟨not_not.mpr hwidth, h⟩

/-! ## Lengths -/

section Lengths

variable {plan plan' : Column → Except Error Column.Plan}

theorem length_writeColumns_le (hplan : ∀ c p, plan c = .ok p → p.2.length ≤ c.bytes.length)
    {columns : List Column} {payload : Bytes} (h : writeColumns plan columns = .ok payload) :
    payload.length ≤ (columns.map fun c => c.bytes.length).sum + 5 * columns.length := by
  induction columns generalizing payload with
  | nil =>
    obtain rfl := Except.ok.inj h
    exact Nat.zero_le _
  | cons c columns ih =>
    obtain ⟨p, others, hp, -, hothers, rfl⟩ := writeColumns_cons_eq_ok_iff.mp h
    have hfirst := hplan c p hp
    have hrest := ih hothers
    rw [List.length_append, length_frame, List.map_cons, List.sum_cons, List.length_cons]
    omega

/-- A payload is longer than its points by five bytes for every dimension at most. -/
theorem length_writeColumns_rows_le
    (hplan : ∀ c p, plan c = .ok p → p.2.length ≤ c.bytes.length) {s : Schema}
    {buffer payload : Bytes}
    (h : writeColumns plan (Column.ofRows s (s.rows buffer)) = .ok payload) :
    payload.length ≤ buffer.length + 5 * s.width := by
  have hlength := length_writeColumns_le hplan h
  have hfits : ∀ row ∈ s.rows buffer, Row.Fits s.sizes row := fun row => s.fits_of_mem_rows
  rw [Column.sum_length_bytes_ofRows hfits, Column.length_ofRows] at hlength
  -- The bytes after the last whole point are not written.
  have hwhole : (s.rows buffer).length * s.size ≤ buffer.length := by
    rw [Schema.rows, List.length_map, length_cut]
    exact Nat.div_mul_le_self _ _
  omega

/-- Plans that are no longer make payloads that are no longer, and that can be written if the
others can. -/
theorem exists_writeColumns_le {columns : List Column}
    (hplans : ∀ c ∈ columns, ∀ p', plan' c = .ok p' →
      ∃ p, plan c = .ok p ∧ p.2.length ≤ p'.2.length) {payload' : Bytes}
    (h : writeColumns plan' columns = .ok payload') :
    ∃ payload, writeColumns plan columns = .ok payload ∧ payload.length ≤ payload'.length := by
  induction columns generalizing payload' with
  | nil =>
    obtain rfl := Except.ok.inj h
    exact ⟨[], rfl, Nat.le_refl _⟩
  | cons c columns ih =>
    obtain ⟨p', others', hp', hlength, hothers', rfl⟩ := writeColumns_cons_eq_ok_iff.mp h
    obtain ⟨p, hp, hle⟩ := hplans c List.mem_cons_self p' hp'
    obtain ⟨others, hothers, hrest⟩ :=
      ih (fun c hc => hplans c (List.mem_cons_of_mem _ hc)) hothers'
    -- What is no longer fits the length field as well.
    have hfits : p.2.length < 2 ^ 32 := Nat.lt_of_le_of_lt hle hlength
    refine ⟨frame c.order p ++ others, ?_, ?_⟩
    · exact writeColumns_cons_eq_ok_iff.mpr ⟨p, others, hp, hfits, hothers, rfl⟩
    · rw [List.length_append, List.length_append, length_frame, length_frame]
      omega

end Lengths

/-! ## The planner -/

/-- The search makes a payload that is no longer than any other of the same level. -/
theorem exists_compress_le [Compressors] {config : Config} {s : Schema} {buffer : Bytes}
    {plan : Column → Except Error Column.Plan} (htries : config.profile.triesAll = true)
    (hplan : ∀ c p, plan c = .ok p → c.IsPlan config.deflateLevel p) {payload : Bytes}
    (h : writeColumns plan (Column.ofRows s (s.rows buffer)) = .ok payload) :
    ∃ best, compress config s buffer = .ok best ∧ best.length ≤ payload.length :=
  exists_writeColumns_le (fun c _ p hp => Column.exists_plan_le htries (hplan c p hp)) h

/-- Whatever compressors do, no choice of the planner loses to the words as they are, and none is
shorter than the search. -/
theorem planner_optimal [Compressors] (config : Config) :
    (∀ c p, Column.plan config c = .ok p → IsPlan c config.deflateLevel p) ∧
    (∀ t c p, Column.planByTally t config c = .ok p → IsPlan c config.deflateLevel p) ∧
    (∀ s buffer payload, compress config s buffer = .ok payload →
      payload.length ≤ buffer.length + 5 * s.width) ∧
    (∀ t s buffer points payload, compressByTally t config s buffer points = .ok payload →
      payload.length ≤ buffer.length + 5 * s.width) ∧
    (config.profile = .balanced ∨ config.profile = .highCompression →
      (∀ c p, Column.plan config c = .ok p → IsFirstShortest c config.deflateLevel
        (ColumnMethod.candidates c.dimension.interpretation) p) ∧
      ∀ (config' : Config), config'.deflateLevel = config.deflateLevel →
        (∀ s buffer payload, compress config' s buffer = .ok payload →
          ∃ best, compress config s buffer = .ok best ∧ best.length ≤ payload.length) ∧
        ∀ t s buffer points payload, compressByTally t config' s buffer points = .ok payload →
          ∃ best, compress config s buffer = .ok best ∧ best.length ≤ payload.length) := by
  refine ⟨?_, ?_, ?_, ?_, ?_⟩
  · intro c p hp
    exact Column.isPlan_plan hp
  · intro t c p hp
    exact Column.isPlan_planByTally hp
  · intro s buffer payload h
    exact length_writeColumns_rows_le (fun c p hp => (Column.isPlan_plan hp).length_le) h
  · intro t s buffer points payload h
    exact length_writeColumns_rows_le (fun c p hp => (Column.isPlan_planByTally hp).length_le)
      (compressByTally_eq_ok_iff.mp h).2.2
  · intro hprofile
    -- the two profiles that search
    have htries : config.profile.triesAll = true := by
      rcases hprofile with h | h
      · rw [h]
        rfl
      · rw [h]
        rfl
    refine ⟨?_, ?_⟩
    · intro c p hp
      exact Column.isFirstShortest_plan htries hp
    · intro config' hlevel
      refine ⟨?_, ?_⟩
      -- against a plan of any profile
      · intro s buffer payload h
        refine exists_compress_le htries (fun c p hp => ?_) h
        rw [← hlevel]
        exact Column.isPlan_plan hp
      -- against any tally
      · intro t s buffer points payload h
        refine exists_compress_le htries (fun c p hp => ?_) (compressByTally_eq_ok_iff.mp h).2.2
        rw [← hlevel]
        exact Column.isPlan_planByTally hp

/-- Two points of the plane, compressed by a search, by a guess at the same level, and by a tally
that asks for runs, shared bits and a method that is not there. -/
theorem planner_optimal_planar :
    let s := Schema.planar
    let buffer : Bytes := [0, 7, 255, 0, 3, 0, 7, 255, 1, 3]
    let classes : Column := ⟨{ name := "Class", position := 2, interpretation := .uint8 }, .big,
      [3, 3]⟩
    let fast : Config := { profile := .fast, deflateLevel? := some 6 }
    let t : Tally := ⟨3, 0, 0, [⟨0, 0, .runLength⟩, ⟨0, 0, .sharedBits⟩]⟩
    fast.deflateLevel = ({} : Config).deflateLevel ∧
    (∃ p, Column.plan {} classes = .ok p ∧ IsPlan classes 6 p ∧
      IsFirstShortest classes 6 ColumnMethod.all p) ∧
    (∃ p, Column.planByTally t {} classes = .ok p ∧ IsPlan classes 6 p) ∧
    ∃ best guessed tallied : Bytes,
      compress {} s buffer = .ok best ∧ compress fast s buffer = .ok guessed ∧
      compressByTally t fast s buffer 2 = .ok tallied ∧
      best.length ≤ 10 + 5 * 3 ∧ guessed.length ≤ 10 + 5 * 3 ∧ tallied.length ≤ 10 + 5 * 3 ∧
      best.length ≤ guessed.length ∧ best.length ≤ tallied.length := by
  intro s buffer classes fast t
  have hbuffer : buffer.length = 2 * s.size := rfl
  have hcolumns : ∀ d ∈ s.dimensions, 2 * d.size < 2 ^ 32 := by decide
  have hlevel : fast.deflateLevel = ({} : Config).deflateLevel := rfl
  obtain ⟨hplan, htally, hlength, -, hsearch⟩ := planner_optimal {}
  obtain ⟨-, -, hlengthFast, hlengthTally, -⟩ := planner_optimal fast
  obtain ⟨hshortest, hbest⟩ := hsearch (.inl rfl)
  obtain ⟨hguess, hrecommended⟩ := hbest fast hlevel
  -- One column, whose words fit.
  have hclasses : classes.Fits 2 := ⟨rfl, by decide⟩
  obtain ⟨p, hp⟩ := Column.plan_isOk {} hclasses (by decide)
  obtain ⟨p', hp'⟩ := Column.planByTally_isOk t {} hclasses (by decide)
  -- All columns, by each of the ways to choose.
  obtain ⟨guessed, hguessed⟩ := writeColumns_rows_isOk (fun _ _ => Column.isPlan_plan)
    (fun c hfits => Column.plan_isOk fast hfits (by decide)) hbuffer hcolumns
  obtain ⟨tallied, hwritten⟩ := writeColumns_rows_isOk (fun _ _ => Column.isPlan_planByTally)
    (fun c hfits => Column.planByTally_isOk t fast hfits (by decide)) hbuffer hcolumns
  have hpayload : compressByTally t fast s buffer 2 = .ok tallied :=
    compressByTally_eq_ok_iff.mpr ⟨rfl, rfl, hwritten⟩
  obtain ⟨best, hsearched, hle⟩ := hguess s buffer guessed hguessed
  obtain ⟨best', hsearched', hle'⟩ := hrecommended t s buffer 2 tallied hpayload
  obtain rfl : best = best' := Except.ok.inj (hsearched.symm.trans hsearched')
  exact ⟨hlevel, ⟨p, hp, hplan classes p hp, hshortest classes p hp⟩,
    ⟨p', hp', htally t classes p' hp'⟩, best, guessed, tallied, hsearched, hguessed, hpayload,
    hlength s buffer best hsearched, hlengthFast s buffer guessed hguessed,
    hlengthTally t s buffer 2 tallied hpayload, hle, hle'⟩

end Dimensional

end PointCloud
