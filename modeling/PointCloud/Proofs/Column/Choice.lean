import Mathlib
import PointCloud.Column.Plan
import PointCloud.Proofs.Result

/-!
# Choosing the method of a column

How long a zlib stream comes out is up to the compressor, so nothing is asked of compressors here,
not even that they are lawful. A method is chosen in three ways: by trying every candidate, by a
guess, or by a tally. None of them ever names a method that is not a candidate, and none keeps an
encoding that is not shorter than the words as they are. The search keeps the first of the shortest
encodings, which one step of it shows for the candidates that were tried so far.

Main results:

* `Column.isPlan_plan`, `Column.isPlan_planByTally` — what a choice always is;
* `Column.isFirstShortest_shortestPlan` — the search ends at the first of the shortest.
-/

namespace PointCloud

namespace Column

/-! ## Candidates -/

theorem candidates_eq_cons (t : Interpretation) :
    ∃ others, ColumnMethod.candidates t = .verbatim :: others := by
  unfold ColumnMethod.candidates
  split
  · exact ⟨_, rfl⟩
  · exact ⟨_, rfl⟩

theorem deflate_mem_candidates (t : Interpretation) : .deflate ∈ ColumnMethod.candidates t := by
  unfold ColumnMethod.candidates
  split <;> decide

theorem mem_candidates_of_isInteger {t : Interpretation} (h : t.isInteger = true)
    (method : ColumnMethod) : method ∈ ColumnMethod.candidates t := by
  rw [ColumnMethod.candidates, if_pos h]
  cases method <;> decide

/-- The guess names a candidate: floating values are left to zlib, and integers admit every
method. -/
theorem recommendColumn_mem_candidates (c : Column) :
    Tally.recommendColumn c ∈ ColumnMethod.candidates c.dimension.interpretation := by
  by_cases hfloat : c.dimension.interpretation.isFloat = true
  · unfold Tally.recommendColumn
    rw [Tally.recommend_of_isFloat hfloat]
    exact deflate_mem_candidates _
  · have hinteger : c.dimension.interpretation.isInteger = true := by
      simpa [Interpretation.isInteger] using hfloat
    exact mem_candidates_of_isInteger hinteger _

/-- The method that a tally names for a column. -/
def tallied (t : Tally) (c : Column) : ColumnMethod :=
  let candidates := ColumnMethod.candidates c.dimension.interpretation
  ((t.recommendation? c.dimension.position).filter (· ∈ candidates)).getD .deflate

/-- It is a candidate too, whatever the tally recommends. -/
theorem tallied_mem_candidates (t : Tally) (c : Column) :
    tallied t c ∈ ColumnMethod.candidates c.dimension.interpretation := by
  unfold tallied
  dsimp only
  cases hrecommended : (t.recommendation? c.dimension.position).filter
      (· ∈ ColumnMethod.candidates c.dimension.interpretation) with
  | none => exact deflate_mem_candidates _
  | some method =>
    have hmem := (Option.filter_eq_some_iff.mp hrecommended).2
    exact of_decide_eq_true hmem

/-! ## One method -/

variable [Compressors] {c : Column} {level : Nat}

/-- What every choice is: a candidate with its encoding, which is no longer than the words as they
are, and shorter if it is anything else. -/
structure IsPlan (c : Column) (level : Nat) (p : Plan) : Prop where
  mem_candidates : p.1 ∈ ColumnMethod.candidates c.dimension.interpretation
  encode_eq      : c.encode level p.1 = .ok p.2
  length_le      : p.2.length ≤ c.bytes.length
  length_lt      : p.1 ≠ .verbatim → p.2.length < c.bytes.length

theorem isPlan_verbatimPlan : c.IsPlan level c.verbatimPlan where
  mem_candidates := by
    obtain ⟨others, hothers⟩ := candidates_eq_cons c.dimension.interpretation
    rw [hothers]
    exact List.mem_cons_self
  encode_eq      := rfl
  length_le      := Nat.le_refl _
  length_lt      := fun h => absurd rfl h

theorem isPlan_planWith {method : ColumnMethod} {p : Plan}
    (hmethod : method ∈ ColumnMethod.candidates c.dimension.interpretation)
    (h : c.planWith level method = .ok p) : c.IsPlan level p := by
  unfold planWith at h
  split at h
  · obtain rfl := Except.ok.inj h
    exact isPlan_verbatimPlan
  · obtain ⟨encoded, hencoded, h⟩ := Result.bind_eq_ok_iff.mp h
    obtain rfl := Except.ok.inj h
    by_cases hshorter : encoded.length < c.bytes.length
    · rw [if_pos hshorter]
      exact ⟨hmethod, hencoded, Nat.le_of_lt hshorter, fun _ => hshorter⟩
    · rw [if_neg hshorter]
      exact isPlan_verbatimPlan

/-! ## The search -/

/-- The first of the shortest encodings by some methods, of which those that fail do not count. -/
structure IsFirstShortest (c : Column) (level : Nat) (methods : List ColumnMethod) (p : Plan) :
    Prop where
  isPlan       : c.IsPlan level p
  /-- What comes before is longer, and what comes after is not shorter. -/
  exists_split : ∃ before after, methods = before ++ p.1 :: after ∧
    (∀ m ∈ before, ∀ encoded, c.encode level m = .ok encoded → p.2.length < encoded.length) ∧
    ∀ m ∈ after, ∀ encoded, c.encode level m = .ok encoded → p.2.length ≤ encoded.length

/-- No other method is shorter. -/
theorem IsFirstShortest.length_le {methods : List ColumnMethod} {p : Plan} {m : ColumnMethod}
    {encoded : Bytes} (h : c.IsFirstShortest level methods p) (hm : m ∈ methods)
    (hencoded : c.encode level m = .ok encoded) : p.2.length ≤ encoded.length := by
  obtain ⟨before, after, rfl, hbefore, hafter⟩ := h.exists_split
  rcases List.mem_append.mp hm with hm | hm
  · exact Nat.le_of_lt (hbefore m hm encoded hencoded)
  · rcases List.mem_cons.mp hm with rfl | hm
    · -- the method that was chosen
      have hsame := h.isPlan.encode_eq.symm.trans hencoded
      rw [Except.ok.injEq] at hsame
      rw [hsame]
    · exact hafter m hm encoded hencoded

/-- The words as they are come first. -/
theorem isFirstShortest_verbatimPlan :
    c.IsFirstShortest level [.verbatim] c.verbatimPlan where
  isPlan       := isPlan_verbatimPlan
  exists_split := ⟨[], [], rfl, by simp, by simp⟩

/-- One more method is tried. -/
theorem IsFirstShortest.improve {tried : List ColumnMethod} {best : Plan} {m : ColumnMethod}
    (h : c.IsFirstShortest level tried best)
    (hm : m ∈ ColumnMethod.candidates c.dimension.interpretation) :
    c.IsFirstShortest level (tried ++ [m]) (c.improve level best m) := by
  obtain ⟨before, after, htried, hbefore, hafter⟩ := h.exists_split
  -- Unless the method is shorter, it comes after the best one so far.
  have hkept : (∀ encoded, c.encode level m = .ok encoded → best.2.length ≤ encoded.length) →
      c.IsFirstShortest level (tried ++ [m]) best := by
    intro hlonger
    refine ⟨h.isPlan, before, after ++ [m], by simp [htried], hbefore, ?_⟩
    intro m' hm'
    rcases List.mem_append.mp hm' with hm' | hm'
    · exact hafter m' hm'
    · rw [List.mem_singleton.mp hm']
      exact hlonger
  unfold Column.improve
  cases hencoded : c.encode level m with
  | error e => exact hkept (by simp [hencoded])
  | ok encoded =>
    dsimp only
    by_cases hshorter : encoded.length < best.2.length
    · rw [if_pos hshorter]
      have hlt : encoded.length < c.bytes.length :=
        Nat.lt_of_lt_of_le hshorter h.isPlan.length_le
      refine ⟨⟨hm, hencoded, Nat.le_of_lt hlt, fun _ => hlt⟩, tried, [], rfl, ?_, by simp⟩
      -- It is shorter than the best so far, and that was not longer than any other.
      intro m' hm' encoded' hencoded'
      exact Nat.lt_of_lt_of_le hshorter (h.length_le hm' hencoded')
    · rw [if_neg hshorter]
      refine hkept fun encoded' hencoded' => ?_
      rw [hencoded, Except.ok.injEq] at hencoded'
      rw [← hencoded']
      exact Nat.le_of_not_lt hshorter

/-- All methods of a list are tried, one after the other. -/
theorem IsFirstShortest.foldl {tried : List ColumnMethod} {best : Plan}
    (h : c.IsFirstShortest level tried best) (methods : List ColumnMethod)
    (hmethods : ∀ m ∈ methods, m ∈ ColumnMethod.candidates c.dimension.interpretation) :
    c.IsFirstShortest level (tried ++ methods) (methods.foldl (c.improve level) best) := by
  induction methods generalizing tried best with
  | nil =>
    rw [List.append_nil]
    exact h
  | cons m methods ih =>
    rw [List.foldl_cons, ← List.singleton_append, ← List.append_assoc]
    refine ih (h.improve (hmethods m List.mem_cons_self)) ?_
    exact fun m' hm' => hmethods m' (List.mem_cons_of_mem _ hm')

/-- The search ends at the first of the shortest encodings. -/
theorem isFirstShortest_shortestPlan :
    c.IsFirstShortest level (ColumnMethod.candidates c.dimension.interpretation)
      (c.shortestPlan level) := by
  unfold shortestPlan
  obtain ⟨others, hothers⟩ := candidates_eq_cons c.dimension.interpretation
  -- The first candidate is what the search begins with, and does not improve on itself.
  have hfirst : c.improve level c.verbatimPlan .verbatim = c.verbatimPlan :=
    if_neg (Nat.lt_irrefl _)
  have hstart : c.IsFirstShortest level [.verbatim] c.verbatimPlan :=
    isFirstShortest_verbatimPlan
  have hmem : ∀ m ∈ others, m ∈ ColumnMethod.candidates c.dimension.interpretation := by
    intro m hm
    rw [hothers]
    exact List.mem_cons_of_mem _ hm
  have hrest := hstart.foldl others hmem
  rw [hothers, List.foldl_cons, hfirst]
  exact hrest

/-! ## Plans -/

theorem isFirstShortest_plan {config : Config} {p : Plan}
    (htries : config.profile.triesAll = true) (h : c.plan config = .ok p) :
    c.IsFirstShortest config.deflateLevel (ColumnMethod.candidates c.dimension.interpretation)
      p := by
  unfold plan at h
  rw [if_pos htries] at h
  obtain rfl := Except.ok.inj h
  exact isFirstShortest_shortestPlan

theorem isPlan_plan {config : Config} {p : Plan} (h : c.plan config = .ok p) :
    c.IsPlan config.deflateLevel p := by
  by_cases htries : config.profile.triesAll = true
  · exact (isFirstShortest_plan htries h).isPlan
  · unfold plan at h
    rw [if_neg htries] at h
    exact isPlan_planWith (recommendColumn_mem_candidates c) h

theorem isPlan_planByTally {t : Tally} {config : Config} {p : Plan}
    (h : c.planByTally t config = .ok p) : c.IsPlan config.deflateLevel p :=
  isPlan_planWith (tallied_mem_candidates t c) h

/-- A search never loses to a plan at the same level. -/
theorem exists_plan_le {config : Config} (htries : config.profile.triesAll = true) {p : Plan}
    (h : c.IsPlan config.deflateLevel p) :
    ∃ best, c.plan config = .ok best ∧ best.2.length ≤ p.2.length := by
  refine ⟨c.shortestPlan config.deflateLevel, if_pos htries, ?_⟩
  exact isFirstShortest_shortestPlan.length_le h.mem_candidates h.encode_eq

end Column

end PointCloud
