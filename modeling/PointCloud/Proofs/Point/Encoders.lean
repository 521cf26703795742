import Mathlib
import PointCloud.Point
import PointCloud.Proofs.Dimension.Encoding
import PointCloud.Proofs.Result
import PointCloud.Proofs.Schema.Layout

/-!
# Encoders of points

A point is encoded from values in the order of positions, from values with names, or one value at a
time over the bytes of another point. All three write words in place, each dimension's its own, so
what is written is known word by word: where a value was given, the word of the last one, and
elsewhere the word that was there. A point is its words, so the encoders agree whenever they are
given the same last value for every dimension.

The encoder of named values collects them before it writes. Until then it only asks whether a name
is known, and the words are written in the order of positions. So it fails on the first unknown name
or else as the encoder of ordered values does.

Main results:

* `Point.Written.put` — one word that is written, among those written before;
* `Point.written_of_withValues` — values replaced one after another;
* `Point.slots_eq` — what is collected of named values;
* `Point.ofNamed_eq` — named values are encoded as the last of each in the order of positions;
* `Point.encoders_agree` — all of these together.
-/

namespace PointCloud

/-- The last value that is given for a key. -/
def lastGiven? {κ : Type} [DecidableEq κ] (given : List (κ × Binary64)) (key : κ) :
    Option Binary64 :=
  (given.filter fun pair => pair.1 = key).getLast?.map (·.2)

section LastGiven

variable {κ : Type} [DecidableEq κ] {given : List (κ × Binary64)} {key : κ} {value : Binary64}

theorem lastGiven?_append (given : List (κ × Binary64)) (pair : κ × Binary64) (key : κ) :
    lastGiven? (given ++ [pair]) key =
      if pair.1 = key then some pair.2 else lastGiven? given key := by
  unfold lastGiven?
  rw [List.filter_append, List.filter_singleton]
  split <;> simp_all

theorem lastGiven?_eq_none_iff : lastGiven? given key = none ↔ ∀ pair ∈ given, pair.1 ≠ key := by
  simp [lastGiven?]

end LastGiven

namespace Point

variable {s : Schema} {p q : Point} {raw out : Bytes} {d : Dimension} {name : String}
  {value : Binary64}

/-! ## Words in place -/

/-- The bytes of a point over which the words of some values were written. -/
structure Written (s : Schema) (raw : Bytes) (given : Dimension → Option Binary64) (out : Bytes) :
    Prop where
  length_eq : out.length = s.size
  word_eq   : ∀ d ∈ s.dimensions, ∀ value, given d = some value →
    d.word value = .ok (s.wordAt out 0 d)
  kept      : ∀ d ∈ s.dimensions, given d = none → s.wordAt out 0 d = s.wordAt raw 0 d

theorem put_eq_ok_iff :
    put s raw (d, value) = .ok out ↔ ∃ w, d.word value = .ok w ∧ s.putWord raw d w = out := by
  unfold put
  rw [Result.bind_eq_ok_iff]
  simp only [Result.pure_eq, Except.ok.injEq]

theorem lt_of_word {word : Nat} (h : d.word value = .ok word) : word < 2 ^ (8 * d.size) :=
  Dimension.lt_of_word? (Dimension.word_eq_ok_iff.mp h)

/-- One more word is written. -/
theorem Written.put {given : Dimension → Option Binary64} {mid : Bytes}
    (h : Written s raw given mid) (hd : d ∈ s.dimensions)
    (hput : Point.put s mid (d, value) = .ok out) :
    Written s raw (fun e => if d = e then some value else given e) out := by
  obtain ⟨word, hword, rfl⟩ := put_eq_ok_iff.mp hput
  -- The other words are those that were there before.
  have hother : ∀ e ∈ s.dimensions, d ≠ e →
      s.wordAt (s.putWord mid d word) 0 e = s.wordAt mid 0 e :=
    fun e he hne => Schema.wordAt_putWord_of_ne h.length_eq hd he (Ne.symm hne) word
  refine ⟨Schema.length_putWord h.length_eq hd word, ?_, ?_⟩
  · intro e he last hlast
    by_cases hde : d = e
    · rw [if_pos hde] at hlast
      obtain rfl := Option.some.inj hlast
      subst hde
      rw [Schema.wordAt_putWord h.length_eq hd, Nat.mod_eq_of_lt (lt_of_word hword), hword]
    · rw [if_neg hde] at hlast
      rw [hother e he hde]
      exact h.word_eq e he last hlast
  · intro e he hnone
    by_cases hde : d = e
    · rw [if_pos hde] at hnone
      cases hnone
    · rw [if_neg hde] at hnone
      rw [hother e he hde]
      exact h.kept e he hnone

theorem Written.start (hraw : raw.length = s.size) : Written s raw (fun _ => none) raw where
  length_eq := hraw
  word_eq _ _ _ h := by cases h
  kept _ _ _ := rfl

/-- Only what is given for the dimensions of the schema matters. -/
theorem Written.congr {given given' : Dimension → Option Binary64} (h : Written s raw given out)
    (hsame : ∀ d ∈ s.dimensions, given d = given' d) : Written s raw given' out where
  length_eq := h.length_eq
  word_eq d hd value hvalue := h.word_eq d hd value ((hsame d hd).trans hvalue)
  kept d hd hnone := h.kept d hd ((hsame d hd).trans hnone)

/-- If every word is written, nothing is left of what was there before. -/
theorem Written.unique {given : Dimension → Option Binary64} {raw' out' : Bytes}
    (h : Written s raw given out) (h' : Written s raw' given out')
    (hall : ∀ d ∈ s.dimensions, given d ≠ none) : out = out' := by
  refine Schema.eq_of_wordAt_eq h'.length_eq h.length_eq fun d hd => ?_
  obtain ⟨value, hvalue⟩ := Option.ne_none_iff_exists'.mp (hall d hd)
  exact Except.ok.inj ((h.word_eq d hd value hvalue).symm.trans (h'.word_eq d hd value hvalue))

/-- Values that are put one after another. -/
theorem written_of_puts {given : List (Dimension × Binary64)} (hraw : raw.length = s.size)
    (hgiven : ∀ pair ∈ given, pair.1 ∈ s.dimensions)
    (h : given.foldlM (put s) raw = .ok out) : Written s raw (lastGiven? given) out := by
  induction given using List.reverseRecOn generalizing out with
  | nil =>
    obtain rfl := Except.ok.inj h
    exact .start hraw
  | append_singleton given pair ih =>
    -- The last word is written over what the others left.
    obtain ⟨mid, hmid, hput⟩ := Result.foldlM_append_eq_ok_iff.mp h
    have hbefore := ih (fun pair' hpair => hgiven pair' (List.mem_append_left _ hpair)) hmid
    have hlast : lastGiven? (given ++ [pair]) = fun e =>
        if pair.1 = e then some pair.2 else lastGiven? given e :=
      funext fun e => lastGiven?_append given pair e
    rw [hlast]
    exact hbefore.put (hgiven pair (by simp)) hput

/-- Values that have words can be put. -/
theorem exists_puts {given : List (Dimension × Binary64)}
    (h : ∀ pair ∈ given, ∃ word, pair.1.word pair.2 = .ok word) (raw : Bytes) :
    ∃ out, given.foldlM (put s) raw = .ok out := by
  induction given generalizing raw with
  | nil => exact ⟨raw, rfl⟩
  | cons pair given ih =>
    obtain ⟨word, hword⟩ := h pair List.mem_cons_self
    have hput : put s raw pair = .ok (s.putWord raw pair.1 word) :=
      put_eq_ok_iff.mpr ⟨word, hword, rfl⟩
    rw [List.foldlM_cons, hput, Result.ok_bind]
    exact ih (fun pair' hpair => h pair' (List.mem_cons_of_mem pair hpair)) _

/-! ## Values in the order of positions -/

theorem length_blank (s : Schema) : (blank s).length = s.size := List.length_replicate

/-- A value for every dimension is put there. -/
theorem ofValues_map (s : Schema) (value : Dimension → Binary64) :
    ofValues s (s.dimensions.map value) =
      ((s.dimensions.map fun d => (d, value d)).foldlM (put s) (blank s) >>= fun raw =>
        .ok ⟨s.pcid, raw⟩) := by
  have hmissing : s.dimension? (s.dimensions.map value).length = none :=
    List.getElem?_eq_none (by rw [List.length_map])
  have hbeyond : ¬s.width < (s.dimensions.map value).length := by
    rw [List.length_map]
    exact Nat.lt_irrefl _
  unfold ofValues
  rw [hmissing, if_neg hbeyond, ← List.map_prod_left_eq_zip]
  rfl

theorem lastGiven?_map {dimensions : List Dimension} (value : Dimension → Binary64)
    (hd : d ∈ dimensions) :
    lastGiven? (dimensions.map fun e => (e, value e)) d = some (value d) := by
  -- Whichever of the dimensions comes last, it is given its own value.
  induction dimensions using List.reverseRecOn with
  | nil => cases hd
  | append_singleton dimensions e ih =>
    rw [List.map_append, List.map_singleton, lastGiven?_append]
    split
    · rename_i heq
      rw [← show e = d from heq]
    · rename_i hne
      rcases List.mem_append.mp hd with hd | hd
      · exact ih hd
      · exact absurd (List.mem_singleton.mp hd).symm hne

/-- The words of a point of values, one for every dimension. -/
theorem ofValues_map_eq_ok_iff {value : Dimension → Binary64} :
    ofValues s (s.dimensions.map value) = .ok p ↔
      p.pcid = s.pcid ∧ p.raw.length = s.size ∧
        ∀ d ∈ s.dimensions, d.word (value d) = .ok (s.wordAt p.raw 0 d) := by
  have hgiven : ∀ pair ∈ s.dimensions.map fun d => (d, value d), pair.1 ∈ s.dimensions := by
    intro pair hpair
    obtain ⟨d, hd, rfl⟩ := List.mem_map.mp hpair
    exact hd
  rw [ofValues_map, Result.bind_eq_ok_iff]
  constructor
  · rintro ⟨raw, hputs, hp⟩
    obtain rfl := Except.ok.inj hp
    have hwritten := written_of_puts (length_blank s) hgiven hputs
    exact ⟨rfl, hwritten.length_eq,
      fun d hd => hwritten.word_eq d hd _ (lastGiven?_map value hd)⟩
  · rintro ⟨hpcid, hlength, hwords⟩
    have hword : ∀ pair ∈ s.dimensions.map fun d => (d, value d),
        ∃ word, pair.1.word pair.2 = .ok word := by
      intro pair hpair
      obtain ⟨d, hd, rfl⟩ := List.mem_map.mp hpair
      exact ⟨_, hwords d hd⟩
    obtain ⟨raw, hputs⟩ := exists_puts (s := s) hword (blank s)
    refine ⟨raw, hputs, ?_⟩
    -- The words are those of the point, so the bytes are.
    have hwritten := written_of_puts (length_blank s) hgiven hputs
    have hraw : p.raw = raw := Schema.eq_of_wordAt_eq hwritten.length_eq hlength fun d hd => by
      have hword := hwritten.word_eq d hd _ (lastGiven?_map value hd)
      exact Except.ok.inj ((hwords d hd).symm.trans hword)
    rw [← hpcid, ← hraw]

/-! ## Named values -/

/-- What is collected of values of known names: the last of each, in the order of positions. -/
theorem slots_eq {named : List (String × Binary64)}
    (hknown : ∀ pair ∈ named, ∃ d ∈ s.dimensions, d.name = pair.1) :
    named.foldlM (fill s) (List.replicate s.width none) =
      .ok (s.dimensions.map fun d => lastGiven? named d.name) := by
  induction named using List.reverseRecOn with
  | nil =>
    have hnone : s.dimensions.map (fun d => lastGiven? [] d.name) =
        List.replicate s.dimensions.length none := List.map_const' ..
    rw [hnone]
    rfl
  | append_singleton named pair ih =>
    obtain ⟨name, value⟩ := pair
    obtain ⟨d, hd, hname⟩ := hknown (name, value) (by simp)
    have hslots := ih fun pair hpair => hknown pair (List.mem_append_left _ hpair)
    refine Result.foldlM_append_eq_ok_iff.mpr ⟨_, hslots, ?_⟩
    have hfound : s.named name = .ok d := Schema.named_eq_ok_iff.mpr ⟨hd, hname⟩
    show (s.named name >>= fun d => _) = _
    rw [hfound, Result.ok_bind]
    refine congrArg Except.ok (List.ext_getElem (by simp) fun j hj hj' => ?_)
    have hdim : j < s.dimensions.length := by simpa using hj'
    rw [List.getElem_set, List.getElem_map, List.getElem_map, lastGiven?_append]
    -- A slot is changed if it is that of the name.
    by_cases hposition : d.position = j
    · have hget := List.getElem?_eq_some_iff.mp (Schema.getElem_position hd)
      obtain ⟨hlt, hget⟩ := hget
      subst hposition
      rw [if_pos rfl, hget, if_pos hname.symm]
    · have hne : ¬name = (s.dimensions[j]).name := by
        intro hsame
        rw [Schema.eq_of_name_eq hd (List.getElem_mem hdim) (hname.trans hsame),
          Schema.position_getElem hdim] at hposition
        exact hposition rfl
      rw [if_neg hposition, if_neg hne]

/-- The first name that is not known is the one that is refused. -/
theorem ofNamed_of_unknown {before after : List (String × Binary64)}
    (hknown : ∀ pair ∈ before, ∃ d ∈ s.dimensions, d.name = pair.1)
    (hunknown : ∀ d ∈ s.dimensions, d.name ≠ name) :
    ofNamed s (before ++ (name, value) :: after) = .error (.unknownDimension name) := by
  have hnone : s.named name = .error (.unknownDimension name) := by
    unfold Schema.named
    cases hfind : s.named? name with
    | none => rfl
    | some d =>
      obtain ⟨hd, hname⟩ := Schema.named?_eq_some_iff.mp hfind
      exact absurd hname (hunknown d hd)
  unfold ofNamed
  rw [List.foldlM_append, slots_eq hknown, Result.ok_bind, List.foldlM_cons, fill, hnone]
  rfl

/-- Values of all names, and of no others, are encoded as the last of each in the order of
positions. -/
theorem ofNamed_eq {named : List (String × Binary64)}
    (hknown : ∀ pair ∈ named, ∃ d ∈ s.dimensions, d.name = pair.1) {value : Dimension → Binary64}
    (hgiven : ∀ d ∈ s.dimensions, lastGiven? named d.name = some (value d)) :
    ofNamed s named = ofValues s (s.dimensions.map value) := by
  have hslots : s.dimensions.map (fun d => lastGiven? named d.name) =
      s.dimensions.map fun d => some (value d) := List.map_congr_left hgiven
  -- No slot is empty, so what is written is what was put there.
  have hzip : s.dimensions.zip (s.dimensions.map fun d => some (value d)) =
      (s.dimensions.map fun d => (d, value d)).map fun pair => (pair.1, some pair.2) := by
    rw [List.map_map, ← List.map_prod_left_eq_zip]
    rfl
  unfold ofNamed
  rw [slots_eq hknown, Result.ok_bind, hslots, hzip, List.foldlM_map, ofValues_map]
  rfl

/-- Only the order of values of one name matters. -/
theorem ofNamed_congr {named other : List (String × Binary64)}
    (hknown : ∀ pair ∈ named, ∃ d ∈ s.dimensions, d.name = pair.1)
    (hsame : ∀ name, other.filter (fun pair => pair.1 = name) =
      named.filter fun pair => pair.1 = name) :
    ofNamed s other = ofNamed s named := by
  -- A value is one of those of its name, so no other name is given.
  have hknown' : ∀ pair ∈ other, ∃ d ∈ s.dimensions, d.name = pair.1 := by
    intro pair hpair
    have hmem : pair ∈ other.filter fun pair' => pair'.1 = pair.1 := by simpa using hpair
    rw [hsame] at hmem
    exact hknown pair (List.mem_of_mem_filter hmem)
  have hlast : ∀ name, lastGiven? other name = lastGiven? named name := by
    intro name
    rw [lastGiven?, hsame, lastGiven?]
  unfold ofNamed
  rw [slots_eq hknown, slots_eq hknown']
  simp only [hlast]

/-- Named values make a point only if all names are known, and each of them is given. -/
theorem given_of_ofNamed {named : List (String × Binary64)} (h : ofNamed s named = .ok p) :
    (∀ pair ∈ named, ∃ d ∈ s.dimensions, d.name = pair.1) ∧
      ∀ d ∈ s.dimensions, lastGiven? named d.name ≠ none := by
  obtain ⟨slots, hslots, h⟩ := Result.bind_eq_ok_iff.mp h
  obtain ⟨raw, hraw, -⟩ := Result.bind_eq_ok_iff.mp h
  have hknown : ∀ pair ∈ named, ∃ d ∈ s.dimensions, d.name = pair.1 := by
    intro pair hpair
    obtain ⟨before, after, hfill⟩ := Result.forall_of_foldlM hslots pair hpair
    obtain ⟨d, hd, -⟩ := Result.bind_eq_ok_iff.mp hfill
    exact ⟨d, Schema.named_eq_ok_iff.mp hd⟩
  refine ⟨hknown, fun d hd hnone => ?_⟩
  rw [slots_eq hknown] at hslots
  obtain rfl := Except.ok.inj hslots
  rw [← List.map_prod_left_eq_zip] at hraw
  -- The slot of a name that is not given would have to be written.
  obtain ⟨before, after, hput⟩ := Result.forall_of_foldlM hraw _ (List.mem_map_of_mem hd)
  rw [hnone] at hput
  cases hput

/-! ## Values one at a time -/

theorem row_isOk_iff : (∃ row, p.row s = .ok row) ↔ p.pcid = s.pcid ∧ p.raw.length = s.size := by
  unfold row Schema.checkPcid
  by_cases hpcid : p.pcid = s.pcid
  · by_cases hsize : p.raw.length = s.size <;> simp [hpcid, hsize]
  · simp [hpcid]

theorem withValue_eq_ok_iff :
    p.withValue s name value = .ok q ↔
      (p.pcid = s.pcid ∧ p.raw.length = s.size) ∧
        ∃ d ∈ s.dimensions, d.name = name ∧
          ∃ raw, put s p.raw (d, value) = .ok raw ∧ q = { p with raw } := by
  rw [← row_isOk_iff]
  constructor
  · intro h
    obtain ⟨⟨⟩, hdiscard, h⟩ := Result.bind_eq_ok_iff.mp h
    have hrow : (p.row s >>= fun _ => .ok ()) = .ok () := hdiscard
    obtain ⟨row, hrow, -⟩ := Result.bind_eq_ok_iff.mp hrow
    obtain ⟨d, hd, h⟩ := Result.bind_eq_ok_iff.mp h
    obtain ⟨raw, hput, h⟩ := Result.bind_eq_ok_iff.mp h
    obtain ⟨hd, hname⟩ := Schema.named_eq_ok_iff.mp hd
    exact ⟨⟨row, hrow⟩, d, hd, hname, raw, hput, (Except.ok.inj h).symm⟩
  · rintro ⟨⟨row, hrow⟩, d, hd, hname, raw, hput, rfl⟩
    have hdiscard : discard (p.row s) = .ok () := by
      rw [hrow]
      rfl
    unfold withValue
    rw [hdiscard, Schema.named_eq_ok_iff.mpr ⟨hd, hname⟩, Result.ok_bind, Result.ok_bind, hput]
    rfl

/-- What replacing a value does to the bytes: the word of the dimension is that of the value, and no
byte outside the word is touched. -/
theorem exists_word_of_withValue (h : p.withValue s name value = .ok q) :
    ∃ d ∈ s.dimensions, d.name = name ∧ d.word value = .ok (s.wordAt q.raw 0 d) ∧
      q.pcid = p.pcid ∧ q.raw.length = p.raw.length ∧
      ∀ i, i < s.byteOffset d.position ∨ s.byteOffset d.position + d.size ≤ i →
        q.raw[i]? = p.raw[i]? := by
  obtain ⟨⟨-, hlength⟩, d, hd, hname, raw, hput, rfl⟩ := withValue_eq_ok_iff.mp h
  have hwritten := (Written.start hlength).put hd hput
  have hword := hwritten.word_eq d hd value (if_pos rfl)
  refine ⟨d, hd, hname, hword, rfl, hwritten.length_eq.trans hlength.symm, ?_⟩
  intro i hi
  obtain ⟨word, -, rfl⟩ := put_eq_ok_iff.mp hput
  exact s.order.getElem?_put_of_outside d.size word (Schema.fits_in hlength hd) hi

/-- Values that are replaced one after another. -/
theorem written_of_withValues {steps : List (String × Binary64)}
    (hp : p.pcid = s.pcid ∧ p.raw.length = s.size)
    (h : steps.foldlM (fun point step => withValue point s step.1 step.2) p = .ok q) :
    q.pcid = s.pcid ∧ Written s p.raw (fun d => lastGiven? steps d.name) q.raw := by
  induction steps using List.reverseRecOn generalizing q with
  | nil =>
    obtain rfl := Except.ok.inj h
    exact ⟨hp.1, .start hp.2⟩
  | append_singleton steps step ih =>
    obtain ⟨mid, hmid, hstep⟩ := Result.foldlM_append_eq_ok_iff.mp h
    obtain ⟨-, d, hd, hname, raw, hput, rfl⟩ := withValue_eq_ok_iff.mp hstep
    obtain ⟨hpcid, hwritten⟩ := ih hmid
    refine ⟨hpcid, ?_⟩
    have hput := hwritten.put hd hput
    refine hput.congr fun e he => ?_
    rw [lastGiven?_append]
    -- A dimension is the one that was replaced if it has the name.
    have hsame : d = e ↔ step.1 = e.name := by
      rw [← hname]
      exact ⟨fun h => by rw [h], Schema.eq_of_name_eq hd he⟩
    simp only [hsame]

/-- Where every value was replaced, nothing is left of the point that was there. -/
theorem ofValues_of_withValues {steps : List (String × Binary64)} {value : Dimension → Binary64}
    (hp : p.pcid = s.pcid ∧ p.raw.length = s.size)
    (hgiven : ∀ d ∈ s.dimensions, lastGiven? steps d.name = some (value d))
    (h : steps.foldlM (fun point step => withValue point s step.1 step.2) p = .ok q) :
    ofValues s (s.dimensions.map value) = .ok q := by
  obtain ⟨hpcid, hwritten⟩ := written_of_withValues hp h
  refine ofValues_map_eq_ok_iff.mpr ⟨hpcid, hwritten.length_eq, ?_⟩
  intro d hd
  exact hwritten.word_eq d hd _ (hgiven d hd)

/-! ## All encoders -/

/-- What is given for every dimension is a list of values. -/
theorem exists_last {given : List (String × Binary64)}
    (h : ∀ d ∈ s.dimensions, ∃ pair ∈ given, pair.1 = d.name) :
    ∃ value : Dimension → Binary64,
      (∀ d ∈ s.dimensions, lastGiven? given d.name = some (value d)) ∧
        (s.dimensions.map value).map some =
          s.dimensions.map fun d => lastGiven? given d.name := by
  have hvalue : ∀ d ∈ s.dimensions,
      lastGiven? given d.name = some ((lastGiven? given d.name).getD .one) := by
    intro d hd
    obtain ⟨pair, hpair, hname⟩ := h d hd
    cases hlast : lastGiven? given d.name with
    | none => exact absurd hname (lastGiven?_eq_none_iff.mp hlast pair hpair)
    | some value => rfl
  refine ⟨fun d => (lastGiven? given d.name).getD .one, hvalue, ?_⟩
  rw [List.map_map]
  exact (List.map_congr_left hvalue).symm

/-- Values in the order of positions are refused only for one that has no word. -/
theorem out_of_range_of_ofValues {value : Dimension → Binary64} {e : Error}
    (h : ofValues s (s.dimensions.map value) = .error e) :
    ∃ d ∈ s.dimensions, e = .valueOutOfRange d.name (value d) d.interpretation := by
  rw [ofValues_map] at h
  -- Writing a word does not fail, so what failed is finding one.
  rcases Result.bind_eq_error_iff.mp h with h | ⟨raw, -, h⟩
  · obtain ⟨pair, hpair, before, hput⟩ := Result.exists_of_foldlM_error h
    obtain ⟨d, hd, rfl⟩ := List.mem_map.mp hpair
    rcases Result.bind_eq_error_iff.mp hput with hword | ⟨word, -, hput⟩
    · refine ⟨d, hd, ?_⟩
      unfold Dimension.word at hword
      split at hword
      · cases hword
      · exact (Except.error.inj hword).symm
    · cases hput
  · cases h

/-- Named values, ordered values and values one at a time make the same point. If all names are
known, and each is given, named values are encoded as the last of each in the order of positions,
with the same bytes or the same refusal of a value that is out of range; so only the order of values
of one name matters. The first unknown name is refused as such, and nothing is encoded without a
value for every dimension. A value that is replaced is the word of its dimension, and no byte
outside that word is touched. Values that are replaced one after another, one for every dimension at
least, make the point of those values, whatever the point they began with. -/
theorem encoders_agree (s : Schema) :
    (∀ named : List (String × Binary64),
      (∀ pair ∈ named, ∃ d ∈ s.dimensions, d.name = pair.1) →
      (∀ d ∈ s.dimensions, ∃ pair ∈ named, pair.1 = d.name) →
      ∃ values, values.map some = s.dimensions.map (fun d => lastGiven? named d.name) ∧
        ofNamed s named = ofValues s values ∧
        (∀ e, ofNamed s named = .error e → ∃ d ∈ s.dimensions, ∃ value ∈ values,
          e = .valueOutOfRange d.name value d.interpretation) ∧
        ∀ other : List (String × Binary64),
          (∀ name, other.filter (fun pair => pair.1 = name) =
            named.filter fun pair => pair.1 = name) →
          ofNamed s other = ofNamed s named) ∧
    (∀ (before after : List (String × Binary64)) name value,
      (∀ pair ∈ before, ∃ d ∈ s.dimensions, d.name = pair.1) →
      (∀ d ∈ s.dimensions, d.name ≠ name) →
      ofNamed s (before ++ (name, value) :: after) = .error (.unknownDimension name)) ∧
    (∀ named : List (String × Binary64), ∀ d ∈ s.dimensions, (∀ pair ∈ named, pair.1 ≠ d.name) →
      ∃ e, ofNamed s named = .error e) ∧
    (∀ (p q : Point) name value, p.withValue s name value = .ok q →
      ∃ d ∈ s.dimensions, d.name = name ∧ d.word value = .ok (s.wordAt q.raw 0 d) ∧
        q.pcid = p.pcid ∧ q.raw.length = p.raw.length ∧
        ∀ i, i < s.byteOffset d.position ∨ s.byteOffset d.position + d.size ≤ i →
          q.raw[i]? = p.raw[i]?) ∧
    (∀ (p q : Point) (steps : List (String × Binary64)), p.pcid = s.pcid → p.raw.length = s.size →
      (∀ d ∈ s.dimensions, ∃ step ∈ steps, step.1 = d.name) →
      steps.foldlM (fun point step => withValue point s step.1 step.2) p = .ok q →
      ∃ values, values.map some = s.dimensions.map (fun d => lastGiven? steps d.name) ∧
        ofValues s values = .ok q) := by
  refine ⟨?_, ?_, ?_, ?_, ?_⟩
  · -- names that are all known, and all given
    intro named hknown hall
    obtain ⟨value, hgiven, hvalues⟩ := exists_last hall
    have hsame := ofNamed_eq hknown hgiven
    refine ⟨s.dimensions.map value, hvalues, hsame, ?_, fun other => ofNamed_congr hknown⟩
    intro e he
    rw [hsame] at he
    obtain ⟨d, hd, rfl⟩ := out_of_range_of_ofValues he
    exact ⟨d, hd, value d, List.mem_map_of_mem hd, rfl⟩
  · -- a name that is not known
    intro before after name value hknown hunknown
    exact ofNamed_of_unknown hknown hunknown
  · -- a dimension that is not given
    intro named d hd hmissing
    refine Result.exists_error fun p hp => ?_
    exact (given_of_ofNamed hp).2 d hd (lastGiven?_eq_none_iff.mpr hmissing)
  · -- one value that is replaced
    intro p q name value h
    exact exists_word_of_withValue h
  · -- every value, one after another
    intro p q steps hpcid hlength hall h
    obtain ⟨value, hgiven, hvalues⟩ := exists_last hall
    exact ⟨s.dimensions.map value, hvalues, ofValues_of_withValues ⟨hpcid, hlength⟩ hgiven h⟩

/-- A point of the plane from named values, of which one is given twice, and from another point, in
the other direction. -/
theorem encoders_agree_planar :
    let named : List (String × Binary64) :=
      [("X", .ofInt 9), ("Class", .ofInt 3), ("Y", .ofInt 2), ("X", .ofInt 7)]
    let steps : List (String × Binary64) :=
      [("Class", .ofInt 3), ("Y", .ofInt 2), ("X", .ofInt 7)]
    let values : List Binary64 := [.ofInt 7, .ofInt 2, .ofInt 3]
    ofValues .planar values = .ok ⟨1, [0, 7, 0, 2, 3]⟩ ∧
    ofNamed .planar named = ofValues .planar values ∧
    steps.foldlM (fun point step => withValue point .planar step.1 step.2)
      ⟨1, [255, 255, 255, 255, 255]⟩ = ofValues .planar values ∧
    ofNamed .planar (("X", .ofInt 9) :: ("Z", .ofInt 1) :: named) =
      .error (.unknownDimension "Z") := by
  intro named steps values
  have hsteps : steps.foldlM (fun point step => withValue point .planar step.1 step.2)
      ⟨1, [255, 255, 255, 255, 255]⟩ = .ok ⟨1, [0, 7, 0, 2, 3]⟩ := by decide +kernel
  obtain ⟨hnamed, hunknown, -, -, hchain⟩ := encoders_agree .planar
  obtain ⟨last, hlast, hsame, -⟩ := hnamed named (by decide) (by decide)
  obtain ⟨last', hlast', hchained⟩ := hchain _ _ steps rfl rfl (by decide) hsteps
  -- The last values given by name are those in the order of positions.
  have hvalues : last.map some = values.map some := hlast.trans (by decide +kernel)
  have hvalues' : last'.map some = values.map some := hlast'.trans (by decide +kernel)
  rw [List.map_inj_right (fun _ _ => Option.some.inj)] at hvalues hvalues'
  rw [hvalues] at hsame
  rw [hvalues'] at hchained
  exact ⟨hchained, hsame, hsteps.trans hchained.symm,
    hunknown [("X", .ofInt 9)] named "Z" (.ofInt 1) (by decide) (by decide)⟩

end Point

end PointCloud
