import Mathlib
import PointCloud.Proofs.Kernel.RunLength
import PointCloud.Proofs.Schema.Rows

/-!
# Run-length streams: what is accepted, and how short it can be

A stream is accepted if it is a stream of runs, none of them empty, that add up to the count of
words that is expected; and it holds the words that its runs spell. The runs are determined by the
bytes, so nothing can be cut off an accepted stream, nor put behind it.

A column can be spelled in other ways than by its maximal runs, and a length can be written in other
forms than the shortest. Neither makes a stream shorter. Runs of one word that follow each other are
joined by a column's own runs, which takes a word away and makes no length longer than the two it is
the sum of.

Main results:

* `RunLength.decode_eq_ok_iff` — which streams are accepted, and as what;
* `RunLength.Spells.unique` — bytes spell one sequence of runs;
* `RunLength.cost_runsFrom_le` — a column's own runs cost no more than any that spell it;
* `RunLength.stream_exact_minimal` — all of these together.
-/

namespace PointCloud

namespace RunLength

variable {size n : Nat} {order : ByteOrder} {rs rs' : List Run} {words : List Nat}
  {bytes body body' rest rest' : Bytes}

/-! ## What is accepted -/

/-- What is read of a stream spells runs that are not empty and take up the room that is gone. -/
theorem spells_of_readRuns {expected count room left : Nat}
    (h : readRuns size order expected count room bytes = .ok (rs, left, rest)) :
    rs.length = count ∧ (∀ r ∈ rs, 0 < r.length) ∧ (rs.map (·.length)).sum + left = room ∧
      ∃ body, bytes = body ++ rest ∧ Spells size order rs body := by
  induction count generalizing room bytes rs with
  | zero =>
    rw [readRuns, Except.ok.injEq, Prod.mk.injEq, Prod.mk.injEq] at h
    obtain ⟨rfl, rfl, rfl⟩ := h
    exact ⟨rfl, fun _ hr => absurd hr List.not_mem_nil, Nat.zero_add _, [], rfl, .nil⟩
  | succ count ih =>
    unfold readRuns at h
    simp only [Result.throw_eq, Result.error_bind] at h
    obtain ⟨hsize, h⟩ := Result.check_eq_ok_iff.mp h
    obtain ⟨⟨length, tail⟩, hread, h⟩ := Result.bind_eq_ok_iff.mp h
    obtain ⟨hlength, h⟩ := Result.check_eq_ok_iff.mp h
    obtain ⟨⟨others, left', rest'⟩, hothers, h⟩ := Result.bind_eq_ok_iff.mp h
    rw [Result.pure_eq, Except.ok.injEq, Prod.mk.injEq, Prod.mk.injEq] at h
    obtain ⟨rfl, rfl, rfl⟩ := h
    -- The word, the form of the length and the other runs stand one behind the other.
    obtain ⟨form, hdrop, hform⟩ := Varint.exists_read (Result.mapError_eq_ok_iff.mp hread)
    obtain ⟨hcount, hpos, hsum, body, rfl, hspells⟩ := ih hothers
    have htake : (bytes.take size).length = size := List.length_take_of_le (by omega)
    have hword := order.word_lt (bytes.take size)
    have hbytes := order.bytes_word (bytes.take size)
    rw [htake] at hword hbytes
    simp only [Bool.or_eq_true, decide_eq_true_eq, not_or, Nat.not_lt] at hlength
    refine ⟨by rw [List.length_cons, hcount], ?_, ?_, _, ?_, .cons hword hform hspells⟩
    · intro r hr
      rcases List.mem_cons.mp hr with rfl | hr
      · exact Nat.pos_of_ne_zero hlength.1
      · exact hpos r hr
    · show length + (others.map (·.length)).sum + left' = room
      dsimp only at hsum
      omega
    · rw [hbytes, List.append_assoc, List.append_assoc, ← hdrop, List.take_append_drop]

/-- Accepted are the streams of runs that are not empty and add up, as what the runs spell. -/
theorem decode_eq_ok_iff :
    decode size order n bytes = .ok words ↔
      reserve (8 * n) = .ok () ∧ ∃ rs, IsStream size order rs bytes ∧ (∀ r ∈ rs, 0 < r.length) ∧
        (rs.map (·.length)).sum = n ∧ words = expand rs := by
  constructor
  · intro h
    unfold decode at h
    simp only [Result.throw_eq, Result.error_bind] at h
    obtain ⟨hheader, h⟩ := Result.check_eq_ok_iff.mp h
    obtain ⟨⟨⟩, hroom, h⟩ := Result.bind_eq_ok_iff.mp h
    obtain ⟨⟨rs, left, rest⟩, hread, h⟩ := Result.bind_eq_ok_iff.mp h
    obtain ⟨hleft, h⟩ := Result.check_eq_ok_iff.mp h
    obtain ⟨hrest, h⟩ := Result.check_eq_ok_iff.mp h
    -- Neither room nor bytes are left.
    obtain rfl : left = 0 := not_not.mp hleft
    obtain rfl : rest = [] := by simpa using hrest
    obtain ⟨hcount, hpos, hsum, body, hbody, hspells⟩ :=
      spells_of_readRuns (Result.mapError_eq_ok_iff.mp hread)
    rw [List.append_nil] at hbody
    have htake : (bytes.take 4).length = 4 := List.length_take_of_le (by omega)
    have hword := order.word_lt (bytes.take 4)
    have hbytes := order.bytes_word (bytes.take 4)
    rw [htake, ← hcount] at hword hbytes
    exact ⟨hroom, rs, ⟨hword, hbytes.symm, hbody ▸ hspells⟩, hpos, hsum, (Except.ok.inj h).symm⟩
  · rintro ⟨hroom, rs, hstream, hpos, hsum, rfl⟩
    rw [hstream.decode_eq hpos hsum, hroom, Result.ok_bind]

theorem Spells.word_lt (h : Spells size order rs body) : ∀ r ∈ rs, r.word < 256 ^ size := by
  induction h with
  | nil => exact fun _ hr => absurd hr List.not_mem_nil
  | cons hword _ _ ih =>
    intro r hr
    rcases List.mem_cons.mp hr with rfl | hr
    · exact hword
    · exact ih r hr

/-- Bytes spell one sequence of runs, once their count is known. -/
theorem Spells.unique (h : Spells size order rs body) (h' : Spells size order rs' body')
    (hcount : rs.length = rs'.length) (heq : body ++ rest = body' ++ rest') :
    rs = rs' ∧ body = body' := by
  induction h generalizing rs' body' with
  | nil =>
    cases h' with
    | nil => exact ⟨rfl, rfl⟩
    | cons => cases hcount
  | @cons r rs form body hword hform _ ih =>
    cases h' with
    | nil => cases hcount
    | @cons r' rs' form' body' hword' hform' hspells' =>
      simp only [List.append_assoc] at heq
      obtain ⟨hbytes, heq⟩ := List.append_inj heq (by rw [ByteOrder.length_bytes,
        ByteOrder.length_bytes])
      obtain ⟨hlength, rfl, htail⟩ := Varint.form_unique hform hform' heq
      obtain ⟨rfl, rfl⟩ := ih hspells' (Nat.succ.inj hcount) htail
      -- A word that fits is the word of its bytes.
      have hsame := congrArg order.word hbytes
      rw [ByteOrder.word_bytes, ByteOrder.word_bytes, Nat.mod_eq_of_lt hword,
        Nat.mod_eq_of_lt hword'] at hsame
      have hrun : r = r' := congrArg₂ Run.mk hsame hlength
      exact ⟨by rw [hrun], by rw [hrun]⟩

/-- Where one stream of runs begins another they are the same. -/
theorem IsStream.unique {bytes' : Bytes} (h : IsStream size order rs bytes)
    (h' : IsStream size order rs' bytes') (hbegins : bytes' <+: bytes) :
    rs = rs' ∧ bytes = bytes' := by
  obtain ⟨more, rfl⟩ := hbegins
  have hlength := h'.four_le_length
  have htake : (bytes' ++ more).take 4 = bytes'.take 4 := List.take_append_of_le_length hlength
  have hdrop : (bytes' ++ more).drop 4 = bytes'.drop 4 ++ more :=
    List.drop_append_of_le_length hlength
  -- The counts are read from the same bytes.
  have hcount : rs.length = rs'.length := by
    have hwords := congrArg order.word (h.count_eq.symm.trans (htake.trans h'.count_eq))
    rwa [ByteOrder.word_bytes, ByteOrder.word_bytes, Nat.mod_eq_of_lt h.count_lt,
      Nat.mod_eq_of_lt h'.count_lt] at hwords
  have hspells := h.spells
  rw [hdrop] at hspells
  obtain ⟨hruns, hbody⟩ := hspells.unique h'.spells hcount
    (show (bytes'.drop 4 ++ more) ++ [] = bytes'.drop 4 ++ more by rw [List.append_nil])
  obtain rfl : more = [] := List.append_right_eq_self.mp hbody
  exact ⟨hruns, List.append_nil _⟩

/-! ## How short a stream can be -/

/-- What runs cost, if a run of each length has its cost. -/
def cost (f : Nat → Nat) (rs : List Run) : Nat := (rs.map fun r => f r.length).sum

theorem cost_cons (f : Nat → Nat) (r : Run) (rs : List Run) :
    cost f (r :: rs) = f r.length + cost f rs := by
  rw [cost, List.map_cons, List.sum_cons, cost]

/-- A run goes on while its word does. -/
theorem runsFrom_replicate (w length count : Nat) (ws : List Nat) :
    runsFrom w length (List.replicate count w ++ ws) = runsFrom w (length + count) ws := by
  induction count generalizing length with
  | zero => rfl
  | succ count ih =>
    rw [List.replicate_succ, List.cons_append, runsFrom, if_pos rfl, ih, Nat.add_right_comm,
      Nat.add_assoc]

/-- If to join two runs does not cost more, a column's own runs cost no more than any that spell it.
The run in progress is one of those, with what has been read of it. -/
theorem cost_runsFrom_le {f : Nat → Nat} (hf : ∀ m n, f (m + n) ≤ f m + f n)
    (hpos : ∀ r ∈ rs, 0 < r.length) (w length : Nat) :
    cost f (runsFrom w length (expand rs)) ≤ f length + cost f rs := by
  induction rs generalizing w length with
  | nil => exact Nat.le_refl _
  | cons r rs ih =>
    have hrs : ∀ r' ∈ rs, 0 < r'.length := fun r' hr => hpos r' (List.mem_cons_of_mem r hr)
    rw [expand_cons, cost_cons]
    by_cases hw : r.word = w
    · -- The run in progress goes on, and the two are one.
      rw [hw, runsFrom_replicate]
      have hjoined := ih hrs w (length + r.length)
      have hcost := hf length r.length
      omega
    · -- It ends where the next word stands.
      obtain ⟨count, hcount⟩ := Nat.exists_eq_add_of_lt (hpos r List.mem_cons_self)
      have hlength : r.length = count + 1 := by omega
      rw [hlength, List.replicate_succ, List.cons_append, runsFrom, if_neg hw, cost_cons,
        runsFrom_replicate, Nat.add_comm 1 count, ← hlength]
      exact Nat.add_le_add_left (ih hrs r.word r.length) (f length)

theorem cost_runs_le {f : Nat → Nat} (hf : ∀ m n, f (m + n) ≤ f m + f n)
    (hpos : ∀ r ∈ rs, 0 < r.length) : cost f (runs (expand rs)) ≤ cost f rs := by
  cases rs with
  | nil => exact Nat.le_refl _
  | cons r rs =>
    obtain ⟨count, hcount⟩ := Nat.exists_eq_add_of_lt (hpos r List.mem_cons_self)
    have hlength : r.length = count + 1 := by omega
    have hrs : ∀ r' ∈ rs, 0 < r'.length := fun r' hr => hpos r' (List.mem_cons_of_mem r hr)
    -- The whole first run is in progress when the next one begins.
    rw [expand_cons, hlength, List.replicate_succ, List.cons_append, runs, runsFrom_replicate,
      Nat.add_comm 1 count, ← hlength, cost_cons]
    exact cost_runsFrom_le hf hrs r.word r.length

theorem cost_one (rs : List Run) : cost (fun _ => 1) rs = rs.length := by
  simp [cost]

/-- No bytes that spell runs are fewer than a word and a length for each of them. -/
theorem Spells.cost_le (h : Spells size order rs body) :
    cost (fun length => size + (Varint.write length).length) rs ≤ body.length := by
  induction h with
  | nil => exact Nat.le_refl _
  | @cons r rs form body _ hform _ ih =>
    have hwrite := Varint.length_write_le_of_read hform
    rw [cost_cons, List.length_append, List.length_append, ByteOrder.length_bytes]
    omega

/-- What is written is as long as the runs of the column cost. -/
theorem length_of_encode (h : encode size order words = .ok bytes) :
    bytes.length = 4 + cost (fun length => size + (Varint.write length).length) (runs words) := by
  simp only [encode] at h
  split at h
  · rw [← Except.ok.inj h, List.length_append, ByteOrder.length_bytes, List.length_flatMap, cost]
    simp only [Run.length_bytes]
  · cases h

/-- No stream of a column is shorter than the one that is written. -/
theorem exists_encode_le (h : decode size order n bytes = .ok words) :
    ∃ best, encode size order words = .ok best ∧ best.length ≤ bytes.length := by
  obtain ⟨-, rs, hstream, hpos, -, rfl⟩ := decode_eq_ok_iff.mp h
  have hruns : countRuns (expand rs) ≤ rs.length := by
    -- If every run costs one, the cost is their number.
    rw [← length_runs, ← cost_one, ← cost_one]
    exact cost_runs_le (fun _ _ => by omega) hpos
  have hcount : countRuns (expand rs) < 2 ^ 32 := Nat.lt_of_le_of_lt hruns hstream.count_lt
  obtain ⟨best, hbest⟩ : ∃ best, encode size order (expand rs) = .ok best := exists_encode hcount
  refine ⟨best, hbest, ?_⟩
  have hcost : cost (fun length => size + (Varint.write length).length) (runs (expand rs)) ≤
      cost (fun length => size + (Varint.write length).length) rs := by
    refine cost_runs_le (fun l m => ?_) hpos
    have hadd := Varint.length_write_add_le l m
    omega
  have hbody := hstream.spells.cost_le
  have hheader := hstream.four_le_length
  rw [List.length_drop] at hbody
  rw [length_of_encode hbest]
  omega

/-! ## Every stream -/

/-- A stream of runs is accepted for the count its lengths add up to, if none is empty, and for no
other. -/
theorem IsStream.rejected (h : IsStream size order rs bytes)
    (hbad : (∃ r ∈ rs, r.length = 0) ∨ (rs.map (·.length)).sum ≠ n) :
    ∃ e, decode size order n bytes = .error e := by
  refine Result.exists_error fun words hdecode => ?_
  obtain ⟨-, rs', hstream, hpos, hsum, -⟩ := decode_eq_ok_iff.mp hdecode
  obtain ⟨rfl, -⟩ := h.unique hstream (List.prefix_refl bytes)
  rcases hbad with ⟨r, hr, hzero⟩ | hne
  · exact absurd hzero (Nat.ne_of_gt (hpos r hr))
  · exact hne hsum

/-- What is cut off a stream of runs, or put behind it, makes it none, whatever count is expected.
-/
theorem IsStream.not_accepted_of_prefix (h : IsStream size order rs bytes) {bytes' : Bytes}
    (hbegins : bytes' <+: bytes ∨ bytes <+: bytes') (hne : bytes ≠ bytes') :
    ∃ e, decode size order n bytes' = .error e := by
  refine Result.exists_error fun words hdecode => ?_
  obtain ⟨-, rs', hstream, -⟩ := decode_eq_ok_iff.mp hdecode
  rcases hbegins with hbegins | hbegins
  · exact hne (h.unique hstream hbegins).2
  · exact hne (hstream.unique h hbegins).2.symm

/-- A column of words that fit, with a count of runs that fits, is written and read back, memory
permitting, and its stream begins with that count. What is accepted has as many words as are
expected, of the size that is expected, and is spelled by the runs of the stream; and the stream
that is written for it is no longer. A stream of runs is refused, for every count of words, if one
of the runs is empty, if they do not add up to the count, if it is cut off, and if it runs on. -/
theorem stream_exact_minimal (size : Nat) (order : ByteOrder) :
    (∀ words, (∀ w ∈ words, w < 2 ^ (8 * size)) → countRuns words < 2 ^ 32 →
      ∃ bytes, encode size order words = .ok bytes ∧
        order.word (bytes.take 4) = countRuns words ∧
        decode size order words.length bytes =
          (reserve (8 * words.length) >>= fun _ => .ok words)) ∧
    (∀ n bytes words, decode size order n bytes = .ok words →
      words.length = n ∧ (∀ w ∈ words, w < 2 ^ (8 * size)) ∧
        (∃ rs, IsStream size order rs bytes ∧ words = expand rs) ∧
        ∃ best, encode size order words = .ok best ∧ best.length ≤ bytes.length) ∧
    (∀ rs bytes, IsStream size order rs bytes → ∀ n,
      ((∃ r ∈ rs, r.length = 0) → ∃ e, decode size order n bytes = .error e) ∧
      ((rs.map (·.length)).sum ≠ n → ∃ e, decode size order n bytes = .error e) ∧
      (∀ short, short <+: bytes → short ≠ bytes → ∃ e, decode size order n short = .error e) ∧
      (∀ more, more ≠ [] → ∃ e, decode size order n (bytes ++ more) = .error e)) := by
  simp only [two_pow_eight_mul]
  refine ⟨?_, ?_, ?_⟩
  · -- what is written
    intro words hfits hcount
    obtain ⟨bytes, hbytes⟩ : ∃ bytes, encode size order words = .ok bytes := exists_encode hcount
    refine ⟨bytes, hbytes, ?_, decode_encode_eq hfits hbytes⟩
    simp only [encode, if_pos hcount] at hbytes
    rw [← Except.ok.inj hbytes, List.take_left' (ByteOrder.length_bytes _ _ _),
      ByteOrder.word_bytes, Nat.mod_eq_of_lt hcount]
  · -- what is accepted
    intro n bytes words h
    have hbest := exists_encode_le h
    obtain ⟨-, rs, hstream, hpos, hsum, rfl⟩ := decode_eq_ok_iff.mp h
    refine ⟨by rw [length_expand, hsum], ?_, ⟨rs, hstream, rfl⟩, hbest⟩
    intro w hw
    obtain ⟨r, hr, hw⟩ := List.mem_flatMap.mp hw
    rw [List.eq_of_mem_replicate hw]
    exact hstream.spells.word_lt r hr
  · -- what is refused
    intro rs bytes hstream n
    refine ⟨?_, ?_, ?_, ?_⟩
    · intro hzero
      exact hstream.rejected (.inl hzero)
    · intro hne
      exact hstream.rejected (.inr hne)
    · intro short hbegins hne
      exact hstream.not_accepted_of_prefix (.inl hbegins) hne.symm
    · intro more hmore
      refine hstream.not_accepted_of_prefix (.inr (List.prefix_append bytes more)) fun hsame => ?_
      exact hmore (List.append_right_eq_self.mp hsame.symm)

/-- Three words in two runs, and the same words in runs of one each: both are accepted, and the
column's own runs are shorter. -/
theorem stream_exact_minimal_joined :
    decode 1 .little 3 [3, 0, 0, 0, 7, 1, 7, 1, 9, 1] = .ok [7, 7, 9] ∧
    encode 1 .little [7, 7, 9] = .ok [2, 0, 0, 0, 7, 2, 9, 1] ∧
    (∃ best, encode 1 .little [7, 7, 9] = .ok best ∧ best.length ≤ 10) ∧
    ∃ e, decode 1 .little 3 [2, 0, 0, 0, 7, 2, 9] = .error e := by
  have hdecode : decode 1 .little 3 [3, 0, 0, 0, 7, 1, 7, 1, 9, 1] = .ok [7, 7, 9] := by
    decide +kernel
  have hencode : encode 1 .little [7, 7, 9] = .ok [2, 0, 0, 0, 7, 2, 9, 1] := by decide +kernel
  obtain ⟨-, haccepted, hrejected⟩ := stream_exact_minimal 1 .little
  obtain ⟨-, -, -, hbest⟩ := haccepted _ _ _ hdecode
  have hstream := isStream_of_encode (by decide) (by decide) hencode
  obtain ⟨-, -, hcut, -⟩ := hrejected _ _ hstream 3
  exact ⟨hdecode, hencode, hbest, hcut _ (by decide) (by decide)⟩

end RunLength

end PointCloud
