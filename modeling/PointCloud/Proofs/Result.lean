import Mathlib.Data.List.Forall2
import PointCloud.Capacity

/-!
# Results of readers and writers

Every reader and writer gives a value or an error, and passes over what follows once there is an
error. The lemmas here take such a computation apart: from the result of a whole to the results of
its steps.

Main results:

* `Result.bind_eq_ok_iff` — a sequence gives a value exactly if every step does;
* `Result.bind_eq_error_iff` — it fails exactly where its first failing step does;
* `Result.check_eq_ok_iff` — a check is passed exactly if what it refuses is not there;
* `Result.FailsOnly.bind` — steps that fail only in one way make wholes that do;
* `Result.SameValue.bind` — steps that differ by their errors make wholes that differ by theirs;
* `bufferLength_of_reserve` — what can be set aside is inside the address space.
-/

namespace PointCloud

namespace Result

variable {ε ε' α β : Type}

/-! ## Running steps -/

@[simp] theorem ok_bind (a : α) (f : α → Except ε β) : (Except.ok a >>= f) = f a := rfl

@[simp] theorem error_bind (e : ε) (f : α → Except ε β) : (Except.error e >>= f) = .error e := rfl

@[simp] theorem throw_eq (e : ε) : (throw e : Except ε α) = .error e := rfl

@[simp] theorem pure_eq (a : α) : (pure a : Except ε α) = .ok a := rfl

@[simp] theorem mapError_ok (f : ε → ε') (a : α) :
    Except.mapError f (.ok a : Except ε α) = .ok a := rfl

@[simp] theorem mapError_error (f : ε → ε') (e : ε) :
    Except.mapError f (.error e : Except ε α) = .error (f e) := rfl

theorem mapError_bind (g : ε → ε') (x : Except ε α) (f : α → Except ε β) :
    (x >>= f).mapError g = x.mapError g >>= fun a => (f a).mapError g := by
  cases x <;> rfl

theorem mapError_mapError {ε'' : Type} (f : ε → ε') (g : ε' → ε'') (x : Except ε α) :
    (x.mapError f).mapError g = x.mapError fun e => g (f e) := by
  cases x <;> rfl

/-! ## Taking results apart -/

theorem bind_eq_ok_iff {x : Except ε α} {f : α → Except ε β} {b : β} :
    (x >>= f) = .ok b ↔ ∃ a, x = .ok a ∧ f a = .ok b := by
  cases x <;> simp

/-- What gives no value fails. -/
theorem exists_error {x : Except ε α} (h : ∀ a, x ≠ .ok a) : ∃ e, x = .error e := by
  cases x with
  | error e => exact ⟨e, rfl⟩
  | ok a => exact absurd rfl (h a)

theorem bind_eq_error_iff {x : Except ε α} {f : α → Except ε β} {e : ε} :
    (x >>= f) = .error e ↔ x = .error e ∨ ∃ a, x = .ok a ∧ f a = .error e := by
  cases x <;> simp

theorem mapError_eq_ok_iff {x : Except ε α} {f : ε → ε'} {a : α} :
    x.mapError f = .ok a ↔ x = .ok a := by
  cases x <;> simp

theorem mapError_eq_error_iff {x : Except ε α} {f : ε → ε'} {e : ε'} :
    x.mapError f = .error e ↔ ∃ e', x = .error e' ∧ f e' = e := by
  cases x <;> simp

/-- A check of every element of a list is passed if each of them passes. -/
theorem forM_eq_ok {f : α → Except ε Unit} {xs : List α} (h : ∀ x ∈ xs, f x = .ok ()) :
    xs.forM f = .ok () := by
  induction xs with
  | nil => rfl
  | cons x xs ih =>
    show (f x >>= fun _ => xs.forM f) = .ok ()
    rw [h x List.mem_cons_self, ok_bind]
    exact ih fun y hy => h y (List.mem_cons_of_mem x hy)

/-- If a check of every element of a list is passed, each of them passes. -/
theorem of_forM_eq_ok {f : α → Except ε Unit} {xs : List α} {u : Unit} (h : xs.forM f = .ok u) :
    ∀ x ∈ xs, f x = .ok () := by
  induction xs with
  | nil => simp
  | cons x xs ih =>
    obtain ⟨v, hx, h⟩ := bind_eq_ok_iff.mp (show (f x >>= fun _ => xs.forM f) = .ok u from h)
    rw [List.forall_mem_cons]
    exact ⟨hx, ih h⟩

/-- A step for every element of a list gives the results one by one. -/
theorem forall₂_of_mapM {f : α → Except ε β} {xs : List α} {ys : List β}
    (h : xs.mapM f = .ok ys) : List.Forall₂ (fun x y => f x = .ok y) xs ys := by
  induction xs generalizing ys with
  | nil =>
    obtain rfl := Except.ok.inj h
    exact .nil
  | cons x xs ih =>
    rw [List.mapM_cons] at h
    obtain ⟨y, hy, h⟩ := bind_eq_ok_iff.mp h
    obtain ⟨others, hothers, h⟩ := bind_eq_ok_iff.mp h
    obtain rfl := Except.ok.inj h
    exact .cons hy (ih hothers)

/-- The last of steps in a row is taken after the others. -/
theorem foldlM_append_eq_ok_iff {f : β → α → Except ε β} {xs : List α} {x : α} {a b : β} :
    (xs ++ [x]).foldlM f a = .ok b ↔ ∃ mid, xs.foldlM f a = .ok mid ∧ f mid x = .ok b := by
  rw [List.foldlM_append, bind_eq_ok_iff]
  refine exists_congr fun mid => and_congr_right fun _ => ?_
  show (f mid x >>= fun out => .ok out) = .ok b ↔ f mid x = .ok b
  cases f mid x <;> rfl

/-- Steps in a row give a result only if each of them does. -/
theorem forall_of_foldlM {f : β → α → Except ε β} {xs : List α} {a b : β}
    (h : xs.foldlM f a = .ok b) : ∀ x ∈ xs, ∃ before after, f before x = .ok after := by
  induction xs generalizing a with
  | nil => exact fun _ hx => absurd hx List.not_mem_nil
  | cons x xs ih =>
    rw [List.foldlM_cons] at h
    obtain ⟨c, hx, h⟩ := bind_eq_ok_iff.mp h
    rw [List.forall_mem_cons]
    exact ⟨⟨a, c, hx⟩, ih h⟩

/-- And they fail as one of them does. -/
theorem exists_of_foldlM_error {f : β → α → Except ε β} {xs : List α} {a : β} {e : ε}
    (h : xs.foldlM f a = .error e) : ∃ x ∈ xs, ∃ before, f before x = .error e := by
  induction xs generalizing a with
  | nil => cases h
  | cons x xs ih =>
    rw [List.foldlM_cons] at h
    rcases bind_eq_error_iff.mp h with hx | ⟨c, -, h⟩
    · exact ⟨x, List.mem_cons_self, a, hx⟩
    · obtain ⟨x', hx', he⟩ := ih h
      exact ⟨x', List.mem_cons_of_mem x hx', he⟩

/-- A check that refuses with an error is passed exactly if its condition does not hold. -/
theorem check_eq_ok_iff {c : Prop} [Decidable c] {e : ε} {x : Except ε α} {a : α} :
    (if c then .error e else x) = .ok a ↔ ¬ c ∧ x = .ok a := by
  split <;> simp_all

/-! ## Results that differ by their errors -/

/-- Two computations give the same value, if either gives one. -/
def SameValue (x y : Except ε α) : Prop := ∀ a, x = .ok a ↔ y = .ok a

theorem SameValue.refl (x : Except ε α) : SameValue x x := fun _ => Iff.rfl

theorem SameValue.errors (e e' : ε) : SameValue (.error e : Except ε α) (.error e') := by
  intro a
  simp

theorem SameValue.bind {x y : Except ε α} {f g : α → Except ε β} (h : SameValue x y)
    (hfg : ∀ a, SameValue (f a) (g a)) : SameValue (x >>= f) (y >>= g) := by
  intro b
  rw [bind_eq_ok_iff, bind_eq_ok_iff]
  constructor
  · rintro ⟨a, hx, hf⟩
    exact ⟨a, (h a).mp hx, (hfg a b).mp hf⟩
  · rintro ⟨a, hy, hg⟩
    exact ⟨a, (h a).mpr hy, (hfg a b).mpr hg⟩

/-- A check may refuse with another error. -/
theorem SameValue.check {c : Prop} [Decidable c] (e e' : ε) {x y : Except ε α}
    (h : SameValue x y) : SameValue (if c then .error e else x) (if c then .error e' else y) := by
  split
  · exact errors e e'
  · exact h

theorem SameValue.mapError (f : ε → ε') {x y : Except ε α} (h : SameValue x y) :
    SameValue (x.mapError f) (y.mapError f) := by
  intro a
  rw [mapError_eq_ok_iff, mapError_eq_ok_iff]
  exact h a

/-! ## Kinds of failures -/

/-- Every error that a computation may end in is of a kind. -/
def FailsOnly (P : ε → Prop) (x : Except ε α) : Prop := ∀ e, x = .error e → P e

namespace FailsOnly

variable {P Q : ε → Prop}

theorem ok (a : α) : FailsOnly P (.ok a : Except ε α) := by
  intro e h
  cases h

theorem error {e : ε} (h : P e) : FailsOnly P (.error e : Except ε α) := by
  rintro _ ⟨⟩
  exact h

theorem bind {x : Except ε α} {f : α → Except ε β} (hx : FailsOnly P x)
    (hf : ∀ a, FailsOnly P (f a)) : FailsOnly P (x >>= f) := by
  intro e h
  rcases bind_eq_error_iff.mp h with h | ⟨a, -, h⟩
  · exact hx e h
  · exact hf a e h

theorem check {c : Prop} [Decidable c] {e : ε} {x : Except ε α} (he : P e) (hx : FailsOnly P x) :
    FailsOnly P (if c then .error e else x) := by
  split
  · exact error he
  · exact hx

theorem mono {x : Except ε α} (hx : FailsOnly P x) (h : ∀ e, P e → Q e) : FailsOnly Q x :=
  fun e he => h e (hx e he)

theorem mapError {f : ε → ε'} {P : ε' → Prop} (hf : ∀ e, P (f e)) (x : Except ε α) :
    FailsOnly P (x.mapError f) := by
  intro e h
  obtain ⟨e', -, rfl⟩ := mapError_eq_error_iff.mp h
  exact hf e'

end FailsOnly

end Result

/-! ## Sizes -/

theorem reserve_eq_ok_iff {bytes : Nat} : reserve bytes = .ok () ↔ bytes < 2 ^ 62 := by
  unfold reserve
  split <;> simp_all

theorem reserve_mono {fewer bytes : Nat} (hle : fewer ≤ bytes) (h : reserve bytes = .ok ()) :
    reserve fewer = .ok () := by
  rw [reserve_eq_ok_iff] at h ⊢
  exact Nat.lt_of_le_of_lt hle h

theorem bufferLength_eq_ok_iff {points size bytes : Nat} :
    bufferLength points size = .ok bytes ↔ points * size < 2 ^ 64 ∧ bytes = points * size := by
  unfold bufferLength
  split
  · rename_i h
    rw [Except.ok.injEq]
    exact ⟨fun heq => ⟨h, heq.symm⟩, fun heq => heq.2.symm⟩
  · rename_i h
    simp only [reduceCtorEq, false_iff, not_and]
    exact fun hlt => absurd hlt h

/-- What can be set aside is inside the address space. -/
theorem bufferLength_of_reserve {points size : Nat} (h : reserve (points * size) = .ok ()) :
    bufferLength points size = .ok (points * size) := by
  rw [reserve_eq_ok_iff] at h
  exact bufferLength_eq_ok_iff.mpr ⟨by omega, rfl⟩

/-- What sets a buffer aside before anything else could do so. -/
theorem reserve_of_bufferLength {α : Type} {points size : Nat} {a : α}
    {next : Nat → Unit → Except Error α}
    (h : (bufferLength points size >>= fun bytes => reserve bytes >>= next bytes) = .ok a) :
    reserve (points * size) = .ok () := by
  obtain ⟨bytes, hbytes, h⟩ := Result.bind_eq_ok_iff.mp h
  obtain ⟨u, hroom, -⟩ := Result.bind_eq_ok_iff.mp h
  rwa [(bufferLength_eq_ok_iff.mp hbytes).2] at hroom

end PointCloud
