import Mathlib
import PointCloud.Proofs.Bytes.Cursor

/-!
# Exact readers

A reader is exact for a grammar if it takes the bytes of the grammar and no others. What comes after
these bytes does not matter to it, and without the last of them it refuses for want of bytes. Fields
of a fixed size are exact, and so are readers that read one field after the other, for the grammar
that puts the bytes of the fields one after the other.

Main results:

* `Cursor.Exact.bind` — fields in sequence, with `Cursor.Exact.step` for what is done between
  two fields and `Cursor.Exact.ite` for a choice of fields;
* `Cursor.byte_exact`, `Cursor.uint32_exact` — fields of a fixed size.
-/

namespace PointCloud

namespace Cursor

variable {α β γ : Type}

/-- A reader that takes exactly the bytes of a grammar: what it took is of the grammar, it takes
whatever is, and it refuses whatever lacks the end of it. -/
structure Exact (r : Cursor → Except Error (α × Cursor)) (form : α → Bytes → Prop) : Prop where
  sound    : ∀ {c : Cursor} {a : α} {c' : Cursor}, r c = .ok (a, c') →
    ∃ bytes, form a bytes ∧ c.rest = bytes ++ c'.rest ∧ c'.total = c.total
  complete : ∀ {a : α} {bytes : Bytes}, form a bytes → ∀ total rest,
    r ⟨total, bytes ++ rest⟩ = .ok (a, ⟨total, rest⟩)
  short    : ∀ {a : α} {bytes : Bytes}, form a bytes → ∀ total n, n < bytes.length →
    ∃ cause, r ⟨total, bytes.take n⟩ = .error (.corruptPatch cause)

namespace Exact

variable {r : Cursor → Except Error (α × Cursor)} {form form' : α → Bytes → Prop}

/-- A grammar may be written in another way. -/
theorem of_iff (h : Exact r form) (hiff : ∀ a bytes, form a bytes ↔ form' a bytes) :
    Exact r form' := by
  have hform : form = form' := by
    funext a bytes
    exact propext (hiff a bytes)
  rwa [← hform]

/-- A reader that reads nothing. -/
theorem pure (a : α) : Exact (fun c => .ok (a, c)) fun b bytes => b = a ∧ bytes = [] where
  sound := by
    intro c b c' h
    obtain ⟨rfl, rfl⟩ := Prod.mk.inj (Except.ok.inj h)
    exact ⟨[], ⟨rfl, rfl⟩, rfl, rfl⟩
  complete := by
    intro b bytes hform total rest
    obtain ⟨rfl, rfl⟩ := hform
    rfl
  short := by
    intro b bytes hform total n hn
    obtain ⟨rfl, rfl⟩ := hform
    exact absurd hn (Nat.not_lt_zero n)

/-- One field after the other. -/
theorem bind {next : α → Cursor → Except Error (β × Cursor)} {after : α → β → Bytes → Prop}
    (hr : Exact r form) (hnext : ∀ a, Exact (next a) (after a)) :
    Exact (fun c => r c >>= fun x => next x.1 x.2) fun b bytes =>
      ∃ a first second, form a first ∧ after a b second ∧ bytes = first ++ second where
  sound := by
    intro c b c' h
    obtain ⟨⟨a, middle⟩, hfirst, hsecond⟩ := Result.bind_eq_ok_iff.mp h
    obtain ⟨first, hform, hrest, htotal⟩ := hr.sound hfirst
    obtain ⟨second, hafter, hrest', htotal'⟩ := (hnext a).sound hsecond
    refine ⟨first ++ second, ⟨a, first, second, hform, hafter, rfl⟩, ?_, htotal'.trans htotal⟩
    rw [hrest, hrest', List.append_assoc]
  complete := by
    intro b bytes hfields total rest
    obtain ⟨a, first, second, hform, hafter, rfl⟩ := hfields
    -- To the first field, the second belongs to the rest.
    rw [List.append_assoc, hr.complete hform, Result.ok_bind]
    exact (hnext a).complete hafter total rest
  short := by
    intro b bytes hfields total n hn
    obtain ⟨a, first, second, hform, hafter, rfl⟩ := hfields
    -- Either the first field is cut off, or it is whole and the second is cut off.
    by_cases hcut : n < first.length
    · obtain ⟨cause, hcause⟩ := hr.short hform total n hcut
      refine ⟨cause, ?_⟩
      rw [List.take_append_of_le_length (Nat.le_of_lt hcut), hcause, Result.error_bind]
    · have hle : first.length ≤ n := Nat.le_of_not_lt hcut
      rw [List.length_append] at hn
      obtain ⟨cause, hcause⟩ := (hnext a).short hafter total (n - first.length) (by omega)
      refine ⟨cause, ?_⟩
      rw [List.take_append, List.take_of_length_le hle, hr.complete hform, Result.ok_bind]
      exact hcause

/-- A step between two fields, which reads nothing and may refuse. -/
theorem step (x : Except Error γ) {next : γ → Cursor → Except Error (β × Cursor)}
    {after : γ → β → Bytes → Prop} (hnext : ∀ a, Exact (next a) (after a)) :
    Exact (fun c => x >>= fun a => next a c) fun b bytes =>
      ∃ a, x = .ok a ∧ after a b bytes where
  sound := by
    intro c b c' h
    obtain ⟨a, hx, h⟩ := Result.bind_eq_ok_iff.mp h
    obtain ⟨bytes, hafter, hrest⟩ := (hnext a).sound h
    exact ⟨bytes, ⟨a, hx, hafter⟩, hrest⟩
  complete := by
    intro b bytes hfields total rest
    obtain ⟨a, rfl, hafter⟩ := hfields
    exact (hnext a).complete hafter total rest
  short := by
    intro b bytes hfields total n hn
    obtain ⟨a, rfl, hafter⟩ := hfields
    exact (hnext a).short hafter total n hn

/-- A choice between two fields. -/
theorem ite {p : Prop} [Decidable p] {r' : Cursor → Except Error (α × Cursor)}
    (hr : Exact r form) (hr' : Exact r' form') :
    Exact (fun c => if p then r c else r' c) fun a bytes =>
      p ∧ form a bytes ∨ ¬ p ∧ form' a bytes := by
  by_cases hp : p
  · simpa only [hp, if_true, true_and, not_true_eq_false, false_and, or_false] using hr
  · simpa only [hp, if_false, false_and, not_false_eq_true, true_and, false_or] using hr'

/-- A reader that always refuses. -/
theorem refuse (e : Error) :
    Exact (fun _ => .error e : Cursor → Except Error (α × Cursor)) fun _ _ => False where
  sound := by
    intro c a c' h
    cases h
  complete := fun hfalse => hfalse.elim
  short := fun hfalse => hfalse.elim

end Exact

/-! ## Fields of a fixed size -/

theorem byte_exact : Exact byte fun b bytes => bytes = [b] where
  sound := by
    intro c b c' h
    obtain ⟨total, rest⟩ := c
    cases rest with
    | nil => cases h
    | cons b' rest =>
      obtain ⟨rfl, rfl⟩ := Prod.mk.inj (Except.ok.inj h)
      exact ⟨[b'], rfl, rfl, rfl⟩
  complete := by
    intro b bytes hform total rest
    subst hform
    rfl
  short := by
    intro b bytes hform total n hn
    subst hform
    obtain rfl : n = 0 := Nat.lt_one_iff.mp hn
    exact ⟨_, rfl⟩

theorem take_exact (count : Nat) :
    Exact (fun c => c.take count) fun taken bytes => taken = bytes ∧ bytes.length = count where
  sound := by
    intro c taken c' h
    obtain ⟨hrest, hlength, htotal⟩ := take_eq_ok_iff.mp h
    exact ⟨taken, ⟨rfl, hlength⟩, hrest, htotal⟩
  complete := by
    intro taken bytes hform total rest
    obtain ⟨rfl, hlength⟩ := hform
    exact take_length_append total rest _ hlength
  short := by
    intro taken bytes hform total n hn
    have hshort : ((bytes.take n).take count).length < count := by
      rw [List.length_take, List.length_take]
      omega
    exact ⟨_, if_pos hshort⟩

theorem word_exact (order : ByteOrder) (size : Nat) :
    Exact (fun c => c.word order size) fun w bytes =>
      bytes.length = size ∧ w = order.word bytes := by
  refine ((take_exact size).bind fun taken => Exact.pure (order.word taken)).of_iff ?_
  intro w bytes
  constructor
  · intro hfields
    obtain ⟨_, taken, _, ⟨rfl, hlength⟩, ⟨rfl, rfl⟩, rfl⟩ := hfields
    rw [List.append_nil]
    exact ⟨hlength, rfl⟩
  · intro hword
    obtain ⟨hlength, rfl⟩ := hword
    exact ⟨bytes, bytes, [], ⟨rfl, hlength⟩, ⟨rfl, rfl⟩, (List.append_nil bytes).symm⟩

theorem uint32_exact (order : ByteOrder) :
    Exact (fun c => c.uint32 order) fun n bytes => bytes = order.bytes 4 n.toNat := by
  refine ((word_exact order 4).bind fun w => Exact.pure (UInt32.ofNat w)).of_iff ?_
  intro n bytes
  constructor
  · intro hfields
    obtain ⟨_, first, _, ⟨hlength, rfl⟩, ⟨rfl, rfl⟩, rfl⟩ := hfields
    -- Four bytes hold a number that fits, so nothing is lost on the way.
    have hlt := order.word_lt first
    have hbytes := order.bytes_word first
    rw [hlength] at hlt hbytes
    rw [UInt32.toNat_ofNat', Nat.mod_eq_of_lt hlt, hbytes, List.append_nil]
  · intro hbytes
    subst hbytes
    refine ⟨n.toNat, order.bytes 4 n.toNat, [], ⟨order.length_bytes 4 n.toNat, ?_⟩, ⟨?_, rfl⟩,
      (List.append_nil _).symm⟩
    · rw [ByteOrder.word_bytes, Nat.mod_eq_of_lt n.toNat_lt]
    · exact UInt32.ofNat_toNat.symm

end Cursor

end PointCloud
