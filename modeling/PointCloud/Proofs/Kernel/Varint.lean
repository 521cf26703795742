import Mathlib
import PointCloud.Kernel.Varint
import PointCloud.Proofs.Result

/-!
# Variable-length integers: forms and lengths

A form of a number is a byte string that ends by itself: every byte but the last announces another.
It may have as many groups as begin inside the width, and the number that they make has to fit. So a
number may be read from more than one form, for groups of zeros may follow its last group, up to the
width. Of the forms of one length only one is the number's, because the groups are its digits. No
form is shorter than the one that is written: each byte holds seven bits, and what is written has
the bytes that the bits need. So a number that is split into two is written in no fewer bytes.

Main results:

* `Varint.read_eq_ok_iff` — what is read is a form and the number of its groups;
* `Varint.read_take` — a form that is cut off is refused for want of bytes;
* `Varint.IsForm.unique` — a number has at most one form of a length;
* `Varint.length_write_le_iff` — how many bytes a number needs;
* `Varint.length_write_add_le` — the two numbers it is the sum of do not need fewer;
* `Varint.readAll_eq_ok_iff` — a list is read from the forms of its numbers;
* `Varint.forms_exact_shortest` — all of these together.
-/

namespace PointCloud

namespace Varint

variable {bits n count : Nat} {ns : List Nat} {bytes form form' rest rest' : Bytes} {b : UInt8}

/-! ## Groups -/

/-- The number that the groups of a byte string make, each seven bits above the one before it. -/
def groupSum (form : Bytes) : Nat := (form.mapIdx fun i b => b.toNat % 128 * 2 ^ (7 * i)).sum

/-- The groups are digits, the lowest first. -/
theorem groupSum_eq_ofDigits (form : Bytes) :
    groupSum form = Nat.ofDigits 128 (form.map fun b => b.toNat % 128) := by
  rw [Nat.ofDigits_eq_sum_mapIdx, groupSum]
  refine congrArg List.sum (List.ext_getElem (by simp) fun i _ _ => ?_)
  rw [List.getElem_mapIdx, List.getElem_mapIdx, List.getElem_map, Nat.pow_mul]

theorem groupSum_cons (b : UInt8) (form : Bytes) :
    groupSum (b :: form) = b.toNat % 128 + 128 * groupSum form := by
  rw [groupSum_eq_ofDigits, groupSum_eq_ofDigits, List.map_cons, Nat.ofDigits_cons]

theorem groupSum_lt (form : Bytes) : groupSum form < 128 ^ form.length := by
  have hdigits : ∀ digit ∈ form.map fun b => b.toNat % 128, digit < 128 := by
    intro digit hdigit
    obtain ⟨b, -, rfl⟩ := List.mem_map.mp hdigit
    exact Nat.mod_lt _ (by decide)
  have hlt := Nat.ofDigits_lt_base_pow_length (by decide) hdigits
  rwa [List.length_map, ← groupSum_eq_ofDigits] at hlt

/-! ## Forms -/

/-- A form of a number of at most `bits` bits. -/
structure IsForm (bits n : Nat) (form : Bytes) : Prop where
  ended  : ∃ init last, form = init ++ [last] ∧ (∀ b ∈ init, 128 ≤ b.toNat) ∧ last.toNat < 128
  inside : 7 * (form.length - 1) < bits
  number : groupSum form = n
  fits   : n < 2 ^ bits

theorem IsForm.ne_nil (h : IsForm bits n form) : form ≠ [] := by
  obtain ⟨init, last, rfl, -⟩ := h.ended
  exact List.append_ne_nil_of_right_ne_nil init (List.cons_ne_nil last [])

theorem IsForm.length_pos (h : IsForm bits n form) : 0 < form.length :=
  List.length_pos_of_ne_nil h.ne_nil

theorem isForm_singleton_iff :
    IsForm bits n [b] ↔ 0 < bits ∧ b.toNat < 128 ∧ n = b.toNat % 128 ∧ n < 2 ^ bits := by
  have hsum : groupSum [b] = b.toNat % 128 := by
    rw [groupSum_cons]
    rfl
  constructor
  · intro h
    obtain ⟨init, last, heq, -, hlast⟩ := h.ended
    obtain ⟨-, hb⟩ := List.append_inj' (show [] ++ [b] = init ++ [last] from heq) rfl
    obtain rfl := List.singleton_inj.mp hb
    exact ⟨h.inside, hlast, h.number.symm.trans hsum, h.fits⟩
  · rintro ⟨hbits, hlast, hnumber, hfits⟩
    exact ⟨⟨[], b, rfl, fun _ hb => absurd hb List.not_mem_nil, hlast⟩, hbits,
      hsum.trans hnumber.symm, hfits⟩

/-- A form of more than one byte announces a form, whose number stands above the first group. -/
theorem isForm_cons_iff (hne : form ≠ []) :
    IsForm bits n (b :: form) ↔
      128 ≤ b.toNat ∧ ∃ high, IsForm (bits - 7) high form ∧ n = b.toNat % 128 + 128 * high := by
  have hlength : 0 < form.length := List.length_pos_of_ne_nil hne
  have hpow (hwide : 7 < bits) : 2 ^ bits = 2 ^ (bits - 7) * 128 := by
    rw [← Nat.sub_add_cancel (Nat.le_of_lt hwide), Nat.pow_add, Nat.add_sub_cancel]
  constructor
  · intro h
    obtain ⟨init, last, heq, hinit, hlast⟩ := h.ended
    have hinside := h.inside
    have hnumber := h.number
    have hfits := h.fits
    rw [List.length_cons] at hinside
    rw [groupSum_cons] at hnumber
    rw [hpow (by omega)] at hfits
    -- The first byte is one of those that announce another.
    cases init with
    | nil => exact absurd (List.cons.inj heq).2 hne
    | cons b' init =>
      obtain ⟨rfl, hform⟩ := List.cons.inj heq
      rw [List.forall_mem_cons] at hinit
      exact ⟨hinit.1, groupSum form, ⟨⟨init, last, hform, hinit.2, hlast⟩, by omega, rfl, by omega⟩,
        hnumber.symm⟩
  · rintro ⟨hb, high, h, rfl⟩
    obtain ⟨init, last, rfl, hinit, hlast⟩ := h.ended
    have hinside := h.inside
    have hfits := h.fits
    refine ⟨⟨b :: init, last, rfl, List.forall_mem_cons.mpr ⟨hb, hinit⟩, hlast⟩, ?_, ?_, ?_⟩
    · rw [List.length_cons]
      omega
    · rw [groupSum_cons, h.number]
    · rw [hpow (by omega)]
      omega

/-- A number has at most one form of a length. -/
theorem IsForm.unique {bits' : Nat} (h : IsForm bits n form) (h' : IsForm bits' n form')
    (hlength : form.length = form'.length) : form = form' := by
  induction form generalizing bits bits' n form' with
  | nil => exact absurd rfl h.ne_nil
  | cons b form ih =>
    obtain ⟨b', form', rfl⟩ := List.exists_cons_of_length_eq_add_one hlength.symm
    rw [List.length_cons, List.length_cons, Nat.add_right_cancel_iff] at hlength
    by_cases hlast : form = []
    · subst hlast
      obtain rfl := List.eq_nil_of_length_eq_zero hlength.symm
      rw [isForm_singleton_iff] at h h'
      have hb : b = b' := UInt8.toNat_inj.mp (by omega)
      rw [hb]
    · have hlast' : form' ≠ [] := by
        rw [← List.length_pos_iff, ← hlength]
        exact List.length_pos_of_ne_nil hlast
      obtain ⟨hb, high, hhigh, hn⟩ := (isForm_cons_iff hlast).mp h
      obtain ⟨hb', high', hhigh', hn'⟩ := (isForm_cons_iff hlast').mp h'
      -- Both first groups are the number's last digit, so the rest is one number, too.
      obtain rfl : high = high' := by omega
      have hbyte := b.toNat_lt
      have hbyte' := b'.toNat_lt
      have hsame : b = b' := UInt8.toNat_inj.mp (by omega)
      rw [hsame, ih hhigh hhigh' hlength]

/-! ## What is read -/

/-- Either the first byte is the whole number, or it announces the rest of it. -/
theorem read_cons_eq_ok_iff :
    read bits (b :: bytes) = .ok (n, rest) ↔
      0 < bits ∧ b.toNat % 128 < 2 ^ bits ∧
        (b.toNat < 128 ∧ n = b.toNat % 128 ∧ rest = bytes ∨
          128 ≤ b.toNat ∧ ∃ high, read (bits - 7) bytes = .ok (high, rest) ∧
            n = b.toNat % 128 + 128 * high) := by
  rw [read_cons, Result.check_eq_ok_iff, not_or, ← ne_eq, ← Nat.pos_iff_ne_zero, Nat.not_le,
    and_assoc]
  refine and_congr_right fun _ => and_congr_right fun _ => ?_
  split
  · rename_i hlast
    simp [hlast, eq_comm, Nat.not_le.mpr hlast]
  · rename_i hlast
    rw [Result.bind_eq_ok_iff]
    simp only [hlast, false_and, false_or, Nat.le_of_not_lt hlast, true_and, Prod.exists,
      Except.ok.injEq, Prod.mk.injEq]
    constructor
    · rintro ⟨high, rest', hread, rfl, rfl⟩
      exact ⟨high, hread, rfl⟩
    · rintro ⟨high, hread, rfl⟩
      exact ⟨high, rest, hread, rfl, rfl⟩

/-- A form is read, whatever follows it. -/
theorem IsForm.read_append (h : IsForm bits n form) (rest : Bytes) :
    read bits (form ++ rest) = .ok (n, rest) := by
  induction form generalizing bits n with
  | nil => exact absurd rfl h.ne_nil
  | cons b form ih =>
    rw [List.cons_append, read_cons_eq_ok_iff]
    by_cases hlast : form = []
    · subst hlast
      obtain ⟨hbits, hb, rfl, hfits⟩ := isForm_singleton_iff.mp h
      exact ⟨hbits, hfits, .inl ⟨hb, rfl, rfl⟩⟩
    · obtain ⟨hb, high, hhigh, rfl⟩ := (isForm_cons_iff hlast).mp h
      have hfits := h.fits
      have hinside := hhigh.inside
      exact ⟨by omega, by omega, .inr ⟨hb, high, ih hhigh, rfl⟩⟩

/-- What is read is a form with the number of its groups, and what is left follows it. -/
theorem read_eq_ok_iff :
    read bits bytes = .ok (n, rest) ↔ ∃ form, bytes = form ++ rest ∧ IsForm bits n form := by
  constructor
  · intro h
    induction bytes generalizing bits n with
    | nil => cases h
    | cons b bytes ih =>
      obtain ⟨hbits, hgroup, ⟨hb, rfl, rfl⟩ | ⟨hb, high, hread, rfl⟩⟩ := read_cons_eq_ok_iff.mp h
      · exact ⟨[b], rfl, isForm_singleton_iff.mpr ⟨hbits, hb, rfl, hgroup⟩⟩
      · obtain ⟨form, rfl, hform⟩ := ih hread
        exact ⟨b :: form, rfl, (isForm_cons_iff hform.ne_nil).mpr ⟨hb, high, hform, rfl⟩⟩
  · rintro ⟨form, rfl, hform⟩
    exact hform.read_append rest

/-- A whole string is read as a number exactly if it is a form of it. -/
theorem read_eq_ok_nil_iff : read bits form = .ok (n, []) ↔ IsForm bits n form := by
  simp [read_eq_ok_iff]

/-- The bytes of a number that is read stand in front of what is left. -/
theorem exists_read (h : read bits bytes = .ok (n, rest)) :
    ∃ first, bytes = first ++ rest ∧ read bits first = .ok (n, []) := by
  simp only [read_eq_ok_nil_iff]
  exact read_eq_ok_iff.mp h

/-- What follows a number does not matter to reading it. -/
theorem read_append (h : read bits bytes = .ok (n, rest)) (more : Bytes) :
    read bits (bytes ++ more) = .ok (n, rest ++ more) := by
  obtain ⟨form, rfl, hform⟩ := read_eq_ok_iff.mp h
  rw [List.append_assoc]
  exact hform.read_append (rest ++ more)

/-- Without its last byte a number is not there: every byte before it announces another. -/
theorem read_take (h : read bits bytes = .ok (n, [])) (hcount : count < bytes.length) :
    read bits (bytes.take count) = .error .unexpectedEnd := by
  induction bytes generalizing bits n count with
  | nil => cases h
  | cons b bytes ih =>
    cases count with
    | zero => rfl
    | succ count =>
      rw [List.length_cons, Nat.add_lt_add_iff_right] at hcount
      obtain ⟨hbits, hgroup, ⟨-, -, rfl⟩ | ⟨hb, high, hread, -⟩⟩ := read_cons_eq_ok_iff.mp h
      · -- The number ends with its first byte, so nothing is cut off.
        exact absurd hcount (Nat.not_lt_zero count)
      · rw [List.take_succ_cons, read_cons, if_neg (by omega), if_neg (by omega), ih hread hcount]
        rfl

/-- A number that is read has no more bits than it may have. -/
theorem lt_of_read (h : read bits bytes = .ok (n, rest)) : n < 2 ^ bits := by
  obtain ⟨form, -, hform⟩ := read_eq_ok_iff.mp h
  exact hform.fits

/-- Two strings that begin with forms of numbers begin with the same form, if they are one. -/
theorem form_unique {m : Nat} (h : read bits form = .ok (n, []))
    (h' : read bits form' = .ok (m, [])) (heq : form ++ rest = form' ++ rest') :
    n = m ∧ form = form' ∧ rest = rest' := by
  have hread := read_append h rest
  rw [heq, read_append h' rest'] at hread
  obtain ⟨hnumber, hrest⟩ := Prod.mk.inj (Except.ok.inj hread)
  rw [List.nil_append, List.nil_append] at hrest
  rw [← hrest] at heq
  exact ⟨hnumber.symm, List.append_cancel_right heq, hrest.symm⟩

/-! ## Lengths -/

theorem length_write_pos (n : Nat) : 0 < (write n).length := by
  refine List.length_pos_of_ne_nil ?_
  unfold write
  split <;> exact List.cons_ne_nil _ _

/-- Every byte holds seven bits. -/
theorem length_write_le_iff {count : Nat} (n : Nat) (hcount : 0 < count) :
    (write n).length ≤ count ↔ n < 128 ^ count := by
  induction count generalizing n with
  | zero => exact absurd hcount (Nat.lt_irrefl 0)
  | succ count ih =>
    rw [write, Nat.pow_succ]
    split
    · rename_i hsmall
      have hpow : 0 < 128 ^ count := Nat.pow_pos (by decide)
      rw [List.length_singleton]
      omega
    · rename_i hbig
      -- The first byte takes a group away, and the other bytes hold what is left.
      rw [List.length_cons, Nat.add_le_add_iff_right, ← Nat.div_lt_iff_lt_mul (by decide)]
      rcases Nat.eq_zero_or_pos count with rfl | hpos
      · -- One byte is not enough, for there is more than a group.
        have hlength := length_write_pos (n / 128)
        rw [Nat.pow_zero]
        omega
      · exact ih (n / 128) hpos

/-- No form of a number is shorter than the written one. -/
theorem length_write_le_of_read (h : read bits form = .ok (n, [])) :
    (write n).length ≤ form.length := by
  have hform := read_eq_ok_nil_iff.mp h
  have hsum := groupSum_lt form
  rw [hform.number] at hsum
  exact (length_write_le_iff n hform.length_pos).mpr hsum

/-- And every other one is longer. -/
theorem length_write_lt_of_read (h : read bits form = .ok (n, [])) (hne : form ≠ write n) :
    (write n).length < form.length := by
  have hform := read_eq_ok_nil_iff.mp h
  have hbits : 0 < bits := Nat.lt_of_le_of_lt (Nat.zero_le _) hform.inside
  have hread := read_write bits n [] hform.fits hbits
  rw [List.append_nil, read_eq_ok_nil_iff] at hread
  refine Nat.lt_of_le_of_ne (length_write_le_of_read h) fun hlength => ?_
  exact hne (hform.unique hread hlength.symm)

/-- A sum is written in no more bytes than its two parts. -/
theorem length_write_add_le (m n : Nat) :
    (write (m + n)).length ≤ (write m).length + (write n).length := by
  have hm := (length_write_le_iff m (length_write_pos m)).mp (Nat.le_refl _)
  have hn := (length_write_le_iff n (length_write_pos n)).mp (Nat.le_refl _)
  rw [length_write_le_iff (m + n) (Nat.add_pos_left (length_write_pos m) _), Nat.pow_add]
  have htwo : ∀ k, 0 < k → 2 ≤ 128 ^ k := fun k hk =>
    Nat.le_trans (by decide) (Nat.pow_le_pow_right (by decide) hk)
  calc m + n < 128 ^ (write m).length + 128 ^ (write n).length := Nat.add_lt_add hm hn
    _ ≤ 128 ^ (write m).length * 128 ^ (write n).length :=
        Nat.add_le_mul (htwo _ (length_write_pos m)) (htwo _ (length_write_pos n))

/-! ## Lists -/

/-- Numbers are read from their forms, one after the other. -/
theorem readMany_eq_ok_iff :
    readMany bits count bytes = .ok (ns, rest) ↔
      ns.length = count ∧ ∃ forms, List.Forall₂ (IsForm bits) ns forms ∧
        bytes = forms.flatten ++ rest := by
  induction count generalizing bytes ns with
  | zero =>
    rw [readMany, Except.ok.injEq, Prod.mk.injEq]
    constructor
    · rintro ⟨rfl, rfl⟩
      exact ⟨rfl, [], .nil, rfl⟩
    · rintro ⟨hlength, forms, hforms, rfl⟩
      obtain rfl := List.eq_nil_of_length_eq_zero hlength
      cases hforms
      exact ⟨rfl, rfl⟩
  | succ count ih =>
    rw [readMany]
    constructor
    · intro h
      obtain ⟨⟨n, middle⟩, hread, h⟩ := Result.bind_eq_ok_iff.mp h
      obtain ⟨⟨others, rest'⟩, hothers, h⟩ := Result.bind_eq_ok_iff.mp h
      obtain ⟨rfl, rfl⟩ := Prod.mk.inj (Except.ok.inj h)
      obtain ⟨form, rfl, hform⟩ := read_eq_ok_iff.mp hread
      obtain ⟨rfl, forms, hforms, rfl⟩ := ih.mp hothers
      exact ⟨rfl, form :: forms, .cons hform hforms, by rw [List.flatten_cons, List.append_assoc]⟩
    · rintro ⟨hlength, forms, hforms, rfl⟩
      cases hforms with
      | nil => cases hlength
      | @cons n form ns forms hform hforms =>
        have hothers := ih.mpr ⟨Nat.succ.inj hlength, forms, hforms, rfl⟩
        rw [List.flatten_cons, List.append_assoc, hform.read_append, Result.ok_bind]
        dsimp only
        rw [hothers]
        rfl

/-- No form is empty. -/
theorem length_le_length_flatten {forms : List Bytes} (h : List.Forall₂ (IsForm bits) ns forms) :
    ns.length ≤ forms.flatten.length := by
  induction h with
  | nil => exact Nat.le_refl _
  | cons hform _ ih =>
    have hpos := hform.length_pos
    rw [List.length_cons, List.flatten_cons, List.length_append]
    omega

/-- A list is read from the forms of its numbers and nothing else. -/
theorem readAll_eq_ok_iff :
    readAll bits count bytes = .ok ns ↔
      ns.length = count ∧ ∃ forms, List.Forall₂ (IsForm bits) ns forms ∧ bytes = forms.flatten := by
  rw [readAll, Result.check_eq_ok_iff, Nat.not_lt]
  constructor
  · rintro ⟨-, h⟩
    obtain ⟨⟨ns', rest⟩, hread, hrest⟩ := Result.bind_eq_ok_iff.mp h
    dsimp only at hrest
    split at hrest
    · rename_i hnil
      obtain rfl := Except.ok.inj hrest
      rw [List.isEmpty_iff.mp hnil, readMany_eq_ok_iff] at hread
      simpa only [List.append_nil] using hread
    · cases hrest
  · rintro ⟨hlength, forms, hforms, rfl⟩
    have hread : readMany bits count forms.flatten = .ok (ns, []) :=
      readMany_eq_ok_iff.mpr ⟨hlength, forms, hforms, (List.append_nil _).symm⟩
    refine ⟨hlength ▸ length_le_length_flatten hforms, ?_⟩
    rw [hread]
    rfl

/-- What is written of a number that fits is a form of it. -/
theorem isForm_write (hbits : 0 < bits) (hn : n < 2 ^ bits) : IsForm bits n (write n) := by
  have hread := read_write bits n [] hn hbits
  rwa [List.append_nil, read_eq_ok_nil_iff] at hread

/-! ## Every number and every string -/

/-- A number of any width is read from a string exactly if the string begins with a form of it:
bytes of which all but the last announce another, whose last group begins inside the width, and
whose groups, each seven bits above the one before it, make the number and no more bits than it may
have. What is written of a number that fits is read back, whatever follows it, and every other form
of the number is longer. A list of numbers that fit is read back, too, and a string is read as a
list of as many numbers as are asked for exactly if it is their forms and nothing else. -/
theorem forms_exact_shortest (bits : Nat) (hbits : 0 < bits) :
    (∀ bytes n rest, read bits bytes = .ok (n, rest) ↔
      ∃ form, bytes = form ++ rest ∧ IsForm bits n form) ∧
    (∀ n, n < 2 ^ bits →
      (∀ rest, read bits (write n ++ rest) = .ok (n, rest)) ∧
      ∀ form, read bits form = .ok (n, []) → form ≠ write n →
        (write n).length < form.length) ∧
    (∀ ns, (∀ n ∈ ns, n < 2 ^ bits) → readAll bits ns.length (writeAll ns) = .ok ns) ∧
    (∀ count bytes ns, readAll bits count bytes = .ok ns ↔
      ns.length = count ∧ ∃ forms, List.Forall₂ (IsForm bits) ns forms ∧
        bytes = forms.flatten) := by
  refine ⟨?_, ?_, ?_, ?_⟩
  · intro bytes n rest
    exact read_eq_ok_iff
  · intro n hn
    refine ⟨fun rest => read_write bits n rest hn hbits, ?_⟩
    intro form hread hne
    exact length_write_lt_of_read hread hne
  · intro ns hns
    refine readAll_eq_ok_iff.mpr ⟨rfl, ns.map write, ?_, List.flatMap_def⟩
    rw [List.forall₂_map_right_iff, List.forall₂_same]
    exact fun n hn => isForm_write hbits (hns n hn)
  · intro count bytes ns
    exact readAll_eq_ok_iff

/-- One in sixteen bits, with two groups of zeros after it: the string is read, and longer than what
is written. A third group of zeros would begin past the width. -/
theorem forms_exact_shortest_padded :
    (0 < 16 ∧ 1 < 2 ^ 16 ∧ [0x81, 0x80, 0x00] ≠ write 1) ∧
    read 16 [0x81, 0x80, 0x00, 7] = .ok (1, [7]) ∧ (write 1).length < 3 ∧
    (∀ n rest, read 16 [0x81, 0x80, 0x80, 0x00] ≠ .ok (n, rest)) ∧
    readAll 16 2 (writeAll [1, 65535]) = .ok [1, 65535] := by
  have hwrite : write 1 = [1] := by
    rw [write]
    rfl
  have hne : [0x81, 0x80, 0x00] ≠ write 1 := by
    rw [hwrite]
    decide
  obtain ⟨hread, hshortest, hlists, -⟩ := forms_exact_shortest 16 (by decide)
  have hform : IsForm 16 1 [0x81, 0x80, 0x00] :=
    ⟨⟨[0x81, 0x80], 0x00, rfl, by decide +kernel, by decide⟩, by decide, by decide +kernel,
      by decide⟩
  have hpadded := (hread [0x81, 0x80, 0x00, 7] 1 [7]).mpr ⟨[0x81, 0x80, 0x00], rfl, hform⟩
  have hshorter := (hshortest 1 (by decide)).2 _ (read_eq_ok_nil_iff.mpr hform) hne
  refine ⟨⟨by decide, by decide, hne⟩, hpadded, hshorter, ?_, hlists [1, 65535] (by decide)⟩
  intro n rest hmore
  have hoverflow : read 16 [0x81, 0x80, 0x80, 0x00] = .error .overflow := rfl
  rw [hoverflow] at hmore
  cases hmore

end Varint

end PointCloud
