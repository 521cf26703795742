import Mathlib
import PointCloud.Proofs.Bytes.Exact
import PointCloud.Proofs.Kernel.Varint
import PointCloud.Proofs.Scheme.Lengths

/-!
# Payloads that are cut off or run on

A reader of fields never asks how many bytes are left for what it does not read. So the fields that
it takes are taken from every string that begins with them, and are missed in every string that ends
inside them. A payload is read as a sequence of fields and refused if bytes are left over: no
accepted payload is then the beginning of another, whoever wrote it.

A failure of a variable-length number is one of a kernel, and counts as corruption of the payload
only under the name of its scheme. Readers are therefore compared after that renaming.

Main results:

* `Cursor.SelfDelimiting.bind` — fields in sequence, for any readers that end by themselves;
* `Cursor.SelfDelimiting.prefixFree` — reading to the last byte accepts no beginning of what it
  accepts;
* `Scheme.decompress_prefixFree` — the payloads of the schemes, and the length that an external
  payload announces.
-/

namespace PointCloud

/-! ## Readers that end by themselves -/

/-- A reader of byte strings that refuses as corrupt whatever lacks the end of an accepted string,
and whatever goes on after it. -/
structure PrefixFree {α : Type} (f : Bytes → Except Error α) : Prop where
  cut    : ∀ {bytes a}, f bytes = .ok a → ∀ {short}, short <+: bytes → short ≠ bytes →
    ∃ cause, f short = .error (.corruptPatch cause)
  run_on : ∀ {bytes a}, f bytes = .ok a → ∀ {more}, more ≠ [] →
    ∃ cause, f (bytes ++ more) = .error (.corruptPatch cause)

namespace PrefixFree

variable {α β : Type} {f : Bytes → Except Error α}

/-- What is done before reading does not depend on what is read. -/
theorem after (x : Except Error Unit) (h : PrefixFree f) :
    PrefixFree fun bytes => x >>= fun _ => f bytes := by
  constructor
  · intro bytes a haccepted short hbegins hne
    obtain ⟨u, hx, haccepted⟩ := Result.bind_eq_ok_iff.mp haccepted
    rw [hx]
    exact h.cut haccepted hbegins hne
  · intro bytes a haccepted more hmore
    obtain ⟨u, hx, haccepted⟩ := Result.bind_eq_ok_iff.mp haccepted
    rw [hx]
    exact h.run_on haccepted hmore

/-- What is made of the value does not change what is accepted. -/
theorem map (g : α → β) (h : PrefixFree f) :
    PrefixFree fun bytes => f bytes >>= fun a => .ok (g a) := by
  constructor
  · intro bytes b haccepted short hbegins hne
    obtain ⟨a, haccepted, -⟩ := Result.bind_eq_ok_iff.mp haccepted
    obtain ⟨cause, hcause⟩ := h.cut haccepted hbegins hne
    exact ⟨cause, by rw [hcause, Result.error_bind]⟩
  · intro bytes b haccepted more hmore
    obtain ⟨a, haccepted, -⟩ := Result.bind_eq_ok_iff.mp haccepted
    obtain ⟨cause, hcause⟩ := h.run_on haccepted hmore
    exact ⟨cause, by rw [hcause, Result.error_bind]⟩

end PrefixFree

namespace Cursor

variable {α β γ : Type} {scheme : String} {r : Cursor → Except Error (α × Cursor)}

/-- A reader is self-delimiting if it is exact for some grammar, once failures of kernels are
reported as corruption. -/
def SelfDelimiting (scheme : String) (r : Cursor → Except Error (α × Cursor)) : Prop :=
  ∃ form, Exact (fun c => (r c).mapError (Error.asCorruption scheme)) form

namespace SelfDelimiting

theorem of_exact {form : α → Bytes → Prop} (h : Exact r form) : SelfDelimiting scheme r := by
  refine ⟨form, ⟨?_, ?_, ?_⟩⟩
  · intro c a c' h'
    exact h.sound (Result.mapError_eq_ok_iff.mp h')
  · intro a bytes hform total rest
    exact Result.mapError_eq_ok_iff.mpr (h.complete hform total rest)
  · intro a bytes hform total n hn
    obtain ⟨cause, hcause⟩ := h.short hform total n hn
    exact ⟨cause, congrArg (Except.mapError _) hcause⟩

theorem pure (a : α) : SelfDelimiting scheme fun c => .ok (a, c) := of_exact (Exact.pure a)

/-- One field after the other. -/
theorem bind {next : α → Cursor → Except Error (β × Cursor)} (hr : SelfDelimiting scheme r)
    (hnext : ∀ a, SelfDelimiting scheme (next a)) :
    SelfDelimiting scheme fun c => r c >>= fun x => next x.1 x.2 := by
  obtain ⟨form, hform⟩ := hr
  -- What comes next may depend on the value, so there is a grammar of it for every value.
  choose after hafter using hnext
  have hboth := hform.bind hafter
  simp only [← Result.mapError_bind] at hboth
  exact ⟨_, hboth⟩

/-- A step between two fields, which reads nothing and may refuse. -/
theorem step (x : Except Error γ) {next : γ → Cursor → Except Error (β × Cursor)}
    (hnext : ∀ a, SelfDelimiting scheme (next a)) :
    SelfDelimiting scheme fun c => x >>= fun a => next a c := by
  choose after hafter using hnext
  have hboth := Exact.step (x.mapError (Error.asCorruption scheme)) hafter
  simp only [← Result.mapError_bind] at hboth
  exact ⟨_, hboth⟩

/-- A field that is refused under a condition. -/
theorem check (p : Prop) [Decidable p] (e : Error) (hr : SelfDelimiting scheme r) :
    SelfDelimiting scheme fun c => if p then .error e else r c := by
  by_cases hp : p
  · simp only [hp, if_true]
    exact of_exact (Exact.refuse e)
  · simpa only [hp, if_false] using hr

/-- Variable-length numbers end with their first byte that announces no other. -/
theorem varint : SelfDelimiting scheme Cursor.varint := by
  refine ⟨fun n bytes => Varint.read 64 bytes = .ok (n, []), ⟨?_, ?_, ?_⟩⟩
  · intro c n c' h
    have hvarint := Result.mapError_eq_ok_iff.mp h
    unfold Cursor.varint at hvarint
    split at hvarint
    · rename_i hread
      obtain ⟨rfl, rfl⟩ := Prod.mk.inj (Except.ok.inj hvarint)
      obtain ⟨first, hrest, hfirst⟩ := Varint.exists_read hread
      exact ⟨first, hfirst, hrest, rfl⟩
    · cases hvarint
  · intro n bytes hform total rest
    simp only [Cursor.varint, Varint.read_append hform, List.nil_append, Result.mapError_ok]
  · intro n bytes hform total count hcount
    simp only [Cursor.varint, Varint.read_take hform hcount, Result.mapError_error]
    exact ⟨_, rfl⟩

end SelfDelimiting

/-- Reads a byte string to its last byte. -/
def whole (r : Cursor → Except Error (α × Cursor)) (context : String) (bytes : Bytes) :
    Except Error α := do
  let (a, c) ← r (.start bytes)
  c.finish context
  return a

/-- The cursor before the first byte does not tell strings of one beginning apart, but for their
lengths, and no reader gives these out. -/
theorem SelfDelimiting.prefixFree (h : SelfDelimiting scheme r) (context : String) :
    PrefixFree fun bytes => (whole r context bytes).mapError (Error.asCorruption scheme) := by
  obtain ⟨form, hform⟩ := h
  -- What is accepted is of the grammar as a whole, since no byte may be left over.
  have hgrammar : ∀ {bytes a},
      (whole r context bytes).mapError (Error.asCorruption scheme) = .ok a → form a bytes := by
    intro bytes a hwhole
    obtain ⟨⟨a', c⟩, hread, hrest⟩ :=
      Result.bind_eq_ok_iff.mp (Result.mapError_eq_ok_iff.mp hwhole)
    obtain ⟨u, hfinish, ha⟩ := Result.bind_eq_ok_iff.mp hrest
    obtain ⟨first, hfirst, hbytes, -⟩ := hform.sound (Result.mapError_eq_ok_iff.mpr hread)
    obtain rfl := Except.ok.inj ha
    rw [finish_eq_ok_iff.mp hfinish, List.append_nil] at hbytes
    rwa [← hbytes] at hfirst
  constructor
  · intro bytes a hwhole short hbegins hne
    obtain ⟨more, rfl⟩ := hbegins
    have hlt : short.length < (short ++ more).length := by
      have hmore : more ≠ [] := fun hnil => hne (by rw [hnil, List.append_nil])
      have := List.length_pos_of_ne_nil hmore
      rw [List.length_append]
      omega
    -- The grammar is missed whatever the length is that the cursor was started with.
    obtain ⟨cause, hcause⟩ := hform.short (hgrammar hwhole) short.length short.length hlt
    rw [List.take_left] at hcause
    refine ⟨cause, ?_⟩
    rw [whole, Result.mapError_bind, start, hcause]
    rfl
  · intro bytes a hwhole more hmore
    -- What goes on is read as before, and refused for the bytes that are left over.
    have hread := hform.complete (hgrammar hwhole) (bytes ++ more).length more
    refine ⟨.trailing context more.length, ?_⟩
    rw [whole, Result.mapError_bind, start, hread]
    simp only [Result.ok_bind, finish, List.isEmpty_eq_false_iff.mpr hmore, Bool.false_eq_true,
      if_false, Result.error_bind]
    rfl

/-- The same for a reader that checks something before and makes something else of the value. -/
theorem SelfDelimiting.prefixFree_of_eq {f : Bytes → Except Error β} (h : SelfDelimiting scheme r)
    {x : Except Error Unit} {context : String} {g : α → β}
    (hf : ∀ bytes, f bytes = x >>= fun _ => whole r context bytes >>= fun a => .ok (g a)) :
    PrefixFree fun bytes => (f bytes).mapError (Error.asCorruption scheme) := by
  have hwhole := ((h.prefixFree context).map g).after (x.mapError (Error.asCorruption scheme))
  simpa only [hf, Result.mapError_bind, Result.mapError_ok] using hwhole

end Cursor

/-! ## Columns and clusters -/

namespace Dimensional

open Cursor

variable {scheme : String} {order : ByteOrder} {points : Nat}

theorem readColumn_selfDelimiting (d : Dimension) :
    SelfDelimiting scheme (readColumn d order points) :=
  (SelfDelimiting.of_exact byte_exact).bind fun tag =>
    .step (ColumnMethod.ofTag tag) fun method =>
      (SelfDelimiting.of_exact (word_exact order 4)).bind fun length =>
        (SelfDelimiting.of_exact (take_exact length)).bind fun encoded =>
          .step (Column.decode d order points encoded method) fun words => .pure words

theorem readColumns_selfDelimiting (dimensions : List Dimension) :
    SelfDelimiting scheme (readColumns order points dimensions) := by
  induction dimensions with
  | nil => exact .pure []
  | cons d dimensions ih =>
    exact (readColumn_selfDelimiting d).bind fun words => ih.bind fun columns =>
      .pure (words :: columns)

end Dimensional

namespace Hierarchical

open Cursor

variable {scheme : String}

theorem readLows_selfDelimiting (d : Dimension) (unique more low : Nat) :
    SelfDelimiting scheme (readLows d unique more low) := by
  induction more generalizing low with
  | zero => exact .check (2 ^ unique ≤ low) _ (.pure [low])
  | succ more ih =>
    exact .check (2 ^ unique ≤ low) _ (SelfDelimiting.varint.bind fun n =>
      (ih ((low + ZigZag.integer n) % 2 ^ 64).toNat).bind fun lows => .pure (low :: lows))

theorem readColumn_selfDelimiting (d : Dimension) (points : Nat) :
    SelfDelimiting scheme (readColumn d points) :=
  (SelfDelimiting.of_exact byte_exact).bind fun shared =>
    .check (d.interpretation.bits < shared.toNat)
      (.corruptPatch (.sharedBitCount d.name shared.toNat d.interpretation.bits)) <|
      SelfDelimiting.varint.bind fun leading => SelfDelimiting.varint.bind fun low =>
        (readLows_selfDelimiting d (d.interpretation.bits - shared.toNat) (points - 1) low).bind
          fun lows => .pure (lows.map fun low =>
            (leading * 2 ^ (d.interpretation.bits - shared.toNat) + low) %
              2 ^ d.interpretation.bits)

theorem readColumns_selfDelimiting (dimensions : List Dimension) (points : Nat) :
    SelfDelimiting scheme (readColumns points dimensions) := by
  induction dimensions with
  | nil => exact .pure []
  | cons d dimensions ih =>
    exact (readColumn_selfDelimiting d points).bind fun words => ih.bind fun columns =>
      .pure (words :: columns)

/-- Reads clusters, with the rows and the room left as one value. -/
def clustersAt (s : Schema) (expected clusters room : Nat) (c : Cursor) :
    Except Error ((List Row × Nat) × Cursor) := do
  let (rows, room, c) ← readClusters s expected clusters room c
  return ((rows, room), c)

theorem clustersAt_succ (s : Schema) (expected clusters room : Nat) :
    clustersAt s expected (clusters + 1) room = fun c => c.varint >>= fun x =>
      if x.1 = 0 || room < x.1 then .error (.corruptPatch (.clusterOverflow x.1 expected))
      else readColumns x.1 s.dimensions x.2 >>= fun y =>
        clustersAt s expected clusters (room - x.1) y.2 >>= fun z =>
          .ok ((Row.ofColumns x.1 y.1 ++ z.1.1, z.1.2), z.2) := by
  funext c
  unfold clustersAt
  rw [readClusters]
  simp only [bind_assoc]
  -- Both sides take the same steps, and differ in how the results are paired.
  refine congrArg (_ >>= ·) (funext fun x => ?_)
  obtain ⟨points, c⟩ := x
  dsimp only
  split
  · rfl
  · simp only [bind_assoc]
    rfl

theorem clustersAt_selfDelimiting (s : Schema) (expected clusters room : Nat) :
    SelfDelimiting scheme (clustersAt s expected clusters room) := by
  induction clusters generalizing room with
  | zero => exact .pure ([], room)
  | succ clusters ih =>
    rw [clustersAt_succ]
    exact SelfDelimiting.varint.bind fun points =>
      .check (points = 0 || room < points) (.corruptPatch (.clusterOverflow points expected)) <|
        (readColumns_selfDelimiting s.dimensions points).bind fun columns =>
          (ih (room - points)).bind fun others =>
            .pure (Row.ofColumns points columns ++ others.1, others.2)

/-- Reads the rows of a payload: the count of key bits, and clusters that leave no room. -/
def rowsAt (s : Schema) (points : Nat) (c : Cursor) : Except Error (List Row × Cursor) := do
  let (keyBits, c) ← c.byte
  if keyBitLimit < keyBits.toNat then throw (.corruptPatch (.clusterKeyWidth keyBits.toNat))
  let (clusters, c) ← c.varint
  let ((rows, room), c) ← clustersAt s points clusters points c
  if room ≠ 0 then throw (.corruptPatch (.clusterTotal (points - room) points))
  return (rows, c)

theorem rowsAt_selfDelimiting (s : Schema) (points : Nat) :
    SelfDelimiting scheme (rowsAt s points) :=
  (SelfDelimiting.of_exact byte_exact).bind fun keyBits =>
    .check (keyBitLimit < keyBits.toNat) (.corruptPatch (.clusterKeyWidth keyBits.toNat)) <|
      SelfDelimiting.varint.bind fun clusters =>
        (clustersAt_selfDelimiting s points clusters points).bind fun found =>
          .check (found.2 ≠ 0) (.corruptPatch (.clusterTotal (points - found.2) points))
            (.pure found.1)

theorem decompress_eq_whole (s : Schema) (points : Nat) (payload : Bytes) :
    decompress s points payload =
      (bufferLength points s.size >>= reserve) >>= fun _ =>
        (whole (rowsAt s points) "Hierarchical payload" payload) >>= fun rows =>
          .ok (s.bytes rows) := by
  unfold decompress whole rowsAt clustersAt
  simp only [bind_assoc]
  refine congrArg (_ >>= ·) (funext fun _ => congrArg (_ >>= ·) (funext fun _ =>
    congrArg (_ >>= ·) (funext fun x => ?_)))
  split
  · rfl
  simp only [bind_assoc]
  refine congrArg (_ >>= ·) (funext fun x => congrArg (_ >>= ·) (funext fun x => ?_))
  simp only [Result.pure_eq, Result.ok_bind]
  split
  · rfl
  · rfl

end Hierarchical

theorem Dimensional.decompress_eq_whole (s : Schema) (points : Nat) (payload : Bytes) :
    decompress s points payload =
      (bufferLength points s.size >>= reserve) >>= fun _ =>
        (Cursor.whole (readColumns s.order points s.dimensions) "Dimensional payload" payload) >>=
          fun columns => .ok (s.bytes (Row.ofColumns points columns)) := by
  unfold decompress Cursor.whole
  simp only [bind_assoc]
  rfl

/-! ## Payloads -/

/-- Of all byte strings, at most those of one length are taken as they are. -/
theorem Uncompressed.prefixFree_decompress (scheme : String) (s : Schema) (points : Nat) :
    PrefixFree fun payload => (decompress s points payload).mapError
      (Error.asCorruption scheme) := by
  -- Accepted or not, a payload of another length than an accepted one is refused for its size.
  have hrefused : ∀ {payload raw other}, (decompress s points payload).mapError
      (Error.asCorruption scheme) = .ok raw → other.length ≠ payload.length →
      ∃ cause, (decompress s points other).mapError (Error.asCorruption scheme) =
        .error (.corruptPatch cause) := by
    intro payload raw other haccepted hlength
    have haccepted := Result.mapError_eq_ok_iff.mp haccepted
    unfold decompress at haccepted ⊢
    obtain ⟨expected, hexpected, haccepted⟩ := Result.bind_eq_ok_iff.mp haccepted
    simp only [Result.throw_eq, Result.error_bind] at haccepted ⊢
    obtain ⟨hsize, -⟩ := Result.check_eq_ok_iff.mp haccepted
    rw [not_not.mp hsize] at hlength
    simp only [hexpected, Result.ok_bind, hlength, ne_eq, not_false_eq_true, if_true,
      Result.mapError_error]
    exact ⟨_, rfl⟩
  constructor
  · intro payload raw haccepted short hbegins hne
    exact hrefused haccepted fun hlength => hne (hbegins.eq_of_length hlength)
  · intro payload raw haccepted more hmore
    refine hrefused haccepted ?_
    have := List.length_pos_of_ne_nil hmore
    rw [List.length_append]
    omega

namespace Scheme

theorem prefixFree_decompress {scheme : Scheme} (hscheme : scheme ≠ .externalLossless) (s : Schema)
    (points : Nat) : PrefixFree (scheme.decompress s points) := by
  rw [funext (scheme.decompress_eq s points)]
  cases scheme with
  | uncompressed => exact Uncompressed.prefixFree_decompress _ s points
  | dimensional =>
    exact (Dimensional.readColumns_selfDelimiting s.dimensions).prefixFree_of_eq
      (Dimensional.decompress_eq_whole s points)
  | hierarchical =>
    exact (Hierarchical.rowsAt_selfDelimiting s points).prefixFree_of_eq
      (Hierarchical.decompress_eq_whole s points)
  | externalLossless => exact absurd rfl hscheme

/-- An external payload has to announce the length of the points before it is looked at. -/
theorem decompress_external_error {s : Schema} {points : Nat} (hpoints : 0 < points)
    {payload : Bytes}
    (h : payload.length < 8 ∨ Numeral.ofBytes (payload.take 8) ≠ points * s.size) :
    ∃ cause, externalLossless.decompress s points payload = .error (.corruptPatch cause) := by
  rw [decompress_eq]
  show ∃ cause, (External.decompress s points payload).mapError _ = _
  unfold External.decompress bufferLength
  split
  · have hsize : points * s.size ≠ 0 := (Nat.mul_pos hpoints s.size_pos).ne'
    simp only [Result.ok_bind, hsize, if_false, Result.throw_eq, Result.error_bind]
    split
    · exact ⟨_, rfl⟩
    · rename_i hlong
      rw [if_pos (h.resolve_left hlong)]
      exact ⟨_, rfl⟩
  · exact ⟨_, rfl⟩

/-- Without points there is no length to announce, and no byte is accepted. -/
theorem decompress_external_zero_error (s : Schema) {payload : Bytes} (h : payload ≠ []) :
    ∃ cause, externalLossless.decompress s 0 payload = .error (.corruptPatch cause) := by
  have hempty : payload.isEmpty = false := List.isEmpty_eq_false_iff.mpr h
  rw [decompress_eq]
  show ∃ cause, (External.decompress s 0 payload).mapError _ = _
  unfold External.decompress bufferLength
  simp only [Nat.zero_mul, Nat.two_pow_pos, if_true, Result.ok_bind, hempty, Bool.not_false,
    Result.throw_eq, Result.error_bind]
  exact ⟨_, rfl⟩

/-- For every schema and count of points, the payloads that a scheme other than the external one
accepts are prefix-free, and what is cut off or runs on is refused as corrupt. An external payload
is refused as corrupt if it does not announce the length of its points, and, without points, if it
is not empty. -/
theorem decompress_prefixFree (s : Schema) (points : Nat) :
    (∀ scheme : Scheme, scheme ≠ .externalLossless →
      PrefixFree (scheme.decompress s points)) ∧
    (0 < points → ∀ payload : Bytes,
      payload.length < 8 ∨ Numeral.ofBytes (payload.take 8) ≠ points * s.size →
        ∃ cause, externalLossless.decompress s points payload = .error (.corruptPatch cause)) ∧
    (points = 0 → ∀ payload : Bytes, payload ≠ [] →
      ∃ cause, externalLossless.decompress s points payload = .error (.corruptPatch cause)) := by
  refine ⟨fun scheme hscheme => prefixFree_decompress hscheme s points,
    fun hpoints payload h => decompress_external_error hpoints h, ?_⟩
  rintro rfl payload hpayload
  exact decompress_external_zero_error s hpayload

/-- Two points of the plane: a grouped payload that is cut inside its last column, one of columns
that runs on, and external ones of too few bytes and for no points. -/
theorem decompress_prefixFree_planar :
    let grouped : Bytes := [8, 1, 2, 12, 0, 7, 4, 15, 128, 255, 1, 0, 2, 8, 3, 0, 0]
    let columns : Bytes := [0, 0, 0, 0, 4, 0, 7, 0, 7, 0, 0, 0, 0, 4, 255, 0, 255, 1,
      2, 0, 0, 0, 2, 0, 3]
    (∃ raw, hierarchical.decompress .planar 2 grouped = .ok raw) ∧
    (∃ cause, hierarchical.decompress .planar 2 (grouped.take 15) = .error (.corruptPatch cause)) ∧
    (∃ raw, dimensional.decompress .planar 2 columns = .ok raw) ∧
    (∃ cause, dimensional.decompress .planar 2 (columns ++ [0]) = .error (.corruptPatch cause)) ∧
    (∃ cause, externalLossless.decompress .planar 2 [10] = .error (.corruptPatch cause)) ∧
    ∃ cause, externalLossless.decompress .planar 0 [10] = .error (.corruptPatch cause) := by
  intro grouped columns
  have hgrouped : hierarchical.decompress .planar 2 grouped =
      .ok [0, 7, 255, 0, 3, 0, 9, 255, 1, 3] := by decide +kernel
  have hcolumns : dimensional.decompress .planar 2 columns =
      .ok [0, 7, 255, 0, 3, 0, 7, 255, 1, 3] := by decide +kernel
  obtain ⟨hprefixFree, hexternal, -⟩ := decompress_prefixFree .planar 2
  obtain ⟨-, -, hempty⟩ := decompress_prefixFree .planar 0
  exact ⟨⟨_, hgrouped⟩,
    (hprefixFree .hierarchical (by decide)).cut hgrouped (List.take_prefix 15 grouped) (by decide),
    ⟨_, hcolumns⟩,
    (hprefixFree .dimensional (by decide)).run_on hcolumns (by decide),
    hexternal (by decide) [10] (.inl (by decide)), hempty rfl [10] (by decide)⟩

end Scheme

end PointCloud
