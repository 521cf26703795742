import Mathlib
import PointCloud.Patch.Wire
import PointCloud.Proofs.Bytes.Exact
import PointCloud.Proofs.Patch.Bounds

/-!
# Serialized patches: an exact codec

The header of a serialized patch is a sequence of fields of which each is exact, so the header is: a
patch is read exactly if the bytes are a header of it with its payload behind. A header is what is
written of a patch, but for the ends of the bounds. A patch without points has none, and the values
in their place are read and dropped.

Main results:

* `PatchHeader.fieldsAt_exact` — a header is read from its own bytes and no others;
* `Patch.deserialize_eq_ok_iff` — the bytes that are read as a patch;
* `Patch.IsHead.serialize_eq` — a patch is written as its header and its payload;
* `Patch.wire_exact` — so writing and reading are inverse to each other, and the header can be read
  by itself.
-/

namespace PointCloud

/-! ## Floating values -/

/-- Pieces of one size, one for every element of a list, are cut apart again. -/
theorem cut_flatMap_append {α β : Type} {size : Nat} (f : β → List α) (xs : List β)
    (rest : List α) (h : ∀ x, (f x).length = size) :
    cut size xs.length (xs.flatMap f ++ rest) = xs.map f := by
  have hpieces : ∀ piece ∈ xs.map f, piece.length = size := by
    intro piece hpiece
    obtain ⟨x, -, rfl⟩ := List.mem_map.mp hpiece
    exact h x
  have hcut := cut_flatten_append size (xs.map f) rest hpieces
  rwa [List.length_map, ← List.flatMap_def] at hcut

/-- Pieces that leave a rest join to what comes before it. -/
theorem flatten_cut_eq_take {α : Type} (size count : Nat) (xs : List α) :
    (cut size count xs).flatten = xs.take (count * size) := by
  induction count generalizing xs with
  | zero => simp [cut]
  | succ count ih =>
    rw [cut, List.flatten_cons, ih, Nat.succ_mul, Nat.add_comm, List.take_add]

namespace Binary64

/-- A value is read back from the bytes that it is written as, whatever NaN it may be. -/
theorem ofWord_word_bytes (order : ByteOrder) (x : Binary64) :
    ofWord (order.word (order.bytes 8 x.toWord)) = x := by
  have hlt : x.toWord < 256 ^ 8 := x.toWord_lt
  rw [ByteOrder.word_bytes, Nat.mod_eq_of_lt hlt, ofWord_toWord]

/-- Eight bytes are written again from the value that they are read as. -/
theorem bytes_toWord_ofWord (order : ByteOrder) {piece : Bytes} (h : piece.length = 8) :
    order.bytes 8 (ofWord (order.word piece)).toWord = piece := by
  have hword := order.word_lt piece
  have hbytes := order.bytes_word piece
  rw [h] at hword hbytes
  have hlt : order.word piece < 2 ^ 64 := hword
  rw [toWord_ofWord, Nat.mod_eq_of_lt hlt, hbytes]

end Binary64

namespace Patch

@[simp] theorem length_floatBytes (order : ByteOrder) (values : List Binary64) :
    (floatBytes order values).length = 8 * values.length := by
  simp [floatBytes, List.length_flatMap, Nat.mul_comm]

theorem floatBytes_append (order : ByteOrder) (values others : List Binary64) :
    floatBytes order (values ++ others) = floatBytes order values ++ floatBytes order others :=
  List.flatMap_append

/-- Bytes are written again from the values that they are read as. -/
theorem floatBytes_map_cut (order : ByteOrder) {count : Nat} {bytes : Bytes}
    (h : 8 * count ≤ bytes.length) :
    floatBytes order ((cut 8 count bytes).map fun piece => .ofWord (order.word piece)) =
      bytes.take (8 * count) := by
  have hpieces : ∀ piece ∈ cut 8 count bytes,
      order.bytes 8 (Binary64.ofWord (order.word piece)).toWord = piece := by
    intro piece hpiece
    exact Binary64.bytes_toWord_ofWord order (length_of_mem_cut (by omega) hpiece)
  unfold floatBytes
  rw [List.flatMap_map, List.flatMap_def, List.map_congr_left hpieces, List.map_id',
    flatten_cut_eq_take, Nat.mul_comm]

/-- Values are read back from the bytes that they are written as. -/
theorem map_cut_floatBytes (order : ByteOrder) (values : List Binary64) (rest : Bytes) :
    (cut 8 values.length (floatBytes order values ++ rest)).map
      (fun piece => Binary64.ofWord (order.word piece)) = values := by
  have hcut := cut_flatMap_append (fun x : Binary64 => order.bytes 8 x.toWord) values rest
    fun x => order.length_bytes 8 x.toWord
  unfold floatBytes
  rw [hcut, List.map_map]
  conv => rhs; rw [← List.map_id values]
  exact List.map_congr_left fun x _ => Binary64.ofWord_word_bytes order x

end Patch

theorem Cursor.floats_exact (order : ByteOrder) (count : Nat) :
    Exact (fun c => c.floats order count) fun values bytes =>
      values.length = count ∧ bytes = Patch.floatBytes order values where
  sound := by
    intro c values c' h
    unfold floats at h
    -- There is either room for all values or the reader refuses.
    split at h
    · rename_i hle
      obtain ⟨rfl, rfl⟩ := Prod.mk.inj (Except.ok.inj h)
      refine ⟨c.rest.take (8 * count), ⟨?_, ?_⟩, (List.take_append_drop _ _).symm, rfl⟩
      · rw [List.length_map, length_cut]
      · exact (Patch.floatBytes_map_cut order hle).symm
    · cases h
  complete := by
    intro values bytes hform total rest
    obtain ⟨rfl, rfl⟩ := hform
    have hle : 8 * values.length ≤ (Patch.floatBytes order values ++ rest).length := by
      rw [List.length_append, Patch.length_floatBytes]
      omega
    have hdrop : (Patch.floatBytes order values ++ rest).drop (8 * values.length) = rest :=
      List.drop_left' (Patch.length_floatBytes order values)
    simp only [floats, hle, if_true, Patch.map_cut_floatBytes, hdrop]
  short := by
    intro values bytes hform total n hn
    obtain ⟨rfl, rfl⟩ := hform
    rw [Patch.length_floatBytes] at hn
    have hshort : ¬ 8 * values.length ≤ ((Patch.floatBytes order values).take n).length := by
      rw [List.length_take]
      omega
    exact ⟨_, if_neg hshort⟩

/-! ## The owner -/

theorem ByteOrder.ofMarker?_eq_some_iff {marker : UInt8} {order : ByteOrder} :
    ofMarker? marker = some order ↔ marker = order.marker := by
  constructor
  · intro h
    unfold ofMarker? at h
    split at h
    · rw [← Option.some.inj h]; rfl
    · rw [← Option.some.inj h]; rfl
    · cases h
  · intro h
    rw [h]
    exact ofMarker?_marker order

theorem Registry.pcid_of_resolve {registry : Registry} {pcid : UInt32} {s : Schema}
    (h : registry.resolve pcid = .ok s) : s.pcid = pcid := by
  unfold resolve find? at h
  split at h
  · rename_i found hfind
    rw [← Except.ok.inj h]
    have hpcid := List.find?_some hfind
    exact eq_of_beq hpcid
  · cases h

namespace Point

/-- The byte order that a marker announces, which has to be one. -/
def announced (marker : UInt8) : Except Error ByteOrder :=
  match ByteOrder.ofMarker? marker with
  | some found => .ok found
  | none => .error (.corruptPatch (.byteOrderMarker marker))

/-- Refuses data in another byte order than that of the schema. -/
def checkOrder (s : Schema) (found : ByteOrder) : Except Error Unit :=
  if s.order ≠ found then .error (.byteOrderMismatch s.order found) else .ok ()

theorem announced_eq_ok_iff {marker : UInt8} {found : ByteOrder} :
    announced marker = .ok found ↔ marker = found.marker := by
  rw [← ByteOrder.ofMarker?_eq_some_iff]
  unfold announced
  cases ByteOrder.ofMarker? marker <;> simp

theorem checkOrder_eq_ok_iff {s : Schema} {found : ByteOrder} {u : Unit} :
    checkOrder s found = .ok u ↔ s.order = found := by
  unfold checkOrder
  rw [Result.check_eq_ok_iff, not_not]
  exact and_iff_left rfl

/-- Reads the marker and the identifier at a cursor, and finds their schema. -/
def ownerAt (registry : Registry) (c : Cursor) : Except Error (Schema × Cursor) := do
  let (marker, c) ← c.byte
  let found ← announced marker
  let (pcid, c) ← c.uint32 found
  let s ← registry.resolve pcid
  checkOrder s found
  return (s, c)

theorem readOwner_eq (registry : Registry) (bytes : Bytes) :
    readOwner registry bytes = ownerAt registry (.start bytes) := by
  unfold readOwner ownerAt announced checkOrder
  refine congrArg (_ >>= ·) (funext fun x => ?_)
  obtain ⟨marker, c⟩ := x
  dsimp only
  cases ByteOrder.ofMarker? marker with
  | none => rfl
  | some found =>
    refine congrArg (_ >>= ·) (funext fun x => congrArg (_ >>= ·) (funext fun s => ?_))
    split <;> rfl

/-- The bytes of an owner are the marker of its byte order and the identifier that it is found
by. -/
theorem ownerAt_exact (registry : Registry) :
    Cursor.Exact (ownerAt registry) fun s bytes =>
      registry.resolve s.pcid = .ok s ∧ bytes = s.order.marker :: s.order.bytes 4 s.pcid.toNat := by
  have hfields := Cursor.byte_exact.bind fun marker => Cursor.Exact.step (announced marker)
    fun found => (Cursor.uint32_exact found).bind fun pcid =>
      Cursor.Exact.step (registry.resolve pcid) fun s =>
        Cursor.Exact.step (checkOrder s found) fun _ => Cursor.Exact.pure s
  refine Cursor.Exact.of_iff (r := ownerAt registry) hfields ?_
  intro s bytes
  constructor
  · intro h
    obtain ⟨marker, _, _, rfl, ⟨found, hfound, pcid, _, _, rfl, ⟨_, hs, _, horder, rfl, rfl⟩, rfl⟩,
      rfl⟩ := h
    -- The schema that is found has the identifier that was read, and the order that was announced.
    obtain rfl := Registry.pcid_of_resolve hs
    obtain rfl := checkOrder_eq_ok_iff.mp horder
    obtain rfl := announced_eq_ok_iff.mp hfound
    exact ⟨hs, by rw [List.append_nil, List.singleton_append]⟩
  · intro h
    obtain ⟨hs, rfl⟩ := h
    exact ⟨s.order.marker, _, s.order.bytes 4 s.pcid.toNat, rfl,
      ⟨s.order, announced_eq_ok_iff.mpr rfl, s.pcid, _, [], rfl,
        ⟨s, hs, (), checkOrder_eq_ok_iff.mpr rfl, rfl, rfl⟩, (List.append_nil _).symm⟩, rfl⟩

end Point

/-! ## The fields of a header -/

theorem Scheme.ofTag_eq_ok_iff {tag : UInt8} {scheme : Scheme} :
    ofTag tag = .ok scheme ↔ tag = scheme.tag := by
  rw [← ofTag?_eq_some_iff]
  unfold ofTag
  cases ofTag? tag <;> simp

namespace Patch

theorem checkEntries_eq_ok_iff {s : Schema} {block : String} {entries : Nat} {u : Unit} :
    checkEntries s block entries = .ok u ↔ entries = s.width := by
  unfold checkEntries
  split <;> simp_all

theorem statisticsBytes_some_eq_ok_iff {s : Schema} {stats : Statistics} {bytes : Bytes} :
    statisticsBytes s (some stats) = .ok bytes ↔
      stats.lows.length = s.width ∧ stats.highs.length = s.width ∧
        stats.averages.length = s.width ∧
        bytes = 1 :: floatBytes s.order (stats.lows ++ stats.highs ++ stats.averages) := by
  unfold statisticsBytes
  simp only [Result.bind_eq_ok_iff, checkEntries_eq_ok_iff, exists_const, Result.pure_eq,
    Except.ok.injEq, eq_comm (b := bytes)]

end Patch

namespace PatchHeader

/-- The bytes of statistics are those that are written for them. There are none without points. -/
theorem readStatistics_exact (s : Schema) (count : UInt32) :
    Cursor.Exact (readStatistics s.order s.width count) fun statistics bytes =>
      Patch.statisticsBytes s statistics = .ok bytes ∧ (count = 0 → statistics = none) := by
  have hblock := (Cursor.floats_exact s.order s.width).bind fun lows =>
    (Cursor.floats_exact s.order s.width).bind fun highs =>
      (Cursor.floats_exact s.order s.width).bind fun averages =>
        Cursor.Exact.pure (some (Statistics.mk lows highs averages))
  have hfields := Cursor.byte_exact.bind fun flag =>
    Cursor.Exact.ite (p := flag = 0) (Cursor.Exact.pure none)
      (Cursor.Exact.ite (p := flag ≠ 1 || count = 0)
        (Cursor.Exact.refuse (.corruptPatch (.statisticsFlag flag count.toNat))) hblock)
  refine Cursor.Exact.of_iff (r := readStatistics s.order s.width count) hfields ?_
  intro statistics bytes
  constructor
  · intro h
    obtain ⟨flag, _, block, rfl, hblock, rfl⟩ := h
    -- There is no block, or the flag is refused, or the block is there.
    rcases hblock with ⟨hzero, rfl, rfl⟩ | ⟨-, ⟨-, hfalse⟩ | ⟨hflag, hblock⟩⟩
    · rw [hzero]
      exact ⟨rfl, fun _ => rfl⟩
    · exact hfalse.elim
    · obtain ⟨lows, _, _, ⟨hlows, rfl⟩, ⟨highs, _, _, ⟨hhighs, rfl⟩,
        ⟨averages, _, _, ⟨haverages, rfl⟩, ⟨rfl, rfl⟩, rfl⟩, rfl⟩, rfl⟩ := hblock
      simp only [Bool.or_eq_true, decide_eq_true_eq, not_or, ne_eq, not_not] at hflag
      obtain ⟨rfl, hcount⟩ := hflag
      refine ⟨Patch.statisticsBytes_some_eq_ok_iff.mpr ⟨hlows, hhighs, haverages, ?_⟩,
        fun h => absurd h hcount⟩
      simp only [Patch.floatBytes_append, List.append_nil, List.append_assoc, List.singleton_append]
  · intro h
    obtain ⟨hbytes, hnone⟩ := h
    cases statistics with
    | none =>
      obtain rfl : [0] = bytes := Except.ok.inj hbytes
      exact ⟨0, [0], [], rfl, .inl ⟨rfl, rfl, rfl⟩, rfl⟩
    | some stats =>
      obtain ⟨hlows, hhighs, haverages, rfl⟩ := Patch.statisticsBytes_some_eq_ok_iff.mp hbytes
      -- Without points there would be no statistics to write.
      have hcount : count ≠ 0 := by
        intro hzero
        cases hnone hzero
      refine ⟨1, [1], _, rfl, .inr ⟨by decide, .inr ⟨?_, stats.lows, _, _, ⟨hlows, rfl⟩,
        ⟨stats.highs, _, _, ⟨hhighs, rfl⟩, ⟨stats.averages, _, [], ⟨haverages, rfl⟩,
          ⟨rfl, rfl⟩, rfl⟩, rfl⟩, rfl⟩⟩, ?_⟩
      · simp [hcount]
      · simp only [Patch.floatBytes_append, List.append_nil, List.append_assoc,
          List.singleton_append]

end PatchHeader

/-! ## Headers -/

/-- What a header may say of a patch: ends of the dimensions, and the bytes of its statistics. Ends
are there also without points, and then may be any values. -/
structure Patch.IsHead (s : Schema) (p : Patch) (lows highs : List Binary64) (block : Bytes) :
    Prop where
  pcid          : p.pcid = s.pcid
  length_lows   : lows.length = s.width
  length_highs  : highs.length = s.width
  bounds        : p.bounds = if p.count = 0 then .empty else .extent lows highs
  statistics    : Patch.statisticsBytes s p.statistics = .ok block
  no_statistics : p.count = 0 → p.statistics = none

theorem Patch.IsHead.withPayload {s : Schema} {p : Patch} {lows highs : List Binary64}
    {block : Bytes} (h : IsHead s p lows highs block) (payload : Bytes) :
    IsHead s { p with payload } lows highs block :=
  ⟨h.pcid, h.length_lows, h.length_highs, h.bounds, h.statistics, h.no_statistics⟩

/-- The bytes of a header with the given ends and statistics. -/
def Patch.headBytes (s : Schema) (p : Patch) (lows highs : List Binary64) (block : Bytes) : Bytes :=
  s.order.marker :: s.order.bytes 4 p.pcid.toNat ++ p.scheme.tag :: s.order.bytes 4 p.count.toNat ++
    (floatBytes s.order lows ++ floatBytes s.order highs) ++ block

namespace PatchHeader

/-- What a header says of a patch. -/
def ofPatch (s : Schema) (p : Patch) (size : Nat) : PatchHeader :=
  { order := s.order, pcid := p.pcid, scheme := p.scheme, count := p.count, bounds := p.bounds
    statistics := p.statistics, size, payload := p.payload }

/-- Reads a header at a cursor, as a patch that has no payload yet. -/
def fieldsAt (registry : Registry) (c : Cursor) : Except Error ((Schema × Patch) × Cursor) := do
  let (s, c) ← Point.ownerAt registry c
  let (tag, c) ← c.byte
  let scheme ← Scheme.ofTag tag
  let (count, c) ← c.uint32 s.order
  let (lows, c) ← c.floats s.order s.width
  let (highs, c) ← c.floats s.order s.width
  let (statistics, c) ← readStatistics s.order s.width count c
  return ((s, ⟨s.pcid, scheme, count, if count = 0 then .empty else .extent lows highs, statistics,
    []⟩), c)

theorem read_eq (registry : Registry) (bytes : Bytes) :
    read registry bytes = fieldsAt registry (.start bytes) >>= fun x =>
      .ok (x.1.1, ofPatch x.1.1 { x.1.2 with payload := x.2.rest } x.2.offset) := by
  unfold read fieldsAt
  rw [Point.readOwner_eq]
  simp only [bind_assoc]
  rfl

theorem fieldsAt_exact (registry : Registry) :
    Cursor.Exact (fieldsAt registry) fun x bytes =>
      registry.resolve x.2.pcid = .ok x.1 ∧ x.2.payload = [] ∧
        ∃ lows highs block, Patch.IsHead x.1 x.2 lows highs block ∧
          bytes = Patch.headBytes x.1 x.2 lows highs block := by
  have hfields := (Point.ownerAt_exact registry).bind fun s => Cursor.byte_exact.bind fun tag =>
    Cursor.Exact.step (Scheme.ofTag tag) fun scheme =>
      (Cursor.uint32_exact s.order).bind fun count =>
        (Cursor.floats_exact s.order s.width).bind fun lows =>
          (Cursor.floats_exact s.order s.width).bind fun highs =>
            (readStatistics_exact s count).bind fun statistics =>
              Cursor.Exact.pure (s, Patch.mk s.pcid scheme count
                (if count = 0 then .empty else .extent lows highs) statistics [])
  refine Cursor.Exact.of_iff (r := fieldsAt registry) hfields ?_
  intro x bytes
  obtain ⟨s, p⟩ := x
  constructor
  · intro h
    -- Field by field, with the bytes that each of them takes.
    obtain ⟨owner, _, _, ⟨hs, rfl⟩, ⟨tag, _, _, rfl, hcounted, rfl⟩, rfl⟩ := h
    obtain ⟨scheme, htag, count, _, _, rfl, ⟨lows, _, _, ⟨hlows, rfl⟩, hends, rfl⟩, rfl⟩ := hcounted
    obtain ⟨highs, _, _, ⟨hhighs, rfl⟩, hstatistics, rfl⟩ := hends
    obtain ⟨statistics, block, _, ⟨hblock, hnone⟩, ⟨hvalue, rfl⟩, rfl⟩ := hstatistics
    obtain ⟨rfl, rfl⟩ := Prod.mk.inj hvalue
    obtain rfl := Scheme.ofTag_eq_ok_iff.mp htag
    refine ⟨hs, rfl, lows, highs, block, ⟨rfl, hlows, hhighs, rfl, hblock, hnone⟩, ?_⟩
    simp only [Patch.headBytes, List.append_nil, List.append_assoc, List.cons_append,
      List.nil_append]
  · intro h
    obtain ⟨hs, hpayload, lows, highs, block, hhead, rfl⟩ := h
    -- The header says what the fields of the patch are, so the patch is the one that is read.
    obtain ⟨pcid, scheme, count, bounds, statistics, payload⟩ := p
    obtain ⟨hpcid, hlows, hhighs, hbounds, hblock, hnone⟩ := hhead
    dsimp only at hs hpayload hpcid hlows hhighs hbounds hblock hnone ⊢
    subst hpcid hpayload
    rw [hbounds]
    refine ⟨s, _, _, ⟨hs, rfl⟩, ⟨scheme.tag, _, _, rfl,
      ⟨scheme, Scheme.ofTag_eq_ok_iff.mpr rfl, count, _, _, rfl,
        ⟨lows, _, _, ⟨hlows, rfl⟩,
          ⟨highs, _, _, ⟨hhighs, rfl⟩,
            ⟨statistics, block, [], ⟨hblock, hnone⟩, ⟨rfl, rfl⟩, rfl⟩, rfl⟩, rfl⟩, rfl⟩, rfl⟩, ?_⟩
    simp only [Patch.headBytes, List.append_nil, List.append_assoc, List.cons_append,
      List.nil_append]

variable {registry : Registry} {s : Schema} {p : Patch} {bytes : Bytes}

/-- A header is read exactly if the bytes begin with one, and the payload is what comes after. -/
theorem read_eq_ok_iff {h : PatchHeader} :
    read registry bytes = .ok (s, h) ↔ ∃ p lows highs block,
      registry.resolve p.pcid = .ok s ∧ Patch.IsHead s p lows highs block ∧
        bytes = Patch.headBytes s p lows highs block ++ p.payload ∧
          h = ofPatch s p (Patch.headBytes s p lows highs block).length := by
  rw [read_eq]
  constructor
  · intro hread
    obtain ⟨⟨⟨owner, p⟩, c⟩, hfields, hvalue⟩ := Result.bind_eq_ok_iff.mp hread
    obtain ⟨rfl, rfl⟩ := Prod.mk.inj (Except.ok.inj hvalue)
    obtain ⟨head, ⟨hs, -, lows, highs, block, hhead, rfl⟩, hrest, htotal⟩ :=
      (fieldsAt_exact registry).sound hfields
    -- The bytes are the header and the payload, so the place of the cursor is the length of the
    -- header.
    have hbytes : bytes = Patch.headBytes owner p lows highs block ++ c.rest := hrest
    have hoffset : c.offset = (Patch.headBytes owner p lows highs block).length := by
      show c.total - c.rest.length = _
      rw [htotal]
      show bytes.length - c.rest.length = _
      rw [hbytes, List.length_append, Nat.add_sub_cancel]
    exact ⟨{ p with payload := c.rest }, lows, highs, block, hs, hhead.withPayload c.rest, hbytes,
      congrArg (ofPatch owner { p with payload := c.rest }) hoffset⟩
  · intro hwritten
    obtain ⟨p, lows, highs, block, hs, hhead, rfl, rfl⟩ := hwritten
    have hfields := (fieldsAt_exact registry).complete (a := (s, { p with payload := [] }))
      ⟨hs, rfl, lows, highs, block, hhead.withPayload [], rfl⟩
      (Patch.headBytes s p lows highs block ++ p.payload).length p.payload
    refine Result.bind_eq_ok_iff.mpr ⟨_, hfields, ?_⟩
    have hoffset : (Patch.headBytes s p lows highs block ++ p.payload).length - p.payload.length =
        (Patch.headBytes s p lows highs block).length := by
      rw [List.length_append, Nat.add_sub_cancel]
    exact congrArg (fun size => Except.ok (s, ofPatch s p size)) hoffset

/-- Without its last byte a header is refused, for want of bytes. -/
theorem read_take_of_lt {lows highs : List Binary64} {block : Bytes}
    (hs : registry.resolve p.pcid = .ok s) (hhead : Patch.IsHead s p lows highs block) {n : Nat}
    (hn : n < (Patch.headBytes s p lows highs block).length) :
    ∃ cause, read registry ((Patch.headBytes s p lows highs block).take n) =
      .error (.corruptPatch cause) := by
  have hshort := (fieldsAt_exact registry).short (a := (s, { p with payload := [] }))
    ⟨hs, rfl, lows, highs, block, hhead.withPayload [], rfl⟩
    ((Patch.headBytes s p lows highs block).take n).length n hn
  obtain ⟨cause, hcause⟩ := hshort
  refine ⟨cause, ?_⟩
  rw [read_eq]
  exact Result.bind_eq_error_iff.mpr (.inl hcause)

end PatchHeader

namespace Patch

variable {registry : Registry} {s : Schema} {p : Patch} {bytes : Bytes}

theorem deserialize_eq_ok_iff :
    deserialize registry bytes = .ok (s, p) ↔
      registry.resolve p.pcid = .ok s ∧ ∃ lows highs block, IsHead s p lows highs block ∧
        bytes = headBytes s p lows highs block ++ p.payload := by
  unfold deserialize
  rw [Result.bind_eq_ok_iff]
  constructor
  · intro hread
    obtain ⟨⟨owner, h⟩, hread, hvalue⟩ := hread
    obtain ⟨rfl, rfl⟩ := Prod.mk.inj (Except.ok.inj hvalue)
    obtain ⟨p, lows, highs, block, hs, hhead, hbytes, rfl⟩ := PatchHeader.read_eq_ok_iff.mp hread
    exact ⟨hs, lows, highs, block, hhead, hbytes⟩
  · intro hwritten
    obtain ⟨hs, lows, highs, block, hhead, hbytes⟩ := hwritten
    exact ⟨_, PatchHeader.read_eq_ok_iff.mpr ⟨p, lows, highs, block, hs, hhead, hbytes, rfl⟩, rfl⟩

/-! ## Writing -/

/-- The lower ends that a patch without points is written with. -/
def noLows (s : Schema) : List Binary64 := List.replicate s.width (.infinity false)

/-- The upper ends that a patch without points is written with. -/
def noHighs (s : Schema) : List Binary64 := List.replicate s.width (.infinity true)

/-- Puts the ends of a patch without points in the place of those in a serialized patch. -/
def clearEnds (s : Schema) (bytes : Bytes) : Bytes :=
  bytes.take 10 ++ (floatBytes s.order (noLows s) ++ floatBytes s.order (noHighs s)) ++
    bytes.drop (10 + 16 * s.width)

section Writing

variable {lows highs : List Binary64} {block : Bytes}

theorem clearEnds_headBytes (h : IsHead s p lows highs block) (rest : Bytes) :
    clearEnds s (headBytes s p lows highs block ++ rest) =
      headBytes s p (noLows s) (noHighs s) block ++ rest := by
  -- Ten bytes are in front of the ends, and the ends of either kind take eight for a dimension.
  have hfront : (s.order.marker :: s.order.bytes 4 p.pcid.toNat ++
      p.scheme.tag :: s.order.bytes 4 p.count.toNat).length = 10 := by simp
  have hends : (floatBytes s.order lows ++ floatBytes s.order highs).length = 16 * s.width := by
    rw [List.length_append, length_floatBytes, length_floatBytes, h.length_lows, h.length_highs]
    omega
  unfold clearEnds headBytes
  generalize s.order.marker :: s.order.bytes 4 p.pcid.toNat ++
    p.scheme.tag :: s.order.bytes 4 p.count.toNat = front at hfront ⊢
  generalize floatBytes s.order lows ++ floatBytes s.order highs = ends at hends ⊢
  rw [← hfront, ← hends, ← List.length_append]
  simp only [List.append_assoc]
  rw [List.take_left, ← List.append_assoc front ends, List.drop_left]

/-- A patch is written as its header and its payload, if the ends are those it is written with. -/
theorem IsHead.serialize_eq (h : IsHead s p lows highs block)
    (hempty : p.count = 0 → lows = noLows s ∧ highs = noHighs s) :
    p.serialize s = .ok (headBytes s p lows highs block ++ p.payload) := by
  have hbounds : boundsBytes s p.bounds =
      .ok (floatBytes s.order lows ++ floatBytes s.order highs) := by
    rw [h.bounds]
    by_cases hcount : p.count = 0
    · obtain ⟨rfl, rfl⟩ := hempty hcount
      rw [if_pos hcount]
      rfl
    · rw [if_neg hcount]
      have hentries : checkEntries s "bounds" (max lows.length highs.length) = .ok () := by
        rw [checkEntries_eq_ok_iff, h.length_lows, h.length_highs, Nat.max_self]
      show (checkEntries s "bounds" (max lows.length highs.length) >>= _) = _
      rw [hentries]
      rfl
  unfold serialize
  rw [h.pcid, Schema.checkPcid, if_pos rfl, Result.ok_bind, hbounds, Result.ok_bind, h.statistics,
    Result.ok_bind]
  unfold headBytes
  rw [h.pcid]
  rfl

end Writing

/-! ## Patches that hold rows -/

/-- A patch keeps an entry of its statistics for every dimension. -/
theorem Holds.length_statistics {rows : List Row} (hp : p.Holds s rows) {stats : Statistics}
    (h : p.statistics = some stats) :
    stats.lows.length = s.width ∧ stats.highs.length = s.width ∧
      stats.averages.length = s.width := by
  rcases hp.statistics with hnone | hagree
  · rw [hnone] at h
    cases h
  rw [h] at hagree
  by_cases hrows : rows = []
  · -- Without rows there are no statistics to agree with.
    rw [hrows] at hagree
    cases hagree
  rw [Schema.statistics?, Schema.bounds_of_ne_nil hrows] at hagree
  cases hagree with
  | some hagree =>
    refine ⟨hagree.lows.length_eq.trans ?_, hagree.highs.length_eq.trans ?_,
      hagree.averages.length_eq.trans ?_⟩
    · rw [List.length_map, Schema.length_columnValues]
    · rw [List.length_map, Schema.length_columnValues]
    · rw [List.length_zipWith, Schema.columns, Row.length_columns]
      exact Nat.min_self s.width

/-- A patch that holds rows has a header, whose ends are those it is written with. -/
theorem Holds.exists_isHead {rows : List Row} (hp : p.Holds s rows) :
    ∃ lows highs block, IsHead s p lows highs block ∧
      (p.count = 0 → lows = noLows s ∧ highs = noHighs s) := by
  obtain ⟨block, hblock⟩ : ∃ block, statisticsBytes s p.statistics = .ok block := by
    cases hstatistics : p.statistics with
    | none => exact ⟨[0], rfl⟩
    | some stats =>
      obtain ⟨hlows, hhighs, haverages⟩ := hp.length_statistics hstatistics
      exact ⟨_, statisticsBytes_some_eq_ok_iff.mpr ⟨hlows, hhighs, haverages, rfl⟩⟩
  have hwidth := hp.hasWidth
  by_cases hcount : p.count = 0
  · refine ⟨noLows s, noHighs s, block, ⟨hp.pcid, List.length_replicate, List.length_replicate, ?_,
      hblock, hp.statistics_eq_none⟩, fun _ => ⟨rfl, rfl⟩⟩
    rw [if_pos hcount, hp.bounds_eq_empty_iff]
    exact hcount
  · cases hbounds : p.bounds with
    | empty => exact absurd (hp.bounds_eq_empty_iff.mp hbounds) hcount
    | extent lows highs =>
      rw [hbounds] at hwidth
      refine ⟨lows, highs, block, ⟨hp.pcid, hwidth.1, hwidth.2, ?_, hblock,
        hp.statistics_eq_none⟩, fun hzero => absurd hzero hcount⟩
      rw [if_neg hcount, hbounds]

/-! ## The codec -/

/-- Serialized patches are an exact codec. A patch that is reached is written, and read back as it
is. What is read is written as it was, but for the ends of a patch without points, which become
infinite. The header, which can be read by itself, depends on nothing that comes after it: its size
and that of the payload make up the whole, and without its last byte it is refused. -/
theorem wire_exact [Compressors] [LawfulCompressors] (registry : Registry) (s : Schema) (p : Patch) :
    (Reachable s p → registry.resolve p.pcid = .ok s →
      ∃ bytes, p.serialize s = .ok bytes ∧ deserialize registry bytes = .ok (s, p)) ∧
    ∀ bytes, deserialize registry bytes = .ok (s, p) →
      p.serialize s = .ok (if p.count = 0 then clearEnds s bytes else bytes) ∧
      ∃ h, PatchHeader.read registry bytes = .ok (s, h) ∧
        h = PatchHeader.ofPatch s p h.size ∧
        h.size + h.payload.length = bytes.length ∧
        bytes.drop h.size = h.payload ∧
        (∀ rest, PatchHeader.read registry (bytes.take h.size ++ rest) =
          .ok (s, { h with payload := rest })) ∧
        (∀ more, PatchHeader.read registry (bytes ++ more) =
          .ok (s, { h with payload := h.payload ++ more })) ∧
        ∀ n < h.size, ∃ cause,
          PatchHeader.read registry (bytes.take n) = .error (.corruptPatch cause) ∧
          deserialize registry (bytes.take n) = .error (.corruptPatch cause) := by
  constructor
  · intro hreachable hs
    obtain ⟨rows, hp⟩ := hreachable.exists_holds
    obtain ⟨lows, highs, block, hhead, hempty⟩ := hp.exists_isHead
    exact ⟨_, hhead.serialize_eq hempty,
      deserialize_eq_ok_iff.mpr ⟨hs, lows, highs, block, hhead, rfl⟩⟩
  intro bytes hread
  obtain ⟨hs, lows, highs, block, hhead, rfl⟩ := deserialize_eq_ok_iff.mp hread
  constructor
  · by_cases hcount : p.count = 0
    · -- The patch says nothing of the ends that were read, so it is written with its own.
      have hcleared : IsHead s p (noLows s) (noHighs s) block := by
        refine ⟨hhead.pcid, List.length_replicate, List.length_replicate, ?_, hhead.statistics,
          hhead.no_statistics⟩
        rw [hhead.bounds, if_pos hcount, if_pos hcount]
      rw [if_pos hcount, clearEnds_headBytes hhead]
      exact hcleared.serialize_eq fun _ => ⟨rfl, rfl⟩
    · rw [if_neg hcount]
      exact hhead.serialize_eq fun hzero => absurd hzero hcount
  · -- The same header is read whatever payload is put behind it.
    have hpeek (rest : Bytes) : PatchHeader.read registry (headBytes s p lows highs block ++ rest) =
        .ok (s, PatchHeader.ofPatch s { p with payload := rest }
          (headBytes s p lows highs block).length) :=
      PatchHeader.read_eq_ok_iff.mpr ⟨{ p with payload := rest }, lows, highs, block, hs,
        hhead.withPayload rest, rfl, rfl⟩
    refine ⟨PatchHeader.ofPatch s p (headBytes s p lows highs block).length, hpeek p.payload, rfl,
      ?_, ?_, ?_, ?_, ?_⟩
    · exact List.length_append.symm
    · exact List.drop_left
    · intro rest
      show PatchHeader.read registry
        (List.take (headBytes s p lows highs block).length _ ++ rest) = _
      rw [List.take_left]
      exact hpeek rest
    · intro more
      rw [List.append_assoc]
      exact hpeek (p.payload ++ more)
    · intro n hn
      have hn' : n < (headBytes s p lows highs block).length := hn
      obtain ⟨cause, hcause⟩ := PatchHeader.read_take_of_lt hs hhead hn'
      rw [List.take_append_of_le_length (Nat.le_of_lt hn')]
      exact ⟨cause, hcause, Result.bind_eq_error_iff.mpr (.inl hcause)⟩

/-- Two points of the plane, written and read; and a patch without points that came with ends of
sevens, which are not kept. -/
theorem wire_exact_planar :
    let s := Schema.planar
    let registry : Registry := ⟨[s]⟩
    let sevens : Bytes := [0, 0, 0, 0, 1, 0, 0, 0, 0, 0] ++ List.replicate 48 7 ++ [0, 5]
    ∃ q, Reachable s planar ∧ registry.resolve planar.pcid = .ok s ∧
      (∃ bytes, planar.serialize s = .ok bytes ∧ deserialize registry bytes = .ok (s, planar)) ∧
      deserialize registry sevens = .ok (s, q) ∧
      q.serialize s = .ok (clearEnds s sevens) ∧
      ∃ h, PatchHeader.read registry sevens = .ok (s, h) ∧
        h.size + h.payload.length = sevens.length ∧
        ∀ n < h.size, ∃ cause,
          PatchHeader.read registry (sevens.take n) = .error (.corruptPatch cause) := by
  intro s registry sevens
  have hs : registry.resolve planar.pcid = .ok s := rfl
  let q : Patch := ⟨1, .uncompressed, 0, .empty, none, [5]⟩
  have hread : deserialize registry sevens = .ok (s, q) := rfl
  obtain ⟨hwritten, h, hpeek, -, hsize, -, -, -, hshort⟩ := (wire_exact registry s q).2 sevens hread
  refine ⟨q, reachable_planar, hs, (wire_exact registry s planar).1 reachable_planar hs, hread,
    hwritten, h, hpeek, hsize, ?_⟩
  intro n hn
  obtain ⟨cause, hcause, -⟩ := hshort n hn
  exact ⟨cause, hcause⟩

end Patch

end PointCloud
