import Mathlib
import PointCloud.Proofs.Kernel.Varint
import PointCloud.Proofs.Machine.Points

/-!
# Hierarchical payloads on the machine

Every number of a cluster comes from the payload: how many points it has, how many bits its words
share, the bits themselves and the differences. The machine checks a count against the room that is
left before it multiplies or adds it, and a number of bits before it shifts by what is left of the
width.

Main results:

* `Machine.putLows_follows` — a low word is in range where the shared bits leave room for it;
* `Machine.clusters_follows` — a cluster stays inside the points that are left;
* `Machine.hierarchical_follows` — for every payload, no step is out of range.
-/

namespace PointCloud

theorem Cursor.varint_lt {c c' : Cursor} {n : Nat} (h : c.varint = .ok (n, c')) : n < 2 ^ 64 := by
  unfold varint at h
  split at h
  · rename_i hread
    rw [Except.ok.injEq, Prod.mk.injEq] at h
    rw [← h.1]
    exact Varint.lt_of_read hread
  · cases h

namespace Machine

/-! ## Bits -/

/-- The number with the low `bits` bits set. -/
def lowMask (bits : Nat) : Run Nat :=
  if bits = 0 then .ok 0
  else if bits = 64 then .ok (2 ^ 64 - 1)
  else do sub (← shiftLeft 64 1 bits) 1

/-- Shifts to the left, out of the number altogether if it has to be. -/
def shiftUp (value bits : Nat) : Nat := if bits < 64 then value <<< bits % 2 ^ 64 else 0

/-- The difference that a zig-zag number stands for, as a word of sixty-four bits. -/
def difference (n : Nat) : Run Nat := do
  let half ← shiftRight 64 n 1
  return half ^^^ (if n % 2 = 1 then 2 ^ 64 - 1 else 0)

theorem lowMask_eq {bits : Nat} (h : bits ≤ 64) : lowMask bits = .ok (2 ^ bits - 1) := by
  unfold lowMask
  split
  · rename_i hzero
    rw [hzero]
  split
  · rename_i hfull
    rw [hfull]
  · have hlt : 1 * 2 ^ bits < 2 ^ 64 := by
      rw [Nat.one_mul]
      exact Nat.pow_lt_pow_right (by decide) (by omega)
    have hpos := Nat.two_pow_pos bits
    rw [shiftLeft_eq (by omega), Nat.mod_eq_of_lt hlt, Result.ok_bind, Nat.one_mul, sub_eq hpos]

theorem shiftUp_eq {value bits : Nat} (h : bits ≤ 64) :
    shiftUp value bits = value * 2 ^ bits % 2 ^ 64 := by
  unfold shiftUp
  split
  · rw [Nat.shiftLeft_eq]
  · obtain rfl : bits = 64 := by omega
    exact (Nat.mul_mod_left value (2 ^ 64)).symm

/-- A number has bits outside a mask exactly if it is past it. -/
theorem and_mask_ne_zero_iff {low bits : Nat} (hlow : low < 2 ^ 64) (hbits : bits ≤ 64) :
    low &&& (2 ^ 64 - 1 - (2 ^ bits - 1)) ≠ 0 ↔ 2 ^ bits ≤ low := by
  have hpos := Nat.two_pow_pos bits
  have hle : 2 ^ bits ≤ 2 ^ 64 := Nat.pow_le_pow_right (by decide) hbits
  have hmask : 2 ^ 64 - 1 - (2 ^ bits - 1) = 2 ^ 64 - (2 ^ bits - 1 + 1) := by omega
  -- The mask keeps the bits from `bits` on, up to sixty-four.
  have hbit : ∀ i, (low &&& (2 ^ 64 - 1 - (2 ^ bits - 1))).testBit i =
      (low.testBit i && (decide (i < 64) && !decide (i < bits))) := by
    intro i
    rw [hmask, Nat.testBit_and, Nat.testBit_two_pow_sub_succ (by omega),
      Nat.testBit_two_pow_sub_one]
  constructor
  · -- A number below the mask has no bit that the mask keeps.
    intro hne
    by_contra hlt
    refine hne (Nat.eq_of_testBit_eq fun i => ?_)
    rw [hbit, Nat.zero_testBit]
    by_cases hi : i < bits
    · simp [hi]
    · have hhigh : 2 ^ bits ≤ 2 ^ i := Nat.pow_le_pow_right (by decide) (by omega)
      rw [Nat.testBit_lt_two_pow (by omega), Bool.false_and]
  · intro hge hzero
    -- A number past the mask has one of its own bits there.
    obtain ⟨i, hi, htrue⟩ := Nat.exists_ge_and_testBit_of_ge_two_pow hge
    have h64 : i < 64 := by
      by_contra h64
      have hhigh : 2 ^ 64 ≤ 2 ^ i := Nat.pow_le_pow_right (by decide) (by omega)
      rw [Nat.testBit_lt_two_pow (by omega)] at htrue
      cases htrue
    have hfalse := hbit i
    rw [hzero, Nat.zero_testBit, htrue] at hfalse
    simp [h64, Nat.not_lt.mpr hi] at hfalse

/-- Adding a difference goes around as the sum of integers does. -/
theorem difference_eq {n : Nat} (hn : n < 2 ^ 64) (low : Nat) :
    ∃ delta, difference n = .ok delta ∧
      (low + delta) % 2 ^ 64 = ((low + ZigZag.integer n) % 2 ^ 64).toNat := by
  have hshift : shiftRight 64 n 1 = .ok (n / 2) := shiftRight_eq (by decide)
  refine ⟨_, by rw [difference, hshift, Result.ok_bind]; rfl, ?_⟩
  unfold ZigZag.integer
  by_cases hodd : n % 2 = 1
  · -- An odd number stands for a negative difference, which is its complement.
    have hones : n / 2 ^^^ (2 ^ 64 - 1) = 2 ^ 64 - (n / 2 + 1) := by
      refine Nat.eq_of_testBit_eq fun i => ?_
      rw [Nat.testBit_xor, Nat.testBit_two_pow_sub_one, Nat.testBit_two_pow_sub_succ (by omega)]
      by_cases hi : i < 64
      · simp [hi]
      · have hhigh : 2 ^ 64 ≤ 2 ^ i := Nat.pow_le_pow_right (by decide) (by omega)
        rw [Nat.testBit_lt_two_pow (by omega)]
        simp [hi]
    rw [if_pos hodd, if_neg (by omega), hones]
    omega
  · rw [if_neg hodd, if_pos (by omega), Nat.xor_zero]
    omega

/-- The shared bits above a low word make the word, as far as it is written. -/
theorem shiftUp_or (leading : Nat) {low bits size : Nat} (hbits : bits ≤ 64) (hsize : size ≤ 8)
    (hlow : low < 2 ^ bits) :
    (shiftUp leading bits ||| low) % 256 ^ size =
      (leading * 2 ^ bits + low) % 2 ^ (8 * size) % 256 ^ size := by
  have hsplit : 2 ^ 64 = 2 ^ bits * 2 ^ (64 - bits) := by
    rw [← Nat.pow_add, Nat.add_sub_cancel' hbits]
  -- What is shifted out of sixty-four bits is the part of `leading` past `64 - bits`.
  have hup : shiftUp leading bits = 2 ^ bits * (leading % 2 ^ (64 - bits)) := by
    rw [shiftUp_eq hbits, hsplit, Nat.mul_comm leading, Nat.mul_mod_mul_left]
  have hdvd : 2 ^ (8 * size) ∣ 2 ^ 64 := Nat.pow_dvd_pow 2 (by omega)
  rw [← two_pow_eight_mul, Nat.mod_mod, hup, ← Nat.two_pow_add_eq_or_of_lt hlow, ← hup, shiftUp_eq hbits,
    Nat.add_mod, Nat.mod_mod_of_dvd _ hdvd, ← Nat.add_mod]

/-! ## One column -/

variable {input : Bytes}

/-- Writes the words of a column into the points of a cluster, each as its low word is read: the
given one, and `more` that follow as differences. -/
def putLows (d : Dimension) (order : ByteOrder) (offset stride unique mask leading : Nat) :
    Nat → Nat → Reader input → Bytes → Run (Bytes × Reader input)
  | more, low, r, cluster => do
    if low &&& (2 ^ 64 - 1 - mask) ≠ 0 then refuse (.corruptPatch (.lowValue d.name unique))
    let point ← writeWord order d.size (leading ||| low) offset (cluster.take stride)
    match more with
    | 0 => return (point ++ cluster.drop stride, r)
    | more + 1 =>
      let (n, r) ← r.varint
      let delta ← difference n
      let (rest, r) ← putLows d order offset stride unique mask leading more
        ((low + delta) % 2 ^ 64) r (cluster.drop stride)
      return (point ++ rest, r)

/-- Reads the column of a dimension and writes it into the points of a cluster. -/
def clusterColumn (s : Schema) (d : Dimension) (r : Reader input) (cluster : Bytes) :
    Run (Bytes × Reader input) := do
  let bits := d.interpretation.bits
  let (shared, r) ← r.byte
  let shared := shared.toNat
  if bits < shared then refuse (.corruptPatch (.sharedBitCount d.name shared bits))
  let unique ← sub bits shared
  let mask ← lowMask unique
  let (leading, r) ← r.varint
  let (low, r) ← r.varint
  nonzero s.size
  match cluster.length / s.size with
  | 0 => return (cluster, r)
  | more + 1 =>
    putLows d s.order (s.byteOffset d.position) s.size unique mask (shiftUp leading unique) more low
      r cluster

/-- A low word that is in range is written as the word that it belongs to. -/
theorem writeWord_low (d : Dimension) (order : ByteOrder) (leading : Nat) {offset unique low : Nat}
    {point : Bytes} (hunique : unique ≤ 64) (hlow : low < 2 ^ unique)
    (hroom : offset + d.size ≤ point.length) (hlength : point.length < 2 ^ 64) :
    ∃ written, writeWord order d.size (shiftUp leading unique ||| low) offset point = .ok written ∧
      writeWord order d.size ((leading * 2 ^ unique + low) % 2 ^ d.interpretation.bits) offset
        point = .ok written := by
  have hword := shiftUp_or leading hunique d.size_le hlow
  have hcongr := writeWord_congr order d.size_le hroom hlength hword
  have hwrite := writeWord_eq order (shiftUp leading unique ||| low) d.size_le hroom hlength
  exact ⟨_, hwrite, hcongr.symm.trans hwrite⟩

/-- The words that are written are those of the column, as far as they are written. -/
theorem putLows_follows (d : Dimension) (order : ByteOrder) (leading : Nat)
    {offset stride unique : Nat} (hunique : unique ≤ 64) (hroom : offset + d.size ≤ stride)
    {more low : Nat} {r : Reader input} {c : Cursor} {cluster : Bytes} (hat : r.At c)
    (hlow : low < 2 ^ 64)
    (hcluster : cluster.length = (more + 1) * stride) (hlength : cluster.length < 2 ^ 62) :
    Follows (fun x y => writeColumn order d.size offset stride
        (y.1.map fun low => (leading * 2 ^ unique + low) % 2 ^ d.interpretation.bits) cluster =
        .ok x.1 ∧ x.2.At y.2)
      (putLows d order offset stride unique (2 ^ unique - 1) (shiftUp leading unique) more low r
        cluster)
      (Hierarchical.readLows d unique more low c) := by
  induction more generalizing low r c cluster with
  | zero =>
    -- The last low word: no difference follows it.
    unfold putLows Hierarchical.readLows
    simp only [Result.throw_eq, Result.error_bind, refuse_bind]
    refine Follows.check _ (and_mask_ne_zero_iff hlow hunique) fun hle => ?_
    rw [Nat.zero_add, Nat.one_mul] at hcluster
    have htake : (cluster.take stride).length = stride := by
      rw [List.length_take]
      omega
    obtain ⟨point, hpoint, hword⟩ := writeWord_low d order leading hunique
      (Nat.lt_of_not_le hle) (by rw [htake]; exact hroom) (by omega)
    rw [hpoint, Result.ok_bind]
    refine .ok ⟨?_, hat⟩
    rw [List.map_cons, writeColumn_cons (Nat.le_of_eq hcluster.symm), hword, Result.ok_bind]
    rfl
  | succ more ih =>
    unfold putLows Hierarchical.readLows
    simp only [Result.throw_eq, Result.error_bind, refuse_bind]
    refine Follows.check _ (and_mask_ne_zero_iff hlow hunique) fun hle => ?_
    rw [Nat.succ_mul] at hcluster
    have htake : (cluster.take stride).length = stride := by
      rw [List.length_take]
      omega
    have hdrop : (cluster.drop stride).length = (more + 1) * stride := by
      rw [List.length_drop]
      omega
    obtain ⟨point, hpoint, hword⟩ := writeWord_low d order leading hunique
      (Nat.lt_of_not_le hle) (by rw [htake]; exact hroom) (by omega)
    rw [hpoint, Result.ok_bind]
    refine (Reader.varint_follows hat).bind_of_eq ?_
    rintro ⟨n, r⟩ ⟨_, c'⟩ hread ⟨rfl, hat⟩
    obtain ⟨delta, hdelta, hnext⟩ := difference_eq (Cursor.varint_lt hread) low
    dsimp only at hnext ⊢
    rw [hdelta, Result.ok_bind, ← hnext]
    have hrest := ih hat (Nat.mod_lt (low + delta) (by decide)) hdrop (by omega)
    refine hrest.bind ?_
    rintro ⟨rest, r⟩ ⟨lows, c⟩ ⟨hrest, hat⟩
    refine .ok ⟨?_, hat⟩
    dsimp only at hrest ⊢
    rw [List.map_cons, writeColumn_cons (by omega), hword, Result.ok_bind, hrest]
    rfl

theorem clusterColumn_fills (input : Bytes) (s : Schema) {points : Nat} (hpoints : 0 < points)
    (hsize : points * s.size < 2 ^ 62) :
    Fills input s points (clusterColumn s) (fun d c => Hierarchical.readColumn d points c) := by
  intro d hd r c cluster hat hcluster hroom
  unfold clusterColumn Hierarchical.readColumn
  refine (Reader.byte_follows hat).bind ?_
  rintro ⟨shared, r⟩ ⟨_, c⟩ ⟨rfl, hat⟩
  simp only [Result.throw_eq, Result.error_bind, refuse_bind]
  refine Follows.check _ Iff.rfl fun hshared => ?_
  -- No more bits are shared than a word has, so what is left of the width is in range.
  have hunique : d.interpretation.bits - shared.toNat ≤ 64 :=
    Nat.le_trans (Nat.sub_le _ _) d.bits_le
  rw [sub_eq (Nat.le_of_not_lt hshared), Result.ok_bind, lowMask_eq hunique, Result.ok_bind]
  refine (Reader.varint_follows hat).bind ?_
  rintro ⟨leading, r⟩ ⟨_, c⟩ ⟨rfl, hat⟩
  refine (Reader.varint_follows hat).bind_of_eq ?_
  rintro ⟨low, r⟩ ⟨_, c⟩ hlow ⟨rfl, hat⟩
  -- A cluster is never empty, so its first low word is followed by one fewer than its points.
  have hcount : cluster.length / s.size = points - 1 + 1 := by
    rw [hcluster, Nat.mul_div_cancel _ s.size_pos]
    omega
  dsimp only
  rw [nonzero_eq s.size_pos, Result.ok_bind, hcount]
  have hlength : cluster.length = (points - 1 + 1) * s.size := by
    rw [hcluster, Nat.sub_add_cancel hpoints]
  have hlows := putLows_follows d s.order leading hunique hroom hat (Cursor.varint_lt hlow) hlength
    (by omega)
  refine hlows.bind_right ?_
  rintro ⟨filled, r⟩ ⟨lows, c⟩ hread ⟨hwrite, hat⟩
  refine .ok ⟨hwrite, ?_, hat⟩
  rw [List.length_map, Hierarchical.length_of_readLows hread, Nat.sub_add_cancel hpoints]

/-! ## The payload -/

/-- Reads clusters into the points from `next` on, with the point after the last. -/
def clusters (s : Schema) (points : Nat) :
    Nat → Nat → Reader input → Bytes → Run (Nat × Bytes × Reader input)
  | 0, next, r, buffer => .ok (next, buffer, r)
  | count + 1, next, r, buffer => do
    let (held, r) ← r.varint
    let room ← sub points next
    if held = 0 || room < held then refuse (.corruptPatch (.clusterOverflow held points))
    let after ← add next held
    let first ← mul next s.size
    let stop ← mul after s.size
    let cluster ← slice buffer first stop
    let (cluster, r) ← fillColumns (clusterColumn s) s.dimensions r cluster
    clusters s points count after r (buffer.take first ++ cluster ++ buffer.drop stop)

/-- The buffer of points that a hierarchical payload holds. -/
def hierarchical (s : Schema) (points : Nat) (payload : Bytes) : Run Bytes := do
  let total ← ofReader (bufferLength points s.size)
  ofReader (reserve total)
  let (keyBits, r) ← (Reader.start payload).byte
  if Hierarchical.keyBitLimit < keyBits.toNat then
    refuse (.corruptPatch (.clusterKeyWidth keyBits.toNat))
  let (count, r) ← r.varint
  let (next, buffer, r) ← clusters s points count 0 r (List.replicate total 0)
  if next ≠ points then refuse (.corruptPatch (.clusterTotal next points))
  r.finish "Hierarchical payload"
  return buffer

/-- Bytes that take the place of those between two places leave the length as it was. -/
theorem length_put_back {first size stop : Nat} {buffer bytes : Bytes} (hstop : stop = first + size)
    (hbytes : bytes.length = size) (hbuffer : stop ≤ buffer.length) :
    (buffer.take first ++ bytes).length = stop ∧
      (buffer.take first ++ bytes ++ buffer.drop stop).length = buffer.length := by
  have hwritten : (buffer.take first ++ bytes).length = stop := by
    rw [List.length_append, List.length_take]
    omega
  refine ⟨hwritten, ?_⟩
  rw [List.length_append, hwritten, List.length_drop]
  omega

/-- The points before the next one are those of the clusters that were read. -/
theorem clusters_follows {s : Schema} {points : Nat} (hsize : points * s.size < 2 ^ 62)
    {count next room : Nat} {r : Reader input} {c : Cursor} {buffer : Bytes} (hat : r.At c)
    (hroom : next + room = points) (hbuffer : buffer.length = points * s.size) :
    Follows (fun x y => x.1 + y.2.1 = points ∧ x.2.1.length = points * s.size ∧
        x.2.1.take (x.1 * s.size) = buffer.take (next * s.size) ++ s.bytes y.1 ∧ x.2.2.At y.2.2)
      (clusters s points count next r buffer)
      (Hierarchical.readClusters s points count room c) := by
  induction count generalizing next room r c buffer with
  | zero => exact .ok ⟨hroom, hbuffer, by simp [Schema.bytes], hat⟩
  | succ count ih =>
    unfold clusters Hierarchical.readClusters
    refine (Reader.varint_follows hat).bind ?_
    rintro ⟨held, r⟩ ⟨_, c⟩ ⟨rfl, hat⟩
    -- The machine takes the room from the next point, the reader of lists counts it down.
    have hsub : sub points next = .ok room := by
      rw [sub_eq (by omega)]
      congr 1
      omega
    simp only [hsub, Result.ok_bind, Result.throw_eq, Result.error_bind, refuse_bind]
    refine Follows.check _ Iff.rfl fun hcount => ?_
    simp only [Bool.or_eq_true, decide_eq_true_eq, not_or, Nat.not_lt] at hcount
    -- The cluster ends with the points at the latest, so its place in the buffer is in range.
    have hstop : (next + held) * s.size ≤ points * s.size :=
      Nat.mul_le_mul_right _ (by omega)
    have hsplit : (next + held) * s.size = next * s.size + held * s.size := Nat.add_mul _ _ _
    have hpoints : points ≤ points * s.size := Nat.le_mul_of_pos_right _ s.size_pos
    rw [add_eq (by omega), Result.ok_bind, mul_eq (by omega), Result.ok_bind, mul_eq (by omega),
      Result.ok_bind, slice_eq (by omega) (by omega), Result.ok_bind]
    have hcluster : ((buffer.drop (next * s.size)).take
        ((next + held) * s.size - next * s.size)).length = held * s.size := by
      rw [List.length_take, List.length_drop]
      omega
    have hnil : ∀ c, Hierarchical.readColumns held [] c = .ok ([], c) := fun _ => rfl
    have hfill := fillColumns_follows (clusterColumn_fills input s (by omega) (by omega)) hnil
      (fun _ _ _ => rfl) hat _ (by omega) hcluster
    refine hfill.bind_of_eq ?_
    rintro ⟨cluster, r⟩ ⟨columns, c⟩ hcolumns ⟨rfl, hat⟩
    dsimp only at hat ⊢
    obtain ⟨hwidth, hcolumn⟩ := Hierarchical.length_of_readColumns (by omega) hcolumns
    have hlength := s.length_bytes_ofColumns hwidth hcolumn
    -- The points of the cluster take the place they were cut from.
    obtain ⟨hwritten, hwhole⟩ := length_put_back hsplit hlength (by omega : _ ≤ buffer.length)
    have hleft : next + held + (room - held) = points := by omega
    refine (ih hat hleft (hwhole.trans hbuffer)).bind_right ?_
    rintro ⟨next', filled, r⟩ ⟨rows, left, c⟩ _ ⟨hnext, hfilled, htake, hat⟩
    refine .ok ⟨hnext, hfilled, ?_, hat⟩
    dsimp only at htake ⊢
    rw [htake, List.take_left' hwritten, List.append_assoc, Schema.bytes_append]

theorem hierarchical_follows (s : Schema) (points : Nat) {payload : Bytes}
    (hshort : payload.length < 2 ^ 63) :
    Follows Eq (hierarchical s points payload) (Hierarchical.decompress s points payload) := by
  unfold hierarchical Hierarchical.decompress
  refine (Follows.ofReader _).bind_of_eq ?_
  rintro total _ htotal rfl
  refine (Follows.ofReader _).bind_of_eq fun _ _ hreserve _ => ?_
  have hsize : total = points * s.size := (bufferLength_eq_ok_iff.mp htotal).2
  have hroom : points * s.size < 2 ^ 62 := by
    rw [← hsize]
    exact reserve_eq_ok_iff.mp hreserve
  have hzeros : (List.replicate total (0 : UInt8)).length = points * s.size := by
    rw [List.length_replicate, hsize]
  refine (Reader.byte_follows (Reader.at_start hshort)).bind ?_
  rintro ⟨keyBits, r⟩ ⟨_, c⟩ ⟨rfl, hat⟩
  simp only [Result.throw_eq, Result.error_bind, refuse_bind]
  refine Follows.check _ Iff.rfl fun _ => ?_
  refine (Reader.varint_follows hat).bind ?_
  rintro ⟨count, r⟩ ⟨_, c⟩ ⟨rfl, hat⟩
  -- Before the first cluster, all points are left.
  have hnone : 0 + points = points := Nat.zero_add points
  refine (clusters_follows hroom hat hnone hzeros).bind ?_
  rintro ⟨next, buffer, r⟩ ⟨rows, left, c⟩ ⟨hnext, hlength, htake, hat⟩
  dsimp only at hnext hlength htake hat ⊢
  -- The sum of the clusters is checked on both sides: as the next point, and as the room left.
  have hread : points - left = next := by omega
  rw [hread]
  refine Follows.check _ (by omega) fun hleft => ?_
  have hfull : next = points := by
    rw [not_not.mp hleft] at hnext
    exact hnext
  refine (Reader.finish_follows hat _).bind fun _ _ _ => .ok ?_
  rwa [Nat.zero_mul, List.take_zero, List.nil_append, hfull, ← hlength, List.take_length] at htake

end Machine

end PointCloud
