import Mathlib
import PointCloud.Kernel.SharedBits
import PointCloud.Proofs.Result

/-!
# Shared leading bits: round trip

The words of a column differ in their low `unique` bits only, so each is the leading word with its
own low bits put in. A column whose words fit their size is therefore never refused, and what is
written reads back.

Main results:

* `SharedBits.mod_div_eq` — all words of a column agree above the bits that are not shared;
* `SharedBits.encode_eq_ok` — a column of words that fit is always written;
* `SharedBits.decode_eq_ok_iff` — which strings are accepted, and as what;
* `SharedBits.decode_of_encode` — a written column is read back;
* `SharedBits.decode_header_order` — only the leading word is read in a byte order.
-/

namespace PointCloud

namespace SharedBits

/-! ## The bits that are not shared -/

theorem lt_two_pow_bitLength (n : Nat) : n < 2 ^ bitLength n := by
  unfold bitLength
  split
  · omega
  · exact Nat.lt_log2_self

theorem bitLength_le {n width : Nat} (h : n < 2 ^ width) : bitLength n ≤ width := by
  unfold bitLength
  split
  · omega
  · rename_i hn
    exact (Nat.log2_lt hn).mpr h

theorem testBit_foldl_and (w i : Nat) (ws : List Nat) :
    (ws.foldl (· &&& ·) w).testBit i = (w.testBit i && ws.all fun v => v.testBit i) := by
  induction ws generalizing w with
  | nil => simp
  | cons v ws ih => rw [List.foldl_cons, ih, Nat.testBit_and, List.all_cons, Bool.and_assoc]

theorem testBit_foldl_or (w i : Nat) (ws : List Nat) :
    (ws.foldl (· ||| ·) w).testBit i = (w.testBit i || ws.any fun v => v.testBit i) := by
  induction ws generalizing w with
  | nil => simp
  | cons v ws ih => rw [List.foldl_cons, ih, Nat.testBit_or, List.any_cons, Bool.or_assoc]

variable {width i k w : Nat} {words : List Nat}

theorem testBit_everywhere (hne : words ≠ []) :
    (everywhere width words).testBit i = true ↔
      i < width ∧ ∀ w ∈ words, w.testBit i = true := by
  cases words with
  | nil => exact absurd rfl hne
  | cons w ws =>
    rw [everywhere, testBit_foldl_and, Nat.testBit_mod_two_pow]
    simp [and_assoc]

theorem testBit_somewhere (hi : i < width) :
    (somewhere width words).testBit i = true ↔ ∃ w ∈ words, w.testBit i = true := by
  cases words with
  | nil => simp [somewhere]
  | cons w ws =>
    rw [somewhere, testBit_foldl_or, Nat.testBit_mod_two_pow]
    simp [hi]

theorem everywhere_lt (width : Nat) (words : List Nat) : everywhere width words < 2 ^ width := by
  cases words with
  | nil => exact Nat.two_pow_pos width
  | cons w ws =>
    refine Nat.lt_pow_two_of_testBit _ fun i hi => ?_
    by_contra hbit
    rw [Bool.not_eq_false, testBit_everywhere (List.cons_ne_nil w ws)] at hbit
    omega

theorem unique_le (width : Nat) (words : List Nat) : unique width words ≤ width :=
  bitLength_le (Nat.mod_lt _ (Nat.two_pow_pos width))

/-- Above the bits that are not shared, a bit that some word has set is set in every word. -/
theorem testBit_eq_everywhere (hw : w ∈ words) (hi : i < width) (hunique : unique width words ≤ i) :
    w.testBit i = (everywhere width words).testBit i := by
  have hne : words ≠ [] := List.ne_nil_of_mem hw
  have hlt := lt_two_pow_bitLength ((everywhere width words ^^^ somewhere width words) % 2 ^ width)
  have hsame := Nat.testBit_lt_two_pow
    (Nat.lt_of_lt_of_le hlt (Nat.pow_le_pow_right (by decide) hunique))
  rw [Nat.testBit_mod_two_pow, decide_eq_true hi, Bool.true_and, Nat.testBit_xor,
    bne_eq_false_iff_eq] at hsame
  -- What the word has set is set somewhere, and what is set everywhere is set in the word.
  rw [Bool.eq_iff_iff]
  constructor
  · intro hbit
    rw [hsame, testBit_somewhere hi]
    exact ⟨w, hw, hbit⟩
  · intro hbit
    exact ((testBit_everywhere hne).mp hbit).2 w hw

/-- No fewer bits would do: where all words agree from a bit on, they share all bits from there. -/
theorem unique_le_of_agree
    (h : ∀ v ∈ words, ∀ w ∈ words, v % 2 ^ width / 2 ^ k = w % 2 ^ width / 2 ^ k) :
    unique width words ≤ k := by
  refine bitLength_le (Nat.lt_pow_two_of_testBit _ fun i hi => ?_)
  by_cases hwidth : i < width
  · rw [Nat.testBit_mod_two_pow, decide_eq_true hwidth, Bool.true_and, Nat.testBit_xor,
      bne_eq_false_iff_eq, Bool.eq_iff_iff, testBit_somewhere hwidth]
    -- A bit of the words is one of what they agree on.
    have hbits : ∀ v ∈ words, ∀ w ∈ words, v.testBit i = w.testBit i := by
      intro v hv w hw
      have hbit := congrArg (fun n => n.testBit (i - k)) (h v hv w hw)
      simpa only [Nat.testBit_div_two_pow, Nat.sub_add_cancel hi, Nat.testBit_mod_two_pow,
        decide_eq_true hwidth, Bool.true_and] using hbit
    constructor
    · intro hbit
      cases words with
      | nil => simp [everywhere] at hbit
      | cons w ws =>
        exact ⟨w, List.mem_cons_self, ((testBit_everywhere (List.cons_ne_nil w ws)).mp hbit).2 w
          List.mem_cons_self⟩
    · rintro ⟨v, hv, hbit⟩
      rw [testBit_everywhere (List.ne_nil_of_mem hv)]
      exact ⟨hwidth, fun w hw => (hbits w hw v hv).trans hbit⟩
  · rw [Nat.testBit_mod_two_pow, decide_eq_false hwidth, Bool.false_and]

/-- Above the bits that are not shared, every word agrees with the leading word. -/
theorem mod_div_eq (width : Nat) {words : List Nat} {w : Nat} (h : w ∈ words) :
    w % 2 ^ width / 2 ^ unique width words =
      leadingWord width words / 2 ^ unique width words := by
  rw [leadingWord, Nat.mul_div_cancel _ (Nat.two_pow_pos _)]
  refine Nat.eq_of_testBit_eq fun i => ?_
  rw [Nat.testBit_div_two_pow, Nat.testBit_div_two_pow, Nat.testBit_mod_two_pow]
  by_cases hi : i + unique width words < width
  · rw [decide_eq_true hi, Bool.true_and]
    exact testBit_eq_everywhere h hi (Nat.le_add_left _ _)
  · -- Neither has bits past the width.
    have hsmall : everywhere width words < 2 ^ (i + unique width words) :=
      Nat.lt_of_lt_of_le (everywhere_lt width words)
        (Nat.pow_le_pow_right (by decide) (Nat.le_of_not_lt hi))
    rw [decide_eq_false hi, Bool.false_and, Nat.testBit_lt_two_pow hsmall]

/-- The leading word ends in as many zeros as there are bits that are not shared. -/
theorem leadingWord_eq (width : Nat) (words : List Nat) :
    leadingWord width words =
      leadingWord width words / 2 ^ unique width words * 2 ^ unique width words := by
  rw [leadingWord, Nat.mul_div_cancel _ (Nat.two_pow_pos _)]

theorem leadingWord_lt (width : Nat) (words : List Nat) : leadingWord width words < 2 ^ width :=
  Nat.lt_of_le_of_lt (Nat.div_mul_le_self _ _) (everywhere_lt width words)

/-- A word that fits is the leading word with its own low bits in the place of zeros. -/
theorem leadingWord_or_mod {width : Nat} {words : List Nat} {w : Nat} (h : w ∈ words)
    (hfits : w < 2 ^ width) :
    leadingWord width words ||| w % 2 ^ unique width words = w := by
  have hagree := mod_div_eq width h
  rw [Nat.mod_eq_of_lt hfits] at hagree
  rw [leadingWord_eq, ← hagree, Nat.mul_comm, ← Nat.two_pow_add_eq_or_of_lt
    (Nat.mod_lt _ (Nat.two_pow_pos _)), Nat.div_add_mod]

theorem length_unpack (width count : Nat) (bytes : Bytes) :
    (unpack width count bytes).length = count := by
  rw [unpack, List.length_map, length_cut]

/-! ## Round trip -/

theorem encode_eq_ok {size : Nat} {order : ByteOrder} {words : List Nat}
    (hfits : ∀ w ∈ words, w < 2 ^ (8 * size)) :
    encode size order words =
      .ok (UInt8.ofNat (unique (8 * size) words) ::
        order.bytes size (leadingWord (8 * size) words) ++
          pack (unique (8 * size) words) words) := by
  simp only [encode]
  split
  · rename_i hzero
    -- Without bits to pack nothing is written behind the leading word.
    have hpack : pack (unique (8 * size) words) words = [] := by
      apply List.eq_nil_of_length_eq_zero
      rw [length_pack, hzero]
      simp
    simp [hpack]
  · -- No word disagrees with the leading word, so none is refused.
    have hnone : words.find? (fun w => w / 2 ^ unique (8 * size) words *
        2 ^ unique (8 * size) words ≠ leadingWord (8 * size) words) = none := by
      rw [List.find?_eq_none]
      intro w hw
      have hagree := mod_div_eq (8 * size) hw
      rw [Nat.mod_eq_of_lt (hfits w hw)] at hagree
      simp only [hagree, ← leadingWord_eq, ne_eq, not_true_eq_false, decide_false,
        Bool.false_eq_true, not_false_eq_true]
    rw [hnone]

/-- What is read of a width, a leading word and packed bits that come to the count of words. -/
theorem decode_eq {size count : Nat} {order : ByteOrder} {width : UInt8} {leading packed : Bytes}
    (hwidth : width.toNat ≤ 8 * size) (hleading : leading.length = size)
    (hpacked : packed.length = (count * width.toNat + 7) / 8) :
    decode size order count (width :: (leading ++ packed)) =
      if count * width.toNat < 2 ^ 64 then
        reserve (8 * count) >>= fun _ =>
          .ok ((unpack width.toNat count packed).map (order.word leading ||| ·))
      else .error (.kernel .sharedBits) := by
  have hguard : ¬(8 * size < width.toNat ∨ (leading ++ packed).length < size) := by
    rw [List.length_append]
    omega
  simp only [decode, Bool.or_eq_true, decide_eq_true_eq, hguard, if_false]
  rw [List.take_left' hleading, List.drop_left' hleading]
  by_cases hbits : count * width.toNat < 2 ^ 64
  · rw [if_pos hbits, if_neg (by omega)]
    rfl
  · rw [if_neg hbits, if_pos (.inl (Nat.le_of_not_lt hbits))]
    rfl

/-- Accepted are a width that the words have room for, a leading word, and as many bytes of packed
bits as the count of words calls for. -/
theorem decode_eq_ok_iff {size count : Nat} {order : ByteOrder} {words : List Nat} {bytes : Bytes} :
    decode size order count bytes = .ok words ↔
      ∃ (width : UInt8) (leading packed : Bytes), bytes = width :: (leading ++ packed) ∧
        width.toNat ≤ 8 * size ∧ leading.length = size ∧
        packed.length = (count * width.toNat + 7) / 8 ∧ count * width.toNat < 2 ^ 64 ∧
        reserve (8 * count) = .ok () ∧
        words = (unpack width.toNat count packed).map (order.word leading ||| ·) := by
  constructor
  · intro h
    cases bytes with
    | nil => cases h
    | cons width bytes =>
      unfold decode at h
      simp only [Result.throw_eq, Result.error_bind] at h
      obtain ⟨hheader, h⟩ := Result.check_eq_ok_iff.mp h
      obtain ⟨hlength, h⟩ := Result.check_eq_ok_iff.mp h
      obtain ⟨⟨⟩, hroom, h⟩ := Result.bind_eq_ok_iff.mp h
      simp only [Bool.or_eq_true, decide_eq_true_eq, not_or, Nat.not_lt, Nat.not_le, ne_eq,
        not_not] at hheader hlength
      exact ⟨width, bytes.take size, bytes.drop size, by rw [List.take_append_drop], hheader.1,
        List.length_take_of_le hheader.2, hlength.2, hlength.1, hroom, (Except.ok.inj h).symm⟩
  · rintro ⟨width, leading, packed, rfl, hwidth, hleading, hpacked, hbits, hroom, rfl⟩
    rw [decode_eq hwidth hleading hpacked, if_pos hbits, hroom, Result.ok_bind]

theorem length_words_of_decode {size count : Nat} {order : ByteOrder} {words : List Nat}
    {bytes : Bytes} (h : decode size order count bytes = .ok words) : words.length = count := by
  obtain ⟨_, _, _, -, -, -, -, -, -, rfl⟩ := decode_eq_ok_iff.mp h
  rw [List.length_map, length_unpack]

/-- A written column is read back, as far as its bits can be counted and its words be held. -/
theorem decode_encode_eq {size : Nat} {order : ByteOrder} {words : List Nat} {bytes : Bytes}
    (hsize : size ≤ 8) (hfits : ∀ w ∈ words, w < 2 ^ (8 * size))
    (h : encode size order words = .ok bytes) :
    decode size order words.length bytes =
      if words.length * unique (8 * size) words < 2 ^ 64 then
        reserve (8 * words.length) >>= fun _ => .ok words
      else .error (.kernel .sharedBits) := by
  rw [encode_eq_ok hfits, Except.ok.injEq] at h
  have hunique := unique_le (8 * size) words
  have hlead := leadingWord_lt (8 * size) words
  have hwords : ∀ w ∈ words, leadingWord (8 * size) words ||| w % 2 ^ unique (8 * size) words = w :=
    fun w hw => leadingWord_or_mod hw (hfits w hw)
  -- From here on only the bounds of the two matter, not how they are found.
  generalize unique (8 * size) words = u at *
  generalize leadingWord (8 * size) words = leading at *
  have hbyte : (UInt8.ofNat u).toNat = u := by
    rw [UInt8.toNat_ofNat']
    omega
  have hleading : order.word (order.bytes size leading) = leading := by
    rw [ByteOrder.word_bytes, ← two_pow_eight_mul, Nat.mod_eq_of_lt hlead]
  have hbody : (words.map (· % 2 ^ u)).map (leading ||| ·) = words := by
    rw [List.map_map]
    conv => rhs; rw [← List.map_id words]
    exact List.map_congr_left hwords
  rw [← h, List.cons_append, decode_eq (by rwa [hbyte]) (ByteOrder.length_bytes _ _ _)
    (by rw [hbyte, length_pack]), hbyte, hleading, unpack_pack, hbody]

theorem decode_of_encode {size : Nat} {order : ByteOrder} {words : List Nat} {bytes : Bytes}
    (hsize : size ≤ 8) (hfits : ∀ w ∈ words, w < 2 ^ (8 * size)) (hcount : words.length < 2 ^ 58)
    (h : encode size order words = .ok bytes) :
    decode size order words.length bytes = .ok words := by
  have hunique := unique_le (8 * size) words
  have hbits : words.length * unique (8 * size) words < 2 ^ 64 := by
    have := Nat.mul_le_mul_left words.length (show unique (8 * size) words ≤ 64 by omega)
    omega
  rw [decode_encode_eq hsize hfits h, if_pos hbits, reserve_eq_ok_iff.mpr (by omega),
    Result.ok_bind]

/-! ## Byte orders -/

/-- What stands behind the leading word is read without regard to the byte order. -/
theorem decode_header_order {size : Nat} {order other : ByteOrder} (width : UInt8)
    (leading count : Nat) (packed : Bytes) :
    decode size order count (width :: order.bytes size leading ++ packed) =
      decode size other count (width :: other.bytes size leading ++ packed) := by
  simp only [List.cons_append, decode]
  rw [List.take_left' (by simp), List.take_left' (by simp), List.drop_left' (by simp),
    List.drop_left' (by simp), ByteOrder.word_bytes, ByteOrder.word_bytes, List.length_append,
    List.length_append, ByteOrder.length_bytes, ByteOrder.length_bytes]

theorem length_encode_order {size : Nat} (order other : ByteOrder) {words : List Nat}
    (hfits : ∀ w ∈ words, w < 2 ^ (8 * size)) :
    (encode size order words).map List.length = (encode size other words).map List.length := by
  rw [encode_eq_ok hfits, encode_eq_ok hfits]
  simp [Except.map]

theorem decode_encode_order {size : Nat} {order other : ByteOrder} {words : List Nat}
    {bytes bytes' : Bytes} (hfits : ∀ w ∈ words, w < 2 ^ (8 * size)) (count : Nat)
    (h : encode size order words = .ok bytes) (h' : encode size other words = .ok bytes') :
    decode size order count bytes = decode size other count bytes' := by
  rw [encode_eq_ok hfits, Except.ok.injEq] at h h'
  rw [← h, ← h']
  exact decode_header_order _ _ count _

end SharedBits

end PointCloud
