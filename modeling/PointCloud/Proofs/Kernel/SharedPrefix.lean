import Mathlib
import PointCloud.Proofs.Kernel.SharedBits

/-!
# Shared leading bits: the longest prefix and the shortest packing

The bits that all words of a column have set and those that some word has set differ in the highest
bit that is not shared. So what is found from the two is the longest prefix, of the width of the
words, that all words begin with.

Whoever packed the bits, a string that is accepted gives words that agree above the packed bits. So
no more bits are packed for a column than in any other string that holds it.

Main results:

* `SharedBits.agreeOn_iff_le_shared` — words agree in their first bits, up to those they share;
* `SharedBits.unique_le_of_decode` — an accepted string packs the bits that are not shared;
* `SharedBits.longest_prefix_minimal` — all of these together.
-/

namespace PointCloud

namespace SharedBits

variable {size width count k : Nat} {order : ByteOrder} {words : List Nat} {bytes : Bytes}

/-! ## The longest prefix -/

/-- The words of a column begin with the same bits, `k` of them. -/
def AgreeOn (width k : Nat) (words : List Nat) : Prop :=
  ∀ v ∈ words, ∀ w ∈ words, v / 2 ^ (width - k) = w / 2 ^ (width - k)

theorem div_two_pow_div {n low high : Nat} (h : low ≤ high) :
    n / 2 ^ low / 2 ^ (high - low) = n / 2 ^ high := by
  rw [Nat.div_div_eq_div_mul, ← Nat.pow_add, Nat.add_sub_cancel' h]

/-- The words agree in their first bits, up to those that are shared. -/
theorem agreeOn_iff_le_shared (hfits : ∀ w ∈ words, w < 2 ^ width) (hk : k ≤ width) :
    AgreeOn width k words ↔ k ≤ shared width words := by
  have hunique := unique_le width words
  unfold shared
  constructor
  · intro hagree
    have hle : unique width words ≤ width - k := by
      refine unique_le_of_agree fun v hv w hw => ?_
      rw [Nat.mod_eq_of_lt (hfits v hv), Nat.mod_eq_of_lt (hfits w hw)]
      exact hagree v hv w hw
    omega
  · intro hle v hv w hw
    -- Both agree with the leading word from the shared bits on.
    have hv' := mod_div_eq width hv
    have hw' := mod_div_eq width hw
    rw [Nat.mod_eq_of_lt (hfits v hv)] at hv'
    rw [Nat.mod_eq_of_lt (hfits w hw), ← hv'] at hw'
    have hlow : unique width words ≤ width - k := by omega
    rw [← div_two_pow_div hlow, ← div_two_pow_div (n := w) hlow, hw']

/-- What is found to be shared is the longest prefix. -/
theorem isGreatest_shared (hfits : ∀ w ∈ words, w < 2 ^ width) :
    IsGreatest {k | k ≤ width ∧ AgreeOn width k words} (shared width words) := by
  have hshared : shared width words ≤ width := Nat.sub_le _ _
  refine ⟨⟨hshared, (agreeOn_iff_le_shared hfits hshared).mpr (Nat.le_refl _)⟩, ?_⟩
  rintro k ⟨hk, hagree⟩
  exact (agreeOn_iff_le_shared hfits hk).mp hagree

theorem unique_nil (width : Nat) : unique width [] = 0 := by
  rw [unique, everywhere, somewhere, Nat.xor_self, Nat.zero_mod]
  rfl

theorem shared_nil (width : Nat) : shared width [] = width := by
  rw [shared, unique_nil, Nat.sub_zero]

theorem leadingWord_nil (width : Nat) : leadingWord width [] = 0 := by
  rw [leadingWord, everywhere, Nat.zero_div, Nat.zero_mul]

/-- The leading word is what every word begins with, with the other bits cleared. -/
theorem leadingWord_eq_of_mem (hfits : ∀ w ∈ words, w < 2 ^ width) {w : Nat} (hw : w ∈ words) :
    leadingWord width words =
      w / 2 ^ (width - shared width words) * 2 ^ (width - shared width words) := by
  have hrest : width - shared width words = unique width words :=
    Nat.sub_sub_self (unique_le width words)
  have hagree := mod_div_eq width hw
  rw [Nat.mod_eq_of_lt (hfits w hw)] at hagree
  rw [hrest, hagree, ← leadingWord_eq]

/-! ## The shortest packing -/

/-- A number that is unpacked has the bits that are packed of it. -/
theorem lt_of_mem_unpack {low : Nat} (h : low ∈ unpack width count bytes) : low < 2 ^ width := by
  obtain ⟨bits, hbits, rfl⟩ := List.mem_map.mp h
  exact Nat.lt_of_lt_of_le (Bits.toNat_lt bits)
    (Nat.pow_le_pow_right (by decide) (length_le_of_mem_cut hbits))

/-- An accepted string packs the bits that are not shared, or more. -/
theorem unique_le_of_decode (h : decode size order count bytes = .ok words) :
    ∃ (width : UInt8) (leading packed : Bytes), bytes = width :: (leading ++ packed) ∧
      leading.length = size ∧ packed.length = (words.length * width.toNat + 7) / 8 ∧
      unique (8 * size) words ≤ width.toNat ∧ ∀ w ∈ words, w < 2 ^ (8 * size) := by
  obtain ⟨width, leading, packed, rfl, hwidth, hleading, hpacked, -, -, rfl⟩ :=
    decode_eq_ok_iff.mp h
  have hlead : order.word leading < 2 ^ (8 * size) := by
    have hlt := order.word_lt leading
    rwa [hleading, ← two_pow_eight_mul] at hlt
  refine ⟨width, leading, packed, rfl, hleading, ?_, unique_le_of_agree ?_, ?_⟩
  · rw [hpacked, List.length_map, length_unpack]
  · -- Above the packed bits, every word is the leading word.
    have habove : ∀ v ∈ (unpack width.toNat count packed).map (order.word leading ||| ·),
        v % 2 ^ (8 * size) / 2 ^ width.toNat = order.word leading / 2 ^ width.toNat := by
      intro v hv
      obtain ⟨low, hlow, rfl⟩ := List.mem_map.mp hv
      have hlt := lt_of_mem_unpack hlow
      have hfits := Nat.or_lt_two_pow hlead
        (Nat.lt_of_lt_of_le hlt (Nat.pow_le_pow_right (by decide) hwidth))
      rw [Nat.mod_eq_of_lt hfits, Nat.or_div_two_pow, Nat.div_eq_of_lt hlt, Nat.or_zero]
    intro v hv w hw
    rw [habove v hv, habove w hw]
  · intro w hw
    obtain ⟨low, hlow, rfl⟩ := List.mem_map.mp hw
    exact Nat.or_lt_two_pow hlead
      (Nat.lt_of_lt_of_le (lt_of_mem_unpack hlow) (Nat.pow_le_pow_right (by decide) hwidth))

/-- Bits that are packed come to no fewer bytes if more of them are packed of each word. -/
theorem packed_mono {few many : Nat} (count : Nat) (h : few ≤ many) :
    (count * few + 7) / 8 ≤ (count * many + 7) / 8 :=
  Nat.div_le_div_right (Nat.add_le_add_right (Nat.mul_le_mul_left count h) 7)

/-- What is written is as long as the analysis says. -/
theorem length_of_encode (hfits : ∀ w ∈ words, w < 2 ^ (8 * size))
    (h : encode size order words = .ok bytes) : bytes.length = encodedSize size words := by
  rw [encode_eq_ok hfits] at h
  rw [← Except.ok.inj h, List.cons_append, List.length_cons, List.length_append,
    ByteOrder.length_bytes, length_pack, encodedSize]
  omega

/-! ## Every column -/

/-- The bits that are found to be shared are the most that all words begin with, and the leading
word is what they begin with; an empty column shares all. A column of words that fit is always
written, in as many bytes as the analysis says, and read back, as far as its bits can be counted and
its words be held. What is accepted has as many words as are expected, of the size that is expected,
and what is written for them is no longer. -/
theorem longest_prefix_minimal (size : Nat) (order : ByteOrder) (hsize : size ≤ 8) :
    (∀ words, (∀ w ∈ words, w < 2 ^ (8 * size)) →
      IsGreatest {k | k ≤ 8 * size ∧ AgreeOn (8 * size) k words} (shared (8 * size) words) ∧
      (∀ w ∈ words, leadingWord (8 * size) words =
        w / 2 ^ (8 * size - shared (8 * size) words) *
          2 ^ (8 * size - shared (8 * size) words)) ∧
      (words = [] → shared (8 * size) words = 8 * size ∧ leadingWord (8 * size) words = 0) ∧
      ∃ bytes, encode size order words = .ok bytes ∧ bytes.length = encodedSize size words ∧
        (decode size order words.length bytes =
          if words.length * unique (8 * size) words < 2 ^ 64 then
            reserve (8 * words.length) >>= fun _ => .ok words
          else .error (.kernel .sharedBits)) ∧
        (words.length < 2 ^ 58 → decode size order words.length bytes = .ok words)) ∧
    (∀ n bytes words, decode size order n bytes = .ok words →
      words.length = n ∧ (∀ w ∈ words, w < 2 ^ (8 * size)) ∧
        ∃ best, encode size order words = .ok best ∧ best.length ≤ bytes.length) := by
  constructor
  · -- what is written
    intro words hfits
    refine ⟨isGreatest_shared hfits, ?_, ?_, ?_⟩
    · intro w hw
      exact leadingWord_eq_of_mem hfits hw
    · rintro rfl
      exact ⟨shared_nil (8 * size), leadingWord_nil (8 * size)⟩
    · have hencode : encode size order words = .ok _ := encode_eq_ok hfits
      refine ⟨_, hencode, length_of_encode hfits hencode, decode_encode_eq hsize hfits hencode, ?_⟩
      intro hcount
      exact decode_of_encode hsize hfits hcount hencode
  · -- what is accepted
    intro n bytes words h
    obtain ⟨width, leading, packed, rfl, hleading, hpacked, hunique, hfits⟩ :=
      unique_le_of_decode h
    obtain ⟨best, hbest⟩ : ∃ best, encode size order words = .ok best := ⟨_, encode_eq_ok hfits⟩
    refine ⟨length_words_of_decode h, hfits, best, hbest, ?_⟩
    -- Both have a width and a leading word, and behind them the packed bits.
    have hmono := packed_mono words.length hunique
    rw [length_of_encode hfits hbest, encodedSize, List.length_cons, List.length_append]
    omega

/-- Words of eight bytes that share no bit: all their bits are packed, and they are read back. -/
theorem longest_prefix_minimal_full :
    (8 ≤ 8 ∧ ∀ w ∈ [0, 2 ^ 63], w < 2 ^ (8 * 8)) ∧ shared 64 [0, 2 ^ 63] = 0 ∧
    IsGreatest {k | k ≤ 64 ∧ AgreeOn 64 k [0, 2 ^ 63]} 0 ∧
    ∃ bytes, encode 8 .little [0, 2 ^ 63] = .ok bytes ∧ bytes.length = 25 ∧
      decode 8 .little 2 bytes = .ok [0, 2 ^ 63] := by
  have hfits : ∀ w ∈ [0, 2 ^ 63], w < 2 ^ (8 * 8) := by decide
  have hshared : shared 64 [0, 2 ^ 63] = 0 := by decide +kernel
  have hsize : encodedSize 8 [0, 2 ^ 63] = 25 := by decide +kernel
  obtain ⟨hgreatest, -, -, bytes, hbytes, hlength, -, hdecode⟩ :=
    (longest_prefix_minimal 8 .little (by decide)).1 [0, 2 ^ 63] hfits
  rw [hshared] at hgreatest
  rw [hsize] at hlength
  exact ⟨⟨by decide, hfits⟩, hshared, hgreatest, bytes, hbytes, hlength, hdecode (by decide)⟩

end SharedBits

end PointCloud
