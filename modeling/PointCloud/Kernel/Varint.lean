import PointCloud.Bytes.Numeral
import PointCloud.Error

/-!
# Variable-length integers

A number is written in groups of seven bits, the lowest first; every byte but the last has its high
bit set. A reader is given the width of the number it expects and refuses groups with bits beyond
it, also a continuation past the last group that could hold any.

Main results:

* `Varint.read_cons` — a number is its first group and, seven bits higher, the groups after it;
* `Varint.read_write` — reading what was written gives the number and leaves what follows.
-/

namespace PointCloud

namespace Varint

/-- The bytes of a number. -/
def write (n : Nat) : Bytes :=
  if n < 128 then [UInt8.ofNat n] else UInt8.ofNat (128 + n % 128) :: write (n / 128)

/-- Reads the groups of a number of `bits` bits from the front, with the bytes after them. The
groups before came to `result`, and the next one stands `shift` bits above the first. -/
def readFrom (bits shift result : Nat) : Bytes → Except VarintFault (Nat × Bytes)
  | [] => .error .unexpectedEnd
  | b :: rest =>
    let group := b.toNat % 128
    if bits ≤ shift then .error .overflow
    -- The last group may only set bits that the number has.
    else if bits < shift + 7 && 0 < group >>> (bits - shift) then .error .overflow
    else
      let result := result ||| group <<< shift % 2 ^ bits
      if b.toNat < 128 then .ok (result, rest) else readFrom bits (shift + 7) result rest

/-- Reads a number of at most `bits` bits from the front, with the bytes after it. -/
def read (bits : Nat) (bytes : Bytes) : Except VarintFault (Nat × Bytes) := readFrom bits 0 0 bytes

/-- The bytes of a list of numbers. -/
def writeAll (ns : List Nat) : Bytes := ns.flatMap write

/-- Reads `count` numbers from the front, with the bytes after them. -/
def readMany (bits : Nat) : Nat → Bytes → Except VarintFault (List Nat × Bytes)
  | 0, bytes => .ok ([], bytes)
  | count + 1, bytes => do
    let (n, bytes) ← read bits bytes
    let (ns, bytes) ← readMany bits count bytes
    .ok (n :: ns, bytes)

/-- Reads exactly `count` numbers. A number takes a byte at least, so a count past the length is
refused at once. -/
def readAll (bits count : Nat) (bytes : Bytes) : Except VarintFault (List Nat) :=
  if bytes.length < count then .error (.tooFewBytes count bytes.length)
  else do
    let (ns, rest) ← readMany bits count bytes
    if rest.isEmpty then .ok ns else .error .trailingBytes

/-! ## Groups -/

/-- A group has bits past the end of a number exactly if it is too great for what is left of it. -/
theorem excess_iff (bits shift : Nat) {group : Nat} (hgroup : group < 128) :
    (bits < shift + 7 && 0 < group >>> (bits - shift)) = true ↔ 2 ^ (bits - shift) ≤ group := by
  rw [Bool.and_eq_true, decide_eq_true_eq, decide_eq_true_eq, Nat.shiftRight_eq_div_pow,
    Nat.div_pos_iff]
  constructor
  · exact fun h => h.2.2
  · intro h
    refine ⟨Nat.lt_of_not_le fun hwide => ?_, Nat.two_pow_pos _, h⟩
    -- Where seven bits are left or more, every group fits.
    have hpow : 2 ^ 7 ≤ 2 ^ (bits - shift) := Nat.pow_le_pow_right (by decide) (by omega)
    omega

/-- A group that fits goes above the groups before it, and none of its bits is lost. -/
theorem or_group {bits shift result group : Nat} (hresult : result < 2 ^ shift)
    (hshift : shift ≤ bits) (hgroup : group < 2 ^ (bits - shift)) :
    result ||| group <<< shift % 2 ^ bits = result + 2 ^ shift * group := by
  have hpart : group * 2 ^ shift < 2 ^ bits := by
    calc group * 2 ^ shift < 2 ^ (bits - shift) * 2 ^ shift :=
          Nat.mul_lt_mul_of_pos_right hgroup (Nat.two_pow_pos _)
      _ = 2 ^ bits := by rw [← Nat.pow_add, Nat.sub_add_cancel hshift]
  rw [Nat.shiftLeft_eq, Nat.mod_eq_of_lt hpart, Nat.or_comm, Nat.mul_comm,
    ← Nat.two_pow_add_eq_or_of_lt hresult, Nat.add_comm]

/-- What is put above a number of `shift` bits. -/
theorem add_group_lt {shift more result group : Nat} (hresult : result < 2 ^ shift)
    (hgroup : group < 2 ^ more) : result + 2 ^ shift * group < 2 ^ (shift + more) := by
  calc result + 2 ^ shift * group < 2 ^ shift + 2 ^ shift * group := Nat.add_lt_add_right hresult _
    _ = 2 ^ shift * (group + 1) := by rw [Nat.mul_add, Nat.mul_one, Nat.add_comm]
    _ ≤ 2 ^ shift * 2 ^ more := Nat.mul_le_mul_left _ hgroup
    _ = 2 ^ (shift + more) := (Nat.pow_add 2 shift more).symm

/-- A group that fits is added above the groups before it. -/
theorem readFrom_cons {bits shift result : Nat} (hresult : result < 2 ^ shift) (b : UInt8)
    (rest : Bytes) :
    readFrom bits shift result (b :: rest) =
      if bits ≤ shift ∨ 2 ^ (bits - shift) ≤ b.toNat % 128 then .error .overflow
      else if b.toNat < 128 then .ok (result + 2 ^ shift * (b.toNat % 128), rest)
      else readFrom bits (shift + 7) (result + 2 ^ shift * (b.toNat % 128)) rest := by
  have hexcess := excess_iff bits shift (Nat.mod_lt b.toNat (by decide : 0 < 128))
  rw [readFrom]
  dsimp only
  by_cases hend : bits ≤ shift
  · rw [if_pos hend, if_pos (.inl hend)]
  rw [if_neg hend]
  by_cases hwide : 2 ^ (bits - shift) ≤ b.toNat % 128
  · rw [if_pos (hexcess.mpr hwide), if_pos (.inr hwide)]
  · rw [if_neg (mt hexcess.mp hwide), if_neg (not_or.mpr ⟨hend, hwide⟩),
      or_group hresult (Nat.le_of_not_le hend) (Nat.lt_of_not_le hwide)]

/-- Below the groups of a number there may stand another number. -/
theorem readFrom_add {bits low width shift result : Nat} (hlow : low < 2 ^ width)
    (hresult : result < 2 ^ shift) (bytes : Bytes) :
    readFrom bits (width + shift) (low + 2 ^ width * result) bytes =
      readFrom (bits - width) shift result bytes >>= fun x =>
        .ok (low + 2 ^ width * x.1, x.2) := by
  induction bytes generalizing shift result with
  | nil => rfl
  | cons b rest ih =>
    have hgroup : b.toNat % 128 < 2 ^ 7 := Nat.mod_lt _ (by decide)
    have hend : bits ≤ width + shift ↔ bits - width ≤ shift := by omega
    -- On either side the group is added above what came before it.
    have hsum : low + 2 ^ width * result + 2 ^ (width + shift) * (b.toNat % 128) =
        low + 2 ^ width * (result + 2 ^ shift * (b.toNat % 128)) := by
      rw [Nat.pow_add, Nat.mul_add, Nat.mul_assoc, Nat.add_assoc]
    rw [readFrom_cons (add_group_lt hlow hresult), readFrom_cons hresult, hsum]
    simp only [hend, Nat.sub_sub]
    split
    · rfl
    · split
      · rfl
      · rw [Nat.add_assoc]
        exact ih (add_group_lt hresult hgroup)

/-! ## Laws -/

/-- A number is its first group and, seven bits higher, the number that is read after it. -/
theorem read_cons (bits : Nat) (b : UInt8) (rest : Bytes) :
    read bits (b :: rest) =
      if bits = 0 ∨ 2 ^ bits ≤ b.toNat % 128 then .error .overflow
      else if b.toNat < 128 then .ok (b.toNat % 128, rest)
      else read (bits - 7) rest >>= fun x => .ok (b.toNat % 128 + 128 * x.1, x.2) := by
  have hgroup : b.toNat % 128 < 2 ^ 7 := Nat.mod_lt _ (by decide)
  rw [read, readFrom_cons (by decide)]
  simp only [Nat.le_zero, Nat.sub_zero, Nat.pow_zero, Nat.one_mul, Nat.zero_add]
  split
  · rfl
  · split
    · rfl
    · exact readFrom_add hgroup (by decide : 0 < 2 ^ 0) rest

theorem read_write (bits n : Nat) (rest : Bytes) (h : n < 2 ^ bits) (hb : 0 < bits) :
    read bits (write n ++ rest) = .ok (n, rest) := by
  induction n using Nat.strongRecOn generalizing bits with
  | ind n ih =>
    rw [write]
    split
    · rename_i small
      have hbyte : (UInt8.ofNat n).toNat = n := by
        rw [UInt8.toNat_ofNat']; omega
      have hmod : n % 128 = n := Nat.mod_eq_of_lt small
      rw [List.singleton_append, read_cons, hbyte, hmod, if_neg (by omega), if_pos small]
    · rename_i big
      have hbyte : (UInt8.ofNat (128 + n % 128)).toNat = 128 + n % 128 := by
        rw [UInt8.toNat_ofNat']; omega
      have hwide : 7 < bits := by
        rcases Nat.lt_or_ge 7 bits with h7 | h7
        · exact h7
        · have : 2 ^ bits ≤ 2 ^ 7 := Nat.pow_le_pow_right (by decide) h7
          omega
      have hhigh : n / 128 < 2 ^ (bits - 7) := by
        have hp : 2 ^ bits = 2 ^ (bits - 7) * 128 := by
          rw [show (128 : Nat) = 2 ^ 7 from rfl, ← Nat.pow_add]
          congr 1
          omega
        rw [hp] at h
        omega
      have hgroup : ¬ 2 ^ bits ≤ n % 128 := by
        have : 2 ^ 7 ≤ 2 ^ bits := Nat.pow_le_pow_right (by decide) (by omega)
        omega
      have hmod : (128 + n % 128) % 128 = n % 128 := by omega
      have hrest := ih (n / 128) (by omega) (bits - 7) hhigh (by omega)
      have hsum : n % 128 + 128 * (n / 128) = n := Nat.mod_add_div n 128
      rw [List.cons_append, read_cons, hbyte, hmod, if_neg (by omega), if_neg (by omega), hrest]
      show Except.ok (n % 128 + 128 * (n / 128), rest) = .ok (n, rest)
      rw [hsum]

end Varint

end PointCloud
