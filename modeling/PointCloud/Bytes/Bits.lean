import PointCloud.Bytes.Numeral
import PointCloud.Bytes.Pieces

/-!
# Bit strings

Bits are taken least significant first, both inside a number and inside a byte, so a number of any
width can straddle bytes. A bit string that does not fill its last byte is padded with zeros.

Main results:

* `Bits.toNat_ofNat` — a number written in `width` bits reads back modulo `2 ^ width`;
* `Bits.ofNat_toNat` — the bits of the number that bits write are those bits;
* `Bits.exists_ofBytes_toBytes` — packing into bytes adds nothing but padding at the end.
-/

namespace PointCloud

namespace Bits

/-- The low `width` bits of a number. -/
def ofNat : Nat → Nat → List Bool
  | 0, _ => []
  | width + 1, n => (n % 2 == 1) :: ofNat width (n / 2)

/-- The number written by a bit string. -/
def toNat : List Bool → Nat
  | [] => 0
  | b :: bits => b.toNat + 2 * toNat bits

/-- The bits of a byte string. -/
def ofBytes (bytes : Bytes) : List Bool := bytes.flatMap fun b => ofNat 8 b.toNat

/-- The bytes of a bit string, the last one padded with zeros. -/
def toBytes (bits : List Bool) : Bytes :=
  (cut 8 ((bits.length + 7) / 8) bits).map fun piece => UInt8.ofNat (toNat piece)

@[simp] theorem length_ofNat (width n : Nat) : (ofNat width n).length = width := by
  induction width generalizing n with
  | zero => rfl
  | succ width ih => simp [ofNat, ih]

@[simp] theorem length_ofBytes (bytes : Bytes) : (ofBytes bytes).length = 8 * bytes.length := by
  induction bytes with
  | nil => rfl
  | cons b bytes ih =>
    simp only [ofBytes, List.flatMap_cons, List.length_append, length_ofNat, List.length_cons] at *
    omega

@[simp] theorem length_toBytes (bits : List Bool) :
    (toBytes bits).length = (bits.length + 7) / 8 := by
  simp [toBytes]

theorem toNat_lt (bits : List Bool) : toNat bits < 2 ^ bits.length := by
  induction bits with
  | nil => simp [toNat]
  | cons b bits ih =>
    have := b.toNat_le
    simp only [toNat, List.length_cons, Nat.pow_succ]
    omega

theorem toNat_ofNat (width n : Nat) : toNat (ofNat width n) = n % 2 ^ width := by
  induction width generalizing n with
  | zero => simp [ofNat, toNat, Nat.mod_one]
  | succ width ih =>
    have hbit : (n % 2 == 1).toNat = n % 2 := by
      rcases Nat.mod_two_eq_zero_or_one n with h | h <;> simp [h]
    rw [ofNat, toNat, ih, hbit, Nat.pow_succ, Nat.mul_comm (2 ^ width) 2, Nat.mod_mul]

private theorem ofNat_zero (width : Nat) : ofNat width 0 = List.replicate width false := by
  induction width with
  | zero => rfl
  | succ width ih => simp [ofNat, ih, List.replicate_succ]

/-- Past the bits that write a number, its bits are zeros. -/
private theorem ofNat_toNat_append (bits : List Bool) (pad : Nat) :
    ofNat (bits.length + pad) (toNat bits) = bits ++ List.replicate pad false := by
  induction bits with
  | nil => simpa [toNat] using ofNat_zero pad
  | cons b bits ih =>
    have hmod : (b.toNat % 2 == 1) = b := by cases b <;> rfl
    have hdiv : (b.toNat + 2 * toNat bits) / 2 = toNat bits := by
      cases b with
      | false => simp
      | true =>
        simp only [Bool.toNat_true]
        omega
    rw [List.length_cons, Nat.add_right_comm]
    simp [ofNat, toNat, hmod, hdiv, ih]

theorem ofNat_toNat (bits : List Bool) : ofNat bits.length (toNat bits) = bits := by
  simpa using ofNat_toNat_append bits 0

/-! ## Packing -/

private theorem ofNat_byte (bits : List Bool) (h : bits.length ≤ 8) :
    ofNat 8 (UInt8.ofNat (toNat bits)).toNat = bits ++ List.replicate (8 - bits.length) false := by
  have hlt : toNat bits < 2 ^ 8 :=
    Nat.lt_of_lt_of_le (toNat_lt bits) (Nat.pow_le_pow_right (by decide) h)
  have hbyte : (UInt8.ofNat (toNat bits)).toNat = toNat bits := by
    rw [UInt8.toNat_ofNat']; omega
  have := ofNat_toNat_append bits (8 - bits.length)
  rwa [Nat.add_sub_cancel' h, ← hbyte] at this

theorem exists_ofBytes_toBytes (bits : List Bool) :
    ∃ padding : List Bool, ofBytes (toBytes bits) = bits ++ padding := by
  have key : ∀ (count : Nat) (bits : List Bool), bits.length ≤ 8 * count →
      ∃ padding : List Bool, ofBytes ((cut 8 count bits).map fun p => UInt8.ofNat (toNat p)) =
        bits ++ padding := by
    intro count
    induction count with
    | zero =>
      intro bits h
      have : bits = [] := List.eq_nil_of_length_eq_zero (by omega)
      exact ⟨[], by simp [this, cut, ofBytes]⟩
    | succ count ih =>
      intro bits h
      obtain ⟨padding, hp⟩ := ih (bits.drop 8) (by rw [List.length_drop]; omega)
      have hbyte := ofNat_byte (bits.take 8) (by rw [List.length_take]; omega)
      simp only [ofBytes, cut, List.map_cons, List.flatMap_cons] at hp ⊢
      rw [hbyte, hp]
      by_cases hlen : 8 ≤ bits.length
      · refine ⟨padding, ?_⟩
        simp only [List.length_take, Nat.min_eq_left hlen, Nat.sub_self, List.replicate_zero,
          List.append_nil]
        rw [← List.append_assoc, List.take_append_drop]
      · refine ⟨List.replicate (8 - bits.length) false ++ padding, ?_⟩
        rw [List.take_of_length_le (by omega), List.drop_of_length_le (by omega)]
        simp
  exact key _ bits (by omega)

end Bits

end PointCloud
