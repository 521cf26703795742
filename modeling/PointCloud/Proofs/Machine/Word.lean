import Mathlib
import PointCloud.Proofs.Machine.Step

/-!
# Words in memory

A machine puts a word together from its bytes with shifts, and takes it apart with shifts. For words
of up to eight bytes no shift is too far, and what comes out is the word that the bytes hold and the
bytes that hold the word.

Main results:

* `Machine.readWord_eq` — putting a word together never stops;
* `Machine.writeWord_eq` — nor does writing one over bytes of a buffer.
-/

namespace PointCloud

/-! ## Numerals, byte by byte -/

namespace Numeral

theorem ofBytes_append (as bs : Bytes) :
    ofBytes (as ++ bs) = ofBytes as + 256 ^ as.length * ofBytes bs := by
  induction as with
  | nil => simp [ofBytes]
  | cons a as ih =>
    rw [List.cons_append, ofBytes, ofBytes, ih, List.length_cons, Nat.pow_succ]
    ring

theorem toBytes_mod (width n : Nat) : toBytes width (n % 256 ^ width) = toBytes width n := by
  have h := toBytes_ofBytes (toBytes width n)
  rwa [length_toBytes, ofBytes_toBytes] at h

theorem getElem?_toBytes {width i : Nat} (n : Nat) (h : i < width) :
    (toBytes width n)[i]? = some (UInt8.ofNat (n / 256 ^ i)) := by
  induction width generalizing n i with
  | zero => omega
  | succ width ih =>
    cases i with
    | zero => simp [toBytes]
    | succ i =>
      rw [toBytes, List.getElem?_cons_succ, ih _ (by omega), Nat.div_div_eq_div_mul, Nat.pow_succ,
        Nat.mul_comm 256]

end Numeral

namespace ByteOrder

theorem bytes_mod (order : ByteOrder) (size w : Nat) :
    order.bytes size (w % 256 ^ size) = order.bytes size w := by
  cases order <;> simp [bytes, Numeral.toBytes_mod]

/-- The place of a byte among those of a word, counted from the least significant one. -/
def place (order : ByteOrder) (size i : Nat) : Nat :=
  match order with
  | big => size - 1 - i
  | little => i

theorem place_lt (order : ByteOrder) {size i : Nat} (h : i < size) : order.place size i < size := by
  cases order <;> simp only [place] <;> omega

theorem getElem?_bytes (order : ByteOrder) {size i : Nat} (w : Nat) (h : i < size) :
    (order.bytes size w)[i]? = some (UInt8.ofNat (w / 256 ^ order.place size i)) := by
  cases order with
  | big =>
    have hlength : i < (Numeral.toBytes size w).length := by rwa [Numeral.length_toBytes]
    -- Reversed, the byte at index `i` is the one at place `size - 1 - i`.
    rw [bytes, List.getElem?_reverse hlength, Numeral.length_toBytes,
      Numeral.getElem?_toBytes w (by omega)]
    rfl
  | little => exact Numeral.getElem?_toBytes w h

end ByteOrder

namespace Machine

/-! ## Reading -/

/-- Puts a word together from bytes that come in rising order, the next of which is at place `i`. -/
def gatherLittle : Nat → Nat → Bytes → Run Nat
  | _, word, [] => .ok word
  | i, word, b :: bytes => do
    let part ← shiftLeft 64 b.toNat (← mul 8 i)
    gatherLittle (i + 1) (word ||| part) bytes

/-- Puts a word together from bytes that come in falling order. -/
def gatherBig : Nat → Bytes → Run Nat
  | word, [] => .ok word
  | word, b :: bytes => do
    let word ← shiftLeft 64 word 8
    gatherBig (word ||| b.toNat) bytes

/-- The word in the first `size` bytes. -/
def readWord (order : ByteOrder) (size : Nat) (bytes : Bytes) : Run Nat := do
  let bytes ← slice bytes 0 size
  match order with
  | .big => gatherBig 0 bytes
  | .little => gatherLittle 0 0 bytes

/-- The word in the `size` bytes from `first` on. -/
def readWordAt (order : ByteOrder) (size : Nat) (bytes : Bytes) (first : Nat) : Run Nat := do
  readWord order size (← slice bytes first (← add first size))

theorem gatherLittle_eq {i word : Nat} {bytes : Bytes} (hword : word < 256 ^ i)
    (hsize : i + bytes.length ≤ 8) :
    gatherLittle i word bytes = .ok (word + 256 ^ i * Numeral.ofBytes bytes) := by
  induction bytes generalizing i word with
  | nil => simp [gatherLittle, Numeral.ofBytes]
  | cons b bytes ih =>
    rw [List.length_cons] at hsize
    have hb := b.toNat_lt
    have hplace : 256 ^ i = 2 ^ (8 * i) := (two_pow_eight_mul i).symm
    -- The byte stays inside sixty-four bits, and above the bits that are there.
    have hpart : b.toNat * 2 ^ (8 * i) < 2 ^ 64 := by
      calc b.toNat * 2 ^ (8 * i) < 2 ^ 8 * 2 ^ (8 * i) :=
            Nat.mul_lt_mul_of_pos_right hb (Nat.two_pow_pos _)
        _ = 2 ^ (8 * (i + 1)) := by rw [← Nat.pow_add]; congr 1; omega
        _ ≤ 2 ^ 64 := Nat.pow_le_pow_right (by decide) (by omega)
    have hor : word ||| b.toNat * 2 ^ (8 * i) = word + 256 ^ i * b.toNat := by
      rw [hplace] at hword
      rw [Nat.or_comm, Nat.mul_comm, ← Nat.two_pow_add_eq_or_of_lt hword, hplace, Nat.add_comm]
    have hnext : word + 256 ^ i * b.toNat < 256 ^ (i + 1) := by
      calc word + 256 ^ i * b.toNat < 256 ^ i + 256 ^ i * b.toNat := Nat.add_lt_add_right hword _
        _ = 256 ^ i * (b.toNat + 1) := by ring
        _ ≤ 256 ^ i * 256 := Nat.mul_le_mul_left _ hb
        _ = 256 ^ (i + 1) := (Nat.pow_succ _ _).symm
    have hmul : mul 8 i = .ok (8 * i) := mul_eq (by omega)
    have hshift : shiftLeft 64 b.toNat (8 * i) = .ok (b.toNat * 2 ^ (8 * i)) := by
      rw [shiftLeft_eq (by omega), Nat.mod_eq_of_lt hpart]
    rw [gatherLittle, hmul, Result.ok_bind, hshift, Result.ok_bind, hor, ih hnext (by omega),
      Numeral.ofBytes, Nat.pow_succ]
    congr 1
    ring

theorem gatherBig_eq {i word : Nat} {bytes : Bytes} (hword : word < 256 ^ i)
    (hsize : i + bytes.length ≤ 8) :
    gatherBig word bytes = .ok (word * 256 ^ bytes.length + Numeral.ofBytes bytes.reverse) := by
  induction bytes generalizing i word with
  | nil => simp [gatherBig, Numeral.ofBytes]
  | cons b bytes ih =>
    rw [List.length_cons] at hsize
    have hb : b.toNat < 2 ^ 8 := b.toNat_lt
    have hnext : word * 256 + b.toNat < 256 ^ (i + 1) := by
      rw [Nat.pow_succ]
      omega
    -- No bit of the word is shifted out.
    have hshifted : word * 2 ^ 8 < 2 ^ 64 := by
      calc word * 2 ^ 8 ≤ word * 256 + b.toNat := Nat.le_add_right _ _
        _ < 256 ^ (i + 1) := hnext
        _ ≤ 256 ^ 8 := Nat.pow_le_pow_right (by decide) (by omega)
        _ = 2 ^ 64 := by decide
    have hor : word * 2 ^ 8 ||| b.toNat = word * 256 + b.toNat := by
      rw [Nat.mul_comm, ← Nat.two_pow_add_eq_or_of_lt hb, Nat.mul_comm]
    have hshift : shiftLeft 64 word 8 = .ok (word * 2 ^ 8) := by
      rw [shiftLeft_eq (by decide), Nat.mod_eq_of_lt hshifted]
    rw [gatherBig, hshift, Result.ok_bind, hor, ih hnext (by omega), List.length_cons,
      List.reverse_cons, Numeral.ofBytes_append, List.length_reverse, Nat.pow_succ]
    simp only [Numeral.ofBytes]
    congr 1
    ring

theorem readWord_eq (order : ByteOrder) {size : Nat} {bytes : Bytes} (hsize : size ≤ 8)
    (hbytes : size ≤ bytes.length) :
    readWord order size bytes = .ok (order.word (bytes.take size)) := by
  have hslice : slice bytes 0 size = .ok (bytes.take size) := by
    rw [slice_eq (Nat.zero_le _) hbytes]
    simp
  have hlength : 0 + (bytes.take size).length ≤ 8 := by
    rw [List.length_take]
    omega
  rw [readWord, hslice, Result.ok_bind]
  -- Both begin with the word zero, before the first place.
  cases order with
  | big =>
    show gatherBig 0 _ = _
    rw [gatherBig_eq (show 0 < 256 ^ 0 by decide) hlength]
    simp [ByteOrder.word]
  | little =>
    show gatherLittle 0 0 _ = _
    rw [gatherLittle_eq (show 0 < 256 ^ 0 by decide) hlength]
    simp [ByteOrder.word]

theorem readWordAt_eq (order : ByteOrder) {size first : Nat} {bytes : Bytes} (hsize : size ≤ 8)
    (hbytes : first + size ≤ bytes.length) (hlength : bytes.length < 2 ^ 63) :
    readWordAt order size bytes first = .ok (order.word ((bytes.drop first).take size)) := by
  have hadd : add first size = .ok (first + size) := add_eq (by omega)
  have htake : ((bytes.drop first).take size).length = size := by
    rw [List.length_take, List.length_drop]
    omega
  rw [readWordAt, hadd, Result.ok_bind, slice_eq (Nat.le_add_right _ _) hbytes, Result.ok_bind,
    Nat.add_sub_cancel_left, readWord_eq order hsize (Nat.le_of_eq htake.symm), List.take_take,
    Nat.min_self]

/-! ## Writing -/

/-- How far a word is shifted for its byte at index `i`. -/
def distance (order : ByteOrder) (size i : Nat) : Run Nat :=
  match order with
  | .big => do mul 8 (← sub (← sub size 1) i)
  | .little => mul 8 i

/-- Writes the bytes of a word from index `i` on, `more` of `size` that are left. -/
def scatter (order : ByteOrder) (size word : Nat) : Nat → Nat → Bytes → Run Bytes
  | 0, _, field => .ok field
  | more + 1, i, field => do
    let byte ← shiftRight 64 word (← distance order size i)
    let field ← put field i (UInt8.ofNat byte)
    scatter order size word more (i + 1) field

/-- Writes a word of `size` bytes over those from `offset` on. -/
def writeWord (order : ByteOrder) (size word offset : Nat) (bytes : Bytes) : Run Bytes := do
  let stop ← add offset size
  let field ← slice bytes offset stop
  let field ← scatter order size word size 0 field
  return bytes.take offset ++ field ++ bytes.drop stop

theorem distance_eq (order : ByteOrder) {size i : Nat} (hsize : size ≤ 8) (hi : i < size) :
    distance order size i = .ok (8 * order.place size i) := by
  cases order with
  | big =>
    have hone : sub size 1 = .ok (size - 1) := sub_eq (by omega)
    have hrest : sub (size - 1) i = .ok (size - 1 - i) := sub_eq (by omega)
    rw [distance, hone, Result.ok_bind, hrest, Result.ok_bind]
    exact mul_eq (by omega)
  | little => exact mul_eq (by omega)

theorem scatter_eq (order : ByteOrder) (word : Nat) {size more i : Nat} {field : Bytes}
    (hsize : size ≤ 8) (hi : i + more = size) (hfield : field.length = size)
    (hdone : field.take i = (order.bytes size word).take i) :
    scatter order size word more i field = .ok (order.bytes size word) := by
  induction more generalizing i field with
  | zero =>
    -- All bytes are written: what is done is the whole field.
    have hfull := hdone
    rw [List.take_of_length_le (by omega),
      List.take_of_length_le (by rw [ByteOrder.length_bytes]; omega)] at hfull
    rw [scatter, hfull]
  | succ more ih =>
    have hplace := order.place_lt (show i < size by omega)
    have hshift : shiftRight 64 word (8 * order.place size i) =
        .ok (word / 256 ^ order.place size i) := by
      rw [shiftRight_eq (by omega), Nat.pow_mul]
    have hput := put_eq (show i < field.length by omega)
      (UInt8.ofNat (word / 256 ^ order.place size i))
    rw [scatter, distance_eq order hsize (by omega), Result.ok_bind, hshift, Result.ok_bind, hput,
      Result.ok_bind]
    refine ih (by omega) (by rw [List.length_set, hfield]) ?_
    -- The byte that was written is the next one of the word.
    rw [List.take_add_one, List.take_add_one, List.take_set_of_le (Nat.le_refl i), hdone,
      order.getElem?_bytes word (by omega), List.getElem?_set_self (by omega)]

theorem writeWord_eq (order : ByteOrder) {size offset : Nat} (word : Nat) {bytes : Bytes}
    (hsize : size ≤ 8) (hbytes : offset + size ≤ bytes.length) (hlength : bytes.length < 2 ^ 64) :
    writeWord order size word offset bytes = .ok (order.put size word offset bytes) := by
  have hadd : add offset size = .ok (offset + size) := add_eq (by omega)
  have hslice := slice_eq (Nat.le_add_right offset size) hbytes
  have hfield : ((bytes.drop offset).take (offset + size - offset)).length = size := by
    rw [List.length_take, List.length_drop]
    omega
  have hscatter := scatter_eq order word hsize (Nat.zero_add size) hfield rfl
  rw [writeWord, hadd, Result.ok_bind, hslice, Result.ok_bind, hscatter, Result.ok_bind]
  rfl

end Machine

end PointCloud
