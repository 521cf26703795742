import Mathlib
import PointCloud.Bytes.Bits

/-!
# Bit strings of byte strings

The bits of a byte string are those of its bytes one after the other, so bits are read from it a
whole number of bytes at a time as numerals are.

Main results:

* `Bits.toNat_ofBytes` — the number that the bits of bytes write is the number the bytes write;
* `Bits.toBytes_ofBytes` — packing the bits of bytes gives the bytes back.
-/

namespace PointCloud

namespace Bits

theorem ofBytes_cons (b : UInt8) (bytes : Bytes) :
    ofBytes (b :: bytes) = ofNat 8 b.toNat ++ ofBytes bytes := rfl

theorem ofBytes_append (as bs : Bytes) : ofBytes (as ++ bs) = ofBytes as ++ ofBytes bs := by
  simp [ofBytes]

theorem toNat_append (as bs : List Bool) :
    toNat (as ++ bs) = toNat as + 2 ^ as.length * toNat bs := by
  induction as with
  | nil => simp [toNat]
  | cons a as ih =>
    rw [List.cons_append, toNat, toNat, ih, List.length_cons, Nat.pow_succ]
    ring_nf

theorem toNat_ofBytes (bytes : Bytes) : toNat (ofBytes bytes) = Numeral.ofBytes bytes := by
  induction bytes with
  | nil => rfl
  | cons b bytes ih =>
    have hb : b.toNat % 2 ^ 8 = b.toNat := Nat.mod_eq_of_lt b.toNat_lt
    rw [ofBytes_cons, toNat_append, toNat_ofNat, hb, length_ofNat, ih]
    rfl

/-- The bits of a byte string come in eights, one for every byte. -/
private theorem cut_ofBytes (bytes : Bytes) :
    cut 8 bytes.length (ofBytes bytes) = bytes.map fun b => ofNat 8 b.toNat := by
  have hpieces : ∀ piece ∈ bytes.map (fun b => ofNat 8 b.toNat), piece.length = 8 := by simp
  have h := cut_flatten 8 (bytes.map fun b => ofNat 8 b.toNat) hpieces
  rwa [List.length_map, ← List.flatMap_def] at h

theorem toBytes_ofBytes (bytes : Bytes) : toBytes (ofBytes bytes) = bytes := by
  have hcount : (8 * bytes.length + 7) / 8 = bytes.length := by omega
  rw [toBytes, length_ofBytes, hcount, cut_ofBytes, List.map_map]
  conv => rhs; rw [← List.map_id bytes]
  refine List.map_congr_left fun b _ => ?_
  have hb : b.toNat % 2 ^ 8 = b.toNat := Nat.mod_eq_of_lt b.toNat_lt
  simp only [Function.comp_apply, toNat_ofNat, hb, id_eq]
  exact UInt8.ofNat_toNat

end Bits

end PointCloud
