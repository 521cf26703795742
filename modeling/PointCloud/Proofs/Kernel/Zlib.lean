import Mathlib
import PointCloud.Kernel.Builtin
import PointCloud.Proofs.Bytes.Bits
import PointCloud.Proofs.Result

/-!
# Built-in zlib streams: round trip

The built-in compressor keeps a matched stream only if it inflates to its input, so all that is left
to show is that stored streams do. A stored stream is a sequence of blocks that begin on whole
bytes; each is read by its length, and the blocks together give the bytes back.

Main results:

* `Deflate.inflate_stored` — a stored stream inflates to its bytes, whatever follows it;
* `Zlib.decode_write` — at every level, what is written reads back.
-/

namespace PointCloud

/-! ## Stored blocks -/

namespace Deflate

/-- Reading the bits of whole bytes gives the number that the bytes write. -/
theorem takeBits_ofBytes {width : Nat} (bytes rest : Bytes) (h : width = 8 * bytes.length) :
    takeBits width (Bits.ofBytes (bytes ++ rest)) =
      .ok (Numeral.ofBytes bytes, Bits.ofBytes rest) := by
  have hlength : (Bits.ofBytes bytes).length = width := by simp [h]
  rw [takeBits, Bits.ofBytes_append, List.take_left' hlength, List.drop_left' hlength,
    if_neg (by simp [h]), Bits.toNat_ofBytes]

theorem length_storedBlock (final : Bool) (bytes : Bytes) :
    (storedBlock final bytes).length = bytes.length + 5 := by
  simp [storedBlock]
  omega

theorem length_storedBlocks (fuller : Nat) (bytes : Bytes) :
    bytes.length + fuller < (storedBlocks fuller bytes).length := by
  induction fuller generalizing bytes with
  | zero => simp [storedBlocks, length_storedBlock]
  | succ fuller ih =>
    have hrest := ih (bytes.drop storedLimit)
    simp only [storedBlocks, List.length_append, length_storedBlock, List.length_take,
      List.length_drop] at *
    omega

/-- The body of a stored block, after the three bits that open it, is read from the next byte on. -/
theorem inflateStored_storedBlock {limit : Nat} (pad : List Bool) (bytes rest : Bytes)
    (out : Array UInt8) (hpad : pad.length = 5) (hlength : bytes.length ≤ storedLimit)
    (hlimit : out.size + bytes.length ≤ limit) :
    inflateStored limit (pad ++ Bits.ofBytes (Numeral.toBytes 2 bytes.length ++
        (Numeral.toBytes 2 (storedLimit - bytes.length) ++ (bytes ++ rest)))) out =
      .ok (Bits.ofBytes rest, out ++ bytes.toArray) := by
  unfold storedLimit at *
  -- Five bits of the first byte are left, and they are passed over.
  have hskip : (pad ++ Bits.ofBytes (Numeral.toBytes 2 bytes.length ++
      (Numeral.toBytes 2 (65535 - bytes.length) ++ (bytes ++ rest)))).length % 8 = 5 := by
    simp only [List.length_append, Bits.length_ofBytes, hpad]
    omega
  have hcount : Numeral.ofBytes (Numeral.toBytes 2 bytes.length) = bytes.length := by
    rw [Numeral.ofBytes_toBytes, Nat.mod_eq_of_lt (by omega)]
  have hcomplement : Numeral.ofBytes (Numeral.toBytes 2 (65535 - bytes.length)) =
      65535 - bytes.length := by
    rw [Numeral.ofBytes_toBytes, Nat.mod_eq_of_lt (by omega)]
  have htaken : (Bits.ofBytes (bytes ++ rest)).take (8 * bytes.length) = Bits.ofBytes bytes := by
    rw [Bits.ofBytes_append, List.take_left' (by simp)]
  have hdropped : (Bits.ofBytes (bytes ++ rest)).drop (8 * bytes.length) = Bits.ofBytes rest := by
    rw [Bits.ofBytes_append, List.drop_left' (by simp)]
  have hsum : bytes.length + (65535 - bytes.length) = 65535 := by omega
  have hroom : ¬ limit < out.size + bytes.length := by omega
  rw [inflateStored, hskip, List.drop_left' hpad, takeBits_ofBytes _ _ (by simp)]
  simp only [within, Result.mapError_ok, Result.ok_bind]
  rw [takeBits_ofBytes _ _ (by simp), hcount, hcomplement]
  simp only [Result.mapError_ok, Result.ok_bind, htaken, hdropped, Bits.toBytes_ofBytes, hsum,
    Bits.length_ofBytes, Array.size_append, List.size_toArray, hroom, Nat.lt_irrefl, ne_eq,
    not_true_eq_false, if_false, Result.pure_eq]

/-- The first byte of a stored block: the last-block flag and the kind, then padding. -/
theorem inflateBlocks_storedBlock {limit steps : Nat} (final : Bool) (bytes rest : Bytes)
    (out : Array UInt8) (hlength : bytes.length ≤ storedLimit)
    (hlimit : out.size + bytes.length ≤ limit) :
    inflateBlocks limit (steps + 1) (Bits.ofBytes (storedBlock final bytes ++ rest)) out =
      if final then .ok (Bits.ofBytes rest, out ++ bytes.toArray)
      else inflateBlocks limit steps (Bits.ofBytes rest) (out ++ bytes.toArray) := by
  have hbits : Bits.ofBytes (storedBlock final bytes ++ rest) =
      final :: false :: false :: (List.replicate 5 false ++
        Bits.ofBytes (Numeral.toBytes 2 bytes.length ++
          (Numeral.toBytes 2 (storedLimit - bytes.length) ++ (bytes ++ rest)))) := by
    cases final <;> simp [storedBlock, Bits.ofBytes_cons, Bits.ofNat, List.replicate]
  have hbody := inflateStored_storedBlock (List.replicate 5 false) bytes rest out (by simp) hlength
    hlimit
  rw [hbits, inflateBlocks]
  generalize List.replicate 5 false ++ _ = body at *
  -- One bit tells whether the block is the last, two that it is stored.
  have hflag : takeBits 1 (final :: false :: false :: body) =
      .ok (final.toNat, false :: false :: body) := by
    simp [takeBits, Bits.toNat]
  have hkind : takeBits 2 (false :: false :: body) = .ok (0, body) := by
    simp [takeBits, Bits.toNat]
  simp only [hflag, hkind, within, Result.mapError_ok, Result.ok_bind, if_true, hbody]
  cases final <;> simp

/-- All blocks of a stored stream are read one after the other. -/
theorem inflateBlocks_storedBlocks {limit : Nat} (fuller steps : Nat) (bytes rest : Bytes)
    (out : Array UInt8) (hsteps : fuller < steps)
    (hlength : bytes.length ≤ (fuller + 1) * storedLimit)
    (hlimit : out.size + bytes.length ≤ limit) :
    inflateBlocks limit steps (Bits.ofBytes (storedBlocks fuller bytes ++ rest)) out =
      .ok (Bits.ofBytes rest, out ++ bytes.toArray) := by
  induction fuller generalizing steps bytes out with
  | zero =>
    obtain ⟨steps, rfl⟩ : ∃ n, steps = n + 1 := ⟨steps - 1, by omega⟩
    rw [storedBlocks, inflateBlocks_storedBlock _ _ _ _ (by omega) hlimit, if_pos rfl]
  | succ fuller ih =>
    obtain ⟨steps, rfl⟩ : ∃ n, steps = n + 1 := ⟨steps - 1, by omega⟩
    have htake : (bytes.take storedLimit).length ≤ storedLimit := by simp
    have hdrop : (bytes.drop storedLimit).length ≤ (fuller + 1) * storedLimit := by
      rw [List.length_drop]
      rw [Nat.succ_mul] at hlength
      omega
    -- A full block first; the others fit into the limit with it.
    have hsplit : (bytes.take storedLimit).length + (bytes.drop storedLimit).length =
        bytes.length := by
      rw [← List.length_append, List.take_append_drop]
    have hrest := ih steps (bytes.drop storedLimit)
      (out ++ (bytes.take storedLimit).toArray) (by omega) hdrop
      (by rw [Array.size_append]; change out.size + (bytes.take storedLimit).length + _ ≤ _; omega)
    have hjoin : (bytes.take storedLimit).toArray ++ (bytes.drop storedLimit).toArray =
        bytes.toArray := by
      rw [List.append_toArray, List.take_append_drop]
    rw [storedBlocks, List.append_assoc,
      inflateBlocks_storedBlock _ _ _ _ htake (by omega), if_neg (by simp), hrest]
    rw [Array.append_assoc, hjoin]

/-- A stored stream inflates to its bytes, and what follows it is left. -/
theorem inflate_stored {limit : Nat} (bytes rest : Bytes) (hlimit : bytes.length ≤ limit) :
    inflate limit (stored bytes ++ rest) = .ok (bytes, rest) := by
  have hsteps := length_storedBlocks ((bytes.length - 1) / storedLimit) bytes
  have hlength : bytes.length ≤ ((bytes.length - 1) / storedLimit + 1) * storedLimit := by
    unfold storedLimit
    omega
  have hfits : (#[] : Array UInt8).size + bytes.length ≤ limit := by simpa using hlimit
  have hblocks := inflateBlocks_storedBlocks ((bytes.length - 1) / storedLimit)
    (8 * (stored bytes ++ rest).length + 1) bytes rest #[]
    (by rw [List.length_append, stored]; omega) hlength hfits
  rw [← stored] at hblocks
  have hleft : (stored bytes ++ rest).length - 8 * rest.length / 8 = (stored bytes).length := by
    rw [List.length_append]
    omega
  simp only [inflate, Bits.length_ofBytes, hblocks, Result.ok_bind, Result.pure_eq, hleft,
    List.drop_left, Array.empty_append]

end Deflate

/-! ## Streams -/

namespace Zlib

theorem checksum_lt (bytes : Bytes) : checksum bytes < 2 ^ 32 := by
  unfold checksum
  generalize hfold : bytes.foldl _ ((1, 0) : Nat × Nat) = sums
  -- Both running sums stay below the modulus.
  have hsums : sums.1 < 65521 ∧ sums.2 < 65521 := by
    rw [← hfold]
    refine List.foldlRecOn (motive := fun sums : Nat × Nat => sums.1 < 65521 ∧ sums.2 < 65521)
      bytes _ ⟨by decide, by decide⟩ ?_
    rintro ⟨low, high⟩ _ b _
    exact ⟨Nat.mod_lt _ (by decide), Nat.mod_lt _ (by decide)⟩
  obtain ⟨low, high⟩ := sums
  dsimp only at hsums ⊢
  omega

theorem inflate_store {limit : Nat} (bytes : Bytes) (hlimit : bytes.length ≤ limit) :
    inflate limit (store bytes) = .ok bytes := by
  have hheader : isHeader 0x78 0x01 = true := by decide
  have hsum : Numeral.ofBytes (Numeral.toBytes 4 (checksum bytes)) = checksum bytes := by
    rw [Numeral.ofBytes_toBytes, Nat.mod_eq_of_lt (checksum_lt bytes)]
  have hbody := Deflate.inflate_stored bytes (Numeral.toBytes 4 (checksum bytes)).reverse hlimit
  have hlength : (Numeral.toBytes 4 (checksum bytes)).reverse.length = 4 := by simp
  simp only [store, frame, List.cons_append, List.nil_append, inflate, hheader, hbody,
    Result.ok_bind, hlength, List.take_of_length_le (Nat.le_of_eq hlength), List.reverse_reverse,
    hsum]
  simp

theorem decode_store (bytes : Bytes) (hroom : bytes.length < 2 ^ 62) :
    decode bytes.length (store bytes) = .ok bytes := by
  have hlimit : bytes.length ≤ bytes.length / windowSize * windowSize + windowSize := by
    unfold windowSize
    omega
  simp [decode, reserve, hroom, inflate_store bytes hlimit]

/-- Whatever the level, a written stream inflates to the bytes it was written from. -/
theorem decode_write (level : Nat) (bytes : Bytes) (hroom : bytes.length < 2 ^ 62) :
    decode bytes.length (write level bytes) = .ok bytes := by
  have hstore := decode_store bytes hroom
  simp only [write]
  -- A matched stream is kept only if it inflates to the bytes; otherwise the stored one is written.
  split
  · exact hstore
  · split
    · rename_i out hout
      split
      · rename_i heq
        rw [hout, heq]
      · exact hstore
    · exact hstore

end Zlib

end PointCloud
