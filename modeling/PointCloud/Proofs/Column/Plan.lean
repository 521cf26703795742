import Mathlib
import PointCloud.Proofs.Column.Choice
import PointCloud.Proofs.Kernel.Compressors
import PointCloud.Proofs.Kernel.RunLength
import PointCloud.Proofs.Kernel.SharedBits
import PointCloud.Proofs.Schema.Rows

/-!
# Planned columns: round trip

Whatever method a plan picks, guessed, tried or recommended, the bytes it gives are the encoding of
the column by that method. No method loses a word of a column that fits, as long as compressors are
lawful, and no method that a plan may pick refuses such a column.

Main results:

* `Column.decode_of_encode` — every method gives the words back;
* `Column.plan_isOk`, `Column.planByTally_isOk` — a column that fits can be planned.
-/

namespace PointCloud

namespace Column

variable {c : Column} {points level : Nat}

/-! ## Methods -/

theorem ofVerbatim_bytes (hfits : c.Fits points) (hpoints : points < 2 ^ 32) :
    ofVerbatim c.dimension c.order points c.bytes = .ok c.words := by
  have hsize := c.dimension.size_le
  -- A column of a point count is inside the address space.
  have hroom : points * c.dimension.size < 2 ^ 64 := by
    have := Nat.mul_le_mul_left points hsize
    omega
  have hpieces : ∀ piece ∈ c.words.map (c.order.bytes c.dimension.size),
      piece.length = c.dimension.size := by simp
  have hcut := cut_flatten c.dimension.size _ hpieces
  rw [List.length_map, ← List.flatMap_def, hfits.length_words] at hcut
  have hwords : ((c.words.map (c.order.bytes c.dimension.size)).map c.order.word) = c.words := by
    rw [List.map_map]
    conv => rhs; rw [← List.map_id c.words]
    refine List.map_congr_left fun w hw => ?_
    rw [Function.comp_apply, ByteOrder.word_bytes, Nat.mod_eq_of_lt (hfits.lt w hw), id_eq]
  have hlength : c.bytes.length = points * c.dimension.size := by
    rw [c.length_bytes, hfits.length_words]
  simp only [ofVerbatim, bufferLength, hroom, if_true, Result.ok_bind, hlength, ne_eq,
    not_true_eq_false, if_false, Result.pure_eq]
  rw [bytes, hcut, hwords]

variable [Compressors]

/-- Every method gives the words of a column back. -/
theorem decode_of_encode [LawfulCompressors] {method : ColumnMethod} {encoded : Bytes}
    (hfits : c.Fits points) (hpoints : points < 2 ^ 32) (h : c.encode level method = .ok encoded) :
    decode c.dimension c.order points encoded method = .ok c.words := by
  have hsize := c.dimension.size_le
  have hlength := hfits.length_words
  cases method with
  | verbatim =>
    rw [encode, Except.ok.injEq] at h
    rw [decode, ← h, ofVerbatim_bytes hfits hpoints]
  | runLength =>
    have hread := RunLength.decode_of_encode hfits.lt (by omega) h
    rwa [hlength] at hread
  | sharedBits =>
    have hread := SharedBits.decode_of_encode hsize hfits.lt_two_pow (by omega) h
    rwa [hlength] at hread
  | deflate =>
    rw [encode, Except.ok.injEq] at h
    -- What is inflated is the column as it is, which is then read as such.
    have hroom : points * c.dimension.size < 2 ^ 62 := by
      have := Nat.mul_le_mul_left points hsize
      omega
    have hroom' : points * c.dimension.size < 2 ^ 64 := by omega
    have hbytes : c.bytes.length = points * c.dimension.size := by
      rw [c.length_bytes, hlength]
    have hread := Zlib.decode_encode level c.bytes (by omega)
    rw [hbytes, h] at hread
    simp only [decode, bufferLength, hroom', if_true, Result.ok_bind, hread,
      ofVerbatim_bytes hfits hpoints]

/-- No method refuses a column that fits. -/
theorem encode_isOk (level : Nat) (hfits : c.Fits points) (hpoints : points < 2 ^ 32)
    (method : ColumnMethod) : ∃ encoded, c.encode level method = .ok encoded := by
  cases method with
  | verbatim => exact ⟨_, rfl⟩
  | runLength => exact RunLength.encode_isOk (by rw [hfits.length_words]; exact hpoints)
  | sharedBits => exact ⟨_, SharedBits.encode_eq_ok hfits.lt_two_pow⟩
  | deflate => exact ⟨_, rfl⟩

/-! ## Plans -/

theorem planWith_isOk (hfits : c.Fits points) (hpoints : points < 2 ^ 32)
    (method : ColumnMethod) : ∃ p, c.planWith level method = .ok p := by
  unfold planWith
  split
  · exact ⟨_, rfl⟩
  · obtain ⟨encoded, hencoded⟩ := encode_isOk level hfits hpoints method
    rw [hencoded]
    exact ⟨_, rfl⟩

theorem plan_isOk (config : Config) (hfits : c.Fits points) (hpoints : points < 2 ^ 32) :
    ∃ p, c.plan config = .ok p := by
  unfold plan
  split
  · exact ⟨_, rfl⟩
  · exact planWith_isOk hfits hpoints _

theorem planByTally_isOk (t : Tally) (config : Config) (hfits : c.Fits points)
    (hpoints : points < 2 ^ 32) : ∃ p, c.planByTally t config = .ok p :=
  planWith_isOk hfits hpoints _

end Column

end PointCloud
