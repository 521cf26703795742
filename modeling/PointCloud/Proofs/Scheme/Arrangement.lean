import Mathlib
import PointCloud.Proofs.Scheme.Hierarchical
import PointCloud.Proofs.Scheme.RoundTrip

/-!
# The order in which points come back

A payload gives back the rows it was written from in an order that depends on its scheme and on
nothing that it stores: sorted by their cluster keys if the scheme groups points, and as they were
if not. Arranging rows in that order commutes with leaving rows out. Rows that were arranged stay
where they are, so writing them again makes the same payload.

Main results:

* `Scheme.decompress_of_compress` — a payload holds the arranged rows;
* `Scheme.compress_arranged` — writing the arranged rows makes the payload of the rows;
* `Scheme.arranged_filter`, `Scheme.arranged_arranged` — the laws of arranging.
-/

namespace PointCloud

namespace Scheme

open Hierarchical (keyAxes key keyBitLimit)

/-- The key by which a payload sorts its points, if the scheme groups them. -/
def clusterKey? (scheme : Scheme) (config : Config) (s : Schema) : Option (Row → List Nat) :=
  match scheme, keyAxes s with
  | .hierarchical, .ok axes => some (key s axes (min config.keyBits keyBitLimit))
  | _, _ => none

/-- The rows of a buffer in the order in which its payload gives them back. -/
def arranged (scheme : Scheme) (config : Config) (s : Schema) (rows : List Row) : List Row :=
  match scheme.clusterKey? config s with
  | some key => Key.sortBy key rows
  | none => rows

variable {scheme : Scheme} {config : Config} {s : Schema} {rows : List Row}

theorem arranged_of_ne (h : scheme ≠ .hierarchical) (config : Config) (s : Schema)
    (rows : List Row) : scheme.arranged config s rows = rows := by
  cases scheme with
  | hierarchical => exact absurd rfl h
  | uncompressed => rfl
  | dimensional => rfl
  | externalLossless => rfl

theorem arranged_hierarchical {axes : List Nat} (h : keyAxes s = .ok axes) (config : Config)
    (rows : List Row) : Scheme.hierarchical.arranged config s rows =
      Key.sortBy (key s axes (min config.keyBits keyBitLimit)) rows := by
  unfold arranged clusterKey?
  rw [h]

/-! ## Laws -/

theorem arranged_perm (scheme : Scheme) (config : Config) (s : Schema) (rows : List Row) :
    (scheme.arranged config s rows).Perm rows := by
  unfold arranged
  cases scheme.clusterKey? config s with
  | none => exact List.Perm.refl rows
  | some key => exact Key.perm_sortBy key rows

/-- Rows can be left out before arranging or after it. -/
theorem arranged_filter (scheme : Scheme) (config : Config) (s : Schema) (p : Row → Bool)
    (rows : List Row) :
    scheme.arranged config s (rows.filter p) = (scheme.arranged config s rows).filter p := by
  unfold arranged
  cases scheme.clusterKey? config s with
  | none => rfl
  | some key => exact Key.sortBy_filter key p rows

/-- Arranging again, with as many key bits, changes nothing. -/
theorem arranged_arranged (scheme : Scheme) {config config' : Config}
    (h : min config.keyBits keyBitLimit = min config'.keyBits keyBitLimit) (s : Schema)
    (rows : List Row) : scheme.arranged config s (scheme.arranged config' s rows) =
      scheme.arranged config' s rows := by
  have hkey : scheme.clusterKey? config s = scheme.clusterKey? config' s := by
    unfold clusterKey?
    rw [h]
  unfold arranged
  rw [hkey]
  cases scheme.clusterKey? config' s with
  | none => rfl
  | some key => exact Key.sortBy_sortBy key rows

theorem fits_arranged (h : ∀ row ∈ rows, Row.Fits s.sizes row) (scheme : Scheme)
    (config : Config) : ∀ row ∈ scheme.arranged config s rows, Row.Fits s.sizes row :=
  fun row hrow => h row ((arranged_perm scheme config s rows).mem_iff.mp hrow)

/-! ## Payloads -/

variable [Compressors]

/-- A payload is written from a buffer of the right length. -/
theorem length_of_compress {buffer payload : Bytes} {points : Nat}
    (h : scheme.compress config s buffer points = .ok payload) :
    buffer.length = points * s.size := by
  unfold compress at h
  obtain ⟨expected, hexpected, h⟩ := Result.bind_eq_ok_iff.mp h
  simp only [Result.throw_eq, Result.error_bind, Result.check_eq_ok_iff, ne_eq, not_not] at h
  rw [h.1, (bufferLength_eq_ok_iff.mp hexpected).2]

/-- A payload that could be written gives the rows of its buffer back, arranged. -/
theorem decompress_of_compress [LawfulCompressors] {buffer payload : Bytes} {points : Nat}
    (hpoints : points < 2 ^ 32) (hroom : reserve (points * s.size) = .ok ())
    (h : scheme.compress config s buffer points = .ok payload) :
    scheme.decompress s points payload =
      .ok (s.bytes (scheme.arranged config s (s.rows buffer))) := by
  have hbuffer := length_of_compress h
  rw [scheme.compress_eq config hbuffer hroom] at h
  refine decompress_eq_ok_iff.mpr ?_
  cases scheme with
  | hierarchical =>
    obtain ⟨axes, haxes⟩ := Hierarchical.exists_keyAxes_of_compress h
    rw [← hbuffer] at hroom
    rw [arranged_hierarchical haxes]
    exact Hierarchical.decompress_compress config haxes hbuffer hroom h
  -- The other schemes hold the buffer itself.
  | uncompressed =>
    obtain rfl : buffer = payload := Except.ok.inj h
    rw [arranged_of_ne (by decide), s.bytes_rows hbuffer]
    exact Uncompressed.decompress_self hbuffer hroom
  | dimensional =>
    rw [arranged_of_ne (by decide), s.bytes_rows hbuffer]
    exact Dimensional.decompress_compress hbuffer hpoints hroom h
  | externalLossless =>
    obtain rfl : External.compress config buffer = payload := Except.ok.inj h
    rw [arranged_of_ne (by decide), s.bytes_rows hbuffer]
    exact External.decompress_compress config hbuffer hroom

/-- Writing the arranged rows makes the payload of the rows. -/
theorem compress_arranged (scheme : Scheme) (config : Config)
    (hfits : ∀ row ∈ rows, Row.Fits s.sizes row) (points : Nat) :
    scheme.compress config s (s.bytes (scheme.arranged config s rows)) points =
      scheme.compress config s (s.bytes rows) points := by
  by_cases hscheme : scheme = .hierarchical
  · subst hscheme
    cases haxes : keyAxes s with
    | error e =>
      unfold arranged clusterKey?
      rw [haxes]
    | ok axes =>
      -- The buffers are of one length, and the payloads are those of the same sorted rows.
      have hlength : (s.bytes (Scheme.hierarchical.arranged config s rows)).length =
          (s.bytes rows).length := by
        rw [s.length_bytes fun row hrow => s.length_of_fits (hfits row hrow),
          s.length_bytes fun row hrow => s.length_of_fits (fits_arranged hfits _ config row hrow),
          (arranged_perm _ config s rows).length_eq]
      have hpayload := Hierarchical.compress_sorted config haxes (s.bytes rows)
      rw [s.rows_bytes hfits, ← arranged_hierarchical haxes] at hpayload
      unfold compress
      rw [hlength, hpayload]
  · rw [arranged_of_ne hscheme]

end Scheme

end PointCloud
