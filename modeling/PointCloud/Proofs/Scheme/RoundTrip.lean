import Mathlib
import PointCloud.Proofs.Scheme.Dimensional
import PointCloud.Proofs.Scheme.Lengths

/-!
# Schemes that keep the order of points

A payload that was compressed under any scheme but the hierarchical one holds the buffer it came
from, byte for byte, as long as compressors are lawful. Columns have to fit their length field for
the dimensional scheme to compress at all, and the buffer has to be one that can be set aside for
reading to begin.

Main results:

* `Dimensional.decompress_compress`, `External.decompress_compress` — if there is a payload, it
  holds the buffer;
* `Scheme.writes_of_columns` — if the columns fit, there is a payload;
* `Scheme.compress_lossless` — there is a payload and it holds the buffer, whatever the
  configuration is and whatever a tally recommends.
-/

namespace PointCloud

variable {config : Config} {s : Schema} {buffer payload : Bytes} {points : Nat}

/-! ## Schemes one by one -/

theorem Uncompressed.decompress_self (hbuffer : buffer.length = points * s.size)
    (hroom : reserve (points * s.size) = .ok ()) :
    decompress s points buffer = .ok buffer := by
  have hlength := bufferLength_of_reserve hroom
  simp only [decompress, hlength, hbuffer, hroom, ne_eq, not_true_eq_false, if_false,
    Result.ok_bind, Result.pure_eq]

section Compressed

variable [Compressors]

namespace Dimensional

/-- A payload of columns holds the buffer that the columns came from. -/
theorem decompress_of_writeColumns_rows [LawfulCompressors]
    {plan : Column → Except Error Column.Plan} {level : Nat}
    (hplan : ∀ c p, plan c = .ok p → c.IsPlan level p) (hbuffer : buffer.length = points * s.size)
    (hpoints : points < 2 ^ 32) (hroom : reserve (points * s.size) = .ok ())
    (h : writeColumns plan (Column.ofRows s (s.rows buffer)) = .ok payload) :
    decompress s points payload = .ok buffer := by
  have hcount := s.length_rows hbuffer
  have hread := decompress_of_writeColumns hplan (fun row hrow => s.fits_of_mem_rows hrow)
    (by rwa [hcount]) (by rwa [hcount]) h
  rwa [hcount, s.bytes_rows hbuffer] at hread

theorem decompress_compress [LawfulCompressors] (hbuffer : buffer.length = points * s.size)
    (hpoints : points < 2 ^ 32) (hroom : reserve (points * s.size) = .ok ())
    (h : compress config s buffer = .ok payload) : decompress s points payload = .ok buffer :=
  decompress_of_writeColumns_rows (fun _ _ => Column.isPlan_plan) hbuffer hpoints hroom h

/-- Columns of a buffer that fit the length field are written. -/
theorem writeColumns_rows_isOk {plan : Column → Except Error Column.Plan} {level : Nat}
    (hplan : ∀ c p, plan c = .ok p → c.IsPlan level p)
    (hplanned : ∀ c : Column, c.Fits points → ∃ p, plan c = .ok p)
    (hbuffer : buffer.length = points * s.size)
    (hcolumns : ∀ d ∈ s.dimensions, points * d.size < 2 ^ 32) :
    ∃ payload, writeColumns plan (Column.ofRows s (s.rows buffer)) = .ok payload := by
  have hcount := s.length_rows hbuffer
  have hfits : ∀ c ∈ Column.ofRows s (s.rows buffer), c.Fits points := by
    intro c hc
    rw [← hcount]
    exact Column.fits_of_mem_ofRows (fun row hrow => s.fits_of_mem_rows hrow) hc
  refine writeColumns_isOk hplan (fun c hc => hplanned c (hfits c hc)) fun c hc => ?_
  rw [c.length_bytes, (hfits c hc).length_words]
  exact hcolumns c.dimension (Column.dimension_mem_of_mem_ofRows hc)

end Dimensional

namespace External

theorem decompress_compress [LawfulCompressors] (config : Config)
    (hbuffer : buffer.length = points * s.size) (hroom : reserve (points * s.size) = .ok ()) :
    decompress s points (compress config buffer) = .ok buffer := by
  have hlength := bufferLength_of_reserve hroom
  rw [reserve_eq_ok_iff] at hroom
  have hdecode := Zstd.decode_encode buffer config.zstdLevel (by omega)
  -- An empty buffer has an empty payload, without a length in front.
  by_cases hempty : points * s.size = 0
  · have hnil : buffer = [] := List.eq_nil_of_length_eq_zero (hbuffer.trans hempty)
    subst hnil
    simp only [decompress, compress, hlength, hempty, if_true, hdecode, Result.ok_bind]
    rfl
  · have hne : buffer ≠ [] := by
      rintro rfl
      exact hempty hbuffer.symm
    have hdeclared := Zstd.declared_withLength buffer (Compressors.zstd config.zstdLevel buffer)
      (by omega)
    rw [compress, Zstd.encode_of_ne_nil hne] at *
    generalize Compressors.zstd config.zstdLevel buffer = frames at *
    have hlong : ¬ (Zstd.withLength buffer frames).length < 8 := by simp
    simp only [decompress, hlength, hempty, hlong, hdeclared, hbuffer, if_false, ne_eq,
      not_true_eq_false, hdecode, Result.ok_bind]

end External

/-! ## All schemes that keep the order -/

/-- The payload of a buffer of the right length is what the scheme makes of the buffer. -/
theorem Scheme.compress_eq (scheme : Scheme) (config : Config)
    (hbuffer : buffer.length = points * s.size) (hroom : reserve (points * s.size) = .ok ()) :
    scheme.compress config s buffer points =
      match scheme with
      | .uncompressed => .ok buffer
      | .dimensional => Dimensional.compress config s buffer
      | .hierarchical => Hierarchical.compress config s buffer
      | .externalLossless => .ok (External.compress config buffer) := by
  have hlength := bufferLength_of_reserve hroom
  simp only [compress, hlength, hbuffer, ne_eq, not_true_eq_false, if_false, Result.ok_bind]
  cases scheme <;> rfl

/-- A scheme can write a buffer of points. -/
def Scheme.Writes (scheme : Scheme) (config : Config) (s : Schema) (buffer : Bytes)
    (points : Nat) : Prop :=
  ∃ payload, scheme.compress config s buffer points = .ok payload

/-- Every scheme that keeps the order can, if the columns fit the length field of a column. -/
theorem Scheme.writes_of_columns {scheme : Scheme} (hscheme : scheme ≠ .hierarchical)
    (config : Config) (hbuffer : buffer.length = points * s.size)
    (hcolumns : ∀ d ∈ s.dimensions, points * d.size < 2 ^ 32)
    (hroom : reserve (points * s.size) = .ok ()) : scheme.Writes config s buffer points := by
  have hpoints := s.points_lt_of_columns hcolumns
  unfold Writes
  rw [scheme.compress_eq config hbuffer hroom]
  cases scheme with
  | uncompressed => exact ⟨buffer, rfl⟩
  | dimensional =>
    exact Dimensional.writeColumns_rows_isOk (fun _ _ => Column.isPlan_plan)
      (fun c hfits => Column.plan_isOk config hfits hpoints) hbuffer hcolumns
  | hierarchical => exact absurd rfl hscheme
  | externalLossless => exact ⟨External.compress config buffer, rfl⟩

end Compressed

/-- Whatever the configuration is, a payload under a scheme that keeps the order holds the buffer;
so does a dimensional payload whose methods a tally recommends, whatever it recommends. -/
theorem Scheme.compress_lossless [Compressors] [LawfulCompressors] (config : Config) (s : Schema)
    (buffer : Bytes) (points : Nat) (hbuffer : buffer.length = points * s.size)
    (hcolumns : ∀ d ∈ s.dimensions, points * d.size < 2 ^ 32)
    (hroom : reserve buffer.length = .ok ()) :
    (∀ scheme : Scheme, scheme ≠ .hierarchical → ∃ payload,
      scheme.compress config s buffer points = .ok payload ∧
        scheme.decompress s points payload = .ok buffer) ∧
    ∀ t : Tally, t.width = s.width → ∃ payload,
      Dimensional.compressByTally t config s buffer points = .ok payload ∧
        Scheme.dimensional.decompress s points payload = .ok buffer := by
  rw [hbuffer] at hroom
  have hlength := bufferLength_of_reserve hroom
  -- A column has at least a byte for every point, so its bound is one for the points.
  have hpoints := s.points_lt_of_columns hcolumns
  constructor
  · intro scheme hscheme
    rw [scheme.compress_eq config hbuffer hroom]
    cases scheme with
    | uncompressed =>
      refine ⟨buffer, rfl, ?_⟩
      exact decompress_eq_ok_iff.mpr (Uncompressed.decompress_self hbuffer hroom)
    | dimensional =>
      obtain ⟨payload, hpayload⟩ := Dimensional.writeColumns_rows_isOk
        (fun _ _ => Column.isPlan_plan)
        (fun c hfits => Column.plan_isOk config hfits hpoints) hbuffer hcolumns
      refine ⟨payload, hpayload, ?_⟩
      exact decompress_eq_ok_iff.mpr
        (Dimensional.decompress_of_writeColumns_rows (fun _ _ => Column.isPlan_plan) hbuffer
          hpoints hroom hpayload)
    | hierarchical => exact absurd rfl hscheme
    | externalLossless =>
      refine ⟨External.compress config buffer, rfl, ?_⟩
      exact decompress_eq_ok_iff.mpr (External.decompress_compress config hbuffer hroom)
  · intro t hwidth
    obtain ⟨payload, hpayload⟩ := Dimensional.writeColumns_rows_isOk
      (fun _ _ => Column.isPlan_planByTally)
      (fun c hfits => Column.planByTally_isOk t config hfits hpoints) hbuffer hcolumns
    refine ⟨payload, ?_, ?_⟩
    · simp only [Dimensional.compressByTally, hlength, hbuffer, hwidth, ne_eq, not_true_eq_false,
        if_false, Result.ok_bind, hpayload]
    · exact decompress_eq_ok_iff.mpr (Dimensional.decompress_of_writeColumns_rows
        (fun _ _ => Column.isPlan_planByTally) hbuffer hpoints hroom hpayload)

/-- Two points of the plane, under a tally that asks for runs, shared bits and a method that is not
there. -/
theorem Scheme.compress_lossless_planar :
    let buffer : Bytes := [0, 7, 255, 0, 3, 0, 7, 255, 1, 3]
    let t : Tally := ⟨3, 0, 0, [⟨0, 0, .runLength⟩, ⟨0, 0, .sharedBits⟩]⟩
    buffer.length = 2 * Schema.planar.size ∧
    (∀ d ∈ Schema.planar.dimensions, 2 * d.size < 2 ^ 32) ∧
    reserve buffer.length = .ok () ∧ t.width = Schema.planar.width ∧
    (∃ payload, Scheme.dimensional.compress {} .planar buffer 2 = .ok payload ∧
      Scheme.dimensional.decompress .planar 2 payload = .ok buffer) ∧
    ∃ payload, Dimensional.compressByTally t {} .planar buffer 2 = .ok payload ∧
      Scheme.dimensional.decompress .planar 2 payload = .ok buffer := by
  intro buffer t
  have hbuffer : buffer.length = 2 * Schema.planar.size := by decide
  have hcolumns : ∀ d ∈ Schema.planar.dimensions, 2 * d.size < 2 ^ 32 := by decide
  have hroom : reserve buffer.length = .ok () := by decide
  have hwidth : t.width = Schema.planar.width := by decide
  obtain ⟨hschemes, htallies⟩ := Scheme.compress_lossless {} .planar buffer 2 hbuffer hcolumns hroom
  exact ⟨hbuffer, hcolumns, hroom, hwidth, hschemes .dimensional (by decide), htallies t hwidth⟩

end PointCloud
