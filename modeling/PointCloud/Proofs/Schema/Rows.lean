import Mathlib
import PointCloud.Column.Basic

/-!
# Rows of buffers

A buffer of whole points and its rows are the same thing: rows are read from the buffer, a row whose
words fit is written to the bytes it is read from, and the columns of such rows hold words that fit
the size of their dimension.

Main results:

* `Schema.rows_bytes` — rows that fit are read back from the buffer they write;
* `Schema.fits_of_mem_rows` — rows of a buffer fit;
* `Column.fits_of_mem_ofRows` — so do the columns of rows that fit.
-/

namespace PointCloud

namespace Dimension

theorem size_pos (d : Dimension) : 0 < d.size := by
  unfold size
  cases d.interpretation <;> decide

theorem size_le (d : Dimension) : d.size ≤ 8 := by
  unfold size
  cases d.interpretation <;> decide

theorem bits_le (d : Dimension) : d.interpretation.bits ≤ 64 :=
  Nat.mul_le_mul_left 8 d.size_le

theorem two_pow_bits (d : Dimension) : 2 ^ d.interpretation.bits = 256 ^ d.size :=
  two_pow_eight_mul d.size

end Dimension

/-! ## Rows -/

namespace Row

theorem length_of_fits {sizes : List Nat} {row : Row} (h : Fits sizes row) :
    row.length = sizes.length := by
  induction sizes generalizing row with
  | nil => simp_all [Fits]
  | cons size sizes ih =>
    cases row with
    | nil => simp [Fits] at h
    | cons w row => simp [ih h.2]

/-- The words of the first dimension fit its size, and the rows that are left fit the others. -/
theorem fits_cons {size : Nat} {sizes : List Nat} {row : Row} (h : Fits (size :: sizes) row) :
    row.headD 0 < 256 ^ size ∧ Fits sizes row.tail := by
  cases row with
  | nil => simp [Fits] at h
  | cons w row => exact h

end Row

namespace Schema

variable (s : Schema)

@[simp] theorem length_sizes : s.sizes.length = s.width := by simp [sizes, width]

/-- There are fewer points than bytes in any of their columns. -/
theorem points_lt_of_columns {points bound : Nat}
    (h : ∀ d ∈ s.dimensions, points * d.size < bound) : points < bound := by
  obtain ⟨d, hd⟩ := List.exists_mem_of_ne_nil _ s.valid.1
  calc points ≤ points * d.size := Nat.le_mul_of_pos_right _ d.size_pos
    _ < bound := h d hd

theorem length_rows {buffer : Bytes} {count : Nat} (h : buffer.length = count * s.size) :
    (s.rows buffer).length = count := by
  rw [rows, List.length_map, length_cut, h, Nat.mul_div_cancel _ s.size_pos]

theorem fits_of_mem_rows {buffer : Bytes} {row : Row} (h : row ∈ s.rows buffer) :
    Row.Fits s.sizes row := by
  rw [rows, List.mem_map] at h
  obtain ⟨piece, hpiece, rfl⟩ := h
  exact Row.fits_ofBytes (length_of_mem_cut (Nat.div_mul_le_self _ _) hpiece)

theorem length_rowBytes {row : Row} (h : row.length = s.width) :
    (s.rowBytes row).length = s.size :=
  Row.length_toBytes _ _ _ (h.trans s.length_sizes.symm)

/-- The bytes of a point are written as they were read. -/
theorem rowBytes_row {raw : Bytes} (h : raw.length = s.size) : s.rowBytes (s.row raw) = raw :=
  Row.toBytes_ofBytes h

theorem length_of_fits {row : Row} (h : Row.Fits s.sizes row) : row.length = s.width :=
  (Row.length_of_fits h).trans s.length_sizes

theorem length_bytes {rows : List Row} (h : ∀ row ∈ rows, row.length = s.width) :
    (s.bytes rows).length = rows.length * s.size := by
  have hmap : rows.map (fun row => (s.rowBytes row).length) = rows.map fun _ => s.size :=
    List.map_congr_left fun row hrow => s.length_rowBytes (h row hrow)
  rw [bytes, List.length_flatMap, hmap]
  simp

theorem bytes_append (s : Schema) (rows others : List Row) :
    s.bytes (rows ++ others) = s.bytes rows ++ s.bytes others :=
  List.flatMap_append

/-- Rows that fit are read back from the buffer they write. -/
theorem rows_bytes {rows : List Row} (h : ∀ row ∈ rows, Row.Fits s.sizes row) :
    s.rows (s.bytes rows) = rows := by
  have hpieces : ∀ piece ∈ rows.map s.rowBytes, piece.length = s.size := by
    intro piece hpiece
    obtain ⟨row, hrow, rfl⟩ := List.mem_map.mp hpiece
    exact s.length_rowBytes (s.length_of_fits (h row hrow))
  have hwidth := fun row hrow => s.length_of_fits (h row hrow)
  -- Cutting the buffer by the size of a point gives the bytes of each row back.
  have hcut := cut_flatten s.size (rows.map s.rowBytes) hpieces
  rw [List.length_map, ← List.flatMap_def] at hcut
  rw [Schema.rows, s.length_bytes hwidth, Nat.mul_div_cancel _ s.size_pos, bytes, hcut,
    List.map_map]
  conv => rhs; rw [← List.map_id rows]
  exact List.map_congr_left fun row hrow => Row.ofBytes_toBytes (h row hrow)

theorem columns_ofColumns {rows : List Row} (h : ∀ row ∈ rows, Row.Fits s.sizes row) :
    Row.ofColumns rows.length (s.columns rows) = rows := by
  exact Row.ofColumns_columns fun row hrow => s.length_of_fits (h row hrow)

/-- Points of the plane with a class of their own: two axes of two bytes each, and a byte. -/
def planar : Schema where
  pcid := 1
  srid := 4326
  order := .big
  dimensions := [
    { name := "X", position := 0, interpretation := .int16 },
    { name := "Y", position := 1, interpretation := .int16 },
    { name := "Class", position := 2, interpretation := .uint8 }]
  valid := by decide

end Schema

/-! ## Columns -/

namespace Column

/-- A column of `points` words that fit the size of its dimension. -/
structure Fits (c : Column) (points : Nat) : Prop where
  length_words : c.words.length = points
  lt           : ∀ w ∈ c.words, w < 256 ^ c.dimension.size

theorem Fits.lt_two_pow {c : Column} {points : Nat} (h : c.Fits points) :
    ∀ w ∈ c.words, w < 2 ^ (8 * c.dimension.size) := by
  rw [two_pow_eight_mul]
  exact h.lt

/-- The columns of rows that fit, taken dimension by dimension. -/
private theorem fits_of_mem_zipWith {order : ByteOrder} {dimensions : List Dimension}
    {rows : List Row} (h : ∀ row ∈ rows, Row.Fits (dimensions.map (·.size)) row) {c : Column}
    (hc : c ∈ List.zipWith (fun dimension words => (⟨dimension, order, words⟩ : Column)) dimensions
      (Row.columns dimensions.length rows)) : c.Fits rows.length := by
  induction dimensions generalizing rows with
  | nil => simp at hc
  | cons d dimensions ih =>
    rw [List.length_cons, Row.columns, List.zipWith_cons_cons] at hc
    -- Either it is the first column, or one of the columns of the tails.
    rcases List.mem_cons.mp hc with rfl | hc
    · refine ⟨by simp, ?_⟩
      intro w hw
      obtain ⟨row, hrow, rfl⟩ := List.mem_map.mp hw
      exact (Row.fits_cons (h row hrow)).1
    · have htail : ∀ row ∈ rows.map List.tail, Row.Fits (dimensions.map (·.size)) row := by
        intro row hrow
        obtain ⟨r, hr, rfl⟩ := List.mem_map.mp hrow
        exact (Row.fits_cons (h r hr)).2
      have hfits := ih htail hc
      rwa [List.length_map] at hfits

theorem fits_of_mem_ofRows {s : Schema} {rows : List Row}
    (h : ∀ row ∈ rows, Row.Fits s.sizes row) {c : Column} (hc : c ∈ ofRows s rows) :
    c.Fits rows.length :=
  fits_of_mem_zipWith h hc

theorem map_dimension_ofRows (s : Schema) (rows : List Row) :
    (ofRows s rows).map (·.dimension) = s.dimensions := by
  rw [ofRows, List.map_zipWith]
  apply List.ext_getElem
  · simp [Schema.columns, Schema.width]
  · simp

theorem map_words_ofRows (s : Schema) (rows : List Row) :
    (ofRows s rows).map (·.words) = s.columns rows := by
  rw [ofRows, List.map_zipWith]
  apply List.ext_getElem
  · simp [Schema.columns, Schema.width]
  · simp

theorem order_of_mem_ofRows {s : Schema} {rows : List Row} {c : Column} (hc : c ∈ ofRows s rows) :
    c.order = s.order := by
  rw [ofRows, List.mem_iff_getElem] at hc
  obtain ⟨i, hi, rfl⟩ := hc
  simp

theorem dimension_mem_of_mem_ofRows {s : Schema} {rows : List Row} {c : Column}
    (hc : c ∈ ofRows s rows) : c.dimension ∈ s.dimensions := by
  rw [← map_dimension_ofRows s rows]
  exact List.mem_map_of_mem hc

theorem length_bytes (c : Column) : c.bytes.length = c.words.length * c.dimension.size := by
  simp [bytes, List.length_flatMap, List.map_const']

end Column

end PointCloud
