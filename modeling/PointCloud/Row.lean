import PointCloud.Bytes.Order
import PointCloud.Bytes.Pieces

/-!
# Rows

A row holds the words of one point, one for every dimension. Its bytes are the words one after the
other, without gaps, so a buffer of points is cut into rows by the sum of the word sizes.

Main results:

* `Row.ofBytes_toBytes` — reading a written row gives it back if its words fit;
* `Row.toBytes_ofBytes` — writing a row that was read gives its bytes back;
* `Row.ofColumns_columns` — rows taken apart into columns are put together again.
-/

namespace PointCloud

/-- The words of one point. -/
abbrev Row := List Nat

namespace Row

/-- Reads words of the given sizes, one after the other. -/
def ofBytes (order : ByteOrder) : List Nat → Bytes → Row
  | [], _ => []
  | size :: sizes, bytes => order.word (bytes.take size) :: ofBytes order sizes (bytes.drop size)

/-- Writes words in the given sizes, one after the other. -/
def toBytes (order : ByteOrder) : List Nat → Row → Bytes
  | size :: sizes, w :: row => order.bytes size w ++ toBytes order sizes row
  | _, _ => []

/-- Whether a row has a word for every size, and none too wide. -/
def Fits : List Nat → Row → Prop
  | [], row => row = []
  | _ :: _, [] => False
  | size :: sizes, w :: row => w < 256 ^ size ∧ Fits sizes row

@[simp] theorem length_ofBytes (order : ByteOrder) (sizes : List Nat) (bytes : Bytes) :
    (ofBytes order sizes bytes).length = sizes.length := by
  induction sizes generalizing bytes with
  | nil => rfl
  | cons size sizes ih => simp [ofBytes, ih]

theorem length_toBytes (order : ByteOrder) (sizes : List Nat) (row : Row)
    (h : row.length = sizes.length) : (toBytes order sizes row).length = sizes.sum := by
  induction sizes generalizing row with
  | nil => cases row <;> simp_all [toBytes]
  | cons size sizes ih =>
    cases row with
    | nil => simp at h
    | cons w row => simp_all [toBytes]

theorem ofBytes_toBytes {order : ByteOrder} {sizes : List Nat} {row : Row} (h : Fits sizes row) :
    ofBytes order sizes (toBytes order sizes row) = row := by
  induction sizes generalizing row with
  | nil => simp_all [Fits, ofBytes]
  | cons size sizes ih =>
    cases row with
    | nil => simp [Fits] at h
    | cons w row =>
      simp only [Fits] at h
      simp only [toBytes, ofBytes]
      rw [List.take_left' (by simp), List.drop_left' (by simp), ih h.2, ByteOrder.word_bytes,
        Nat.mod_eq_of_lt h.1]

theorem toBytes_ofBytes {order : ByteOrder} {sizes : List Nat} {bytes : Bytes}
    (h : bytes.length = sizes.sum) : toBytes order sizes (ofBytes order sizes bytes) = bytes := by
  induction sizes generalizing bytes with
  | nil =>
    have : bytes = [] := List.eq_nil_of_length_eq_zero (by simpa using h)
    simp [toBytes, this]
  | cons size sizes ih =>
    simp only [List.sum_cons] at h
    have htake : (bytes.take size).length = size := by rw [List.length_take]; omega
    have hdrop : (bytes.drop size).length = sizes.sum := by rw [List.length_drop]; omega
    have hword := order.bytes_word (bytes.take size)
    rw [htake] at hword
    rw [ofBytes, toBytes, hword, ih hdrop, List.take_append_drop]

theorem fits_ofBytes {order : ByteOrder} {sizes : List Nat} {bytes : Bytes}
    (h : bytes.length = sizes.sum) : Fits sizes (ofBytes order sizes bytes) := by
  induction sizes generalizing bytes with
  | nil => rfl
  | cons size sizes ih =>
    simp only [List.sum_cons] at h
    have htake : (bytes.take size).length = size := by rw [List.length_take]; omega
    have hlt := order.word_lt (bytes.take size)
    rw [htake] at hlt
    exact ⟨hlt, ih (by rw [List.length_drop]; omega)⟩

/-! ## Rows and columns -/

/-- The columns of rows of `width` words. -/
def columns : Nat → List Row → List (List Nat)
  | 0, _ => []
  | width + 1, rows => rows.map (·.headD 0) :: columns width (rows.map List.tail)

/-- The rows of columns of `count` words. -/
def ofColumns (count : Nat) : List (List Nat) → List Row
  | [] => List.replicate count []
  | column :: rest => List.zipWith List.cons column (ofColumns count rest)

@[simp] theorem length_columns (width : Nat) (rows : List Row) :
    (columns width rows).length = width := by
  induction width generalizing rows with
  | zero => rfl
  | succ width ih => simp [columns, ih]

theorem ofColumns_columns {width : Nat} {rows : List Row} (h : ∀ row ∈ rows, row.length = width) :
    ofColumns rows.length (columns width rows) = rows := by
  induction width generalizing rows with
  | zero =>
    have : rows = List.replicate rows.length [] :=
      List.eq_replicate_iff.mpr ⟨rfl, fun row hrow => List.eq_nil_of_length_eq_zero (h row hrow)⟩
    rw [columns, ofColumns, ← this]
  | succ width ih =>
    have htail : ∀ row ∈ rows.map List.tail, row.length = width := by
      intro row hrow
      obtain ⟨r, hr, rfl⟩ := List.mem_map.mp hrow
      rw [List.length_tail, h r hr, Nat.add_sub_cancel]
    have hrest := ih htail
    rw [List.length_map] at hrest
    rw [columns, ofColumns, hrest, List.zipWith_map, List.zipWith_self]
    conv => rhs; rw [← List.map_id rows]
    refine List.map_congr_left fun row hrow => ?_
    have hlength := h row hrow
    cases row with
    | nil => simp at hlength
    | cons w row => rfl

end Row

end PointCloud
