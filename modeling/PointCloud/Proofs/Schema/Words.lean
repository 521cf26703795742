import Mathlib
import PointCloud.Proofs.Schema.Rows

/-!
# Words of buffers

A buffer is read in two ways: cut into points and each point into words, or word by word, at the
place that the schema gives the dimension inside its point. Both find the same words. So everything
that looks at rows depends on a buffer only through its words, and on a schema only through its
dimensions: the byte order is used up once the words are found.

Main results:

* `Schema.rows_eq_map_words` — the rows of a buffer are its words, point by point;
* `Schema.rows_inOrder` — buffers of the same words in two byte orders have the same rows;
* `Schema.bytes_map` — points picked by their indices are the bytes of their rows.
-/

namespace PointCloud

/-! ## Words of a row -/

namespace Row

theorem getElem_ofBytes (order : ByteOrder) {sizes : List Nat} (bytes : Bytes) {j : Nat}
    (h : j < (ofBytes order sizes bytes).length) (hj : j < sizes.length) :
    (ofBytes order sizes bytes)[j] =
      order.word ((bytes.drop (sizes.take j).sum).take sizes[j]) := by
  induction sizes generalizing bytes j with
  | nil => simp at hj
  | cons size sizes ih =>
    cases j with
    | zero => simp [ofBytes]
    | succ j =>
      -- The words after the first are those of what is left behind it.
      have hrest := ih (bytes.drop size) (by simpa [ofBytes] using h) (by simpa using hj)
      simpa [ofBytes, List.drop_drop] using hrest

end Row

namespace Schema

variable (s : Schema)

/-! ## Names and places -/

/-- The same schema, with its words in the given byte order. -/
def inOrder (order : ByteOrder) : Schema := { s with order }

/-- The bytes of the point at an index. -/
def pointAt (buffer : Bytes) (index : Nat) : Bytes :=
  (buffer.drop (index * s.size)).take s.size

/-- The word of a dimension in the point at an index. -/
def wordAt (buffer : Bytes) (index : Nat) (d : Dimension) : Nat :=
  s.order.word ((buffer.drop (index * s.size + s.byteOffset d.position)).take d.size)

/-- The points at the given indices, one after the other. -/
def gather (buffer : Bytes) (indices : List Nat) : Bytes := indices.flatMap (s.pointAt buffer)

variable {s}

/-- No two dimensions of a schema share a name. -/
theorem eq_of_name_eq {d e : Dimension} (hd : d ∈ s.dimensions) (he : e ∈ s.dimensions)
    (h : d.name = e.name) : d = e :=
  List.inj_on_of_nodup_map s.valid.2.2.2.2 hd he h

/-- A schema finds its dimensions by their names, of which none occurs twice. -/
theorem named?_eq_some_iff {name : String} {d : Dimension} :
    s.named? name = some d ↔ d ∈ s.dimensions ∧ d.name = name := by
  unfold named?
  constructor
  · intro hfind
    have hname := List.find?_some hfind
    exact ⟨List.mem_of_find?_eq_some hfind, eq_of_beq hname⟩
  · intro h
    obtain ⟨hd, rfl⟩ := h
    cases hfind : s.dimensions.find? fun e => e.name == d.name with
    | none =>
      have hother := List.find?_eq_none.mp hfind d hd
      exact absurd (beq_self_eq_true d.name) hother
    | some e =>
      have hname := List.find?_some hfind
      have hmem := List.mem_of_find?_eq_some hfind
      rw [eq_of_name_eq hmem hd (eq_of_beq hname)]

theorem named_eq_ok_iff {name : String} {d : Dimension} :
    s.named name = .ok d ↔ d ∈ s.dimensions ∧ d.name = name := by
  rw [← named?_eq_some_iff]
  unfold named
  cases s.named? name <;> simp

theorem position_getElem {j : Nat} (h : j < s.dimensions.length) :
    (s.dimensions[j]).position = j := by
  have hrange := congrArg (fun positions => positions[j]?) s.valid.2.1
  simpa [h] using hrange

theorem getElem_position {d : Dimension} (h : d ∈ s.dimensions) :
    s.dimensions[d.position]? = some d := by
  obtain ⟨j, hj, rfl⟩ := List.mem_iff_getElem.mp h
  rw [position_getElem hj]
  exact List.getElem?_eq_getElem hj

/-- The word of a dimension begins where the words before it end. -/
theorem byteOffset_of_split {before after : List Dimension} {d : Dimension}
    (h : before ++ d :: after = s.dimensions) :
    s.byteOffset d.position = (before.map (·.size)).sum := by
  -- A valid schema numbers its dimensions in order.
  have hposition : d.position = before.length := by
    have hrange := s.valid.2.1
    have hget := congrArg (fun positions => positions[before.length]?) hrange
    simp only [← h, List.map_append, List.map_cons] at hget
    rw [List.getElem?_append_right (by simp)] at hget
    simpa using hget
  rw [byteOffset, sizes, ← h, hposition, List.map_append, List.take_left' (by simp)]

/-- And it ends where the next one begins. -/
theorem byteOffset_succ {d : Dimension} (h : d ∈ s.dimensions) :
    s.byteOffset (d.position + 1) = s.byteOffset d.position + d.size := by
  obtain ⟨hlt, hd⟩ := List.getElem?_eq_some_iff.mp (getElem_position h)
  have hlt' : d.position < s.sizes.length := by rwa [s.length_sizes]
  have hsize : s.sizes[d.position] = d.size := by simp [sizes, hd]
  rw [byteOffset, byteOffset, List.take_succ_eq_append_getElem hlt', List.sum_append, hsize]
  simp

theorem byteOffset_mono {i j : Nat} (h : i ≤ j) : s.byteOffset i ≤ s.byteOffset j :=
  ((List.take_prefix_take_left h).sublist).sum_le_sum fun _ _ => Nat.zero_le _

theorem byteOffset_le_size (position : Nat) : s.byteOffset position ≤ s.size :=
  ((List.take_prefix position s.sizes).sublist).sum_le_sum fun _ _ => Nat.zero_le _

/-- Every word lies inside its point. -/
theorem byteOffset_add_size_le {d : Dimension} (h : d ∈ s.dimensions) :
    s.byteOffset d.position + d.size ≤ s.size := by
  rw [← byteOffset_succ h]
  exact byteOffset_le_size _

theorem wordAt_lt (buffer : Bytes) (index : Nat) (d : Dimension) :
    s.wordAt buffer index d < 2 ^ d.interpretation.bits := by
  have hlt := s.order.word_lt
    ((buffer.drop (index * s.size + s.byteOffset d.position)).take d.size)
  rw [d.two_pow_bits]
  exact Nat.lt_of_lt_of_le hlt (Nat.pow_le_pow_right (by decide) (List.length_take_le ..))

/-! ## Rows -/

/-- The row of a point holds the word of every dimension. -/
theorem row_pointAt (buffer : Bytes) (index : Nat) :
    s.row (s.pointAt buffer index) = s.dimensions.map (s.wordAt buffer index) := by
  show Row.ofBytes s.order s.sizes (s.pointAt buffer index) = _
  apply List.ext_getElem
  · simp [sizes]
  · intro j hj hj'
    have hdim : j < s.dimensions.length := by simpa using hj'
    have hsizes : j < s.sizes.length := by simpa [sizes] using hdim
    have hinside := byteOffset_add_size_le (List.getElem_mem hdim)
    rw [position_getElem hdim] at hinside
    -- What is taken of the point first is at least as long as the word.
    have hmin : min (s.dimensions[j]).size (s.size - s.byteOffset j) = (s.dimensions[j]).size :=
      Nat.min_eq_left (by omega)
    have hsize : s.sizes[j] = (s.dimensions[j]).size := by simp [sizes]
    rw [Row.getElem_ofBytes _ _ _ hsizes, List.getElem_map, wordAt, position_getElem hdim]
    show s.order.word (((s.pointAt buffer index).drop (s.byteOffset j)).take s.sizes[j]) = _
    rw [hsize, pointAt, List.drop_take, List.drop_drop, List.take_take, hmin]

theorem cut_eq_map (buffer : Bytes) (points first : Nat) :
    cut s.size points (buffer.drop (first * s.size)) =
      (List.range' first points).map (s.pointAt buffer) := by
  induction points generalizing first with
  | zero => rfl
  | succ points ih =>
    rw [cut, List.range'_succ, List.map_cons, List.drop_drop, ← Nat.succ_mul, ih]
    rfl

/-- The rows of a buffer are its words, point by point. -/
theorem rows_eq_map_words {buffer : Bytes} {points : Nat} (h : buffer.length = points * s.size) :
    s.rows buffer =
      (List.range points).map fun index => s.dimensions.map (s.wordAt buffer index) := by
  have hcut := s.cut_eq_map buffer points 0
  rw [Nat.zero_mul, List.drop_zero, ← List.range_eq_range'] at hcut
  rw [rows, h, Nat.mul_div_cancel _ s.size_pos, hcut, List.map_map]
  exact List.map_congr_left fun index _ => row_pointAt buffer index

/-- The word of a dimension is found in a row at the position of the dimension. -/
theorem getD_map_wordAt {d : Dimension} (h : d ∈ s.dimensions) (buffer : Bytes) (index : Nat) :
    (s.dimensions.map (s.wordAt buffer index)).getD d.position 0 = s.wordAt buffer index d := by
  rw [List.getD_eq_getElem?_getD, List.getElem?_map, getElem_position h]
  rfl

/-- Buffers of the same words in two byte orders have the same rows. -/
theorem rows_inOrder {order : ByteOrder} {buffer other : Bytes} {points : Nat}
    (hbuffer : buffer.length = points * s.size) (hother : other.length = points * s.size)
    (hwords : ∀ index < points, ∀ d ∈ s.dimensions,
      s.wordAt buffer index d = (s.inOrder order).wordAt other index d) :
    (s.inOrder order).rows other = s.rows buffer := by
  have hrows : (s.inOrder order).rows other = (List.range points).map fun index =>
      s.dimensions.map ((s.inOrder order).wordAt other index) := rows_eq_map_words hother
  rw [hrows, rows_eq_map_words hbuffer]
  refine List.map_congr_left fun index hindex => List.map_congr_left fun d hd => ?_
  exact (hwords index (List.mem_range.mp hindex) d hd).symm

/-! ## Points by their indices -/

/-- Points picked by their indices are the bytes of their rows. -/
theorem bytes_map {buffer : Bytes} {points : Nat} (h : buffer.length = points * s.size)
    {indices : List Nat} (hindices : ∀ index ∈ indices, index < points) :
    s.bytes (indices.map fun index => s.dimensions.map (s.wordAt buffer index)) =
      s.gather buffer indices := by
  rw [bytes, gather, List.flatMap_map, List.flatMap_def, List.flatMap_def]
  congr 1
  refine List.map_congr_left fun index hindex => ?_
  -- A point is long enough to be written as it was read.
  have hle : (index + 1) * s.size ≤ points * s.size :=
    Nat.mul_le_mul_right _ (hindices index hindex)
  rw [Nat.succ_mul] at hle
  have hlength : (s.pointAt buffer index).length = s.size := by
    rw [pointAt, List.length_take, List.length_drop]
    omega
  rw [← row_pointAt]
  exact s.rowBytes_row hlength

end Schema

end PointCloud
