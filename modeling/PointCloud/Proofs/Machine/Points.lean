import Mathlib
import PointCloud.Proofs.Machine.Reader
import PointCloud.Proofs.Schema.Words
import PointCloud.Proofs.Scheme.Lengths

/-!
# Points in a buffer

The machine sets a buffer of points aside and fills it dimension by dimension, each word at the
offset of its dimension in its point. The rows of columns are put together at once. After some
dimensions, every point begins with the words that its row begins with, whatever comes after them;
after the last dimension nothing comes after them.

Main results:

* `Machine.Begins.writeColumn` — a column goes behind those before it, and no index is out of range;
* `Machine.fillColumns_follows` — columns that are read and written in turn make the rows.
-/

namespace PointCloud

namespace Machine

variable {input : Bytes} {order : ByteOrder} {size offset stride : Nat}

/-! ## One column -/

/-- Writes the words of a dimension into the points of a buffer, in order. A point has `stride`
bytes; bytes after the last whole point, and points without a word, are left alone. -/
def writeColumn (order : ByteOrder) (size offset stride : Nat) : List Nat → Bytes → Run Bytes
  | [], buffer => .ok buffer
  | word :: words, buffer => do
    if buffer.length < stride then return buffer
    let point ← writeWord order size word offset (buffer.take stride)
    let rest ← writeColumn order size offset stride words (buffer.drop stride)
    return point ++ rest

theorem writeColumn_cons {buffer : Bytes} (h : stride ≤ buffer.length) (w : Nat)
    (words : List Nat) :
    writeColumn order size offset stride (w :: words) buffer = do
      let point ← writeWord order size w offset (buffer.take stride)
      let rest ← writeColumn order size offset stride words (buffer.drop stride)
      return point ++ rest := by
  rw [writeColumn, if_neg (Nat.not_lt.mpr h)]

/-- Words that agree in the bytes that are written. -/
theorem writeWord_congr (order : ByteOrder) {w w' : Nat} {bytes : Bytes} (hsize : size ≤ 8)
    (hbytes : offset + size ≤ bytes.length) (hlength : bytes.length < 2 ^ 64)
    (h : w % 256 ^ size = w' % 256 ^ size) :
    writeWord order size w offset bytes = writeWord order size w' offset bytes := by
  rw [writeWord_eq order w hsize hbytes hlength, writeWord_eq order w' hsize hbytes hlength,
    ByteOrder.put, ByteOrder.put, ← order.bytes_mod size w, h, order.bytes_mod]

/-- Whatever the words are, a dimension inside the point is written in range. -/
theorem writeColumn_isOk (order : ByteOrder) (words : List Nat) {buffer : Bytes} (hsize : size ≤ 8)
    (hroom : offset + size ≤ stride) (hlength : buffer.length < 2 ^ 62) :
    ∃ filled, writeColumn order size offset stride words buffer = .ok filled := by
  induction words generalizing buffer with
  | nil => exact ⟨buffer, rfl⟩
  | cons w words ih =>
    -- A buffer that ends early leaves words over, and they are dropped.
    by_cases hshort : buffer.length < stride
    · exact ⟨buffer, by rw [writeColumn, if_pos hshort, Result.pure_eq]⟩
    · have htake : (buffer.take stride).length = stride := by
        rw [List.length_take]
        omega
      have hdrop : (buffer.drop stride).length < 2 ^ 62 := by
        rw [List.length_drop]
        omega
      obtain ⟨rest, hrest⟩ := ih hdrop
      refine ⟨order.put size w offset (buffer.take stride) ++ rest, ?_⟩
      rw [writeColumn_cons (by omega), writeWord_eq order w hsize (by omega) (by omega),
        Result.ok_bind, hrest]
      rfl

/-! ## Points that are filled in part -/

/-- The points of a buffer begin with `heads`, of `offset` bytes each, and have `rest` bytes after
them. -/
structure Begins (offset rest : Nat) (heads : List Bytes) (buffer : Bytes) : Prop where
  exists_tails : ∃ tails : List Bytes, tails.length = heads.length ∧
    (∀ tail ∈ tails, tail.length = rest) ∧ buffer = (List.zipWith (· ++ ·) heads tails).flatten
  length_head : ∀ head ∈ heads, head.length = offset

namespace Begins

variable {rest : Nat} {heads : List Bytes} {buffer : Bytes}

theorem nil (offset rest : Nat) : Begins offset rest [] [] := ⟨⟨[], rfl, by simp, rfl⟩, by simp⟩

theorem cons_iff {head : Bytes} :
    Begins offset rest (head :: heads) buffer ↔
      head.length = offset ∧ ∃ tail others : Bytes, tail.length = rest ∧
        Begins offset rest heads others ∧ buffer = head ++ tail ++ others := by
  constructor
  · rintro ⟨⟨tails, hlength, htails, rfl⟩, hheads⟩
    cases tails with
    | nil => simp at hlength
    | cons tail tails =>
      rw [List.forall_mem_cons] at hheads htails
      have hothers : Begins offset rest heads (List.zipWith (· ++ ·) heads tails).flatten :=
        ⟨⟨tails, Nat.succ.inj hlength, htails.2, rfl⟩, hheads.2⟩
      exact ⟨hheads.1, tail, _, htails.1, hothers, rfl⟩
  · rintro ⟨hhead, tail, _, htail, ⟨⟨tails, hlength, htails, rfl⟩, hheads⟩, rfl⟩
    refine ⟨⟨tail :: tails, congrArg (· + 1) hlength, ?_, rfl⟩, ?_⟩
    · exact List.forall_mem_cons.mpr ⟨htail, htails⟩
    · exact List.forall_mem_cons.mpr ⟨hhead, hheads⟩

/-- At first nothing of a point is written. -/
theorem start {points : Nat} (h : buffer.length = points * rest) :
    Begins 0 rest (List.replicate points []) buffer := by
  induction points generalizing buffer with
  | zero =>
    rw [Nat.zero_mul, List.length_eq_zero_iff] at h
    rw [h]
    exact nil 0 rest
  | succ points ih =>
    rw [Nat.succ_mul] at h
    have htake : (buffer.take rest).length = rest := by
      rw [List.length_take]
      omega
    have hrest : (buffer.drop rest).length = points * rest := by
      rw [List.length_drop]
      omega
    -- A point that is not written yet is all tail.
    have hdrop := ih hrest
    rw [List.replicate_succ, cons_iff]
    exact ⟨rfl, _, _, htake, hdrop, (List.take_append_drop rest buffer).symm⟩

/-- Points that are full make the buffer. -/
theorem flatten_eq (h : Begins offset 0 heads buffer) : buffer = heads.flatten := by
  induction heads generalizing buffer with
  | nil =>
    obtain ⟨⟨tails, -, -, rfl⟩, -⟩ := h
    rfl
  | cons head heads ih =>
    obtain ⟨-, tail, others, htail, hothers, rfl⟩ := cons_iff.mp h
    rw [List.length_eq_zero_iff.mp htail, List.append_nil, ih hothers, List.flatten_cons]

theorem length_eq (h : Begins offset rest heads buffer) :
    buffer.length = heads.length * (offset + rest) := by
  induction heads generalizing buffer with
  | nil =>
    obtain ⟨⟨tails, -, -, rfl⟩, -⟩ := h
    simp
  | cons head heads ih =>
    obtain ⟨hhead, tail, others, htail, hothers, rfl⟩ := cons_iff.mp h
    rw [List.length_append, List.length_append, ih hothers, List.length_cons, hhead, htail]
    ring

/-- A column goes behind those before it. -/
theorem writeColumn (order : ByteOrder) {words : List Nat}
    (h : Begins offset (size + rest) heads buffer) (hsize : size ≤ 8)
    (hstride : stride = offset + (size + rest)) (hlength : buffer.length < 2 ^ 62)
    (hwords : words.length = heads.length) :
    ∃ filled, Machine.writeColumn order size offset stride words buffer = .ok filled ∧
      Begins (offset + size) rest
        (List.zipWith (fun head w => head ++ order.bytes size w) heads words) filled := by
  induction heads generalizing words buffer with
  | nil =>
    obtain ⟨⟨tails, -, -, rfl⟩, -⟩ := h
    obtain rfl := List.length_eq_zero_iff.mp hwords
    exact ⟨[], rfl, nil _ _⟩
  | cons head heads ih =>
    cases words with
    | nil => simp at hwords
    | cons w words =>
      obtain ⟨hhead, tail, others, htail, hothers, rfl⟩ := cons_iff.mp h
      have hpoint : (head ++ tail).length = stride := by
        rw [List.length_append]
        omega
      rw [List.length_append, hpoint] at hlength
      obtain ⟨filled, hrun, hfilled⟩ := ih hothers (by omega) (Nat.succ.inj hwords)
      have hroom : offset + size ≤ (head ++ tail).length := by omega
      have hwrite := writeWord_eq order w hsize hroom (by omega)
      -- The word goes behind the head, over the first bytes of the tail.
      have hput : order.put size w offset (head ++ tail) =
          head ++ order.bytes size w ++ tail.drop size := by
        rw [ByteOrder.put, List.take_left' hhead, ← List.drop_drop, List.drop_left' hhead]
      refine ⟨head ++ order.bytes size w ++ tail.drop size ++ filled, ?_, ?_⟩
      · rw [writeColumn_cons (by rw [List.length_append, hpoint]; omega), List.take_left' hpoint,
          List.drop_left' hpoint, hwrite, Result.ok_bind, hrun, hput]
        rfl
      · rw [List.zipWith_cons_cons, cons_iff]
        refine ⟨?_, tail.drop size, filled, ?_, hfilled, rfl⟩
        · rw [List.length_append, order.length_bytes, hhead]
        · rw [List.length_drop]
          omega

end Begins

/-! ## All columns -/

/-- Reads the columns of dimensions, in order, and writes each before the next is read. -/
def fillColumns (step : Dimension → Reader input → Bytes → Run (Bytes × Reader input)) :
    List Dimension → Reader input → Bytes → Run (Bytes × Reader input)
  | [], r, buffer => .ok (buffer, r)
  | d :: dimensions, r, buffer => do
    let (buffer, r) ← step d r buffer
    fillColumns step dimensions r buffer

/-- A word behind a head, and the rest of the row behind both. -/
theorem zipWith_row {sizes : List Nat} {heads : List Bytes} {words : List Nat} {rows : List Row} :
    List.zipWith (fun head row => head ++ Row.toBytes order sizes row)
        (List.zipWith (fun head w => head ++ order.bytes size w) heads words) rows =
      List.zipWith (fun head row => head ++ Row.toBytes order (size :: sizes) row) heads
        (List.zipWith List.cons words rows) := by
  induction heads generalizing words rows with
  | nil => rfl
  | cons head heads ih =>
    cases words with
    | nil => simp
    | cons w words =>
      cases rows with
      | nil => simp
      | cons row rows =>
        simp only [List.zipWith_cons_cons, ih, Row.toBytes, List.append_assoc]

/-- Rows of no words add nothing to their heads. -/
theorem zipWith_replicate_nil (heads : List Bytes) :
    List.zipWith (fun head row => head ++ Row.toBytes order [] row) heads
      (List.replicate heads.length []) = heads := by
  induction heads with
  | nil => rfl
  | cons head heads ih =>
    have hnil : Row.toBytes order [] [] = [] := by simp [Row.toBytes]
    rw [List.length_cons, List.replicate_succ, List.zipWith_cons_cons, ih, hnil, List.append_nil]

/-- Heads that are empty leave the rows. -/
theorem flatten_replicate_nil (order : ByteOrder) (sizes : List Nat) (rows : List Row) :
    (List.zipWith (fun head row => head ++ Row.toBytes order sizes row)
      (List.replicate rows.length []) rows).flatten = rows.flatMap (Row.toBytes order sizes) := by
  induction rows with
  | nil => rfl
  | cons row rows ih =>
    rw [List.length_cons, List.replicate_succ, List.zipWith_cons_cons, List.flatten_cons, ih,
      List.flatMap_cons, List.nil_append]

section Fill

variable {s : Schema} {points : Nat}
  {step : Dimension → Reader input → Bytes → Run (Bytes × Reader input)}
  {readOne : Dimension → Cursor → Except Error (List Nat × Cursor)}
  {readAll : List Dimension → Cursor → Except Error (List (List Nat) × Cursor)}

/-- A column is read as by a reader of lists, and written behind those before it. -/
def Fills (input : Bytes) (s : Schema) (points : Nat)
    (step : Dimension → Reader input → Bytes → Run (Bytes × Reader input))
    (readOne : Dimension → Cursor → Except Error (List Nat × Cursor)) : Prop :=
  ∀ d ∈ s.dimensions, ∀ (r : Reader input) (c : Cursor) (buffer : Bytes), r.At c →
    buffer.length = points * s.size → s.byteOffset d.position + d.size ≤ s.size →
    Follows (fun x y => writeColumn s.order d.size (s.byteOffset d.position) s.size y.1 buffer =
        .ok x.1 ∧ y.1.length = points ∧ x.2.At y.2)
      (step d r buffer) (readOne d c)

theorem fillColumns_begins (hstep : Fills input s points step readOne)
    (hnil : ∀ c, readAll [] c = .ok ([], c))
    (hcons : ∀ d dimensions c, readAll (d :: dimensions) c = do
      let (words, c) ← readOne d c
      let (columns, c) ← readAll dimensions c
      return (words :: columns, c))
    {before after : List Dimension} (hsplit : before ++ after = s.dimensions) {r : Reader input}
    {c : Cursor} (hat : r.At c) {heads : List Bytes} {buffer : Bytes}
    (hheads : heads.length = points) (hsize : points * s.size < 2 ^ 62)
    (h : Begins (before.map (·.size)).sum (after.map (·.size)).sum heads buffer) :
    Follows (fun x y => Begins s.size 0 (List.zipWith
        (fun head row => head ++ Row.toBytes s.order (after.map (·.size)) row) heads
        (Row.ofColumns points y.1)) x.1 ∧ (∀ column ∈ y.1, column.length = points) ∧ x.2.At y.2)
      (fillColumns step after r buffer) (readAll after c) := by
  induction after generalizing before r c heads buffer with
  | nil =>
    -- After the last dimension nothing is left of a row.
    rw [hnil]
    refine .ok ⟨?_, by simp, hat⟩
    rw [List.append_nil] at hsplit
    subst hheads
    show Begins s.size 0 (List.zipWith _ heads (List.replicate heads.length [])) buffer
    rw [List.map_nil, zipWith_replicate_nil]
    rw [hsplit] at h
    exact h
  | cons d after ih =>
    have hoffset := Schema.byteOffset_of_split hsplit
    -- A point is split into what is written, the word of `d`, and what comes after it.
    have htotal : s.size = (before.map (·.size)).sum + (d.size + (after.map (·.size)).sum) := by
      rw [Schema.size, Schema.sizes, ← hsplit, List.map_append, List.sum_append, List.map_cons,
        List.sum_cons]
    rw [List.map_cons, List.sum_cons] at h
    have hlength : buffer.length = points * s.size := by
      rw [h.length_eq, hheads, htotal]
    have hmem : d ∈ s.dimensions := by
      rw [← hsplit]
      simp
    rw [hcons, fillColumns]
    have hone := hstep d hmem r c buffer hat hlength (by omega)
    refine hone.bind ?_
    rintro ⟨filled, r⟩ ⟨words, c⟩ ⟨hwrite, hwords, hat⟩
    dsimp only at hwrite hwords hat ⊢
    obtain ⟨filled', hrun, hbegins⟩ := h.writeColumn s.order d.size_le htotal (by omega)
      (hwords.trans hheads.symm)
    rw [hoffset, hrun] at hwrite
    obtain rfl := Except.ok.inj hwrite
    -- From here on `d` counts among the dimensions before.
    have hsplit' : (before ++ [d]) ++ after = s.dimensions := by
      rw [List.append_assoc]
      exact hsplit
    have hbegins' : Begins ((before ++ [d]).map (·.size)).sum (after.map (·.size)).sum
        (List.zipWith (fun head w => head ++ s.order.bytes d.size w) heads words) filled' := by
      simpa using hbegins
    have hrest := ih hsplit' hat (by rw [List.length_zipWith]; omega) hbegins'
    refine hrest.bind_right ?_
    rintro ⟨full, r⟩ ⟨columns, c⟩ _ ⟨hfull, hcolumns, hat⟩
    refine .ok ⟨?_, List.forall_mem_cons.mpr ⟨hwords, hcolumns⟩, hat⟩
    rw [zipWith_row] at hfull
    exact hfull

/-- Columns that are read and written in turn make the rows. -/
theorem fillColumns_follows (hstep : Fills input s points step readOne)
    (hnil : ∀ c, readAll [] c = .ok ([], c))
    (hcons : ∀ d dimensions c, readAll (d :: dimensions) c = do
      let (words, c) ← readOne d c
      let (columns, c) ← readAll dimensions c
      return (words :: columns, c))
    {r : Reader input} {c : Cursor} (hat : r.At c) (buffer : Bytes)
    (hsize : points * s.size < 2 ^ 62) (hbuffer : buffer.length = points * s.size) :
    Follows (fun x y => x.1 = s.bytes (Row.ofColumns points y.1) ∧ x.2.At y.2)
      (fillColumns step s.dimensions r buffer) (readAll s.dimensions c) := by
  have hbegins : Begins (([] : List Dimension).map (·.size)).sum (s.dimensions.map (·.size)).sum
      (List.replicate points []) buffer := Begins.start hbuffer
  have hfill := fillColumns_begins hstep hnil hcons rfl hat List.length_replicate hsize hbegins
  refine hfill.mono ?_
  rintro ⟨full, r⟩ ⟨columns, c⟩ ⟨hfull, hcolumns, hat⟩
  refine ⟨?_, hat⟩
  have hrows := Row.length_ofColumns hcolumns
  have hflat := flatten_replicate_nil s.order (s.dimensions.map (·.size))
    (Row.ofColumns points columns)
  rw [hrows] at hflat
  exact hfull.flatten_eq.trans hflat

end Fill

end Machine

end PointCloud
