import Mathlib
import PointCloud.Proofs.Column.Plan
import PointCloud.Proofs.Kernel.RunLength
import PointCloud.Proofs.Kernel.SharedBits
import PointCloud.Proofs.Patch.Indices
import PointCloud.Proofs.Schema.Layout

/-!
# Byte orders

A schema fixes the order of the bytes of a word. Take two schemas that differ in nothing else, and
two buffers that hold the same words, each in its own order. What is computed from words cannot tell
them apart: the rows are the same, so bounds, statistics and payloads of groups are the same bit for
bit, and the indices by which points are sorted, kept and grouped are the same. What is moved are
the bytes of whole points, in the order of the schema. The kernels that write words one by one write
them in that order too, which changes neither the length of a stream nor what is read from it.

Main results:

* `Schema.wordAt_inOrder` — the same words are found everywhere, inside the buffers and past them;
* `Column.counterpart` — a column and its counterpart are encoded alike;
* `Patch.byteOrder_invisible` — what a byte order does not change.
-/

namespace PointCloud

/-! ## Words in place -/

namespace Schema

variable {s : Schema} {order : ByteOrder} {buffer other : Bytes} {points : Nat}

theorem wordAt_of_le (h : buffer.length ≤ points * s.size) {index : Nat} (hindex : points ≤ index)
    (d : Dimension) : s.wordAt buffer index d = 0 := by
  have hle : points * s.size ≤ index * s.size := Nat.mul_le_mul_right _ hindex
  rw [wordAt, List.drop_eq_nil_of_le (by omega), List.take_nil]
  cases s.order <;> rfl

/-- The same words are found everywhere, inside the buffers and past them. -/
theorem wordAt_inOrder (hbuffer : buffer.length = points * s.size)
    (hother : other.length = points * s.size)
    (hwords : ∀ index < points, ∀ d ∈ s.dimensions,
      s.wordAt buffer index d = (s.inOrder order).wordAt other index d) (index : Nat)
    {d : Dimension} (hd : d ∈ s.dimensions) :
    (s.inOrder order).wordAt other index d = s.wordAt buffer index d := by
  by_cases h : index < points
  · exact (hwords index h d hd).symm
  · have hpast := Nat.le_of_not_lt h
    rw [wordAt_of_le (Nat.le_of_eq hbuffer) hpast,
      wordAt_of_le (s := s.inOrder order) (Nat.le_of_eq hother) hpast]

/-- Where the same words are found, the same indices are chosen. -/
theorem sortedIndices_congr {t : Schema} {dimensions : List Dimension}
    (h : ∀ index, ∀ d ∈ dimensions, t.wordAt other index d = s.wordAt buffer index d) :
    t.sortedIndices dimensions other points = s.sortedIndices dimensions buffer points := by
  have hkey : (fun index => dimensions.map fun d => d.sortKey (t.wordAt other index d)) =
      fun index => dimensions.map fun d => d.sortKey (s.wordAt buffer index d) := by
    funext index
    exact List.map_congr_left fun d hd => by rw [h index d hd]
  rw [sortedIndices, sortedIndices, hkey]

theorem selectedIndices_congr {t : Schema} {d : Dimension} (predicate : Predicate)
    (h : ∀ index, t.wordAt other index d = s.wordAt buffer index d) :
    t.selectedIndices d predicate other points = s.selectedIndices d predicate buffer points :=
  List.filter_congr fun index _ => by rw [h index]

/-- The same rows are grouped alike: axes are found among the dimensions, and keys are made of
words, whatever the order of bytes. -/
theorem clusterPoints_inOrder (h : (s.inOrder order).rows other = s.rows buffer) (keyBits : Nat) :
    Hierarchical.clusterPoints (s.inOrder order) keyBits other =
      Hierarchical.clusterPoints s keyBits buffer := by
  unfold Hierarchical.clusterPoints
  rw [h]
  rfl

/-- And the groups are written alike. -/
theorem compress_inOrder (h : (s.inOrder order).rows other = s.rows buffer) (config : Config) :
    Hierarchical.compress config (s.inOrder order) other =
      Hierarchical.compress config s buffer := by
  unfold Hierarchical.compress
  dsimp only
  rw [clusterPoints_inOrder h, h]
  rfl

end Schema

/-! ## Columns -/

namespace Column

/-- The methods that write words one by one. -/
def wordMethods : List ColumnMethod := [.runLength, .sharedBits]

/-- Columns of one dimension in two byte orders that hold the same words. Neither the length of what
is written word by word nor what is read from it tells the orders apart. -/
structure Counterpart [Compressors] (points : Nat) (c c' : Column) : Prop where
  dimension : c'.dimension = c.dimension
  words     : c'.words = c.words
  length    : ∀ level, ∀ method ∈ wordMethods,
    (c'.encode level method).map List.length = (c.encode level method).map List.length
  decode    : ∀ level, ∀ method ∈ wordMethods, ∀ bytes bytes',
    c.encode level method = .ok bytes → c'.encode level method = .ok bytes' →
      Column.decode c'.dimension c'.order points bytes' method =
        Column.decode c.dimension c.order points bytes method ∧
      (points < 2 ^ 58 → Column.decode c.dimension c.order points bytes method = .ok c.words)

theorem counterpart [Compressors] {c : Column} {points : Nat} (hc : c.Fits points)
    (order : ByteOrder) :
    Counterpart points c { c with order } := by
  have hfits := hc.lt
  have hbits := hc.lt_two_pow
  have hcount := hc.length_words
  refine ⟨rfl, rfl, ?_, ?_⟩
  · intro level method hmethod
    simp only [wordMethods, List.mem_cons, List.not_mem_nil, or_false] at hmethod
    rcases hmethod with rfl | rfl
    -- runs
    · exact RunLength.length_encode_order ..
    -- shared bits
    · exact SharedBits.length_encode_order _ _ hbits
  · intro level method hmethod bytes bytes' h h'
    simp only [wordMethods, List.mem_cons, List.not_mem_nil, or_false] at hmethod
    rw [← hcount]
    rcases hmethod with rfl | rfl
    -- runs
    · refine ⟨RunLength.decode_encode_order hfits h' h, fun hsmall => ?_⟩
      exact RunLength.decode_of_encode hfits (by omega) h
    -- shared bits
    · refine ⟨SharedBits.decode_encode_order hbits _ h' h, fun hsmall => ?_⟩
      exact SharedBits.decode_of_encode c.dimension.size_le hbits hsmall h

/-- Every column of the same rows has a counterpart in another order. -/
theorem forall₂_counterpart [Compressors] {s : Schema} {rows : List Row}
    (h : ∀ row ∈ rows, Row.Fits s.sizes row) (order : ByteOrder) :
    List.Forall₂ (Counterpart rows.length) (ofRows s rows) (ofRows (s.inOrder order) rows) := by
  have hmap : ofRows (s.inOrder order) rows = (ofRows s rows).map fun c => { c with order } := by
    rw [ofRows, ofRows, List.map_zipWith]
    rfl
  rw [hmap, List.forall₂_map_right_iff, List.forall₂_same]
  exact fun c hc => counterpart (fits_of_mem_ofRows h hc) order

end Column

/-! ## Patches -/

namespace Patch

/-- What a byte order does not change. Two buffers hold the same words under schemas that differ in
the order of bytes only. Their bounds and statistics are the same bit for bit; the same points form
the clusters, and the payloads of clusters are the same bytes. Patches that decode to them give the
same answer whether they are in order, are sorted by the same permutation of points, and keep the
same points when they are filtered. Their columns are written word by word in the same length, and
read back as the same words. And a word that is written, or put in place, is read in either
order. -/
theorem byteOrder_invisible [Compressors] [LawfulCompressors] {s : Schema} {order : ByteOrder}
    {buffer other : Bytes} {points : Nat} (hbuffer : buffer.length = points * s.size)
    (hother : other.length = points * s.size)
    (hwords : ∀ index < points, ∀ d ∈ s.dimensions,
      s.wordAt buffer index d = (s.inOrder order).wordAt other index d) :
    let t := s.inOrder order
    t.bounds (t.rows other) points = s.bounds (s.rows buffer) points ∧
    t.statistics? (t.rows other) points = s.statistics? (s.rows buffer) points ∧
    (∀ keyBits, Hierarchical.clusterPoints t keyBits other =
      Hierarchical.clusterPoints s keyBits buffer) ∧
    (∀ config, Hierarchical.compress config t other = Hierarchical.compress config s buffer) ∧
    (∀ p q : Patch, p.decode s = .ok buffer → q.decode t = .ok other →
      (∀ names strict, q.isSorted t names strict = p.isSorted s names strict) ∧
      (∀ names dimensions, names.mapM s.named = .ok dimensions →
        t.sortedIndices dimensions other points = s.sortedIndices dimensions buffer points ∧
        (∀ config target p', p.sort config s names target = .ok p' →
          p'.decode s = .ok (s.gather buffer (s.sortedIndices dimensions buffer points))) ∧
        ∀ config target q', q.sort config t names target = .ok q' →
          q'.decode t = .ok (t.gather other (t.sortedIndices dimensions other points))) ∧
      ∀ name d predicate, s.named name = .ok d →
        let kept := s.selectedIndices d predicate buffer points
        t.selectedIndices d predicate other points = kept ∧
        (∀ config target p', p.filter config s name predicate target = .ok p' →
          ∃ indices, indices.Perm kept ∧ (p'.scheme ≠ .hierarchical → indices = kept) ∧
            p'.decode s = .ok (s.gather buffer indices)) ∧
        ∀ config target q', q.filter config t name predicate target = .ok q' →
          ∃ indices, indices.Perm kept ∧ (q'.scheme ≠ .hierarchical → indices = kept) ∧
            q'.decode t = .ok (t.gather other indices)) ∧
    List.Forall₂ (Column.Counterpart points) (Column.ofRows s (s.rows buffer))
      (Column.ofRows t (t.rows other)) ∧
    ∀ (o : ByteOrder) (size word : Nat), o.word (o.bytes size word) = word % 2 ^ (8 * size) ∧
      ∀ offset (dest : Bytes), offset + size ≤ dest.length →
        o.word (((o.put size word offset dest).drop offset).take size) = word % 2 ^ (8 * size) := by
  intro t
  have hrows : t.rows other = s.rows buffer := Schema.rows_inOrder hbuffer hother hwords
  have hword : ∀ index, ∀ d ∈ s.dimensions, t.wordAt other index d = s.wordAt buffer index d :=
    fun index d hd => Schema.wordAt_inOrder hbuffer hother hwords index hd
  refine ⟨?_, ?_, Schema.clusterPoints_inOrder hrows, Schema.compress_inOrder hrows, ?_, ?_, ?_⟩
  · rw [hrows]
    rfl
  · rw [hrows]
    rfl
  · intro p q hp hq
    have hcount := count_of_decode hp hbuffer
    have hcount' := count_of_decode hq hother
    refine ⟨?_, ?_, ?_⟩
    -- the test of neighbours
    · intro names strict
      unfold isSorted
      rw [rows_of_decode hp, rows_of_decode hq, hrows]
      rfl
    -- sorting
    · intro names dimensions hnames
      have hmem := mem_of_mapM_named hnames
      refine ⟨Schema.sortedIndices_congr fun index d hd => hword index d (hmem d hd), ?_, ?_⟩
      · intro config target p' h
        rw [← hcount]
        exact decode_sort hp hnames h
      · intro config target q' h
        rw [← hcount']
        exact decode_sort hq hnames h
    -- keeping what passes a test
    · intro name d predicate hd kept
      obtain ⟨hmem, -⟩ := Schema.named_eq_ok_iff.mp hd
      have hkept : t.selectedIndices d predicate other points = kept :=
        Schema.selectedIndices_congr predicate fun index => hword index d hmem
      refine ⟨hkept, ?_, ?_⟩
      · intro config target p' h
        simp only [kept, ← hcount]
        exact exists_indices_of_filter hp hd h
      · intro config target q' h
        rw [← hkept, ← hcount']
        exact exists_indices_of_filter hq hd h
  · -- The columns are those of the same rows.
    have hfits : ∀ row ∈ s.rows buffer, Row.Fits s.sizes row := fun _ => s.fits_of_mem_rows
    have hcounterparts := Column.forall₂_counterpart hfits order
    rw [s.length_rows hbuffer] at hcounterparts
    rw [hrows]
    exact hcounterparts
  · -- Single words need no schema.
    intro o size word
    rw [two_pow_eight_mul]
    exact ⟨o.word_bytes size word, fun offset dest h => o.word_put size word (by omega)⟩

/-- Two points of the plane in both byte orders, one of them with negative coordinates. -/
theorem byteOrder_invisible_planar :
    let s := Schema.planar
    let t := s.inOrder .little
    let buffer : Bytes := [0, 7, 255, 0, 3, 128, 7, 255, 1, 3]
    let other : Bytes := [7, 0, 0, 255, 3, 7, 128, 1, 255, 3]
    buffer.length = 2 * s.size ∧ other.length = 2 * s.size ∧
    (∀ index < 2, ∀ d ∈ s.dimensions, s.wordAt buffer index d = t.wordAt other index d) ∧
    t.bounds (t.rows other) 2 = s.bounds (s.rows buffer) 2 ∧
    (∀ config, Hierarchical.compress config t other = Hierarchical.compress config s buffer) ∧
    List.Forall₂ (Column.Counterpart 2) (Column.ofRows s (s.rows buffer))
      (Column.ofRows t (t.rows other)) := by
  intro s t buffer other
  have hbuffer : buffer.length = 2 * s.size := by decide
  have hother : other.length = 2 * s.size := by decide
  have hwords : ∀ index < 2, ∀ d ∈ s.dimensions, s.wordAt buffer index d =
      t.wordAt other index d := by decide
  obtain ⟨hbounds, -, -, hcompress, -, hcolumns, -⟩ := byteOrder_invisible hbuffer hother hwords
  exact ⟨hbuffer, hother, hwords, hbounds, hcompress, hcolumns⟩

end Patch

end PointCloud
