import Mathlib
import PointCloud.Patch.Basic
import PointCloud.Proofs.Bytes.Exact
import PointCloud.Proofs.Kernel.Inflate
import PointCloud.Proofs.Scheme.Dimensional
import PointCloud.Proofs.Scheme.Lengths

/-!
# Payloads and their counts of points

The count of points stands in the header of a patch, apart from the payload. A reader is told the
count, and what it finds has to come to that: bytes as they are, runs, clusters and zlib streams add
up to one count each. Packed words do not. Their bits are rounded up to bytes, so words of fewer
than eight bits leave room for one more, and words of no bits at all for any count.

So a payload is accepted for two counts only if it consists of columns of packed words, each of
fewer than eight bits. Every other payload refuses a count that was altered.

Main results:

* `Column.points_unique` — one column, with the exception of narrow packed words;
* `Dimensional.exists_stores` — an accepted payload is a sequence of stored columns;
* `Hierarchical.readClusters_unique` — clusters do not depend on the count that is expected;
* `Scheme.points_determined` — payloads of every scheme, and patches with an altered count.
-/

namespace PointCloud

/-! ## Columns -/

/-- Packed words of eight bits or more are counted by the bytes that they fill, although their bits
are rounded up to bytes. -/
theorem SharedBits.count_unique {width count count' : Nat} (hwidth : 8 ≤ width)
    (h : (count * width + 7) / 8 = (count' * width + 7) / 8) : count = count' := by
  wlog hle : count ≤ count' generalizing count count'
  · exact (this h.symm (Nat.le_of_not_le hle)).symm
  by_contra hne
  have hlt : count + 1 ≤ count' := Nat.lt_of_le_of_ne hle hne
  -- One word more is eight bits more, which rounding up to a byte never makes up for.
  have hmore : (count + 1) * width ≤ count' * width := Nat.mul_le_mul_right _ hlt
  rw [Nat.succ_mul] at hmore
  omega

/-- A column of packed words is narrow if its words have fewer than eight bits. -/
def Column.IsNarrow (column : Column.Plan) : Prop :=
  column.1 = .sharedBits ∧ ∃ width packed, column.2 = width :: packed ∧ width.toNat < 8

/-- The packed words of a column fill its bytes, rounded up. -/
theorem SharedBits.length_of_decode {size count : Nat} {order : ByteOrder} {width : UInt8}
    {packed : Bytes} {words : List Nat}
    (h : decode size order count (width :: packed) = .ok words) :
    (packed.drop size).length = (count * width.toNat + 7) / 8 := by
  obtain ⟨width, leading, packed, hbytes, -, hleading, hpacked, -⟩ := decode_eq_ok_iff.mp h
  obtain ⟨rfl, rfl⟩ := List.cons.inj hbytes
  rw [List.drop_left' hleading, hpacked]

namespace Column

variable {d : Dimension} {order : ByteOrder} {points points' : Nat} {bytes : Bytes}
  {words words' : List Nat}

theorem length_bytes_of_ofVerbatim (h : ofVerbatim d order points bytes = .ok words) :
    bytes.length = points * d.size := by
  unfold ofVerbatim at h
  obtain ⟨expected, hexpected, h⟩ := Result.bind_eq_ok_iff.mp h
  simp only [Result.throw_eq, Result.error_bind] at h
  obtain ⟨hlength, -⟩ := Result.check_eq_ok_iff.mp h
  rw [not_not.mp hlength, (bufferLength_eq_ok_iff.mp hexpected).2]

/-- A zlib stream is asked for the bytes of the column. -/
theorem exists_inflated_of_decode (h : decode d order points bytes .deflate = .ok words) :
    ∃ inflated, Zlib.decode (points * d.size) bytes = .ok inflated := by
  obtain ⟨expected, hexpected, h⟩ := Result.bind_eq_ok_iff.mp h
  obtain ⟨inflated, hinflated, -⟩ := Result.bind_eq_ok_iff.mp h
  rw [(bufferLength_eq_ok_iff.mp hexpected).2] at hinflated
  exact ⟨inflated, hinflated⟩

/-- A column is read for one count of points at most, unless it is narrow. -/
theorem points_unique {column : Column.Plan} (hwide : ¬ IsNarrow column)
    (h : decode d order points column.2 column.1 = .ok words)
    (h' : decode d order points' column.2 column.1 = .ok words') : points = points' := by
  obtain ⟨method, bytes⟩ := column
  cases method with
  | verbatim =>
    have hlength := length_bytes_of_ofVerbatim h
    have hlength' := length_bytes_of_ofVerbatim h'
    exact Nat.eq_of_mul_eq_mul_right d.size_pos (hlength.symm.trans hlength')
  | runLength =>
    -- The same runs are read under both counts, and their lengths are what is counted.
    obtain ⟨-, rs, hstream, -, rfl, -⟩ := RunLength.decode_eq_ok_iff.mp h
    obtain ⟨-, rs', hstream', -, rfl, -⟩ := RunLength.decode_eq_ok_iff.mp h'
    rw [(hstream.unique hstream' (List.prefix_refl bytes)).1]
  | sharedBits =>
    cases bytes with
    | nil => cases h
    | cons width packed =>
      have hwidth : 8 ≤ width.toNat := by
        by_contra hnarrow
        exact hwide ⟨rfl, width, packed, rfl, Nat.lt_of_not_le hnarrow⟩
      have hlength := SharedBits.length_of_decode h
      have hlength' := SharedBits.length_of_decode h'
      exact SharedBits.count_unique hwidth (hlength.symm.trans hlength')
  | deflate =>
    obtain ⟨inflated, hinflated⟩ := exists_inflated_of_decode h
    obtain ⟨inflated', hinflated'⟩ := exists_inflated_of_decode h'
    exact Nat.eq_of_mul_eq_mul_right d.size_pos (Zlib.expected_unique hinflated hinflated')

end Column

/-! ## Payloads of columns -/

theorem ColumnMethod.eq_tag_of_ofTag {tag : UInt8} {m : ColumnMethod} (h : ofTag tag = .ok m) :
    tag = m.tag := by
  unfold ofTag ofTag? at h
  split at h
  · rename_i found hfind
    obtain rfl := Except.ok.inj h
    have htag := List.find?_some hfind
    exact (eq_of_beq htag).symm
  · cases h

namespace Dimensional

variable {order : ByteOrder} {points points' : Nat} {columns : List Column.Plan}

/-- The columns that a payload stores, one for every dimension. -/
structure Stores (s : Schema) (columns : List Column.Plan) (payload : Bytes) : Prop where
  width   : columns.length = s.width
  fits    : ∀ column ∈ columns, column.2.length < 2 ^ 32
  payload : payload = columns.flatMap (frame s.order)

/-- What is read as a column is a stored column. -/
theorem exists_frame_of_readColumn {d : Dimension} {c c' : Cursor} {words : List Nat}
    (h : readColumn d order points c = .ok (words, c')) :
    ∃ column : Column.Plan, column.2.length < 2 ^ 32 ∧ c.rest = frame order column ++ c'.rest := by
  unfold readColumn at h
  obtain ⟨⟨tag, c₁⟩, hbyte, h⟩ := Result.bind_eq_ok_iff.mp h
  obtain ⟨method, hmethod, h⟩ := Result.bind_eq_ok_iff.mp h
  obtain ⟨⟨length, c₂⟩, hword, h⟩ := Result.bind_eq_ok_iff.mp h
  obtain ⟨⟨encoded, c₃⟩, htake, h⟩ := Result.bind_eq_ok_iff.mp h
  obtain ⟨words', -, h⟩ := Result.bind_eq_ok_iff.mp h
  obtain ⟨-, rfl⟩ := Prod.mk.inj (Except.ok.inj h)
  obtain ⟨_, rfl, hrest₁, -⟩ := Cursor.byte_exact.sound hbyte
  obtain ⟨field, ⟨hfield, rfl⟩, hrest₂, -⟩ := (Cursor.word_exact order 4).sound hword
  obtain ⟨_, ⟨rfl, hlength⟩, hrest₃, -⟩ := (Cursor.take_exact _).sound htake
  obtain rfl := ColumnMethod.eq_tag_of_ofTag hmethod
  -- Four bytes hold the length that is read from them, and are written again from it.
  have hlt := order.word_lt field
  have hbytes := order.bytes_word field
  rw [hfield] at hlt hbytes
  refine ⟨(method, encoded), ?_, ?_⟩
  · rw [hlength]
    exact hlt
  · rw [hrest₁, hrest₂, hrest₃, frame, hlength, hbytes]
    simp only [List.cons_append, List.nil_append, List.append_assoc]

theorem exists_frames_of_readColumns {dimensions : List Dimension} {c c' : Cursor}
    {words : List (List Nat)} (h : readColumns order points dimensions c = .ok (words, c')) :
    ∃ columns : List Column.Plan, columns.length = dimensions.length ∧
      (∀ column ∈ columns, column.2.length < 2 ^ 32) ∧
        c.rest = columns.flatMap (frame order) ++ c'.rest := by
  induction dimensions generalizing c words with
  | nil =>
    obtain ⟨-, rfl⟩ := Prod.mk.inj (Except.ok.inj h)
    exact ⟨[], rfl, by simp, rfl⟩
  | cons d dimensions ih =>
    obtain ⟨⟨first, c₁⟩, hfirst, h⟩ := Result.bind_eq_ok_iff.mp h
    obtain ⟨⟨others, c₂⟩, hothers, h⟩ := Result.bind_eq_ok_iff.mp h
    obtain ⟨-, rfl⟩ := Prod.mk.inj (Except.ok.inj h)
    obtain ⟨column, hcolumn, hrest⟩ := exists_frame_of_readColumn hfirst
    obtain ⟨columns, hlength, hfits, hrest'⟩ := ih hothers
    refine ⟨column :: columns, congrArg (· + 1) hlength, ?_, ?_⟩
    · rw [List.forall_mem_cons]
      exact ⟨hcolumn, hfits⟩
    · rw [hrest, hrest', List.flatMap_cons, List.append_assoc]

/-- An accepted payload stores columns. -/
theorem exists_stores {s : Schema} {payload raw : Bytes}
    (h : decompress s points payload = .ok raw) : ∃ columns, Stores s columns payload := by
  obtain ⟨words, c, hread, hdone, -⟩ := exists_columns_of_decompress h
  obtain ⟨columns, hlength, hfits, hrest⟩ := exists_frames_of_readColumns hread
  rw [hdone, List.append_nil] at hrest
  exact ⟨columns, hlength, hfits, hrest⟩

/-- Every stored column of a payload that is read under two counts is decoded under both. -/
theorem exists_decode_of_readColumns {dimensions : List Dimension} {total : Nat} {rest : Bytes}
    (hlength : columns.length = dimensions.length)
    (hfits : ∀ column ∈ columns, column.2.length < 2 ^ 32) {found found' : List (List Nat) × Cursor}
    (h : readColumns order points dimensions ⟨total, columns.flatMap (frame order) ++ rest⟩ =
      .ok found)
    (h' : readColumns order points' dimensions ⟨total, columns.flatMap (frame order) ++ rest⟩ =
      .ok found') {column : Column.Plan} (hcolumn : column ∈ columns) :
    ∃ d words words', Column.decode d order points column.2 column.1 = .ok words ∧
      Column.decode d order points' column.2 column.1 = .ok words' := by
  induction dimensions generalizing columns found found' with
  | nil =>
    rw [List.eq_nil_of_length_eq_zero hlength] at hcolumn
    cases hcolumn
  | cons d dimensions ih =>
    cases columns with
    | nil => cases hlength
    | cons first columns =>
      obtain ⟨hfirst, hfits⟩ := List.forall_mem_cons.mp hfits
      -- Both readings take the first column, and the others from one and the same rest.
      rw [List.flatMap_cons, List.append_assoc] at h h'
      simp only [readColumns, readColumn_frame d hfirst, bind_assoc, Result.ok_bind] at h h'
      obtain ⟨words, hwords, h⟩ := Result.bind_eq_ok_iff.mp h
      obtain ⟨words', hwords', h'⟩ := Result.bind_eq_ok_iff.mp h'
      rcases List.mem_cons.mp hcolumn with rfl | hcolumn
      · exact ⟨d, words, words', hwords, hwords'⟩
      · obtain ⟨others, hothers, -⟩ := Result.bind_eq_ok_iff.mp h
        obtain ⟨others', hothers', -⟩ := Result.bind_eq_ok_iff.mp h'
        exact ih (Nat.succ.inj hlength) hfits hothers hothers' hcolumn

/-- A payload with a column that is not narrow is read for one count of points at most. -/
theorem points_unique {s : Schema} {payload raw raw' : Bytes} (hstores : Stores s columns payload)
    {column : Column.Plan} (hcolumn : column ∈ columns) (hwide : ¬ Column.IsNarrow column)
    (h : decompress s points payload = .ok raw) (h' : decompress s points' payload = .ok raw') :
    points = points' := by
  obtain ⟨read, c, hread, -⟩ := exists_columns_of_decompress h
  obtain ⟨read', c', hread', -⟩ := exists_columns_of_decompress h'
  have hstart : Cursor.start payload =
      ⟨payload.length, columns.flatMap (frame s.order) ++ []⟩ := by
    rw [List.append_nil, ← hstores.payload]
    rfl
  rw [hstart] at hread hread'
  obtain ⟨d, words, words', hwords, hwords'⟩ :=
    exists_decode_of_readColumns hstores.width hstores.fits hread hread' hcolumn
  exact Column.points_unique hwide hwords hwords'

end Dimensional

/-! ## Payloads of clusters -/

namespace Hierarchical

variable {s : Schema} {points points' : Nat} {payload raw raw' : Bytes}

/-- Clusters do not depend on the count of points that is expected. -/
theorem readClusters_unique {expected expected' clusters room room' : Nat} {c : Cursor}
    {found found' : List Row × Nat × Cursor}
    (h : readClusters s expected clusters room c = .ok found)
    (h' : readClusters s expected' clusters room' c = .ok found') : found.1 = found'.1 := by
  induction clusters generalizing room room' c found found' with
  | zero => rw [← Except.ok.inj h, ← Except.ok.inj h']
  | succ clusters ih =>
    obtain ⟨⟨size, c₁⟩, hsize, h⟩ := Result.bind_eq_ok_iff.mp h
    obtain ⟨⟨size', c₁'⟩, hsize', h'⟩ := Result.bind_eq_ok_iff.mp h'
    obtain ⟨rfl, rfl⟩ := Prod.mk.inj (Except.ok.inj (hsize.symm.trans hsize'))
    simp only [Result.throw_eq, Result.error_bind] at h h'
    -- A cluster says itself how many points it has; the room only tells whether it is refused.
    obtain ⟨-, h⟩ := Result.check_eq_ok_iff.mp h
    obtain ⟨-, h'⟩ := Result.check_eq_ok_iff.mp h'
    obtain ⟨⟨columns, c₂⟩, hcolumns, h⟩ := Result.bind_eq_ok_iff.mp h
    obtain ⟨⟨columns', c₂'⟩, hcolumns', h'⟩ := Result.bind_eq_ok_iff.mp h'
    obtain ⟨rfl, rfl⟩ := Prod.mk.inj (Except.ok.inj (hcolumns.symm.trans hcolumns'))
    obtain ⟨others, hothers, h⟩ := Result.bind_eq_ok_iff.mp h
    obtain ⟨others', hothers', h'⟩ := Result.bind_eq_ok_iff.mp h'
    rw [← Except.ok.inj h, ← Except.ok.inj h']
    exact congrArg (_ ++ ·) (ih hothers hothers')

theorem points_unique (h : decompress s points payload = .ok raw)
    (h' : decompress s points' payload = .ok raw') : points = points' := by
  obtain ⟨keyBits, c₁, clusters, c₂, rows, c₃, hkeyBits, hcount, hread, -⟩ :=
    exists_clusters_of_decompress h
  obtain ⟨keyBits', c₁', clusters', c₂', rows', c₃', hkeyBits', hcount', hread', -⟩ :=
    exists_clusters_of_decompress h'
  -- Up to the clusters the count of points is not asked for.
  obtain ⟨rfl, rfl⟩ := Prod.mk.inj (Except.ok.inj (hkeyBits.symm.trans hkeyBits'))
  obtain ⟨rfl, rfl⟩ := Prod.mk.inj (Except.ok.inj (hcount.symm.trans hcount'))
  obtain ⟨htotal, -⟩ := readClusters_room hread
  obtain ⟨htotal', -⟩ := readClusters_room hread'
  have hrows : rows = rows' := readClusters_unique hread hread'
  rw [← htotal, ← htotal', hrows]

end Hierarchical

/-! ## Payloads of all schemes -/

namespace Scheme

/-- What a payload has to have for its count of points to be certain: any scheme but the columns, or
a column that is not narrow. -/
def Counts (scheme : Scheme) (s : Schema) (payload : Bytes) : Prop :=
  scheme ≠ .dimensional ∨ ∃ columns, Dimensional.Stores s columns payload ∧
    ∃ column ∈ columns, ¬ Column.IsNarrow column

theorem points_unique {scheme : Scheme} {s : Schema} {points points' : Nat}
    {payload raw raw' : Bytes} (hcounts : scheme.Counts s payload)
    (h : scheme.decompress s points payload = .ok raw)
    (h' : scheme.decompress s points' payload = .ok raw') : points = points' := by
  -- Where both give the same buffer, its length is that of either count of points.
  have hlength : raw = raw' → points = points' := by
    rintro rfl
    refine Nat.eq_of_mul_eq_mul_right s.size_pos ?_
    rw [← length_of_decompress h, ← length_of_decompress h']
  have hread := decompress_eq_ok_iff.mp h
  have hread' := decompress_eq_ok_iff.mp h'
  cases scheme with
  | uncompressed =>
    obtain ⟨-, -, hraw⟩ := Uncompressed.eq_of_decompress hread
    obtain ⟨-, -, hraw'⟩ := Uncompressed.eq_of_decompress hread'
    exact hlength (hraw.trans hraw'.symm)
  | dimensional =>
    obtain ⟨columns, hstores, column, hcolumn, hwide⟩ := hcounts.resolve_left (not_not.mpr rfl)
    exact Dimensional.points_unique hstores hcolumn hwide hread hread'
  | hierarchical => exact Hierarchical.points_unique hread hread'
  | externalLossless =>
    have hsame := (External.decode_of_decompress hread).symm.trans
      (External.decode_of_decompress hread')
    exact hlength (Except.ok.inj hsame)

/-- For every schema, scheme and payload: a payload that is accepted for two counts of points is one
of columns, of which every one is narrow. Any other payload that is accepted is refused for every
other count, and so is a patch of it whose count was altered. -/
theorem points_determined (scheme : Scheme) (s : Schema) (payload : Bytes) :
    (∀ points points' raw raw', points ≠ points' →
      scheme.decompress s points payload = .ok raw →
      scheme.decompress s points' payload = .ok raw' →
        scheme = .dimensional ∧ (∃ columns, Dimensional.Stores s columns payload) ∧
          ∀ columns, Dimensional.Stores s columns payload →
            ∀ column ∈ columns, Column.IsNarrow column) ∧
    (scheme.Counts s payload → ∀ points points' raw, points ≠ points' →
      scheme.decompress s points payload = .ok raw →
        ∃ e, scheme.decompress s points' payload = .error e) ∧
    (scheme.Counts s payload → ∀ p q : Patch, p.scheme = scheme → p.payload = payload →
      q.scheme = scheme → q.payload = payload → p.count ≠ q.count → ∀ raw, p.decode s = .ok raw →
        ∃ e, q.decode s = .error e) := by
  refine ⟨?_, ?_, ?_⟩
  · intro points points' raw raw' hne h h'
    have hnot : ¬ scheme.Counts s payload := fun hcounts => hne (points_unique hcounts h h')
    have hscheme : scheme = .dimensional := by
      by_contra hother
      exact hnot (.inl hother)
    subst hscheme
    refine ⟨rfl, Dimensional.exists_stores (decompress_eq_ok_iff.mp h), ?_⟩
    intro columns hstores column hcolumn
    by_contra hwide
    exact hnot (.inr ⟨columns, hstores, column, hcolumn, hwide⟩)
  · intro hcounts points points' raw hne h
    cases hread : scheme.decompress s points' payload with
    | error e => exact ⟨e, rfl⟩
    | ok raw' => exact absurd (points_unique hcounts h hread) hne
  · rintro hcounts p q rfl rfl hscheme hpayload hne raw h
    obtain ⟨u, -, h⟩ := Result.bind_eq_ok_iff.mp h
    cases hdecode : q.decode s with
    | error e => exact ⟨e, rfl⟩
    | ok raw' =>
      obtain ⟨u', -, hread⟩ := Result.bind_eq_ok_iff.mp hdecode
      rw [hscheme, hpayload] at hread
      exact absurd (UInt32.toNat_inj.mp (points_unique hcounts h hread)) hne

/-- Columns of seven and of no bits hold seven points of the plane as well as eight. A column of
words as they are holds two, and no patch of it three. -/
theorem points_determined_planar :
    let narrow : Bytes := [2, 0, 0, 0, 3, 0, 0, 7, 2, 0, 0, 0, 3, 0, 255, 0,
      2, 0, 0, 0, 9, 7, 0, 1, 2, 3, 4, 5, 6, 7]
    let wide : Bytes := [2, 0, 0, 0, 3, 0, 0, 7, 2, 0, 0, 0, 3, 0, 255, 0, 0, 0, 0, 0, 2, 3, 4]
    let p : Patch := ⟨1, .dimensional, 2, .empty, none, wide⟩
    (∃ raw raw', dimensional.decompress .planar 7 narrow = .ok raw ∧
      dimensional.decompress .planar 8 narrow = .ok raw') ∧
    (∃ columns, Dimensional.Stores .planar columns narrow) ∧
    (∀ columns, Dimensional.Stores .planar columns narrow →
      ∀ column ∈ columns, Column.IsNarrow column) ∧
    dimensional.Counts .planar wide ∧
    (∃ raw, dimensional.decompress .planar 2 wide = .ok raw) ∧
    (∃ e, dimensional.decompress .planar 3 wide = .error e) ∧
    ∃ e, { p with count := 3 }.decode .planar = .error e := by
  intro narrow wide p
  obtain ⟨hnarrow, -, -⟩ := points_determined .dimensional .planar narrow
  obtain ⟨-, hwide, haltered⟩ := points_determined .dimensional .planar wide
  have hfewer : ∃ raw, dimensional.decompress .planar 7 narrow = .ok raw := ⟨_, rfl⟩
  have hmore : ∃ raw, dimensional.decompress .planar 8 narrow = .ok raw := ⟨_, rfl⟩
  have haccepted : ∃ raw, dimensional.decompress .planar 2 wide = .ok raw := ⟨_, rfl⟩
  have hcounts : dimensional.Counts .planar wide :=
    .inr ⟨[(.sharedBits, [0, 0, 7]), (.sharedBits, [0, 255, 0]), (.verbatim, [3, 4])],
      ⟨by decide, by decide, by decide⟩, (.verbatim, [3, 4]), by decide, fun h => by cases h.1⟩
  obtain ⟨raw, hraw⟩ := hfewer
  obtain ⟨raw', hraw'⟩ := hmore
  obtain ⟨buffer, hbuffer⟩ := haccepted
  have hdecode : p.decode .planar = .ok buffer := Result.bind_eq_ok_iff.mpr ⟨(), rfl, hbuffer⟩
  obtain ⟨-, hstores, hall⟩ := hnarrow 7 8 raw raw' (by decide) hraw hraw'
  exact ⟨⟨raw, raw', hraw, hraw'⟩, hstores, hall, hcounts,
    ⟨buffer, hbuffer⟩, hwide hcounts 2 3 buffer (by decide) hbuffer,
    haltered hcounts p { p with count := 3 } rfl rfl rfl rfl (by decide) buffer hdecode⟩

end Scheme

end PointCloud
