import Mathlib
import PointCloud.Proofs.Bytes.Cursor
import PointCloud.Proofs.Kernel.RunStreams
import PointCloud.Proofs.Kernel.SharedBits
import PointCloud.Scheme.Payload

/-!
# Lengths of what is read

Whatever a payload holds, a buffer that is read from it has the length that the count of points
calls for. Columns carry the count down to the readers of streams, and those keep an account of the
words that are still expected.

Main results:

* `Column.length_of_decode` — a column that is read has a word for every point;
* `Hierarchical.readClusters_room` — clusters that are read take up the room that they say;
* `Scheme.length_of_read` — a buffer that is read has the size of its points;
* `Scheme.decompress_eq` — so the last look at its length never refuses anything.
-/

namespace PointCloud

/-! ## Columns -/

namespace Column

variable {d : Dimension} {order : ByteOrder} {points : Nat} {bytes : Bytes} {words : List Nat}

theorem length_of_ofVerbatim (h : ofVerbatim d order points bytes = .ok words) :
    words.length = points := by
  unfold ofVerbatim at h
  obtain ⟨expected, -, h⟩ := Result.bind_eq_ok_iff.mp h
  simp only [Result.throw_eq, Result.error_bind] at h
  obtain ⟨-, h⟩ := Result.check_eq_ok_iff.mp h
  rw [Result.pure_eq, Except.ok.injEq] at h
  rw [← h, List.length_map, length_cut]

theorem length_of_runLength {size : Nat}
    (h : RunLength.decode size order points bytes = .ok words) :
    words.length = points := by
  obtain ⟨-, rs, -, -, hsum, rfl⟩ := RunLength.decode_eq_ok_iff.mp h
  rw [RunLength.length_expand, hsum]

theorem length_of_sharedBits {size : Nat}
    (h : SharedBits.decode size order points bytes = .ok words) : words.length = points :=
  SharedBits.length_words_of_decode h

/-- A column that is read has a word for every point. -/
theorem length_of_decode {method : ColumnMethod}
    (h : decode d order points bytes method = .ok words) : words.length = points := by
  cases method with
  | verbatim => exact length_of_ofVerbatim h
  | runLength => exact length_of_runLength h
  | sharedBits => exact length_of_sharedBits h
  | deflate =>
    obtain ⟨expected, -, h⟩ := Result.bind_eq_ok_iff.mp h
    obtain ⟨inflated, -, h⟩ := Result.bind_eq_ok_iff.mp h
    exact length_of_ofVerbatim h

end Column

/-! ## Rows -/

theorem Row.length_ofColumns {points : Nat} {columns : List (List Nat)}
    (h : ∀ column ∈ columns, column.length = points) :
    (ofColumns points columns).length = points := by
  induction columns with
  | nil => exact List.length_replicate
  | cons column columns ih =>
    have hrest := ih fun c hc => h c (List.mem_cons_of_mem _ hc)
    have hcolumn := h column List.mem_cons_self
    rw [ofColumns, List.length_zipWith, hrest, hcolumn, Nat.min_self]

/-- A row has a word from every column. -/
theorem Row.length_of_mem_ofColumns {points : Nat} {columns : List (List Nat)} {row : Row}
    (h : row ∈ ofColumns points columns) : row.length = columns.length := by
  induction columns generalizing row with
  | nil =>
    rw [List.eq_of_mem_replicate h]
    rfl
  | cons column columns ih =>
    rw [ofColumns, ← List.map_uncurry_zip_eq_zipWith, List.mem_map] at h
    obtain ⟨⟨w, tail⟩, hmem, rfl⟩ := h
    exact congrArg (· + 1) (ih (List.of_mem_zip hmem).2)

/-- Columns of whole points make a buffer of whole points. -/
theorem Schema.length_bytes_ofColumns (s : Schema) {points : Nat} {columns : List (List Nat)}
    (hwidth : columns.length = s.width) (hlength : ∀ column ∈ columns, column.length = points) :
    (s.bytes (Row.ofColumns points columns)).length = points * s.size := by
  have hrows : ∀ row ∈ Row.ofColumns points columns, row.length = s.width :=
    fun row hrow => (Row.length_of_mem_ofColumns hrow).trans hwidth
  rw [s.length_bytes hrows, Row.length_ofColumns hlength]

/-! ## Schemes -/

namespace Dimensional

theorem length_of_readColumn {d : Dimension} {order : ByteOrder} {points : Nat} {c c' : Cursor}
    {words : List Nat} (h : readColumn d order points c = .ok (words, c')) :
    words.length = points := by
  unfold readColumn at h
  obtain ⟨⟨tag, c⟩, -, h⟩ := Result.bind_eq_ok_iff.mp h
  obtain ⟨method, -, h⟩ := Result.bind_eq_ok_iff.mp h
  obtain ⟨⟨length, c⟩, -, h⟩ := Result.bind_eq_ok_iff.mp h
  obtain ⟨⟨encoded, c⟩, -, h⟩ := Result.bind_eq_ok_iff.mp h
  obtain ⟨words, hwords, h⟩ := Result.bind_eq_ok_iff.mp h
  rw [Result.pure_eq, Except.ok.injEq, Prod.mk.injEq] at h
  rw [← h.1]
  exact Column.length_of_decode hwords

theorem length_of_readColumns {order : ByteOrder} {points : Nat} {dimensions : List Dimension}
    {c c' : Cursor} {columns : List (List Nat)}
    (h : readColumns order points dimensions c = .ok (columns, c')) :
    columns.length = dimensions.length ∧ ∀ column ∈ columns, column.length = points := by
  induction dimensions generalizing c columns with
  | nil =>
    rw [readColumns, Except.ok.injEq, Prod.mk.injEq] at h
    rw [← h.1]
    exact ⟨rfl, by simp⟩
  | cons d dimensions ih =>
    obtain ⟨⟨words, c⟩, hwords, h⟩ := Result.bind_eq_ok_iff.mp h
    obtain ⟨⟨others, rest⟩, hothers, h⟩ := Result.bind_eq_ok_iff.mp h
    simp only [Result.pure_eq, Except.ok.injEq, Prod.mk.injEq] at h
    obtain ⟨rfl, rfl⟩ := h
    obtain ⟨hlength, hrest⟩ := ih hothers
    refine ⟨congrArg (· + 1) hlength, ?_⟩
    rw [List.forall_mem_cons]
    exact ⟨length_of_readColumn hwords, hrest⟩

end Dimensional

namespace Hierarchical

theorem length_of_readLows {d : Dimension} {unique more low : Nat} {c c' : Cursor}
    {lows : List Nat} (h : readLows d unique more low c = .ok (lows, c')) :
    lows.length = more + 1 := by
  induction more generalizing low c lows with
  | zero =>
    unfold readLows at h
    simp only [Result.throw_eq, Result.error_bind] at h
    obtain ⟨-, h⟩ := Result.check_eq_ok_iff.mp h
    rw [Result.pure_eq, Except.ok.injEq, Prod.mk.injEq] at h
    rw [← h.1]
    rfl
  | succ more ih =>
    unfold readLows at h
    simp only [Result.throw_eq, Result.error_bind] at h
    obtain ⟨-, h⟩ := Result.check_eq_ok_iff.mp h
    obtain ⟨⟨n, c⟩, -, h⟩ := Result.bind_eq_ok_iff.mp h
    obtain ⟨⟨others, rest⟩, hothers, h⟩ := Result.bind_eq_ok_iff.mp h
    rw [Result.pure_eq, Except.ok.injEq, Prod.mk.injEq] at h
    obtain ⟨rfl, rfl⟩ := h
    exact congrArg (· + 1) (ih hothers)

theorem length_of_readColumn {d : Dimension} {points : Nat} {c c' : Cursor} {words : List Nat}
    (hpoints : 0 < points) (h : readColumn d points c = .ok (words, c')) :
    words.length = points := by
  unfold readColumn at h
  obtain ⟨⟨shared, c⟩, -, h⟩ := Result.bind_eq_ok_iff.mp h
  simp only [Result.throw_eq, Result.error_bind] at h
  obtain ⟨-, h⟩ := Result.check_eq_ok_iff.mp h
  obtain ⟨⟨leading, c⟩, -, h⟩ := Result.bind_eq_ok_iff.mp h
  obtain ⟨⟨low, c⟩, -, h⟩ := Result.bind_eq_ok_iff.mp h
  obtain ⟨⟨lows, c⟩, hlows, h⟩ := Result.bind_eq_ok_iff.mp h
  rw [Result.pure_eq, Except.ok.injEq, Prod.mk.injEq] at h
  rw [← h.1, List.length_map, length_of_readLows hlows]
  omega

theorem length_of_readColumns {points : Nat} {dimensions : List Dimension} {c c' : Cursor}
    {columns : List (List Nat)} (hpoints : 0 < points)
    (h : readColumns points dimensions c = .ok (columns, c')) :
    columns.length = dimensions.length ∧ ∀ column ∈ columns, column.length = points := by
  induction dimensions generalizing c columns with
  | nil =>
    rw [readColumns, Except.ok.injEq, Prod.mk.injEq] at h
    rw [← h.1]
    exact ⟨rfl, by simp⟩
  | cons d dimensions ih =>
    obtain ⟨⟨words, c⟩, hwords, h⟩ := Result.bind_eq_ok_iff.mp h
    obtain ⟨⟨others, rest⟩, hothers, h⟩ := Result.bind_eq_ok_iff.mp h
    simp only [Result.pure_eq, Except.ok.injEq, Prod.mk.injEq] at h
    obtain ⟨rfl, rfl⟩ := h
    obtain ⟨hlength, hrest⟩ := ih hothers
    refine ⟨congrArg (· + 1) hlength, ?_⟩
    rw [List.forall_mem_cons]
    exact ⟨length_of_readColumn hpoints hwords, hrest⟩

/-- Clusters that are read take up the room that is gone, with rows of whole points. -/
theorem readClusters_room {s : Schema} {expected clusters room room' : Nat} {c c' : Cursor}
    {rows : List Row} (h : readClusters s expected clusters room c = .ok (rows, room', c')) :
    rows.length + room' = room ∧ ∀ row ∈ rows, row.length = s.width := by
  induction clusters generalizing room c rows with
  | zero =>
    rw [readClusters, Except.ok.injEq, Prod.mk.injEq, Prod.mk.injEq] at h
    obtain ⟨rfl, rfl, rfl⟩ := h
    simp
  | succ clusters ih =>
    obtain ⟨⟨points, c⟩, -, h⟩ := Result.bind_eq_ok_iff.mp h
    simp only [Result.throw_eq, Result.error_bind] at h
    obtain ⟨hcount, h⟩ := Result.check_eq_ok_iff.mp h
    obtain ⟨⟨columns, c⟩, hcolumns, h⟩ := Result.bind_eq_ok_iff.mp h
    obtain ⟨⟨others, left, c⟩, hothers, h⟩ := Result.bind_eq_ok_iff.mp h
    rw [Result.pure_eq, Except.ok.injEq, Prod.mk.injEq, Prod.mk.injEq] at h
    obtain ⟨rfl, rfl, rfl⟩ := h
    simp only [Bool.or_eq_true, decide_eq_true_eq, not_or, Nat.not_lt] at hcount
    -- An empty cluster is refused, so its columns have a word for every point.
    obtain ⟨hwidth, hlength⟩ := length_of_readColumns (by omega) hcolumns
    obtain ⟨hroom, hrows⟩ := ih hothers
    have hcluster := Row.length_ofColumns hlength
    dsimp only at hcount hcluster hroom ⊢
    constructor
    · rw [List.length_append, hcluster]
      omega
    · intro row hrow
      rcases List.mem_append.mp hrow with hrow | hrow
      · rw [Row.length_of_mem_ofColumns hrow, hwidth]
        rfl
      · exact hrows row hrow

end Hierarchical

theorem Zstd.length_of_decode {bytes content : Bytes} (h : decode bytes = .ok content)
    (hbytes : bytes ≠ []) : content.length = Numeral.ofBytes (bytes.take 8) := by
  unfold decode at h
  rw [List.isEmpty_eq_false_iff.mpr hbytes] at h
  simp only [Bool.false_eq_true, if_false, Result.throw_eq, Result.error_bind] at h
  obtain ⟨-, h⟩ := Result.check_eq_ok_iff.mp h
  obtain ⟨-, -, h⟩ := Result.bind_eq_ok_iff.mp h
  -- The content is compared with its announced length before it is given out.
  split at h
  · cases h
  · obtain ⟨hlength, h⟩ := Result.check_eq_ok_iff.mp h
    rw [Result.pure_eq, Except.ok.injEq] at h
    rw [← h]
    exact not_not.mp hlength

/-- What a stream gives was set aside before. -/
theorem Zstd.reserve_of_decode {bytes content : Bytes} (h : decode bytes = .ok content) :
    reserve content.length = .ok () := by
  by_cases hempty : bytes = []
  · subst hempty
    obtain rfl := Except.ok.inj h
    decide
  rw [length_of_decode h hempty]
  unfold decode at h
  rw [List.isEmpty_eq_false_iff.mpr hempty] at h
  simp only [Bool.false_eq_true, if_false, Result.throw_eq, Result.error_bind] at h
  obtain ⟨-, h⟩ := Result.check_eq_ok_iff.mp h
  obtain ⟨u, hroom, -⟩ := Result.bind_eq_ok_iff.mp h
  exact hroom

/-! ## Payloads -/

section Payload

variable {s : Schema} {points : Nat} {payload raw : Bytes}

/-- A payload that is taken as it is has the size of its points. -/
theorem Uncompressed.eq_of_decompress (h : decompress s points payload = .ok raw) :
    payload.length = points * s.size ∧ reserve (points * s.size) = .ok () ∧ raw = payload := by
  unfold decompress at h
  obtain ⟨expected, hexpected, h⟩ := Result.bind_eq_ok_iff.mp h
  simp only [Result.throw_eq, Result.error_bind] at h
  obtain ⟨hlength, h⟩ := Result.check_eq_ok_iff.mp h
  obtain ⟨u, hroom, h⟩ := Result.bind_eq_ok_iff.mp h
  rw [← (bufferLength_eq_ok_iff.mp hexpected).2]
  exact ⟨not_not.mp hlength, hroom, (Except.ok.inj h).symm⟩

theorem Uncompressed.length_of_decompress (h : decompress s points payload = .ok raw) :
    raw.length = points * s.size := by
  obtain ⟨hlength, -, rfl⟩ := eq_of_decompress h
  exact hlength

/-- An accepted payload of columns is read to its last byte. -/
theorem Dimensional.exists_columns_of_decompress (h : decompress s points payload = .ok raw) :
    ∃ columns c, readColumns s.order points s.dimensions (.start payload) = .ok (columns, c) ∧
      c.rest = [] ∧ raw = s.bytes (Row.ofColumns points columns) := by
  unfold decompress at h
  obtain ⟨expected, -, h⟩ := Result.bind_eq_ok_iff.mp h
  obtain ⟨-, -, h⟩ := Result.bind_eq_ok_iff.mp h
  obtain ⟨⟨columns, c⟩, hcolumns, h⟩ := Result.bind_eq_ok_iff.mp h
  obtain ⟨u, hfinish, h⟩ := Result.bind_eq_ok_iff.mp h
  exact ⟨columns, c, hcolumns, Cursor.finish_eq_ok_iff.mp hfinish, (Except.ok.inj h).symm⟩

theorem Dimensional.length_of_decompress (h : decompress s points payload = .ok raw) :
    raw.length = points * s.size := by
  obtain ⟨columns, c, hcolumns, -, rfl⟩ := exists_columns_of_decompress h
  obtain ⟨hwidth, hlength⟩ := length_of_readColumns hcolumns
  exact s.length_bytes_ofColumns hwidth hlength

/-- An accepted payload of clusters holds their rows, which take up all room. -/
theorem Hierarchical.exists_clusters_of_decompress (h : decompress s points payload = .ok raw) :
    ∃ keyBits c clusters c' rows c'', (Cursor.start payload).byte = .ok (keyBits, c) ∧
      c.varint = .ok (clusters, c') ∧
        readClusters s points clusters points c' = .ok (rows, 0, c'') ∧ raw = s.bytes rows := by
  unfold decompress at h
  obtain ⟨expected, -, h⟩ := Result.bind_eq_ok_iff.mp h
  obtain ⟨-, -, h⟩ := Result.bind_eq_ok_iff.mp h
  obtain ⟨⟨keyBits, c⟩, hkeyBits, h⟩ := Result.bind_eq_ok_iff.mp h
  simp only [Result.throw_eq, Result.error_bind] at h
  obtain ⟨-, h⟩ := Result.check_eq_ok_iff.mp h
  obtain ⟨⟨clusters, c'⟩, hcount, h⟩ := Result.bind_eq_ok_iff.mp h
  obtain ⟨⟨rows, room, c''⟩, hclusters, h⟩ := Result.bind_eq_ok_iff.mp h
  obtain ⟨hroom, h⟩ := Result.check_eq_ok_iff.mp h
  obtain ⟨-, -, h⟩ := Result.bind_eq_ok_iff.mp h
  -- Room that is left is refused.
  obtain rfl : room = 0 := not_not.mp hroom
  exact ⟨keyBits, c, clusters, c', rows, c'', hkeyBits, hcount, hclusters, (Except.ok.inj h).symm⟩

theorem Hierarchical.length_of_decompress (h : decompress s points payload = .ok raw) :
    raw.length = points * s.size := by
  obtain ⟨keyBits, c, clusters, c', rows, c'', -, -, hclusters, rfl⟩ :=
    exists_clusters_of_decompress h
  obtain ⟨htotal, hrows⟩ := readClusters_room hclusters
  rw [Nat.add_zero] at htotal
  rw [s.length_bytes hrows, htotal]

theorem External.length_of_decompress (h : decompress s points payload = .ok raw) :
    raw.length = points * s.size := by
  unfold decompress at h
  obtain ⟨expected, hexpected, h⟩ := Result.bind_eq_ok_iff.mp h
  have hsize := (bufferLength_eq_ok_iff.mp hexpected).2
  dsimp only at h
  -- Without bytes the payload has to be empty; otherwise it declares the length of the buffer.
  split at h
  · rename_i hzero
    simp only [Result.throw_eq, Result.error_bind] at h
    obtain ⟨hempty, h⟩ := Result.check_eq_ok_iff.mp h
    have hpayload : payload = [] := by simpa using hempty
    rw [hpayload] at h
    have hraw : raw = [] := (Except.ok.inj h).symm
    rw [← hsize, hzero, hraw]
    rfl
  · simp only [Result.throw_eq, Result.error_bind] at h
    obtain ⟨hlong, h⟩ := Result.check_eq_ok_iff.mp h
    obtain ⟨hdeclared, h⟩ := Result.check_eq_ok_iff.mp h
    have hpayload : payload ≠ [] := by
      rintro rfl
      exact hlong (by decide)
    rw [Zstd.length_of_decode h hpayload, not_not.mp hdeclared, hsize]

/-- The points of an external payload are what its stream holds, whatever was expected. -/
theorem External.decode_of_decompress (h : decompress s points payload = .ok raw) :
    Zstd.decode payload = .ok raw := by
  unfold decompress at h
  obtain ⟨expected, -, h⟩ := Result.bind_eq_ok_iff.mp h
  simp only [Result.throw_eq, Result.error_bind] at h
  split at h
  · exact (Result.check_eq_ok_iff.mp h).2
  · obtain ⟨-, h⟩ := Result.check_eq_ok_iff.mp h
    exact (Result.check_eq_ok_iff.mp h).2

namespace Scheme

variable {scheme : Scheme}

/-- A buffer that is read has the size of its points. -/
theorem length_of_read (h : scheme.read s points payload = .ok raw) :
    raw.length = points * s.size := by
  cases scheme with
  | uncompressed => exact Uncompressed.length_of_decompress h
  | dimensional => exact Dimensional.length_of_decompress h
  | hierarchical => exact Hierarchical.length_of_decompress h
  | externalLossless => exact External.length_of_decompress h

/-- A buffer that is read could be set aside. -/
theorem reserve_of_read (h : scheme.read s points payload = .ok raw) :
    reserve (points * s.size) = .ok () := by
  -- An external payload announces the length that is set aside; the others are given it.
  cases scheme with
  | uncompressed => exact (Uncompressed.eq_of_decompress h).2.1
  | dimensional => exact reserve_of_bufferLength h
  | hierarchical => exact reserve_of_bufferLength h
  | externalLossless =>
    rw [← External.length_of_decompress h]
    exact Zstd.reserve_of_decode (External.decode_of_decompress h)

/-- The last look at the length of a buffer refuses nothing: the rules of every scheme have made
sure of it. -/
theorem decompress_eq (scheme : Scheme) (s : Schema) (points : Nat) (payload : Bytes) :
    scheme.decompress s points payload =
      (scheme.read s points payload).mapError (Error.asCorruption scheme.name) := by
  unfold decompress
  cases hread : scheme.read s points payload with
  | error e => rfl
  | ok raw =>
    -- Every scheme sets the buffer aside before it reads, so the length that is expected exists.
    have hlength := bufferLength_of_reserve (reserve_of_read hread)
    rw [Result.mapError_ok, Result.ok_bind, hlength, Result.ok_bind,
      if_neg (not_not.mpr (length_of_read hread))]
    rfl

theorem decompress_eq_ok_iff :
    scheme.decompress s points payload = .ok raw ↔ scheme.read s points payload = .ok raw := by
  rw [decompress_eq, Result.mapError_eq_ok_iff]

theorem length_of_decompress (h : scheme.decompress s points payload = .ok raw) :
    raw.length = points * s.size :=
  length_of_read (decompress_eq_ok_iff.mp h)

theorem reserve_of_decompress (h : scheme.decompress s points payload = .ok raw) :
    reserve (points * s.size) = .ok () :=
  reserve_of_read (decompress_eq_ok_iff.mp h)

end Scheme

end Payload

end PointCloud
