import Mathlib
import PointCloud.Proofs.Patch.Extract
import PointCloud.Proofs.Patch.Wire
import PointCloud.Proofs.Point.Encoders
import PointCloud.Service

/-!
# Storage of serialized points

Serialized points are made into a serialized patch, which is encoded again any number of times, each
time under a scheme and a configuration of its own. The patch holds the points all the while. What
is written of a patch is read back as the same patch, and encoding it again keeps its points, in
order unless the scheme groups them. So the points that are asked for in the end are those that were
given in the beginning, byte for byte.

Main results:

* `Point.deserialize_eq_ok_iff`, `Point.serialize_eq_ok_iff` — the bytes of a point, read and
  written;
* `Patch.Holds.deserialize_serialize` — a patch that holds rows is read back as it was;
* `Service.Stored.exists_keeps` — a chain of calls keeps the points;
* `Service.storage_lossless` — points are given back as they were given.
-/

namespace PointCloud

/-! ## Serialized points -/

/-- The serialized form of a point of the schema, given its words in bytes. -/
def Schema.pointBytes (s : Schema) (raw : Bytes) : Bytes :=
  s.order.marker :: s.order.bytes 4 s.pcid.toNat ++ raw

namespace Point

variable {registry : Registry} {s : Schema} {p : Point} {bytes : Bytes}

/-- A point is written exactly under its own schema, if it has the size of one. -/
theorem serialize_eq_ok_iff : p.serialize s = .ok bytes ↔
    p.pcid = s.pcid ∧ p.raw.length = s.size ∧ bytes = s.pointBytes p.raw := by
  rw [← and_assoc, ← row_isOk_iff]
  unfold serialize
  cases hrow : p.row s with
  | error e =>
    simp only [reduceCtorEq, exists_false, false_and, iff_false]
    intro h
    cases h
  | ok row =>
    obtain ⟨hpcid, -⟩ := row_isOk_iff.mp ⟨row, hrow⟩
    constructor
    · intro h
      obtain rfl := Except.ok.inj h
      exact ⟨⟨row, rfl⟩, by rw [hpcid, Schema.pointBytes]⟩
    · rintro ⟨-, rfl⟩
      rw [hpcid]
      rfl

/-- The bytes that are read as a point are those that it is written as. -/
theorem deserialize_eq_ok_iff : deserialize registry bytes = .ok p ↔
    ∃ s, registry.resolve p.pcid = .ok s ∧ p.raw.length = s.size ∧ bytes = s.pointBytes p.raw := by
  unfold deserialize
  rw [readOwner_eq, Result.bind_eq_ok_iff]
  constructor
  · intro hread
    obtain ⟨⟨s, c⟩, howner, hraw⟩ := hread
    obtain ⟨first, ⟨hs, rfl⟩, hrest, -⟩ := (ownerAt_exact registry).sound howner
    dsimp only [ofBytes] at hraw
    split at hraw
    · rename_i hsize
      obtain rfl := Except.ok.inj hraw
      exact ⟨s, hs, hsize, hrest⟩
    · cases hraw
  · intro hwritten
    obtain ⟨s, hs, hsize, rfl⟩ := hwritten
    have hpcid := Registry.pcid_of_resolve hs
    rw [← hpcid] at hs
    have howner := (ownerAt_exact registry).complete ⟨hs, rfl⟩ (s.pointBytes p.raw).length p.raw
    refine ⟨_, howner, ?_⟩
    show ofBytes s p.raw = .ok p
    rw [ofBytes, if_pos hsize, hpcid]

end Point

/-! ## Serialized patches -/

namespace Patch

variable {registry : Registry} {s : Schema} {p : Patch} {rows : List Row} {bytes : Bytes}

/-- A patch that holds rows of a registered schema is read back as it was written. -/
theorem Holds.deserialize_serialize (hp : p.Holds s rows) (hs : registry.resolve p.pcid = .ok s)
    (h : p.serialize s = .ok bytes) : deserialize registry bytes = .ok (s, p) := by
  obtain ⟨lows, highs, block, hhead, hempty⟩ := hp.exists_isHead
  obtain rfl := Except.ok.inj ((hhead.serialize_eq hempty).symm.trans h)
  exact deserialize_eq_ok_iff.mpr ⟨hs, lows, highs, block, hhead, rfl⟩

end Patch

/-- Pieces of the size of a point are read as its rows one by one. -/
theorem Schema.rows_flatten (s : Schema) {pieces : List Bytes}
    (h : ∀ piece ∈ pieces, piece.length = s.size) : s.rows pieces.flatten = pieces.map s.row := by
  have hlength : pieces.flatten.length = pieces.length * s.size := by
    rw [List.length_flatten, List.map_congr_left h, List.map_const', List.sum_replicate,
      smul_eq_mul]
  rw [rows, hlength, Nat.mul_div_cancel _ s.size_pos, cut_flatten s.size pieces h]

namespace Patch

/-- Points that a patch is built of are of its schema and of its size, and have room. -/
theorem ofBuffer_of_ofPoints [Compressors] {config : Config} {s : Schema} {points : List Point}
    {scheme : Scheme} {p : Patch} (h : ofPoints config s points scheme = .ok p) :
    reserve (points.length * s.size) = .ok () ∧
      (∀ point ∈ points, point.pcid = s.pcid ∧ point.raw.length = s.size) ∧
        ofBuffer config s (points.map (·.raw)).flatten points.length scheme = .ok p := by
  have hroom := reserve_of_bufferLength h
  unfold ofPoints at h
  obtain ⟨expected, -, h⟩ := Result.bind_eq_ok_iff.mp h
  obtain ⟨-, -, h⟩ := Result.bind_eq_ok_iff.mp h
  obtain ⟨u, hchecks, h⟩ := Result.bind_eq_ok_iff.mp h
  refine ⟨hroom, ?_, ?_⟩
  · intro point hpoint
    rw [← List.zipIdx_map_fst 0 points] at hpoint
    obtain ⟨⟨point, index⟩, hmem, rfl⟩ := List.mem_map.mp hpoint
    obtain ⟨u, hpcid, hsize⟩ := Result.bind_eq_ok_iff.mp (Result.of_forM_eq_ok hchecks _ hmem)
    simp only [Result.throw_eq] at hsize
    obtain ⟨hsize, -⟩ := Result.check_eq_ok_iff.mp hsize
    exact ⟨Schema.checkPcid_eq_ok_iff.mp hpcid, not_not.mp hsize⟩
  · rwa [List.flatMap_def] at h

end Patch

/-! ## Chains of calls -/

namespace Service

variable {registry : Registry} {points : List Bytes} {schemes : List Scheme} {bytes : Bytes}

/-- The serialized patches that can be had of serialized points: one is made of them and encoded
again any number of times, under the listed schemes. -/
inductive Stored [Compressors] (registry : Registry) (points : List Bytes) :
    List Scheme → Bytes → Prop
  | make {config pcid scheme bytes}
      (h : makePatch registry config pcid points scheme = .ok bytes) :
      Stored registry points [scheme.getD config.defaultScheme] bytes
  | compress {config scheme schemes before bytes} (hbefore : Stored registry points schemes before)
      (h : compress registry config before scheme = .ok bytes) :
      Stored registry points (schemes ++ [scheme.getD config.defaultScheme]) bytes
  | uncompress {config schemes before bytes} (hbefore : Stored registry points schemes before)
      (h : uncompress registry config before = .ok bytes) :
      Stored registry points (schemes ++ [.uncompressed]) bytes

/-- A serialized patch that keeps serialized points: it is read as a patch of rows whose points are
these, in order if none of the schemes groups points. -/
structure Keeps (registry : Registry) (points : List Bytes) (schemes : List Scheme) (bytes : Bytes)
    (s : Schema) (p : Patch) (rows : List Row) : Prop where
  read    : Patch.deserialize registry bytes = .ok (s, p)
  holds   : p.Holds s rows
  room    : reserve (p.count.toNat * s.size) = .ok ()
  perm    : (rows.map fun row => s.pointBytes (s.rowBytes row)).Perm points
  ordered : .hierarchical ∉ schemes →
    (rows.map fun row => s.pointBytes (s.rowBytes row)) = points

/-- The serialized points of a schema are told by their words. -/
theorem map_pointBytes {s : Schema} {found : List Point} (hs : registry.resolve s.pcid = .ok s)
    (hread : List.Forall₂ (fun bytes p => Point.deserialize registry bytes = .ok p) points found)
    (hfound : ∀ p ∈ found, p.pcid = s.pcid ∧ p.raw.length = s.size) :
    (found.map fun p => s.pointBytes (s.rowBytes (s.row p.raw))) = points := by
  induction hread with
  | nil => rfl
  | @cons bytes p points found hbytes _ ih =>
    obtain ⟨⟨hpcid, hsize⟩, hfound⟩ := List.forall_mem_cons.mp hfound
    obtain ⟨t, ht, -, rfl⟩ := Point.deserialize_eq_ok_iff.mp hbytes
    -- The point names the schema of the patch, so it was read under this one.
    rw [hpcid] at ht
    obtain rfl := Except.ok.inj (hs.symm.trans ht)
    rw [List.map_cons, ih hfound, s.rowBytes_row hsize]

/-- A patch made of serialized points keeps them. -/
theorem exists_keeps_of_makePatch [Compressors] [LawfulCompressors] {config : Config}
    {pcid : UInt32} {scheme : Option Scheme}
    (h : makePatch registry config pcid points scheme = .ok bytes) :
    ∃ s p rows, Keeps registry points [scheme.getD config.defaultScheme] bytes s p rows := by
  unfold makePatch at h
  obtain ⟨s, hs, h⟩ := Result.bind_eq_ok_iff.mp h
  obtain ⟨found, hfound, h⟩ := Result.bind_eq_ok_iff.mp h
  obtain ⟨p, hbuilt, hwritten⟩ := Result.bind_eq_ok_iff.mp h
  obtain rfl := Registry.pcid_of_resolve hs
  obtain ⟨hroom, hpoints, hbuffer⟩ := Patch.ofBuffer_of_ofPoints hbuilt
  obtain ⟨-, rows, hperm, hkept, hp⟩ := Patch.exists_holds_of_ofBuffer hbuffer
  have hpieces : ∀ piece ∈ found.map (·.raw), piece.length = s.size := by
    intro piece hpiece
    obtain ⟨point, hpoint, rfl⟩ := List.mem_map.mp hpiece
    exact (hpoints point hpoint).2
  rw [s.rows_flatten hpieces, List.map_map] at hperm hkept
  -- The rows of the buffer are those of the points, whose bytes were given.
  have hgiven := map_pointBytes hs (Result.forall₂_of_mapM hfound) hpoints
  -- A scheme may move the rows, and moves the points of them alike.
  have hmap := hperm.map fun row => s.pointBytes (s.rowBytes row)
  rw [List.map_map] at hmap
  refine ⟨s, p, rows, hp.deserialize_serialize ?_ hwritten, hp, ?_, ?_, ?_⟩
  · rwa [hp.pcid]
  · rw [← hp.count, hperm.length_eq, List.length_map]
    exact hroom
  · exact hmap.trans (List.Perm.of_eq hgiven)
  · intro hscheme
    have hne : scheme.getD config.defaultScheme ≠ .hierarchical := by
      rintro heq
      exact hscheme (by rw [heq]; exact List.mem_singleton_self _)
    rw [hkept hne, List.map_map]
    exact hgiven

/-- Encoding a patch again keeps what it keeps. -/
theorem Keeps.compress [Compressors] [LawfulCompressors] {config : Config} {scheme : Option Scheme}
    {before : Bytes} {s : Schema} {p : Patch} {rows : List Row}
    (hbefore : Keeps registry points schemes before s p rows)
    (h : compress registry config before scheme = .ok bytes) :
    ∃ q kept, Keeps registry points (schemes ++ [scheme.getD config.defaultScheme]) bytes s q
      kept := by
  unfold Service.compress at h
  rw [hbefore.read, Result.ok_bind] at h
  obtain ⟨q, hbuilt, h⟩ := Result.bind_eq_ok_iff.mp h
  unfold Patch.recompress at hbuilt
  rw [hbefore.holds.rows_eq hbefore.room, Result.ok_bind] at hbuilt
  obtain ⟨-, kept, hperm, hkept, hq⟩ :=
    Patch.exists_holds_of_ofRows hbefore.holds.fits hbuilt
  have hs : registry.resolve q.pcid = .ok s := by
    rw [hq.pcid, ← hbefore.holds.pcid]
    exact (Patch.deserialize_eq_ok_iff.mp hbefore.read).1
  refine ⟨q, kept, hq.deserialize_serialize hs h, hq, ?_, ?_, ?_⟩
  · rw [← hq.count, hperm.length_eq, hbefore.holds.count]
    exact hbefore.room
  · exact (hperm.map _).trans hbefore.perm
  · intro hschemes
    rw [List.mem_append, List.mem_singleton, not_or] at hschemes
    obtain ⟨hearlier, hlast⟩ := hschemes
    -- Neither the last step nor those before it have moved a row.
    rw [hkept fun heq => hlast heq.symm]
    exact hbefore.ordered hearlier

/-- A chain of calls keeps the points that it began with. -/
theorem Stored.exists_keeps [Compressors] [LawfulCompressors]
    (h : Stored registry points schemes bytes) :
    ∃ s p rows, Keeps registry points schemes bytes s p rows := by
  induction h with
  | make h => exact exists_keeps_of_makePatch h
  | compress _ h ih =>
    obtain ⟨s, p, rows, hbefore⟩ := ih
    exact ⟨s, hbefore.compress h⟩
  | uncompress _ h ih =>
    -- Decoding a patch is encoding it under a scheme that is named.
    obtain ⟨s, p, rows, hbefore⟩ := ih
    have hstep : Service.compress registry _ _ (some .uncompressed) = .ok _ := h
    exact ⟨s, hbefore.compress hstep⟩

/-- The points of a patch that keeps serialized points are had one by one, and no other. -/
theorem Keeps.pointAt_eq {s : Schema} {p : Patch} {rows : List Row}
    (h : Keeps registry points schemes bytes s p rows) {index : Nat}
    (hindex : index < rows.length) :
    pointAt registry bytes index = .ok (s.pointBytes (s.rowBytes rows[index])) := by
  have hsize := s.length_rowBytes (s.length_of_fits (h.holds.fits _ (List.getElem_mem hindex)))
  unfold pointAt
  rw [h.read, Result.ok_bind]
  dsimp only
  rw [h.holds.pointAt_eq h.room hindex, Result.ok_bind, Point.serialize_eq_ok_iff]
  exact ⟨rfl, hsize, rfl⟩

theorem Keeps.pointAt_error {s : Schema} {p : Patch} {rows : List Row}
    (h : Keeps registry points schemes bytes s p rows) {index : Nat}
    (hindex : points.length ≤ index) :
    pointAt registry bytes index = .error (.indexOutOfRange index points.length) := by
  have hlength : rows.length = points.length := by
    rw [← h.perm.length_eq, List.length_map]
  rw [← hlength] at hindex ⊢
  unfold pointAt
  rw [h.read, Result.ok_bind]
  dsimp only
  rw [h.holds.pointAt_error hindex, Result.error_bind]

/-- Whatever chain of calls stored serialized points: they are given back byte for byte, in order if
no scheme of the chain groups points, and there is no point beyond the last. The serialized form of
a point is read and written without loss. -/
theorem storage_lossless [Compressors] [LawfulCompressors] (registry : Registry) :
    (∀ points schemes bytes, Stored registry points schemes bytes →
      ∃ found : List Bytes, found.Perm points ∧ (.hierarchical ∉ schemes → found = points) ∧
        (∀ index (h : index < found.length), pointAt registry bytes index = .ok found[index]) ∧
        ∀ index, points.length ≤ index →
          pointAt registry bytes index = .error (.indexOutOfRange index points.length)) ∧
    (∀ bytes p, Point.deserialize registry bytes = .ok p →
      ∃ s, registry.resolve p.pcid = .ok s ∧ p.serialize s = .ok bytes) ∧
    ∀ s p, registry.resolve s.pcid = .ok s → p.pcid = s.pcid → p.raw.length = s.size →
      ∃ bytes, p.serialize s = .ok bytes ∧ Point.deserialize registry bytes = .ok p := by
  refine ⟨?_, ?_, ?_⟩
  · intro points schemes bytes hstored
    obtain ⟨s, p, rows, hkeeps⟩ := hstored.exists_keeps
    refine ⟨_, hkeeps.perm, hkeeps.ordered, ?_, fun index => hkeeps.pointAt_error⟩
    intro index hindex
    rw [List.length_map] at hindex
    rw [hkeeps.pointAt_eq hindex, List.getElem_map]
  · intro bytes p hread
    obtain ⟨s, hs, hsize, rfl⟩ := Point.deserialize_eq_ok_iff.mp hread
    have hpcid := Registry.pcid_of_resolve hs
    exact ⟨s, hs, Point.serialize_eq_ok_iff.mpr ⟨hpcid.symm, hsize, rfl⟩⟩
  · intro s p hs hpcid hsize
    rw [← hpcid] at hs
    exact ⟨s.pointBytes p.raw, Point.serialize_eq_ok_iff.mpr ⟨hpcid, hsize, rfl⟩,
      Point.deserialize_eq_ok_iff.mpr ⟨s, hs, hsize, rfl⟩⟩

/-- Two points of the plane, made into a patch that is encoded again twice: once under the default
scheme of a configuration, once as it is decoded. -/
theorem storage_lossless_planar :
    let registry : Registry := ⟨[Schema.planar]⟩
    let points : List Bytes := [[0, 0, 0, 0, 1, 0, 7, 255, 0, 3], [0, 0, 0, 0, 1, 0, 9, 255, 1, 3]]
    let bytes : Bytes := [0, 0, 0, 0, 1, 0, 0, 0, 0, 2,
      64, 28, 0, 0, 0, 0, 0, 0, 192, 112, 0, 0, 0, 0, 0, 0, 64, 8, 0, 0, 0, 0, 0, 0,
      64, 34, 0, 0, 0, 0, 0, 0, 192, 111, 224, 0, 0, 0, 0, 0, 64, 8, 0, 0, 0, 0, 0, 0,
      0, 0, 7, 255, 0, 3, 0, 9, 255, 1, 3]
    Stored registry points [.uncompressed, .uncompressed, .uncompressed] bytes ∧
    pointAt registry bytes 1 = .ok [0, 0, 0, 0, 1, 0, 9, 255, 1, 3] ∧
    pointAt registry bytes 2 = .error (.indexOutOfRange 2 2) ∧
    (∃ s, registry.resolve 1 = .ok s ∧
      (Point.mk 1 [0, 7, 255, 0, 3]).serialize s = .ok [0, 0, 0, 0, 1, 0, 7, 255, 0, 3]) ∧
    ∃ written, (Point.mk 1 [0, 7, 255, 0, 3]).serialize .planar = .ok written ∧
      Point.deserialize registry written = .ok ⟨1, [0, 7, 255, 0, 3]⟩ := by
  intro registry points bytes
  let config : Config := { defaultScheme := .uncompressed, keepStatistics := false }
  have hmade : makePatch registry config 1 points (some .uncompressed) = .ok bytes := by
    decide +kernel
  have hagain : compress registry config bytes none = .ok bytes := by decide +kernel
  have hdecoded : uncompress registry config bytes = .ok bytes := by decide +kernel
  have hstored : Stored registry points [.uncompressed, .uncompressed, .uncompressed] bytes :=
    .uncompress (.compress (.make hmade) hagain) hdecoded
  obtain ⟨hchain, hread, hwrite⟩ := storage_lossless registry
  obtain ⟨found, -, hordered, hinside, houtside⟩ := hchain points _ bytes hstored
  obtain rfl := hordered (by decide)
  have hpoint : Point.deserialize registry [0, 0, 0, 0, 1, 0, 7, 255, 0, 3] =
      .ok ⟨1, [0, 7, 255, 0, 3]⟩ := rfl
  exact ⟨hstored, hinside 1 (by decide), houtside 2 (by decide), hread _ _ hpoint,
    hwrite .planar _ rfl rfl rfl⟩

end Service

end PointCloud
