import Mathlib
import PointCloud.Proofs.Patch.Query
import PointCloud.Proofs.Patch.Reencoding

/-!
# Points and parts of patches

The points of a patch are counted in three ways: by the list of its points, by the bytes of the
buffer it decodes to, and by the bounds of a part, which are cut off at the end. All of them count
the rows that the patch holds. A part takes a stretch of the rows and hands it to a scheme that
keeps the order, also where the patch groups its points or grouping is asked for. So indices into a
part are indices into the patch, moved by where the part begins, and two parts that meet make up the
whole.

Main results:

* `Schema.slice_bytes` — stretches of rows are stretches of their buffer;
* `Patch.Holds.holdsInOrder_of_range` — a part holds its stretch of the rows, in order;
* `Patch.Holds.indexOutOfRange_iff` — a part is refused for its place exactly if it begins past
  the end;
* `Patch.Reachable.parts_agree` — points, parts and joined parts of a patch that is reached.
-/

namespace PointCloud

open Result (FailsOnly)

/-! ## Stretches of buffers -/

namespace Schema

variable {s : Schema} {rows others : List Row}

/-- The bytes of `count` points of a buffer, from an index on. -/
def slice (s : Schema) (buffer : Bytes) (first count : Nat) : Bytes :=
  (buffer.drop (first * s.size)).take (count * s.size)

theorem bytes_drop (h : ∀ row ∈ rows, row.length = s.width) (first : Nat) :
    s.bytes (rows.drop first) = (s.bytes rows).drop (first * s.size) := by
  induction rows generalizing first with
  | nil =>
    rw [List.drop_nil]
    exact List.drop_nil.symm
  | cons row rows ih =>
    cases first with
    | zero => simp
    | succ first =>
      -- The first point is passed over, and the others are dropped from what follows it.
      have hrow := s.length_rowBytes (h row List.mem_cons_self)
      have hrest := ih (fun r hr => h r (List.mem_cons_of_mem _ hr)) first
      rw [List.drop_succ_cons, hrest]
      show _ = (s.rowBytes row ++ s.bytes rows).drop _
      rw [Nat.succ_mul, Nat.add_comm, ← List.drop_drop, List.drop_left' hrow]

theorem bytes_take (h : ∀ row ∈ rows, row.length = s.width) (count : Nat) :
    s.bytes (rows.take count) = (s.bytes rows).take (count * s.size) := by
  -- What is taken is what is left before the rest, which is dropped.
  have hwhole := congrArg s.bytes (List.take_append_drop count rows)
  rw [bytes_append, bytes_drop h] at hwhole
  have hsplit := List.take_append_drop (count * s.size) (s.bytes rows)
  exact List.append_cancel_right (hwhole.trans hsplit.symm)

/-- Stretches of rows are stretches of their buffer. -/
theorem slice_bytes (h : ∀ row ∈ rows, row.length = s.width) (first count : Nat) :
    s.slice (s.bytes rows) first count = s.bytes ((rows.drop first).take count) := by
  have hrest : ∀ row ∈ rows.drop first, row.length = s.width :=
    fun row hrow => h row (List.mem_of_mem_drop hrow)
  rw [slice, bytes_take hrest, bytes_drop h]

theorem pointAt_bytes (h : ∀ row ∈ rows, row.length = s.width) {index : Nat}
    (hindex : index < rows.length) : s.pointAt (s.bytes rows) index = s.rowBytes rows[index] := by
  have hslice := slice_bytes h index 1
  rw [slice, Nat.one_mul, List.drop_eq_getElem_cons hindex, List.take_succ_cons, List.take_zero]
    at hslice
  rw [pointAt, hslice, bytes, List.flatMap_singleton]

end Schema

namespace Patch

variable {config : Config} {s : Schema} {p q a b : Patch} {rows others : List Row}
  {target : Option Scheme} {first count : Nat}

/-! ## Points -/

/-- The point at an index is that of the row. -/
theorem Holds.pointAt_eq (hp : p.Holds s rows) (hroom : reserve (p.count.toNat * s.size) = .ok ())
    {index : Nat} (hindex : index < rows.length) :
    p.pointAt s index = .ok ⟨s.pcid, s.rowBytes rows[index]⟩ := by
  have hcount : ¬ p.count.toNat ≤ index := by
    rw [← hp.count]
    exact Nat.not_le.mpr hindex
  unfold pointAt
  rw [Schema.checkPcid, if_pos hp.pcid, Result.ok_bind, if_neg hcount, hp.rows_eq hroom,
    Result.ok_bind, List.getElem?_eq_getElem hindex, hp.pcid]
  rfl

theorem Holds.pointAt_error (hp : p.Holds s rows) {index : Nat} (hindex : rows.length ≤ index) :
    p.pointAt s index = .error (.indexOutOfRange index rows.length) := by
  rw [hp.count] at hindex ⊢
  unfold pointAt
  rw [Schema.checkPcid, if_pos hp.pcid, Result.ok_bind, if_pos hindex]
  rfl

theorem Holds.points_eq (hp : p.Holds s rows)
    (hroom : reserve (p.count.toNat * s.size) = .ok ()) :
    p.points s = .ok (rows.map fun row => ⟨s.pcid, s.rowBytes row⟩) := by
  unfold Patch.points
  rw [hp.rows_eq hroom, hp.pcid]
  rfl

/-! ## Parts -/

theorem Holds.range_error [Compressors] (hp : p.Holds s rows) (hfirst : p.count.toNat < first) :
    p.range config s first count target = .error (.indexOutOfRange first p.count.toNat) := by
  unfold range
  rw [Schema.checkPcid, if_pos hp.pcid, Result.ok_bind, if_pos hfirst]
  rfl

theorem Holds.range_eq_bind [Compressors] (hp : p.Holds s rows) (hfirst : first ≤ p.count.toNat) :
    p.range config s first count target = p.rows s >>= fun rows =>
      ofRows config s ((rows.drop first).take count) (target.getD p.scheme).keepingOrder := by
  unfold range
  rw [Schema.checkPcid, if_pos hp.pcid, Result.ok_bind, if_neg (Nat.not_lt.mpr hfirst)]

/-- A part holds its stretch of the rows, in order. -/
theorem Holds.holdsInOrder_of_range [Compressors] [LawfulCompressors] (hp : p.Holds s rows)
    (hroom : reserve (p.count.toNat * s.size) = .ok ())
    (h : p.range config s first count target = .ok q) :
    HoldsInOrder s q ((rows.drop first).take count) := by
  -- A part that begins past the end would have been refused.
  have hfirst : first ≤ p.count.toNat := by
    by_contra hlt
    rw [hp.range_error (Nat.not_le.mp hlt)] at h
    cases h
  rw [hp.range_eq_bind hfirst, hp.rows_eq hroom, Result.ok_bind] at h
  have hkept : ((rows.drop first).take count).Sublist rows :=
    (List.take_sublist _ _).trans (List.drop_sublist _ _)
  exact holdsInOrder_of_ofRows (hp.fits_of_sublist hkept) (Scheme.keepingOrder_ne _)
    (hp.reserve_of_sublist hkept hroom) h

/-- It can be had if the scheme can write the stretch. -/
theorem Holds.exists_range [Compressors] (hp : p.Holds s rows)
    (hroom : reserve (p.count.toNat * s.size) = .ok ()) (hfirst : first ≤ p.count.toNat)
    (hwrites : (target.getD p.scheme).keepingOrder.Writes config s
      (s.bytes ((rows.drop first).take count)) ((rows.drop first).take count).length) :
    ∃ q, p.range config s first count target = .ok q := by
  have hlength : ((rows.drop first).take count).length ≤ p.count.toNat := by
    rw [← hp.count]
    exact ((List.take_sublist _ _).trans (List.drop_sublist _ _)).length_le
  rw [hp.range_eq_bind hfirst, hp.rows_eq hroom, Result.ok_bind]
  exact exists_ofBuffer_of_writes hwrites (Nat.lt_of_le_of_lt hlength p.count.toNat_lt)

/-- An error other than that of an index. -/
def NeverOutOfRange {α : Type} (x : Except Error α) : Prop :=
  FailsOnly (fun e => ∀ index points, e ≠ .indexOutOfRange index points) x

theorem rows_neverOutOfRange (p : Patch) (s : Schema) : NeverOutOfRange (p.rows s) := by
  refine (p.rows_failsOnly s).mono ?_
  rintro e he index points rfl
  rcases he with hmismatch | hrefusal
  · cases hmismatch
  · cases hrefusal

theorem ofRows_neverOutOfRange [Compressors] {scheme : Scheme} (hscheme : scheme ≠ .hierarchical)
    (config : Config) (rows : List Row) : NeverOutOfRange (ofRows config s rows scheme) := by
  refine (ofRows_failsOnly (fun h => absurd h hscheme) config rows).mono ?_
  rintro e he index points rfl
  cases he with
  | reading he => cases he

/-- A part is refused for its place exactly if it begins past the end, whatever else may fail. -/
theorem Holds.indexOutOfRange_iff [Compressors] (hp : p.Holds s rows) :
    (∃ index points, p.range config s first count target =
      .error (.indexOutOfRange index points)) ↔ p.count.toNat < first := by
  constructor
  · rintro ⟨index, points, h⟩
    by_contra hfirst
    rw [hp.range_eq_bind (Nat.not_lt.mp hfirst)] at h
    -- What is left is reading and writing, and neither knows of indices.
    have hnever : NeverOutOfRange (p.rows s >>= fun rows =>
        ofRows config s ((rows.drop first).take count) (target.getD p.scheme).keepingOrder) :=
      (rows_neverOutOfRange p s).bind fun rows =>
        ofRows_neverOutOfRange (Scheme.keepingOrder_ne _) config _
    exact hnever _ h index points rfl
  · intro hfirst
    exact ⟨first, p.count.toNat, hp.range_error hfirst⟩

/-- The point at an index of a part is a point of the patch. -/
theorem pointAt_of_stretch (hp : p.Holds s rows)
    (hroom : reserve (p.count.toNat * s.size) = .ok ())
    (hq : HoldsInOrder s q ((rows.drop first).take count)) {index : Nat}
    (hindex : index < ((rows.drop first).take count).length) :
    q.pointAt s index = p.pointAt s (first + index) := by
  have hinside : first + index < rows.length := by
    rw [List.length_take, List.length_drop] at hindex
    omega
  rw [hq.holds.pointAt_eq hq.room hindex, hp.pointAt_eq hroom hinside, List.getElem_take,
    List.getElem_drop]

/-! ## Joined parts -/

/-- Patches are joined if the whole can be written. -/
theorem exists_union [Compressors] (ha : a.Holds s rows) (hb : b.Holds s others)
    (hcount : (rows ++ others).length < 2 ^ 32)
    (hroom : reserve ((rows ++ others).length * s.size) = .ok ())
    (hwrites : (target.getD (preferredScheme a [b])).keepingOrder.Writes config s
      (s.bytes (rows ++ others)) (rows ++ others).length) :
    ∃ u, a.union b config s target = .ok u := by
  have hflat : [rows, others].flatten = rows ++ others := by simp
  have hmerge := merge_eq_of_parts config target (.cons ha (.cons hb .nil)) (by rwa [hflat])
  rw [hflat] at hmerge
  obtain ⟨u, hu⟩ := exists_ofBuffer_of_writes hwrites hcount
  exact ⟨u, hmerge.trans hu⟩

/-! ## Patches -/

/-- What is said of the points of a patch that decodes to a buffer: the list of points, the points
at indices and the bytes of the buffer are the same points. -/
structure CountsPoints (s : Schema) (p : Patch) (buffer : Bytes) (points : List Point) : Prop where
  points_eq : p.points s = .ok points
  length_eq : points.length = p.count.toNat
  pointAt   : ∀ index point, points[index]? = some point →
    p.pointAt s index = .ok point ∧ point.raw = s.pointAt buffer index

/-- A stretch of `count` points of a patch from an index on, as a patch of its own. -/
structure IsPart (s : Schema) (p : Patch) (buffer : Bytes) (first count : Nat) (q : Patch) :
    Prop where
  count_eq : q.count.toNat = count
  decode   : q.decode s = .ok (s.slice buffer first count)
  pointAt  : ∀ index < count, q.pointAt s index = p.pointAt s (first + index)

section Parts

variable (hp : p.Holds s rows) (hroom : reserve (p.count.toNat * s.size) = .ok ())
include hp hroom

theorem Holds.exists_countsPoints : ∃ points, CountsPoints s p (s.bytes rows) points := by
  refine ⟨_, hp.points_eq hroom, ?_, ?_⟩
  · rw [List.length_map, hp.count]
  · intro index point hpoint
    rw [List.getElem?_map, Option.map_eq_some_iff] at hpoint
    obtain ⟨row, hrow, rfl⟩ := hpoint
    obtain ⟨hindex, rfl⟩ := List.getElem?_eq_some_iff.mp hrow
    refine ⟨hp.pointAt_eq hroom hindex, ?_⟩
    exact (Schema.pointAt_bytes (fun row hrow => s.length_of_fits (hp.fits row hrow)) hindex).symm

/-- Any part that can be written is the stretch of points it asks for. -/
theorem Holds.exists_isPart [Compressors] [LawfulCompressors] (hfirst : first ≤ p.count.toNat)
    (hwrites : (target.getD p.scheme).keepingOrder.Writes config s
      (s.slice (s.bytes rows) first (min count (p.count.toNat - first)))
      (min count (p.count.toNat - first))) :
    ∃ q, p.range config s first count target = .ok q ∧
      IsPart s p (s.bytes rows) first (min count (p.count.toNat - first)) q := by
  have hwidth : ∀ row ∈ rows, row.length = s.width :=
    fun row hrow => s.length_of_fits (hp.fits row hrow)
  have hlength : ((rows.drop first).take count).length = min count (p.count.toNat - first) := by
    rw [List.length_take, List.length_drop, hp.count]
  -- A count past the end takes what there is.
  have hslice : s.slice (s.bytes rows) first (min count (p.count.toNat - first)) =
      s.bytes ((rows.drop first).take count) := by
    rw [Schema.slice_bytes hwidth, ← hp.count, ← List.length_drop, ← List.take_eq_take_min]
  rw [hslice, ← hlength] at hwrites
  obtain ⟨q, hq⟩ := hp.exists_range hroom hfirst hwrites
  have hheld := hp.holdsInOrder_of_range hroom hq
  refine ⟨q, hq, ?_, ?_, ?_⟩
  · rw [← hheld.holds.count, hlength]
  · rw [hheld.decode_eq, hslice]
  · intro index hindex
    rw [← hlength] at hindex
    exact pointAt_of_stretch hp hroom hheld hindex

/-- Two parts that meet are joined to the whole. -/
theorem Holds.exists_union_of_parts [Compressors] [LawfulCompressors] {k : Nat} {config' : Config}
    {target' : Option Scheme} (hcount : p.count.toNat - k ≤ count)
    (ha : p.range config s 0 k target = .ok a) (hb : p.range config' s k count target' = .ok b)
    {joined : Config} {asked : Option Scheme}
    (hwrites : (asked.getD (preferredScheme a [b])).keepingOrder.Writes joined s (s.bytes rows)
      p.count.toNat) :
    ∃ u, a.union b joined s asked = .ok u ∧ u.decode s = .ok (s.bytes rows) := by
  -- The first part ends where the second one begins, and nothing is after that.
  have hrest : (rows.drop k).take count = rows.drop k := by
    refine List.take_of_length_le ?_
    rw [List.length_drop, hp.count]
    exact hcount
  have hwhole : (rows.drop 0).take k ++ (rows.drop k).take count = rows := by
    rw [hrest, List.drop_zero, List.take_append_drop]
  have hheld := (hp.holdsInOrder_of_range hroom ha).holds
  have hheld' := (hp.holdsInOrder_of_range hroom hb).holds
  rw [← hp.count] at hroom hwrites
  obtain ⟨u, hu⟩ := exists_union hheld hheld'
    (by rw [hwhole, hp.count]; exact p.count.toNat_lt) (by rwa [hwhole]) (by rwa [hwhole])
  obtain ⟨hroomu, hjoined⟩ := hheld.union hheld' ⟨joined, asked, hu⟩
  rw [hwhole] at hjoined
  exact ⟨u, hu, hjoined.decode_eq hroomu⟩

end Parts

/-- Points and parts of a patch that is reached. An index is refused from the count of points on,
and a part exactly if it begins past the end. Any other part that can be written is the stretch of
points it asks for, as far as there are any. Two parts that meet make up the whole. -/
theorem Reachable.parts_agree [Compressors] [LawfulCompressors] (hp : Reachable s p) :
    (∀ config first count target, p.count.toNat < first →
      p.range config s first count target = .error (.indexOutOfRange first p.count.toNat)) ∧
    (∀ config first count target, (∃ index points, p.range config s first count target =
      .error (.indexOutOfRange index points)) ↔ p.count.toNat < first) ∧
    (∀ index, p.count.toNat ≤ index →
      p.pointAt s index = .error (.indexOutOfRange index p.count.toNat)) ∧
    ∀ buffer, p.decode s = .ok buffer →
      (∃ points, CountsPoints s p buffer points) ∧
      (∀ config first count target, first ≤ p.count.toNat →
        (target.getD p.scheme).keepingOrder.Writes config s
          (s.slice buffer first (min count (p.count.toNat - first)))
          (min count (p.count.toNat - first)) →
        ∃ q, p.range config s first count target = .ok q ∧
          IsPart s p buffer first (min count (p.count.toNat - first)) q) ∧
      ∀ k count config config' target target' a b, k ≤ p.count.toNat →
        p.count.toNat - k ≤ count → p.range config s 0 k target = .ok a →
        p.range config' s k count target' = .ok b →
        ∀ (joined : Config) (asked : Option Scheme),
          (asked.getD (preferredScheme a [b])).keepingOrder.Writes joined s buffer
            p.count.toNat →
          ∃ u, a.union b joined s asked = .ok u ∧ u.decode s = .ok buffer := by
  obtain ⟨rows, hp⟩ := hp.exists_holds
  refine ⟨?_, ?_, ?_, ?_⟩
  · intro config first count target hfirst
    exact hp.range_error hfirst
  · intro config first count target
    exact hp.indexOutOfRange_iff
  · intro index hindex
    rw [← hp.count] at hindex ⊢
    exact hp.pointAt_error hindex
  · intro buffer hbuffer
    have hroom := reserve_of_decode hbuffer
    obtain rfl : s.bytes rows = buffer := Except.ok.inj ((hp.decode_eq hroom).symm.trans hbuffer)
    refine ⟨hp.exists_countsPoints hroom, ?_, ?_⟩
    · intro config first count target hfirst hwrites
      exact hp.exists_isPart hroom hfirst hwrites
    · intro k count config config' target target' a b _ hcount ha hb joined asked hwrites
      exact hp.exists_union_of_parts hroom hcount ha hb hwrites

/-- Two points of the plane, parted after the first and joined again. -/
theorem Reachable.parts_agree_planar :
    let s := Schema.planar
    let buffer : Bytes := [0, 7, 255, 0, 3, 0, 9, 255, 1, 3]
    Reachable s planar ∧ planar.decode s = .ok buffer ∧
      planar.range {} s 3 1 none = .error (.indexOutOfRange 3 2) ∧
      planar.pointAt s 2 = .error (.indexOutOfRange 2 2) ∧
      (∃ points, CountsPoints s planar buffer points) ∧
      ∃ a b u, planar.range {} s 0 1 none = .ok a ∧ IsPart s planar buffer 0 1 a ∧
        planar.range {} s 1 5 none = .ok b ∧ IsPart s planar buffer 1 1 b ∧
        a.union b {} s (some .uncompressed) = .ok u ∧ u.decode s = .ok buffer := by
  intro s buffer
  have hbuffer : planar.decode s = .ok buffer := rfl
  obtain ⟨hpast, -, hpoint, hparts⟩ := reachable_planar.parts_agree
  obtain ⟨hpoints, hrange, hunion⟩ := hparts buffer hbuffer
  obtain ⟨a, ha, hfirst⟩ := hrange {} 0 1 none (by decide) ⟨_, rfl⟩
  -- Of the five points asked for there is one.
  obtain ⟨b, hb, hsecond⟩ := hrange {} 1 5 none (by decide) ⟨_, rfl⟩
  obtain ⟨u, hu, hwhole⟩ := hunion 1 5 {} {} none none a b (by decide) (by decide) ha hb {}
    (some .uncompressed) ⟨_, rfl⟩
  exact ⟨reachable_planar, hbuffer, hpast {} 3 1 none (by decide), hpoint 2 (by decide), hpoints,
    a, b, u, ha, hfirst, hb, hsecond, hu, hwhole⟩

end Patch

end PointCloud
