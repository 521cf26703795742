import Mathlib
import PointCloud.Proofs.Key
import PointCloud.Proofs.Patch.Intersection
import PointCloud.Proofs.Patch.Join
import PointCloud.Proofs.Patch.Merge
import PointCloud.Proofs.Scheme.Lengths

/-!
# Queries and their rewriting

A query is an expression of filters, sorts, joins and intersections over patches. It is answered
operation by operation, each under a configuration of its own, and every step stores its result
under a scheme that it picks. If no patch at the leaves groups its points, no step picks a scheme
that does. The order of points then survives every step, and the answer holds the rows that the
query means: what it keeps, sorts and joins of the rows at its leaves.

What a query means does not depend on schemes or configurations. Two queries of one meaning may
therefore replace each other: whenever both are answered, they decode to the same buffer.

Main results:

* `Query.Answers.holds` — an answer holds the rows that the query means, in order;
* `Query.equivalent_of_rows_eq` — queries of one meaning decode alike;
* `Query.rewriting_laws` — filters commute, pass through joins and through sorts; parts may be
  sorted before the whole; intersections pass through joins.
-/

namespace PointCloud

/-! ## Rows and boxes -/

namespace Schema

variable {s : Schema}

/-- Boxes that agree enclose the same values. -/
theorem enclosed_congr {a b : Bounds} (h : a.Agree b) (rows : List Row) :
    s.enclosed a rows = s.enclosed b rows := by
  refine List.filter_congr fun row _ => ?_
  rw [Bool.eq_iff_iff, decide_eq_true_iff, decide_eq_true_iff]
  obtain ⟨hab, hba⟩ := Bounds.agree_iff_within.mp h
  exact ⟨hab.encloses, hba.encloses⟩

/-- Whether a row passes a test of the named dimension. No row passes a test of a dimension that is
not there. -/
def selects (s : Schema) (name : String) (predicate : Predicate) (row : Row) : Bool :=
  (s.named? name).any fun d => Patch.passes d predicate row

theorem selects_of_named {name : String} {d : Dimension} (h : s.named name = .ok d)
    (predicate : Predicate) : s.selects name predicate = Patch.passes d predicate := by
  unfold named at h
  split at h
  · rename_i found hfound
    obtain rfl := Except.ok.inj h
    funext row
    rw [selects, hfound, Option.any_some]
  · cases h

theorem filterMap_named? {names : List String} {dimensions : List Dimension}
    (h : names.mapM s.named = .ok dimensions) : names.filterMap s.named? = dimensions := by
  induction names generalizing dimensions with
  | nil => exact Except.ok.inj h
  | cons name names ih =>
    rw [List.mapM_cons] at h
    obtain ⟨d, hd, h⟩ := Result.bind_eq_ok_iff.mp h
    obtain ⟨others, hothers, h⟩ := Result.bind_eq_ok_iff.mp h
    rw [← Except.ok.inj h, ← ih hothers]
    unfold named at hd
    split at hd
    · rename_i found hfound
      rw [← Except.ok.inj hd, List.filterMap_cons_some hfound]
    · cases hd

end Schema

namespace Patch

variable {s : Schema} {a b p q : Patch} {config : Config} {rows others : List Row}

/-- A patch that was decoded had room for its points. -/
theorem reserve_of_decode {buffer : Bytes} (h : p.decode s = .ok buffer) :
    reserve (p.count.toNat * s.size) = .ok () := by
  obtain ⟨u, -, h⟩ := Result.bind_eq_ok_iff.mp h
  exact Scheme.reserve_of_decompress h

theorem reserve_of_rows (h : p.rows s = .ok rows) :
    reserve (p.count.toNat * s.size) = .ok () := by
  obtain ⟨buffer, hbuffer, -⟩ := Result.bind_eq_ok_iff.mp h
  exact reserve_of_decode hbuffer

/-- The rows of a patch are those that it holds. -/
theorem Holds.eq_of_rows {decoded : List Row} (hp : p.Holds s rows) (h : p.rows s = .ok decoded) :
    decoded = rows :=
  Except.ok.inj (h.symm.trans (hp.rows_eq (reserve_of_rows h)))

theorem preferredScheme_ne (ha : a.scheme ≠ .hierarchical) (hb : b.scheme ≠ .hierarchical) :
    preferredScheme a [b] ≠ .hierarchical := by
  unfold preferredScheme
  split
  · exact ha
  · rw [List.foldl_cons, List.foldl_nil]
    split
    · exact hb
    · exact ha

/-- A patch that holds rows, in a scheme that keeps their order, and has room for them. -/
structure HoldsInOrder (s : Schema) (p : Patch) (rows : List Row) : Prop where
  holds   : p.Holds s rows
  ordered : p.scheme ≠ .hierarchical
  room    : reserve (p.count.toNat * s.size) = .ok ()

theorem HoldsInOrder.decode_eq (h : HoldsInOrder s p rows) : p.decode s = .ok (s.bytes rows) :=
  h.holds.decode_eq h.room

/-- Building a patch from rows, under a scheme that keeps their order. -/
theorem holdsInOrder_of_ofRows [Compressors] [LawfulCompressors] {scheme : Scheme}
    (hfits : ∀ row ∈ rows, Row.Fits s.sizes row) (hscheme : scheme ≠ .hierarchical)
    (hroom : reserve (rows.length * s.size) = .ok ()) (h : ofRows config s rows scheme = .ok p) :
    HoldsInOrder s p rows := by
  obtain ⟨rfl, kept, -, hkept, hp⟩ := exists_holds_of_ofRows hfits h
  obtain rfl := hkept hscheme
  rw [hp.count] at hroom
  exact ⟨hp, hscheme, hroom⟩

/-! ## Steps -/

namespace Holds

theorem filter [Compressors] [LawfulCompressors] (hp : p.Holds s rows)
    (hscheme : p.scheme ≠ .hierarchical) {name : String} {predicate : Predicate}
    (h : p.filter config s name predicate none = .ok q) :
    HoldsInOrder s q (rows.filter (s.selects name predicate)) := by
  obtain ⟨d, decoded, hd, hdecoded, h⟩ := filter_eq_ok_iff.mp h
  have hroom := reserve_of_rows hdecoded
  rw [hp.eq_of_rows hdecoded, ← Schema.selects_of_named hd] at h
  exact holdsInOrder_of_ofRows (hp.fits_of_sublist List.filter_sublist) hscheme
    (hp.reserve_of_sublist List.filter_sublist hroom) h

theorem sort [Compressors] [LawfulCompressors] (hp : p.Holds s rows) {names : List String}
    {target : Option Scheme} (h : p.sort config s names target = .ok q) :
    HoldsInOrder s q (Key.sortBy (sortKey (names.filterMap s.named?)) rows) := by
  obtain ⟨dimensions, hdimensions, h⟩ := Result.bind_eq_ok_iff.mp h
  obtain ⟨decoded, hdecoded, h⟩ := Result.bind_eq_ok_iff.mp h
  have hroom := reserve_of_rows hdecoded
  rw [hp.eq_of_rows hdecoded, ← Schema.filterMap_named? hdimensions] at h
  -- Sorting moves rows and makes none: their words and their count are those of before.
  have hperm := Key.perm_sortBy (sortKey (names.filterMap s.named?)) rows
  refine holdsInOrder_of_ofRows ?_ (Scheme.keepingOrder_ne _) ?_ h
  · intro row hrow
    exact hp.fits row (hperm.mem_iff.mp hrow)
  · rwa [hperm.length_eq, hp.count]

theorem join [Compressors] [LawfulCompressors] (ha : a.Holds s rows) (hb : b.Holds s others)
    (h : a.union b config s none = .ok q) : HoldsInOrder s q (rows ++ others) := by
  obtain ⟨hroom, hordered, hq⟩ := exists_holds_of_union ha hb h
  rw [hq.count] at hroom
  exact ⟨hq, hordered, hroom⟩

theorem cut [Compressors] [LawfulCompressors] (ha : a.Holds s rows) (hb : b.Holds s others)
    (hscheme : a.scheme ≠ .hierarchical) (hscheme' : b.scheme ≠ .hierarchical)
    (h : a.intersection b config s none = .ok q) :
    HoldsInOrder s q (s.enclosed (s.bounds others others.length) rows) := by
  obtain ⟨hroom, hbuilt⟩ := ha.ofRows_of_intersection hb.hasWidth (fun _ => reserve_of_rows) h
  -- The box that is stored agrees with that of the rows, so it selects the same ones.
  rw [Schema.enclosed_congr hb.bounds] at hroom hbuilt
  exact holdsInOrder_of_ofRows (ha.fits_enclosed _) (preferredScheme_ne hscheme hscheme') hroom
    hbuilt

end Holds

/-- A patch that was reached and does not group its points. -/
def IsOrdered [Compressors] (s : Schema) (p : Patch) : Prop :=
  Reachable s p ∧ p.scheme ≠ .hierarchical

end Patch

/-! ## Queries -/

/-- An expression of operations over patches. Results take the scheme that the operation picks by
itself. -/
inductive Query where
  | patch (p : Patch)
  | filter (name : String) (predicate : Predicate) (q : Query)
  | sort (names : List String) (q : Query)
  | union (q r : Query)
  | intersection (q r : Query)

namespace Query

variable {s : Schema} {held : Patch → List Row} {q r : Query}

/-- A property of every patch that a query is over. -/
def Over (P : Patch → Prop) : Query → Prop
  | patch p => P p
  | filter _ _ q => q.Over P
  | sort _ q => q.Over P
  | union q r => q.Over P ∧ r.Over P
  | intersection q r => q.Over P ∧ r.Over P

/-- Whether a query asks for an operation at all. -/
def IsStep : Query → Prop
  | patch _ => False
  | _ => True

/-- The patches that a query may give: every operation succeeds, each under some configuration. -/
inductive Answers [Compressors] (s : Schema) : Query → Patch → Prop
  | patch (p) : Answers s (patch p) p
  | filter {config name predicate q p x} (hq : Answers s q p)
      (h : p.filter config s name predicate none = .ok x) : Answers s (filter name predicate q) x
  | sort {config names q p x} (hq : Answers s q p) (h : p.sort config s names none = .ok x) :
      Answers s (sort names q) x
  | union {config q r a b x} (hq : Answers s q a) (hr : Answers s r b)
      (h : a.union b config s none = .ok x) : Answers s (union q r) x
  | intersection {config q r a b x} (hq : Answers s q a) (hr : Answers s r b)
      (h : a.intersection b config s none = .ok x) : Answers s (intersection q r) x

/-- The rows that a query means, given those that are held by the patches it is over. -/
def rows (s : Schema) (held : Patch → List Row) : Query → List Row
  | patch p => held p
  | filter name predicate q => (q.rows s held).filter (s.selects name predicate)
  | sort names q => Key.sortBy (Patch.sortKey (names.filterMap s.named?)) (q.rows s held)
  | union q r => q.rows s held ++ r.rows s held
  | intersection q r =>
    s.enclosed (s.bounds (r.rows s held) (r.rows s held).length) (q.rows s held)

/-- A patch that holds what a query means, and is known to decode if an operation made it. -/
structure Means (s : Schema) (held : Patch → List Row) (q : Query) (p : Patch) : Prop where
  holds   : p.Holds s (q.rows s held)
  ordered : p.scheme ≠ .hierarchical
  decoded : q.IsStep → p.decode s = .ok (s.bytes (q.rows s held))

theorem Means.of_holdsInOrder {p : Patch} (h : Patch.HoldsInOrder s p (q.rows s held)) :
    q.Means s held p :=
  ⟨h.holds, h.ordered, fun _ => h.decode_eq⟩

/-- An answer holds the rows that the query means, in order. -/
theorem Answers.means [Compressors] [LawfulCompressors] {p : Patch} (h : q.Answers s p)
    (hover : q.Over fun p => p.Holds s (held p) ∧ p.scheme ≠ .hierarchical) :
    q.Means s held p := by
  -- One case an operation, which is given patches that hold what its parts mean.
  induction h with
  | patch p => exact ⟨hover.1, hover.2, False.elim⟩
  | filter hq h ih =>
    have hp := ih hover
    exact .of_holdsInOrder (hp.holds.filter hp.ordered h)
  | sort hq h ih =>
    have hp := ih hover
    exact .of_holdsInOrder (hp.holds.sort h)
  | union hq hr h ihq ihr =>
    have ha := ihq hover.1
    have hb := ihr hover.2
    exact .of_holdsInOrder (ha.holds.join hb.holds h)
  | intersection hq hr h ihq ihr =>
    have ha := ihq hover.1
    have hb := ihr hover.2
    exact .of_holdsInOrder (ha.holds.cut hb.holds ha.ordered hb.ordered h)

theorem Over.mono {P Q : Patch → Prop} (himp : ∀ p, P p → Q p) (h : q.Over P) : q.Over Q := by
  induction q with
  | patch p => exact himp p h
  | filter name predicate q ih => exact ih h
  | sort names q ih => exact ih h
  | union q r ihq ihr => exact ⟨ihq h.1, ihr h.2⟩
  | intersection q r ihq ihr => exact ⟨ihq h.1, ihr h.2⟩

/-! ## Rewriting -/

/-- Queries of which each answer to the one decodes to what each answer to the other does. -/
def Equivalent [Compressors] (s : Schema) (q r : Query) : Prop :=
  ∀ x y, q.Answers s x → r.Answers s y →
    ∃ buffer, x.decode s = .ok buffer ∧ y.decode s = .ok buffer

/-- Queries of one meaning are equivalent, whatever the patches they are over hold. -/
theorem equivalent_of_rows_eq [Compressors] [LawfulCompressors] (hq : q.Over (Patch.IsOrdered s))
    (hr : r.Over (Patch.IsOrdered s)) (hstep : q.IsStep) (hstep' : r.IsStep)
    (heq : ∀ held, q.rows s held = r.rows s held) :
    Equivalent s q r := by
  -- Every patch that was reached holds some rows; which ones does not matter.
  choose! held hheld using fun (p : Patch) (h : Patch.Reachable s p) => h.exists_holds
  have hleaf : ∀ p, Patch.IsOrdered s p → p.Holds s (held p) ∧ p.scheme ≠ .hierarchical :=
    fun p hp => ⟨hheld p hp.1, hp.2⟩
  intro x y hx hy
  have hx := (hx.means (hq.mono hleaf)).decoded hstep
  have hy := (hy.means (hr.mono hleaf)).decoded hstep'
  rw [← heq] at hy
  exact ⟨_, hx, hy⟩

section Rows

variable (s : Schema) (held : Patch → List Row) (a b c : Query)

theorem rows_filter_filter (name name' : String) (P Q : Predicate) :
    (filter name' Q (filter name P a)).rows s held =
      (filter name P (filter name' Q a)).rows s held := by
  simp only [rows, List.filter_comm]

theorem rows_filter_union (name : String) (P : Predicate) :
    (filter name P (union a b)).rows s held =
      (union (filter name P a) (filter name P b)).rows s held := by
  simp only [rows, List.filter_append]

theorem rows_sort_filter (names : List String) (name : String) (P : Predicate) :
    (sort names (filter name P a)).rows s held = (filter name P (sort names a)).rows s held := by
  simp only [rows, Key.sortBy_filter]

theorem rows_sort_union_sort (names : List String) :
    (sort names (union (sort names a) (sort names b))).rows s held =
      (sort names (union a b)).rows s held := by
  simp only [rows, Key.sortBy_append_sortBy]

theorem rows_intersection_union :
    (intersection (union a b) c).rows s held =
      (union (intersection a c) (intersection b c)).rows s held := by
  simp only [rows, Schema.enclosed, List.filter_append]

end Rows

/-- Over patches that were reached and do not group their points, whenever both sides are answered
they decode to the same buffer: filters commute, and pass through joins and through sorts; parts may
be sorted before the whole is; intersections pass through joins. -/
theorem rewriting_laws [Compressors] [LawfulCompressors] (s : Schema) (a b c : Query)
    (ha : a.Over (Patch.IsOrdered s)) (hb : b.Over (Patch.IsOrdered s))
    (hc : c.Over (Patch.IsOrdered s)) :
    (∀ name name' P Q, Equivalent s (filter name' Q (filter name P a))
      (filter name P (filter name' Q a))) ∧
    (∀ name P, Equivalent s (filter name P (union a b))
      (union (filter name P a) (filter name P b))) ∧
    (∀ names name P, Equivalent s (sort names (filter name P a))
      (filter name P (sort names a))) ∧
    (∀ names, Equivalent s (sort names (union (sort names a) (sort names b)))
      (sort names (union a b))) ∧
    Equivalent s (intersection (union a b) c) (union (intersection a c) (intersection b c)) := by
  refine ⟨?_, ?_, ?_, ?_, ?_⟩
  · intro name name' P Q
    exact equivalent_of_rows_eq ha ha trivial trivial
      fun held => rows_filter_filter s held a name name' P Q
  · intro name P
    exact equivalent_of_rows_eq ⟨ha, hb⟩ ⟨ha, hb⟩ trivial trivial
      fun held => rows_filter_union s held a b name P
  · intro names name P
    exact equivalent_of_rows_eq ha ha trivial trivial
      fun held => rows_sort_filter s held a names name P
  · intro names
    exact equivalent_of_rows_eq ⟨ha, hb⟩ ⟨ha, hb⟩ trivial trivial
      fun held => rows_sort_union_sort s held a b names
  · exact equivalent_of_rows_eq ⟨⟨ha, hb⟩, hc⟩ ⟨⟨ha, hc⟩, hb, hc⟩ trivial trivial
      fun held => rows_intersection_union s held a b c

/-- Two points of the plane, filtered by X and class: either order of the filters leaves one. -/
theorem rewriting_laws_planar :
    let s := Schema.planar
    let a := patch Patch.planar
    let P := Predicate.greater (.ofNat 8)
    let Q := Predicate.equal (.ofNat 3)
    a.Over (Patch.IsOrdered s) ∧
    ∃ x y, Answers s (filter "Class" Q (filter "X" P a)) x ∧
      Answers s (filter "X" P (filter "Class" Q a)) y ∧
      ∃ buffer, x.decode s = .ok buffer ∧ y.decode s = .ok buffer := by
  intro s a P Q
  have ha : a.Over (Patch.IsOrdered s) := ⟨Patch.reachable_planar, by decide⟩
  let point : Bytes := [0, 9, 255, 1, 3]
  let p : Patch := ⟨1, .uncompressed, 1, s.bounds (s.rows point) 1,
    s.statisticsIn? (s.bounds (s.rows point) 1) (s.rows point) 1, point⟩
  have hX : Patch.planar.filter {} s "X" P none = .ok p := by decide +kernel
  have hXClass : p.filter {} s "Class" Q none = .ok p := by decide +kernel
  have hClass : Patch.planar.filter {} s "Class" Q none = .ok Patch.planar := by decide +kernel
  obtain ⟨hfilters, -⟩ := rewriting_laws s a a a ha ha ha
  have hx : Answers s (filter "Class" Q (filter "X" P a)) p :=
    .filter (.filter (.patch Patch.planar) hX) hXClass
  have hy : Answers s (filter "X" P (filter "Class" Q a)) p :=
    .filter (.filter (.patch Patch.planar) hClass) hX
  exact ⟨ha, p, p, hx, hy, hfilters "X" "Class" P Q p p hx hy⟩

end Query

end PointCloud
