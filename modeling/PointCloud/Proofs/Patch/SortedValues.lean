import Mathlib
import PointCloud.Proofs.Dimension.Keys
import PointCloud.Proofs.Patch.Indices

/-!
# Sorting and decoded values

Points are sorted by the keys of their words, and values follow keys: they do not fall where keys
rise. So among points that agree in the dimensions listed before, the values of a dimension are in
order once the points are sorted. What keys do not give is the order of tuples of values. Two
integers past the precision of a value may stand for one value and still have two keys; then the
dimensions that are listed later are not looked at, although the values agree so far. Where no two
integers of the patch are confused in this way, tuples are in order and ties keep theirs.

Main results:

* `Patch.sort_values` — what the order of decoded values is after sorting;
* `Patch.not_sortedByValues` — two integers of one value, which keep the points from being sorted by
  the tuples of their values.
-/

namespace PointCloud

/-! ## Tuples of values -/

namespace Binary64

/-- Whether a tuple of values comes before another or compares as equal: the first entries that do
not compare as equal decide. -/
def lexLe : List Binary64 → List Binary64 → Bool
  | [], _ => true
  | _ :: _, [] => false
  | x :: xs, y :: ys => x.lt y || (x.equals y && lexLe xs ys)

theorem lt_or_equals_of_le {x y : Binary64} (h : x.le y = true) :
    x.lt y = true ∨ x.equals y = true := by
  simp only [le, lt, equals, Bool.and_eq_true, decide_eq_true_eq] at *
  rcases lt_or_eq_of_le h.2 with hlt | heq
  · exact .inl ⟨h.1, hlt⟩
  · exact .inr ⟨h.1, heq⟩

end Binary64

namespace Row

theorem getD_lt_of_fits {sizes : List Nat} {row : Row} (h : Fits sizes row) {j : Nat}
    (hj : j < sizes.length) : row.getD j 0 < 256 ^ sizes[j] := by
  induction sizes generalizing row j with
  | nil => simp at hj
  | cons size sizes ih =>
    cases row with
    | nil => simp [Fits] at h
    | cons w row =>
      cases j with
      | zero => exact h.1
      | succ j => exact ih h.2 (by simpa using hj)

end Row

namespace Patch

variable {config : Config} {s : Schema} {p q : Patch} {names : List String}
  {target : Option Scheme} {buffer : Bytes} {dimensions : List Dimension} {rows : List Row}

/-- The value of a dimension in a row. -/
def valueOf (d : Dimension) (row : Row) : Binary64 := d.value (row.getD d.position 0)

/-- The values of some dimensions in a row. -/
def valuesOf (dimensions : List Dimension) (row : Row) : List Binary64 :=
  dimensions.map fun d => valueOf d row

/-- Rows in the order of their tuples of values, where rows of the same numbers keep the order they
had. -/
structure SortedByValues (dimensions : List Dimension) (before after : List Row) : Prop where
  ascending : after.Pairwise fun a b =>
    Binary64.lexLe (valuesOf dimensions a) (valuesOf dimensions b) = true
  stable    : ∀ numbers,
    after.filter (fun row => (valuesOf dimensions row).map Binary64.number? = numbers) =
      before.filter fun row => (valuesOf dimensions row).map Binary64.number? = numbers

/-! ## Keys and tuples -/

theorem lt_of_mem_rows {row : Row} {d : Dimension} (hrow : row ∈ s.rows buffer)
    (hd : d ∈ s.dimensions) : row.getD d.position 0 < 2 ^ d.interpretation.bits := by
  obtain ⟨hlt, hget⟩ := List.getElem?_eq_some_iff.mp (Schema.getElem_position hd)
  have hposition : d.position < s.sizes.length := by rwa [s.length_sizes]
  have hsize : s.sizes[d.position] = d.size := by simp [Schema.sizes, hget]
  have hfits := Row.getD_lt_of_fits (s.fits_of_mem_rows hrow) hposition
  rw [hsize] at hfits
  rwa [d.two_pow_bits]

/-- A key orders the values of a dimension, in the rows of a buffer without NaNs. -/
theorem le_valueOf {a b : Row} {d : Dimension} (ha : a ∈ s.rows buffer) (hb : b ∈ s.rows buffer)
    (hd : d ∈ s.dimensions)
    (hnan : ∀ row ∈ s.rows buffer, (valueOf d row).isNaN = false)
    (h : d.sortKey (a.getD d.position 0) ≤ d.sortKey (b.getD d.position 0)) :
    (valueOf d a).le (valueOf d b) = true :=
  Dimension.le_value_of_sortKey_le (Dimension.isScaled_of_mem hd) (lt_of_mem_rows ha hd)
    (lt_of_mem_rows hb hd) (hnan a ha) (hnan b hb) h

/-- Rows that agree in the keys of the dimensions listed before are in the order of the values of
the next. -/
theorem le_valueOf_of_sortKey_le {a b : Row} {before after : List Dimension} {d : Dimension}
    (ha : a ∈ s.rows buffer) (hb : b ∈ s.rows buffer) (hd : d ∈ s.dimensions)
    (hnan : ∀ row ∈ s.rows buffer, (valueOf d row).isNaN = false)
    (hkeys : sortKey before a = sortKey before b)
    (h : Key.le (sortKey (before ++ d :: after) a) (sortKey (before ++ d :: after) b) = true) :
    (valueOf d a).le (valueOf d b) = true := by
  induction before with
  | nil =>
    refine le_valueOf ha hb hd hnan ?_
    simp only [List.nil_append, sortKey, List.map_cons, Key.le, Bool.or_eq_true,
      Bool.and_eq_true, decide_eq_true_eq, beq_iff_eq] at h
    rcases h with hlt | ⟨heq, -⟩
    · exact le_of_lt hlt
    · exact le_of_eq heq
  | cons e before ih =>
    simp only [sortKey, List.map_cons, List.cons.injEq] at hkeys
    simp only [List.cons_append, sortKey, List.map_cons, Key.le, hkeys.1, lt_self_iff_false,
      decide_false, Bool.false_or, beq_self_eq_true, Bool.true_and] at h
    exact ih hkeys.2 h

/-- Without confused integers, values compare as equal only where keys agree. -/
theorem sortKey_eq_of_valueOf {a b : Row} {d : Dimension} (ha : a ∈ s.rows buffer)
    (hb : b ∈ s.rows buffer) (hd : d ∈ s.dimensions)
    (hdistinct : d.interpretation.isInteger = true →
      a.getD d.position 0 = b.getD d.position 0)
    (h : (valueOf d a).equals (valueOf d b) = true) :
    d.sortKey (a.getD d.position 0) = d.sortKey (b.getD d.position 0) := by
  by_cases hfloat : d.interpretation.isFloat = true
  · exact Dimension.sortKey_eq_of_equals hfloat (lt_of_mem_rows ha hd) (lt_of_mem_rows hb hd) h
  · have hinteger : d.interpretation.isInteger = true := by
      simpa [Interpretation.isInteger] using hfloat
    rw [hdistinct hinteger]

section Distinct

variable (hmem : ∀ d ∈ dimensions, d ∈ s.dimensions)
  (hnan : ∀ d ∈ dimensions, ∀ row ∈ s.rows buffer, (valueOf d row).isNaN = false)
  (hdistinct : ∀ d ∈ dimensions, d.interpretation.isInteger = true →
    ∀ a ∈ s.rows buffer, ∀ b ∈ s.rows buffer, (valueOf d a).equals (valueOf d b) = true →
      a.getD d.position 0 = b.getD d.position 0)

include hmem hnan

/-- Rows of one key have the same numbers. -/
theorem number?_eq_of_sortKey_eq {a b : Row} (ha : a ∈ s.rows buffer) (hb : b ∈ s.rows buffer)
    (h : sortKey dimensions a = sortKey dimensions b) :
    (valuesOf dimensions a).map Binary64.number? =
      (valuesOf dimensions b).map Binary64.number? := by
  unfold valuesOf
  rw [List.map_map, List.map_map]
  refine List.map_congr_left fun d hd => ?_
  have hkey : d.sortKey (a.getD d.position 0) = d.sortKey (b.getD d.position 0) :=
    List.map_inj_left.mp h d hd
  have hle := le_valueOf ha hb (hmem d hd) (hnan d hd) (le_of_eq hkey)
  have hge := le_valueOf hb ha (hmem d hd) (hnan d hd) (le_of_eq hkey.symm)
  exact Binary64.number?_eq_iff.mpr (.inl (Binary64.equals_of_le_of_le hle hge))

include hdistinct

/-- And rows of the same numbers have one key. -/
theorem sortKey_eq_of_number?_eq {a b : Row} (ha : a ∈ s.rows buffer) (hb : b ∈ s.rows buffer)
    (h : (valuesOf dimensions a).map Binary64.number? =
      (valuesOf dimensions b).map Binary64.number?) :
    sortKey dimensions a = sortKey dimensions b := by
  unfold valuesOf at h
  rw [List.map_map, List.map_map] at h
  refine List.map_congr_left fun d hd => ?_
  have hnumber : (valueOf d a).number? = (valueOf d b).number? := List.map_inj_left.mp h d hd
  have hequals : (valueOf d a).equals (valueOf d b) = true := by
    rcases Binary64.number?_eq_iff.mp hnumber with heq | ⟨hnan', -⟩
    · exact heq
    · rw [hnan d hd a ha] at hnan'
      cases hnan'
  exact sortKey_eq_of_valueOf ha hb (hmem d hd)
    (fun hinteger => hdistinct d hd hinteger a ha b hb hequals) hequals

/-- Tuples of values are in the order of keys. -/
theorem lexLe_of_sortKey_le {a b : Row} (ha : a ∈ s.rows buffer) (hb : b ∈ s.rows buffer)
    (h : Key.le (sortKey dimensions a) (sortKey dimensions b) = true) :
    Binary64.lexLe (valuesOf dimensions a) (valuesOf dimensions b) = true := by
  induction dimensions with
  | nil => rfl
  | cons d dimensions ih =>
    have hd := hmem d List.mem_cons_self
    have hnan' := hnan d List.mem_cons_self
    simp only [sortKey, List.map_cons, Key.le, Bool.or_eq_true, Bool.and_eq_true,
      decide_eq_true_eq, beq_iff_eq] at h
    simp only [valuesOf, List.map_cons, Binary64.lexLe, Bool.or_eq_true, Bool.and_eq_true]
    rcases h with hlt | ⟨heq, hrest⟩
    · -- a lesser key: a lesser value, for an equal one would have the same key
      rcases Binary64.lt_or_equals_of_le (le_valueOf ha hb hd hnan' (le_of_lt hlt)) with h | h
      · exact .inl h
      · have heq := sortKey_eq_of_valueOf ha hb hd (fun hinteger =>
          hdistinct d List.mem_cons_self hinteger a ha b hb h) h
        omega
    · -- one key: equal values, and the rests decide
      refine .inr ⟨Binary64.equals_of_le_of_le (le_valueOf ha hb hd hnan' (le_of_eq heq))
        (le_valueOf hb ha hd hnan' (le_of_eq heq.symm)), ?_⟩
      exact ih (fun e he => hmem e (List.mem_cons_of_mem _ he))
        (fun e he => hnan e (List.mem_cons_of_mem _ he))
        (fun e he => hdistinct e (List.mem_cons_of_mem _ he)) hrest

/-- Where no integers are confused, the sort by keys is the sort by values. -/
theorem sortedByValues_sortBy :
    SortedByValues dimensions (s.rows buffer)
      (Key.sortBy (sortKey dimensions) (s.rows buffer)) := by
  have hperm := Key.perm_sortBy (sortKey dimensions) (s.rows buffer)
  refine ⟨?_, ?_⟩
  · refine (Key.pairwise_sortBy (sortKey dimensions) (s.rows buffer)).imp_of_mem ?_
    intro a b ha hb hle
    exact lexLe_of_sortKey_le hmem hnan hdistinct (hperm.mem_iff.mp ha) (hperm.mem_iff.mp hb) hle
  · intro numbers
    by_cases hsome : ∃ row ∈ s.rows buffer,
        (valuesOf dimensions row).map Binary64.number? = numbers
    · -- The rows of these numbers are those of one key, which keep their order.
      obtain ⟨row, hrow, rfl⟩ := hsome
      have hsame : ∀ other ∈ s.rows buffer,
          ((valuesOf dimensions other).map Binary64.number? =
            (valuesOf dimensions row).map Binary64.number? ↔
          sortKey dimensions other = sortKey dimensions row) := fun other hother =>
        ⟨sortKey_eq_of_number?_eq hmem hnan hdistinct hother hrow,
          number?_eq_of_sortKey_eq hmem hnan hother hrow⟩
      have hstable := Key.filter_sortBy (sortKey dimensions) (s.rows buffer)
        (sortKey dimensions row)
      rw [List.filter_congr fun other hother => decide_eq_decide.mpr
          (hsame other (hperm.mem_iff.mp hother)), hstable]
      exact (List.filter_congr fun other hother => decide_eq_decide.mpr
        (hsame other hother)).symm
    · -- No row has these numbers.
      have hnone : ∀ row ∈ s.rows buffer,
          ¬ (valuesOf dimensions row).map Binary64.number? = numbers :=
        fun row hrow hnumbers => hsome ⟨row, hrow, hnumbers⟩
      rw [List.filter_eq_nil_iff.mpr fun row hrow => by
          simpa using hnone row (hperm.mem_iff.mp hrow),
        List.filter_eq_nil_iff.mpr fun row hrow => by simpa using hnone row hrow]

end Distinct

/-! ## Sorted patches -/

/-- What the order of decoded values is after sorting. Among points that agree in the keys of the
dimensions listed before, the values of a dimension do not fall. If no two integers that the patch
holds in a listed dimension decode to one value, the tuples of values are in order, and points of
the same numbers keep the order they had. -/
theorem sort_values [Compressors] [LawfulCompressors] (hbuffer : p.decode s = .ok buffer)
    (hnames : names.mapM s.named = .ok dimensions)
    (hnan : ∀ d ∈ dimensions, ∀ row ∈ s.rows buffer, (valueOf d row).isNaN = false)
    (h : p.sort config s names target = .ok q) :
    ∃ rows, q.decode s = .ok (s.bytes rows) ∧ rows.Perm (s.rows buffer) ∧
      (∀ before d after, dimensions = before ++ d :: after → rows.Pairwise fun a b =>
        sortKey before a = sortKey before b → (valueOf d a).le (valueOf d b) = true) ∧
      ((∀ d ∈ dimensions, d.interpretation.isInteger = true →
          ∀ a ∈ s.rows buffer, ∀ b ∈ s.rows buffer, (valueOf d a).equals (valueOf d b) = true →
            a.getD d.position 0 = b.getD d.position 0) →
        SortedByValues dimensions (s.rows buffer) rows) := by
  have hmem := mem_of_mapM_named hnames
  have hperm := Key.perm_sortBy (sortKey dimensions) (s.rows buffer)
  refine ⟨_, (holdsInOrder_of_sort hbuffer hnames h).decode_eq, hperm, ?_, ?_⟩
  · rintro before d after rfl
    have hd : d ∈ before ++ d :: after := List.mem_append_right _ List.mem_cons_self
    refine (Key.pairwise_sortBy _ _).imp_of_mem ?_
    intro a b ha hb hle hkeys
    exact le_valueOf_of_sortKey_le (hperm.mem_iff.mp ha) (hperm.mem_iff.mp hb) (hmem d hd)
      (hnan d hd) hkeys hle
  · exact fun hdistinct => sortedByValues_sortBy hmem hnan hdistinct

end Patch

/-- Points with an identifier of eight bytes and a class. -/
def Schema.labelled : Schema where
  pcid := 1
  srid := 4326
  order := .big
  dimensions := [
    { name := "Id", position := 0, interpretation := .int64 },
    { name := "Class", position := 1, interpretation := .uint8 }]
  valid := by decide

namespace Patch

/-- Two labelled points, stored as they are. -/
def labelled (buffer : Bytes) : Patch :=
  let s := Schema.labelled
  let bounds := s.bounds (s.rows buffer) 2
  ⟨1, .uncompressed, 2, bounds, s.statisticsIn? bounds (s.rows buffer) 2, buffer⟩

theorem reachable_labelled {buffer : Bytes} (h : buffer.length = 18) :
    Reachable Schema.labelled (labelled buffer) := by
  have hbuilt : ofBuffer {} Schema.labelled buffer 2 .uncompressed = .ok (labelled buffer) := by
    unfold ofBuffer Scheme.compress
    have hlength : bufferLength 2 Schema.labelled.size = .ok 18 := rfl
    rw [hlength, h]
    rfl
  exact .ofBuffer hbuilt

theorem decode_labelled {buffer : Bytes} (h : buffer.length = 18) :
    (labelled buffer).decode Schema.labelled = .ok buffer := by
  show Scheme.uncompressed.decompress Schema.labelled 2 buffer = .ok buffer
  exact Scheme.decompress_eq_ok_iff.mpr (Uncompressed.decompress_self h rfl)

/-- Labelled points that are in order already stay as they are. -/
theorem exists_sort_labelled {buffer : Bytes} {names : List String} {dimensions : List Dimension}
    (h : buffer.length = 18) (hnames : names.mapM Schema.labelled.named = .ok dimensions)
    (hsorted : Key.ascending Key.le
      ((Schema.labelled.rows buffer).map (sortKey dimensions)) = true) :
    ∃ q, (labelled buffer).sort {} Schema.labelled names none = .ok q ∧
      q.decode Schema.labelled = .ok buffer := by
  have hdecode := decode_labelled h
  have hlength : buffer.length = 2 * Schema.labelled.size := h
  have hkept := Key.sortBy_eq_self_iff.mpr hsorted
  obtain ⟨q, hq⟩ := exists_ofBuffer (s := Schema.labelled) {} (by decide : Scheme.uncompressed ≠ _)
    hlength (by decide) rfl
  have hsort : (labelled buffer).sort {} Schema.labelled names none = .ok q := by
    unfold Patch.sort
    rw [hnames, Result.ok_bind, rows_of_decode hdecode, Result.ok_bind, hkept, ofRows,
      Schema.bytes_rows _ hlength, Schema.length_rows _ hlength]
    exact hq
  refine ⟨q, hsort, ?_⟩
  rw [(holdsInOrder_of_sort hdecode hnames hsort).decode_eq, hkept, Schema.bytes_rows _ hlength]

/-- Two points with identifiers of their own, sorted by class and then by identifier. -/
theorem sort_values_labelled :
    let s := Schema.labelled
    let buffer : Bytes := [0, 0, 0, 0, 0, 0, 0, 9, 3, 0, 0, 0, 0, 0, 0, 0, 4, 5]
    let dimensions := [s.dimensions[1], s.dimensions[0]]
    (labelled buffer).decode s = .ok buffer ∧
    ["Class", "Id"].mapM s.named = .ok dimensions ∧
    (∀ d ∈ dimensions, ∀ row ∈ s.rows buffer, (valueOf d row).isNaN = false) ∧
    (∀ d ∈ dimensions, d.interpretation.isInteger = true →
      ∀ a ∈ s.rows buffer, ∀ b ∈ s.rows buffer, (valueOf d a).equals (valueOf d b) = true →
        a.getD d.position 0 = b.getD d.position 0) ∧
    ∃ q, (labelled buffer).sort {} s ["Class", "Id"] none = .ok q ∧
      ∃ rows, q.decode s = .ok (s.bytes rows) ∧
        SortedByValues dimensions (s.rows buffer) rows := by
  intro s buffer dimensions
  have hdecode : (labelled buffer).decode s = .ok buffer := decode_labelled rfl
  have hnames : ["Class", "Id"].mapM s.named = .ok dimensions := rfl
  have hnan : ∀ d ∈ dimensions, ∀ row ∈ s.rows buffer, (valueOf d row).isNaN = false := by
    decide +kernel
  have hdistinct : ∀ d ∈ dimensions, d.interpretation.isInteger = true →
      ∀ a ∈ s.rows buffer, ∀ b ∈ s.rows buffer, (valueOf d a).equals (valueOf d b) = true →
        a.getD d.position 0 = b.getD d.position 0 := by decide +kernel
  have hlength : buffer.length = 18 := rfl
  obtain ⟨q, hsort, -⟩ := exists_sort_labelled hlength hnames (by decide +kernel)
  obtain ⟨rows, hrows, -, -, hvalues⟩ := sort_values hdecode hnames hnan hsort
  exact ⟨hdecode, hnames, hnan, hdistinct, q, hsort, rows, hrows, hvalues hdistinct⟩

/-- Two identifiers that decode to one value, 2 ^ 53 and the integer after it. Sorted by identifier
and then by class, the points stay where they are, for the keys of the identifiers differ; but the
values of the identifiers compare as equal, and those of the classes fall. -/
theorem not_sortedByValues :
    let s := Schema.labelled
    let buffer : Bytes := [0, 32, 0, 0, 0, 0, 0, 0, 5, 0, 32, 0, 0, 0, 0, 0, 1, 3]
    let dimensions := [s.dimensions[0], s.dimensions[1]]
    Reachable s (labelled buffer) ∧ (labelled buffer).decode s = .ok buffer ∧
    ["Id", "Class"].mapM s.named = .ok dimensions ∧
    (∀ d ∈ dimensions, ∀ row ∈ s.rows buffer, (valueOf d row).isNaN = false) ∧
    ∃ q, (labelled buffer).sort {} s ["Id", "Class"] none = .ok q ∧ q.decode s = .ok buffer ∧
      ¬ SortedByValues dimensions (s.rows buffer) (s.rows buffer) := by
  intro s buffer dimensions
  have hnames : ["Id", "Class"].mapM s.named = .ok dimensions := rfl
  have hnan : ∀ d ∈ dimensions, ∀ row ∈ s.rows buffer, (valueOf d row).isNaN = false := by
    decide +kernel
  have hfalls : ¬ (s.rows buffer).Pairwise fun a b =>
      Binary64.lexLe (valuesOf dimensions a) (valuesOf dimensions b) = true := by decide +kernel
  obtain ⟨q, hsort, hdecode⟩ := exists_sort_labelled (show buffer.length = 18 from rfl) hnames
    (by decide +kernel)
  exact ⟨reachable_labelled rfl, decode_labelled rfl, hnames, hnan, q, hsort, hdecode,
    fun hsorted => hfalls hsorted.ascending⟩

end Patch

end PointCloud
