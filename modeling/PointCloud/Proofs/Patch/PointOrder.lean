import Mathlib
import PointCloud.Proofs.Dimension.Keys
import PointCloud.Proofs.Patch.Extent

/-!
# Statistics and the order of points

Addition of floating values is not associative, so an average could depend on the order in which
points are added. It does not, because the order is taken away first. Integers are summed as what
they are, in a number of sixteen bytes that has room for more of them than a patch can hold.
Floating values are sorted by their bit patterns, and of one collection of bit patterns there is one
sorted list: whatever is computed from it is the same. Nothing about the operations is used, so all
is said for any operations on bit patterns, of which rounded arithmetic is one case.

Main results:

* `sumWide?_eq_some` — a sum of integers of eight bytes stays in the range of sixteen;
* `Schema.statisticsUsing?_rounded` — the operations that statistics are computed with;
* `Schema.statisticsUsing?_perm` — the same rows in another order have the same statistics;
* `Schema.pointOrder_invisible` — what does not depend on the order of points.
-/

namespace PointCloud

/-! ## Sums of integers -/

/-- Adds integers of sixteen bytes; none if the sum is out of range. -/
def addWide? (m n : Int) : Option Int :=
  if -2 ^ 127 ≤ m + n ∧ m + n < 2 ^ 127 then some (m + n) else none

/-- The sum of integers, each added to the sum of those before it. -/
def sumWide? (ns : List Int) : Option Int := ns.foldlM addWide? 0

/-- A step stays in range as long as there is room for all that is still to come. -/
theorem foldlM_addWide? {bound : Nat} {ns : List Int} (hbound : ∀ n ∈ ns, n.natAbs ≤ bound)
    (start : Int) (hroom : start.natAbs + ns.length * bound < 2 ^ 127) :
    ns.foldlM addWide? start = some (start + ns.sum) := by
  -- The invariant is the room that is left: an integer uses up its share of it and no more.
  induction ns generalizing start with
  | nil => simp
  | cons n ns ih =>
    rw [List.forall_mem_cons] at hbound
    rw [List.length_cons, Nat.succ_mul] at hroom
    have hstep : addWide? start n = some (start + n) := by
      rw [addWide?, if_pos (by omega)]
    have hrest := ih hbound.2 (start + n) (by omega)
    rw [List.foldlM_cons, hstep, List.sum_cons, ← Int.add_assoc]
    exact hrest

theorem sumWide?_eq_some {ns : List Int} (hbound : ∀ n ∈ ns, n.natAbs ≤ 2 ^ 64)
    (hlength : ns.length < 2 ^ 32) : sumWide? ns = some ns.sum := by
  have hsum := foldlM_addWide? hbound 0 (by omega)
  rwa [Int.zero_add] at hsum

/-! ## Any operations -/

/-- The operations that values and averages are computed with. -/
structure Arithmetic where
  add : Binary64 → Binary64 → Binary64
  sub : Binary64 → Binary64 → Binary64
  mul : Binary64 → Binary64 → Binary64
  div : Binary64 → Binary64 → Binary64

/-- Exact results, rounded once. -/
def Arithmetic.rounded : Arithmetic := ⟨Binary64.add, Binary64.sub, Binary64.mul, Binary64.div⟩

section Definitions

variable (a : Arithmetic)

/-- Adds a value, and what the addition has lost. -/
def CompensatedSum.addUsing (s : CompensatedSum) (value : Binary64) : CompensatedSum :=
  let sum := a.add s.sum value
  let lost :=
    if value.abs.le s.sum.abs then a.add (a.sub s.sum sum) value
    else a.add (a.sub value sum) s.sum
  ⟨sum, a.add s.lost lost⟩

/-- The sum of floating values, added in ascending order. -/
def sumAscendingUsing (values : List Binary64) : Binary64 :=
  let sorted := values.mergeSort fun a b => a.rank ≤ b.rank
  let s := sorted.foldl (CompensatedSum.addUsing a) {}
  a.add s.sum s.lost

namespace Dimension

/-- The value that a word stands for. -/
def valueUsing (d : Dimension) (word : Nat) : Binary64 :=
  if d.interpretation.isFloat then d.interpretation.float word
  else a.add (a.mul (d.interpretation.number word) d.scale) d.offset

/-- The average of the words of a dimension, over `points` points. -/
def averageUsing (d : Dimension) (points : Nat) (words : List Nat) : Binary64 :=
  let t := d.interpretation
  if t.isFloat then a.div (sumAscendingUsing a (words.map t.float)) (.ofNat points)
  else
    let quotient := a.div (Binary64.ofInt (words.map t.integer).sum) (.ofNat points)
    a.add (a.mul quotient d.scale) d.offset

end Dimension

/-- The statistics of the first `points` rows; none for no points. -/
def Schema.statisticsUsing? (s : Schema) (rows : List Row) (points : Nat) : Option Statistics :=
  if points = 0 then none
  else
    let columns := s.columns (rows.take points)
    let values := List.zipWith (fun d words => words.map (d.valueUsing a)) s.dimensions columns
    some {
      lows := values.map least
      highs := values.map greatest
      averages := List.zipWith (fun d words => d.averageUsing a points words) s.dimensions columns }

end Definitions

/-- Statistics are computed with rounded operations. -/
theorem Schema.statisticsUsing?_rounded (s : Schema) (rows : List Row) (points : Nat) :
    s.statisticsUsing? .rounded rows points = s.statistics? rows points := by
  unfold statisticsUsing? statistics? bounds
  split
  · rfl
  · unfold statisticsIn? columnValues
    simp only [mapRepeats_eq_map]
    rfl

/-! ## Another order -/

section Order

variable (a : Arithmetic)

theorem sumAscendingUsing_perm {values others : List Binary64} (h : values.Perm others) :
    sumAscendingUsing a values = sumAscendingUsing a others := by
  unfold sumAscendingUsing
  rw [mergeSort_rank_perm h]

theorem Dimension.averageUsing_perm (d : Dimension) (points : Nat) {words others : List Nat}
    (h : words.Perm others) : d.averageUsing a points words = d.averageUsing a points others := by
  unfold averageUsing
  dsimp only
  split
  · rw [sumAscendingUsing_perm a (h.map _)]
  · rw [(h.map d.interpretation.integer).sum_eq]

end Order

/-- The averages are the same bit for bit, and the ends compare as equal. -/
structure Statistics.Same (a b : Statistics) : Prop where
  lows     : List.Forall₂ (fun x y => x.equals y = true) a.lows b.lows
  highs    : List.Forall₂ (fun x y => x.equals y = true) a.highs b.highs
  averages : a.averages = b.averages

namespace Schema

variable {s : Schema} {rows others : List Row} {buffer other : Bytes} {points : Nat}

/-- What is computed from columns is related, dimension by dimension, if it is for words in another
order. -/
theorem forall₂_columns_perm {α : Type} {f : Dimension → List Nat → α} {R : α → α → Prop}
    (hf : ∀ d (words words' : List Nat), words.Perm words' → R (f d words) (f d words'))
    (h : rows.Perm others) :
    List.Forall₂ R (List.zipWith f s.dimensions (s.columns rows))
      (List.zipWith f s.dimensions (s.columns others)) := by
  refine forall₂_zipWith ?_ (List.forall₂_same.mpr fun _ _ => rfl) (Row.columns_perm s.width h)
  rintro d _ words words' rfl hwords
  exact hf d words words' hwords

/-- The same rows in another order have the same statistics. -/
theorem statisticsUsing?_perm (a : Arithmetic) (h : rows.Perm others) :
    Option.Rel Statistics.Same (s.statisticsUsing? a rows rows.length)
      (s.statisticsUsing? a others others.length) := by
  -- The same values are found in every column, and so the same numbers.
  have hnumbers : List.Forall₂ (fun values values' => (values.filterMap Binary64.number?).Perm
        (values'.filterMap Binary64.number?))
      (List.zipWith (fun d words => words.map (d.valueUsing a)) s.dimensions (s.columns rows))
      (List.zipWith (fun d words => words.map (d.valueUsing a)) s.dimensions (s.columns others)) :=
    forall₂_columns_perm (fun d _ _ hwords => (hwords.map (d.valueUsing a)).filterMap _) h
  -- Averages are equal as such, which is a relation like any other.
  have haverages := forall₂_columns_perm (s := s)
    (fun d _ _ hwords => d.averageUsing_perm a rows.length hwords) h
  unfold statisticsUsing?
  rw [← h.length_eq, List.take_length, List.take_of_length_le (Nat.le_of_eq h.length_eq.symm)]
  split
  · exact .none
  · refine .some ⟨?_, ?_, ?_⟩
    · rw [List.forall₂_map_left_iff, List.forall₂_map_right_iff]
      exact hnumbers.imp fun _ _ => least_equals
    · rw [List.forall₂_map_left_iff, List.forall₂_map_right_iff]
      exact hnumbers.imp fun _ _ => greatest_equals
    · rwa [List.forall₂_eq_eq_eq] at haverages

/-! ## Buffers -/

/-- The points of a buffer, in order. -/
def pointsOf (s : Schema) (buffer : Bytes) (points : Nat) : List Bytes :=
  (List.range points).map (s.pointAt buffer)

/-- The words of a dimension in the first points of a buffer. -/
def wordsOf (s : Schema) (buffer : Bytes) (points : Nat) (d : Dimension) : List Nat :=
  (List.range points).map fun index => s.wordAt buffer index d

theorem rows_eq_map_points (hbuffer : buffer.length = points * s.size) :
    s.rows buffer = (s.pointsOf buffer points).map s.row := by
  rw [rows_eq_map_words hbuffer, pointsOf, List.map_map]
  exact List.map_congr_left fun index _ => (row_pointAt buffer index).symm

/-- The columns of a buffer are its words, dimension by dimension. -/
theorem columns_rows (hbuffer : buffer.length = points * s.size) :
    s.columns (s.rows buffer) = s.dimensions.map (s.wordsOf buffer points) := by
  rw [columns, rows_eq_map_words hbuffer, width, Row.columns_map]
  rfl

/-- The average of a dimension is that of its words. -/
theorem averages_getElem? (a : Arithmetic) (hbuffer : buffer.length = points * s.size)
    {d : Dimension} (hd : d ∈ s.dimensions) {result : Statistics}
    (h : s.statisticsUsing? a (s.rows buffer) points = some result) :
    result.averages[d.position]? = some (d.averageUsing a points (s.wordsOf buffer points d)) := by
  have htake : (s.rows buffer).take points = s.rows buffer :=
    List.take_of_length_le (Nat.le_of_eq (s.length_rows hbuffer))
  unfold statisticsUsing? at h
  rw [htake, columns_rows hbuffer] at h
  split at h
  · cases h
  · obtain rfl := Option.some.inj h
    dsimp only
    rw [List.zipWith_map_right, List.zipWith_self, List.getElem?_map, getElem_position hd]
    rfl

/-- The sum of an integer dimension has room in sixteen bytes. -/
theorem sumWide?_wordsOf (buffer : Bytes) (hpoints : points < 2 ^ 32) {d : Dimension}
    (hfloat : d.interpretation.isFloat = false) :
    let integers := (s.wordsOf buffer points d).map d.interpretation.integer
    sumWide? integers = some integers.sum := by
  intro integers
  refine sumWide?_eq_some ?_ ?_
  · intro n hn
    obtain ⟨word, hword, rfl⟩ := List.mem_map.mp hn
    obtain ⟨index, -, rfl⟩ := List.mem_map.mp hword
    exact Interpretation.natAbs_integer_le hfloat (wordAt_lt buffer index d)
  · simpa [integers, wordsOf] using hpoints

/-- Statistics do not depend on the order of points. With any operations in place of rounded ones
the averages are the same bit for bit, and the ends compare as equal. The integers of a dimension
are summed as they are, and no sum on the way leaves the range of sixteen bytes. -/
theorem pointOrder_invisible (s : Schema) {buffer other : Bytes} {points : Nat}
    (hpoints : points < 2 ^ 32) (hbuffer : buffer.length = points * s.size)
    (hother : other.length = points * s.size)
    (hperm : (s.pointsOf other points).Perm (s.pointsOf buffer points)) :
    Option.Rel Statistics.Same (s.statistics? (s.rows buffer) points)
      (s.statistics? (s.rows other) points) ∧
    (s.statistics? (s.rows buffer) points = none ↔ points = 0) ∧
    (∀ rows, s.statisticsUsing? .rounded rows points = s.statistics? rows points) ∧
    (∀ a, Option.Rel Statistics.Same (s.statisticsUsing? a (s.rows buffer) points)
      (s.statisticsUsing? a (s.rows other) points)) ∧
    ∀ d ∈ s.dimensions, d.interpretation.isInteger = true →
      let integers := (s.wordsOf buffer points d).map d.interpretation.integer
      sumWide? integers = some integers.sum ∧
      ∀ result, s.statistics? (s.rows buffer) points = some result →
        result.averages[d.position]? =
          some (Binary64.ofInt integers.sum / .ofNat points * d.scale + d.offset) := by
  -- A row is read off a point, so rows are put into another order when points are.
  have hrows : (s.rows buffer).Perm (s.rows other) := by
    rw [rows_eq_map_points hbuffer, rows_eq_map_points hother]
    exact (hperm.map s.row).symm
  have hsame : ∀ a, Option.Rel Statistics.Same (s.statisticsUsing? a (s.rows buffer) points)
      (s.statisticsUsing? a (s.rows other) points) := by
    intro a
    have h := statisticsUsing?_perm (s := s) a hrows
    rwa [s.length_rows hbuffer, s.length_rows hother] at h
  refine ⟨?_, ?_, fun rows => s.statisticsUsing?_rounded rows points, hsame, ?_⟩
  · have h := hsame .rounded
    rwa [statisticsUsing?_rounded, statisticsUsing?_rounded] at h
  · rw [← statisticsUsing?_rounded, statisticsUsing?]
    split <;> simp_all
  · intro d hd hinteger integers
    have hfloat : d.interpretation.isFloat = false := by
      simpa [Interpretation.isInteger] using hinteger
    refine ⟨sumWide?_wordsOf buffer hpoints hfloat, ?_⟩
    intro result hresult
    rw [← statisticsUsing?_rounded] at hresult
    rw [averages_getElem? .rounded hbuffer hd hresult, Dimension.averageUsing, hfloat]
    rfl

/-- Two points in both orders, one of them without a height. The places are summed as `7 + -1`. -/
theorem pointOrder_invisible_measured :
    let s := measured
    let place : Dimension := { name := "X", position := 0, interpretation := .int16 }
    let buffer : Bytes := [0, 7, 127, 192, 0, 0, 255, 255, 63, 128, 0, 0]
    let other : Bytes := [255, 255, 63, 128, 0, 0, 0, 7, 127, 192, 0, 0]
    buffer.length = 2 * s.size ∧ other.length = 2 * s.size ∧
    (s.pointsOf other 2).Perm (s.pointsOf buffer 2) ∧
    (∀ a, Option.Rel Statistics.Same (s.statisticsUsing? a (s.rows buffer) 2)
      (s.statisticsUsing? a (s.rows other) 2)) ∧
    sumWide? [7, -1] = some 6 ∧
    ∃ result, s.statistics? (s.rows buffer) 2 = some result ∧
      result.averages[0]? = some (Binary64.ofInt 6 / .ofNat 2 * place.scale + place.offset) := by
  intro s place buffer other
  have hperm : (s.pointsOf other 2).Perm (s.pointsOf buffer 2) := by decide
  obtain ⟨-, hnone, -, hsame, hinteger⟩ := pointOrder_invisible s (by decide : 2 < 2 ^ 32)
    (rfl : buffer.length = 2 * s.size) (rfl : other.length = 2 * s.size) hperm
  have hintegers : (s.wordsOf buffer 2 place).map place.interpretation.integer = [7, -1] := by
    decide
  have hplace := hinteger place (by decide) rfl
  rw [hintegers] at hplace
  obtain ⟨hsum, haverage⟩ := hplace
  obtain ⟨result, hresult⟩ := Option.ne_none_iff_exists'.mp (mt hnone.mp (by decide))
  exact ⟨rfl, rfl, hperm, hsame, hsum, result, hresult, haverage result hresult⟩

end Schema

end PointCloud
