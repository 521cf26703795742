import PointCloud.Capacity
import PointCloud.Dimension
import PointCloud.Row

/-!
# Schemas

A schema describes the points of a cloud: its dimensions by position, and the order of the bytes of
a word. It is valid if there is a dimension, positions count from zero without gap, every scale is
finite and not zero, every offset is finite, and no name occurs twice. Words lie in the order of
positions, one after the other.

The axes of space are the first dimensions named X, Y and Z, in either case.

Main results:

* `Schema.fault?_eq_none_iff` — exactly the valid dimension lists have no fault;
* `Schema.make_isOk_iff` — a schema is made from exactly the valid dimension lists, in any order;
* `Schema.bytes_rows` — the rows of a whole number of points write the bytes back.
-/

namespace PointCloud

/-! ## Validity -/

/-- The dimension lists that make a schema. -/
def ValidDimensions (dimensions : List Dimension) : Prop :=
  dimensions ≠ [] ∧
  dimensions.map (·.position) = List.range dimensions.length ∧
  (∀ d ∈ dimensions, d.scale.isFinite ∧ ¬ d.scale.isZero) ∧
  (∀ d ∈ dimensions, d.offset.isFinite) ∧
  (dimensions.map (·.name)).Nodup

instance (dimensions : List Dimension) : Decidable (ValidDimensions dimensions) :=
  inferInstanceAs (Decidable (_ ∧ _ ∧ _ ∧ _ ∧ _))

/-- A description of the points of a cloud. -/
structure Schema where
  pcid : UInt32
  /-- The spatial reference. -/
  srid : Int
  order : ByteOrder
  /-- The dimensions by position. -/
  dimensions : List Dimension
  valid : ValidDimensions dimensions
  deriving DecidableEq

namespace Schema

/-! ## Making -/

/-- What is wrong with a dimension that should be at `position`. -/
def dimensionFault? (d : Dimension) (position : Nat) : Option SchemaFault :=
  if d.position ≠ position then some (.position d.name d.position position)
  else if d.scale.isZero || !d.scale.isFinite then some (.scale d.name d.scale)
  else if !d.offset.isFinite then some (.offset d.name d.offset)
  else none

/-- The first name that occurs among the `earlier` ones. -/
def repeatedName? (earlier : List String) : List String → Option String
  | [] => none
  | name :: names => if name ∈ earlier then some name else repeatedName? (name :: earlier) names

/-- The first fault of the dimensions from `position` on, each looked at by itself. -/
def dimensionsFault? (position : Nat) : List Dimension → Option SchemaFault
  | [] => none
  | d :: dimensions => (dimensionFault? d position).or (dimensionsFault? (position + 1) dimensions)

/-- The first fault of a list of dimensions. Faults of single dimensions come before repeated
names. -/
def fault? (pcid : UInt32) (dimensions : List Dimension) : Option SchemaFault :=
  if dimensions.isEmpty then some (.noDimensions pcid)
  else
    (dimensionsFault? 0 dimensions).or
      ((repeatedName? [] (dimensions.map (·.name))).map .duplicateName)

theorem dimensionFault?_eq_none_iff {d : Dimension} {position : Nat} :
    dimensionFault? d position = none ↔
      d.position = position ∧ (d.scale.isFinite ∧ ¬ d.scale.isZero) ∧ d.offset.isFinite := by
  unfold dimensionFault?
  split
  · simp_all
  · cases d.scale.isZero <;> cases d.scale.isFinite <;> cases d.offset.isFinite <;> simp_all

/-- Dimensions have no fault each if their positions count on and their numbers will do. -/
theorem dimensionsFault?_eq_none_iff {position : Nat} {dimensions : List Dimension} :
    dimensionsFault? position dimensions = none ↔
      dimensions.map (·.position) = List.range' position dimensions.length ∧
      (∀ d ∈ dimensions, d.scale.isFinite ∧ ¬ d.scale.isZero) ∧
      ∀ d ∈ dimensions, d.offset.isFinite := by
  induction dimensions generalizing position with
  | nil => simp [dimensionsFault?]
  | cons d dimensions ih =>
    -- The positions of the others count on from the next one, as the scan does.
    rw [dimensionsFault?, Option.or_eq_none_iff, dimensionFault?_eq_none_iff, ih]
    simp only [List.map_cons, List.length_cons, List.range'_succ, List.cons.injEq,
      List.forall_mem_cons]
    constructor
    · rintro ⟨⟨hposition, hscale, hoffset⟩, hpositions, hscales, hoffsets⟩
      exact ⟨⟨hposition, hpositions⟩, ⟨hscale, hscales⟩, hoffset, hoffsets⟩
    · rintro ⟨⟨hposition, hpositions⟩, ⟨hscale, hscales⟩, hoffset, hoffsets⟩
      exact ⟨⟨hposition, hscale, hoffset⟩, hpositions, hscales, hoffsets⟩

/-- The search finds no name if none occurs twice, or among those before. -/
theorem repeatedName?_eq_none_iff {earlier names : List String} :
    repeatedName? earlier names = none ↔ names.Nodup ∧ ∀ name ∈ names, name ∉ earlier := by
  induction names generalizing earlier with
  | nil => simp [repeatedName?]
  | cons name names ih =>
    rw [repeatedName?]
    split
    -- found among those before
    · rename_i hrepeated
      simp [hrepeated]
    -- new, and one of those before for the names after it
    · rename_i hnew
      rw [ih, List.nodup_cons]
      constructor
      · rintro ⟨hnodup, hothers⟩
        have hname : name ∉ names := fun hmem => hothers name hmem List.mem_cons_self
        refine ⟨⟨hname, hnodup⟩, List.forall_mem_cons.mpr ⟨hnew, fun other hmem => ?_⟩⟩
        exact fun hearlier => hothers other hmem (List.mem_cons_of_mem _ hearlier)
      · rintro ⟨⟨hname, hnodup⟩, hothers⟩
        refine ⟨hnodup, fun other hmem hearlier => ?_⟩
        rcases List.mem_cons.mp hearlier with rfl | hearlier
        · exact hname hmem
        · exact hothers other (List.mem_cons_of_mem _ hmem) hearlier

/-- Exactly the valid dimension lists have no fault. -/
theorem fault?_eq_none_iff {pcid : UInt32} {dimensions : List Dimension} :
    fault? pcid dimensions = none ↔ ValidDimensions dimensions := by
  unfold fault? ValidDimensions
  split
  · simp_all
  · rename_i hempty
    have hne : dimensions ≠ [] := by simpa using hempty
    rw [Option.or_eq_none_iff, dimensionsFault?_eq_none_iff, Option.map_eq_none_iff,
      repeatedName?_eq_none_iff, ← List.range_eq_range']
    constructor
    · rintro ⟨⟨hpositions, hscales, hoffsets⟩, hnames, -⟩
      exact ⟨hne, hpositions, hscales, hoffsets, hnames⟩
    · rintro ⟨-, hpositions, hscales, hoffsets, hnames⟩
      exact ⟨⟨hpositions, hscales, hoffsets⟩, hnames, by simp⟩

/-- The schema of dimensions given in any order. -/
def make (pcid : UInt32) (srid : Int) (order : ByteOrder) (dimensions : List Dimension) :
    Except Error Schema :=
  -- Of dimensions with one position the sort keeps the order, so the fault names the second.
  let dimensions := dimensions.mergeSort fun a b => a.position ≤ b.position
  match h : fault? pcid dimensions with
  | none => .ok { pcid, srid, order, dimensions, valid := fault?_eq_none_iff.mp h }
  | some fault => .error (.invalidSchema fault)

theorem make_isOk_iff {pcid : UInt32} {srid : Int} {order : ByteOrder}
    {dimensions : List Dimension} :
    (∃ s, make pcid srid order dimensions = .ok s) ↔
      ValidDimensions (dimensions.mergeSort fun a b => a.position ≤ b.position) := by
  rw [← @fault?_eq_none_iff pcid]
  dsimp only [make]
  split <;> simp_all

/-! ## Layout -/

/-- The count of dimensions. -/
def width (s : Schema) : Nat := s.dimensions.length

/-- The sizes of the words of a point. -/
def sizes (s : Schema) : List Nat := s.dimensions.map (·.size)

/-- The bytes of a point. -/
def size (s : Schema) : Nat := s.sizes.sum

/-- Where the word of the dimension at `position` begins. -/
def byteOffset (s : Schema) (position : Nat) : Nat := (s.sizes.take position).sum

/-- The bytes of a point with the word of a dimension written over. -/
def putWord (s : Schema) (raw : Bytes) (d : Dimension) (word : Nat) : Bytes :=
  s.order.put d.size word (s.byteOffset d.position) raw

/-- The words of a point. -/
def row (s : Schema) (bytes : Bytes) : Row := Row.ofBytes s.order s.sizes bytes

/-- The bytes of a point. -/
def rowBytes (s : Schema) (row : Row) : Bytes := Row.toBytes s.order s.sizes row

/-- The rows of a buffer of points. Bytes after the last whole point are passed over. -/
def rows (s : Schema) (buffer : Bytes) : List Row :=
  (cut s.size (buffer.length / s.size) buffer).map s.row

/-- The buffer of a list of rows. -/
def bytes (s : Schema) (rows : List Row) : Bytes := rows.flatMap s.rowBytes

/-- The columns of a list of rows, one for every dimension. -/
def columns (s : Schema) (rows : List Row) : List (List Nat) := Row.columns s.width rows

/-- The values of a row. -/
def values (s : Schema) (row : Row) : List Binary64 :=
  List.zipWith Dimension.value s.dimensions row

/-! ## Look-up -/

/-- The dimension at a position. -/
def dimension? (s : Schema) (position : Nat) : Option Dimension := s.dimensions[position]?

/-- The dimension of a name. -/
def named? (s : Schema) (name : String) : Option Dimension :=
  s.dimensions.find? fun d => d.name == name

/-- The dimension of a name, which has to exist. -/
def named (s : Schema) (name : String) : Except Error Dimension :=
  match s.named? name with
  | some d => .ok d
  | none => .error (.unknownDimension name)

/-- The position of an axis, given by its small letter. -/
def axis? (s : Schema) (letter : Char) : Option Nat :=
  (s.dimensions.find? fun d => d.name.toList.map Char.toLower == [letter]).map (·.position)

/-- Refuses data of another schema. -/
def checkPcid (s : Schema) (pcid : UInt32) : Except Error Unit :=
  if pcid = s.pcid then .ok () else .error (.schemaMismatch s.pcid pcid)

/-- Whether two dimensions give the same words the same values. -/
def sameEncoding (a b : Dimension) : Bool :=
  a.position == b.position && a.interpretation == b.interpretation &&
    a.scale.equals b.scale && a.offset.equals b.offset

/-- Whether points of one schema can be read under another as they are. -/
def isCompatible (s t : Schema) : Bool :=
  s.order == t.order && s.width == t.width &&
    (s.dimensions.zip t.dimensions).all fun (a, b) => sameEncoding a b

/-! ## Laws -/

theorem size_pos (s : Schema) : 0 < s.size := by
  obtain ⟨hne, -⟩ := s.valid
  unfold size sizes
  cases h : s.dimensions with
  | nil => exact absurd h hne
  | cons d ds =>
    have : 0 < d.size := by unfold Dimension.size; cases d.interpretation <;> decide
    simp only [List.map_cons, List.sum_cons]
    omega

theorem bytes_rows (s : Schema) {buffer : Bytes} {count : Nat}
    (h : buffer.length = count * s.size) : s.bytes (s.rows buffer) = buffer := by
  have hcount : buffer.length / s.size = count := by
    rw [h, Nat.mul_div_cancel _ s.size_pos]
  rw [bytes, rows, hcount, List.flatMap_map]
  have hpieces : ∀ p ∈ cut s.size count buffer, s.rowBytes (s.row p) = p := fun p hp => by
    have hlength : p.length = s.size := length_of_mem_cut (Nat.le_of_eq h.symm) hp
    exact Row.toBytes_ofBytes hlength
  rw [List.flatMap_def, List.map_congr_left hpieces, List.map_id', flatten_cut _ _ _ h]

end Schema

end PointCloud
