import PointCloud.Document.Decode
import PointCloud.Document.Write

/-!
# Bounds

The bounds of a set of points are the least and the greatest value of every dimension, or nothing if
there are no points. Both ends belong to the box. Comparison is numeric, so a NaN is in no box.

Main results:

* `Bounds.intersects_comm` — intersecting is symmetric;
* `Bounds.empty_merge`, `Bounds.merge_empty` — merging with nothing changes nothing.
-/

namespace PointCloud

/-- A box in the space of the dimensions. -/
inductive Bounds where
  /-- The bounds of no points. -/
  | empty
  /-- The least and the greatest value of every dimension. -/
  | extent (lows highs : List Binary64)
  deriving DecidableEq, Repr, Inhabited

namespace Bounds

/-- Whether there are no points. -/
def isEmpty : Bounds → Bool
  | empty => true
  | extent .. => false

/-- Whether two boxes have a place in common. Boxes of different dimensions have none. -/
def intersects : Bounds → Bounds → Bool
  | extent lows highs, extent lows' highs' =>
    lows.length == lows'.length &&
      ((lows.zip highs).zip (lows'.zip highs')).all fun ((low, high), (low', high')) =>
        low.le high' && low'.le high
  | _, _ => false

/-- Whether values lie in a box. -/
def contains : Bounds → List Binary64 → Bool
  | extent lows highs, values =>
    lows.length == values.length &&
      (values.zip (lows.zip highs)).all fun (value, (low, high)) => low.le value && value.le high
  | empty, _ => false

/-- The least box that holds two boxes. -/
def merge : Bounds → Bounds → Bounds
  | empty, b => b
  | a, empty => a
  | extent lows highs, extent lows' highs' =>
    extent (List.zipWith .minimum lows lows') (List.zipWith .maximum highs highs')

/-! ## Laws -/

theorem empty_merge (b : Bounds) : empty.merge b = b := by cases b <;> rfl

theorem merge_empty (b : Bounds) : b.merge empty = b := by cases b <;> rfl

private theorem all_zip_comm {α : Type} (p : α × α → Bool) (as bs : List α)
    (h : ∀ a b, p (a, b) = p (b, a)) : (as.zip bs).all p = (bs.zip as).all p := by
  induction as generalizing bs with
  | nil => cases bs <;> rfl
  | cons a as ih =>
    cases bs with
    | nil => rfl
    | cons b bs => simp [ih bs, h a b]

theorem intersects_comm (a b : Bounds) : a.intersects b = b.intersects a := by
  cases a with
  | empty => cases b <;> rfl
  | extent lows highs =>
    cases b with
    | empty => rfl
    | extent lows' highs' =>
      simp only [intersects]
      rw [all_zip_comm _ _ _ fun _ _ => Bool.and_comm ..]
      congr 1
      exact Bool.eq_iff_iff.mpr (by rw [beq_iff_eq, beq_iff_eq]; exact eq_comm)

/-! ## Documents -/

/-- Writes one end of a box. -/
private def endText (values : List Binary64) : String :=
  Document.ofItems (values.map Document.ofFloat)

/-- Writes a document: a record of a kind, and of both ends if there are points. -/
def text : Bounds → String
  | empty => Document.ofMembers [("kind", Document.ofText "empty")]
  | extent lows highs =>
    Document.ofMembers [
      ("kind", Document.ofText "extent"), ("min", endText lows), ("max", endText highs)]

/-- Reads both ends of a box from a record. -/
def readEnds? (document : Document) : Option Bounds := do
  match ← document.record? ["min", "max"] with
  | [lows, highs] =>
    let lows ← Document.required? (Document.list? Document.float?) lows
    let highs ← Document.required? (Document.list? Document.float?) highs
    return extent lows highs
  | _ => none

/-- Reads the tree of a document. As an array, the kind comes first. What is not read has to have a
meaning all the same, because the kind may come after it. -/
def read? (document : Document) : Option Bounds := do
  -- The tree is kept as a whole until the kind is known.
  guard (Document.isKept Document.depthLimit document)
  match document with
  | .object members =>
    let kind ← (← Document.field? (← Document.members? members) "kind").bind Document.text?
    if kind = "empty" then return empty
    else if kind = "extent" then readEnds? document
    else none
  | .array (kind :: items) =>
    let kind ← kind.text?
    if kind = "empty" && items.isEmpty then return empty
    else if kind = "extent" then readEnds? (.array items)
    else none
  | _ => none

/-- Reads the text of a document. -/
def read (text : String) : Except Error Bounds := Document.read read? text

end Bounds

end PointCloud
