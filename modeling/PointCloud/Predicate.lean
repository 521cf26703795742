import PointCloud.Document.Decode
import PointCloud.Document.Write

/-!
# Predicates

A predicate tests one value. Comparison is numeric: the two zeros are equal, and a NaN passes no
test.
-/

namespace PointCloud

/-- A test of one value. -/
inductive Predicate where
  | equal (x : Binary64)
  | less (x : Binary64)
  | greater (x : Binary64)
  /-- Both ends pass. -/
  | between (low high : Binary64)
  deriving DecidableEq, Repr

namespace Predicate

/-- Whether a value passes. -/
def holds : Predicate → Binary64 → Bool
  | equal x, value => value.equals x
  | less x, value => value.lt x
  | greater x, value => x.lt value
  | between low high, value => low.le value && value.le high

theorem holds_nan (p : Predicate) {x : Binary64} (h : x.isNaN = true) : p.holds x = false := by
  cases p <;> simp [holds, Binary64.equals, Binary64.lt, Binary64.le, h]

/-- Writes a document: the name of the test, with the value or values it compares with. -/
def text : Predicate → String
  | equal x => Document.ofMembers [("equal", Document.ofFloat x)]
  | less x => Document.ofMembers [("less", Document.ofFloat x)]
  | greater x => Document.ofMembers [("greater", Document.ofFloat x)]
  | between low high =>
    Document.ofMembers [("between", Document.ofItems [Document.ofFloat low, Document.ofFloat high])]

/-- Reads the tree of a document. -/
def read? (document : Document) : Option Predicate := do
  match ← document.choice? with
  | ("equal", some d) => return equal (← d.float?)
  | ("less", some d) => return less (← d.float?)
  | ("greater", some d) => return greater (← d.float?)
  | ("between", some (.array [low, high])) => return between (← low.float?) (← high.float?)
  | _ => none

/-- Reads the text of a document. -/
def read (text : String) : Except Error Predicate := Document.read read? text

end Predicate

end PointCloud
