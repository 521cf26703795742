import PointCloud.Error

/-!
# Column methods

A method says how one column of words is stored. Its tag is one byte in front of the column.
-/

namespace PointCloud

/-- How a column is stored. -/
inductive ColumnMethod where
  /-- The bytes of the words as they are. -/
  | verbatim
  /-- Runs of equal words. -/
  | runLength
  /-- The bits that all words share, and the others packed. -/
  | sharedBits
  /-- The bytes of the words in a zlib stream. -/
  | deflate
  deriving DecidableEq, Repr, Inhabited

namespace ColumnMethod

/-- Every method, in the order of the tags. -/
def all : List ColumnMethod := [verbatim, runLength, sharedBits, deflate]

/-- The byte that stands for a method. -/
def tag : ColumnMethod → UInt8
  | verbatim => 0
  | runLength => 1
  | sharedBits => 2
  | deflate => 3

/-- The method of a tag. -/
def ofTag? (tag : UInt8) : Option ColumnMethod := all.find? fun m => m.tag == tag

/-- The method of a tag, which has to be known. -/
def ofTag (tag : UInt8) : Except Error ColumnMethod :=
  match ofTag? tag with
  | some m => .ok m
  | none => .error (.corruptPatch (.methodTag tag))

/-- The name used in messages. -/
def name : ColumnMethod → String
  | verbatim => "None"
  | runLength => "Rle"
  | sharedBits => "Sigbits"
  | deflate => "Deflate"

/-- The methods that may store words of an interpretation, the preferred one of equals first. Runs
and shared bits are looked for in integers only. -/
def candidates (t : Interpretation) : List ColumnMethod :=
  if t.isInteger then all else [verbatim, deflate]

end ColumnMethod

end PointCloud
