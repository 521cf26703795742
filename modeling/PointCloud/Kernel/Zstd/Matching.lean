import PointCloud.Kernel.Zstd.Sequences

/-!
# Finding repeats

The sequences of a block are found by going through it once. At every place three things are looked
for: the last distance once more, from the next byte on; the last place where the same eight bytes
began; and the last place where the same five bytes began, unless the next place does better with
eight. What is found is extended as far as it goes, to both sides, and the search goes on after it.
Where nothing is found for long, places are left out.

Places are noted in two tables, under a hash of the bytes that begin there; a later place with the
same hash takes the place of an earlier one. The first place of all is never noted.

The search only proposes sequences; whoever uses them checks what they come to.
-/

namespace PointCloud

namespace Zstd

/-- The state of a search. -/
structure Search where
  /-- The place to look at. -/
  place : Nat
  /-- Where the literals of the next sequence begin. -/
  anchor : Nat
  /-- How far the next place is. -/
  step : Nat
  /-- The place from which on the step grows. -/
  slack : Nat
  /-- The last distance, zero if there is none to use. -/
  near : Nat
  /-- The distance before. -/
  far : Nat
  /-- The last place for every hash of eight bytes, zero if there is none. -/
  long : Array Nat
  /-- The last place for every hash of five bytes, zero if there is none. -/
  short : Array Nat
  found : Array Sequence

namespace Search

/-- How many more places are looked at before the step grows. -/
def patience : Nat := 256

/-- The least length of a copy. -/
def leastLength : Nat := 4

/-- The number that `width` bytes write. -/
def word (data : Array UInt8) : Nat → Nat → UInt64
  | 0, _ => 0
  | width + 1, i => (data.getD i 0).toUInt64 + 256 * word data width (i + 1)

/-- The bits of a hash of eight bytes. -/
def longBits : Nat := 17

/-- The bits of a hash of five bytes. -/
def shortBits : Nat := 16

/-- The hash of the eight bytes that begin at a place: the high bits of a product. -/
def longHash (data : Array UInt8) (i : Nat) : Nat :=
  (word data 8 i * 0xcf1bbcdcb7a56463).toNat / 2 ^ (64 - longBits)

/-- The hash of the five bytes that begin at a place. -/
def shortHash (data : Array UInt8) (i : Nat) : Nat :=
  (word data 5 i * 0x1000000 * 0xcf1bbcdcbb).toNat / 2 ^ (64 - shortBits)

/-- How many bytes agree from two places on, at most `limit`, added to `known`. -/
def extent (data : Array UInt8) (i j : Nat) : Nat → Nat → Nat
  | 0, known => known
  | limit + 1, known =>
    if data[i + known]? == data[j + known]? then extent data i j limit (known + 1) else known

/-- How many bytes agree from the later of two places on. -/
def agreement (data : Array UInt8) (i j : Nat) : Nat := extent data i j (data.size - j) 0

/-- How many bytes agree before two places, at most `limit`. -/
def overlap (data : Array UInt8) (i j : Nat) : Nat → Nat
  | 0 => 0
  | limit + 1 =>
    if 0 < i && data[i - 1]? == data[j - 1]? then 1 + overlap data (i - 1) (j - 1) limit else 0

/-- Notes that eight bytes begin at a place. -/
def noteLong (data : Array UInt8) (i : Nat) (s : Search) : Search :=
  { s with long := s.long.setIfInBounds (longHash data i) i }

/-- Notes that five bytes begin at a place. -/
def noteShort (data : Array UInt8) (i : Nat) (s : Search) : Search :=
  { s with short := s.short.setIfInBounds (shortHash data i) i }

/-- Notes what begins at a place. -/
def note (data : Array UInt8) (i : Nat) (s : Search) : Search :=
  noteShort data i (noteLong data i s)

/-- Whether a place is far enough from the end to be looked at. -/
def isInside (data : Array UInt8) (i : Nat) : Bool := i + 8 ≤ data.size

/-- Adds a sequence whose copy begins at a place, and goes on after it. -/
def add (start offset length : Nat) (s : Search) : Search :=
  { s with
    found := s.found.push ⟨start - s.anchor, offset, length⟩
    place := start + length
    anchor := start + length }

/-- Puts a new distance in front of the last one. -/
def renew (distance : Nat) (s : Search) : Search := { s with near := distance, far := s.near }

/-- Exchanges the last two distances. -/
def exchange (s : Search) : Search := { s with near := s.far, far := s.near }

/-- Copies from the distance before the last as long as that goes, at most `steps` times. -/
def alternate (data : Array UInt8) : Nat → Search → Search
  | 0, s => s
  | steps + 1, s =>
    if !isInside data s.place || s.far = 0 then s
    else
      let length := agreement data (s.place - s.far) s.place
      if length < leastLength then s
      else alternate data steps (exchange (add s.place 1 length (note data s.place s)))

/-- Goes on after a sequence that was found when `seen` was looked at. -/
def resume (data : Array UInt8) (seen : Nat) (s : Search) : Search :=
  let s :=
    if isInside data s.place then
      let s := noteLong data (s.place - 2) (noteLong data (seen + 2) s)
      let s := noteShort data (s.place - 1) (noteShort data (seen + 2) s)
      alternate data data.size s
    else s
  { s with step := 1, slack := s.place + patience }

/-- Adds a copy of what began at `source` to the place `start`, extended to both sides. -/
def addFresh (data : Array UInt8) (source start next : Nat) (s : Search) : Search :=
  let before := overlap data source start (start - s.anchor)
  let length := before + agreement data source start
  let distance := start - source
  let s := if s.step < 4 then noteLong data next s else s
  resume data s.place (renew distance (add (start - before) (distance + 3) length s))

/-- The place under a hash, if as many bytes as are asked for began there as begin at `i`. -/
def source? (data : Array UInt8) (table : Array Nat) (hash least i : Nat) : Option Nat :=
  let source := table.getD hash 0
  if 0 < source && extent data source i least 0 = least then some source else none

/-- Looks at places, at most `steps` of them. -/
def run (data : Array UInt8) : Nat → Search → Search
  | 0, s => s
  | steps + 1, s =>
    let next := s.place + s.step
    if !isInside data next then s
    else
      let long? := source? data s.long (longHash data s.place) 8 s.place
      let short? := source? data s.short (shortHash data s.place) leastLength s.place
      -- What was noted under the two hashes has been looked up; now this place takes over.
      let s := note data s.place s
      let again := if s.near = 0 then 0 else agreement data (s.place + 1 - s.near) (s.place + 1)
      if leastLength ≤ again then run data steps (resume data s.place (add (s.place + 1) 1 again s))
      else
        match long?, short? with
        | some source, _ => run data steps (addFresh data source s.place next s)
        | none, some source =>
          match source? data s.long (longHash data next) 8 next with
          | some better => run data steps (addFresh data better next next s)
          | none => run data steps (addFresh data source s.place next s)
        | none, none =>
          let grows := s.slack ≤ next
          run data steps { s with
            place := next
            step := if grows then s.step + 1 else s.step
            slack := if grows then s.slack + patience else s.slack }

/-- The sequences of a block, given the last distances before it. -/
def sequences (r : Repeats) (data : Array UInt8) : List Sequence :=
  (run data data.size {
    place := 1
    anchor := 0
    step := 1
    slack := 1 + patience
    near := if r.first = 1 then 1 else 0
    far := 0
    long := Array.replicate (2 ^ longBits) 0
    short := Array.replicate (2 ^ shortBits) 0
    found := #[] }).found.toList

end Search

/-- The literals of sequences, and what is left after them. -/
def Sequence.literalsOf : List Sequence → Bytes → Bytes
  | [], bytes => bytes
  | q :: more, bytes =>
    bytes.take q.literals ++ literalsOf more (bytes.drop (q.literals + q.length))

end Zstd

end PointCloud
