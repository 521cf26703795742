import PointCloud.Kernel.Zstd.Field
import PointCloud.Kernel.Zstd.PrefixTable

/-!
# Coded parts

Many bytes are coded in four parts of one length, the last one perhaps shorter, which lie one after
the other with the lengths of the first three codings in front.

Parts are coded in just the bits that they have. Parts that are long enough are read side by side,
in rounds of a few bytes each, and where a part begins is looked at only after the rounds: a part
may leave bits over, and one that runs out of bits goes on with the bytes in front of it. Past the
first byte of all, the first eight bytes come again and again.
-/

namespace PointCloud

namespace Zstd

namespace PrefixTable

/-- The least count of bytes that are coded in four parts. -/
def partedLeast : Nat := 6

/-! ## Side by side -/

/-- A part that is being read. -/
structure Lane where
  /-- The place where the part begins. -/
  first : Nat
  /-- The place where it ends. -/
  last : Nat
  /-- Where the eight bytes begin that the next bits are taken from. -/
  held : Nat
  /-- The bits from the end of the part down to the first byte of all, as far as they are unread. -/
  unread : List Bool
  /-- The count of bits read, with those that say where the bits of the part begin. -/
  read : Nat
  /-- The count of bits read past the first byte of all. -/
  past : Nat := 0
  out : Array UInt8 := #[]

namespace Lane

/-- The lane of the part from `first` to `last` of bytes. A part without a bit that says where its
bits begin has them all. -/
def of (bytes : Bytes) (first last : Nat) : Lane :=
  let bytes := bytes.take last
  let bits := (Bits.ofBytes bytes).reverse
  let opening := if bytes.getLastD 0 = 0 then 0 else (bits.takeWhile (!·)).length + 1
  { first, last, held := last - 8, unread := bits.drop opening, read := opening }

/-- Reads one byte. `lowest` are the bits of the first eight bytes, highest first. -/
def step (t : PrefixTable) (lowest : List Bool) (l : Lane) : Lane :=
  let ahead :=
    if l.unread.isEmpty then (lowest.drop (l.past % 64)).take t.depth else l.unread.take t.depth
  let cell := t.cells.getD (Backward.value ahead * 2 ^ (t.depth - ahead.length)) ⟨0, 0⟩
  { l with
    unread := l.unread.drop cell.length
    read := l.read + cell.length
    past := l.past + (cell.length - (l.unread.take cell.length).length)
    out := l.out.push (UInt8.ofNat cell.symbol) }

/-- Reads `count` bytes. -/
def steps (t : PrefixTable) (lowest : List Bool) : Nat → Lane → Lane
  | 0, l => l
  | count + 1, l => steps t lowest count (l.step t lowest)

/-- The count of bytes that a round takes from every lane. -/
def roundSteps : Nat := 5

/-- The count of bytes that the bits of a round are sure to lie in. -/
def roundBytes : Nat := 7

/-- Reads `count` rounds. -/
def rounds (t : PrefixTable) (lowest : List Bool) (count : Nat) (l : Lane) : Lane :=
  let l := l.steps t lowest (roundSteps * count)
  { l with held := l.last - 8 - l.read / 8 }

/-- The count of rounds that the last lane, with `left` bytes left, and the first lane are sure to
have bits for. -/
def roundCount (left : Nat) (lanes : List Lane) : Nat :=
  min (left / roundSteps) ((lanes.head?.elim 0 (·.held)) / roundBytes)

/-- Whether a lane has overtaken the one before. -/
def isOvertaken (lanes : List Lane) : Bool :=
  (lanes.zip lanes.tail).any fun (before, after) => after.held < before.held

theorem sub_roundCount_lt {left : Nat} {lanes : List Lane} (h : roundCount left lanes ≠ 0) :
    left - roundSteps * roundCount left lanes < left := by
  have hle : roundCount left lanes ≤ left / roundSteps := Nat.min_le_left ..
  simp only [roundSteps] at hle ⊢
  omega

/-- Reads rounds while `left` bytes of the last lane are left, as long as there are sure to be bits
for them and no lane has overtaken the one before. -/
def allRounds (t : PrefixTable) (lowest : List Bool) (left : Nat) (lanes : List Lane) : List Lane :=
  let count := roundCount left lanes
  if h : count = 0 ∨ isOvertaken lanes then lanes
  else
    have := sub_roundCount_lt fun hzero => h (.inl hzero)
    allRounds t lowest (left - roundSteps * count) (lanes.map (rounds t lowest count))
termination_by left
decreasing_by exact this

end Lane

/-- Decodes parts side by side, given their places and the counts of their bytes. -/
def decodeLanes? (t : PrefixTable) (places : List (Nat × Nat)) (counts : List Nat) (bytes : Bytes) :
    Option Bytes := do
  let lowest := (Bits.ofBytes (bytes.take 8)).reverse
  let lanes := Lane.allRounds t lowest (counts.getLastD 0)
    (places.map fun (first, last) => Lane.of bytes first last)
  -- Not even the bits that are held may lie in front of a part.
  guard (lanes.all fun l => l.first ≤ l.held + 8)
  let lanes := (lanes.zip counts).map fun (l, count) => l.steps t lowest (count - l.out.size)
  return lanes.flatMap (·.out.toList)

/-! ## Four parts -/

/-- Decodes `count` bytes that are coded in four parts. -/
def decodeParts? (t : PrefixTable) (count : Nat) (bytes : Bytes) : Option Bytes := do
  guard (partedLeast ≤ count)
  let (a, parts) ← takeNumber? 2 bytes
  let (b, parts) ← takeNumber? 2 parts
  let (c, parts) ← takeNumber? 2 parts
  guard (a + b + c < parts.length)
  let lengths := [a, b, c, parts.length - (a + b + c)]
  let part := (count + 3) / 4
  guard (3 * part ≤ count)
  let counts := [part, part, part, count - 3 * part]
  let ends := [6 + a, 6 + a + b, 6 + a + b + c, bytes.length]
  let places := (6 :: ends).zip ends
  if t.depth < depthLimit && lengths.all (8 ≤ ·) && 3 * part < count then
    t.decodeLanes? places counts bytes
  else
    let contents ← (places.zip counts).mapM fun ((first, last), count) =>
      t.decode? count ((bytes.take last).drop first)
    return contents.flatten

end PrefixTable

end Zstd

end PointCloud
