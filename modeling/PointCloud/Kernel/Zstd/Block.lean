import PointCloud.Kernel.Zstd.Literals
import PointCloud.Kernel.Zstd.Matching

/-!
# Blocks

The content of a frame is cut into blocks. A block is stored verbatim, as one byte to be repeated,
or as literals and sequences; what the latter need from the block before goes along from block to
block.
-/

namespace PointCloud

namespace Zstd

/-- What a frame has come to after some of its blocks. -/
structure Progress where
  out : Array UInt8 := #[]
  /-- How much of the output came before what is kept to be copied from. -/
  oldest : Nat := 0
  repeats : Repeats := {}
  /-- The prefix code of the last coded literals. -/
  prefixTable? : Option PrefixTable := none
  /-- The tables of the last sequences. -/
  tables? : Option Tables := none

/-- How many bytes a block may come to. -/
structure Room where
  /-- The greatest length of a block, and of the literals in it. -/
  limit : Nat
  /-- The bytes that there is room for. -/
  free : Nat
  deriving DecidableEq, Repr

namespace Room

/-- The slack at the end of everything that is copied in large steps. -/
def slack : Nat := 32

/-- How many bytes literals and sequences may come to. If there is room behind the greatest block,
the literals lie there, and the block has to end in front of them. Literals that are verbatim in a
block need no such place, unless they lie too near to the end of the block. -/
def forSequences (room : Room) (literals : Nat) (inPlace : Bool) : Nat :=
  if !inPlace && room.limit + literals + 2 * slack < room.free then room.limit + slack
  else room.free

end Room

namespace Progress

/-- Appends bytes. -/
def append (p : Progress) (bytes : Bytes) : Progress := { p with out := p.out ++ bytes.toArray }

/-- Appends what literals and sequences come to. -/
def unpack? (p : Progress) (room : Room) (bytes : Bytes) : Option Progress := do
  let (literals, prefixTable?, rest) ← Literals.take? room.limit p.prefixTable? bytes
  let (sequences, tables?) ← Sequence.read? p.tables? rest
  let inPlace := Literals.isVerbatim bytes && Room.slack ≤ rest.length
  let limit := p.out.size + room.forSequences literals.length inPlace
  let (repeats, out) ← Sequence.run? p.oldest limit sequences p.repeats literals p.out
  return { p with out, repeats, prefixTable?, tables? }

end Progress

/-- The literals and sequences of a block, and the last distances after it; none if they are not
shorter by enough. -/
def pack? (r : Repeats) (content : Bytes) : Option (Bytes × Repeats) := do
  let sequences := Search.sequences r content.toArray
  let literals := Literals.toBytes (Sequence.literalsOf sequences content)
  let packed := literals ++ (← Sequence.toBytes? sequences)
  guard (packed.length + Literals.leastGain content.length < content.length)
  return (packed, sequences.foldl (fun r q => (r.resolve q).2) r)

end Zstd

end PointCloud
