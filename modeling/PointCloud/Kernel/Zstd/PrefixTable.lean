import PointCloud.Kernel.Zstd.Distribution

/-!
# Prefix tables

Bytes are coded by prefix codes: no code is the beginning of another, and frequent bytes have short
codes. A table gives, for all bits that the longest code takes, the symbol that they begin with and
the length of its code. It is laid out by weights: a symbol of weight `w` has `2 ^ (w - 1)` cells, a
symbol of weight zero has none; lesser weights come first, symbols of one weight in order.

A table is described by the weights of its symbols up to the last, whose weight fills the table.
They are given by four bits each, or coded by a state table, in which case symbols at even and at
odd places are coded side by side. As the longest codes come in pairs, some symbol has weight one.
-/

namespace PointCloud

namespace Zstd

/-- A cell of a prefix table. -/
structure Cell where
  symbol : Nat
  /-- The length of the code of the symbol. -/
  length : Nat
  deriving DecidableEq, Repr

/-- A prefix code. -/
structure PrefixTable where
  /-- The length of the longest code. -/
  depth : Nat
  cells : Array Cell
  deriving DecidableEq, Repr

namespace PrefixTable

/-- The greatest length of a code. -/
def depthLimit : Nat := 12

/-- The greatest length of a code that is written. -/
def writtenDepth : Nat := 11

/-- The count of cells of a symbol. -/
def cellCount (weight : Nat) : Nat := if weight = 0 then 0 else 2 ^ (weight - 1)

/-- The table of symbols of the given weights. -/
def ofWeights (depth : Nat) (weights : List Nat) : PrefixTable where
  depth
  cells := ((List.range depth).flatMap fun i =>
    (List.range weights.length).flatMap fun symbol =>
      if weights[symbol]? = some (i + 1) then List.replicate (cellCount (i + 1)) ⟨symbol, depth - i⟩
      else []).toArray

/-! ## Symbols -/

/-- Reads a symbol. Past the end of the bits the table is looked up as if zeros came. -/
def take? (t : PrefixTable) (bits : List Bool) : Option (Nat × List Bool) := do
  let ahead := bits.take t.depth
  let cell ← t.cells[Backward.value ahead * 2 ^ (t.depth - ahead.length)]?
  guard (cell.length ≤ ahead.length)
  return (cell.symbol, bits.drop cell.length)

/-- Reads `count` bytes. -/
def takeMany? (t : PrefixTable) : Nat → List Bool → Array UInt8 → Option (Array UInt8 × List Bool)
  | 0, bits, out => some (out, bits)
  | count + 1, bits, out =>
    match t.take? bits with
    | some (symbol, rest) => takeMany? t count rest (out.push (UInt8.ofNat symbol))
    | none => none

/-- Reads `count` bytes, which take up all the bits of a byte string. -/
def decode? (t : PrefixTable) (count : Nat) (bytes : Bytes) : Option Bytes := do
  let (out, rest) ← t.takeMany? count (← Backward.ofBytes? bytes) #[]
  guard rest.isEmpty
  return out.toList

/-- The code of every symbol. -/
def codes (t : PrefixTable) : Array (List Bool) :=
  let code (symbol : Nat) :=
    match t.cells.findIdx? (·.symbol == symbol) with
    | some i => (Backward.number t.depth i).take (t.cells[i]?.elim 0 (·.length))
    | none => []
  ((List.range 256).map code).toArray

/-- The bytes of the codes of bytes. -/
def encode (t : PrefixTable) (bytes : Bytes) : Bytes :=
  let codes := t.codes
  Backward.toBytes (bytes.flatMap fun b => codes.getD b.toNat [])

/-! ## Weights in a state table -/

/-- The greatest `log` of the state table of weights. -/
def weightLogLimit : Nat := 6

/-- How many symbols there may be beside a state table of weights, which shares its room with them.
-/
def weightSymbolLimit (log : Nat) : Nat := if log < weightLogLimit then 92 else 12

/-- The greatest count of weights that are written. -/
def weightLimit : Nat := 255

/-- The symbols of two states that take turns, until the bits end: a state and the one after it, at
most one symbol more than `steps`. -/
def takeTurns? (t : StateTable) : Nat → State → State → List Bool → Option (List Nat)
  | 0, _, _, _ => none
  | steps + 1, state, other, bits =>
    match t.next? state bits with
    | some (next, rest) => (takeTurns? t steps other next rest).map (state.symbol :: ·)
    -- Too few bits for a next state end the weights with the two states that are left.
    | none => if bits.length < state.bits then some [state.symbol, other.symbol] else none

/-- Reads weights that are coded by a state table. -/
def readCodedWeights? (bytes : Bytes) : Option (List Nat) := do
  let (d, bytes) ← Distribution.read? weightLogLimit 256 bytes
  guard (d.counts.length ≤ weightSymbolLimit d.log)
  let t := StateTable.ofDistribution d
  let bits ← Backward.ofBytes? bytes
  let (state, bits) ← t.start? bits
  let (other, bits) ← t.start? bits
  takeTurns? t (weightLimit - 1) state other bits

/-- The states of the first two symbols, and the bits after those states. -/
def turns? (t : StateTable) : List Nat → Option (Nat × Nat × List Bool)
  | [] => none
  | [_] => none
  | [symbol, other] => do return (← t.last? symbol, ← t.last? other, [])
  | symbol :: other :: more => do
    let (state, next, bits) ← turns? t (other :: more)
    let (first, toward) ← t.before? symbol next
    return (first, state, toward ++ bits)

/-- The bytes of weights coded by a state table. None if that cannot be done, or is not worth it. -/
def codedWeights? (weights : List Nat) : Option Bytes := do
  let frequencies := Distribution.frequencies weights
  let most := frequencies.foldl max 0
  guard (1 < most && most < weights.length)
  let log := Distribution.fittingLog weightLogLimit 2 weights.length (frequencies.length - 1)
  let d ← Distribution.ofFrequencies? log 1 frequencies
  let (state, other, bits) ← turns? (StateTable.ofDistribution d) weights
  let first := Backward.number log state ++ Backward.number log other
  return d.toBytes ++ Backward.toBytes (first ++ bits)

/-! ## Descriptions -/

/-- The length of the longest code if the given weights and that of the last symbol fill a table,
and the weight of the last symbol. -/
def complete? (weights : List Nat) : Option (Nat × Nat) := do
  let used := (weights.map cellCount).sum
  guard (0 < used)
  let depth := used.log2 + 1
  let free := 2 ^ depth - used
  let last := free.log2 + 1
  guard (depth ≤ depthLimit && 2 ^ free.log2 = free && (weights ++ [last]).contains 1)
  return (depth, last)

/-- Reads a description, with the bytes after it. -/
def read? (bytes : Bytes) : Option (PrefixTable × Bytes) := do
  let kind :: bytes := bytes | none
  let kind := kind.toNat
  let length := if kind < 128 then kind else (kind - 127 + 1) / 2
  guard (length ≤ bytes.length)
  let described := bytes.take length
  let weights ←
    if kind < 128 then readCodedWeights? described
    else
      some ((described.flatMap fun b => [b.toNat / 16, b.toNat % 16]).take (kind - 127))
  let (depth, last) ← complete? weights
  return (ofWeights depth (weights ++ [last]), bytes.drop length)

/-- The description of a table with the given weights, the last of which is not written. -/
def describe? (weights : List Nat) : Option Bytes :=
  let written := weights.dropLast
  let coded := ((codedWeights? written).filter (·.length < written.length / 2)).map fun bytes =>
    UInt8.ofNat bytes.length :: bytes
  let plain :=
    if 128 < written.length then none
    else
      let pairs := cut 2 ((written.length + 1) / 2) written
      some (UInt8.ofNat (127 + written.length) :: pairs.map fun pair =>
        UInt8.ofNat (16 * pair.headD 0 + pair.tail.headD 0))
  coded <|> plain

end PrefixTable

end Zstd

end PointCloud
