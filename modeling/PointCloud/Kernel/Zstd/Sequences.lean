import PointCloud.Kernel.CopyBack
import PointCloud.Kernel.Zstd.Distribution
import PointCloud.Kernel.Zstd.Field

/-!
# Sequences

After its literals a block holds sequences. A sequence takes some literals, and then copies earlier
output: how far back is a distance of its own, or one of the last three distances. What the
sequences leave of the literals ends the block.

The three numbers of a sequence are each a symbol and extra bits. The symbols are coded by three
state tables, whose bits are mixed with the extra bits; a table is the usual one, has a single
state, is described in the block, or is that of the block before.
-/

namespace PointCloud

namespace Zstd

/-- A step of the output. -/
structure Sequence where
  /-- How many literals come first. -/
  literals : Nat
  /-- From one to three, a distance that came before; else the distance, plus three. -/
  offset : Nat
  /-- How many bytes are copied. -/
  length : Nat
  deriving DecidableEq, Repr

/-! ## Distances -/

/-- The last three distances, the newest first. -/
structure Repeats where
  first : Nat := 1
  second : Nat := 4
  third : Nat := 8
  deriving DecidableEq, Repr, Inhabited

/-- The distance of a sequence, and the last distances after it. Without literals the offsets one to
three stand for the second and the third distance, and for one less than the first. -/
def Repeats.resolve (r : Repeats) (q : Sequence) : Nat × Repeats :=
  if 3 < q.offset then (q.offset - 3, ⟨q.offset - 3, r.first, r.second⟩)
  else
    match q.offset + (if q.literals = 0 then 1 else 0) with
    | 1 => (r.first, r)
    | 2 => (r.second, ⟨r.second, r.first, r.third⟩)
    | 3 => (r.third, ⟨r.third, r.first, r.second⟩)
    | _ => (r.first - 1, ⟨r.first - 1, r.first, r.second⟩)

/-! ## Symbols -/

/-- For every symbol, the least number and the count of extra bits, given these counts. -/
def numberTable (least : Nat) : List Nat → List (Nat × Nat)
  | [] => []
  | bits :: rest => (least, bits) :: numberTable (least + 2 ^ bits) rest

/-- What the symbols of one of the numbers of a sequence mean. -/
structure Alphabet where
  /-- For every symbol, the least number and the count of extra bits. -/
  numbers : List (Nat × Nat)
  /-- The usual distribution. -/
  usual : Distribution
  /-- The greatest `log` of a described distribution. -/
  logLimit : Nat

namespace Alphabet

/-- The counts of literals. -/
def literals : Alphabet where
  numbers := numberTable 0
    (List.replicate 16 0 ++ [1, 1, 1, 1, 2, 2, 3, 3, 4, 6, 7, 8, 9, 10, 11, 12, 13, 14, 15, 16])
  usual := ⟨6, [4, 3, 2, 2, 2, 2, 2, 2, 2, 2, 2, 2, 2, 1, 1, 1, 2, 2, 2, 2, 2, 2, 2, 2, 2, 3, 2, 1,
    1, 1, 1, 1, -1, -1, -1, -1]⟩
  logLimit := 9

/-- The offsets. -/
def offsets : Alphabet where
  numbers := (List.range 32).map fun bits => (2 ^ bits, bits)
  usual := ⟨5, [1, 1, 1, 1, 1, 1, 2, 2, 2, 1, 1, 1, 1, 1, 1, 1, 1, 1, 1, 1, 1, 1, 1, 1, -1, -1, -1,
    -1, -1]⟩
  logLimit := 8

/-- The lengths of copies. -/
def lengths : Alphabet where
  numbers := numberTable 3
    (List.replicate 32 0 ++ [1, 1, 1, 1, 2, 2, 3, 3, 4, 4, 5, 7, 8, 9, 10, 11, 12, 13, 14, 15, 16])
  usual := ⟨6, [1, 4, 3, 2, 2, 2, 2, 2, 2, 1, 1, 1, 1, 1, 1, 1, 1, 1, 1, 1, 1, 1, 1, 1, 1, 1, 1, 1,
    1, 1, 1, 1, 1, 1, 1, 1, 1, 1, 1, 1, 1, 1, 1, 1, 1, 1, -1, -1, -1, -1, -1, -1, -1]⟩
  logLimit := 9

/-- The symbol of a number. -/
def symbol (a : Alphabet) (n : Nat) : Nat :=
  (a.numbers.takeWhile fun entry => entry.1 ≤ n).length - 1

/-- The extra bits of a number. -/
def extraBits (a : Alphabet) (n : Nat) : List Bool :=
  let (least, bits) := a.numbers.getD (a.symbol n) (0, 0)
  Backward.number bits (n - least)

/-- Reads the extra bits of a symbol, which gives its number. -/
def takeNumber? (a : Alphabet) (symbol : Nat) (bits : List Bool) : Option (Nat × List Bool) := do
  let (least, width) ← a.numbers[symbol]?
  let (n, bits) ← Backward.take? width bits
  return (least + n, bits)

/-! ## Tables -/

/-- How a table is given. -/
inductive Mode where
  | usual
  | single
  | described
  | kept
  deriving DecidableEq, Repr

/-- The two bits that stand for a mode. -/
def Mode.tag : Mode → Nat
  | usual => 0
  | single => 1
  | described => 2
  | kept => 3

/-- The mode of two bits. -/
def Mode.ofTag (tag : Nat) : Mode :=
  match tag % 4 with
  | 0 => usual
  | 1 => single
  | 2 => described
  | _ => kept

/-- Reads a table that is given in a mode, with the bytes after it. `last?` is that of the block
before. -/
def takeTable? (a : Alphabet) (last? : Option StateTable) (mode : Mode) (bytes : Bytes) :
    Option (StateTable × Bytes) :=
  match mode with
  | .usual => some (.ofDistribution a.usual, bytes)
  | .single => do
    let (symbol, bytes) ← Zstd.takeNumber? 1 bytes
    guard (symbol < a.numbers.length)
    return (.single symbol, bytes)
  | .described => do
    let (d, bytes) ← Distribution.read? a.logLimit a.numbers.length bytes
    return (.ofDistribution d, bytes)
  | .kept => last?.map (·, bytes)

/-- The mode for symbols. A description has to be worth it: there have to be many symbols, and some
of them have to be frequent. -/
def mode (a : Alphabet) (symbols : List Nat) : Mode :=
  let count := symbols.length
  let frequencies := Distribution.frequencies symbols
  let most := frequencies.foldl max 0
  let usable := frequencies.length ≤ a.usual.counts.length
  if most = count then (if usable && count ≤ 2 then .usual else .single)
  else if usable && (count < a.usual.size || most < count / 2 ^ (a.usual.log - 1)) then .usual
  else .described

/-- The distribution that is described for symbols. The last symbol takes no bits, so it does not
count if there are others like it. -/
def described? (a : Alphabet) (symbols : List Nat) : Option Distribution :=
  let frequencies := Distribution.frequencies symbols
  let log := Distribution.fittingLog a.logLimit 2 symbols.length (frequencies.length - 1)
  let frequencies := frequencies.modify (symbols.getLastD 0) fun n => if 1 < n then n - 1 else n
  Distribution.ofFrequencies? log (if frequencies.sum < 2048 then 1 else -1) frequencies

/-- The bits of a mode, the bytes of the table, and the table, for symbols. -/
def giveTable? (a : Alphabet) (symbols : List Nat) : Option (Nat × Bytes × StateTable) :=
  let mode := a.mode symbols
  match mode with
  | .single => some (mode.tag, [UInt8.ofNat (symbols.headD 0)], .single (symbols.headD 0))
  | .described => (a.described? symbols).map fun d => (mode.tag, d.toBytes, .ofDistribution d)
  | _ => some (mode.tag, [], .ofDistribution a.usual)

end Alphabet

/-! ## Reading -/

/-- The tables of a block. -/
structure Tables where
  literals : StateTable
  offsets : StateTable
  lengths : StateTable
  deriving DecidableEq, Repr

namespace Sequence

/-- Reads the count of sequences. -/
def takeCount? (bytes : Bytes) : Option (Nat × Bytes) := do
  let (n, bytes) ← takeNumber? 1 bytes
  if n < 128 then return (n, bytes)
  if n < 255 then
    let (low, bytes) ← takeNumber? 1 bytes
    return (256 * (n - 128) + low, bytes)
  let (more, bytes) ← takeNumber? 2 bytes
  return (0x7f00 + more, bytes)

/-- Reads the numbers of a sequence in the given states. -/
def take? (literal offset length : State) (bits : List Bool) : Option (Sequence × List Bool) := do
  let (offset, bits) ← Alphabet.offsets.takeNumber? offset.symbol bits
  let (length, bits) ← Alphabet.lengths.takeNumber? length.symbol bits
  let (literals, bits) ← Alphabet.literals.takeNumber? literal.symbol bits
  return (⟨literals, offset, length⟩, bits)

/-- Reads sequences up to the last, `more` of them after the one in the given states. -/
def takeMany? (t : Tables) :
    Nat → State → State → State → List Bool → Array Sequence → Option (Array Sequence)
  | 0, literal, offset, length, bits, out => do
    let (q, bits) ← take? literal offset length bits
    guard bits.isEmpty
    return out.push q
  | more + 1, literal, offset, length, bits, out => do
    let (q, bits) ← take? literal offset length bits
    let (literal, bits) ← t.literals.next? literal bits
    let (length, bits) ← t.lengths.next? length bits
    let (offset, bits) ← t.offsets.next? offset bits
    takeMany? t more literal offset length bits (out.push q)

/-- Reads the sequences of a block, given the tables of the block before, with the tables for the
next block. -/
def read? (tables? : Option Tables) (bytes : Bytes) : Option (List Sequence × Option Tables) := do
  let (count, bytes) ← takeCount? bytes
  if count = 0 then
    guard bytes.isEmpty
    return ([], tables?)
  let (modes, bytes) ← takeNumber? 1 bytes
  guard (modes % 4 = 0)
  let (literals, bytes) ←
    Alphabet.literals.takeTable? (tables?.map (·.literals)) (.ofTag (modes / 64)) bytes
  let (offsets, bytes) ←
    Alphabet.offsets.takeTable? (tables?.map (·.offsets)) (.ofTag (modes / 16)) bytes
  let (lengths, bytes) ←
    Alphabet.lengths.takeTable? (tables?.map (·.lengths)) (.ofTag (modes / 4)) bytes
  let bits ← Backward.ofBytes? bytes
  let (literal, bits) ← literals.start? bits
  let (offset, bits) ← offsets.start? bits
  let (length, bits) ← lengths.start? bits
  let tables : Tables := ⟨literals, offsets, lengths⟩
  let sequences ← takeMany? tables (count - 1) literal offset length bits #[]
  return (sequences.toList, some tables)

/-! ## Output -/

/-- Carries out sequences, with the last distances after them. The output may grow to `limit` bytes,
and nothing before its byte `oldest` is copied. -/
def run? (oldest limit : Nat) :
    List Sequence → Repeats → Bytes → Array UInt8 → Option (Repeats × Array UInt8)
  | [], r, literals, out => do
    let out := out ++ literals.toArray
    guard (out.size ≤ limit)
    return (r, out)
  | q :: more, r, literals, out => do
    let (taken, literals) ← takeBytes? q.literals literals
    let out := out ++ taken.toArray
    guard (out.size + q.length ≤ limit)
    let (distance, r) := r.resolve q
    guard (0 < distance && distance ≤ out.size - oldest)
    run? oldest limit more r literals (copyBack distance q.length out)

/-! ## Writing -/

/-- The bytes of the count of sequences. -/
def countBytes (count : Nat) : Bytes :=
  if count < 128 then [UInt8.ofNat count]
  else if count < 0x7f00 then [UInt8.ofNat (128 + count / 256), UInt8.ofNat count]
  else 255 :: Numeral.toBytes 2 (count - 0x7f00)

/-- The extra bits of a sequence. -/
def extraBits (q : Sequence) : List Bool :=
  Alphabet.offsets.extraBits q.offset ++ Alphabet.lengths.extraBits q.length ++
    Alphabet.literals.extraBits q.literals

/-- The states of the first sequence, and the bits from its extra bits on. -/
def bits? (t : Tables) : List Sequence → Option (Nat × Nat × Nat × List Bool)
  | [] => none
  | [q] => do
    let literal ← t.literals.last? (Alphabet.literals.symbol q.literals)
    let offset ← t.offsets.last? (Alphabet.offsets.symbol q.offset)
    let length ← t.lengths.last? (Alphabet.lengths.symbol q.length)
    return (literal, offset, length, q.extraBits)
  | q :: more => do
    let (literal, offset, length, bits) ← bits? t more
    let (literal, a) ← t.literals.before? (Alphabet.literals.symbol q.literals) literal
    let (length, b) ← t.lengths.before? (Alphabet.lengths.symbol q.length) length
    let (offset, c) ← t.offsets.before? (Alphabet.offsets.symbol q.offset) offset
    return (literal, offset, length, q.extraBits ++ a ++ b ++ c ++ bits)

/-- The bytes of the sequences of a block. -/
def toBytes? (sequences : List Sequence) : Option Bytes := do
  if sequences.isEmpty then return countBytes 0
  let symbolsOf (a : Alphabet) (number : Sequence → Nat) :=
    sequences.map fun q => a.symbol (number q)
  let (a, literalBytes, literals) ←
    Alphabet.literals.giveTable? (symbolsOf .literals (·.literals))
  let (b, offsetBytes, offsets) ← Alphabet.offsets.giveTable? (symbolsOf .offsets (·.offset))
  let (c, lengthBytes, lengths) ← Alphabet.lengths.giveTable? (symbolsOf .lengths (·.length))
  let (literal, offset, length, bits) ← bits? ⟨literals, offsets, lengths⟩ sequences
  let states := Backward.number literals.log literal ++ Backward.number offsets.log offset ++
    Backward.number lengths.log length
  return countBytes sequences.length ++ [UInt8.ofNat (64 * a + 16 * b + 4 * c)] ++ literalBytes ++
    offsetBytes ++ lengthBytes ++ Backward.toBytes (states ++ bits)

end Sequence

end Zstd

end PointCloud
