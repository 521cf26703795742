import PointCloud.Bytes.Bits

/-!
# Deflate codes

Deflate stores literal bytes and copies of earlier output. Symbols are written in canonical prefix
codes: shorter codes come first, codes of one length are numbered in the order of their symbols, and
a code is given by its lengths alone. A copy is a length symbol and a distance symbol, each followed
by extra bits.
-/

namespace PointCloud

namespace Deflate

/-! ## Why reading stops -/

/-- Why inflating stopped before the end of the stream. -/
inductive Stop where
  /-- The input ended. -/
  | truncated
  /-- The input breaks a rule of the format. -/
  | corrupt
  /-- There is more output than was asked for; `left` bits were left when it came up. -/
  | full (left : Nat)
  deriving DecidableEq, Repr

/-- Reads a number of `width` bits, with the bits after it. -/
def takeBits (width : Nat) (bits : List Bool) : Except Stop (Nat × List Bool) :=
  let taken := bits.take width
  if taken.length < width then .error .truncated else .ok (Bits.toNat taken, bits.drop width)

/-! ## Prefix codes -/

/-- A canonical prefix code. -/
structure PrefixCode where
  /-- How many symbols have a code of one bit, of two bits, and so on. -/
  counts : List Nat
  /-- The symbols, shorter codes first. -/
  symbols : List Nat
  deriving Repr

namespace PrefixCode

/-- The greatest code length. -/
def maxLength : Nat := 15

/-- The code in which symbol `s` has `lengths[s]` bits, and no code for length zero. -/
def ofLengths (lengths : List Nat) : PrefixCode where
  counts := (List.range maxLength).map fun i => lengths.count (i + 1)
  symbols := (List.range maxLength).flatMap fun i =>
    (List.range lengths.length).filter fun s => lengths[s]? == some (i + 1)

/-- The share of the code space in use, in units of the longest code. -/
def used (code : PrefixCode) : Nat :=
  (code.counts.mapIdx fun i count => count * 2 ^ (maxLength - (i + 1))).sum

/-- Whether the code leaves no bit string without meaning. -/
def isComplete (code : PrefixCode) : Bool := code.used = 2 ^ maxLength

/-- Whether a code may serve for literals or distances: it is complete, or has no symbol, or has one
symbol of one bit. -/
def isUsable (code : PrefixCode) : Bool :=
  code.isComplete || code.symbols.isEmpty || (code.symbols.length = 1 && code.counts.head? = some 1)

/-- Finds the place of the next code among the symbols. Codes of the current length begin at
`first`, and their symbols at `index`. Bits that begin no code are noticed at the first of them that
no longer code could begin with. -/
def place : List Nat → Nat → Nat → Nat → List Bool → Except Stop (Nat × List Bool)
  | [], _, _, _, _ => .error .corrupt
  | _ :: _, _, _, _, [] => .error .truncated
  | count :: counts, value, first, index, b :: bits =>
    let value := 2 * value + b.toNat
    if value < first + count then .ok (index + (value - first), bits)
    else if counts.all (· = 0) then .error .corrupt
    else place counts value (2 * (first + count)) (index + count) bits

/-- Reads one symbol. -/
def read (code : PrefixCode) (bits : List Bool) : Except Stop (Nat × List Bool) :=
  match place code.counts 0 0 0 bits with
  | .error stop => .error stop
  | .ok (i, bits) =>
    match code.symbols[i]? with
    | some symbol => .ok (symbol, bits)
    | none => .error .corrupt

end PrefixCode

/-! ## Lengths and distances -/

/-- The base and the count of extra bits of every length symbol, from 257 on. -/
def lengthTable : List (Nat × Nat) :=
  [(3, 0), (4, 0), (5, 0), (6, 0), (7, 0), (8, 0), (9, 0), (10, 0), (11, 1), (13, 1), (15, 1),
   (17, 1), (19, 2), (23, 2), (27, 2), (31, 2), (35, 3), (43, 3), (51, 3), (59, 3), (67, 4),
   (83, 4), (99, 4), (115, 4), (131, 5), (163, 5), (195, 5), (227, 5), (258, 0)]

/-- The base and the count of extra bits of every distance symbol. -/
def distanceTable : List (Nat × Nat) :=
  [(1, 0), (2, 0), (3, 0), (4, 0), (5, 1), (7, 1), (9, 2), (13, 2), (17, 3), (25, 3), (33, 4),
   (49, 4), (65, 5), (97, 5), (129, 6), (193, 6), (257, 7), (385, 7), (513, 8), (769, 8),
   (1025, 9), (1537, 9), (2049, 10), (3073, 10), (4097, 11), (6145, 11), (8193, 12), (12289, 12),
   (16385, 13), (24577, 13)]

/-- Reads the extra bits of the symbol at a place of a table. -/
def takeExtra (table : List (Nat × Nat)) (i : Nat) (bits : List Bool) :
    Except Stop (Nat × List Bool) :=
  match table[i]? with
  | none => .error .corrupt
  | some (base, extra) =>
    match takeBits extra bits with
    | .ok (n, bits) => .ok (base + n, bits)
    | .error stop => .error stop

/-- The last place of a table whose base does not exceed `n`, with the extra bits for `n`. -/
def symbolOf (table : List (Nat × Nat)) (n : Nat) : Nat × List Bool :=
  let i := (table.takeWhile fun entry => entry.1 ≤ n).length - 1
  let (base, extra) := table.getD i (0, 0)
  (i, Bits.ofNat extra (n - base))

/-- The symbol that ends a block. -/
def endOfBlock : Nat := 256

/-! ## The fixed code -/

/-- The code lengths of literals and length symbols in a block without a code of its own. -/
def fixedLengths : List Nat :=
  List.replicate 144 8 ++ List.replicate 112 9 ++ List.replicate 24 7 ++ List.replicate 8 8

/-- The code of literals and length symbols in a block without a code of its own. -/
def fixedLiterals : PrefixCode := .ofLengths fixedLengths

/-- The code of distance symbols in a block without a code of its own. -/
def fixedDistances : PrefixCode := .ofLengths (List.replicate 32 5)

/-- The bits of a literal or length symbol in the fixed code. -/
def fixedBits (symbol : Nat) : List Bool :=
  let code (width value : Nat) := (Bits.ofNat width value).reverse
  if symbol < 144 then code 8 (0x30 + symbol)
  else if symbol < 256 then code 9 (0x190 + (symbol - 144))
  else if symbol < 280 then code 7 (symbol - 256)
  else code 8 (0xc0 + (symbol - 280))

end Deflate

end PointCloud
