import PointCloud.Kernel.CopyBack
import PointCloud.Kernel.Deflate.Code

/-!
# Inflating

A deflate stream is a sequence of blocks: stored bytes, symbols in the fixed code, or symbols in a
code that the block describes first. Inflating stops as soon as there are more than `limit` bytes,
so that a stream that grows without end is never unrolled. A stream that cannot be read to its end
reports how many bytes it gave up to there.
-/

namespace PointCloud

namespace Deflate

/-- A stop, with the count of bytes inflated before it. -/
structure Halt where
  stop : Stop
  produced : Nat
  deriving DecidableEq, Repr

/-- The result of reading a piece that yields no output. -/
def within {α : Type} (out : Array UInt8) (piece : Except Stop α) : Except Halt α :=
  piece.mapError fun stop => ⟨stop, out.size⟩

/-- Inflates the symbols of one block, at most `steps` of them. -/
def inflateSymbols (literals distances : PrefixCode) (limit : Nat) :
    Nat → List Bool → Array UInt8 → Except Halt (List Bool × Array UInt8)
  | 0, _, out => .error ⟨.truncated, out.size⟩
  | steps + 1, bits, out => do
    if limit < out.size then throw ⟨.full bits.length, out.size⟩
    let (symbol, bits) ← within out (literals.read bits)
    if symbol < endOfBlock then
      inflateSymbols literals distances limit steps bits (out.push (UInt8.ofNat symbol))
    else if symbol = endOfBlock then
      return (bits, out)
    else
      let (length, bits) ← within out (takeExtra lengthTable (symbol - endOfBlock - 1) bits)
      let (place, bits) ← within out (distances.read bits)
      let (distance, bits) ← within out (takeExtra distanceTable place bits)
      inflateSymbols literals distances limit steps bits (copyBack distance length out)

/-- Inflates a stored block: from the next byte on, a length, its complement, and that many
bytes. -/
def inflateStored (limit : Nat) (bits : List Bool) (out : Array UInt8) :
    Except Halt (List Bool × Array UInt8) := do
  let bits := bits.drop (bits.length % 8)
  let (length, bits) ← within out (takeBits 16 bits)
  let (complement, bits) ← within out (takeBits 16 bits)
  if length + complement ≠ 0xffff then throw ⟨.corrupt, out.size⟩
  let taken := bits.take (8 * length)
  let more := out ++ (Bits.toBytes taken).toArray
  -- The byte that is too much has not been taken yet when it comes up.
  if limit < more.size then throw ⟨.full (bits.length - 8 * (limit - out.size)), more.size⟩
  if taken.length < 8 * length then throw ⟨.truncated, more.size⟩
  return (bits.drop (8 * length), more)

/-! ## Codes described in a block -/

/-- The order in which the lengths of the code for lengths are written. -/
def lengthOrder : List Nat := [16, 17, 18, 0, 8, 7, 9, 6, 10, 5, 11, 4, 12, 3, 13, 2, 14, 1, 15]

/-- Reads `count` numbers of three bits. -/
def takeTriples : Nat → List Bool → Except Stop (List Nat × List Bool)
  | 0, bits => .ok ([], bits)
  | count + 1, bits => do
    let (n, bits) ← takeBits 3 bits
    let (ns, bits) ← takeTriples count bits
    return (n :: ns, bits)

/-- Reads code lengths until `total` are there, at most `steps` symbols. Symbol 16 repeats the last
length; 17 and 18 stand for zeros. -/
def takeLengths (code : PrefixCode) (total : Nat) :
    Nat → List Bool → List Nat → Except Stop (List Nat × List Bool)
  | 0, _, _ => .error .corrupt
  | steps + 1, bits, lengths => do
    if lengths.length = total then return (lengths, bits)
    if total < lengths.length then throw .corrupt
    let (symbol, bits) ← code.read bits
    if symbol < 16 then
      takeLengths code total steps bits (lengths ++ [symbol])
    else if symbol = 16 then
      let some last := lengths.getLast? | throw .corrupt
      let (n, bits) ← takeBits 2 bits
      takeLengths code total steps bits (lengths ++ List.replicate (3 + n) last)
    else if symbol = 17 then
      let (n, bits) ← takeBits 3 bits
      takeLengths code total steps bits (lengths ++ List.replicate (3 + n) 0)
    else
      let (n, bits) ← takeBits 7 bits
      takeLengths code total steps bits (lengths ++ List.replicate (11 + n) 0)

/-- Reads the two codes that a block describes. -/
def takeCodes (bits : List Bool) : Except Stop (PrefixCode × PrefixCode × List Bool) := do
  let (moreLiterals, bits) ← takeBits 5 bits
  let (moreDistances, bits) ← takeBits 5 bits
  let (moreLengths, bits) ← takeBits 4 bits
  let literalCount := 257 + moreLiterals
  let distanceCount := 1 + moreDistances
  -- The last symbols of both codes are never used.
  if 286 < literalCount || 30 < distanceCount then throw .corrupt
  let (triples, bits) ← takeTriples (4 + moreLengths) bits
  let written := lengthOrder.zip triples
  let lengthCode := PrefixCode.ofLengths
    ((List.range 19).map fun s => (written.lookup s).getD 0)
  if !lengthCode.isComplete then throw .corrupt
  let total := literalCount + distanceCount
  let (lengths, bits) ← takeLengths lengthCode total (total + 1) bits []
  let literals := PrefixCode.ofLengths (lengths.take literalCount)
  let distances := PrefixCode.ofLengths (lengths.drop literalCount)
  if !literals.isUsable || !distances.isUsable then throw .corrupt
  return (literals, distances, bits)

/-! ## Streams -/

/-- Inflates blocks up to the final one, at most `steps` of them, with the bits after it. -/
def inflateBlocks (limit : Nat) :
    Nat → List Bool → Array UInt8 → Except Halt (List Bool × Array UInt8)
  | 0, _, out => .error ⟨.truncated, out.size⟩
  | steps + 1, bits, out => do
    let (final, bits) ← within out (takeBits 1 bits)
    let (kind, bits) ← within out (takeBits 2 bits)
    let (bits, out) ←
      if kind = 0 then inflateStored limit bits out
      else if kind = 1 then
        inflateSymbols fixedLiterals fixedDistances limit (bits.length + 1) bits out
      else if kind = 2 then do
        let (literals, distances, bits) ← within out (takeCodes bits)
        inflateSymbols literals distances limit (bits.length + 1) bits out
      else throw ⟨.corrupt, out.size⟩
    if final = 1 then return (bits, out) else inflateBlocks limit steps bits out

/-- Inflates a stream, with the bytes after it. -/
def inflate (limit : Nat) (bytes : Bytes) : Except Halt (Bytes × Bytes) := do
  let bits := Bits.ofBytes bytes
  let (bits, out) ← inflateBlocks limit (bits.length + 1) bits #[]
  return (out.toList, bytes.drop (bytes.length - bits.length / 8))

end Deflate

end PointCloud
