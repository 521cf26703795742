import PointCloud.Kernel.Zstd.Parts
import PointCloud.Kernel.Zstd.Weights

/-!
# Literals

A block opens with its literals: the bytes that are not copied from earlier output. They are given
verbatim, or as one byte to be repeated, or in a prefix code, which is described in front of them or
is that of the block before. More than a few coded literals are split into four parts.
-/

namespace PointCloud

namespace Zstd

namespace Literals

/-! ## Reading -/

/-- Reads the header of literals that are not coded: their kind and count. -/
def takePlainHeader? (format : Nat) (bytes : Bytes) : Option (Nat × Bytes) :=
  match format with
  | 1 => (takeNumber? 2 bytes).map fun (n, rest) => (n / 16, rest)
  | 3 => (takeNumber? 3 bytes).map fun (n, rest) => (n / 16, rest)
  | _ => (takeNumber? 1 bytes).map fun (n, rest) => (n / 8, rest)

/-- The bits of the two sizes in the header of coded literals. -/
def sizeBits (format : Nat) : Nat :=
  match format with
  | 2 => 14
  | 3 => 18
  | _ => 10

/-- Whether the literals of a block are given verbatim. -/
def isVerbatim (bytes : Bytes) : Bool := (bytes.headD 0).toNat % 4 = 0

/-- Reads the literals of a block, at most `limit` of them, given the prefix code of the block
before, with the prefix code for the next block and the bytes after the literals. -/
def take? (limit : Nat) (table? : Option PrefixTable) (bytes : Bytes) :
    Option (Bytes × Option PrefixTable × Bytes) := do
  let (opening, _) ← takeNumber? 1 bytes
  let format := opening / 4 % 4
  match opening % 4 with
  | 0 =>
    let (count, bytes) ← takePlainHeader? format bytes
    guard (count ≤ limit)
    let (literals, bytes) ← takeBytes? count bytes
    return (literals, table?, bytes)
  | 1 =>
    let (count, bytes) ← takePlainHeader? format bytes
    guard (count ≤ limit)
    let (b, bytes) ← takeNumber? 1 bytes
    return (List.replicate count (UInt8.ofNat b), table?, bytes)
  | kind =>
    let (header, bytes) ← takeNumber? ((4 + 2 * sizeBits format + 7) / 8) bytes
    let count := header / 16 % 2 ^ sizeBits format
    guard (count ≤ limit)
    let (coded, bytes) ← takeBytes? (header / 16 / 2 ^ sizeBits format) bytes
    let (table, coded) ← if kind = 2 then PrefixTable.read? coded else table?.map (·, coded)
    let literals ← if format = 0 then table.decode? count coded else table.decodeParts? count coded
    return (literals, some table, bytes)

/-! ## Writing -/

/-- Literals that are not coded: `kind` is zero for verbatim ones, one for a byte to be repeated. -/
def plain (kind count : Nat) (content : Bytes) : Bytes :=
  let header :=
    if count < 32 then Numeral.toBytes 1 (kind + 8 * count)
    else if count < 4096 then Numeral.toBytes 2 (kind + 4 + 16 * count)
    else Numeral.toBytes 3 (kind + 12 + 16 * count)
  header ++ content

/-- The count of literals from which on they are coded. -/
def codedLeast : Nat := 64

/-- The least count of bytes that coding has to save for `size` bytes. -/
def leastGain (size : Nat) : Nat := size / 64 + 2

/-- The codings of parts, with the lengths of the first three in front. -/
def encodeParts (t : PrefixTable) (literals : Bytes) : Bytes :=
  let parts := (cut ((literals.length + 3) / 4) 4 literals).map t.encode
  ((parts.take 3).flatMap fun part => Numeral.toBytes 2 part.length) ++ parts.flatten

/-- The description of a prefix code and the literals in it; none if that is not worth it. -/
def coded? (literals : Bytes) : Option Bytes := do
  let count := literals.length
  let frequencies := Distribution.frequencies (literals.map UInt8.toNat)
  guard (count / 128 + 4 < frequencies.foldl max 0)
  let limit := Distribution.fittingLog PrefixTable.writtenDepth 1 count (frequencies.length - 1)
  let (depth, weights) ← PrefixTable.weights? limit frequencies
  let description ← PrefixTable.describe? weights
  guard (description.length + 12 < count)
  let table := PrefixTable.ofWeights depth weights
  let body := if count < 256 then table.encode literals else encodeParts table literals
  let coded := description ++ body
  guard (coded.length + leastGain count < count)
  return coded

/-- The literals of a block. -/
def toBytes (literals : Bytes) : Bytes :=
  let count := literals.length
  if count < codedLeast then plain 0 count literals
  else if literals.all (· == literals.headD 0) then plain 1 count (literals.take 1)
  else
    match coded? literals with
    | none => plain 0 count literals
    | some coded =>
      let format :=
        if count < 256 then 0 else if count < 1024 then 1 else if count < 16384 then 2 else 3
      let width := (4 + 2 * sizeBits format + 7) / 8
      Numeral.toBytes width
        (2 + 4 * format + 16 * (count + coded.length * 2 ^ sizeBits format)) ++ coded

end Literals

end Zstd

end PointCloud
