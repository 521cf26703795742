import PointCloud.Kernel.Deflate.Code

/-!
# Deflating

A stored stream holds its bytes verbatim. A matched stream is one block in the fixed code in which
repeats of three bytes or more, within a window, are copies. Repeats are taken greedily: of the
latest places where the same bytes may have begun, the one that agrees longest, and the nearest of
equals.

The search only proposes copies; whoever uses a matched stream checks what it inflates to.
-/

namespace PointCloud

namespace Deflate

/-! ## Stored streams -/

/-- The greatest length of a stored block. -/
def storedLimit : Nat := 65535

/-- One stored block, padded to whole bytes. -/
def storedBlock (final : Bool) (bytes : Bytes) : Bytes :=
  (if final then 1 else 0) :: Numeral.toBytes 2 bytes.length ++
    Numeral.toBytes 2 (storedLimit - bytes.length) ++ bytes

/-- The blocks of a stored stream: `fuller` full ones and a final one. -/
def storedBlocks : Nat → Bytes → Bytes
  | 0, bytes => storedBlock true bytes
  | fuller + 1, bytes =>
    storedBlock false (bytes.take storedLimit) ++ storedBlocks fuller (bytes.drop storedLimit)

/-- A stored stream. -/
def stored (bytes : Bytes) : Bytes := storedBlocks ((bytes.length - 1) / storedLimit) bytes

/-! ## Matched streams -/

/-- A step of the output: one byte, or a copy of earlier output. -/
inductive Token where
  | literal (byte : UInt8)
  | copy (length distance : Nat)
  deriving DecidableEq, Repr

/-- How far back repeats are looked for. -/
def window : Nat := 32768

/-- The greatest length of a copy. -/
def copyLimit : Nat := 258

/-- How many earlier places are compared with a place, at most. -/
def patience : Nat := 64

/-- How many bytes agree from two places on, at most `limit`. -/
def agreement (data : Array UInt8) (i j : Nat) : Nat → Nat
  | 0 => 0
  | limit + 1 =>
    if j < data.size && data[i]? == data[j]? then 1 + agreement data (i + 1) (j + 1) limit else 0

/-- The places that have been passed, by a hash of the three bytes that begin there, the latest
first. -/
abbrev Places := Array (List Nat)

namespace Places

/-- The count of hashes. -/
def hashes : Nat := 2 ^ 14

/-- No places. -/
def empty : Places := Array.replicate hashes []

/-- The hash of the three bytes that begin at a place. -/
def hash (data : Array UInt8) (i : Nat) : Nat :=
  let byte (k : Nat) := (data.getD (i + k) 0).toNat
  (byte 0 + 37 * byte 1 + 1021 * byte 2) % hashes

/-- The places where the same three bytes may have begun as at a place. -/
def like (places : Places) (data : Array UInt8) (i : Nat) : List Nat :=
  places.getD (hash data i) []

/-- Passes `count` places from `i` on. -/
def pass (data : Array UInt8) : Nat → Nat → Places → Places
  | 0, _, places => places
  | count + 1, i, places => pass data count (i + 1) (places.modify (hash data i) (i :: ·))

end Places

/-- The longest repeat at place `i`, as length and distance, beside the best one so far, among the
first `steps` of some earlier places. -/
def longestRepeat (data : Array UInt8) (i : Nat) : Nat → List Nat → Nat × Nat → Nat × Nat
  | steps + 1, j :: earlier, best =>
    if window < i - j || copyLimit ≤ best.1 then best
    else
      let length := agreement data j i copyLimit
      longestRepeat data i steps earlier (if best.1 < length then (length, i - j) else best)
  | _, _, best => best

/-- The tokens of the bytes from place `i` on, at most `steps` of them. -/
def tokens (data : Array UInt8) : Nat → Nat → Places → List Token
  | 0, _, _ => []
  | steps + 1, i, places =>
    match data[i]? with
    | none => []
    | some byte =>
      let (length, distance) := longestRepeat data i patience (places.like data i) (0, 0)
      if length < 3 then .literal byte :: tokens data steps (i + 1) (.pass data 1 i places)
      else .copy length distance :: tokens data steps (i + length) (.pass data length i places)

/-- The bits of a token in the fixed code. -/
def Token.bits : Token → List Bool
  | literal byte => fixedBits byte.toNat
  | copy length distance =>
    let (lengthPlace, lengthExtra) := symbolOf lengthTable length
    let (distancePlace, distanceExtra) := symbolOf distanceTable distance
    fixedBits (endOfBlock + 1 + lengthPlace) ++ lengthExtra ++
      (Bits.ofNat 5 distancePlace).reverse ++ distanceExtra

/-- A matched stream. -/
def matched (bytes : Bytes) : Bytes :=
  let body := (tokens bytes.toArray bytes.length 0 .empty).flatMap Token.bits
  Bits.toBytes ([true, true, false] ++ body ++ fixedBits endOfBlock)

end Deflate

end PointCloud
