import PointCloud.Bytes.Numeral
import PointCloud.Bytes.Pieces

/-!
# Frame checksums

A frame may end in a checksum of its content: a mixture of its words, in a way that makes every bit
of the content count. Stripes of four words go into four lanes; the lanes are joined, and the words,
half words and bytes that fill no stripe are mixed in one by one. Words are sixty-four bits wide,
their arithmetic drops what does not fit.
-/

namespace PointCloud

namespace Zstd

namespace Checksum

/-! ## Mixing -/

def prime1 : UInt64 := 0x9e3779b185ebca87
def prime2 : UInt64 := 0xc2b2ae3d27d4eb4f
def prime3 : UInt64 := 0x165667b19e3779f9
def prime4 : UInt64 := 0x85ebca77c2b2ae63
def prime5 : UInt64 := 0x27d4eb2f165667c5

/-- Rotates a word by `count` bits, fewer than sixty-four and at least one. -/
def rotate (count w : UInt64) : UInt64 := w <<< count ||| w >>> (64 - count)

/-- The word that at most eight bytes write, lowest first. -/
def word (bytes : Bytes) : UInt64 := UInt64.ofNat (Numeral.ofBytes bytes)

/-- Mixes a word into a lane. -/
def mix (lane w : UInt64) : UInt64 := rotate 31 (lane + w * prime2) * prime1

/-! ## Stripes -/

/-- The lanes before the first stripe. -/
def lanes : List UInt64 := [prime1 + prime2, prime2, 0, 0 - prime1]

/-- Mixes a stripe of thirty-two bytes into the lanes. -/
def mixStripe (lanes : List UInt64) (stripe : Bytes) : List UInt64 :=
  lanes.zipWith mix ((cut 8 4 stripe).map word)

/-- Joins the lanes. -/
def join (lanes : List UInt64) : UInt64 :=
  let sum := ([1, 7, 12, 18].zipWith rotate lanes).foldl (· + ·) 0
  lanes.foldl (fun sum lane => (sum ^^^ mix 0 lane) * prime1 + prime4) sum

/-! ## The rest -/

/-- Mixes in the bytes that fill no stripe: words, half a word, single bytes. -/
def mixRest (sum : UInt64) (bytes : Bytes) : UInt64 :=
  let words := bytes.length / 8
  let sum := ((cut 8 words bytes).map word).foldl
    (fun sum w => rotate 27 (sum ^^^ mix 0 w) * prime1 + prime4) sum
  let bytes := bytes.drop (8 * words)
  let halves := bytes.length / 4
  let sum := ((cut 4 halves bytes).map word).foldl
    (fun sum w => rotate 23 (sum ^^^ w * prime1) * prime2 + prime3) sum
  (bytes.drop (4 * halves)).foldl
    (fun sum b => rotate 11 (sum ^^^ b.toUInt64 * prime5) * prime1) sum

/-- Spreads what is in the high bits over the low ones. -/
def spread (sum : UInt64) : UInt64 :=
  let sum := (sum ^^^ sum >>> 33) * prime2
  let sum := (sum ^^^ sum >>> 29) * prime3
  sum ^^^ sum >>> 32

end Checksum

/-- The checksum of the content of a frame. -/
def checksum (content : Bytes) : UInt64 :=
  let stripes := content.length / 32
  let sum :=
    if stripes = 0 then Checksum.prime5
    else Checksum.join ((cut 32 stripes content).foldl Checksum.mixStripe Checksum.lanes)
  Checksum.spread
    (Checksum.mixRest (sum + UInt64.ofNat content.length) (content.drop (32 * stripes)))

end Zstd

end PointCloud
