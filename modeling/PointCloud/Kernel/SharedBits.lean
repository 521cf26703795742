import PointCloud.Bytes.Bits
import PointCloud.Bytes.Order
import PointCloud.Capacity

/-!
# Shared leading bits

Neighbouring coordinates agree in their high bits. A column is stored as the number of low bits in
which its words differ, the word they share with those bits cleared, and the low bits of every
word, packed without gaps.

Main results:

* `SharedBits.length_pack` — packed words fill `width * count` bits, rounded up to bytes;
* `SharedBits.unpack_pack` — unpacking gives the low bits of the packed words.
-/

namespace PointCloud

namespace SharedBits

/-! ## Analysis -/

/-- The bits that a number needs. -/
def bitLength (n : Nat) : Nat := if n = 0 then 0 else n.log2 + 1

/-- The bits, of `width`, that every word of a column has set. -/
def everywhere (width : Nat) : List Nat → Nat
  | [] => 0
  | w :: ws => ws.foldl (· &&& ·) (w % 2 ^ width)

/-- The bits that some word of a column has set; of the first word only those of `width`. -/
def somewhere (width : Nat) : List Nat → Nat
  | [] => 0
  | w :: ws => ws.foldl (· ||| ·) (w % 2 ^ width)

/-- The low bits, of `width`, in which the words of a column differ: up to the highest that some
word has set and another has not. There are none for an empty column. -/
def unique (width : Nat) (words : List Nat) : Nat :=
  bitLength ((everywhere width words ^^^ somewhere width words) % 2 ^ width)

/-- The word that a column shares, with the bits that differ cleared. -/
def leadingWord (width : Nat) (words : List Nat) : Nat :=
  everywhere width words / 2 ^ unique width words * 2 ^ unique width words

/-- The leading bits, of `width`, that the words of a column share. -/
def shared (width : Nat) (words : List Nat) : Nat := width - unique width words

/-- The length of the encoding of a column of words of `size` bytes. -/
def encodedSize (size : Nat) (words : List Nat) : Nat :=
  1 + size + (words.length * unique (8 * size) words + 7) / 8

/-! ## Packing -/

/-- The low `width` bits of every word, packed into bytes. -/
def pack (width : Nat) (words : List Nat) : Bytes := Bits.toBytes (words.flatMap (Bits.ofNat width))

/-- The first `count` numbers of `width` bits packed in a byte string. -/
def unpack (width count : Nat) (bytes : Bytes) : List Nat :=
  (cut width count (Bits.ofBytes bytes)).map Bits.toNat

/-- The encoding of a column of words of `size` bytes. A word with bits outside the shared word and
the low bits is refused, unless no bits differ. -/
def encode (size : Nat) (order : ByteOrder) (words : List Nat) : Except Error Bytes :=
  let unique := unique (8 * size) words
  let leading := leadingWord (8 * size) words
  let header := UInt8.ofNat unique :: order.bytes size leading
  -- With no bits to pack, no word is looked at again.
  if unique = 0 then .ok header
  else
    match words.find? fun w => w / 2 ^ unique * 2 ^ unique ≠ leading with
    | some w => .error (.wordTooWide w unique)
    | none => .ok (header ++ pack unique words)

/-- The column of `count` words that an encoding holds. -/
def decode (size : Nat) (order : ByteOrder) (count : Nat) (bytes : Bytes) :
    Except Error (List Nat) := do
  match bytes with
  | [] => throw (.kernel .sharedBits)
  | width :: bytes =>
    let width := width.toNat
    if 8 * size < width || bytes.length < size then throw (.kernel .sharedBits)
    let leading := order.word (bytes.take size)
    let packed := bytes.drop size
    -- The count of packed bits has to fit sixty-four bits.
    if 2 ^ 64 ≤ count * width || packed.length ≠ (count * width + 7) / 8 then
      throw (.kernel .sharedBits)
    reserve (8 * count)
    return (unpack width count packed).map (leading ||| ·)

/-! ## Laws -/

private theorem length_bits (width : Nat) (words : List Nat) :
    (words.flatMap (Bits.ofNat width)).length = words.length * width := by
  simp [List.length_flatMap, List.map_const']

theorem length_pack (width : Nat) (words : List Nat) :
    (pack width words).length = (words.length * width + 7) / 8 := by
  rw [pack, Bits.length_toBytes, length_bits]

theorem unpack_pack (width : Nat) (words : List Nat) :
    unpack width words.length (pack width words) = words.map (· % 2 ^ width) := by
  obtain ⟨padding, h⟩ := Bits.exists_ofBytes_toBytes (words.flatMap (Bits.ofNat width))
  rw [unpack, pack, h]
  have hcut := cut_flatten_append width (words.map (Bits.ofNat width)) padding (by simp)
  rw [List.length_map, ← List.flatMap_def] at hcut
  rw [hcut, List.map_map]
  exact List.map_congr_left fun w _ => Bits.toNat_ofNat width w

end SharedBits

end PointCloud
