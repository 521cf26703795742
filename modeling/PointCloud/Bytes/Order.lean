import PointCloud.Bytes.Numeral

/-!
# Byte order

A word is the bit pattern of one stored number, read as a natural number. A schema fixes the byte
order in which its words are written; a one-byte marker records the order in serialized data.

Main results:

* `ByteOrder.word_bytes` — reading a written word gives it back modulo `256 ^ size`;
* `ByteOrder.bytes_word` — writing a word that was read gives its bytes back.
-/

namespace PointCloud

/-- The order of the bytes of a word. -/
inductive ByteOrder where
  /-- Most significant byte first. -/
  | big
  /-- Least significant byte first. -/
  | little
  deriving DecidableEq, Repr, Inhabited

namespace ByteOrder

/-- The marker byte that announces the order in serialized data. -/
def marker : ByteOrder → UInt8
  | big => 0
  | little => 1

/-- The order announced by a marker byte. -/
def ofMarker? : UInt8 → Option ByteOrder
  | 0 => some big
  | 1 => some little
  | _ => none

/-- The word held by a byte string. -/
def word (order : ByteOrder) (bytes : Bytes) : Nat :=
  match order with
  | big => Numeral.ofBytes bytes.reverse
  | little => Numeral.ofBytes bytes

/-- The low `size` bytes of a word. -/
def bytes (order : ByteOrder) (size : Nat) (word : Nat) : Bytes :=
  match order with
  | big => (Numeral.toBytes size word).reverse
  | little => Numeral.toBytes size word

@[simp] theorem length_bytes (order : ByteOrder) (size : Nat) (w : Nat) :
    (order.bytes size w).length = size := by
  cases order <;> simp [bytes]

theorem word_lt (order : ByteOrder) (bs : Bytes) : order.word bs < 256 ^ bs.length := by
  cases order
  · simpa [word] using Numeral.ofBytes_lt bs.reverse
  · exact Numeral.ofBytes_lt bs

theorem word_bytes (order : ByteOrder) (size : Nat) (w : Nat) :
    order.word (order.bytes size w) = w % 256 ^ size := by
  cases order <;> simp [word, bytes, Numeral.ofBytes_toBytes]

theorem bytes_word (order : ByteOrder) (bs : Bytes) :
    order.bytes bs.length (order.word bs) = bs := by
  cases order
  · have h := Numeral.toBytes_ofBytes bs.reverse
    simp only [List.length_reverse] at h
    simp [word, bytes, h]
  · exact Numeral.toBytes_ofBytes bs

theorem ofMarker?_marker (order : ByteOrder) : ofMarker? order.marker = some order := by
  cases order <;> rfl

/-- Overwrites the bytes of `buffer` from `offset` on with those of a word. -/
def put (order : ByteOrder) (size : Nat) (word : Nat) (offset : Nat) (buffer : Bytes) : Bytes :=
  buffer.take offset ++ order.bytes size word ++ buffer.drop (offset + size)

end ByteOrder

end PointCloud
