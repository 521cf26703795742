import PointCloud.Bytes.Bits

/-!
# Backward bit strings

Some bit strings are read from their last byte on, highest bit first, so that a writer may lay down
first what a reader needs last. Above the first bit of the string stands one set bit, which says
where the string begins; the zeros above that one only fill the byte.

Here a bit string is the list of its bits in the order of reading, and a number has its highest bit
first.

Main result:

* `Backward.take?_number_append` — a number is read back, and the bits after it are left.
-/

namespace PointCloud

namespace Zstd

namespace Backward

/-- The low `width` bits of a number. -/
def number (width n : Nat) : List Bool := (Bits.ofNat width n).reverse

/-- The number that bits write. -/
def value (bits : List Bool) : Nat := Bits.toNat bits.reverse

/-- Reads a number of `width` bits, with the bits after it. -/
def take? (width : Nat) (bits : List Bool) : Option (Nat × List Bool) :=
  let taken := bits.take width
  if taken.length < width then none else some (value taken, bits.drop width)

/-- The bytes of a bit string. -/
def toBytes (bits : List Bool) : Bytes := Bits.toBytes (bits.reverse ++ [true])

/-- The bit string of bytes. The last byte has to hold the bit that says where the string begins. -/
def ofBytes? (bytes : Bytes) : Option (List Bool) :=
  match (Bits.ofBytes bytes).reverse.dropWhile (!·) with
  | [] => none
  | _ :: bits => if 8 * bytes.length ≤ bits.length + 8 then some bits else none

@[simp] theorem length_number (width n : Nat) : (number width n).length = width := by
  simp [number]

theorem take?_number_append (width n : Nat) (rest : List Bool) :
    take? width (number width n ++ rest) = some (n % 2 ^ width, rest) := by
  simp [take?, value, number, Bits.toNat_ofNat]

end Backward

end Zstd

end PointCloud
