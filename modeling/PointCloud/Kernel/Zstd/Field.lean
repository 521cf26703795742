import PointCloud.Bytes.Numeral

/-!
# Fields

A stream is read field by field: some bytes, or the number that they write.

Main result:

* `Zstd.takeBytes?_append` — a field is read exactly as it was written.
-/

namespace PointCloud

namespace Zstd

/-- Splits off the first `count` bytes; none if there are fewer. -/
def takeBytes? (count : Nat) (bytes : Bytes) : Option (Bytes × Bytes) :=
  let taken := bytes.take count
  if taken.length < count then none else some (taken, bytes.drop count)

/-- Reads a number of `width` bytes, with the bytes after it. -/
def takeNumber? (width : Nat) (bytes : Bytes) : Option (Nat × Bytes) :=
  (takeBytes? width bytes).map fun (digits, rest) => (Numeral.ofBytes digits, rest)

theorem takeBytes?_append {count : Nat} {bytes : Bytes} (h : bytes.length = count) (rest : Bytes) :
    takeBytes? count (bytes ++ rest) = some (bytes, rest) := by
  subst h
  simp [takeBytes?]

end Zstd

end PointCloud
