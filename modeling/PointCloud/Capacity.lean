import PointCloud.Error

/-!
# Capacity

Sizes come from headers that nobody has checked yet. A size past the address space is corruption;
one that no machine can set aside fails as an allocation before anything of that size is built.
-/

namespace PointCloud

/-- The length of a buffer of `points` points of `size` bytes. -/
def bufferLength (points size : Nat) : Except Error Nat :=
  if points * size < 2 ^ 64 then .ok (points * size)
  else .error (.corruptPatch (.addressSpace points size))

/-- Sets aside room for `bytes` bytes. -/
def reserve (bytes : Nat) : Except Error Unit :=
  if bytes < 2 ^ 62 then .ok () else .error .allocationFailed

end PointCloud
