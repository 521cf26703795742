import PointCloud.Patch.Basic

/-!
# Parts of patches

Points are counted from zero. A range may begin anywhere up to the end of a patch, and is cut off
there.
-/

namespace PointCloud

namespace Patch

variable [Compressors]

/-- The point at an index. -/
def pointAt (p : Patch) (s : Schema) (index : Nat) : Except Error Point := do
  s.checkPcid p.pcid
  if p.count.toNat ≤ index then throw (.indexOutOfRange index p.count.toNat)
  let rows ← p.rows s
  match rows[index]? with
  | some row => return ⟨p.pcid, s.rowBytes row⟩
  | none => throw (.indexOutOfRange index p.count.toNat)

/-- The points from index `first` on, at most `count` of them. -/
def range (p : Patch) (config : Config) (s : Schema) (first count : Nat)
    (target : Option Scheme) : Except Error Patch := do
  s.checkPcid p.pcid
  if p.count.toNat < first then throw (.indexOutOfRange first p.count.toNat)
  let rows ← p.rows s
  ofRows config s ((rows.drop first).take count) (target.getD p.scheme).keepingOrder

end Patch

end PointCloud
