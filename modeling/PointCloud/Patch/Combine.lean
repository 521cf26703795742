import PointCloud.Patch.Basic
import PointCloud.Repeats

/-!
# Combining patches

Patches of one schema are joined in order, or one is cut down to the bounds of another. Unless a
scheme is asked for, the result takes the scheme of the patch with the fewest payload bytes per
point, the first of equals; if a patch is empty, that of the first. Joined patches keep the order of
their points, so they are never grouped.
-/

namespace PointCloud

namespace Patch

variable [Compressors]

/-! ## The scheme of a result -/

/-- The payload bytes per point, infinity without points. -/
def density (p : Patch) : Binary64 :=
  if p.isEmpty then .infinity false
  else Binary64.ofNat p.payload.length / .ofNat p.count.toNat

/-- The scheme that the result of several patches takes by itself. -/
def preferredScheme (first : Patch) (rest : List Patch) : Scheme :=
  if (first :: rest).any isEmpty then first.scheme
  else (rest.foldl (fun best p => if p.density.lt best.density then p else best) first).scheme

/-! ## Joining -/

/-- The points of patches, joined in order. -/
def joinedRows (s : Schema) (patches : List Patch) : Except Error (List Row) := do
  let parts ← patches.mapM (·.rows s)
  return parts.flatten

/-- Joins patches in order. -/
def merge (config : Config) (s : Schema) (patches : List Patch) (target : Option Scheme) :
    Except Error Patch := do
  match patches with
  | [] => throw .emptyPatchList
  | first :: rest =>
    patches.forM fun p => s.checkPcid p.pcid
    -- Also a scheme that is asked for gives way if it groups points.
    let scheme := (target.getD (preferredScheme first rest)).keepingOrder
    reserve ((patches.map fun p => p.count.toNat * s.size).sum)
    let rows ← joinedRows s patches
    ofRows config s rows scheme

/-- The points of one patch and then of another. -/
def union (a b : Patch) (config : Config) (s : Schema) (target : Option Scheme) :
    Except Error Patch := merge config s [a, b] target

/-! ## Cutting down -/

/-- The points of one patch that lie in the bounds of another. Patches whose bounds have no place in
common have no such points, and neither is decoded. -/
def intersection (a b : Patch) (config : Config) (s : Schema) (target : Option Scheme) :
    Except Error Patch := do
  s.checkPcid a.pcid
  s.checkPcid b.pcid
  let scheme := target.getD (preferredScheme a [b])
  -- Only the bounds of the second patch count: its points are never read.
  if !a.bounds.intersects b.bounds then ofRows config s [] scheme
  else
    let rows ← a.rows s
    ofRows config s (filterRepeats (fun row => b.bounds.contains (s.values row)) rows) scheme

end Patch

end PointCloud
