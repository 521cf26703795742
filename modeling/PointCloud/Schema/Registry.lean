import PointCloud.Schema.Basic

/-!
# Registries

A registry finds schemas by their identifier. Registering a schema replaces the one of the same
identifier; schemas found before keep what they were.

Main results:

* `Registry.find?_register` — a registered schema is found, and no other identifier is affected;
* `Registry.find?_invalidate` — an invalidated identifier is not found, and no other is affected.
-/

namespace PointCloud

/-- The schemas in use. -/
structure Registry where
  /-- At most one schema for every identifier. -/
  schemas : List Schema := []

namespace Registry

/-- The schema of an identifier. -/
def find? (r : Registry) (pcid : UInt32) : Option Schema := r.schemas.find? fun s => s.pcid == pcid

/-- The schema of an identifier, which has to be registered. -/
def resolve (r : Registry) (pcid : UInt32) : Except Error Schema :=
  match r.find? pcid with
  | some s => .ok s
  | none => .error (.unknownSchema pcid)

/-- Drops the schema of an identifier. -/
def invalidate (r : Registry) (pcid : UInt32) : Registry :=
  ⟨r.schemas.filter fun s => s.pcid != pcid⟩

/-- Registers a schema in place of the one of the same identifier. -/
def register (r : Registry) (s : Schema) : Registry := ⟨s :: (r.invalidate s.pcid).schemas⟩

/-- The identifiers in use, in ascending order. -/
def pcids (r : Registry) : List UInt32 :=
  (r.schemas.map (·.pcid)).mergeSort fun a b => a ≤ b

/-! ## Laws -/

theorem find?_invalidate (r : Registry) (pcid other : UInt32) :
    (r.invalidate pcid).find? other = if other = pcid then none else r.find? other := by
  unfold invalidate find?
  split
  · rename_i h
    subst h
    simp [List.find?_eq_none]
  · rename_i h
    rw [List.find?_filter]
    congr 1
    funext s
    by_cases hs : s.pcid = other <;> simp_all

theorem find?_register (r : Registry) (s : Schema) (pcid : UInt32) :
    (r.register s).find? pcid = if pcid = s.pcid then some s else r.find? pcid := by
  have h := r.find?_invalidate s.pcid pcid
  unfold register find? at *
  by_cases hs : pcid = s.pcid
  · simp [hs]
  · rw [if_neg hs] at h ⊢
    rw [List.find?_cons_of_neg (by simpa using fun e => hs e.symm), h]

end Registry

end PointCloud
