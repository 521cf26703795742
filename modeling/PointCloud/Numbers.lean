/-!
# Numbers

Powers and sums of natural numbers and of integers are those of the core library, whatever is
imported beside this one. So the width of a word means the same wherever it is spoken of.
-/

namespace PointCloud

attribute [scoped instance (20000)] instPowNat
attribute [default_instance 20000] instPowNat

/-- The zero that sums of natural numbers begin with. -/
scoped instance (priority := 20000) zeroNat : Zero Nat := Zero.ofOfNat0

/-- The zero that sums of integers begin with. -/
scoped instance (priority := 20000) zeroInt : Zero Int := Zero.ofOfNat0

end PointCloud
