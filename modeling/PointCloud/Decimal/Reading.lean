import PointCloud.Binary64.Arithmetic

/-!
# Reading decimals

A decimal is read by scaling: its coefficient is rounded, and then multiplied by a power of ten or
divided by powers of ten, each step rounded for itself. The value is next to the nearest one rather
than the nearest one, and a decimal close to the largest value may pass it. The work is bounded by a
few steps whatever the exponent, since zero is reached soon.
-/

namespace PointCloud

namespace Binary64

/-- The exponent of the greatest power of ten that is finite. -/
def greatestPower : Nat := 308

/-- The value nearest to `10 ^ n`. -/
def powerOfTen (n : Nat) : Binary64 := ofNat (10 ^ n)

/-- Divides by `10 ^ n`, in steps of the greatest power. A zero stays what it is. -/
def dropPlaces (x : Binary64) (n : Nat) : Binary64 :=
  if n ≤ greatestPower then x / powerOfTen n
  else if x.isZero then x
  else dropPlaces (x / powerOfTen greatestPower) (n - greatestPower)
termination_by n
decreasing_by simp only [greatestPower] at *; omega

/-- Multiplies by `10 ^ n`; none past the largest value. A zero stays what it is. -/
def addPlaces? (x : Binary64) (n : Nat) : Option Binary64 :=
  if n ≤ greatestPower then
    let product := x * powerOfTen n
    if product.isFinite then some product else none
  else if x.isZero then some x
  else none

/-- The value of `coefficient * 10 ^ exponent` with the given sign; none past the largest value. -/
def ofDecimal? (negative : Bool) (coefficient : Nat) (exponent : Int) : Option Binary64 :=
  let x := ofNat coefficient
  let scaled :=
    if exponent < 0 then some (x.dropPlaces exponent.natAbs) else x.addPlaces? exponent.natAbs
  scaled.map fun x => if negative then -x else x

end Binary64

end PointCloud
