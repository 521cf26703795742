import PointCloud.Numbers

/-!
# Zig-zag numbers

Integers of small magnitude, of either sign, become small natural numbers: zero, minus one, one,
minus two, two, and so on are numbered in that order.

Main results:

* `ZigZag.integer_number`, `ZigZag.number_integer` — the two directions are inverse;
* `ZigZag.number_lt` — integers of sixty-four bits become numbers of sixty-four bits.
-/

namespace PointCloud

namespace ZigZag

/-- The place of an integer in the enumeration. -/
def number (i : Int) : Nat := if 0 ≤ i then 2 * i.toNat else 2 * (-i).toNat - 1

/-- The integer at a place. -/
def integer (n : Nat) : Int := if n % 2 = 0 then (n / 2 : Nat) else -((n / 2 : Nat) : Int) - 1

theorem integer_number (i : Int) : integer (number i) = i := by
  unfold integer number
  split <;> split <;> omega

theorem number_integer (n : Nat) : number (integer n) = n := by
  unfold integer number
  split <;> split <;> omega

theorem number_lt {i : Int} (hlo : -2 ^ 63 ≤ i) (hhi : i < 2 ^ 63) : number i < 2 ^ 64 := by
  unfold number
  split <;> omega

end ZigZag

end PointCloud
