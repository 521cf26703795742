import PointCloud.Binary64.Arithmetic

/-!
# Shortest decimals

The decimals that read back as a given value are those in its rounding interval: up to halfway to
either neighbour, the ends counting when the magnitude bits are even. `shortest` takes the coarsest
power of ten that has a multiple in that interval, which makes the digits as few as possible, and of
two such multiples the one nearer to the value.
-/

namespace PointCloud

open BinaryFormat (binary64)

/-- Which of two multiples is taken when the value lies exactly between them. -/
inductive Tie where
  /-- The even multiple. -/
  | toEven
  /-- The greater multiple. -/
  | up
  deriving DecidableEq, Repr

namespace Decimal

/-- Whether `multiple * 10 ^ power` reads back as the value of magnitude `m`. Both sides are scaled
by twice the unit, and by a power of ten when `power` is negative. -/
def readsBack (m multiple : Nat) (power : Int) : Bool :=
  let point := multiple * 10 ^ power.toNat * (2 * Binary64.unitsPerOne)
  let low := (binary64.units (m - 1) + binary64.units m) * 10 ^ (-power).toNat
  let high := (binary64.units m + binary64.units (m + 1)) * 10 ^ (-power).toNat
  if m % 2 = 0 then low ≤ point ∧ point ≤ high else low < point ∧ point < high

/-- The multiple of `10 ^ power` that reads back as magnitude `m`, if there is one: the nearest. -/
def multiple? (tie : Tie) (m : Nat) (power : Int) : Option Nat :=
  let num := binary64.units m * 10 ^ (-power).toNat
  let den := Binary64.unitsPerOne * 10 ^ power.toNat
  let below := num / den
  let twice := 2 * (num % den)
  let upper : Bool := den < twice ∨ den = twice ∧ (tie = .up ∨ below % 2 = 1)
  match readsBack m below power, readsBack m (below + 1) power with
  | true, true => some (if upper then below + 1 else below)
  | true, false => some below
  | false, true => some (below + 1)
  | false, false => none

/-- Searches the powers of ten downward from `power`, at most `steps` of them. -/
def coarsest (tie : Tie) (m : Nat) : Nat → Int → Nat × Int
  | 0, power => (0, power)
  | steps + 1, power =>
    match multiple? tie m power with
    | some multiple => (multiple, power)
    | none => coarsest tie m steps (power - 1)

/-- The shortest decimal `c * 10 ^ p` that reads back as a positive finite magnitude, as `(c, p)`.
The search begins at the first power of ten above the value and ends at the latest where the value
itself is a multiple. -/
def shortest (tie : Tie) (m : Nat) : Nat × Int :=
  let top := (Nat.toDigits 10 (binary64.units m / Binary64.unitsPerOne)).length
  coarsest tie m (top + binary64.scale + 1) top

end Decimal

end PointCloud
