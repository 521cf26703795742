import PointCloud.Kernel.Zstd.StateTable

/-!
# Distributions

A distribution is described in few bits, count by count: what is left to share out bounds the next
count, and so the bits that it takes. After a symbol without states, the symbols without states that
follow it are only counted.

For given symbols the distribution follows their frequencies: the count of states of a symbol is its
share of all states, rounded up if the part that is cut off is great enough, and what is left over
goes to the most frequent symbol, or is taken from it.
-/

namespace PointCloud

namespace Zstd

namespace Distribution

/-- The least `log` of a description. -/
def leastLog : Nat := 5

/-- With `left - 1` states left, a count is written as one more. The numbers up to `left` take the
bits of `left`, but as many of them as there are unused numbers of that width take one bit less. -/
def shortNumbers (left : Nat) : Nat := 2 ^ (left.log2 + 1) - 1 - left

/-! ## Writing -/

/-- The bits of a count, with `left - 1` states left. -/
def countBits (left : Nat) (count : Int) : List Bool :=
  let n := (count + 1).toNat
  let width := left.log2 + 1
  let n := if 2 ^ left.log2 ≤ n then n + shortNumbers left else n
  Bits.ofNat (if n < shortNumbers left then width - 1 else width) n

/-- The bits of the count of symbols without states after the first: three at a time, then the
rest. -/
def runBits (run : Nat) : List Bool :=
  List.replicate (2 * (run / 3)) true ++ Bits.ofNat 2 (run % 3)

/-- The bits of counts, with `left - 1` states left. -/
def countsBits (left : Nat) : List Int → List Bool
  | [] => []
  | count :: counts =>
    if left ≤ 1 then []
    else if count = 0 then
      let run := (counts.takeWhile (· = 0)).length
      countBits left 0 ++ runBits run ++ countsBits left (counts.drop run)
    else countBits left count ++ countsBits (left - count.natAbs) counts
  termination_by counts => counts.length
  decreasing_by all_goals simp; try omega

/-- The description of a distribution. -/
def toBytes (d : Distribution) : Bytes :=
  Bits.toBytes (Bits.ofNat 4 (d.log - leastLog) ++ countsBits (d.size + 1) d.counts)

/-! ## Reading -/

/-- Reads a number of `width` bits, lowest bit first. -/
def takeBits? (width : Nat) (bits : List Bool) : Option (Nat × List Bool) :=
  let taken := bits.take width
  if taken.length < width then none else some (Bits.toNat taken, bits.drop width)

/-- Reads a count, with `left - 1` states left. -/
def takeCount? (left : Nat) (bits : List Bool) : Option (Int × List Bool) := do
  let width := left.log2 + 1
  let (low, rest) ← takeBits? (width - 1) bits
  if low < shortNumbers left then return (low - 1, rest)
  let (n, rest) ← takeBits? width bits
  let n := if 2 ^ left.log2 ≤ n then n - shortNumbers left else n
  return (n - 1, rest)

/-- Reads the count of symbols without states after the first. -/
def takeRun? : List Bool → Option (Nat × List Bool)
  | true :: true :: bits => (takeRun? bits).map fun (run, rest) => (run + 3, rest)
  | a :: b :: bits => some (a.toNat + 2 * b.toNat, bits)
  | _ => none

/-- Reads counts until no state is left, at most `steps` of them. -/
def takeCounts? : Nat → Nat → List Bool → Option (List Int × List Bool)
  | 0, _, _ => none
  | steps + 1, left, bits => do
    if left ≤ 1 then return ([], bits)
    let (count, bits) ← takeCount? left bits
    if count = 0 then
      let (run, bits) ← takeRun? bits
      let (counts, bits) ← takeCounts? steps left bits
      return (List.replicate (run + 1) 0 ++ counts, bits)
    else
      let (counts, bits) ← takeCounts? steps (left - count.natAbs) bits
      return (count :: counts, bits)

/-- Reads a description of at most `symbols` symbols and a `log` of at most `logLimit`, with the
bytes after it. -/
def read? (logLimit symbols : Nat) (bytes : Bytes) : Option (Distribution × Bytes) := do
  let bits := Bits.ofBytes bytes
  let (extra, rest) ← takeBits? 4 bits
  let log := leastLog + extra
  guard (log ≤ logLimit)
  let (counts, rest) ← takeCounts? (symbols + 1) (2 ^ log + 1) rest
  guard (counts.length ≤ symbols)
  return (⟨log, counts⟩, bytes.drop ((bits.length - rest.length + 7) / 8))

/-! ## Frequencies -/

/-- How often every symbol up to the greatest occurs. -/
def frequencies (symbols : List Nat) : List Nat :=
  (symbols.foldl (fun counts symbol => counts.modify symbol (· + 1))
    (Array.replicate (symbols.foldl max 0 + 1) 0)).toList

/-- The `log` for `total` symbols, the greatest of them `greatest`: small for few symbols, but with
room for every symbol. -/
def fittingLog (limit margin total greatest : Nat) : Nat :=
  let room := min (total.log2 + 1) (greatest.log2 + 2)
  max leastLog (max room (min limit ((total - 1).log2 - margin)))

/-- For the least shares, the part of a state, in units of two to the power of -20, past which a
share is rounded up. -/
def roundingLimits : List Nat := [0, 473195, 504333, 520860, 550000, 700000, 750000, 830000]

/-- The states of a symbol that occurs `count` times in `total`. -/
def share (log total count : Nat) : Nat :=
  let unit := 2 ^ (62 - log)
  let exact := count * (2 ^ 62 / total)
  let share := exact / unit
  match roundingLimits[share]? with
  | some limit => if limit * (unit / 2 ^ 20) < exact % unit then share + 1 else share
  | none => share

/-- Shares `left` states among symbols that occur `total` times together, a symbol without a count
in proportion to its frequency. `taken` is what was shared before, in units of two to the power of
`log - 62` states. -/
def shareRest (log left total : Nat) : Nat → List (Nat × Option Int) → List Int
  | _, [] => []
  | taken, (_, some count) :: rest => count :: shareRest log left total taken rest
  | taken, (frequency, none) :: rest =>
    let unit := 2 ^ (62 - log)
    let next := taken + frequency * ((unit * left + (unit / 2 - 1)) / total)
    ((next / unit - taken / unit : Nat) : Int) :: shareRest log left total next rest

/-- The distribution in which symbols that are worth less than one and a half states have one state,
and the others share the rest. None if no symbol is left to share. -/
def evened? (log : Nat) (rare : Int) (frequencies : List Nat) : Option Distribution :=
  let total := frequencies.sum
  let settle (limit : Nat) : List (Nat × Option Int) := frequencies.map fun n =>
    (n, if n = 0 then some 0
        else if n ≤ total / 2 ^ log then some rare
        else if n ≤ limit then some 1
        else none)
  let unsettled (settled : List (Nat × Option Int)) : Nat × Nat :=
    (2 ^ log - (settled.filter fun (n, count) => 0 < n && count.isSome).length,
      ((settled.filter (·.2.isNone)).map (·.1)).sum)
  let limit := total * 3 / 2 ^ (log + 1)
  let (left, rest) := unsettled (settle limit)
  let settled := settle (if limit < rest / left then rest * 3 / (left * 2) else limit)
  let (left, rest) := unsettled settled
  if rest = 0 then none else some ⟨log, shareRest log left rest (2 ^ (61 - log) - 1) settled⟩

/-- The distribution for symbols that occur as often as `frequencies` says. A symbol with less than
a state gets `rare`. If the shares are too great to be paid for by the most frequent symbol, they
are evened. -/
def ofFrequencies? (log : Nat) (rare : Int) (frequencies : List Nat) : Option Distribution :=
  let total := frequencies.sum
  let shares : List Int := frequencies.map fun n =>
    if n = 0 then 0 else if n ≤ total / 2 ^ log then rare else share log total n
  let left : Int := 2 ^ log - (shares.map Int.natAbs).sum
  let greatest := shares.foldl max 0
  if -left < greatest / 2 then
    some ⟨log, shares.modify (shares.idxOf greatest) (· + left)⟩
  else evened? log rare frequencies

end Distribution

end Zstd

end PointCloud
