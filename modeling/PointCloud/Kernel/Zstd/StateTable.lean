import PointCloud.Kernel.Zstd.Backward

/-!
# State tables

A state table codes a sequence of symbols in fractions of a bit. Every state stands for a symbol,
and leads to the state that has a base and the number in the next few bits of a backward bit string;
a symbol that is frequent has many states, and few bits lead on from them.

A table is laid out from the distribution of the symbols: how many of the states each one has.
Symbols too rare for that have the last states, one each. The states of the others are scattered
with a fixed stride.

To write symbols, one goes through them from the last to the first and asks, for each, which of its
states leads to the state that comes next: there is always one.
-/

namespace PointCloud

namespace Zstd

/-- How the states of a table are shared out. -/
structure Distribution where
  /-- The count of states is two to the power of `log`. -/
  log : Nat
  /-- The states of every symbol; -1 marks a rare symbol with a single state. -/
  counts : List Int
  deriving DecidableEq, Repr

namespace Distribution

/-- The count of states. -/
def size (d : Distribution) : Nat := 2 ^ d.log

/-- The rare symbols. -/
def rare (d : Distribution) : List Nat :=
  d.counts.zipIdx.filterMap fun (count, symbol) => if count = -1 then some symbol else none

/-- The other symbols, each as often as it has states. -/
def common (d : Distribution) : List Nat :=
  d.counts.zipIdx.flatMap fun (count, symbol) => List.replicate count.toNat symbol

/-- The states of the symbols that are not rare, in the order in which they are shared out. -/
def places (d : Distribution) : List Nat :=
  let stride := d.size / 2 + d.size / 8 + 3
  ((List.range d.size).map fun k => k * stride % d.size).filter (· < d.size - d.rare.length)

/-- The symbol of every state. -/
def symbols (d : Distribution) : Array Nat :=
  let table := (d.places.zip d.common).foldl
    (fun table (place, symbol) => table.setIfInBounds place symbol) (Array.replicate d.size 0)
  d.rare.zipIdx.foldl
    (fun table (symbol, i) => table.setIfInBounds (d.size - 1 - i) symbol) table

end Distribution

/-- A state of a table. -/
structure State where
  symbol : Nat
  /-- How many bits lead to the next state. -/
  bits : Nat
  /-- The least state that comes next. -/
  base : Nat
  deriving DecidableEq, Repr, Inhabited

namespace State

/-- The bits that lead from a state to the next. -/
def toward (s : State) (next : Nat) : List Bool := Backward.number s.bits (next - s.base)

/-- Whether some bits lead from a state to the next. -/
def reaches (s : State) (next : Nat) : Bool := s.base ≤ next && next < s.base + 2 ^ s.bits

end State

/-- A table of states. -/
structure StateTable where
  /-- The bits of the number of a state. -/
  log : Nat
  states : Array State
  deriving DecidableEq, Repr

namespace StateTable

/-- The table with a single state. -/
def single (symbol : Nat) : StateTable := ⟨0, #[⟨symbol, 0, 0⟩]⟩

/-- The states of symbols, given how many states of each symbol, and how many before that, there
are. The states of one symbol share the next states evenly, up to a factor of two. -/
def statesOf (log : Nat) : List Nat → Array Nat → List State
  | [], _ => []
  | symbol :: symbols, ranks =>
    let rank := ranks.getD symbol 1
    let bits := log - rank.log2
    ⟨symbol, bits, rank * 2 ^ bits - 2 ^ log⟩ ::
      statesOf log symbols (ranks.setIfInBounds symbol (rank + 1))

/-- The table of a distribution. -/
def ofDistribution (d : Distribution) : StateTable :=
  let ranks := (d.counts.map Int.natAbs).toArray
  ⟨d.log, (statesOf d.log d.symbols.toList ranks).toArray⟩

/-! ## Reading -/

/-- Reads the first state. -/
def start? (t : StateTable) (bits : List Bool) : Option (State × List Bool) := do
  let (n, bits) ← Backward.take? t.log bits
  return (← t.states[n]?, bits)

/-- Reads the state after a state. -/
def next? (t : StateTable) (s : State) (bits : List Bool) : Option (State × List Bool) := do
  let (n, bits) ← Backward.take? s.bits bits
  return (← t.states[s.base + n]?, bits)

/-! ## Writing -/

/-- The state in which a sequence may end with a symbol. -/
def last? (t : StateTable) (symbol : Nat) : Option Nat :=
  t.states.findIdx? fun s => s.symbol == symbol

/-- The state of a symbol that leads to the next state, and the bits that lead there. -/
def before? (t : StateTable) (symbol next : Nat) : Option (Nat × List Bool) := do
  let i ← t.states.findIdx? fun s => s.symbol == symbol && s.reaches next
  return (i, (← t.states[i]?).toward next)

end StateTable

end Zstd

end PointCloud
