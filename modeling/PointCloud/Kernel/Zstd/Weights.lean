import PointCloud.Kernel.Zstd.PrefixTable

/-!
# Weights from frequencies

The best prefix code for symbols of given frequencies is a tree that grows from its leaves: the two
least trees are joined until one is left, and the code of a symbol is as long as the symbol is deep.

Codes that are too long are cut. Cut codes take more room than there is, and other codes pay for
that by growing a bit at a time; if they pay too much, cut codes shrink again. Room is counted in
units of the longest code.
-/

namespace PointCloud

namespace Zstd

/-! ## Trees -/

/-- A tree of symbols. -/
structure Grove where
  /-- How often the symbols of the tree occur. -/
  frequency : Nat
  /-- The symbols with their depths. -/
  depths : List (Nat × Nat)
  deriving Repr

namespace Grove

/-- The tree of one symbol. -/
def leaf (frequency symbol : Nat) : Grove := ⟨frequency, [(symbol, 0)]⟩

/-- Joins two trees. -/
def join (a b : Grove) : Grove where
  frequency := a.frequency + b.frequency
  depths := (a.depths ++ b.depths).map fun (symbol, depth) => (symbol, depth + 1)

/-- Takes the least tree from two lists in ascending order: leaves, and trees that were joined. Of
equals a joined one is taken. -/
def takeLeast? : List Grove → List Grove → Option (Grove × List Grove × List Grove)
  | [], [] => none
  | leaf :: leaves, [] => some (leaf, leaves, [])
  | [], tree :: trees => some (tree, [], trees)
  | leaf :: leaves, tree :: trees =>
    if leaf.frequency < tree.frequency then some (leaf, leaves, tree :: trees)
    else some (tree, leaf :: leaves, trees)

/-- Joins the two least trees until one is left, at most `steps` times. -/
def grow? : Nat → List Grove → List Grove → Option Grove
  | 0, leaves, trees => (takeLeast? leaves trees).map (·.1)
  | steps + 1, leaves, trees => do
    let (a, leaves, trees) ← takeLeast? leaves trees
    match takeLeast? leaves trees with
    | none => return a
    | some (b, leaves, trees) => grow? steps leaves (trees ++ [a.join b])

end Grove

/-! ## Lengths -/

/-- The lengths of the codes of symbols, the most frequent symbol first. -/
structure CodeLengths where
  /-- The length that no code may exceed. -/
  limit : Nat
  frequencies : Array Nat
  lengths : Array Nat

namespace CodeLengths

/-- The room that the codes take. -/
def room (c : CodeLengths) : Nat := (c.lengths.toList.map fun length => 2 ^ (c.limit - length)).sum

/-- The rarest symbol whose code is `spare` bits shorter than the limit. -/
def rarest? (c : CodeLengths) (spare : Nat) : Option Nat :=
  ((List.range c.lengths.size).filter fun i => c.lengths[i]? == some (c.limit - spare)).getLast?

/-- How often a symbol occurs. -/
def frequency (c : CodeLengths) (i : Nat) : Nat := c.frequencies.getD i 0

/-- The greatest number of spare bits, up to a given one, at which a symbol should grow: one with
more spare bits grows only if it is not worth two of the next. -/
def spareBits (c : CodeLengths) : Nat → Nat
  | 0 => 1
  | 1 => 1
  | spare + 2 =>
    match c.rarest? (spare + 2), c.rarest? (spare + 1) with
    | none, _ => spareBits c (spare + 1)
    | some _, none => spare + 2
    | some more, some less =>
      if c.frequency more ≤ 2 * c.frequency less then spare + 2 else spareBits c (spare + 1)

/-- The symbol that should grow if the codes take `excess` more room than there is. -/
def growing? (c : CodeLengths) (excess : Nat) : Option Nat :=
  let spare := c.spareBits (excess.log2 + 1)
  ((List.range c.limit).map (spare + ·)).findSome? c.rarest?

/-- Makes codes grow or shrink until they take all the room there is, at most `steps` times. -/
def balance? : Nat → CodeLengths → Option CodeLengths
  | 0, _ => none
  | steps + 1, c => do
    let whole := 2 ^ c.limit
    if c.room = whole then return c
    if whole < c.room then
      let i ← c.growing? (c.room - whole)
      balance? steps { c with lengths := c.lengths.modify i (· + 1) }
    else
      let i ← c.lengths.findIdx? (· == c.limit)
      balance? steps { c with lengths := c.lengths.modify i (· - 1) }

end CodeLengths

namespace PrefixTable

/-- The depth of the table, and the weights of the symbols, for symbols of the given frequencies and
codes of at most `limit` bits. -/
def weights? (limit : Nat) (frequencies : List Nat) : Option (Nat × List Nat) := do
  let present := (frequencies.zipIdx.filter (0 < ·.1)).mergeSort fun a b => b.1 ≤ a.1
  let leaves := present.reverse.map fun (frequency, symbol) => Grove.leaf frequency symbol
  let tree ← Grove.grow? leaves.length leaves []
  let lengths := present.map fun (_, symbol) => min limit ((tree.depths.lookup symbol).getD 0)
  let balanced ← CodeLengths.balance? (2 ^ (limit + 1))
    ⟨limit, (present.map (·.1)).toArray, lengths.toArray⟩
  let lengthOf := (present.map (·.2)).zip balanced.lengths.toList
  let depth := balanced.lengths.foldl max 0
  let weight (symbol : Nat) : Nat := (lengthOf.lookup symbol).elim 0 (depth + 1 - ·)
  return (depth, (List.range frequencies.length).map weight)

end PrefixTable

end Zstd

end PointCloud
