import PointCloud.Bytes.Order
import PointCloud.Capacity
import PointCloud.Kernel.Varint

/-!
# Run-length streams

A column of words is stored as the count of its runs, four bytes wide, and for each run its word
followed by its length as a variable-length integer. Reading checks every length against the words
still expected, so no stream can make the column longer than announced.

Main results:

* `RunLength.expand_runs` — the runs of a column spell the column;
* `RunLength.length_pos_of_mem_runs` — no run of a column is empty;
* `RunLength.length_runs` — there are as many runs as are counted.
-/

namespace PointCloud

namespace RunLength

/-- A word that occurs `length` times in a row. -/
structure Run where
  word : Nat
  length : Nat
  deriving DecidableEq, Repr

/-- The count of the runs of a column: one, and one more for every word that differs from the word
before it. -/
def countRuns (words : List Nat) : Nat :=
  match words with
  | [] => 0
  | _ :: later => 1 + (words.zip later).countP fun pair => pair.1 ≠ pair.2

/-- The runs of a column that goes on with `ws` after a run of `length` times `w`. A run ends where
another word follows, and at the end of the column. -/
def runsFrom (w length : Nat) : List Nat → List Run
  | [] => [⟨w, length⟩]
  | v :: vs => if v = w then runsFrom w (length + 1) vs else ⟨w, length⟩ :: runsFrom v 1 vs

/-- The maximal runs of a column, in order. -/
def runs : List Nat → List Run
  | [] => []
  | w :: ws => runsFrom w 1 ws

/-- The words that runs spell. -/
def expand (rs : List Run) : List Nat := rs.flatMap fun r => List.replicate r.length r.word

/-- The bytes of one run. -/
def Run.bytes (size : Nat) (order : ByteOrder) (r : Run) : Bytes :=
  order.bytes size r.word ++ Varint.write r.length

/-- The stream of a column of words of `size` bytes. -/
def encode (size : Nat) (order : ByteOrder) (words : List Nat) : Except Error Bytes :=
  let count := countRuns words
  if count < 2 ^ 32 then
    .ok (order.bytes 4 count ++ (runs words).flatMap (Run.bytes size order))
  else .error (.kernel (.runLength (.tooManyRuns count)))

/-- Reads `count` runs that together spell at most `room` of the `expected` words, with the room
left and the bytes after them. -/
def readRuns (size : Nat) (order : ByteOrder) (expected : Nat) :
    Nat → Nat → Bytes → Except KernelFault (List Run × Nat × Bytes)
  | 0, room, bytes => .ok ([], room, bytes)
  | count + 1, room, bytes => do
    if bytes.length < size then throw (.runLength .missingValue)
    let word := order.word (bytes.take size)
    let (length, bytes) ← (Varint.read 64 (bytes.drop size)).mapError .varint
    if length = 0 || room < length then throw (.runLength (.runOverflow length expected))
    let (rs, room, bytes) ← readRuns size order expected count (room - length) bytes
    return (⟨word, length⟩ :: rs, room, bytes)

/-- The column of `expected` words that a stream holds. -/
def decode (size : Nat) (order : ByteOrder) (expected : Nat) (bytes : Bytes) :
    Except Error (List Nat) := do
  if bytes.length < 4 then throw (.kernel (.runLength .missingRunCount))
  -- Words are held in eight bytes, whatever their size in the stream.
  reserve (8 * expected)
  let count := order.word (bytes.take 4)
  let (rs, room, rest) ←
    (readRuns size order expected count expected (bytes.drop 4)).mapError .kernel
  if room ≠ 0 then throw (.kernel (.runLength (.wrongCount (expected - room) expected)))
  if !rest.isEmpty then throw (.kernel (.runLength .trailingBytes))
  return expand rs

/-! ## Runs of a column -/

theorem expand_cons (r : Run) (rs : List Run) :
    expand (r :: rs) = List.replicate r.length r.word ++ expand rs := rfl

theorem expand_runsFrom (w length : Nat) (ws : List Nat) :
    expand (runsFrom w length ws) = List.replicate length w ++ ws := by
  induction ws generalizing w length with
  | nil => simp [runsFrom, expand]
  | cons v vs ih =>
    rw [runsFrom]
    split
    · rename_i hv
      rw [ih, hv, List.replicate_succ', List.append_assoc]
      rfl
    · rw [expand_cons, ih]
      rfl

theorem expand_runs (words : List Nat) : expand (runs words) = words := by
  cases words with
  | nil => rfl
  | cons w ws => exact expand_runsFrom w 1 ws

theorem length_pos_of_mem_runsFrom {w length : Nat} {ws : List Nat} {r : Run} (hpos : 0 < length)
    (h : r ∈ runsFrom w length ws) : 0 < r.length := by
  induction ws generalizing w length with
  | nil =>
    rw [runsFrom, List.mem_singleton] at h
    rw [h]
    exact hpos
  | cons v vs ih =>
    rw [runsFrom] at h
    split at h
    · exact ih (Nat.succ_pos length) h
    · rcases List.mem_cons.mp h with rfl | h
      · exact hpos
      · exact ih Nat.one_pos h

theorem length_pos_of_mem_runs {words : List Nat} {r : Run} (h : r ∈ runs words) :
    0 < r.length := by
  cases words with
  | nil => cases h
  | cons w ws => exact length_pos_of_mem_runsFrom Nat.one_pos h

theorem length_runsFrom (w length : Nat) (ws : List Nat) :
    (runsFrom w length ws).length = countRuns (w :: ws) := by
  induction ws generalizing w length with
  | nil => rfl
  | cons v vs ih =>
    rw [runsFrom]
    split
    · rename_i hv
      rw [ih, hv]
      simp [countRuns]
    · rename_i hv
      rw [List.length_cons, ih]
      simp [countRuns, Ne.symm hv, Nat.add_comm]

theorem length_runs (words : List Nat) : (runs words).length = countRuns words := by
  cases words with
  | nil => rfl
  | cons w ws => exact length_runsFrom w 1 ws

end RunLength

end PointCloud
