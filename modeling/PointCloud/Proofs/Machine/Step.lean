import Mathlib
import PointCloud.Bytes.Order
import PointCloud.Proofs.Result

/-!
# Steps of the machine

The readers count with natural numbers and walk over lists, where a difference stops at zero and a
piece past the end is short. A machine does neither: it holds numbers of sixty-four bits, and an
index, a difference, a sum, a product or a shift that is out of range stops it. Here are its steps,
each with the condition under which it is taken, and what it means that a run of the machine follows
a reader: it ends where the reader ends, and is never stopped.

Main results:

* `Machine.Follows.bind` — a run follows a reader if its steps do;
* `Machine.Follows.safe` — a run that follows a reader ends as the reader does, and in range.
-/

namespace PointCloud

namespace Machine

/-- Why a run ends without a value. -/
inductive Stop where
  /-- A step is out of range. -/
  | outOfRange
  /-- The data is refused. -/
  | refused (e : Error)
  deriving DecidableEq, Repr

/-- A run of the machine. -/
abbrev Run (α : Type) := Except Stop α

variable {α β γ δ : Type}

/-- The run that refuses the data. -/
def refuse (e : Error) : Run α := .error (.refused e)

/-- What a reader gives, as the end of a run. -/
def ofReader (x : Except Error α) : Run α := x.mapError .refused

@[simp] theorem refuse_bind (e : Error) (f : α → Run β) : (refuse e >>= f) = refuse e := rfl

@[simp] theorem ofReader_ok (a : α) : ofReader (.ok a) = .ok a := rfl

/-! ## Steps -/

def add (a b : Nat) : Run Nat := if a + b < 2 ^ 64 then .ok (a + b) else .error .outOfRange

def sub (a b : Nat) : Run Nat := if b ≤ a then .ok (a - b) else .error .outOfRange

def mul (a b : Nat) : Run Nat := if a * b < 2 ^ 64 then .ok (a * b) else .error .outOfRange

/-- Shifts a number of `width` bits to the left. Bits past the width are lost. -/
def shiftLeft (width a distance : Nat) : Run Nat :=
  if distance < width then .ok (a <<< distance % 2 ^ width) else .error .outOfRange

/-- Shifts a number of `width` bits to the right. -/
def shiftRight (width a distance : Nat) : Run Nat :=
  if distance < width then .ok (a >>> distance) else .error .outOfRange

/-- The bytes from `first` on, up to `stop`. -/
def slice (bytes : Bytes) (first stop : Nat) : Run Bytes :=
  if first ≤ stop ∧ stop ≤ bytes.length then .ok ((bytes.take stop).drop first)
  else .error .outOfRange

/-- The byte at an index. -/
def index (bytes : Bytes) (i : Nat) : Run UInt8 :=
  match bytes[i]? with
  | some b => .ok b
  | none => .error .outOfRange

/-- Overwrites the byte at an index. -/
def put (bytes : Bytes) (i : Nat) (b : UInt8) : Run Bytes :=
  if i < bytes.length then .ok (bytes.set i b) else .error .outOfRange

/-- Checks the length of pieces that a byte string is to be cut into. -/
def nonzero (size : Nat) : Run Unit := if 0 < size then .ok () else .error .outOfRange

section

variable {a b width distance first stop i size : Nat} {bytes : Bytes}

theorem add_eq (h : a + b < 2 ^ 64) : add a b = .ok (a + b) := if_pos h

theorem sub_eq (h : b ≤ a) : sub a b = .ok (a - b) := if_pos h

theorem mul_eq (h : a * b < 2 ^ 64) : mul a b = .ok (a * b) := if_pos h

theorem shiftLeft_eq (h : distance < width) :
    shiftLeft width a distance = .ok (a * 2 ^ distance % 2 ^ width) := by
  rw [shiftLeft, if_pos h, Nat.shiftLeft_eq]

theorem shiftRight_eq (h : distance < width) :
    shiftRight width a distance = .ok (a / 2 ^ distance) := by
  rw [shiftRight, if_pos h, Nat.shiftRight_eq_div_pow]

theorem slice_eq (h : first ≤ stop) (hstop : stop ≤ bytes.length) :
    slice bytes first stop = .ok ((bytes.drop first).take (stop - first)) := by
  rw [slice, if_pos ⟨h, hstop⟩, List.drop_take]

/-- The bytes up to the end. -/
theorem slice_length_eq (h : first ≤ bytes.length) :
    slice bytes first bytes.length = .ok (bytes.drop first) := by
  rw [slice_eq h (Nat.le_refl _), List.take_of_length_le (by rw [List.length_drop])]

theorem put_eq (h : i < bytes.length) (b : UInt8) : put bytes i b = .ok (bytes.set i b) := if_pos h

theorem nonzero_eq (h : 0 < size) : nonzero size = .ok () := if_pos h

end

/-! ## Following a reader -/

/-- A run ends as a reader does: in a value that stands for the one of the reader, or in the same
refusal. -/
inductive Follows (R : α → β → Prop) : Run α → Except Error β → Prop
  | ok {a : α} {b : β} (h : R a b) : Follows R (.ok a) (.ok b)
  | refused (e : Error) : Follows R (refuse e) (.error e)

namespace Follows

variable {R : α → β → Prop} {S : γ → δ → Prop} {x : Run α} {y : Except Error β}

theorem bind {f : α → Run γ} {g : β → Except Error δ} (h : Follows R x y)
    (hfg : ∀ a b, R a b → Follows S (f a) (g b)) : Follows S (x >>= f) (y >>= g) := by
  cases h with
  | ok h => exact hfg _ _ h
  | refused e => exact .refused e

/-- The rest of a run may use that the reader gave a value. -/
theorem bind_of_eq {f : α → Run γ} {g : β → Except Error δ} (h : Follows R x y)
    (hfg : ∀ a b, y = .ok b → R a b → Follows S (f a) (g b)) : Follows S (x >>= f) (y >>= g) := by
  cases h with
  | ok h => exact hfg _ _ rfl h
  | refused e => exact .refused e

/-- What the reader makes of its value in the end may be there in the run already. -/
theorem bind_right {S : α → δ → Prop} {g : β → Except Error δ} (h : Follows R x y)
    (hg : ∀ a b, y = .ok b → R a b → Follows S (.ok a) (g b)) : Follows S x (y >>= g) := by
  cases h with
  | ok h => exact hg _ _ rfl h
  | refused e => exact .refused e

theorem exists_of_ok {b : β} (h : Follows R x (.ok b)) : ∃ a, x = .ok a ∧ R a b := by
  generalize hy : (Except.ok b : Except Error β) = y at h
  cases h with
  | ok h =>
    cases hy
    exact ⟨_, rfl, h⟩
  | refused e => cases hy

theorem eq_refuse {e : Error} (h : Follows R x (.error e)) : x = refuse e := by
  generalize hy : (Except.error e : Except Error β) = y at h
  cases h with
  | ok h => cases hy
  | refused e =>
    cases hy
    rfl

/-- Both check the same thing and refuse with the same error. -/
theorem check {c c' : Prop} [Decidable c] [Decidable c'] (e : Error) (hc : c ↔ c')
    (h : ¬ c' → Follows R x y) :
    Follows R (if c then refuse e else x) (if c' then .error e else y) := by
  by_cases hc' : c'
  · rw [if_pos (hc.mpr hc'), if_pos hc']
    exact .refused e
  · rw [if_neg (mt hc.mp hc'), if_neg hc']
    exact h hc'

theorem ofReader (x : Except Error α) : Follows Eq (Machine.ofReader x) x := by
  cases x with
  | ok a => exact .ok rfl
  | error e => exact .refused e

theorem mono {R' : α → β → Prop} (h : Follows R x y) (hR : ∀ a b, R a b → R' a b) :
    Follows R' x y := by
  cases h with
  | ok h => exact .ok (hR _ _ h)
  | refused e => exact .refused e

end Follows

/-- A run ends as a reader does, and no step of it is out of range. -/
structure Safe (x : Run α) (y : Except Error α) : Prop where
  eq_ofReader : x = ofReader y
  in_range    : x ≠ .error .outOfRange

/-- A run that follows a reader to the same value is safe. -/
theorem Follows.safe {x : Run α} {y : Except Error α} (h : Follows Eq x y) : Safe x y := by
  cases h with
  | ok h => exact ⟨congrArg Except.ok h, by simp⟩
  | refused e => exact ⟨rfl, by simp [refuse]⟩

end Machine

end PointCloud
