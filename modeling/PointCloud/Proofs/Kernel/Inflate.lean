import Mathlib
import PointCloud.Kernel.Zlib
import PointCloud.Proofs.Result

/-!
# Inflating under a limit

A stream is inflated under a limit on what it may give, which grows with what the reader expects.
The limit only stops: a stream that is inflated to its end under one limit is inflated to the same
bytes under every greater one. So a stream has one length at most that it can be read with.

Main results:

* `Result.Extends.bind`, `Result.Extends.check` — steps that give at least the values of others make
  wholes that do;
* `Deflate.inflateBlocks_extends` — a greater limit changes no result;
* `Zlib.expected_unique` — a stream is accepted for one expected length at most.
-/

namespace PointCloud

namespace Result

variable {ε α β : Type}

/-- Whatever value one computation gives, the other gives too. -/
def Extends (x y : Except ε α) : Prop := ∀ a, x = .ok a → y = .ok a

namespace Extends

theorem refl (x : Except ε α) : Extends x x := fun _ h => h

theorem error (e : ε) (y : Except ε α) : Extends (.error e) y := by
  intro a h
  cases h

theorem bind {x y : Except ε α} {f g : α → Except ε β} (h : Extends x y)
    (hfg : ∀ a, Extends (f a) (g a)) : Extends (x >>= f) (y >>= g) := by
  intro b hb
  obtain ⟨a, hx, hf⟩ := bind_eq_ok_iff.mp hb
  exact bind_eq_ok_iff.mpr ⟨a, h a hx, hfg a b hf⟩

/-- A check may refuse less. -/
theorem check {c c' : Prop} [Decidable c] [Decidable c'] {e e' : ε} {x y : Except ε α}
    (hc : c' → c) (h : Extends x y) :
    Extends (if c then .error e else x) (if c' then .error e' else y) := by
  intro a ha
  rw [check_eq_ok_iff] at ha ⊢
  exact ⟨fun hc' => ha.1 (hc hc'), h a ha.2⟩

end Extends

end Result

open Result (Extends)

namespace Deflate

variable {limit limit' : Nat}

theorem inflateSymbols_extends (hle : limit ≤ limit') (literals distances : PrefixCode)
    (steps : Nat) (bits : List Bool) (out : Array UInt8) :
    Extends (inflateSymbols literals distances limit steps bits out)
      (inflateSymbols literals distances limit' steps bits out) := by
  induction steps generalizing bits out with
  | zero => exact .error _ _
  | succ steps ih =>
    unfold inflateSymbols
    simp only [Result.throw_eq, Result.error_bind]
    -- The limit is asked once a symbol; what is read of the stream does not depend on it.
    refine .check (fun h => by omega) (.bind (.refl _) fun x => ?_)
    obtain ⟨symbol, bits⟩ := x
    dsimp only
    split
    · exact ih bits _
    split
    · exact .refl _
    · exact .bind (.refl _) fun _ => .bind (.refl _) fun _ => .bind (.refl _) fun _ => ih _ _

theorem inflateStored_extends (hle : limit ≤ limit') (bits : List Bool) (out : Array UInt8) :
    Extends (inflateStored limit bits out) (inflateStored limit' bits out) := by
  unfold inflateStored
  simp only [Result.throw_eq, Result.error_bind]
  refine .bind (.refl _) fun _ => .bind (.refl _) fun _ => .check id ?_
  exact .check (fun h => by omega) (.refl _)

theorem inflateBlocks_extends (hle : limit ≤ limit') (steps : Nat) (bits : List Bool)
    (out : Array UInt8) :
    Extends (inflateBlocks limit steps bits out) (inflateBlocks limit' steps bits out) := by
  induction steps generalizing bits out with
  | zero => exact .error _ _
  | succ steps ih =>
    unfold inflateBlocks
    refine .bind (.refl _) fun final => .bind (.refl _) fun kind => ?_
    obtain ⟨kind, bits⟩ := kind
    -- Whatever the block was, the blocks after it follow unless it is the final one.
    have hnext : ∀ x : List Bool × Array UInt8,
        Extends (if final.1 = 1 then .ok x else inflateBlocks limit steps x.1 x.2)
          (if final.1 = 1 then .ok x else inflateBlocks limit' steps x.1 x.2) := by
      intro x
      split
      · exact .refl _
      · exact ih _ _
    dsimp only
    split
    · exact .bind (inflateStored_extends hle _ _) hnext
    split
    · exact .bind (inflateSymbols_extends hle _ _ _ _ _) hnext
    split
    · exact .bind (.refl _) fun _ => .bind (inflateSymbols_extends hle _ _ _ _ _) hnext
    · exact .error _ _

theorem inflate_extends (hle : limit ≤ limit') (bytes : Bytes) :
    Extends (inflate limit bytes) (inflate limit' bytes) := by
  unfold inflate
  exact .bind (inflateBlocks_extends hle _ _ _) fun _ => .refl _

end Deflate

namespace Zlib

theorem inflate_extends {limit limit' : Nat} (hle : limit ≤ limit') (bytes : Bytes) :
    Extends (inflate limit bytes) (inflate limit' bytes) := by
  unfold inflate
  split
  · simp only [Result.throw_eq, Result.error_bind]
    exact .check id (.bind (Deflate.inflate_extends hle _) fun _ => .refl _)
  · exact .refl _

/-- What is accepted was inflated to its end, under the limit of the expected length. -/
theorem inflate_of_decode {expected : Nat} {bytes out : Bytes} (h : decode expected bytes = .ok out) :
    inflate (expected / windowSize * windowSize + windowSize) bytes = .ok out ∧
      out.length = expected := by
  unfold decode at h
  obtain ⟨-, -, h⟩ := Result.bind_eq_ok_iff.mp h
  dsimp only at h
  split at h
  · rename_i found hinflate
    split at h
    · rename_i hlength
      obtain rfl := Except.ok.inj h
      exact ⟨hinflate, hlength⟩
    · cases h
  · cases h
  · cases h
  · split at h <;> cases h

/-- A stream is accepted for one expected length at most. -/
theorem expected_unique {expected expected' : Nat} {bytes out out' : Bytes}
    (h : decode expected bytes = .ok out) (h' : decode expected' bytes = .ok out') :
    expected = expected' := by
  wlog hle : expected ≤ expected' generalizing expected expected' out out'
  · exact (this h' h (Nat.le_of_not_le hle)).symm
  obtain ⟨hinflate, hlength⟩ := inflate_of_decode h
  obtain ⟨hinflate', hlength'⟩ := inflate_of_decode h'
  have hlimit : expected / windowSize * windowSize + windowSize ≤
      expected' / windowSize * windowSize + windowSize :=
    Nat.add_le_add_right (Nat.mul_le_mul_right _ (Nat.div_le_div_right hle)) _
  have hsame := inflate_extends hlimit bytes out hinflate
  rw [← hlength, ← hlength', Except.ok.inj (hsame.symm.trans hinflate')]

end Zlib

end PointCloud
