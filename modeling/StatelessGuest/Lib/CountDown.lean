import Mathlib.Algebra.Group.Basic
import Mathlib.Algebra.Group.Nat.Defs
import Mathlib.Data.Nat.Size

/-!
# Loops over the digits of numbers

A multiple of an element, or the sum of two, is computed from the digits of the factors, the highest
one first.

* `Yields x Q`: the program `x` returns, and what it returns has `Q`.
* `countDown`: the loop.
* `countDown_yields`: what its rounds keep.
* `smul_digits`, `smul_bits`: a multiple with one digit more.
-/

namespace StatelessGuest.Lib

variable {ε α β : Type}

/-- The program returns a value with `Q`. -/
def Yields (x : Except ε α) (Q : α → Prop) : Prop := ∃ a, x = .ok a ∧ Q a

namespace Yields

variable {x : Except ε α} {Q R : α → Prop} {a : α}

theorem pure (h : Q a) : Yields (Pure.pure a : Except ε α) Q := ⟨a, rfl, h⟩

theorem ok (h : Q a) : Yields (.ok a : Except ε α) Q := ⟨a, rfl, h⟩

theorem bind {f : α → Except ε β} {P : β → Prop} (hx : Yields x Q)
    (hf : ∀ a, Q a → Yields (f a) P) : Yields (x >>= f) P := by
  obtain ⟨a, hrun, ha⟩ := hx
  rw [hrun]
  exact hf a ha

theorem imp (hx : Yields x Q) (h : ∀ a, Q a → R a) : Yields x R := by
  obtain ⟨a, hrun, ha⟩ := hx
  exact ⟨a, hrun, h a ha⟩

/-- A branch of the program. -/
theorem ite {p : Prop} [Decidable p] {y : Except ε α} (hx : p → Yields x Q)
    (hy : ¬p → Yields y Q) : Yields (if p then x else y) Q := by
  split
  · next h => exact hx h
  · next h => exact hy h

end Yields

/-- `while i > 0`, with the round for `i` after the decrement. -/
def countDown (step : Nat → α → Except ε α) : Nat → α → Except ε α
  | 0, a => .ok a
  | i + 1, a => do
    let a ← step i a
    countDown step i a

/-- `I i` holds when the rounds from `i` on are done. -/
theorem countDown_yields {step : Nat → α → Except ε α} {I : Nat → α → Prop} {n : Nat} {a : α}
    (hstep : ∀ i < n, ∀ a, I (i + 1) a → Yields (step i a) (I i)) (ha : I n a) :
    Yields (countDown step n a) (I 0) := by
  induction n generalizing a with
  | zero => exact .ok ha
  | succ n ih =>
    rw [countDown]
    refine (hstep n (Nat.lt_succ_self n) a ha).bind fun b hb => ?_
    exact ih (fun i hi => hstep i (Nat.lt_succ_of_lt hi)) hb

section

variable {G : Type} [AddCommMonoid G]

/-- One digit more, to the base `b`. -/
theorem smul_digits (b k i : Nat) (A : G) :
    (k / b ^ i) • A = b • ((k / b ^ (i + 1)) • A) + (k / b ^ i % b) • A := by
  rw [← mul_nsmul', ← add_nsmul, pow_succ, ← Nat.div_div_eq_div_mul, Nat.div_add_mod]

/-- One bit more. -/
theorem smul_bits (k i : Nat) (A : G) :
    (k / 2 ^ i) • A = (k / 2 ^ (i + 1)) • A + (k / 2 ^ (i + 1)) • A +
      if k.testBit i then A else 0 := by
  rw [smul_digits, two_nsmul, Nat.testBit_eq_decide_div_mod_eq]
  rcases Nat.mod_two_eq_zero_or_one (k / 2 ^ i) with h | h
  · rw [h, zero_nsmul]
    rfl
  · rw [h, one_nsmul]
    rfl

/-- No digits are left above the size of the number. -/
theorem smul_none {k i : Nat} (h : Nat.size k ≤ i) (A : G) : (k / 2 ^ i) • A = 0 := by
  rw [Nat.div_eq_of_lt (Nat.size_le.mp h), zero_nsmul]

end

end StatelessGuest.Lib
