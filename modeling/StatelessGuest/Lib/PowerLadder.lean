import Mathlib.Algebra.Group.Nat.Defs
import Mathlib.Data.Nat.Bits

/-!
# Ladders over the bits of a number

A power or a multiple is computed by a loop over the bits of the exponent from the top: a squaring
for each bit after the first one that is set, and a product for each bit that is set.

* `ladder`: the loop over any state.
* `ladder_run`: the state stands for the number read so far.
* `powBits`: powers by squares.
-/

namespace StatelessGuest.Lib

section

variable {S : Type}

/-- The rounds for the bits below `i`; nothing is squared before the first set bit. -/
def ladder (square multiply : S → S) (bit : Nat → Bool) : Nat → Bool → S → S
  | 0, _, s => s
  | i + 1, started, s =>
    let s := if started then square s else s
    if bit i then ladder square multiply bit i true (multiply s)
    else ladder square multiply bit i started s

/-- Only the bits below the first one read matter. -/
theorem ladder_congr (square multiply : S → S) {bit bit' : Nat → Bool} {i : Nat}
    (h : ∀ j < i, bit j = bit' j) (started : Bool) (s : S) :
    ladder square multiply bit i started s = ladder square multiply bit' i started s := by
  induction i generalizing started s with
  | zero => rfl
  | succ i ih =>
    have hrest : ∀ j < i, bit j = bit' j := fun j hj => h j (Nat.lt_succ_of_lt hj)
    rw [ladder, ladder, h i (Nat.lt_succ_self i), ih hrest, ih hrest]

variable {square multiply : S → S} {stands : Nat → S → Prop}

/-- `stands k s` says that the state stands for `k`; here it does for the bits above `i`. -/
theorem ladder_step (hsquare : ∀ k s, stands k s → stands (2 * k) (square s))
    (hmultiply : ∀ k s, stands k s → stands (k + 1) (multiply s)) (n : Nat) {i : Nat}
    {started : Bool} {s : S} (hs : stands (n / 2 ^ i) s)
    (hstarted : started = false → n / 2 ^ i = 0) :
    stands n (ladder square multiply n.testBit i started s) := by
  induction i generalizing started s with
  | zero =>
    rw [pow_zero, Nat.div_one] at hs
    exact hs
  | succ i ih =>
    have hhalf : n / 2 ^ (i + 1) = n / 2 ^ i / 2 := by
      rw [pow_succ, Nat.div_div_eq_div_mul]
    have hbit : n.testBit i = decide (n / 2 ^ i % 2 = 1) := Nat.testBit_eq_decide_div_mod_eq
    rw [hhalf] at hs hstarted
    have hdouble : stands (2 * (n / 2 ^ i / 2)) (if started then square s else s) := by
      cases started with
      | true => exact hsquare _ _ hs
      | false =>
        rw [hstarted rfl] at hs ⊢
        exact hs
    rw [ladder, hbit]
    by_cases hodd : n / 2 ^ i % 2 = 1
    · rw [decide_eq_true hodd, if_pos rfl]
      refine ih ?_ (fun h => Bool.noConfusion h)
      have hadd := hmultiply _ _ hdouble
      rwa [show 2 * (n / 2 ^ i / 2) + 1 = n / 2 ^ i by omega] at hadd
    · rw [decide_eq_false hodd, if_neg Bool.false_ne_true]
      rw [show 2 * (n / 2 ^ i / 2) = n / 2 ^ i by omega] at hdouble
      refine ih hdouble fun h => ?_
      have := hstarted h
      omega

theorem ladder_run (stands : Nat → S → Prop)
    (hsquare : ∀ k s, stands k s → stands (2 * k) (square s))
    (hmultiply : ∀ k s, stands k s → stands (k + 1) (multiply s)) {n bits : Nat} {s : S}
    (hn : n < 2 ^ bits) (hs : stands 0 s) :
    stands n (ladder square multiply n.testBit bits false s) := by
  have hzero : n / 2 ^ bits = 0 := Nat.div_eq_of_lt hn
  refine ladder_step hsquare hmultiply n ?_ fun _ => hzero
  rw [hzero]
  exact hs

end

/-- `a ^ k` for exponents of at most `bits` bits. -/
def powBits {M : Type} [Monoid M] (a : M) (bits k : Nat) : M :=
  ladder (fun s => s * s) (· * a) k.testBit bits false 1

theorem powBits_eq {M : Type} [Monoid M] (a : M) (bits : Nat) {k : Nat} (hk : k < 2 ^ bits) :
    powBits a bits k = a ^ k := by
  refine ladder_run (fun k s => s = a ^ k) ?_ ?_ hk (pow_zero a).symm
  · rintro k s rfl
    rw [Nat.two_mul, pow_add]
  · rintro k s rfl
    rw [pow_succ]

end StatelessGuest.Lib
