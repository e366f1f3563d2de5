import Mathlib.Algebra.QuadraticAlgebra.Basic
import Mathlib.NumberTheory.LegendreSymbol.QuadraticReciprocity
import Mathlib.Tactic.NormNum.Prime
import StatelessGuest.Lib.Primality
import StatelessGuest.Lib.Residues

/-!
# The fields of BLS12-381

The prime of the base field, the quadratic extension by a square root of -1 and the number `1 + u`
in it, from which the tower goes on.

* `blsP`, `blsP_prime`.
* `Fp2`, `fp2Xi`: the extension and `1 + u`, which is neither a square nor a cube.
-/

namespace StatelessGuest.Curve

open Lib Polynomial

/-- The prime of the base field. -/
def blsP : Nat :=
  0x1a0111ea397fe69a4b1ba7b6434bacd764774b84f38512bf6730d2a0f6b0f6241eabfffeb153ffffb9feffffffffaaab

/-- The number in six words, the least significant one first; a word from `2 ^ 63` on is written as
a negative number. -/
def leWords (w0 w1 w2 w3 w4 w5 : Int) : Nat :=
  (w0 % 2 ^ 64 + 2 ^ 64 * (w1 % 2 ^ 64 + 2 ^ 64 * (w2 % 2 ^ 64 + 2 ^ 64 * (w3 % 2 ^ 64 +
    2 ^ 64 * (w4 % 2 ^ 64 + 2 ^ 64 * (w5 % 2 ^ 64)))))).toNat

/-- `FP_P_LIT`. -/
theorem blsP_eq_words : blsP = leWords (-5044313057631688021) 2210141511517208575
    7435674573564081700 7239337960414712511 5412103778470702295 1873798617647539866 := by
  decide +kernel

theorem certificates :
    certificate 13090036741 2 [421987] ∧
      certificate 3819663927398918131021 2 [13090036741, 755057] ∧
      certificate 1125266252156850182658904441386709967 2 [3819663927398918131021] ∧
      certificate 15778400344354997994418419698270088123916926905054652752758194827714659 2
        [1125266252156850182658904441386709967] ∧
      certificate blsP 2
        [15778400344354997994418419698270088123916926905054652752758194827714659] := by
  decide +kernel

theorem blsP_prime : blsP.Prime := by
  obtain ⟨c34, c72, c120, c234, c381⟩ := certificates
  have h34 := prime_of_certificate 2 _ (List.forall_mem_singleton.mpr (by norm_num)) c34
  have h72 := prime_of_certificate 2 _
    (List.forall_mem_cons.mpr ⟨h34, List.forall_mem_singleton.mpr (by norm_num)⟩) c72
  have h120 := prime_of_certificate 2 _ (List.forall_mem_singleton.mpr h72) c120
  have h234 := prime_of_certificate 2 _ (List.forall_mem_singleton.mpr h120) c234
  exact prime_of_certificate 2 _ (List.forall_mem_singleton.mpr h234) c381

instance : Fact blsP.Prime := ⟨blsP_prime⟩

/-! ## The quadratic extension -/

theorem neg_one_ne_sq (s : ZMod blsP) : s ^ 2 ≠ -1 := by
  intro h
  have hmod := ZMod.mod_four_ne_three_of_sq_eq_neg_one h
  exact hmod (by norm_num [blsP])

instance : Fact (∀ s : ZMod blsP, s ^ 2 ≠ -1 + 0 * s) :=
  ⟨fun s => by
    rw [zero_mul, add_zero]
    exact neg_one_ne_sq s⟩

/-- The base field with a square root `u` of -1. -/
abbrev Fp2 : Type := QuadraticAlgebra (ZMod blsP) (-1) 0

/-- An element of the base field in six words. -/
def fpWords (w0 w1 w2 w3 w4 w5 : Int) : ZMod blsP := leWords w0 w1 w2 w3 w4 w5

/-- `1 + u`. -/
def fp2Xi : Fp2 := ⟨1, 1⟩

theorem two_ne_sq (s : ZMod blsP) : s ^ 2 ≠ 2 := by
  intro h
  have hmod := (ZMod.exists_sq_eq_two_iff (p := blsP) (by norm_num [blsP])).mp ⟨s, by rw [← h, sq]⟩
  norm_num [blsP] at hmod

theorem two_ne_cube (s : ZMod blsP) : s ^ 3 ≠ 2 := by
  intro h
  have hs : s ≠ 0 := by
    rintro rfl
    revert h
    decide +kernel
  have hone : (2 : ZMod blsP) ^ ((blsP - 1) / 3) = 1 := by
    rw [← h, ← pow_mul, Nat.mul_div_cancel' (by norm_num [blsP])]
    exact ZMod.pow_card_sub_one_eq_one hs
  have hcast : ((2 ^ ((blsP - 1) / 3) % blsP : Nat) : ZMod blsP) = 1 := by
    rw [ZMod.natCast_mod, Nat.cast_pow]
    exact hone
  rw [← powMod_eq blsP 2 381 (by decide +kernel)] at hcast
  revert hcast
  decide +kernel

/-- The norm of `1 + u` is 2, and powers have powers as norms. -/
instance : NonResidue fp2Xi where
  ne_sq s hs := by
    refine two_ne_sq (QuadraticAlgebra.norm s) ?_
    rw [← map_pow, hs]
    decide +kernel
  ne_cube s hs := by
    refine two_ne_cube (QuadraticAlgebra.norm s) ?_
    rw [← map_pow, hs]
    decide +kernel

end StatelessGuest.Curve
