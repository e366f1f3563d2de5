import Mathlib.Data.Nat.Factorization.Basic
import Mathlib.FieldTheory.Finite.Basic

/-!
# Certificates of primality

A number `n` is prime when some prime factors of `n - 1` are known whose product is above the
square root of `n`: the order of a power residue makes every prime factor of `n` larger than it.

* `powMod`: powers by squares.
* `certificate`, `prime_of_certificate`.
-/

namespace StatelessGuest.Lib

/-- `a ^ k % n` for exponents of at most `bits` bits. -/
def powMod (n a : Nat) : Nat → Nat → Nat
  | 0, _ => 1 % n
  | bits + 1, k =>
    let half := powMod n a bits (k / 2)
    if k % 2 = 1 then half * half % n * a % n else half * half % n

theorem powMod_eq (n a bits : Nat) {k : Nat} (hk : k < 2 ^ bits) :
    powMod n a bits k = a ^ k % n := by
  induction bits generalizing k with
  | zero =>
    rw [pow_zero, Nat.lt_one_iff] at hk
    rw [hk, powMod, pow_zero]
  | succ bits ih =>
    have hhalf : k / 2 < 2 ^ bits := by
      rw [pow_succ] at hk
      omega
    have hsq : a ^ (k / 2) % n * (a ^ (k / 2) % n) % n = a ^ (k / 2 + k / 2) % n := by
      rw [← Nat.mul_mod, pow_add]
    rw [powMod, ih hhalf]
    split
    · next hodd =>
      rw [hsq, Nat.mod_mul_mod, ← pow_succ]
      congr 2
      omega
    · next heven =>
      rw [hsq]
      congr 2
      omega

/-- The order of a residue has each prime power that divides an exponent which gives 1, when the
exponent over the prime does not give 1. -/
theorem pow_dvd_orderOf {G : Type} [Monoid G] {x : G} {m q e : Nat} (hq : q.Prime) (hm : x ^ m = 1)
    (hne : x ^ (m / q) ≠ 1) (hdvd : q ^ e ∣ m) : q ^ e ∣ orderOf x := by
  obtain ⟨t, rfl⟩ := orderOf_dvd_of_pow_eq_one hm
  refine Nat.Coprime.dvd_of_dvd_mul_right (Nat.Coprime.pow_left e ?_) hdvd
  rw [hq.coprime_iff_not_dvd]
  rintro ⟨s, rfl⟩
  refine hne ?_
  rw [mul_left_comm, Nat.mul_div_cancel_left _ hq.pos, pow_mul, pow_orderOf_eq_one, one_pow]

/-- The base `a` and prime factors `qs` of `n - 1`. -/
def certificate (n a : Nat) (qs : List Nat) : Bool :=
  (n - 1) % qs.prod == 0 && n < qs.prod * qs.prod && 1 < n &&
    powMod n a (n.log2 + 1) (n - 1) == 1 &&
      qs.all fun q => Nat.gcd (powMod n a (n.log2 + 1) ((n - 1) / q) + (n - 1)) n == 1

theorem prime_of_certificate {n : Nat} (a : Nat) (qs : List Nat) (hqs : ∀ q ∈ qs, q.Prime)
    (h : certificate n a qs = true) : n.Prime := by
  simp only [certificate, Bool.and_eq_true, beq_iff_eq, decide_eq_true_eq, List.all_eq_true] at h
  obtain ⟨⟨⟨⟨hprod, hlt⟩, hone⟩, hpow⟩, hgcd⟩ := h
  have hbits : n < 2 ^ (n.log2 + 1) := Nat.lt_log2_self
  have hpowMod : ∀ k ≤ n - 1, powMod n a (n.log2 + 1) k = a ^ k % n :=
    fun k hk => powMod_eq n a _ (by omega)
  rw [hpowMod _ (Nat.le_refl _)] at hpow
  by_contra hn
  -- the least prime factor is at most the square root of `n`
  have hp : n.minFac.Prime := Nat.minFac_prime (by omega)
  have hsq : n.minFac * n.minFac ≤ n := by
    rw [← sq]
    exact Nat.minFac_sq_le_self (by omega) hn
  have hdvd : n.minFac ∣ n := Nat.minFac_dvd n
  have : Fact n.minFac.Prime := ⟨hp⟩
  have hcast : ∀ k, ((a : ZMod n.minFac) ^ k = 1 ↔ n.minFac ∣ a ^ k % n + (n - 1)) := by
    intro k
    have hmod : ((a ^ k % n : Nat) : ZMod n.minFac) = a ^ k := by
      rw [← Nat.cast_pow, ZMod.natCast_eq_natCast_iff]
      exact (Nat.mod_modEq _ _).of_dvd hdvd
    have hminus : (((n - 1 : Nat)) : ZMod n.minFac) = -1 := by
      rw [Nat.cast_sub (by omega), (ZMod.natCast_eq_zero_iff _ _).mpr hdvd, Nat.cast_one, zero_sub]
    rw [← ZMod.natCast_eq_zero_iff, Nat.cast_add, hmod, hminus, ← sub_eq_add_neg, sub_eq_zero]
  have hfull : (a : ZMod n.minFac) ^ (n - 1) = 1 := by
    rw [hcast, hpow, Nat.add_sub_cancel' (by omega)]
    exact hdvd
  have hprodDvd : qs.prod ∣ n.minFac - 1 := by
    refine (Nat.dvd_iff_prime_pow_dvd_dvd _ _).mpr fun q e hq hqe => ?_
    rcases Nat.eq_zero_or_pos e with rfl | he
    · exact one_dvd _
    have hmem : q ∈ qs := by
      obtain ⟨q', hq', hdvd'⟩ := hq.prime.dvd_prod_iff.mp ((dvd_pow_self q he.ne').trans hqe)
      rwa [(Nat.prime_dvd_prime_iff_eq hq (hqs q' hq')).mp hdvd']
    have hne : (a : ZMod n.minFac) ^ ((n - 1) / q) ≠ 1 := by
      intro heq
      have hg := hgcd q hmem
      rw [hpowMod _ (Nat.div_le_self _ _)] at hg
      have := Nat.dvd_gcd ((hcast _).mp heq) hdvd
      rw [hg] at this
      exact hp.one_lt.ne' (Nat.dvd_one.mp this)
    refine (pow_dvd_orderOf hq hfull hne (hqe.trans (Nat.dvd_of_mod_eq_zero hprod))).trans ?_
    refine orderOf_dvd_of_pow_eq_one (ZMod.pow_card_sub_one_eq_one fun hzero => ?_)
    rw [hzero, zero_pow (by omega)] at hfull
    exact zero_ne_one hfull
  have hle := Nat.le_of_dvd (Nat.sub_pos_of_lt hp.one_lt) hprodDvd
  have hlt' : qs.prod < n.minFac := by
    have := hp.one_lt
    omega
  exact absurd hsq (Nat.not_le.mpr (hlt.trans (Nat.mul_self_lt_mul_self hlt')))

end StatelessGuest.Lib
