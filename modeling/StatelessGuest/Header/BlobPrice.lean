import StatelessGuest.Header.BlobFee
import StatelessGuest.Lib.Taylor

/-!
# The blob gas price over the naturals

The rounds of `taylor_exponential` are the terms of the series over the naturals as long as the
trap is not taken, and then nothing they compute leaves its word.

* `Exact`: the terms, their sums and the divisors fit.
* `Terms`: a run reaches every term and every sum of the series.
* `taylor_exponential_exact`: a run traps or returns the result over the naturals.
-/

namespace StatelessGuest

open Lib

/-! ## Rounds -/

section

variable {n d : U256} {f k : Nat}

theorem toNat_ofNat_u256 {v : Nat} (h : v < 2 ^ 256) : (BitVec.ofNat 256 v).toNat = v := by
  rw [BitVec.toNat_ofNat, Nat.mod_eq_of_lt h]

/-- The quotient of two numbers that fit. -/
theorem u256Div_ofNat {a b : Nat} (ha : a < 2 ^ 256) (hb : b < 2 ^ 256) :
    u256Div (BitVec.ofNat 256 a) (BitVec.ofNat 256 b) = BitVec.ofNat 256 (a / b) := by
  refine BitVec.eq_of_toNat_eq ?_
  rw [toNat_ofNat_u256 (Nat.lt_of_le_of_lt (Nat.div_le_self a b) ha)]
  unfold u256Div
  split
  · next hzero =>
    have hb0 : b = 0 := by
      rw [← toNat_ofNat_u256 hb, hzero]
      rfl
    rw [hb0, Nat.div_zero]
    rfl
  · rw [BitVec.toNat_udiv, toNat_ofNat_u256 ha, toNat_ofNat_u256 hb]

/-- A round from a term whose product fits. -/
theorem taylorLoop_step (hden : d.toNat < 2 ^ 64) (hk : k < 2 ^ 64)
    (hterm : Taylor.term f n.toNat d.toNat k < 2 ^ 256)
    (hne : Taylor.term f n.toNat d.toNat k ≠ 0)
    (hfit : Taylor.term f n.toNat d.toNat k * n.toNat < 2 ^ 256) (fuel : Nat) :
    taylorLoop n d (fuel + 1) (k + 1)
        (BitVec.ofNat 256 (Taylor.term f n.toNat d.toNat k))
        (BitVec.ofNat 256 (Taylor.partialSum f n.toNat d.toNat k)) =
      taylorLoop n d fuel (k + 1 + 1)
        (BitVec.ofNat 256 (Taylor.term f n.toNat d.toNat (k + 1)))
        (BitVec.ofNat 256 (Taylor.partialSum f n.toNat d.toNat (k + 1))) := by
  have hacc : BitVec.ofNat 256 (Taylor.term f n.toNat d.toNat k) ≠ 0 := by
    intro hzero
    refine hne ?_
    rw [← toNat_ofNat_u256 hterm, hzero]
    rfl
  have hdi : (k + 1) * d.toNat < 2 ^ 256 := by
    have := Nat.mul_le_mul (show k + 1 ≤ 2 ^ 64 by omega) (Nat.le_of_lt hden)
    omega
  have hmul : BitVec.ofNat 256 (k + 1) * d = BitVec.ofNat 256 ((k + 1) * d.toNat) := by
    rw [BitVec.ofNat_mul, BitVec.ofNat_toNat, BitVec.setWidth_eq]
  rw [taylorLoop, if_neg hacc, toNat_ofNat_u256 hterm, if_neg (Nat.not_le.mpr hfit), hmul]
  dsimp only
  rw [u256Div_ofNat hfit hdi, ← BitVec.ofNat_add]
  rfl

theorem taylorLoop_zero (fuel i : Nat) (out : U256) :
    taylorLoop n d (fuel + 1) i (BitVec.ofNat 256 0) out = .ok out :=
  if_pos rfl

/-- A round from a term whose product does not fit. -/
theorem taylorLoop_trap (hterm : Taylor.term f n.toNat d.toNat k < 2 ^ 256)
    (hover : 2 ^ 256 ≤ Taylor.term f n.toNat d.toNat k * n.toNat) (fuel : Nat)
    (out : U256) :
    taylorLoop n d (fuel + 1) (k + 1)
      (BitVec.ofNat 256 (Taylor.term f n.toNat d.toNat k)) out = .error (.trap 3) := by
  have hacc : BitVec.ofNat 256 (Taylor.term f n.toNat d.toNat k) ≠ 0 := by
    intro hzero
    have hz : Taylor.term f n.toNat d.toNat k = 0 := by
      rw [← toNat_ofNat_u256 hterm, hzero]
      rfl
    rw [hz, Nat.zero_mul] at hover
    omega
  rw [taylorLoop, if_neg hacc, toNat_ofNat_u256 hterm, if_pos hover]

end

/-! ## Runs -/

/-- Nothing that the rounds of the series compute leaves its word. -/
structure Exact (factor num den : Nat) : Prop where
  scale : factor * den < 2 ^ 256
  product : ∀ k, Taylor.term factor num den k * num < 2 ^ 256
  sum : ∀ k, Taylor.partialSum factor num den k < 2 ^ 256
  count : ∀ k, Taylor.term factor num den k ≠ 0 → k + 1 < 2 ^ 64
  divisor : ∀ k, Taylor.term factor num den k ≠ 0 → (k + 1) * den < 2 ^ 256

/-- The loop reaches every term of the series with the sum of the terms before it. -/
def Terms (factor numerator denominator : Word) : Prop :=
  ∀ k, (∀ j < k, Taylor.term factor.toNat numerator.toNat denominator.toNat j ≠ 0) →
    ∃ acc out : U256,
      acc.toNat = Taylor.term factor.toNat numerator.toNat denominator.toNat k ∧
      out.toNat = Taylor.partialSum factor.toNat numerator.toNat denominator.toNat k ∧
      ∀ fuel, taylorLoop (u256FromWord numerator) (u256FromWord denominator) (k + fuel) 1
          (u256FromWord factor * u256FromWord denominator) 0 =
        taylorLoop (u256FromWord numerator) (u256FromWord denominator) fuel (k + 1) acc out

section

variable {factor numerator denominator : Word} {k : Nat}

theorem toNat_u256FromWord (w : Word) : (u256FromWord w).toNat = w.toNat :=
  BitVec.toNat_setWidth_of_le (by decide)

theorem scale_lt (factor denominator : Word) : factor.toNat * denominator.toNat < 2 ^ 128 := by
  have := Nat.mul_lt_mul'' factor.isLt denominator.isLt
  omega

/-- The first term as the loop starts with it. -/
theorem scale_eq (factor denominator : Word) :
    u256FromWord factor * u256FromWord denominator =
      BitVec.ofNat 256 (factor.toNat * denominator.toNat) := by
  have hscale := scale_lt factor denominator
  refine BitVec.eq_of_toNat_eq ?_
  rw [BitVec.toNat_mul, toNat_u256FromWord, toNat_u256FromWord, toNat_ofNat_u256 (by omega),
    Nat.mod_eq_of_lt (by omega)]

theorem term_lt (hfit : ∀ j < k,
      Taylor.term factor.toNat numerator.toNat denominator.toNat j * numerator.toNat < 2 ^ 256) :
    Taylor.term factor.toNat numerator.toNat denominator.toNat k < 2 ^ 256 := by
  have hscale := scale_lt factor denominator
  cases k with
  | zero => exact Nat.lt_of_lt_of_le hscale (by decide)
  | succ k => exact Nat.lt_of_le_of_lt (Nat.div_le_self _ _) (hfit k (Nat.lt_succ_self k))

/-- The rounds before a term, as long as no product leaves 256 bits. -/
theorem taylorLoop_reaches (hk : k ≤ 2 ^ 64) (hne : ∀ j < k,
      Taylor.term factor.toNat numerator.toNat denominator.toNat j ≠ 0)
    (hfit : ∀ j < k,
      Taylor.term factor.toNat numerator.toNat denominator.toNat j * numerator.toNat < 2 ^ 256)
    (fuel : Nat) :
    taylorLoop (u256FromWord numerator) (u256FromWord denominator) (k + fuel) 1
        (u256FromWord factor * u256FromWord denominator) 0 =
      taylorLoop (u256FromWord numerator) (u256FromWord denominator) fuel (k + 1)
        (BitVec.ofNat 256 (Taylor.term factor.toNat numerator.toNat denominator.toNat k))
        (BitVec.ofNat 256 (Taylor.partialSum factor.toNat numerator.toNat denominator.toNat k)) := by
  induction k generalizing fuel with
  | zero =>
    rw [Nat.zero_add, Nat.zero_add, scale_eq]
    rfl
  | succ k ih =>
    have hfit' : ∀ j < k, _ := fun j hj => hfit j (Nat.lt_succ_of_lt hj)
    have hstep := taylorLoop_step (n := u256FromWord numerator)
      (d := u256FromWord denominator) (f := factor.toNat) (k := k)
      (by rw [toNat_u256FromWord]; exact denominator.isLt) hk
    rw [toNat_u256FromWord, toNat_u256FromWord] at hstep
    rw [Nat.add_right_comm, Nat.add_assoc, ih (by omega) (fun j hj => hne j (by omega)) hfit',
      hstep (term_lt hfit') (hne k (Nat.lt_succ_self k)) (hfit k (Nat.lt_succ_self k))]

/-- The first product that leaves 256 bits is reached, unless the series ends before. -/
theorem exists_first_over (h : ¬ ∀ k,
      Taylor.term factor.toNat numerator.toNat denominator.toNat k * numerator.toNat < 2 ^ 256)
    (hden : 0 < denominator.toNat) : ∃ k < 1280,
      2 ^ 256 ≤ Taylor.term factor.toNat numerator.toNat denominator.toNat k * numerator.toNat ∧
      ∀ j < k,
        Taylor.term factor.toNat numerator.toNat denominator.toNat j * numerator.toNat < 2 ^ 256 := by
  have hex : ∃ k,
      2 ^ 256 ≤ Taylor.term factor.toNat numerator.toNat denominator.toNat k * numerator.toNat := by
    obtain ⟨k, hk⟩ := not_forall.mp h
    exact ⟨k, Nat.not_lt.mp hk⟩
  refine ⟨Nat.find hex, ?_, Nat.find_spec hex, fun j hj => Nat.not_le.mp (Nat.find_min hex hj)⟩
  by_contra hlate
  have hzero := Taylor.term_zero_of_small (f := factor.toNat) (n := numerator.toNat) hden
    fun k hk => Nat.not_le.mp (Nat.find_min hex (by omega))
  have hspec := Nat.find_spec hex
  rw [Taylor.term_zero_of_le hzero (Nat.not_lt.mp hlate), Nat.zero_mul] at hspec
  exact absurd hspec (by decide)

theorem term_ne_zero_of_over {j : Nat} (hj : j ≤ k)
    (h : 2 ^ 256 ≤
      Taylor.term factor.toNat numerator.toNat denominator.toNat k * numerator.toNat) :
    Taylor.term factor.toNat numerator.toNat denominator.toNat j ≠ 0 := by
  intro hzero
  rw [Taylor.term_zero_of_le hzero hj, Nat.zero_mul] at h
  exact absurd h (by decide)

/-- The trap is taken when some product leaves 256 bits. -/
theorem taylorExponential_trap (h : ¬ ∀ k,
      Taylor.term factor.toNat numerator.toNat denominator.toNat k * numerator.toNat < 2 ^ 256)
    (hden : 0 < denominator.toNat) :
    taylorExponential factor numerator denominator = .error (.trap 3) := by
  obtain ⟨k, hk, hover, hbefore⟩ := exists_first_over h hden
  have hreach := taylorLoop_reaches (k := k) (by omega)
    (fun j hj => term_ne_zero_of_over (Nat.le_of_lt hj) hover) hbefore (2 ^ 64 - k - 1 + 1)
  have htrap := taylorLoop_trap (n := u256FromWord numerator)
    (d := u256FromWord denominator) (f := factor.toNat) (k := k)
  rw [toNat_u256FromWord, toNat_u256FromWord] at htrap
  rw [htrap (term_lt hbefore) hover, show k + (2 ^ 64 - k - 1 + 1) = 2 ^ 64 by omega] at hreach
  unfold taylorExponential
  dsimp only
  rw [hreach]

theorem exact_of_fits (hden : 0 < denominator.toNat) (h : ∀ k,
      Taylor.term factor.toNat numerator.toNat denominator.toNat k * numerator.toNat < 2 ^ 256) :
    Exact factor.toNat numerator.toNat denominator.toNat := by
  have hscale := scale_lt factor denominator
  have hzero := Taylor.term_zero_of_small (f := factor.toNat) hden fun k _ => h k
  have hcount : ∀ k, Taylor.term factor.toNat numerator.toNat denominator.toNat k ≠ 0 →
      k < 1280 := by
    intro k hne
    by_contra hlate
    exact hne (Taylor.term_zero_of_le hzero (Nat.not_lt.mp hlate))
  refine ⟨by omega, h, Taylor.partialSum_lt hden hscale h, fun k hne => ?_, fun k hne => ?_⟩
  · have := hcount k hne
    omega
  · have := Nat.mul_le_mul (show k + 1 ≤ 1280 from hcount k hne) (Nat.le_of_lt denominator.isLt)
    omega

theorem terms_of_exact (h : Exact factor.toNat numerator.toNat denominator.toNat) :
    Terms factor numerator denominator := by
  intro k hne
  have hk : k ≤ 2 ^ 64 := by
    cases k with
    | zero => exact Nat.zero_le _
    | succ k => exact Nat.le_of_lt (h.count k (hne k (Nat.lt_succ_self k)))
  refine ⟨_, _, toNat_ofNat_u256 (term_lt fun j _ => h.product j), toNat_ofNat_u256 (h.sum k),
    fun fuel => taylorLoop_reaches hk hne (fun j _ => h.product j) fuel⟩

/-- Without the trap the loop ends with the sum of the series. -/
theorem taylorExponential_ok (hden : 0 < denominator.toNat)
    (h : Exact factor.toNat numerator.toNat denominator.toNat) :
    taylorExponential factor numerator denominator = .ok (BitVec.ofNat 256
      (Taylor.exponential factor.toNat numerator.toNat denominator.toNat hden)) := by
  have hlen : Taylor.length factor.toNat numerator.toNat denominator.toNat hden < 2 ^ 64 := by
    cases hl : Taylor.length factor.toNat numerator.toNat denominator.toNat hden with
    | zero => decide
    | succ k => exact h.count k (Taylor.term_ne_zero hden (by omega))
  have hreach := taylorLoop_reaches (Nat.le_of_lt hlen)
    (fun j hj => Taylor.term_ne_zero hden hj) (fun j _ => h.product j)
    (2 ^ 64 - Taylor.length factor.toNat numerator.toNat denominator.toNat hden - 1 + 1)
  have hfuel : ∀ n < 2 ^ 64, n + (2 ^ 64 - n - 1 + 1) = 2 ^ 64 := fun n hn => by omega
  have hword : u256FromWord denominator = BitVec.ofNat 256 denominator.toNat := by
    rw [← toNat_u256FromWord, BitVec.ofNat_toNat, BitVec.setWidth_eq]
  have hlt := denominator.isLt
  rw [Taylor.term_length hden, taylorLoop_zero, hfuel _ hlen] at hreach
  unfold taylorExponential
  dsimp only
  rw [hreach]
  dsimp only
  rw [hword, u256Div_ofNat (h.sum _) (by omega)]
  rfl

/-- The fake exponential traps exactly when a guarded product leaves 256 bits; otherwise it ends
with the result over the naturals, and no sum, product or divisor of its rounds wraps. -/
theorem taylor_exponential_exact (factor numerator denominator : Word)
    (hden : 0 < denominator.toNat) :
    (taylorExponential factor numerator denominator = .error (.trap 3) ∧
      ∃ k, 2 ^ 256 ≤
        Taylor.term factor.toNat numerator.toNat denominator.toNat k * numerator.toNat) ∨
    (∃ price, taylorExponential factor numerator denominator = .ok price ∧
      price.toNat = Taylor.exponential factor.toNat numerator.toNat denominator.toNat hden) ∧
      Exact factor.toNat numerator.toNat denominator.toNat ∧
      Terms factor numerator denominator := by
  by_cases h : ∀ k,
      Taylor.term factor.toNat numerator.toNat denominator.toNat k * numerator.toNat < 2 ^ 256
  · have hexact := exact_of_fits hden h
    refine .inr ⟨⟨_, taylorExponential_ok hden hexact, ?_⟩, hexact, terms_of_exact hexact⟩
    refine toNat_ofNat_u256 (Nat.lt_of_le_of_lt (Nat.div_le_self _ _) (hexact.sum _))
  · refine .inl ⟨taylorExponential_trap h hden, ?_⟩
    obtain ⟨k, hk⟩ := not_forall.mp h
    exact ⟨k, Nat.not_lt.mp hk⟩

/-- Nothing but the denominator is asked of the inputs: the price of no excess blob gas. -/
theorem taylor_exponential_exact_zero :
    (taylorExponential 1 0 11684671 = .error (.trap 3) ∧
      ∃ k, 2 ^ 256 ≤ Taylor.term 1 0 11684671 k * 0) ∨
    (∃ price, taylorExponential 1 0 11684671 = .ok price ∧
      price.toNat = Taylor.exponential 1 0 11684671 (by decide)) ∧
      Exact 1 0 11684671 ∧ Terms 1 0 11684671 :=
  taylor_exponential_exact 1 0 11684671 (by decide)

end

end StatelessGuest
