import Mathlib.Data.Nat.Prime.Basic
import StatelessGuest.Num.Inverse

/-!
# The base field of BLS12-381

An element is six words, the least significant one first, below the prime.

* `Fp`, `fpPrime`.
* `fpAddRaw`, `fpSubRaw`: sums and differences with the carry out of the last limb.
* `fpAdd`, `fpSub`, `fpHalfCan`, `fpInvRaw`.
* `inverse_exact`: both inversions end with the inverse.
-/

namespace StatelessGuest.Limb

open Lib

/-- Six words, limb 0 the least significant. -/
structure Fp where
  l0 : Word
  l1 : Word
  l2 : Word
  l3 : Word
  l4 : Word
  l5 : Word
  deriving DecidableEq, Repr

namespace Fp

def toNat (a : Fp) : Nat :=
  a.l0.toNat + 2 ^ 64 * (a.l1.toNat + 2 ^ 64 * (a.l2.toNat + 2 ^ 64 * (a.l3.toNat +
    2 ^ 64 * (a.l4.toNat + 2 ^ 64 * a.l5.toNat))))

def zero : Fp := ⟨0, 0, 0, 0, 0, 0⟩

def one : Fp := ⟨1, 0, 0, 0, 0, 0⟩

/-- The limbs with all bits flipped. -/
def flip (a : Fp) : Fp :=
  ⟨a.l0 ^^^ wordMax, a.l1 ^^^ wordMax, a.l2 ^^^ wordMax, a.l3 ^^^ wordMax, a.l4 ^^^ wordMax,
    a.l5 ^^^ wordMax⟩

end Fp

/-! ## The code -/

/-- The prime of the base field. -/
def fpPrime : Fp :=
  ⟨13402431016077863595, 2210141511517208575, 7435674573564081700, 7239337960414712511,
    5412103778470702295, 1873798617647539866⟩

/-- All limbs are zero. -/
def Fp.IsZero (a : Fp) : Prop := (a.l0 ||| a.l1 ||| a.l2 ||| a.l3 ||| a.l4 ||| a.l5) = 0

instance (a : Fp) : Decidable a.IsZero := inferInstanceAs (Decidable (_ = _))

def fpLtRaw (a b : Fp) : Bool :=
  if a.l5 ≠ b.l5 then a.l5 < b.l5
  else if a.l4 ≠ b.l4 then a.l4 < b.l4
  else if a.l3 ≠ b.l3 then a.l3 < b.l3
  else if a.l2 ≠ b.l2 then a.l2 < b.l2
  else if a.l1 ≠ b.l1 then a.l1 < b.l1
  else a.l0 < b.l0

/-- The six limbs and the carry out of the last one. -/
def fpAddRaw (a b : Fp) : Fp × Word :=
  let r0 := addWithCarry a.l0 b.l0 0
  let r1 := addWithCarry a.l1 b.l1 r0.2
  let r2 := addWithCarry a.l2 b.l2 r1.2
  let r3 := addWithCarry a.l3 b.l3 r2.2
  let r4 := addWithCarry a.l4 b.l4 r3.2
  let r5 := addWithCarry a.l5 b.l5 r4.2
  (⟨r0.1, r1.1, r2.1, r3.1, r4.1, r5.1⟩, r5.2)

/-- `a + ~b + 1`; the carry is 1 where nothing is borrowed. -/
def fpSubRaw (a b : Fp) : Fp × Word :=
  let r0 := addWithCarry a.l0 (b.l0 ^^^ wordMax) 1
  let r1 := addWithCarry a.l1 (b.l1 ^^^ wordMax) r0.2
  let r2 := addWithCarry a.l2 (b.l2 ^^^ wordMax) r1.2
  let r3 := addWithCarry a.l3 (b.l3 ^^^ wordMax) r2.2
  let r4 := addWithCarry a.l4 (b.l4 ^^^ wordMax) r3.2
  let r5 := addWithCarry a.l5 (b.l5 ^^^ wordMax) r4.2
  (⟨r0.1, r1.1, r2.1, r3.1, r4.1, r5.1⟩, r5.2)

def fpAdd (a b : Fp) : Fp :=
  let t := (fpAddRaw a b).1
  let d := fpSubRaw t fpPrime
  if d.2 = 1 then d.1 else t

def fpSub (a b : Fp) : Fp :=
  let d := fpSubRaw a b
  if d.2 = 1 then d.1 else (fpAddRaw d.1 fpPrime).1

def fpNeg (a : Fp) : Fp := if a.IsZero then .zero else (fpSubRaw fpPrime a).1

def fpShr1 (x : Fp) : Fp :=
  ⟨shr1Limb x.l0 x.l1, shr1Limb x.l1 x.l2, shr1Limb x.l2 x.l3, shr1Limb x.l3 x.l4,
    shr1Limb x.l4 x.l5, x.l5 >>> 1⟩

/-- Half of `x` modulo the prime. -/
def fpHalfCan (x : Fp) : Fp :=
  if x.l0 &&& 1 = 0 then fpShr1 x
  else
    let (s, carry) := fpAddRaw x fpPrime
    ⟨shr1Limb s.l0 s.l1, shr1Limb s.l1 s.l2, shr1Limb s.l2 s.l3, shr1Limb s.l3 s.l4,
      shr1Limb s.l4 s.l5, shr1Limb s.l5 carry⟩

/-- The operations of the inversion. -/
def Fp.halving : Halving Fp where
  isOne u := (u.l1 ||| u.l2 ||| u.l3 ||| u.l4 ||| u.l5) = 0 ∧ u.l0 = 1
  isEven u := u.l0 &&& 1 = 0
  lt := fpLtRaw
  shr1 := fpShr1
  sub u v := (fpSubRaw u v).1
  half := fpHalfCan
  modSub := fpSub

def fpInvRaw (fuel : Nat) (a : Fp) : Option Fp :=
  if a.IsZero then some .zero
  else Fp.halving.invert fuel a fpPrime .one .zero

/-! ## Sums and differences -/

theorem Fp.toNat_lt (a : Fp) : a.toNat < 2 ^ 192 * 2 ^ 192 := by
  have h0 := a.l0.isLt
  have h1 := a.l1.isLt
  have h2 := a.l2.isLt
  have h3 := a.l3.isLt
  have h4 := a.l4.isLt
  have h5 := a.l5.isLt
  unfold toNat
  omega

/-- A chain of six sums. -/
theorem fpChain_value (a b : Fp) {c : Word} (hc : c.toNat ≤ 1) :
    let r0 := addWithCarry a.l0 b.l0 c
    let r1 := addWithCarry a.l1 b.l1 r0.2
    let r2 := addWithCarry a.l2 b.l2 r1.2
    let r3 := addWithCarry a.l3 b.l3 r2.2
    let r4 := addWithCarry a.l4 b.l4 r3.2
    let r5 := addWithCarry a.l5 b.l5 r4.2
    (Fp.mk r0.1 r1.1 r2.1 r3.1 r4.1 r5.1).toNat + 2 ^ 192 * 2 ^ 192 * r5.2.toNat =
      a.toNat + b.toNat + c.toNat ∧ r5.2.toNat ≤ 1 := by
  intro r0 r1 r2 r3 r4 r5
  obtain ⟨h0, hc0⟩ := addWithCarry_value a.l0 b.l0 hc
  obtain ⟨h1, hc1⟩ := addWithCarry_value a.l1 b.l1 hc0
  obtain ⟨h2, hc2⟩ := addWithCarry_value a.l2 b.l2 hc1
  obtain ⟨h3, hc3⟩ := addWithCarry_value a.l3 b.l3 hc2
  obtain ⟨h4, hc4⟩ := addWithCarry_value a.l4 b.l4 hc3
  obtain ⟨h5, hc5⟩ := addWithCarry_value a.l5 b.l5 hc4
  refine ⟨?_, hc5⟩
  unfold Fp.toNat
  dsimp only
  linear_combination h0 + 2 ^ 64 * h1 + 2 ^ 128 * h2 + 2 ^ 192 * h3 + 2 ^ 256 * h4 +
    2 ^ 192 * 2 ^ 128 * h5

theorem fpAddRaw_value (a b : Fp) :
    (fpAddRaw a b).1.toNat + 2 ^ 192 * 2 ^ 192 * (fpAddRaw a b).2.toNat = a.toNat + b.toNat ∧
      (fpAddRaw a b).2.toNat ≤ 1 := by
  have h := fpChain_value a b (show (0 : Word).toNat ≤ 1 from Nat.zero_le 1)
  dsimp only at h
  unfold fpAddRaw
  dsimp only
  rwa [show (0 : Word).toNat = 0 from rfl, Nat.add_zero] at h

theorem Fp.toNat_flip (a : Fp) : a.flip.toNat + a.toNat = 2 ^ 192 * 2 ^ 192 - 1 := by
  have h0 := a.l0.isLt
  have h1 := a.l1.isLt
  have h2 := a.l2.isLt
  have h3 := a.l3.isLt
  have h4 := a.l4.isLt
  have h5 := a.l5.isLt
  unfold toNat flip
  dsimp only
  rw [toNat_xor_wordMax, toNat_xor_wordMax, toNat_xor_wordMax, toNat_xor_wordMax, toNat_xor_wordMax,
    toNat_xor_wordMax]
  omega

/-- The carry is 1 where nothing is borrowed. -/
theorem fpSubRaw_value (a b : Fp) :
    (fpSubRaw a b).1.toNat + 2 ^ 192 * 2 ^ 192 * (fpSubRaw a b).2.toNat + b.toNat =
        a.toNat + 2 ^ 192 * 2 ^ 192 ∧
      (fpSubRaw a b).2.toNat ≤ 1 := by
  have h := fpChain_value a b.flip (show (1 : Word).toNat ≤ 1 from Nat.le_refl 1)
  dsimp only [Fp.flip] at h
  have hflip := b.toNat_flip
  unfold fpSubRaw
  dsimp only
  refine ⟨?_, h.2⟩
  have hsum := h.1
  rw [show (1 : Word).toNat = 1 from rfl] at hsum
  rw [hsum]
  unfold Fp.flip at hflip
  omega

theorem fpSubRaw_carry (a b : Fp) : (fpSubRaw a b).2 = 1 ↔ b.toNat ≤ a.toNat := by
  obtain ⟨h, hcarry⟩ := fpSubRaw_value a b
  have hd := (fpSubRaw a b).1.toNat_lt
  have ha := a.toNat_lt
  have hone : (fpSubRaw a b).2 = 1 ↔ (fpSubRaw a b).2.toNat = 1 :=
    ⟨fun h => by rw [h]; rfl, fun h => BitVec.eq_of_toNat_eq h⟩
  rw [hone]
  omega

theorem toNat_fpSubRaw {a b : Fp} (hle : b.toNat ≤ a.toNat) :
    (fpSubRaw a b).1.toNat = a.toNat - b.toNat := by
  obtain ⟨h, -⟩ := fpSubRaw_value a b
  rw [(fpSubRaw_carry a b).mpr hle, show (1 : Word).toNat = 1 from rfl] at h
  omega

/-- The difference, with the prime added where it is negative. -/
theorem toNat_fpSub {x y : Fp} (hx : x.toNat < fpPrime.toNat) (hy : y.toNat < fpPrime.toNat) :
    (fpSub x y).toNat =
      if x.toNat < y.toNat then x.toNat + fpPrime.toNat - y.toNat else x.toNat - y.toNat := by
  unfold fpSub
  dsimp only
  by_cases hle : y.toNat ≤ x.toNat
  · rw [if_pos ((fpSubRaw_carry x y).mpr hle), if_neg (Nat.not_lt.mpr hle), toNat_fpSubRaw hle]
  · rw [if_neg fun h => hle ((fpSubRaw_carry x y).mp h), if_pos (Nat.not_le.mp hle)]
    obtain ⟨hsub, hcarry⟩ := fpSubRaw_value x y
    obtain ⟨hadd, -⟩ := fpAddRaw_value (fpSubRaw x y).1 fpPrime
    have hd := (fpSubRaw x y).1.toNat_lt
    have hp := fpPrime.toNat_lt
    have hs := (fpAddRaw (fpSubRaw x y).1 fpPrime).1.toNat_lt
    have hnone : (fpSubRaw x y).2.toNat = 0 := by omega
    omega

/-! ## Tests and halves -/

theorem Fp.isZero_iff (a : Fp) : a.IsZero ↔ a.toNat = 0 := by
  unfold IsZero
  rw [show (0 : Word) = 0#64 from rfl]
  simp only [BitVec.or_eq_zero_iff]
  unfold toNat
  constructor
  · rintro ⟨⟨⟨⟨⟨h0, h1⟩, h2⟩, h3⟩, h4⟩, h5⟩
    rw [h0, h1, h2, h3, h4, h5]
    rfl
  · intro h
    refine ⟨⟨⟨⟨⟨?_, ?_⟩, ?_⟩, ?_⟩, ?_⟩, ?_⟩ <;> exact BitVec.eq_of_toNat_eq (by simp; omega)

theorem Fp.isOne_iff (u : Fp) :
    ((u.l1 ||| u.l2 ||| u.l3 ||| u.l4 ||| u.l5) = 0 ∧ u.l0 = 1) ↔ u.toNat = 1 := by
  rw [show (0 : Word) = 0#64 from rfl, show (1 : Word) = 1#64 from rfl]
  simp only [BitVec.or_eq_zero_iff]
  have h0 := u.l0.isLt
  unfold toNat
  constructor
  · rintro ⟨⟨⟨⟨⟨h1, h2⟩, h3⟩, h4⟩, h5⟩, h0⟩
    rw [h0, h1, h2, h3, h4, h5]
    rfl
  · intro h
    refine ⟨⟨⟨⟨⟨?_, ?_⟩, ?_⟩, ?_⟩, ?_⟩, ?_⟩ <;> exact BitVec.eq_of_toNat_eq (by simp; omega)

/-- The highest limb that differs decides. -/
theorem fpLtRaw_iff (a b : Fp) : fpLtRaw a b = true ↔ a.toNat < b.toNat := by
  have hne : ∀ x y : Word, x ≠ y → x.toNat ≠ y.toNat := fun x y h h' => h (BitVec.eq_of_toNat_eq h')
  have ha0 := a.l0.isLt
  have ha1 := a.l1.isLt
  have ha2 := a.l2.isLt
  have ha3 := a.l3.isLt
  have ha4 := a.l4.isLt
  have hb0 := b.l0.isLt
  have hb1 := b.l1.isLt
  have hb2 := b.l2.isLt
  have hb3 := b.l3.isLt
  have hb4 := b.l4.isLt
  unfold fpLtRaw Fp.toNat
  split
  · next h =>
    have := hne _ _ h
    rw [decide_eq_true_iff, BitVec.lt_def]
    omega
  · next h5 =>
    rw [Decidable.not_not.mp h5]
    split
    · next h =>
      have := hne _ _ h
      rw [decide_eq_true_iff, BitVec.lt_def]
      omega
    · next h4 =>
      rw [Decidable.not_not.mp h4]
      split
      · next h =>
        have := hne _ _ h
        rw [decide_eq_true_iff, BitVec.lt_def]
        omega
      · next h3 =>
        rw [Decidable.not_not.mp h3]
        split
        · next h =>
          have := hne _ _ h
          rw [decide_eq_true_iff, BitVec.lt_def]
          omega
        · next h2 =>
          rw [Decidable.not_not.mp h2]
          split
          · next h =>
            have := hne _ _ h
            rw [decide_eq_true_iff, BitVec.lt_def]
            omega
          · next h1 =>
            rw [Decidable.not_not.mp h1, decide_eq_true_iff, BitVec.lt_def]
            omega

theorem Fp.toNat_mod_two (u : Fp) : u.toNat % 2 = u.l0.toNat % 2 := by
  unfold toNat
  omega

theorem toNat_fpShr1 (u : Fp) : (fpShr1 u).toNat = u.toNat / 2 := by
  have h0 := toNat_shr1Limb u.l0 u.l1
  have h1 := toNat_shr1Limb u.l1 u.l2
  have h2 := toNat_shr1Limb u.l2 u.l3
  have h3 := toNat_shr1Limb u.l3 u.l4
  have h4 := toNat_shr1Limb u.l4 u.l5
  have h5 := toNat_shr1_highest u.l5
  unfold fpShr1 Fp.toNat
  dsimp only
  omega

/-- The sum with its carry, halved. -/
theorem toNat_fpHalfCan (x : Fp) :
    (fpHalfCan x).toNat =
      if x.toNat % 2 = 0 then x.toNat / 2 else (x.toNat + fpPrime.toNat) / 2 := by
  unfold fpHalfCan
  rw [Fp.toNat_mod_two]
  by_cases heven : x.l0 &&& 1 = 0
  · rw [if_pos heven, if_pos ((and_one_eq_zero _).mp heven), toNat_fpShr1]
  · rw [if_neg heven, if_neg fun h => heven ((and_one_eq_zero _).mpr h)]
    obtain ⟨hsum, hcarry⟩ := fpAddRaw_value x fpPrime
    generalize fpAddRaw x fpPrime = s at *
    have h0 := toNat_shr1Limb s.1.l0 s.1.l1
    have h1 := toNat_shr1Limb s.1.l1 s.1.l2
    have h2 := toNat_shr1Limb s.1.l2 s.1.l3
    have h3 := toNat_shr1Limb s.1.l3 s.1.l4
    have h4 := toNat_shr1Limb s.1.l4 s.1.l5
    have h5 := toNat_shr1Limb s.1.l5 s.2
    rw [← hsum]
    unfold Fp.toNat
    dsimp only
    omega

/-! ## The inverse -/

theorem fpPrime_odd : fpPrime.toNat % 2 = 1 := by decide

theorem Fp.halving_exact : Fp.halving.Exact Fp.toNat fpPrime.toNat where
  odd := fpPrime_odd
  isOne u := decide_eq_true_iff.trans u.isOne_iff
  isEven u := by
    rw [toNat_mod_two]
    exact decide_eq_true_iff.trans (and_one_eq_zero u.l0)
  lt := fpLtRaw_iff
  shr1 := toNat_fpShr1
  sub _ _ := toNat_fpSubRaw
  half x hx := by
    dsimp only [halving]
    exact Halving.half_modEq fpPrime_odd hx (toNat_fpHalfCan x)
  modSub x y hx hy := by
    dsimp only [halving]
    exact Halving.sub_modEq hx hy (toNat_fpSub hx hy)

/-- The inverse of a number that is coprime to the modulus is found. -/
theorem fpInvRaw_exact {a : Fp} {fuel : Nat} (ha : 0 < a.toNat)
    (hcop : Nat.Coprime a.toNat fpPrime.toNat) (hfuel : 770 ≤ fuel) :
    ∃ x, fpInvRaw fuel a = some x ∧ x.toNat < fpPrime.toNat ∧
      a.toNat * x.toNat ≡ 1 [MOD fpPrime.toNat] := by
  have hwidth : ∀ b : Fp, b.toNat < 2 ^ (192 + 192) := fun b => by
    rw [Nat.pow_add]
    exact b.toNat_lt
  unfold fpInvRaw
  rw [if_neg fun h => Nat.ne_of_gt ha ((Fp.isZero_iff a).mp h)]
  exact Halving.invert_exact Fp.halving_exact ha hcop rfl rfl rfl (by decide) (hwidth a)
    (hwidth fpPrime) hfuel

/-- **Modular inversion.** Modulo an odd number, or modulo the prime of the base field, the loop ends
with the inverse of a number that has one, and the inverse of zero is zero. -/
theorem inverse_exact :
    (∀ (fuel : Nat) (a m : U256), 514 ≤ fuel → m.toNat % 2 = 1 → 1 < m.toNat → 0 < a.toNat →
      a.toNat < m.toNat → Nat.gcd a.toNat m.toNat = 1 →
      ∃ x, modinvBin fuel a m = some x ∧ x.toNat < m.toNat ∧
        a.toNat * x.toNat % m.toNat = 1) ∧
    (fpPrime.toNat.Prime → ∀ (fuel : Nat) (a : Fp), 770 ≤ fuel → 0 < a.toNat →
      a.toNat < fpPrime.toNat →
      ∃ x, fpInvRaw fuel a = some x ∧ x.toNat < fpPrime.toNat ∧
        a.toNat * x.toNat % fpPrime.toNat = 1) ∧
    (∀ (fuel : Nat) (m : U256), modinvBin fuel .zero m = some .zero) ∧
    ∀ fuel : Nat, fpInvRaw fuel .zero = some .zero := by
  refine ⟨fun fuel a m hfuel hm hm1 ha _ hcop => ?_, fun hprime fuel a hfuel ha hlt => ?_,
    fun _ _ => rfl, fun _ => rfl⟩
  · obtain ⟨x, hrun, hx, heq⟩ := modinvBin_exact hm hm1 ha hcop hfuel
    exact ⟨x, hrun, hx, Eq.trans heq (Nat.mod_eq_of_lt hm1)⟩
  · have hcop : Nat.Coprime a.toNat fpPrime.toNat :=
      (Nat.coprime_of_lt_prime (Nat.ne_of_gt ha) hlt hprime).symm
    obtain ⟨x, hrun, hx, heq⟩ := fpInvRaw_exact ha hcop hfuel
    exact ⟨x, hrun, hx, Eq.trans heq (Nat.mod_eq_of_lt hprime.one_lt)⟩

end StatelessGuest.Limb
