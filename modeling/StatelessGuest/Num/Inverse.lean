import StatelessGuest.Lib.BinaryEuclid
import StatelessGuest.Num.Shift

/-!
# Modular inverses of 256-bit integers

The halves of residues are those of 257-bit sums: the carry of the sum is the top bit of the half.

* `shr1Limb`: a word with the lowest bit of the next one on top.
* `modHalf`, `modSub`, `modinvBin`.
* `modinvBin_exact`: the loop ends with the inverse.
-/

namespace StatelessGuest.Limb

open Lib

/-! ## The code -/

/-- A word, halved, with the lowest bit of the one above on top. -/
def shr1Limb (a b : Word) : Word := (a >>> 1) ||| (b <<< 63)

def U256.shr1 (u : U256) : U256 :=
  ⟨shr1Limb u.l0 u.l1, shr1Limb u.l1 u.l2, shr1Limb u.l2 u.l3, u.l3 >>> 1⟩

/-- Half of `x` modulo an odd `m`. -/
def modHalf (x m : U256) : U256 :=
  if x.l0 &&& 1 = 0 then x.shr1
  else
    let (s, carry) := u256AddCarry x m
    ⟨shr1Limb s.l0 s.l1, shr1Limb s.l1 s.l2, shr1Limb s.l2 s.l3, shr1Limb s.l3 carry⟩

def modSub (x y m : U256) : U256 :=
  if u256Lt x y then u256Add (u256Sub x y) m else u256Sub x y

/-- The operations of the inversion modulo `m`. -/
def U256.halving (m : U256) : Halving U256 where
  isOne u := (u.l1 ||| u.l2 ||| u.l3) = 0 ∧ u.l0 = 1
  isEven u := u.l0 &&& 1 = 0
  lt := u256Lt
  shr1 := U256.shr1
  sub := u256Sub
  half x := modHalf x m
  modSub x y := modSub x y m

def modinvBin (fuel : Nat) (a m : U256) : Option U256 :=
  if a.IsZero then some .zero
  else (U256.halving m).invert fuel a m ⟨1, 0, 0, 0⟩ .zero

/-! ## Halves -/

theorem toNat_shr1Limb (a b : Word) :
    2 * (shr1Limb a b).toNat + a.toNat % 2 = a.toNat + 2 ^ 64 * (b.toNat % 2) := by
  have h := toNat_shrLimb (s := 1) a b (by decide) (by decide)
  rw [show (1 : Word).toNat = 1 from rfl, Nat.pow_one] at h
  change (shr1Limb a b).toNat * 2 + _ = _ at h
  omega

theorem toNat_shr1_highest (a : Word) : (a >>> 1).toNat = a.toNat / 2 := by
  rw [BitVec.toNat_ushiftRight, Nat.shiftRight_one]

theorem toNat_and_one (w : Word) : (w &&& 1).toNat = w.toNat % 2 := by
  rw [BitVec.toNat_and]
  exact Nat.and_one_is_mod w.toNat

theorem and_one_eq_zero (w : Word) : w &&& 1 = 0 ↔ w.toNat % 2 = 0 := by
  rw [← toNat_and_one]
  exact ⟨fun h => by rw [h]; rfl, fun h => BitVec.eq_of_toNat_eq h⟩

theorem U256.toNat_mod_two (u : U256) : u.toNat % 2 = u.l0.toNat % 2 := by
  unfold toNat
  omega

theorem U256.toNat_shr1 (u : U256) : u.shr1.toNat = u.toNat / 2 := by
  have h0 := toNat_shr1Limb u.l0 u.l1
  have h1 := toNat_shr1Limb u.l1 u.l2
  have h2 := toNat_shr1Limb u.l2 u.l3
  have h3 := toNat_shr1_highest u.l3
  unfold toNat shr1
  dsimp only
  omega

/-- The sum with its carry, halved. -/
theorem toNat_modHalf (x m : U256) :
    (modHalf x m).toNat = if x.toNat % 2 = 0 then x.toNat / 2 else (x.toNat + m.toNat) / 2 := by
  unfold modHalf
  rw [U256.toNat_mod_two]
  by_cases heven : x.l0 &&& 1 = 0
  · rw [if_pos heven, if_pos ((and_one_eq_zero _).mp heven), U256.toNat_shr1]
  · rw [if_neg heven, if_neg fun h => heven ((and_one_eq_zero _).mpr h)]
    obtain ⟨hsum, hcarry⟩ := u256AddCarry_value x m
    generalize u256AddCarry x m = s at *
    have h0 := toNat_shr1Limb s.1.l0 s.1.l1
    have h1 := toNat_shr1Limb s.1.l1 s.1.l2
    have h2 := toNat_shr1Limb s.1.l2 s.1.l3
    have h3 := toNat_shr1Limb s.1.l3 s.2
    rw [← hsum]
    unfold U256.toNat
    dsimp only
    omega

theorem toNat_modSub {x y m : U256} (hx : x.toNat < m.toNat) (hy : y.toNat < m.toNat) :
    (modSub x y m).toNat =
      if x.toNat < y.toNat then x.toNat + m.toNat - y.toNat else x.toNat - y.toNat := by
  have hm := m.toNat_lt
  have hsub := toNat_u256Sub x y
  unfold modSub
  by_cases hlt : x.toNat < y.toNat
  · rw [if_pos ((u256Lt_iff x y).mpr hlt), if_pos hlt, toNat_u256Add, hsub]
    omega
  · rw [if_neg fun h => hlt ((u256Lt_iff x y).mp h), if_neg hlt, hsub]
    omega

/-! ## The inverse -/

theorem U256.isOne_iff (u : U256) :
    ((u.l1 ||| u.l2 ||| u.l3) = 0 ∧ u.l0 = 1) ↔ u.toNat = 1 := by
  rw [show (0 : Word) = 0#64 from rfl]
  simp only [BitVec.or_eq_zero_iff]
  constructor
  · rintro ⟨⟨⟨h1, h2⟩, h3⟩, h0⟩
    unfold toNat
    rw [h0, h1, h2, h3]
    rfl
  · intro h
    have heq : u = ⟨1, 0, 0, 0⟩ := toNat_injective h
    rw [heq]
    exact ⟨⟨⟨rfl, rfl⟩, rfl⟩, rfl⟩

theorem U256.halving_exact {m : U256} (hm : m.toNat % 2 = 1) :
    (halving m).Exact toNat m.toNat where
  odd := hm
  isOne u := decide_eq_true_iff.trans u.isOne_iff
  isEven u := by
    rw [toNat_mod_two]
    exact decide_eq_true_iff.trans (and_one_eq_zero u.l0)
  lt := u256Lt_iff
  shr1 := toNat_shr1
  sub u v hle := by
    have hu := u.toNat_lt
    change (u256Sub u v).toNat = _
    rw [toNat_u256Sub]
    omega
  half x hx := Halving.half_modEq hm hx (toNat_modHalf x m)
  modSub x y hx hy := Halving.sub_modEq hx hy (toNat_modSub hx hy)

/-- The inverse modulo an odd number is found. -/
theorem modinvBin_exact {a m : U256} {fuel : Nat} (hm : m.toNat % 2 = 1) (hm1 : 1 < m.toNat)
    (ha : 0 < a.toNat) (hcop : Nat.Coprime a.toNat m.toNat) (hfuel : 514 ≤ fuel) :
    ∃ x, modinvBin fuel a m = some x ∧ x.toNat < m.toNat ∧
      a.toNat * x.toNat ≡ 1 [MOD m.toNat] := by
  unfold modinvBin
  rw [if_neg fun h => Nat.ne_of_gt ha ((U256.isZero_iff a).mp h)]
  exact Halving.invert_exact (U256.halving_exact hm) ha hcop rfl rfl rfl hm1 a.toNat_lt m.toNat_lt
    hfuel

end StatelessGuest.Limb
