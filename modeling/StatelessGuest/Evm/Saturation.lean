import StatelessGuest.Evm.Arith

/-!
# Saturating words

What the saturating helpers of the gas computations compute, over the naturals: each is the
unbounded result cut off at `wordMax`.
-/

namespace StatelessGuest

theorem wordMax_toNat : wordMax.toNat = 2 ^ 64 - 1 := rfl

theorem minWord_toNat (a b : Word) : (minWord a b).toNat = min a.toNat b.toNat := by
  unfold minWord
  split
  · next hlt => exact (Nat.min_eq_left (Nat.le_of_lt hlt)).symm
  · next hge => exact (Nat.min_eq_right (BitVec.not_lt.mp hge)).symm

theorem maxWord_toNat (a b : Word) : (maxWord a b).toNat = max a.toNat b.toNat := by
  unfold maxWord
  split
  · next hlt => exact (Nat.max_eq_left (Nat.le_of_lt hlt)).symm
  · next hge => exact (Nat.max_eq_right (BitVec.not_lt.mp hge)).symm

theorem addSat_toNat (a b : Word) : (addSat a b).toNat = min (a.toNat + b.toNat) (2 ^ 64 - 1) := by
  have ha := a.isLt
  have hb := b.isLt
  have hsum : (a + b).toNat = (a.toNat + b.toNat) % 2 ^ 64 := BitVec.toNat_add a b
  unfold addSat
  dsimp only
  split
  · next hlt =>
    have hlt' : (a + b).toNat < a.toNat := hlt
    rw [wordMax_toNat]
    omega
  · next hge =>
    have hge' : a.toNat ≤ (a + b).toNat := BitVec.not_lt.mp hge
    rw [hsum] at hge' ⊢
    omega

theorem satWord_toNat (v : U256) : (satWord v).toNat = min v.toNat (2 ^ 64 - 1) := by
  have hshift : (v >>> 64).toNat = v.toNat / 2 ^ 64 := by
    rw [BitVec.toNat_ushiftRight, Nat.shiftRight_eq_div_pow]
  unfold satWord
  split
  · next hne =>
    have hpos : 0 < v.toNat / 2 ^ 64 := by
      rw [← hshift, Nat.pos_iff_ne_zero]
      exact fun h => hne (BitVec.eq_of_toNat_eq h)
    have hle : 2 ^ 64 ≤ v.toNat := (Nat.div_pos_iff.mp hpos).2
    rw [wordMax_toNat]
    omega
  · next heq =>
    rw [not_not] at heq
    have hzero : v.toNat / 2 ^ 64 = 0 := by
      rw [← hshift, heq]
      rfl
    have hlt : v.toNat < 2 ^ 64 := Nat.lt_of_div_eq_zero (Nat.two_pow_pos 64) hzero
    rw [BitVec.toNat_setWidth, Nat.mod_eq_of_lt hlt]
    omega

/-- Rounded up to a multiple of 32. -/
def roundUp (n : Nat) : Nat := 32 * ((n + 31) / 32)

theorem ceil32_toNat (v : Word) : (ceil32 v).toNat = min (roundUp v.toNat) (2 ^ 64 - 1) := by
  have hlt := v.isLt
  have hmask : (v &&& 31).toNat = v.toNat % 32 := by
    rw [BitVec.toNat_and]
    exact Nat.and_two_pow_sub_one_eq_mod v.toNat 5
  unfold ceil32 roundUp
  dsimp only
  split
  · next hzero =>
    have hmod : v.toNat % 32 = 0 := by
      rw [← hmask, hzero]
      rfl
    omega
  · next hne =>
    have hmod : v.toNat % 32 ≠ 0 := by
      rw [← hmask]
      exact fun h => hne (BitVec.eq_of_toNat_eq h)
    have hsub : (32 - (v &&& 31)).toNat = 32 - v.toNat % 32 := by
      rw [BitVec.toNat_sub_of_le, hmask]
      · rfl
      · rw [BitVec.le_def, hmask]
        change v.toNat % 32 ≤ 32
        omega
    rw [addSat_toNat, hsub]
    omega

theorem wordsOf_toNat (n : Word) :
    (wordsOf n).toNat = min ((n.toNat + 31) / 32) (2 ^ 59 - 1) := by
  unfold wordsOf
  rw [BitVec.toNat_ushiftRight, Nat.shiftRight_eq_div_pow, ceil32_toNat, roundUp]
  omega

theorem wordsOf_lt (n : Word) : (wordsOf n).toNat < 2 ^ 59 := by
  rw [wordsOf_toNat]
  omega

/-- A cost per word does not overflow. -/
theorem wordCost_toNat {base per : Word} (h : base.toNat + per.toNat * 2 ^ 59 ≤ 2 ^ 64) (n : Word) :
    (base + per * wordsOf n).toNat = base.toNat + per.toNat * (wordsOf n).toNat := by
  have hwords : per.toNat * (wordsOf n).toNat ≤ per.toNat * (2 ^ 59 - 1) :=
    Nat.mul_le_mul_left _ (Nat.le_sub_one_of_lt (wordsOf_lt n))
  have hbase := base.isLt
  rw [BitVec.toNat_add, BitVec.toNat_mul, Nat.mod_eq_of_lt (a := per.toNat * _) (by omega)]
  rw [Nat.mod_eq_of_lt]
  omega

end StatelessGuest
