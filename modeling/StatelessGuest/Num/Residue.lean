import Mathlib.Algebra.CharP.Basic
import StatelessGuest.Num.Inverse

/-!
# Limbs as residues

The limbs of a number below `m` stand for an element of a ring of characteristic `m`.

* `modAdd`: the sum of two residues.
* `Residue m a x`: the limbs `a` are reduced and stand for `x`.
* `Residue.add`, `Residue.sub`, `Residue.eq_iff`, ...: the operations on them.
-/

namespace StatelessGuest.Limb

/-- The sum is below `2 * m`, and one subtraction is enough. -/
def modAdd (x y m : U256) : U256 :=
  let s := u256AddCarry x y
  if s.2 = 1 then u256Sub s.1 m
  else if u256Lt s.1 m then s.1
  else u256Sub s.1 m

section

variable {a b m : U256}

theorem toNat_modAdd (ha : a.toNat < m.toNat) (hb : b.toNat < m.toNat) :
    (modAdd a b m).toNat =
      if a.toNat + b.toNat < m.toNat then a.toNat + b.toNat else a.toNat + b.toNat - m.toNat := by
  have hm := m.toNat_lt
  obtain ⟨hsum, hcarry⟩ := u256AddCarry_value a b
  unfold modAdd
  generalize u256AddCarry a b = s at *
  have hs := s.1.toNat_lt
  have hsub := toNat_u256Sub s.1 m
  dsimp only
  by_cases hone : s.2 = 1
  · rw [if_pos hone, hsub]
    rw [hone, show (1 : Word).toNat = 1 from rfl] at hsum
    rw [if_neg (by omega)]
    omega
  · have hzero : s.2.toNat ≠ 1 := fun h => hone (BitVec.eq_of_toNat_eq h)
    rw [if_neg hone]
    by_cases hlt : s.1.toNat < m.toNat
    · rw [if_pos ((u256Lt_iff _ _).mpr hlt), if_pos (by omega)]
      omega
    · rw [if_neg fun h => hlt ((u256Lt_iff _ _).mp h), if_neg (by omega), hsub]
      omega

variable {F : Type} [CommRing F] {x y : F}

/-- The limbs are below `m` and stand for `x`. -/
def Residue (m a : U256) (x : F) : Prop := a.toNat < m.toNat ∧ (a.toNat : F) = x

theorem residue_of_lt (h : a.toNat < m.toNat) : Residue m a (a.toNat : F) := ⟨h, rfl⟩

theorem Residue.congr (h : Residue m a x) (hxy : x = y) : Residue m a y := hxy ▸ h

theorem Residue.zero (hm : 0 < m.toNat) : Residue m .zero (0 : F) := ⟨hm, Nat.cast_zero⟩

theorem Residue.one (hm : 1 < m.toNat) : Residue m ⟨1, 0, 0, 0⟩ (1 : F) := ⟨hm, Nat.cast_one⟩

variable [CharP F m.toNat]

theorem residue_of_mod {v : Nat} (hm : 0 < m.toNat) (h : a.toNat = v % m.toNat) :
    Residue m a (v : F) := by
  refine ⟨?_, ?_⟩
  · rw [h]
    exact Nat.mod_lt _ hm
  · rw [h, ← CharP.cast_eq_mod F m.toNat v]

/-- Numbers below `m` are different elements. -/
theorem natCast_inj_of_lt (F : Type) [CommRing F] [CharP F m.toNat] {j k : Nat} (hj : j < m.toNat) (hk : k < m.toNat) :
    (j : F) = k ↔ j = k :=
  ⟨fun h => CharP.natCast_injOn_Iio F m.toNat hj hk h, fun h => by rw [h]⟩

namespace Residue

/-- Equal limbs stand for equal residues, and different ones for different ones. -/
theorem eq_iff (ha : Residue m a x) (hb : Residue m b y) : a = b ↔ x = y := by
  rw [← ha.2, ← hb.2, natCast_inj_of_lt F ha.1 hb.1]
  exact ⟨fun h => by rw [h], U256.toNat_injective⟩

theorem isZero_iff (h : Residue m a x) : a.IsZero ↔ x = 0 := by
  have hpos := Nat.zero_lt_of_lt h.1
  rw [U256.isZero_iff, ← natCast_inj_of_lt F h.1 hpos, h.2, Nat.cast_zero]

theorem add (ha : Residue m a x) (hb : Residue m b y) : Residue m (modAdd a b m) (x + y) := by
  have hval := toNat_modAdd ha.1 hb.1
  have hax := ha.1
  have hby := hb.1
  rw [← ha.2, ← hb.2, ← Nat.cast_add]
  refine residue_of_mod (by omega) ?_
  rw [hval]
  split
  · next hlt => rw [Nat.mod_eq_of_lt hlt]
  · next hge => rw [Nat.mod_eq_sub_mod (Nat.not_lt.mp hge), Nat.mod_eq_of_lt (by omega)]

theorem sub (ha : Residue m a x) (hb : Residue m b y) : Residue m (modSub a b m) (x - y) := by
  have hval := toNat_modSub ha.1 hb.1
  have hax := ha.1
  have hby := hb.1
  refine ⟨by rw [hval]; split <;> omega, ?_⟩
  rw [eq_sub_iff_add_eq, ← ha.2, ← hb.2, ← Nat.cast_add, hval]
  split
  · next hlt =>
    rw [Nat.sub_add_cancel (by omega), Nat.cast_add, CharP.cast_eq_zero F m.toNat, add_zero]
  · next hge => rw [Nat.sub_add_cancel (Nat.not_lt.mp hge)]

end Residue

end

end StatelessGuest.Limb
