import Mathlib.Data.Nat.ModEq

/-!
# Inverses by halving

The extended Euclidean algorithm on an odd modulus, with halves and differences instead of
quotients. Each number carries the residue whose product with the input it is.

* `Halving`: the operations of the algorithm on numbers of some width.
* `Halving.invert`: the loop, which need not end.
* `Halving.Exact`: what the operations compute.
* `Halving.invert_exact`: the loop ends with the inverse.
-/

namespace StatelessGuest.Lib

/-- Tests, halves and differences of numbers, and halves and differences of residues. -/
structure Halving (α : Type) where
  isOne : α → Bool
  isEven : α → Bool
  lt : α → α → Bool
  shr1 : α → α
  sub : α → α → α
  half : α → α
  modSub : α → α → α

namespace Halving

variable {α : Type}

/-- Halve a number, and its residue with it, until the number is odd. -/
def halve (o : Halving α) : Nat → α → α → Option (α × α)
  | 0, _, _ => none
  | fuel + 1, u, x => if o.isEven u then o.halve fuel (o.shr1 u) (o.half x) else some (u, x)

/-- Subtract the smaller number from the larger one until one of them is 1. -/
def invert (o : Halving α) : Nat → α → α → α → α → Option α
  | 0, _, _, _, _ => none
  | fuel + 1, u, v, x1, x2 =>
    if o.isOne u then some x1
    else if o.isOne v then some x2
    else do
      let s ← o.halve fuel u x1
      let t ← o.halve fuel v x2
      if o.lt s.1 t.1 then o.invert fuel s.1 (o.sub t.1 s.1) s.2 (o.modSub t.2 s.2)
      else o.invert fuel (o.sub s.1 t.1) t.1 (o.modSub s.2 t.2) t.2

/-- The operations compute what they are named for, on residues of the odd modulus `m`. -/
structure Exact (o : Halving α) (val : α → Nat) (m : Nat) : Prop where
  odd : m % 2 = 1
  isOne : ∀ a, o.isOne a = true ↔ val a = 1
  isEven : ∀ a, o.isEven a = true ↔ val a % 2 = 0
  lt : ∀ a b, o.lt a b = true ↔ val a < val b
  shr1 : ∀ a, val (o.shr1 a) = val a / 2
  sub : ∀ a b, val b ≤ val a → val (o.sub a b) = val a - val b
  half : ∀ x, val x < m → val (o.half x) < m ∧ 2 * val (o.half x) ≡ val x [MOD m]
  modSub : ∀ x y, val x < m → val y < m →
    val (o.modSub x y) < m ∧ val (o.modSub x y) + val y ≡ val x [MOD m]

/-- The half of a residue, of itself or of its sum with the odd modulus. -/
theorem half_modEq {m x y : Nat} (hm : m % 2 = 1) (hx : x < m)
    (hy : y = if x % 2 = 0 then x / 2 else (x + m) / 2) : y < m ∧ 2 * y ≡ x [MOD m] := by
  split at hy
  · exact ⟨by omega, by rw [show 2 * y = x by omega]⟩
  · refine ⟨by omega, ?_⟩
    rw [show 2 * y = x + m by omega]
    exact Nat.add_modEq_right

/-- The difference of residues, with the modulus added where it is negative. -/
theorem sub_modEq {m x y d : Nat} (hx : x < m) (hy : y < m)
    (hd : d = if x < y then x + m - y else x - y) : d < m ∧ d + y ≡ x [MOD m] := by
  split at hd
  · refine ⟨by omega, ?_⟩
    rw [show d + y = x + m by omega]
    exact Nat.add_modEq_right
  · exact ⟨by omega, by rw [show d + y = x by omega]⟩

/-- The residue `x` that `u` carries: its product with `a` is `u`. -/
structure Carries (val : α → Nat) (m a : Nat) (u x : α) : Prop where
  lt : val x < m
  eq : a * val x ≡ val u [MOD m]

section

variable {o : Halving α} {val : α → Nat} {m a fuel : Nat} {u v x y x1 x2 : α}

theorem Exact.coprime_two (h : o.Exact val m) : Nat.gcd m 2 = 1 := by
  rw [Nat.gcd_comm, Nat.gcd_rec, h.odd, Nat.gcd_one_left]

theorem Carries.halved (h : o.Exact val m) (hx : Carries val m a u x) (heven : val u % 2 = 0) :
    Carries val m a (o.shr1 u) (o.half x) := by
  obtain ⟨hlt, hhalf⟩ := h.half x hx.lt
  refine ⟨hlt, Nat.ModEq.cancel_left_of_coprime h.coprime_two ?_⟩
  calc 2 * (a * val (o.half x)) = a * (2 * val (o.half x)) := Nat.mul_left_comm ..
    _ ≡ a * val x [MOD m] := hhalf.mul_left a
    _ ≡ val u [MOD m] := hx.eq
    _ = 2 * val (o.shr1 u) := by rw [h.shr1, Nat.mul_div_cancel' (Nat.dvd_of_mod_eq_zero heven)]

theorem Carries.sub (h : o.Exact val m) (hx : Carries val m a u x) (hy : Carries val m a v y)
    (hle : val v ≤ val u) : Carries val m a (o.sub u v) (o.modSub x y) := by
  obtain ⟨hlt, hdiff⟩ := h.modSub x y hx.lt hy.lt
  refine ⟨hlt, Nat.ModEq.add_right_cancel hy.eq ?_⟩
  calc a * val (o.modSub x y) + a * val y = a * (val (o.modSub x y) + val y) := by rw [Nat.mul_add]
    _ ≡ a * val x [MOD m] := hdiff.mul_left a
    _ ≡ val u [MOD m] := hx.eq
    _ = val (o.sub u v) + val v := by rw [h.sub u v hle, Nat.sub_add_cancel hle]

/-- The odd part of a number is found, and it carries its own residue. -/
theorem halve_exact (h : o.Exact val m) : ∀ {fuel : Nat} {u x : α}, 0 < val u →
    val u < 2 ^ fuel → Carries val m a u x →
    ∃ k u' x', o.halve fuel u x = some (u', x') ∧ val u = 2 ^ k * val u' ∧ val u' % 2 = 1 ∧
      Carries val m a u' x' := by
  intro fuel
  induction fuel with
  | zero =>
    intro u x hpos hlt _
    omega
  | succ fuel ih =>
    intro u x hpos hlt hx
    by_cases heven : val u % 2 = 0
    · have hshr := h.shr1 u
      rw [Nat.pow_succ] at hlt
      obtain ⟨k, u', x', hrun, hu, hodd, hcarry⟩ :=
        ih (by omega) (by omega) (hx.halved h heven)
      refine ⟨k + 1, u', x', ?_, ?_, hodd, hcarry⟩
      · rw [halve, if_pos ((h.isEven u).mpr heven), hrun]
      · rw [Nat.pow_succ, Nat.mul_comm (2 ^ k), Nat.mul_assoc, ← hu, hshr]
        omega
    · refine ⟨0, u, x, ?_, ?_, by omega, hx⟩
      · rw [halve, if_neg fun he => heven ((h.isEven u).mp he)]
      · rw [Nat.pow_zero, Nat.one_mul]

/-- Odd parts of coprime numbers of which neither is 1 are different. -/
theorem odd_parts_ne {u v u' v' k l : Nat} (hu : u = 2 ^ k * u') (hv : v = 2 ^ l * v')
    (hcop : Nat.Coprime u v) (hune : u ≠ 1) (hvne : v ≠ 1) : u' ≠ v' := by
  rintro rfl
  have hone : u' = 1 := Nat.dvd_one.mp (hcop ▸ Nat.dvd_gcd (Dvd.intro_left _ hu.symm)
    (Dvd.intro_left _ hv.symm))
  rw [hone, Nat.mul_one] at hu hv
  cases k with
  | zero => exact hune hu
  | succ k =>
    cases l with
    | zero => exact hvne hv
    | succ l =>
      rw [hu, hv, Nat.pow_succ, Nat.pow_succ] at hcop
      have htwo : (2 : Nat) ∣ 1 :=
        hcop ▸ Nat.dvd_gcd (Nat.dvd_mul_left 2 (2 ^ k)) (Nat.dvd_mul_left 2 (2 ^ l))
      omega

/-- A round makes the product of the two numbers less than half as large, except for a first one
that finds both odd. -/
theorem odd_parts_mul_lt {u v u' v' k l n : Nat} (hu : u = 2 ^ k * u') (hv : v = 2 ^ l * v')
    (hu' : u' % 2 = 1) (hv' : v' % 2 = 1) (hlt : u * v < 2 ^ (n + 1))
    (hodd : u % 2 = 1 → v % 2 = 1 → 2 * (u * v) < 2 ^ (n + 1)) : u' * v' < 2 ^ n := by
  have hmul : u * v = 2 ^ (k + l) * (u' * v') := by
    rw [hu, hv, Nat.pow_add]
    exact Nat.mul_mul_mul_comm ..
  rw [Nat.pow_succ] at hlt hodd
  by_cases hkl : k + l = 0
  · rw [hkl, Nat.pow_zero, Nat.one_mul] at hmul
    obtain ⟨rfl, rfl⟩ := Nat.add_eq_zero_iff.mp hkl
    rw [Nat.pow_zero, Nat.one_mul] at hu hv
    have := hodd (hu ▸ hu') (hv ▸ hv')
    omega
  · have htwo : 2 ≤ 2 ^ (k + l) := Nat.le_pow (Nat.pos_of_ne_zero hkl)
    have := Nat.mul_le_mul_right (u' * v') htwo
    omega

/-- The loop ends with the residue that 1 carries. -/
theorem invert_run (h : o.Exact val m) : ∀ {fuel : Nat} {u v x1 x2 : α},
    0 < val u → 0 < val v → Nat.Coprime (val u) (val v) →
    Carries val m a u x1 → Carries val m a v x2 → val u * val v < 2 ^ fuel →
    (val u % 2 = 1 → val v % 2 = 1 → 2 * (val u * val v) < 2 ^ fuel) →
    ∃ x, o.invert (fuel + 1) u v x1 x2 = some x ∧ val x < m ∧ a * val x ≡ 1 [MOD m] := by
  intro fuel
  induction fuel with
  | zero =>
    intro u v x1 x2 hu hv _ _ _ hlt _
    have := Nat.mul_pos hu hv
    omega
  | succ fuel ih =>
    intro u v x1 x2 hu hv hcop hx1 hx2 hlt hodd
    rw [invert]
    by_cases hu1 : val u = 1
    · exact ⟨x1, if_pos ((h.isOne u).mpr hu1), hx1.lt, hu1 ▸ hx1.eq⟩
    rw [if_neg fun he => hu1 ((h.isOne u).mp he)]
    by_cases hv1 : val v = 1
    · exact ⟨x2, if_pos ((h.isOne v).mpr hv1), hx2.lt, hv1 ▸ hx2.eq⟩
    rw [if_neg fun he => hv1 ((h.isOne v).mp he)]
    have hule : val u ≤ val u * val v := Nat.le_mul_of_pos_right _ hv
    have hvle : val v ≤ val u * val v := Nat.le_mul_of_pos_left _ hu
    obtain ⟨k, u', y1, hhalve, hku, huodd, hy1⟩ := halve_exact h hu (Nat.lt_of_le_of_lt hule hlt) hx1
    obtain ⟨l, v', y2, hhalve', hlv, hvodd, hy2⟩ := halve_exact h hv (Nat.lt_of_le_of_lt hvle hlt) hx2
    have hne := odd_parts_ne hku hlv hcop hu1 hv1
    have hmul := odd_parts_mul_lt hku hlv huodd hvodd hlt hodd
    have hcop' : Nat.Coprime (val u') (val v') := by
      rw [hku, hlv] at hcop
      exact hcop.coprime_mul_left.coprime_mul_left_right
    simp only [hhalve, hhalve', Option.bind_eq_bind, Option.bind_some]
    by_cases hlt' : val u' < val v'
    · have hsub := h.sub v' u' (Nat.le_of_lt hlt')
      rw [if_pos ((h.lt u' v').mpr hlt')]
      refine ih (by omega) (by omega) ?_ hy1 (hy2.sub h hy1 (Nat.le_of_lt hlt')) ?_ (by omega)
      · rw [hsub]
        exact (Nat.coprime_sub_self_right (Nat.le_of_lt hlt')).mpr hcop'
      · rw [hsub]
        exact Nat.lt_of_le_of_lt (Nat.mul_le_mul_left _ (Nat.sub_le ..)) hmul
    · have hge := Nat.le_of_not_lt hlt'
      have hsub := h.sub u' v' hge
      rw [if_neg fun he => hlt' ((h.lt u' v').mp he)]
      refine ih (by omega) (by omega) ?_ (hy1.sub h hy2 hge) hy2 ?_ (by omega)
      · rw [hsub]
        exact (Nat.coprime_sub_self_left hge).mpr hcop'
      · rw [hsub]
        exact Nat.lt_of_le_of_lt (Nat.mul_le_mul_right _ (Nat.sub_le ..)) hmul

/-- Started with the input and the modulus, numbers of `w` bits, the loop ends with the inverse
after at most two rounds a bit. -/
theorem invert_exact (h : o.Exact val m) {w : Nat} (hu : 0 < val u) (hcop : Nat.Coprime (val u) m)
    (hv : val v = m) (hx1 : val x1 = 1) (hx2 : val x2 = 0) (hm : 1 < m) (huw : val u < 2 ^ w)
    (hmw : m < 2 ^ w) (hfuel : 2 * w + 1 < fuel) :
    ∃ x, o.invert fuel u v x1 x2 = some x ∧ val x < m ∧ val u * val x ≡ 1 [MOD m] := by
  subst hv
  obtain ⟨fuel, rfl⟩ : ∃ k, fuel = k + 1 := ⟨fuel - 1, by omega⟩
  have hprod : 2 * (val u * val v) < 2 ^ fuel := by
    calc 2 * (val u * val v) < 2 * (2 ^ w * 2 ^ w) :=
          Nat.mul_lt_mul_of_pos_left (Nat.mul_lt_mul'' huw hmw) Nat.two_pos
      _ = 2 ^ (w + w + 1) := by rw [Nat.pow_succ', Nat.pow_add]
      _ ≤ 2 ^ fuel := Nat.pow_le_pow_right Nat.two_pos (by omega)
  refine invert_run h hu (by omega) hcop ⟨by omega, ?_⟩ ⟨by omega, ?_⟩ (by omega) fun _ _ => hprod
  · rw [hx1, Nat.mul_one]
  · rw [hx2, Nat.mul_zero]
    exact (Nat.modEq_zero_iff_dvd.mpr (Nat.dvd_refl _)).symm

end

end Halving

end StatelessGuest.Lib
