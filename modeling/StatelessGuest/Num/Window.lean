import StatelessGuest.Lib.PowerLadder
import StatelessGuest.Num.Shift

/-!
# Windowed powers modulo the primes of secp256k1

A power is computed from a table of the first fifteen powers of the base, by a window of four bits
of the exponent at a time. The entry for zero is left as it is and never read.

* `secpAccelFpPow4`, `secpAccelFnPow4`: the powers by windows; `fpPow`, `fnPow`: bit by bit.
* `windowPow_eq`: both are the power.
* `windowed_power_exact`: so are the inverses and the candidate for a square root.
-/

namespace StatelessGuest.Limb

open Lib

/-! ## The programs -/

/-- Products modulo the prime of the field and modulo the order of the group (`@arith256mod`). -/
class SecpAccel where
  secpAccelModmulP : U256 → U256 → U256
  secpAccelModmulN : U256 → U256 → U256

export SecpAccel (secpAccelModmulP secpAccelModmulN)

def secpP : U256 := ⟨-4294968273, -1, -1, -1⟩

def secpPMinus2 : U256 := ⟨-4294968275, -1, -1, -1⟩

def secpSqrtExp : U256 := ⟨-1073742068, -1, -1, 4611686018427387903⟩

def secpN : U256 := ⟨-4624529908474429119, -4994812053365940165, -2, -1⟩

def secpNMinus2 : U256 := ⟨-4624529908474429121, -4994812053365940165, -2, -1⟩

/-- The entries of the table that are written. -/
abbrev PowTable := Nat → Option U256

/-- Reading an entry that was not written is a stray access. -/
def PowTable.read [Stray] (table : PowTable) (d : Nat) : Except Exn U256 :=
  match table d with
  | some x => .ok x
  | none => .error Stray.exn

/-- `while d <= 15`, with `left` rounds to go. -/
def fillTable (mul : U256 → U256 → U256) (a : U256) : Nat → Nat → U256 → PowTable → PowTable
  | 0, _, _, table => table
  | left + 1, d, t, table =>
    let t := mul t a
    fillTable mul a left (d + 1) t (Function.update table d (some t))

def powTable (mul : U256 → U256 → U256) (a : U256) : PowTable :=
  fillTable mul a 14 2 a (Function.update (fun _ => none) 1 (some a))

/-- The digit of the exponent in a window. -/
def windowDigit (e : U256) (win : Nat) : Word :=
  let limb := win >>> 4
  let shift := (win &&& 15) * 4
  let ew := e.l0
  let ew := if limb = 1 then e.l1 else ew
  let ew := if limb = 2 then e.l2 else ew
  let ew := if limb = 3 then e.l3 else ew
  (ew >>> shift) &&& 15

/-- The windows below `win`, the highest one first. -/
def windowRounds [Stray] (mul : U256 → U256 → U256) (table : PowTable) (e : U256) :
    Nat → U256 → Except Exn U256
  | 0, r => .ok r
  | win + 1, r =>
    let r := mul r r
    let r := mul r r
    let r := mul r r
    let r := mul r r
    let digit := windowDigit e win
    if digit ≠ 0 then do
      let x ← table.read digit.toNat
      windowRounds mul table e win (mul r x)
    else windowRounds mul table e win r

def windowPow [Stray] (mul : U256 → U256 → U256) (a e : U256) : Except Exn U256 :=
  windowRounds mul (powTable mul a) e 64 (u256FromWord 1)

/-- Bit by bit from the top, without squares before the first bit that is set. -/
def bitPow (mul : U256 → U256 → U256) (a e : U256) : U256 :=
  ladder (fun r => mul r r) (fun r => mul r a) (fun i => u256Bit e (BitVec.ofNat 64 i) == 1) 256
    false (u256FromWord 1)

section

variable [Stray] [SecpAccel]

def secpAccelFpPow4 (a e : U256) : Except Exn U256 := windowPow secpAccelModmulP a e

def fpPow (a e : U256) : U256 := bitPow secpAccelModmulP a e

def fpInvFermat (a : U256) : U256 := fpPow a secpPMinus2

def fpInv (a : U256) : Except Exn U256 := secpAccelFpPow4 a secpPMinus2

def fpSqrt (a : U256) : Except Exn U256 := secpAccelFpPow4 a secpSqrtExp

def secpAccelFnPow4 (a e : U256) : Except Exn U256 := windowPow secpAccelModmulN a e

def fnPow (a e : U256) : U256 := bitPow secpAccelModmulN a e

def fnInvFermat (a : U256) : U256 := fnPow a secpNMinus2

def fnInv (a : U256) : Except Exn U256 := secpAccelFnPow4 a secpNMinus2

end

/-! ## Powers modulo a number -/

/-- The product of two residues is the one modulo `m`. -/
structure Modular (mul : U256 → U256 → U256) (m : Nat) : Prop where
  one_lt : 1 < m
  exact : ∀ a b : U256, a.toNat < m → b.toNat < m → (mul a b).toNat = a.toNat * b.toNat % m

section

variable {mul : U256 → U256 → U256} {m : Nat} {a r x : U256} {j k : Nat}

/-- The residue of a power of the base. -/
def IsPower (m : Nat) (a : U256) (k : Nat) (r : U256) : Prop := r.toNat = a.toNat ^ k % m

theorem Modular.mul_power (h : Modular mul m) (hr : IsPower m a j r) (hx : IsPower m a k x) :
    IsPower m a (j + k) (mul r x) := by
  have hpos : 0 < m := Nat.lt_trans Nat.zero_lt_one h.one_lt
  have hlt : ∀ {i y}, IsPower m a i y → y.toNat < m := by
    intro i y hy
    rw [hy]
    exact Nat.mod_lt _ hpos
  rw [IsPower, h.exact r x (hlt hr) (hlt hx), hr, hx, ← Nat.mul_mod, Nat.pow_add]

theorem Modular.one_power (h : Modular mul m) (a : U256) : IsPower m a 0 (u256FromWord 1) := by
  rw [IsPower, Nat.pow_zero, Nat.mod_eq_of_lt h.one_lt]
  rfl

theorem isPower_base (ha : a.toNat < m) : IsPower m a 1 a := by
  rw [IsPower, Nat.pow_one, Nat.mod_eq_of_lt ha]

theorem IsPower.unique (hr : IsPower m a k r) (hx : IsPower m a k x) : r = x :=
  U256.toNat_injective (hr.trans hx.symm)

/-! ## The table -/

/-- The entries before `d` are there. -/
def Filled (m : Nat) (a : U256) (d : Nat) (table : PowTable) : Prop :=
  ∀ k, 1 ≤ k → k < d → ∃ x, table k = some x ∧ IsPower m a k x

theorem Filled.next {d : Nat} {table : PowTable} (h : Filled m a d table) (hx : IsPower m a d x) :
    Filled m a (d + 1) (Function.update table d (some x)) := by
  intro k hk hlt
  rcases Nat.lt_succ_iff_lt_or_eq.mp hlt with hbelow | rfl
  · rw [Function.update_of_ne (by omega)]
    exact h k hk hbelow
  · exact ⟨x, Function.update_self .., hx⟩

theorem filled_fillTable (hmul : Modular mul m) (ha : a.toNat < m) (left : Nat) {d : Nat}
    {t : U256} {table : PowTable} (ht : IsPower m a d t) (h : Filled m a (d + 1) table) :
    Filled m a (d + 1 + left) (fillTable mul a left (d + 1) t table) := by
  induction left generalizing d t table with
  | zero => exact h
  | succ left ih =>
    have hnext := hmul.mul_power ht (isPower_base ha)
    have hfill := ih hnext (h.next hnext)
    rw [show d + 1 + (left + 1) = d + 1 + 1 + left by omega]
    exact hfill

theorem filled_powTable (hmul : Modular mul m) (ha : a.toNat < m) :
    Filled m a 16 (powTable mul a) := by
  have hnone : Filled m a 1 (fun _ => none) := fun k hk hlt => absurd hk (Nat.not_le.mpr hlt)
  exact filled_fillTable hmul ha 14 (isPower_base ha) (hnone.next (isPower_base ha))

/-! ## The windows -/

theorem toNat_windowDigit (e : U256) {win : Nat} (hwin : win < 64) :
    (windowDigit e win).toNat = e.toNat / 16 ^ win % 16 := by
  have hlimb : win >>> 4 = win / 16 := Nat.shiftRight_eq_div_pow win 4
  have hshift : (win &&& 15) * 4 = 4 * win % 64 := by
    rw [show (15 : Nat) = 2 ^ 4 - 1 from rfl, Nat.and_two_pow_sub_one_eq_mod]
    omega
  have hword : (windowDigit e win) = (e.limb (win / 16) >>> (4 * win % 64)) &&& 15 := by
    unfold windowDigit
    dsimp only
    rw [hlimb, hshift]
    generalize hi : win / 16 = i
    match i with
    | 0 => rfl
    | 1 => rfl
    | 2 => rfl
    | 3 => rfl
    | i + 4 => omega
  rw [hword, BitVec.toNat_and, toNat_shiftRight, show (15 : Word).toNat = 2 ^ 4 - 1 from rfl,
    Nat.and_two_pow_sub_one_eq_mod, show (16 : Nat) = 2 ^ 4 from rfl, ← Nat.pow_mul]
  refine Nat.eq_of_testBit_eq fun j => ?_
  rw [Nat.testBit_mod_two_pow, Nat.testBit_mod_two_pow, Nat.testBit_div_two_pow,
    Nat.testBit_div_two_pow]
  by_cases hj : j < 4
  · rw [U256.testBit_toNat, show (j + 4 * win) / 64 = win / 2 ^ 4 by omega,
      show (j + 4 * win) % 64 = j + 4 * win % 64 by omega]
    rfl
  · rw [decide_eq_false hj, Bool.false_and, Bool.false_and]

/-- The windows from `win` on have been read. -/
theorem windowRounds_power [Stray] (hmul : Modular mul m) {table : PowTable}
    (htable : Filled m a 16 table) (e : U256) {win : Nat} (hwin : win ≤ 64)
    (hr : IsPower m a (e.toNat / 16 ^ win) r) :
    ∃ y, windowRounds mul table e win r = .ok y ∧ IsPower m a e.toNat y := by
  induction win generalizing r with
  | zero =>
    rw [Nat.pow_zero, Nat.div_one] at hr
    exact ⟨r, rfl, hr⟩
  | succ win ih =>
    have hdigit := toNat_windowDigit e hwin
    have hsplit : e.toNat / 16 ^ win =
        16 * (e.toNat / 16 ^ (win + 1)) + e.toNat / 16 ^ win % 16 := by
      rw [Nat.pow_succ, ← Nat.div_div_eq_div_mul]
      omega
    generalize e.toNat / 16 ^ (win + 1) = high at hr hsplit
    have h2 := hmul.mul_power hr hr
    have h4 := hmul.mul_power h2 h2
    have h8 := hmul.mul_power h4 h4
    have h16 := hmul.mul_power h8 h8
    rw [show high + high + (high + high) + (high + high + (high + high)) +
      (high + high + (high + high) + (high + high + (high + high))) = 16 * high by omega] at h16
    unfold windowRounds
    dsimp only
    split
    · next hne =>
      have hpos : 1 ≤ (windowDigit e win).toNat := by
        refine Nat.pos_of_ne_zero fun h0 => hne ?_
        exact BitVec.eq_of_toNat_eq h0
      obtain ⟨x, hx, hpower⟩ := htable (windowDigit e win).toNat hpos (by omega)
      rw [PowTable.read, hx]
      refine ih (by omega) ?_
      rw [hsplit, ← hdigit]
      exact hmul.mul_power h16 hpower
    · next hzero =>
      rw [Decidable.not_not] at hzero
      refine ih (by omega) ?_
      rw [hzero] at hdigit
      rw [hsplit, ← hdigit]
      exact h16

theorem bitPow_power (hmul : Modular mul m) (ha : a.toNat < m) (e : U256) :
    IsPower m a e.toNat (bitPow mul a e) := by
  have hbits : ∀ i < 256, (u256Bit e (BitVec.ofNat 64 i) == 1) = e.toNat.testBit i := by
    intro i hi
    have hi' : (BitVec.ofNat 64 i).toNat = i := by
      rw [BitVec.toNat_ofNat, Nat.mod_eq_of_lt (by omega)]
    have hbit := u256Bit_eq_one e (t := BitVec.ofNat 64 i) (by omega)
    rw [hi'] at hbit
    rw [Bool.eq_iff_iff, beq_iff_eq, hbit]
  unfold bitPow
  rw [ladder_congr _ _ hbits]
  refine ladder_run (IsPower m a) (fun k s hs => ?_) (fun k s hs => ?_) e.toNat_lt
    (hmul.one_power a)
  · rw [Nat.two_mul]
    exact hmul.mul_power hs hs
  · exact hmul.mul_power hs (isPower_base ha)

/-- The power by windows is the one bit by bit. -/
theorem windowPow_eq [Stray] (hmul : Modular mul m) (ha : a.toNat < m) (e : U256) :
    windowPow mul a e = .ok (bitPow mul a e) ∧ (bitPow mul a e).toNat = a.toNat ^ e.toNat % m := by
  have hbits := bitPow_power hmul ha e
  have hzero : e.toNat / 16 ^ 64 = 0 := Nat.div_eq_of_lt e.toNat_lt
  obtain ⟨y, hrun, hy⟩ := windowRounds_power hmul (filled_powTable hmul ha) e (Nat.le_refl 64)
    (show IsPower m a (e.toNat / 16 ^ 64) (u256FromWord 1) from hzero ▸ hmul.one_power a)
  refine ⟨?_, hbits⟩
  rw [← hy.unique hbits]
  exact hrun

end

/-! ## Inverses and square roots -/

theorem toNat_secpPMinus2 : secpPMinus2.toNat = secpP.toNat - 2 := by decide

theorem toNat_secpNMinus2 : secpNMinus2.toNat = secpN.toNat - 2 := by decide

theorem toNat_secpSqrtExp : secpSqrtExp.toNat = (secpP.toNat + 1) / 4 := by decide

/-- With exact products, the powers by windows are those bit by bit, and the inverses and the
candidate for a square root are the powers that they stand for. -/
theorem windowed_power_exact [Stray] [SecpAccel] (hp : Modular secpAccelModmulP secpP.toNat)
    (hn : Modular secpAccelModmulN secpN.toNat) :
    (∀ a e : U256, a.toNat < secpP.toNat → secpAccelFpPow4 a e = .ok (fpPow a e) ∧
      (fpPow a e).toNat = a.toNat ^ e.toNat % secpP.toNat) ∧
    (∀ a e : U256, a.toNat < secpN.toNat → secpAccelFnPow4 a e = .ok (fnPow a e) ∧
      (fnPow a e).toNat = a.toNat ^ e.toNat % secpN.toNat) ∧
    (∀ a : U256, a.toNat < secpP.toNat → fpInv a = .ok (fpInvFermat a) ∧
      (fpInvFermat a).toNat = a.toNat ^ (secpP.toNat - 2) % secpP.toNat) ∧
    (∀ a : U256, a.toNat < secpN.toNat → fnInv a = .ok (fnInvFermat a) ∧
      (fnInvFermat a).toNat = a.toNat ^ (secpN.toNat - 2) % secpN.toNat) ∧
    ∀ a : U256, a.toNat < secpP.toNat → ∃ r, fpSqrt a = .ok r ∧
      r.toNat = a.toNat ^ ((secpP.toNat + 1) / 4) % secpP.toNat := by
  refine ⟨fun a e ha => windowPow_eq hp ha e, fun a e ha => windowPow_eq hn ha e, fun a ha => ?_,
    fun a ha => ?_, fun a ha => ?_⟩
  · rw [← toNat_secpPMinus2]
    exact windowPow_eq hp ha secpPMinus2
  · rw [← toNat_secpNMinus2]
    exact windowPow_eq hn ha secpNMinus2
  · rw [← toNat_secpSqrtExp]
    exact ⟨_, windowPow_eq hp ha secpSqrtExp⟩

/-- The residue of a product. -/
def residueProduct (m : Nat) (a b : U256) : U256 :=
  let x := a.toNat * b.toNat % m
  ⟨BitVec.ofNat 64 x, BitVec.ofNat 64 (x / 2 ^ 64), BitVec.ofNat 64 (x / 2 ^ 128),
    BitVec.ofNat 64 (x / 2 ^ 192)⟩

theorem modular_residueProduct {m : U256} (h : 1 < m.toNat) :
    Modular (residueProduct m.toNat) m.toNat where
  one_lt := h
  exact a b _ _ := by
    have hlt : a.toNat * b.toNat % m.toNat < 2 ^ 256 :=
      Nat.lt_trans (Nat.mod_lt _ (by omega)) m.toNat_lt
    rw [residueProduct]
    generalize a.toNat * b.toNat % m.toNat = x at hlt ⊢
    unfold U256.toNat
    simp only [BitVec.toNat_ofNat]
    omega

/-- Products as the accelerator computes them, and three to the tenth. -/
theorem windowed_power_exact_three :
    let _ : Stray := ⟨.outOfFuel⟩
    let _ : SecpAccel := ⟨residueProduct secpP.toNat, residueProduct secpN.toNat⟩
    ∃ r, secpAccelFpPow4 (u256FromWord 3) (u256FromWord 10) = .ok r ∧ r.toNat = 59049 := by
  intro _ _
  have h := (windowed_power_exact (modular_residueProduct (m := secpP) (by decide))
    (modular_residueProduct (m := secpN) (by decide))).1 (u256FromWord 3) (u256FromWord 10)
      (by decide)
  exact ⟨_, h.1, h.2⟩

end StatelessGuest.Limb
