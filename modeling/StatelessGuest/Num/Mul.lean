import Mathlib.Data.Nat.Size
import StatelessGuest.Num.Limbs

/-!
# Products and powers of 256-bit integers

The product is added up column by column from the products of the limbs. A power is computed by
squaring, from the lowest bit of the exponent on.

* `u256Mul`, `u256MulFull`, `u256Exp`, `bitLength64`.
* `toNat_u256MulFull`: the product is exact; `toNat_u256Mul`: modulo `2 ^ 256`.
* `multiplication_exact`: all of it, with the powers.
-/

namespace StatelessGuest.Limb

/-! ## Products -/

/-- Eight words, the least significant first. -/
structure U512 where
  lo : U256
  hi : U256
  deriving DecidableEq, Repr

def U512.toNat (a : U512) : Nat := a.lo.toNat + 2 ^ 256 * a.hi.toNat

/-- Both are a single word. -/
def SingleWords (a b : U256) : Prop := (a.l1 ||| a.l2 ||| a.l3 ||| b.l1 ||| b.l2 ||| b.l3) = 0

instance (a b : U256) : Decidable (SingleWords a b) := inferInstanceAs (Decidable (_ = _))

/-- The last column keeps only its low word. -/
def u256Mul (a b : U256) : U256 :=
  if SingleWords a b then
    let p := mul64x64 a.l0 b.l0
    ⟨p.1, p.2, 0, 0⟩
  else
    let p00 := mul64x64 a.l0 b.l0
    let p01 := mul64x64 a.l0 b.l1
    let p10 := mul64x64 a.l1 b.l0
    let p02 := mul64x64 a.l0 b.l2
    let p11 := mul64x64 a.l1 b.l1
    let p20 := mul64x64 a.l2 b.l0
    let c1 := column p00.2 [p01.1, p10.1]
    let c2 := column c1.2 [p01.2, p10.2, p02.1, p11.1, p20.1]
    let r3 := c2.2 + p02.2 + p11.2 + p20.2 + a.l0 * b.l3 + a.l1 * b.l2 + a.l2 * b.l1 + a.l3 * b.l0
    ⟨p00.1, c1.1, c2.1, r3⟩

def u256MulFull (a b : U256) : U512 :=
  let p00 := mul64x64 a.l0 b.l0
  let p01 := mul64x64 a.l0 b.l1
  let p10 := mul64x64 a.l1 b.l0
  let p02 := mul64x64 a.l0 b.l2
  let p11 := mul64x64 a.l1 b.l1
  let p20 := mul64x64 a.l2 b.l0
  let p03 := mul64x64 a.l0 b.l3
  let p12 := mul64x64 a.l1 b.l2
  let p21 := mul64x64 a.l2 b.l1
  let p30 := mul64x64 a.l3 b.l0
  let p13 := mul64x64 a.l1 b.l3
  let p22 := mul64x64 a.l2 b.l2
  let p31 := mul64x64 a.l3 b.l1
  let p23 := mul64x64 a.l2 b.l3
  let p32 := mul64x64 a.l3 b.l2
  let p33 := mul64x64 a.l3 b.l3
  let c1 := column p00.2 [p01.1, p10.1]
  let c2 := column c1.2 [p01.2, p10.2, p02.1, p11.1, p20.1]
  let c3 := column c2.2 [p02.2, p11.2, p20.2, p03.1, p12.1, p21.1, p30.1]
  let c4 := column c3.2 [p03.2, p12.2, p21.2, p30.2, p13.1, p22.1, p31.1]
  let c5 := column c4.2 [p13.2, p22.2, p31.2, p23.1, p32.1]
  let c6 := column c5.2 [p23.2, p32.2, p33.1]
  ⟨⟨p00.1, c1.1, c2.1, c3.1⟩, ⟨c4.1, c5.1, c6.1, c6.2 + p33.2⟩⟩

/-! ## Bits -/

/-- A part of a word that is not zero moves down and its length is counted. -/
def bitStep (k : Nat) (s : Word × Word) : Word × Word :=
  if s.2 >>> k ≠ 0 then (s.1 + BitVec.ofNat 64 k, s.2 >>> k) else s

/-- The number of significant bits of a word. -/
def bitLength64 (x : Word) : Word :=
  let s := bitStep 1 (bitStep 2 (bitStep 4 (bitStep 8 (bitStep 16 (bitStep 32 (0, x))))))
  s.1 + s.2

def u256BitLength (a : U256) : Word :=
  if a.l3 ≠ 0 then 192 + bitLength64 a.l3
  else if a.l2 ≠ 0 then 128 + bitLength64 a.l2
  else if a.l1 ≠ 0 then 64 + bitLength64 a.l1
  else bitLength64 a.l0

/-- Limb `i`, 0 from the fourth on. -/
def u256Limb (a : U256) (i : Word) : Word :=
  if i = 0 then a.l0
  else if i = 1 then a.l1
  else if i = 2 then a.l2
  else if i = 3 then a.l3
  else 0

/-- Bit `t`, 0 from 256 on. -/
def u256Bit (a : U256) (t : Word) : Word :=
  if 256 ≤ t then 0 else u256Limb a (t >>> 6) >>> (t &&& 63).toNat &&& 1

/-! ## Powers -/

/-- `while t < len`, with `left` rounds to go; the last one does not square the base. -/
def u256ExpLoop (b : U256) : Nat → Word → U256 → U256 → U256
  | 0, _, result, _ => result
  | left + 1, t, result, base =>
    let result := if u256Bit b t = 1 then u256Mul result base else result
    u256ExpLoop b left (t + 1) result (if left = 0 then base else u256Mul base base)

def u256Exp (a b : U256) : U256 :=
  u256ExpLoop b (u256BitLength b).toNat 0 (u256FromWord 1) a

/-! ## The product is exact -/

theorem sumWords_cons (x : Word) (xs : List Word) : sumWords (x :: xs) = x.toNat + sumWords xs := rfl

theorem sumWords_nil : sumWords [] = 0 := rfl

/-- A column of a product has at most seven terms. -/
theorem column_exact (start : Word) (xs : List Word) (hxs : xs.length ≤ 7) :
    (column start xs).1.toNat + 2 ^ 64 * (column start xs).2.toNat = start.toNat + sumWords xs :=
  column_value start (hxs.trans (by decide))

/-- The product of the values, limb by limb. -/
theorem toNat_mul_limbs (a b : U256) : a.toNat * b.toNat =
    a.l0.toNat * b.l0.toNat +
      2 ^ 64 * (a.l0.toNat * b.l1.toNat + a.l1.toNat * b.l0.toNat) +
      2 ^ 128 * (a.l0.toNat * b.l2.toNat + a.l1.toNat * b.l1.toNat + a.l2.toNat * b.l0.toNat) +
      2 ^ 192 * (a.l0.toNat * b.l3.toNat + a.l1.toNat * b.l2.toNat + a.l2.toNat * b.l1.toNat +
        a.l3.toNat * b.l0.toNat) +
      2 ^ 256 * (a.l1.toNat * b.l3.toNat + a.l2.toNat * b.l2.toNat + a.l3.toNat * b.l1.toNat) +
      2 ^ 64 * 2 ^ 256 * (a.l2.toNat * b.l3.toNat + a.l3.toNat * b.l2.toNat) +
      2 ^ 128 * 2 ^ 256 * (a.l3.toNat * b.l3.toNat) := by
  unfold U256.toNat
  ring

theorem toNat_u256MulFull (a b : U256) : (u256MulFull a b).toNat = a.toNat * b.toNat := by
  have h00 := mul64x64_value a.l0 b.l0
  have h01 := mul64x64_value a.l0 b.l1
  have h10 := mul64x64_value a.l1 b.l0
  have h02 := mul64x64_value a.l0 b.l2
  have h11 := mul64x64_value a.l1 b.l1
  have h20 := mul64x64_value a.l2 b.l0
  have h03 := mul64x64_value a.l0 b.l3
  have h12 := mul64x64_value a.l1 b.l2
  have h21 := mul64x64_value a.l2 b.l1
  have h30 := mul64x64_value a.l3 b.l0
  have h13 := mul64x64_value a.l1 b.l3
  have h22 := mul64x64_value a.l2 b.l2
  have h31 := mul64x64_value a.l3 b.l1
  have h23 := mul64x64_value a.l2 b.l3
  have h32 := mul64x64_value a.l3 b.l2
  have h33 := mul64x64_value a.l3 b.l3
  have hlt := Nat.mul_lt_mul'' a.toNat_lt b.toNat_lt
  have hprod := toNat_mul_limbs a b
  unfold u256MulFull
  dsimp only
  generalize mul64x64 a.l0 b.l0 = p00 at *
  generalize mul64x64 a.l0 b.l1 = p01 at *
  generalize mul64x64 a.l1 b.l0 = p10 at *
  generalize mul64x64 a.l0 b.l2 = p02 at *
  generalize mul64x64 a.l1 b.l1 = p11 at *
  generalize mul64x64 a.l2 b.l0 = p20 at *
  generalize mul64x64 a.l0 b.l3 = p03 at *
  generalize mul64x64 a.l1 b.l2 = p12 at *
  generalize mul64x64 a.l2 b.l1 = p21 at *
  generalize mul64x64 a.l3 b.l0 = p30 at *
  generalize mul64x64 a.l1 b.l3 = p13 at *
  generalize mul64x64 a.l2 b.l2 = p22 at *
  generalize mul64x64 a.l3 b.l1 = p31 at *
  generalize mul64x64 a.l2 b.l3 = p23 at *
  generalize mul64x64 a.l3 b.l2 = p32 at *
  generalize mul64x64 a.l3 b.l3 = p33 at *
  have hc1 := column_exact p00.2 [p01.1, p10.1] (by simp)
  generalize column p00.2 [p01.1, p10.1] = c1 at *
  have hc2 := column_exact c1.2 [p01.2, p10.2, p02.1, p11.1, p20.1] (by simp)
  generalize column c1.2 [p01.2, p10.2, p02.1, p11.1, p20.1] = c2 at *
  have hc3 := column_exact c2.2 [p02.2, p11.2, p20.2, p03.1, p12.1, p21.1, p30.1] (by simp)
  generalize column c2.2 [p02.2, p11.2, p20.2, p03.1, p12.1, p21.1, p30.1] = c3 at *
  have hc4 := column_exact c3.2 [p03.2, p12.2, p21.2, p30.2, p13.1, p22.1, p31.1] (by simp)
  generalize column c3.2 [p03.2, p12.2, p21.2, p30.2, p13.1, p22.1, p31.1] = c4 at *
  have hc5 := column_exact c4.2 [p13.2, p22.2, p31.2, p23.1, p32.1] (by simp)
  generalize column c4.2 [p13.2, p22.2, p31.2, p23.1, p32.1] = c5 at *
  have hc6 := column_exact c5.2 [p23.2, p32.2, p33.1] (by simp)
  generalize column c5.2 [p23.2, p32.2, p33.1] = c6 at *
  simp only [sumWords_cons, sumWords_nil] at hc1 hc2 hc3 hc4 hc5 hc6
  -- the value with the last sum taken over the naturals
  have hvalue : (U256.mk p00.1 c1.1 c2.1 c3.1).toNat +
      2 ^ 256 * (c4.1.toNat + 2 ^ 64 * c5.1.toNat + 2 ^ 128 * c6.1.toNat +
        2 ^ 192 * (c6.2.toNat + p33.2.toNat)) = a.toNat * b.toNat := by
    rw [hprod]
    unfold U256.toNat
    dsimp only
    linear_combination h00 + 2 ^ 64 * (h01 + h10) + 2 ^ 128 * (h02 + h11 + h20) +
      2 ^ 192 * (h03 + h12 + h21 + h30) + 2 ^ 256 * (h13 + h22 + h31) + 2 ^ 64 * 2 ^ 256 * (h23 + h32) +
      2 ^ 128 * 2 ^ 256 * h33 + 2 ^ 64 * hc1 + 2 ^ 128 * hc2 + 2 ^ 192 * hc3 + 2 ^ 256 * hc4 +
      2 ^ 64 * 2 ^ 256 * hc5 + 2 ^ 128 * 2 ^ 256 * hc6
  have htop : c6.2.toNat + p33.2.toNat < 2 ^ 64 := by
    rw [← hvalue] at hlt
    clear * - hlt
    omega
  have hlast : (c6.2 + p33.2).toNat = c6.2.toNat + p33.2.toNat := by
    rw [BitVec.toNat_add, Nat.mod_eq_of_lt htop]
  rw [← hvalue, U512.toNat, ← hlast]
  rfl

/-- A number that differs by a multiple of `2 ^ 256`. -/
theorem toNat_eq_mod {a : U256} {n k : Nat} (h : n = a.toNat + 2 ^ 256 * k) :
    a.toNat = n % 2 ^ 256 := by
  rw [h, Nat.add_mul_mod_self_left, Nat.mod_eq_of_lt a.toNat_lt]

theorem toNat_u256Mul_single {a b : U256} (h : SingleWords a b) :
    (u256Mul a b).toNat = a.toNat * b.toNat := by
  have hp := mul64x64_value a.l0 b.l0
  rw [u256Mul, if_pos h]
  unfold SingleWords at h
  rw [show (0 : Word) = 0#64 from rfl] at h
  simp only [BitVec.or_eq_zero_iff] at h
  obtain ⟨⟨⟨⟨⟨ha1, ha2⟩, ha3⟩, hb1⟩, hb2⟩, hb3⟩ := h
  unfold U256.toNat
  dsimp only
  rw [ha1, ha2, ha3, hb1, hb2, hb3, show (0 : Word).toNat = 0 from rfl]
  simp only [Nat.mul_zero, Nat.add_zero]
  exact hp

theorem toNat_u256Mul (a b : U256) : (u256Mul a b).toNat = a.toNat * b.toNat % 2 ^ 256 := by
  by_cases hsingle : SingleWords a b
  · have hmul := toNat_u256Mul_single hsingle
    rw [← hmul, Nat.mod_eq_of_lt (u256Mul a b).toNat_lt]
  have h00 := mul64x64_value a.l0 b.l0
  have h01 := mul64x64_value a.l0 b.l1
  have h10 := mul64x64_value a.l1 b.l0
  have h02 := mul64x64_value a.l0 b.l2
  have h11 := mul64x64_value a.l1 b.l1
  have h20 := mul64x64_value a.l2 b.l0
  have hprod := toNat_mul_limbs a b
  rw [u256Mul, if_neg hsingle]
  dsimp only
  generalize mul64x64 a.l0 b.l0 = p00 at *
  generalize mul64x64 a.l0 b.l1 = p01 at *
  generalize mul64x64 a.l1 b.l0 = p10 at *
  generalize mul64x64 a.l0 b.l2 = p02 at *
  generalize mul64x64 a.l1 b.l1 = p11 at *
  generalize mul64x64 a.l2 b.l0 = p20 at *
  have hc1 := column_exact p00.2 [p01.1, p10.1] (by simp)
  generalize column p00.2 [p01.1, p10.1] = c1 at *
  have hc2 := column_exact c1.2 [p01.2, p10.2, p02.1, p11.1, p20.1] (by simp)
  generalize column c1.2 [p01.2, p10.2, p02.1, p11.1, p20.1] = c2 at *
  simp only [sumWords_cons, sumWords_nil] at hc1 hc2
  -- the last column over the naturals
  obtain ⟨n, hn⟩ : ∃ n, n = c2.2.toNat + p02.2.toNat + p11.2.toNat + p20.2.toNat +
      a.l0.toNat * b.l3.toNat + a.l1.toNat * b.l2.toNat + a.l2.toNat * b.l1.toNat +
      a.l3.toNat * b.l0.toNat := ⟨_, rfl⟩
  have hlast : c2.2 + p02.2 + p11.2 + p20.2 + a.l0 * b.l3 + a.l1 * b.l2 + a.l2 * b.l1 +
      a.l3 * b.l0 = BitVec.ofNat 64 n := by
    rw [hn]
    simp only [BitVec.ofNat_add, BitVec.ofNat_mul, BitVec.ofNat_toNat, BitVec.setWidth_eq]
  rw [hlast]
  have hwrap : (BitVec.ofNat 64 n).toNat + 2 ^ 64 * (n / 2 ^ 64) = n := by
    rw [BitVec.toNat_ofNat, Nat.mod_add_div]
  refine toNat_eq_mod (k := n / 2 ^ 64 +
    (a.l1.toNat * b.l3.toNat + a.l2.toNat * b.l2.toNat + a.l3.toNat * b.l1.toNat) +
    2 ^ 64 * (a.l2.toNat * b.l3.toNat + a.l3.toNat * b.l2.toNat) +
    2 ^ 128 * (a.l3.toNat * b.l3.toNat)) ?_
  rw [hprod]
  unfold U256.toNat
  dsimp only
  generalize n / 2 ^ 64 = k at *
  symm
  linear_combination h00 + 2 ^ 64 * (h01 + h10) + 2 ^ 128 * (h02 + h11 + h20) +
    2 ^ 64 * hc1 + 2 ^ 128 * hc2 + 2 ^ 192 * (hwrap + hn)

/-! ## Bit lengths -/

theorem size_add_mul {low high k : Nat} (hlow : low < 2 ^ k) (hhigh : high ≠ 0) :
    Nat.size (low + 2 ^ k * high) = k + Nat.size high := by
  have hlt : high < 2 ^ Nat.size high := Nat.lt_size_self high
  refine Nat.le_antisymm (Nat.size_le.mpr ?_) ?_
  · have hle : 2 ^ k * (high + 1) ≤ 2 ^ k * 2 ^ Nat.size high := Nat.mul_le_mul_left _ hlt
    rw [Nat.pow_add]
    rw [Nat.mul_succ] at hle
    omega
  · have hpos := Nat.size_pos.mpr (Nat.pos_of_ne_zero hhigh)
    have hle : 2 ^ (Nat.size high - 1) ≤ high := Nat.lt_size.mp (by omega)
    have hmul := Nat.mul_le_mul_left (2 ^ k) hle
    rw [← Nat.pow_add] at hmul
    have hsize : k + (Nat.size high - 1) < Nat.size (low + 2 ^ k * high) :=
      Nat.lt_size.mpr (by omega)
    omega

/-- The part that is left has half the length, and the length is counted. -/
theorem bitStep_value {k : Nat} {s : Word × Word} (hk : k ≤ 32) (hlt : s.2.toNat < 2 ^ (2 * k))
    (hsize : s.1.toNat + Nat.size s.2.toNat ≤ 64) :
    (bitStep k s).2.toNat < 2 ^ k ∧
      (bitStep k s).1.toNat + Nat.size (bitStep k s).2.toNat = s.1.toNat + Nat.size s.2.toNat := by
  have hshift : (s.2 >>> k).toNat = s.2.toNat / 2 ^ k := by
    rw [BitVec.toNat_ushiftRight, Nat.shiftRight_eq_div_pow]
  have hpos : 0 < 2 ^ k := Nat.two_pow_pos k
  unfold bitStep
  split
  · next hne =>
    have hhigh : s.2.toNat / 2 ^ k ≠ 0 := by
      rw [← hshift]
      exact fun hz => hne (BitVec.eq_of_toNat_eq hz)
    have hsplit := size_add_mul (Nat.mod_lt s.2.toNat hpos) hhigh
    rw [Nat.mod_add_div] at hsplit
    dsimp only
    rw [BitVec.toNat_add, hshift, BitVec.toNat_ofNat, Nat.mod_eq_of_lt (a := k) (by omega),
      Nat.mod_eq_of_lt (by omega)]
    refine ⟨?_, by omega⟩
    rw [Nat.div_lt_iff_lt_mul hpos, ← Nat.pow_add]
    rwa [Nat.two_mul] at hlt
  · next heq =>
    rw [not_not] at heq
    have hzero : s.2.toNat / 2 ^ k = 0 := by
      rw [← hshift, heq]
      rfl
    exact ⟨(Nat.div_eq_zero_iff_lt hpos).mp hzero, rfl⟩

theorem toNat_bitLength64 (x : Word) : (bitLength64 x).toNat = Nat.size x.toNat := by
  have hx : Nat.size x.toNat ≤ 64 := Nat.size_le.mpr x.isLt
  have hstart : ((0 : Word), x).1.toNat + Nat.size ((0 : Word), x).2.toNat = Nat.size x.toNat :=
    Nat.zero_add _
  obtain ⟨hlt5, hs5⟩ := bitStep_value (k := 32) (s := (0, x)) (by decide) x.isLt (by omega)
  obtain ⟨hlt4, hs4⟩ := bitStep_value (k := 16) (by decide) hlt5 (by omega)
  obtain ⟨hlt3, hs3⟩ := bitStep_value (k := 8) (by decide) hlt4 (by omega)
  obtain ⟨hlt2, hs2⟩ := bitStep_value (k := 4) (by decide) hlt3 (by omega)
  obtain ⟨hlt1, hs1⟩ := bitStep_value (k := 2) (by decide) hlt2 (by omega)
  obtain ⟨hlt0, hs0⟩ := bitStep_value (k := 1) (by decide) hlt1 (by omega)
  unfold bitLength64
  dsimp only
  generalize bitStep 1 (bitStep 2 (bitStep 4 (bitStep 8 (bitStep 16 (bitStep 32 (0, x)))))) = s at *
  have hlast : Nat.size s.2.toNat = s.2.toNat := by
    obtain hz | hone : s.2.toNat = 0 ∨ s.2.toNat = 1 := by omega
    · rw [hz, Nat.size_zero]
    · rw [hone, Nat.size_one]
  rw [BitVec.toNat_add, Nat.mod_eq_of_lt (by omega)]
  omega

theorem toNat_u256BitLength (a : U256) : (u256BitLength a).toNat = Nat.size a.toNat := by
  have h0 := a.l0.isLt
  have h1 := a.l1.isLt
  have h2 := a.l2.isLt
  have hadd : ∀ (k : Nat) (x : Word), k ≤ 192 →
      (BitVec.ofNat 64 k + bitLength64 x).toNat = k + Nat.size x.toNat := by
    intro k x hk
    have hx : Nat.size x.toNat ≤ 64 := Nat.size_le.mpr x.isLt
    rw [BitVec.toNat_add, toNat_bitLength64, BitVec.toNat_ofNat, Nat.mod_eq_of_lt (a := k) (by omega),
      Nat.mod_eq_of_lt (by omega)]
  have hne : ∀ {x : Word}, x ≠ 0 → x.toNat ≠ 0 := fun hx hz => hx (BitVec.eq_of_toNat_eq hz)
  have hzero : ∀ {x : Word}, ¬x ≠ 0 → x.toNat = 0 := fun hx => by rw [not_not.mp hx]; rfl
  unfold u256BitLength
  split
  · next h =>
    rw [show a.toNat = (a.l0.toNat + 2 ^ 64 * a.l1.toNat + 2 ^ 128 * a.l2.toNat) +
      2 ^ 192 * a.l3.toNat from rfl, size_add_mul (by omega) (hne h)]
    exact hadd 192 a.l3 (Nat.le_refl _)
  next hz3 =>
  split
  · next h =>
    rw [U256.toNat, hzero hz3, Nat.mul_zero, Nat.add_zero, size_add_mul (by omega) (hne h)]
    exact hadd 128 a.l2 (by decide)
  next hz2 =>
  split
  · next h =>
    rw [U256.toNat, hzero hz3, hzero hz2, Nat.mul_zero, Nat.mul_zero, Nat.add_zero,
      size_add_mul (by omega) (hne h)]
    exact hadd 64 a.l1 (by decide)
  next hz1 =>
  rw [U256.toNat, hzero hz3, hzero hz2, hzero hz1, toNat_bitLength64]
  rfl

/-! ## Powers -/

theorem u256Limb_eq (a : U256) {i : Nat} (hi : i < 2 ^ 64) :
    u256Limb a (BitVec.ofNat 64 i) = a.limb i := by
  have hiff : ∀ k : Nat, k < 4 → (BitVec.ofNat 64 i = BitVec.ofNat 64 k ↔ i = k) := by
    intro k hk
    rw [← BitVec.toNat_inj, BitVec.toNat_ofNat, BitVec.toNat_ofNat, Nat.mod_eq_of_lt hi,
      Nat.mod_eq_of_lt (by omega)]
  have h0 := hiff 0 (by decide)
  have h1 := hiff 1 (by decide)
  have h2 := hiff 2 (by decide)
  have h3 := hiff 3 (by decide)
  unfold u256Limb
  match i with
  | 0 => rfl
  | 1 => rfl
  | 2 => rfl
  | 3 => rfl
  | i + 4 =>
    rw [if_neg (fun h => by have := h0.mp h; omega), if_neg (fun h => by have := h1.mp h; omega),
      if_neg (fun h => by have := h2.mp h; omega), if_neg (fun h => by have := h3.mp h; omega)]
    rfl

theorem shiftRight_and_one_eq_one {w : Word} {k : Nat} : w >>> k &&& 1 = 1 ↔ w.getLsbD k = true := by
  rw [← BitVec.toNat_inj, BitVec.toNat_and, BitVec.toNat_ushiftRight, Nat.shiftRight_eq_div_pow,
    show (1 : Word).toNat = 1 from rfl, Nat.and_one_is_mod, BitVec.getLsbD,
    Nat.testBit_eq_decide_div_mod_eq, decide_eq_true_iff]

theorem u256Bit_eq_one (a : U256) {t : Word} (ht : t.toNat < 256) :
    u256Bit a t = 1 ↔ a.toNat.testBit t.toNat = true := by
  have hlimb : u256Limb a (t >>> 6) = a.limb (t.toNat / 64) := by
    have hshift : t >>> 6 = BitVec.ofNat 64 (t.toNat / 64) := by
      refine BitVec.eq_of_toNat_eq ?_
      rw [BitVec.toNat_ushiftRight, Nat.shiftRight_eq_div_pow, BitVec.toNat_ofNat,
        Nat.mod_eq_of_lt (by omega)]
    rw [hshift, u256Limb_eq a (by omega)]
  have hmask : (t &&& 63).toNat = t.toNat % 64 := by
    rw [BitVec.toNat_and]
    exact Nat.and_two_pow_sub_one_eq_mod t.toNat 6
  have hnot : ¬(256 : Word) ≤ t := by
    rw [BitVec.le_def]
    exact Nat.not_le.mpr ht
  rw [u256Bit, if_neg hnot, hlimb, hmask, shiftRight_and_one_eq_one, U256.testBit_toNat]

/-- The rounds that are left multiply the powers for the bits that are left. -/
theorem toNat_u256ExpLoop (b : U256) {left : Nat} {t : Word} {result base : U256}
    (hbound : t.toNat + left ≤ 256) :
    (u256ExpLoop b left t result base).toNat =
      result.toNat * base.toNat ^ (b.toNat / 2 ^ t.toNat % 2 ^ left) % 2 ^ 256 := by
  induction left generalizing t result base with
  | zero =>
    rw [u256ExpLoop, Nat.pow_zero, Nat.mod_one, Nat.pow_zero, Nat.mul_one,
      Nat.mod_eq_of_lt result.toNat_lt]
  | succ left ih =>
    have hnext : (t + 1).toNat = t.toNat + 1 := by
      rw [BitVec.toNat_add, show (1 : Word).toNat = 1 from rfl, Nat.mod_eq_of_lt (by omega)]
    generalize hn : b.toNat / 2 ^ t.toNat = n
    have hhalf : b.toNat / 2 ^ (t.toNat + 1) = n / 2 := by
      rw [Nat.pow_succ, ← Nat.div_div_eq_div_mul, hn]
    have hbit : u256Bit b t = 1 ↔ n % 2 = 1 := by
      rw [u256Bit_eq_one b (by omega), Nat.testBit_eq_decide_div_mod_eq, hn, decide_eq_true_iff]
    -- the base of the next round, which is not squared any more when none is left
    have hbase : (if left = 0 then base else u256Mul base base).toNat ^ (n / 2 % 2 ^ left) %
        2 ^ 256 = base.toNat ^ (2 * (n / 2 % 2 ^ left)) % 2 ^ 256 := by
      split
      · next hzero => rw [hzero, Nat.pow_zero, Nat.mod_one]
      · rw [toNat_u256Mul, ← Nat.pow_mod, Nat.pow_mul, Nat.pow_two]
    have hexp : n % 2 ^ (left + 1) = n % 2 + 2 * (n / 2 % 2 ^ left) := by
      rw [Nat.pow_succ', Nat.mod_mul]
    rw [u256ExpLoop, ih (by omega), hnext, hhalf, hexp, Nat.pow_add, Nat.mul_mod, hbase,
      ← Nat.mul_mod, ← Nat.mul_assoc, Nat.mul_mod, Nat.mul_mod (_ * _)]
    congr 2
    by_cases hone : n % 2 = 1
    · rw [if_pos (hbit.mpr hone), toNat_u256Mul, hone, Nat.pow_one, Nat.mod_mod]
    · rw [if_neg fun h => hone (hbit.mp h), show n % 2 = 0 by omega, Nat.pow_zero, Nat.mul_one]

theorem toNat_u256Exp (a b : U256) : (u256Exp a b).toNat = a.toNat ^ b.toNat % 2 ^ 256 := by
  have hsize : Nat.size b.toNat ≤ 256 := Nat.size_le.mpr b.toNat_lt
  have hone : (u256FromWord 1).toNat = 1 := rfl
  have hzero : (0 : Word).toNat = 0 := rfl
  rw [u256Exp, toNat_u256ExpLoop b (by rw [toNat_u256BitLength, hzero]; omega), hone, hzero,
    Nat.one_mul, Nat.pow_zero, Nat.div_one, toNat_u256BitLength,
    Nat.mod_eq_of_lt (Nat.lt_size_self b.toNat)]

/-! ## The operations of the interpreter -/

theorem val_u256Mul (a b : U256) : (u256Mul a b).val = a.val * b.val := by
  rw [U256.val_eq_iff, toNat_u256Mul, BitVec.toNat_mul, U256.toNat_val, U256.toNat_val]

/-- Products are exact up to the width of their result, powers modulo `2 ^ 256`, and no column of a
product loses a carry. -/
theorem multiplication_exact (a b : U256) :
    (u256MulFull a b).toNat = a.toNat * b.toNat ∧
      (u256Mul a b).toNat = a.toNat * b.toNat % 2 ^ 256 ∧
      (u256Exp a b).toNat = a.toNat ^ b.toNat % 2 ^ 256 ∧
      (∀ x y : Word, (mul64x64 x y).1.toNat + 2 ^ 64 * (mul64x64 x y).2.toNat =
        x.toNat * y.toNat) ∧
      ∀ start xs, xs.length ≤ 7 →
        (column start xs).1.toNat + 2 ^ 64 * (column start xs).2.toNat =
          start.toNat + sumWords xs :=
  ⟨toNat_u256MulFull a b, toNat_u256Mul a b, toNat_u256Exp a b, mul64x64_value, column_exact⟩

end StatelessGuest.Limb
