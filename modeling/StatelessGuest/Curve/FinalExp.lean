import StatelessGuest.Curve.Tower
import StatelessGuest.Lib.PowerLadder

/-!
# The final exponentiation of BLS12-381

The value of a pairing is raised to a power that leaves the roots of unity of the group order. The
exponent goes through powers of the curve's parameter, which is negative: conjugation stands for
the inversion.

* `fp12Conj`, `fp12Frob`: the powers by the sixth and the first power of the prime.
* `fp12PowAbsx`, `fp12ExpX`, `fp12FinalExp`.
* `final_exp_exact`: the exponent, and the comparison with one.
-/

namespace StatelessGuest.Curve

open Lib Polynomial

/-! ## The code -/

/-- `C_GAMMA1` to `C_GAMMA5`. -/
def cGamma : Nat → Fp2
  | 1 => ⟨
      fpWords (-8284523326305247304) (-684928410226032323) 8873291758750579140
        1141103941765652303 (-4453568875649561313) 1802798568193066599,
      fpWords 3240210268673559283 2895069921743240898 (-1437617185186497441) 6098234018649060207
        (-8581071419589288008) 71000049454473266⟩
  | 2 => ⟨
      fpWords 0 0 0 0 0 0,
      fpWords (-8359525333329728852) 4653388206581612541 (-8539623804392415333)
        (-6193147138340971820) (-1440517984860447099) 1873798617647539865⟩
  | 3 => ⟨
      fpWords (-4030575448933807095) (-1267876341010921996) 8644499054833844677
        5204293836692734814 7508032112903159806 481619096434065419,
      fpWords (-4030575448933807095) (-1267876341010921996) 8644499054833844677
        5204293836692734814 7508032112903159806 481619096434065419⟩
  | 4 => ⟨
      fpWords (-8359525333329728851) 4653388206581612541 (-8539623804392415333)
        (-6193147138340971820) (-1440517984860447099) 1873798617647539865,
      fpWords 0 0 0 0 0 0⟩
  | 5 => ⟨
      fpWords (-7270785717607366378) (-4162946262754162894) (-8364627833689209498)
        (-893940181956325394) (-2357640541217103803) 410619046979592152,
      fpWords 2226472659975678357 6373087774271371469 (-2646441666456260419) 8133278142371037904
        7769744319687806097 1463179570667947713⟩
  | _ => 1

/-- `C_BLS_X`, the absolute value of the parameter. -/
def cBlsX : Nat := 0xd201000000010000

def fp2Conj (r a : Nat) (c : Store Fp2) : Store Fp2 := Function.update c r ⟨(c a).re, -(c a).im⟩

/-- The product with a constant. -/
def fp2MulConst (r a : Nat) (k : Fp2) (c : Store Fp2) : Store Fp2 := Function.update c r (c a * k)

def fp12Copy (r a : Nat) (c : Store Fp2) : Store Fp2 := copyElems r a 6 c

def fp12SetOne (r : Nat) (c : Store Fp2) : Store Fp2 :=
  let c := fp2SetOne r c
  let c := fp2SetZero (r + 1) c
  let c := fp2SetZero (r + 2) c
  let c := fp2SetZero (r + 3) c
  let c := fp2SetZero (r + 4) c
  fp2SetZero (r + 5) c

def fp12IsOne (h a : Nat) (c : Store Fp2) : Bool :=
  let one := h
  let c := fp12SetOne one c
  (List.range 6).all fun i => c (a + i) = c (one + i)

def fp12Conj (r a : Nat) (c : Store Fp2) : Store Fp2 :=
  let c := copyElems r a 3 c
  fp6Neg (r + 3) (a + 3) c

def fp12Frob (r a : Nat) (c : Store Fp2) : Store Fp2 :=
  let c := fp2Conj r a c
  let c := fp2Conj (r + 1) (a + 1) c
  let c := fp2MulConst (r + 1) (r + 1) (cGamma 2) c
  let c := fp2Conj (r + 2) (a + 2) c
  let c := fp2MulConst (r + 2) (r + 2) (cGamma 4) c
  let c := fp2Conj (r + 3) (a + 3) c
  let c := fp2MulConst (r + 3) (r + 3) (cGamma 1) c
  let c := fp2Conj (r + 4) (a + 4) c
  let c := fp2MulConst (r + 4) (r + 4) (cGamma 3) c
  let c := fp2Conj (r + 5) (a + 5) c
  fp2MulConst (r + 5) (r + 5) (cGamma 5) c

/-- `r = a ^ |x|`, from the highest of 64 bits on. -/
def fp12PowAbsx (h r a : Nat) (c : Store Fp2) : Store Fp2 :=
  let base := h
  let acc := h + 6
  let h := h + 12
  let c := fp12Copy base a c
  let c := fp12SetOne acc c
  let c := ladder (fp12Mul fp2Xi h acc acc acc) (fp12Mul fp2Xi h acc acc base) cBlsX.testBit 64
    false c
  fp12Copy r acc c

/-- `r = a ^ x`, where conjugation inverts. -/
def fp12ExpX (h r a : Nat) (c : Store Fp2) : Store Fp2 :=
  let c := fp12PowAbsx h r a c
  fp12Conj r r c

/-- The final exponentiation with any code for the powers by the parameter. -/
def fp12FinalExpWith (expX : Nat → Nat → Nat → Store Fp2 → Store Fp2) (h r f : Nat)
    (c : Store Fp2) : Store Fp2 :=
  let m := h
  let a := h + 6
  let b := h + 12
  let d := h + 18
  let u := h + 24
  let h := h + 30
  let c := fp12Inv fp2Xi h u f c
  let c := fp12Conj m f c
  let c := fp12Mul fp2Xi h m m u c
  let c := fp12Frob u m c
  let c := fp12Frob u u c
  let c := fp12Mul fp2Xi h m m u c
  let c := expX h a m c
  let c := fp12Conj u m c
  let c := fp12Mul fp2Xi h a a u c
  let c := expX h u a c
  let c := fp12Conj a a c
  let c := fp12Mul fp2Xi h a a u c
  let c := expX h b a c
  let c := fp12Frob u a c
  let c := fp12Mul fp2Xi h b b u c
  let c := expX h d b c
  let c := expX h d d c
  let c := fp12Frob u b c
  let c := fp12Frob u u c
  let c := fp12Mul fp2Xi h d d u c
  let c := fp12Conj u b c
  let c := fp12Mul fp2Xi h d d u c
  let c := fp12Mul fp2Xi h u m m c
  let c := fp12Mul fp2Xi h u u m c
  fp12Mul fp2Xi h r d u c

def fp12FinalExp : Nat → Nat → Nat → Store Fp2 → Store Fp2 := fp12FinalExpWith fp12ExpX

/-! ## Powers of the prime -/

instance : CharP Fp2 blsP :=
  charP_of_injective_algebraMap (algebraMap (ZMod blsP) Fp2).injective blsP

instance : CharP (Sextic fp2Xi) blsP :=
  charP_of_injective_ringHom (sexticOf fp2Xi).injective blsP

/-- The conjugate is the power by the prime. -/
theorem fp2_pow_blsP (x : Fp2) : x ^ blsP = ⟨x.re, -x.im⟩ := by
  have hu : (⟨0, 1⟩ : Fp2) ^ 2 = -1 := by decide +kernel
  have hroot : (⟨0, 1⟩ : Fp2) ^ blsP = -⟨0, 1⟩ := by
    have hsplit : blsP = 2 * ((blsP - 3) / 2) + 3 := by norm_num [blsP]
    have hodd : (-1 : Fp2) ^ ((blsP - 3) / 2) = 1 := Even.neg_one_pow (by decide +kernel)
    refine (congrArg ((⟨0, 1⟩ : Fp2) ^ ·) hsplit).trans ?_
    rw [pow_add, pow_mul, hu, hodd, one_mul, pow_succ, hu, neg_one_mul]
  have hx : x = algebraMap _ _ x.re + algebraMap _ _ x.im * ⟨0, 1⟩ := by
    ext <;> simp
  conv_lhs => rw [hx]
  rw [add_pow_char, mul_pow, hroot, ← map_pow, ← map_pow, ZMod.pow_card, ZMod.pow_card]
  ext <;> simp

theorem cGamma_eq {k : Nat} (hpos : 1 ≤ k) (hk : k ≤ 5) :
    cGamma k = fp2Xi ^ ((blsP - 1) / 6 * k) := by
  have h1 : cGamma 1 = fp2Xi ^ ((blsP - 1) / 6) := by
    rw [← powBits_eq fp2Xi 379 (by decide +kernel)]
    decide +kernel
  have hpow : cGamma k = cGamma 1 ^ k := by
    interval_cases k <;> decide +kernel
  rw [hpow, h1, pow_mul]

/-- The root of the tower is multiplied by a constant. -/
theorem sexticRoot_pow_blsP :
    sexticRoot fp2Xi ^ blsP = sexticOf fp2Xi (cGamma 1) * sexticRoot fp2Xi := by
  have hsplit : blsP = 6 * ((blsP - 1) / 6) + 1 := by norm_num [blsP]
  refine (congrArg (sexticRoot fp2Xi ^ ·) hsplit).trans ?_
  rw [pow_succ, pow_mul, sexticRoot_pow_six, ← map_pow, cGamma_eq (Nat.le_refl 1) (by decide),
    Nat.mul_one]

theorem elem12_expand (c : Store Fp2) (p : Nat) : elem12 fp2Xi c p =
    sexticOf fp2Xi (c p) + sexticOf fp2Xi (c (p + 3)) * sexticRoot fp2Xi +
      sexticOf fp2Xi (c (p + 1)) * sexticRoot fp2Xi ^ 2 +
        sexticOf fp2Xi (c (p + 4)) * sexticRoot fp2Xi ^ 3 +
          sexticOf fp2Xi (c (p + 2)) * sexticRoot fp2Xi ^ 4 +
            sexticOf fp2Xi (c (p + 5)) * sexticRoot fp2Xi ^ 5 :=
  sextic_expand fp2Xi (c p) (c (p + 1)) (c (p + 2)) (c (p + 3)) (c (p + 4)) (c (p + 5))

/-! ## Lookups -/

variable {c : Store Fp2} {a h i p r : Nat} {k : Fp2}

theorem fp2Conj_self : fp2Conj r a c r = c a ^ blsP :=
  (Function.update_self ..).trans (fp2_pow_blsP (c a)).symm

theorem fp2Conj_ne (hi : i ≠ r) : fp2Conj r a c i = c i := Function.update_of_ne hi ..

theorem fp2MulConst_self : fp2MulConst r a k c r = c a * k := Function.update_self ..

theorem fp2MulConst_ne (hi : i ≠ r) : fp2MulConst r a k c i = c i := Function.update_of_ne hi ..

theorem only_fp12Frob : Only 6 h r c (fp12Frob r a c) := by
  intro i hi hout
  unfold fp12Frob
  simp (disch := omega) only [fp2Conj_ne, fp2MulConst_ne]

/-- The power by the prime is additive, so it acts on the coefficients and on the root. -/
theorem elem12_fp12Frob (ha : MayAlias 6 r a) :
    elem12 fp2Xi (fp12Frob r a c) r = elem12 fp2Xi c a ^ blsP := by
  have h0 : fp12Frob r a c r = c a ^ blsP := by
    unfold fp12Frob
    simp (disch := omega) only [fp2Conj_self, fp2Conj_ne, fp2MulConst_ne]
  have h1 : fp12Frob r a c (r + 1) = c (a + 1) ^ blsP * cGamma 2 := by
    unfold fp12Frob
    simp (disch := omega) only [fp2Conj_self, fp2Conj_ne, fp2MulConst_self, fp2MulConst_ne]
  have h2 : fp12Frob r a c (r + 2) = c (a + 2) ^ blsP * cGamma 4 := by
    unfold fp12Frob
    simp (disch := omega) only [fp2Conj_self, fp2Conj_ne, fp2MulConst_self, fp2MulConst_ne]
  have h3 : fp12Frob r a c (r + 3) = c (a + 3) ^ blsP * cGamma 1 := by
    unfold fp12Frob
    simp (disch := omega) only [fp2Conj_self, fp2Conj_ne, fp2MulConst_self, fp2MulConst_ne]
  have h4 : fp12Frob r a c (r + 4) = c (a + 4) ^ blsP * cGamma 3 := by
    unfold fp12Frob
    simp (disch := omega) only [fp2Conj_self, fp2Conj_ne, fp2MulConst_self, fp2MulConst_ne]
  have h5 : fp12Frob r a c (r + 5) = c (a + 5) ^ blsP * cGamma 5 := by
    unfold fp12Frob
    simp (disch := omega) only [fp2Conj_self, fp2Conj_ne, fp2MulConst_self, fp2MulConst_ne]
  have hgamma : ∀ k, 1 ≤ k → k ≤ 5 → cGamma k = cGamma 1 ^ k := by
    intro k hpos hk
    rw [cGamma_eq hpos hk, cGamma_eq (Nat.le_refl 1) (by decide), Nat.mul_one, pow_mul]
  rw [elem12_expand, elem12_expand, h0, h1, h2, h3, h4, h5, hgamma 2 (by decide) (by decide),
    hgamma 3 (by decide) (by decide), hgamma 4 (by decide) (by decide),
    hgamma 5 (by decide) (by decide)]
  simp only [add_pow_char, mul_pow, ← pow_mul, Nat.mul_comm _ blsP]
  simp only [pow_mul, sexticRoot_pow_blsP, map_mul, map_pow]
  ring

theorem fp2_pow_blsP_six (x : Fp2) : x ^ blsP ^ 6 = x := by
  have hsq : ∀ y : Fp2, y ^ blsP ^ 2 = y := by
    intro y
    rw [sq, pow_mul, fp2_pow_blsP, fp2_pow_blsP]
    ext <;> simp
  rw [show 6 = 2 + 2 + 2 from rfl, pow_add, pow_add, pow_mul, pow_mul, hsq, hsq, hsq]

theorem sexticRoot_pow_blsP_six : sexticRoot fp2Xi ^ blsP ^ 6 = -sexticRoot fp2Xi := by
  have hsplit : blsP ^ 6 = 6 * ((blsP ^ 2 - 1) / 2 * ((blsP ^ 4 + blsP ^ 2 + 1) / 3)) + 1 := by
    norm_num [blsP]
  -- `1 + u` is no square
  have heuler : fp2Xi ^ ((blsP ^ 2 - 1) / 2) = -1 := by
    rw [← powBits_eq fp2Xi 762 (by decide +kernel)]
    decide +kernel
  have hodd : Odd ((blsP ^ 4 + blsP ^ 2 + 1) / 3) := by decide +kernel
  refine (congrArg (sexticRoot fp2Xi ^ ·) hsplit).trans ?_
  rw [pow_succ, pow_mul, sexticRoot_pow_six, ← map_pow, pow_mul, heuler, hodd.neg_one_pow, map_neg,
    map_one, neg_one_mul]

/-- The conjugate is the power by the sixth power of the prime. -/
theorem sextic_pow_blsP_six (x0 x1 : Cubic fp2Xi) :
    sextic fp2Xi x0 x1 ^ blsP ^ 6 = sextic fp2Xi x0 (-x1) := by
  obtain ⟨a0, a1, a2, rfl⟩ := exists_cubic x0
  obtain ⟨b0, b1, b2, rfl⟩ := exists_cubic x1
  rw [cubic_neg, sextic_expand, sextic_expand]
  simp only [add_pow_char_pow, mul_pow, ← pow_mul, Nat.mul_comm _ (blsP ^ 6)]
  simp only [pow_mul, sexticRoot_pow_blsP_six, ← map_pow, fp2_pow_blsP_six, map_neg]
  ring

theorem only_fp12Conj : Only 6 h r c (fp12Conj r a c) := by
  intro i hi hout
  unfold fp12Conj
  rw [only_fp6Neg (h := h) i hi (by omega), only_copyElems 3 h r a c i hi (by omega)]

theorem elem12_fp12Conj (ha : MayAlias 6 r a) :
    elem12 fp2Xi (fp12Conj r a c) r = elem12 fp2Xi c a ^ blsP ^ 6 := by
  have h0 : elem6 fp2Xi (fp12Conj r a c) r = elem6 fp2Xi c a := by
    unfold fp12Conj
    rw [elem6_fp6Neg_ne fp2Xi (by omega)]
    exact elem6_congr fp2Xi fun k hk => copyElems_at (by omega) hk
  have h1 : elem6 fp2Xi (fp12Conj r a c) (r + 3) = -elem6 fp2Xi c (a + 3) := by
    unfold fp12Conj
    rw [elem6_fp6Neg fp2Xi (by omega),
      elem6_congr fp2Xi fun k hk => copyElems_of_not_mem (by omega)]
  unfold elem12
  rw [h0, h1, sextic_pow_blsP_six]

theorem only_fp12Copy : Only 6 h r c (fp12Copy r a c) := only_copyElems 6 h r a c

theorem elem12_fp12Copy (ha : MayAlias 6 r a) :
    elem12 fp2Xi (fp12Copy r a c) r = elem12 fp2Xi c a :=
  elem12_congr fp2Xi fun _ hk => copyElems_at ha hk

theorem only_fp12SetOne : Only 6 h r c (fp12SetOne r c) := by
  intro i hi hout
  unfold fp12SetOne fp2SetOne fp2SetZero
  simp (disch := omega) only [Function.update_of_ne]

theorem fp12SetOne_at {k : Nat} (hk : k < 6) :
    fp12SetOne r c (r + k) = if k = 0 then 1 else 0 := by
  unfold fp12SetOne fp2SetOne fp2SetZero
  interval_cases k <;> simp

theorem elem12_fp12SetOne : elem12 fp2Xi (fp12SetOne r c) r = 1 := by
  have h0 : fp12SetOne r c r = 1 := @fp12SetOne_at c r 0 (by decide)
  rw [elem12_expand, h0, fp12SetOne_at (by decide), fp12SetOne_at (by decide),
    fp12SetOne_at (by decide), fp12SetOne_at (by decide), fp12SetOne_at (by decide)]
  simp

/-! ## Powers by the parameter -/

/-- The ladder's memory after the bits of `k`: the accumulator holds the power. -/
structure PowStands (c : Store Fp2) (h a k : Nat) (s : Store Fp2) : Prop where
  acc : elem12 fp2Xi s (h + 6) = elem12 fp2Xi c a ^ k
  base : elem12 fp2Xi s h = elem12 fp2Xi c a
  kept : ∀ i < h, s i = c i

theorem powStands_mul {b k m : Nat} {s : Store Fp2} (hs : PowStands c h a k s) (hb : b + 6 ≤ h + 12)
    (hm : elem12 fp2Xi s b = elem12 fp2Xi c a ^ m) :
    PowStands c h a (k + m) (fp12Mul fp2Xi (h + 12) (h + 6) (h + 6) b s) := by
  have honly := only_fp12Mul fp2Xi (c := s) (a := h + 6) (b := b) (h := h + 12) (r := h + 6)
  refine ⟨?_, ?_, fun i hi => (honly i (by omega) (by omega)).trans (hs.kept i hi)⟩
  · rw [elem12_fp12Mul fp2Xi (by omega) (by omega) hb, hs.acc, hm, pow_add]
  · rw [honly.elem12_eq fp2Xi (by omega) (by omega), hs.base]

/-- The memory before the last copy. -/
theorem powStands_absx (ha : a + 6 ≤ h) : PowStands c h a cBlsX
    (ladder (fp12Mul fp2Xi (h + 12) (h + 6) (h + 6) (h + 6))
      (fp12Mul fp2Xi (h + 12) (h + 6) (h + 6) h) cBlsX.testBit 64 false
        (fp12SetOne (h + 6) (fp12Copy h a c))) := by
  refine ladder_run (PowStands c h a) (fun k s hs => ?_) (fun k s hs => ?_)
    (by decide) ?_
  · rw [Nat.two_mul]
    exact powStands_mul hs (by omega) hs.acc
  · exact powStands_mul hs (by omega) (by rw [hs.base, pow_one])
  · refine ⟨?_, ?_, fun i hi => ?_⟩
    · rw [elem12_fp12SetOne, pow_zero]
    · rw [only_fp12SetOne.elem12_eq fp2Xi (Nat.le_refl _) (by omega),
        elem12_fp12Copy (by omega)]
    · rw [only_fp12SetOne (h := h) i hi (by omega), only_fp12Copy (h := h) i hi (by omega)]

theorem elem12_fp12PowAbsx (hr : r + 6 ≤ h) (ha : a + 6 ≤ h) :
    elem12 fp2Xi (fp12PowAbsx h r a c) r = elem12 fp2Xi c a ^ cBlsX := by
  unfold fp12PowAbsx
  dsimp only
  rw [elem12_fp12Copy (by omega), (powStands_absx ha).acc]

theorem only_fp12PowAbsx (ha : a + 6 ≤ h) : Only 6 h r c (fp12PowAbsx h r a c) := by
  intro i hi hout
  unfold fp12PowAbsx
  rw [only_fp12Copy (h := h) i hi hout, (powStands_absx ha).kept i hi]

theorem elem12_fp12ExpX (hr : r + 6 ≤ h) (ha : a + 6 ≤ h) :
    elem12 fp2Xi (fp12ExpX h r a c) r = (elem12 fp2Xi c a ^ cBlsX) ^ blsP ^ 6 := by
  unfold fp12ExpX
  rw [elem12_fp12Conj (.inl rfl), elem12_fp12PowAbsx hr ha]

theorem only_fp12ExpX (ha : a + 6 ≤ h) : Only 6 h r c (fp12ExpX h r a c) := by
  intro i hi hout
  unfold fp12ExpX
  rw [only_fp12Conj (h := h) i hi hout, only_fp12PowAbsx ha i hi hout]

theorem elem12_fp12Mul_ne {b : Nat} (hp : p + 6 ≤ h) (hapart : p + 6 ≤ r ∨ r + 6 ≤ p) :
    elem12 fp2Xi (fp12Mul fp2Xi h r a b c) p = elem12 fp2Xi c p :=
  (only_fp12Mul fp2Xi).elem12_eq fp2Xi hp hapart

theorem elem12_fp12Inv_ne (hp : p + 6 ≤ h) (hapart : p + 6 ≤ r ∨ r + 6 ≤ p) :
    elem12 fp2Xi (fp12Inv fp2Xi h r a c) p = elem12 fp2Xi c p :=
  (only_fp12Inv fp2Xi).elem12_eq fp2Xi hp hapart

theorem elem12_fp12Conj_ne (hapart : p + 6 ≤ r ∨ r + 6 ≤ p) :
    elem12 fp2Xi (fp12Conj r a c) p = elem12 fp2Xi c p :=
  only_fp12Conj.elem12_eq fp2Xi (Nat.le_refl _) hapart

theorem elem12_fp12Frob_ne (hapart : p + 6 ≤ r ∨ r + 6 ≤ p) :
    elem12 fp2Xi (fp12Frob r a c) p = elem12 fp2Xi c p :=
  only_fp12Frob.elem12_eq fp2Xi (Nat.le_refl _) hapart

theorem elem12_fp12ExpX_ne (ha : a + 6 ≤ h) (hp : p + 6 ≤ h) (hapart : p + 6 ≤ r ∨ r + 6 ≤ p) :
    elem12 fp2Xi (fp12ExpX h r a c) p = elem12 fp2Xi c p :=
  (only_fp12ExpX ha).elem12_eq fp2Xi hp hapart

/-! ## Stages -/

/-- The conjugate of `y` is its inverse. -/
def Unitary (y : Sextic fp2Xi) : Prop := y ^ blsP ^ 6 * y = 1

/-- The curve's parameter. -/
def blsX : Int := -cBlsX

variable {y z : Sextic fp2Xi}

theorem Unitary.ne_zero (hy : Unitary y) : y ≠ 0 := by
  rintro rfl
  unfold Unitary at hy
  rw [mul_zero] at hy
  exact zero_ne_one hy

theorem Unitary.conj (hy : Unitary y) : y ^ blsP ^ 6 = y⁻¹ := eq_inv_of_mul_eq_one_left hy

theorem Unitary.zpow (hy : Unitary y) (n : Int) : Unitary (y ^ n) := by
  unfold Unitary at *
  rw [← zpow_natCast, zpow_comm y, zpow_natCast, ← mul_zpow, hy, one_zpow]

/-- Where conjugation inverts, the power by the parameter is computed. -/
theorem Unitary.expX (hy : Unitary y) : (y ^ cBlsX) ^ blsP ^ 6 = y ^ blsX := by
  have h := hy.zpow cBlsX
  rw [zpow_natCast] at h
  rw [h.conj, blsX, zpow_neg, zpow_natCast]

theorem sextic_pow_blsP_twelve (y : Sextic fp2Xi) : (y ^ blsP ^ 6) ^ blsP ^ 6 = y := by
  obtain ⟨x0, x1, rfl⟩ := exists_sextic y
  rw [sextic_pow_blsP_six, sextic_pow_blsP_six, neg_neg]

/-- The first factor of the exponent leaves elements that conjugation inverts. -/
theorem unitary_easy (hy : y ≠ 0) : Unitary (y ^ blsP ^ 6 * y⁻¹) := by
  have hpow : y ^ blsP ^ 6 ≠ 0 := pow_ne_zero _ hy
  unfold Unitary
  rw [mul_pow, sextic_pow_blsP_twelve, inv_pow]
  field_simp

/-- `m = f ^ (p ^ 6 - 1)`, then its power by `p ^ 2 + 1`. -/
def easyPart (h f : Nat) (c : Store Fp2) : Store Fp2 :=
  let c := fp12Inv fp2Xi (h + 30) (h + 24) f c
  let c := fp12Conj h f c
  let c := fp12Mul fp2Xi (h + 30) h h (h + 24) c
  let c := fp12Frob (h + 24) h c
  let c := fp12Frob (h + 24) (h + 24) c
  fp12Mul fp2Xi (h + 30) h h (h + 24) c

section

variable (expX : Nat → Nat → Nat → Store Fp2 → Store Fp2)

/-- `a = m ^ (x - 1)`. -/
def partA (h : Nat) (c : Store Fp2) : Store Fp2 :=
  let c := expX (h + 30) (h + 6) h c
  let c := fp12Conj (h + 24) h c
  fp12Mul fp2Xi (h + 30) (h + 6) (h + 6) (h + 24) c

/-- `a = a ^ (x - 1)`. -/
def partA' (h : Nat) (c : Store Fp2) : Store Fp2 :=
  let c := expX (h + 30) (h + 24) (h + 6) c
  let c := fp12Conj (h + 6) (h + 6) c
  fp12Mul fp2Xi (h + 30) (h + 6) (h + 6) (h + 24) c

/-- `b = a ^ (x + p)`. -/
def partB (h : Nat) (c : Store Fp2) : Store Fp2 :=
  let c := expX (h + 30) (h + 12) (h + 6) c
  let c := fp12Frob (h + 24) (h + 6) c
  fp12Mul fp2Xi (h + 30) (h + 12) (h + 12) (h + 24) c

/-- `d = b ^ (x ^ 2 + p ^ 2 - 1)`. -/
def partD (h : Nat) (c : Store Fp2) : Store Fp2 :=
  let c := expX (h + 30) (h + 18) (h + 12) c
  let c := expX (h + 30) (h + 18) (h + 18) c
  let c := fp12Frob (h + 24) (h + 12) c
  let c := fp12Frob (h + 24) (h + 24) c
  let c := fp12Mul fp2Xi (h + 30) (h + 18) (h + 18) (h + 24) c
  let c := fp12Conj (h + 24) (h + 12) c
  fp12Mul fp2Xi (h + 30) (h + 18) (h + 18) (h + 24) c

/-- `r = d * m ^ 3`. -/
def lastPart (h r : Nat) (c : Store Fp2) : Store Fp2 :=
  let c := fp12Mul fp2Xi (h + 30) (h + 24) h h c
  let c := fp12Mul fp2Xi (h + 30) (h + 24) (h + 24) h c
  fp12Mul fp2Xi (h + 30) r (h + 18) (h + 24) c

theorem fp12FinalExpWith_eq (h r f : Nat) (c : Store Fp2) : fp12FinalExpWith expX h r f c =
    lastPart h r (partD expX h (partB expX h (partA' expX h (partA expX h (easyPart h f c))))) :=
  rfl

end

theorem elem12_easyPart {f : Nat} (hf : f + 6 ≤ h) : elem12 fp2Xi (easyPart h f c) h =
    (elem12 fp2Xi c f ^ blsP ^ 6 * (elem12 fp2Xi c f)⁻¹) ^ (blsP ^ 2 + 1) := by
  unfold easyPart
  simp (disch := omega) only [elem12_fp12Mul, elem12_fp12Mul_ne, elem12_fp12Frob,
    elem12_fp12Frob_ne, elem12_fp12Conj, elem12_fp12Conj_ne, elem12_fp12Inv, elem12_fp12Inv_ne]
  rw [← pow_mul _ blsP, ← sq blsP, pow_succ _ (blsP ^ 2), mul_comm]

theorem Unitary.minusOne (hy : Unitary y) : y ^ blsX * y⁻¹ = y ^ (blsX - 1) := by
  rw [zpow_sub₀ hy.ne_zero, zpow_one, div_eq_mul_inv]

theorem elem12_partA (hm : Unitary (elem12 fp2Xi c h)) :
    elem12 fp2Xi (partA fp12ExpX h c) (h + 6) = elem12 fp2Xi c h ^ (blsX - 1) ∧
      elem12 fp2Xi (partA fp12ExpX h c) h = elem12 fp2Xi c h := by
  unfold partA
  simp (disch := omega) only [elem12_fp12Mul, elem12_fp12Mul_ne, elem12_fp12Conj,
    elem12_fp12Conj_ne, elem12_fp12ExpX, elem12_fp12ExpX_ne, and_true]
  rw [hm.expX, hm.conj, hm.minusOne]

theorem elem12_partA' (ha : Unitary (elem12 fp2Xi c (h + 6))) :
    elem12 fp2Xi (partA' fp12ExpX h c) (h + 6) = elem12 fp2Xi c (h + 6) ^ (blsX - 1) ∧
      elem12 fp2Xi (partA' fp12ExpX h c) h = elem12 fp2Xi c h := by
  unfold partA'
  simp (disch := omega) only [elem12_fp12Mul, elem12_fp12Mul_ne, elem12_fp12Conj,
    elem12_fp12Conj_ne, elem12_fp12ExpX, elem12_fp12ExpX_ne, and_true]
  rw [ha.expX, ha.conj, mul_comm, ha.minusOne]

theorem elem12_partB (ha : Unitary (elem12 fp2Xi c (h + 6))) :
    elem12 fp2Xi (partB fp12ExpX h c) (h + 12) = elem12 fp2Xi c (h + 6) ^ (blsX + blsP) ∧
      elem12 fp2Xi (partB fp12ExpX h c) h = elem12 fp2Xi c h := by
  unfold partB
  simp (disch := omega) only [elem12_fp12Mul, elem12_fp12Mul_ne, elem12_fp12Frob,
    elem12_fp12Frob_ne, elem12_fp12ExpX, elem12_fp12ExpX_ne, and_true]
  rw [ha.expX, zpow_add₀ ha.ne_zero, zpow_natCast]

theorem elem12_partD (hb : Unitary (elem12 fp2Xi c (h + 12))) :
    elem12 fp2Xi (partD fp12ExpX h c) (h + 18) =
        elem12 fp2Xi c (h + 12) ^ (blsX ^ 2 + blsP ^ 2 - 1 : Int) ∧
      elem12 fp2Xi (partD fp12ExpX h c) h = elem12 fp2Xi c h := by
  unfold partD
  simp (disch := omega) only [elem12_fp12Mul, elem12_fp12Mul_ne, elem12_fp12Frob,
    elem12_fp12Frob_ne, elem12_fp12Conj, elem12_fp12Conj_ne, elem12_fp12ExpX, elem12_fp12ExpX_ne,
    and_true]
  rw [hb.expX, (hb.zpow blsX).expX, hb.conj, ← zpow_mul, ← sq, ← pow_mul, ← sq, ← zpow_natCast,
    Nat.cast_pow, ← zpow_add₀ hb.ne_zero, ← zpow_neg_one, ← zpow_add₀ hb.ne_zero]
  rfl

/-! ## The final exponentiation -/

/-- The order of the groups. -/
def blsR : Nat := 0x73eda753299d7d483339d80809a1d80553bda402fffe5bfeffffffff00000001

/-- The powers of the parameter make three times the exponent. -/
theorem finalExponent : ((blsP : Int) ^ 6 - 1) * (blsP ^ 2 + 1) *
    ((blsX - 1) ^ 2 * (blsX + blsP) * (blsX ^ 2 + blsP ^ 2 - 1) + 3) =
      ((3 * ((blsP ^ 12 - 1) / blsR) : Nat) : Int) := by
  norm_num [blsP, blsR, blsX, cBlsX]

/-- Code for the powers by the parameter that is right where conjugation inverts. -/
def ExpXOnUnitary (expX : Nat → Nat → Nat → Store Fp2 → Store Fp2) : Prop :=
  ∀ h r a c, r + 6 ≤ h → a + 6 ≤ h → Unitary (elem12 fp2Xi c a) →
    expX h r a c = fp12ExpX h r a c

variable {f : Nat}

/-- The memory before the last part, whatever the code does where conjugation does not invert. -/
theorem hardPart {expX : Nat → Nat → Nat → Store Fp2 → Store Fp2} (hexp : ExpXOnUnitary expX)
    (hm : Unitary (elem12 fp2Xi c h)) :
    partD expX h (partB expX h (partA' expX h (partA expX h c))) =
        partD fp12ExpX h (partB fp12ExpX h (partA' fp12ExpX h (partA fp12ExpX h c))) ∧
      elem12 fp2Xi (partD fp12ExpX h (partB fp12ExpX h (partA' fp12ExpX h
        (partA fp12ExpX h c)))) (h + 18) = elem12 fp2Xi c h ^
          ((blsX - 1) ^ 2 * (blsX + blsP) * (blsX ^ 2 + blsP ^ 2 - 1)) ∧
      elem12 fp2Xi (partD fp12ExpX h (partB fp12ExpX h (partA' fp12ExpX h
        (partA fp12ExpX h c)))) h = elem12 fp2Xi c h := by
  obtain ⟨hva, hma⟩ := elem12_partA hm
  have hua := hm.zpow (blsX - 1)
  rw [← hva] at hua
  obtain ⟨hva', hma'⟩ := elem12_partA' hua
  have hua' := hua.zpow (blsX - 1)
  rw [← hva'] at hua'
  obtain ⟨hvb, hmb⟩ := elem12_partB hua'
  have hub := hua'.zpow (blsX + blsP)
  rw [← hvb] at hub
  obtain ⟨hvd, hmd⟩ := elem12_partD hub
  refine ⟨?_, ?_, by rw [hmd, hmb, hma', hma]⟩
  · have ha : partA expX h c = partA fp12ExpX h c := by
      unfold partA
      rw [hexp _ _ _ _ (by omega) (by omega) hm]
    have ha' : partA' expX h (partA fp12ExpX h c) = partA' fp12ExpX h (partA fp12ExpX h c) := by
      unfold partA'
      rw [hexp _ _ _ _ (by omega) (by omega) hua]
    have hb : ∀ s, Unitary (elem12 fp2Xi s (h + 6)) → partB expX h s = partB fp12ExpX h s := by
      intro s hs
      unfold partB
      rw [hexp _ _ _ _ (by omega) (by omega) hs]
    have hd : ∀ s, Unitary (elem12 fp2Xi s (h + 12)) → partD expX h s = partD fp12ExpX h s := by
      intro s hs
      have hx : Unitary (elem12 fp2Xi (fp12ExpX (h + 30) (h + 18) (h + 12) s) (h + 18)) := by
        rw [elem12_fp12ExpX (by omega) (by omega), hs.expX]
        exact hs.zpow blsX
      unfold partD
      dsimp only
      rw [hexp _ _ _ _ (by omega) (by omega) hs, hexp _ _ _ _ (by omega) (by omega) hx]
    rw [ha, ha', hb _ hua', hd _ hub]
  · rw [hvd, hvb, hva', hva, ← zpow_mul, ← zpow_mul, ← zpow_mul]
    refine congrArg (elem12 fp2Xi c h ^ ·) ?_
    ring

theorem unitary_easyPart (hf : f + 6 ≤ h) (hne : elem12 fp2Xi c f ≠ 0) :
    Unitary (elem12 fp2Xi (easyPart h f c) h) := by
  rw [elem12_easyPart hf, ← zpow_natCast]
  exact (unitary_easy hne).zpow _

theorem elem12_fp12FinalExp (hr : r + 6 ≤ h) (hf : f + 6 ≤ h) (hne : elem12 fp2Xi c f ≠ 0) :
    elem12 fp2Xi (fp12FinalExp h r f c) r =
      elem12 fp2Xi c f ^ (3 * ((blsP ^ 12 - 1) / blsR)) := by
  have hm := unitary_easyPart hf hne
  obtain ⟨-, hd, hkept⟩ := hardPart (fun _ _ _ _ _ _ _ => rfl : ExpXOnUnitary fp12ExpX) hm
  rw [fp12FinalExp, fp12FinalExpWith_eq]
  generalize partD fp12ExpX h _ = s at hd hkept ⊢
  unfold lastPart
  simp (disch := omega) only [elem12_fp12Mul, elem12_fp12Mul_ne]
  have hm0 := hm.ne_zero
  rw [hd, hkept, ← sq, ← pow_succ, ← zpow_natCast (elem12 fp2Xi (easyPart h f c) h) 3,
    ← zpow_add₀ hm0, elem12_easyPart hf, ← zpow_natCast, ← zpow_mul]
  have hbase : elem12 fp2Xi c f ^ blsP ^ 6 * (elem12 fp2Xi c f)⁻¹ =
      elem12 fp2Xi c f ^ ((blsP : Int) ^ 6 - 1) := by
    rw [zpow_sub₀ hne, zpow_one, div_eq_mul_inv, ← Nat.cast_pow, zpow_natCast]
  rw [hbase, ← zpow_mul, ← zpow_natCast]
  have hexponent := finalExponent
  refine congrArg (elem12 fp2Xi c f ^ ·) ?_
  push_cast at hexponent ⊢
  rw [← hexponent]
  ring

theorem fp12Mul_kept {b : Nat} (hi : i < h) (hout : i < r ∨ r + 6 ≤ i) :
    fp12Mul fp2Xi h r a b c i = c i := only_fp12Mul fp2Xi i hi hout

theorem fp12Inv_kept (hi : i < h) (hout : i < r ∨ r + 6 ≤ i) : fp12Inv fp2Xi h r a c i = c i :=
  only_fp12Inv fp2Xi i hi hout

theorem fp12Conj_kept (hout : i < r ∨ r + 6 ≤ i) : fp12Conj r a c i = c i :=
  only_fp12Conj (h := i + 1) i (Nat.lt_succ_self i) hout

theorem fp12Frob_kept (hout : i < r ∨ r + 6 ≤ i) : fp12Frob r a c i = c i :=
  only_fp12Frob (h := i + 1) i (Nat.lt_succ_self i) hout

theorem fp12ExpX_kept (ha : a + 6 ≤ h) (hi : i < h) (hout : i < r ∨ r + 6 ≤ i) :
    fp12ExpX h r a c i = c i := only_fp12ExpX ha i hi hout

theorem only_fp12FinalExp : Only 6 h r c (fp12FinalExp h r f c) := by
  intro i hi hout
  unfold fp12FinalExp fp12FinalExpWith
  simp (disch := omega) only [fp12Mul_kept, fp12Inv_kept, fp12Conj_kept, fp12Frob_kept,
    fp12ExpX_kept]

/-! ## The comparison with one -/

theorem fp12IsOne_iff (ha : a + 6 ≤ h) : fp12IsOne h a c = true ↔ elem12 fp2Xi c a = 1 := by
  have hkept : ∀ k < 6, fp12SetOne h c (a + k) = c (a + k) :=
    fun k hk => only_fp12SetOne (h := h) (a + k) (by omega) (by omega)
  unfold fp12IsOne
  simp only [List.all_eq_true, List.mem_range, decide_eq_true_eq]
  rw [← elem12_fp12SetOne (c := c) (r := h)]
  constructor
  · intro heq
    exact elem12_congr fp2Xi fun k hk => (hkept k hk).symm.trans (heq k hk)
  · intro heq k hk
    rw [hkept k hk, elem12_inj fp2Xi heq k hk]

/-- Three does not divide the order of the root of unity that is left. -/
theorem pow_three_eq_one (hne : y ≠ 0) :
    y ^ (3 * ((blsP ^ 12 - 1) / blsR)) = 1 ↔ y ^ ((blsP ^ 12 - 1) / blsR) = 1 := by
  rw [Nat.mul_comm, pow_mul]
  constructor
  · intro h3
    have hdvd : (blsP ^ 12 - 1) / blsR * blsR = blsP ^ 12 - 1 := by
      norm_num [blsP, blsR]
    have hr : (y ^ ((blsP ^ 12 - 1) / blsR)) ^ blsR = 1 := by
      have htwelve := sextic_pow_blsP_twelve y
      have hpos : blsP ^ 12 = blsP ^ 12 - 1 + 1 := by norm_num [blsP]
      rw [← pow_mul, ← pow_add, hpos, pow_succ] at htwelve
      rw [← pow_mul, hdvd]
      exact mul_right_cancel₀ hne (htwelve.trans (one_mul y).symm)
    generalize y ^ ((blsP ^ 12 - 1) / blsR) = z at h3 hr ⊢
    have hsplit : blsR = 3 * ((blsR - 1) / 3) + 1 := by norm_num [blsR]
    rw [hsplit, pow_succ, pow_mul, h3, one_pow, one_mul] at hr
    exact hr
  · intro h1
    rw [h1, one_pow]

/-- The final exponentiation raises to three times the exponent, so the comparison of its result
with one decides whether the power with the exponent itself is one. The Frobenius map is the power
by the prime, and the powers by the parameter are only computed where conjugation inverts: what
the code for them does elsewhere changes nothing. -/
theorem final_exp_exact (c : Store Fp2) (h r f : Nat) :
    (r + 6 ≤ h → f + 6 ≤ h → elem12 fp2Xi c f ≠ 0 →
      elem12 fp2Xi (fp12FinalExp h r f c) r =
          elem12 fp2Xi c f ^ (3 * ((blsP ^ 12 - 1) / blsR)) ∧
        Only 6 h r c (fp12FinalExp h r f c) ∧
        (fp12IsOne h r (fp12FinalExp h r f c) = true ↔
          elem12 fp2Xi c f ^ ((blsP ^ 12 - 1) / blsR) = 1) ∧
        ∀ expX, ExpXOnUnitary expX → fp12FinalExpWith expX h r f c = fp12FinalExp h r f c) ∧
    (MayAlias 6 r f → elem12 fp2Xi (fp12Frob r f c) r = elem12 fp2Xi c f ^ blsP) := by
  refine ⟨fun hr hf hne => ?_, elem12_fp12Frob⟩
  have hvalue := elem12_fp12FinalExp hr hf hne
  refine ⟨hvalue, only_fp12FinalExp, ?_, fun expX hexp => ?_⟩
  · rw [fp12IsOne_iff hr, hvalue, pow_three_eq_one hne]
  · rw [fp12FinalExp, fp12FinalExpWith_eq, fp12FinalExpWith_eq,
      (hardPart hexp (unitary_easyPart hf hne)).1]

end StatelessGuest.Curve
