import Mathlib.Algebra.Field.ZMod
import Mathlib.Data.Nat.Size
import StatelessGuest.Curve.Points

/-!
# Points of BN254

A point is in homogeneous coordinates over one of three fields. Over the base field the coordinates
are divided by `z` and given to an accelerator; over the extensions, the sum is computed without a
division.

* `feMul`, `feSqr`, `feSub`, `feMulSmall`: the operations on elements in memory.
* `ecpDouble`, `ecpAdd`, `ecpMul`.
* `ecp_exact`: they compute in the group of the curve.
-/

namespace StatelessGuest.Curve

open Lib

section

variable {K : Type} [Field K]

/-! ## The code -/

def feMul (d a b : Nat) (c : Store K) : Store K := Function.update c d (c a * c b)

def feSqr (d a : Nat) (c : Store K) : Store K := feMul d a a c

def feSub (d a b : Nat) (c : Store K) : Store K := Function.update c d (c a - c b)

def feMulSmall (d a k : Nat) (c : Store K) : Store K := Function.update c d (k * c a)

/-- `(1, 1, 0)`. -/
def ecpSetInf (pt : Nat) (c : Store K) : Store K := setCoords pt ⟨1, 1, 0⟩ c

/-- The doubling without a division; the temporaries are the seven elements from `h` on. -/
def ecpDoubleFormula (h out pt : Nat) (c : Store K) : Store K :=
  let x := pt
  let y := pt + 1
  let z := pt + 2
  let W := h
  let S := h + 1
  let B := h + 2
  let H := h + 3
  let S2 := h + 4
  let T1 := h + 5
  let T2 := h + 6
  let c := feSqr T1 x c
  let c := feMulSmall W T1 3 c
  let c := feMul S y z c
  let c := feMul T1 x y c
  let c := feMul B T1 S c
  let c := feSqr T1 W c
  let c := feMulSmall T2 B 8 c
  let c := feSub H T1 T2 c
  let c := feSqr S2 S c
  let c := feMul T1 H S c
  let c := feMulSmall T1 T1 2 c
  let c := feMulSmall T2 B 4 c
  let c := feSub T2 T2 H c
  let c := feMul T2 W T2 c
  let c := feSqr W y c
  let c := feMul W W S2 c
  let c := feMulSmall W W 8 c
  let c := feSub T2 T2 W c
  let c := feMul S S S2 c
  let c := feMulSmall S S 8 c
  let c := copyElems out T1 1 c
  let c := copyElems (out + 1) T2 1 c
  copyElems (out + 2) S 1 c

variable [DecidableEq K]

/-- A coordinate divided by `z`, where `z` is not 1. -/
def affineOf (z x : K) : K := if z = 1 then x else x * z⁻¹

/-- `out = 2 * pt`. -/
def ecpDouble (accel : PointAccel K) (fld h out pt : Nat) (c : Store K) : Store K :=
  if fld = 1 then
    let z1 := c (pt + 2)
    if z1 = 0 then ecpSetInf out c
    else
      let x1 := affineOf z1 (c pt)
      let y1 := affineOf z1 (c (pt + 1))
      if y1 = 0 then ecpSetInf out c else accelDouble accel out x1 y1 c
  else ecpDoubleFormula h out pt c

/-- The addition without a division, of points that are not zero; the temporaries are the twelve
elements from `h` on. -/
def ecpAddFormula (accel : PointAccel K) (fld h out p1 p2 : Nat) (c : Store K) : Store K :=
  let x1 := p1
  let y1 := p1 + 1
  let z1 := p1 + 2
  let x2 := p2
  let y2 := p2 + 1
  let z2 := p2 + 2
  let U1 := h
  let U2 := h + 1
  let V1 := h + 2
  let V2 := h + 3
  let c := feMul U1 y2 z1 c
  let c := feMul U2 y1 z2 c
  let c := feMul V1 x2 z1 c
  let c := feMul V2 x1 z2 c
  if c V1 = c V2 then
    if c U1 = c U2 then ecpDouble accel fld h out p1 c else ecpSetInf out c
  else
    let U := h + 4
    let V := h + 5
    let Vsq := h + 6
    let VsqV2 := h + 7
    let Vcu := h + 8
    let W := h + 9
    let A := h + 10
    let T := h + 11
    let c := feSub U U1 U2 c
    let c := feSub V V1 V2 c
    let c := feSqr Vsq V c
    let c := feMul VsqV2 Vsq V2 c
    let c := feMul Vcu V Vsq c
    let c := feMul W z1 z2 c
    let c := feSqr A U c
    let c := feMul A A W c
    let c := feSub A A Vcu c
    let c := feMulSmall T VsqV2 2 c
    let c := feSub A A T c
    let c := feMul T V A c
    let c := feSub V VsqV2 A c
    let c := feMul V U V c
    let c := feMul U1 Vcu U2 c
    let c := feSub V V U1 c
    let c := feMul W Vcu W c
    let c := copyElems out T 1 c
    let c := copyElems (out + 1) V 1 c
    copyElems (out + 2) W 1 c

/-- `out = p1 + p2`. -/
def ecpAdd (accel : PointAccel K) (fld h out p1 p2 : Nat) (c : Store K) : Store K :=
  let z1 := c (p1 + 2)
  let z2 := c (p2 + 2)
  if z1 = 0 then copyElems out p2 3 c
  else if z2 = 0 then copyElems out p1 3 c
  else if fld = 1 then
    let x1 := affineOf z1 (c p1)
    let y1 := affineOf z1 (c (p1 + 1))
    let x2 := affineOf z2 (c p2)
    let y2 := affineOf z2 (c (p2 + 1))
    if x1 = x2 then
      if y1 + y2 = 0 then ecpSetInf out c else accelDouble accel out x1 y1 c
    else accelAdd accel out x1 y1 x2 y2 c
  else ecpAddFormula accel fld h out p1 p2 c

/-- The rounds of the multiplication, from the lowest of `len` bits on. -/
def ecpMulLoop (accel : PointAccel K) (fld h acc base n len : Nat) : Nat → Nat → Store K → Store K
  | 0, _, c => c
  | k + 1, i, c =>
    let c := if n.testBit i then ecpAdd accel fld h acc acc base c else c
    let c := if i + 1 < len then ecpDouble accel fld h base base c else c
    ecpMulLoop accel fld h acc base n len k (i + 1) c

/-- `out = n * pt`. -/
def ecpMul (accel : PointAccel K) (fld h out pt n : Nat) (c : Store K) : Store K :=
  let acc := h
  let base := h + 3
  let c := ecpSetInf acc c
  let c := copyElems base pt 3 c
  let c := ecpMulLoop accel fld (h + 6) acc base n n.size n.size 0 c
  copyElems out acc 3 c

omit [DecidableEq K]

/-! ## The formulas -/

variable {c : Store K} {a b d h i k out p1 p2 pt : Nat}

theorem feMul_self : feMul d a b c d = c a * c b := Function.update_self ..

theorem feMul_ne (hi : i ≠ d) : feMul d a b c i = c i := Function.update_of_ne hi ..

theorem feSqr_self : feSqr d a c d = c a * c a := Function.update_self ..

theorem feSqr_ne (hi : i ≠ d) : feSqr d a c i = c i := Function.update_of_ne hi ..

theorem feSub_self : feSub d a b c d = c a - c b := Function.update_self ..

theorem feSub_ne (hi : i ≠ d) : feSub d a b c i = c i := Function.update_of_ne hi ..

theorem feMulSmall_self : feMulSmall d a k c d = k * c a := Function.update_self ..

theorem feMulSmall_ne (hi : i ≠ d) : feMulSmall d a k c i = c i := Function.update_of_ne hi ..

theorem copyElem_self : copyElems d a 1 c d = c a := Function.update_self ..

theorem copyElem_ne (hi : i ≠ d) : copyElems d a 1 c i = c i := Function.update_of_ne hi ..

theorem coordsAt_ecpDoubleFormula (hpt : pt + 3 ≤ h) (hout : out + 3 ≤ h) :
    coordsAt (ecpDoubleFormula h out pt c) out = ShortCurve.homogDouble (coordsAt c pt) := by
  unfold ecpDoubleFormula
  simp (disch := omega) only [coordsAt, feMul_self, feMul_ne, feSqr_self, feSqr_ne, feSub_self,
    feSub_ne, feMulSmall_self, feMulSmall_ne, copyElem_self, copyElem_ne, ShortCurve.homogDouble,
    Coords.mk.injEq]
  push_cast
  refine ⟨?_, ?_, ?_⟩ <;> ring

theorem only_ecpDoubleFormula (hout : out + 3 ≤ h) :
    Only 3 h out c (ecpDoubleFormula h out pt c) := by
  intro i hi hi'
  unfold ecpDoubleFormula
  simp (disch := omega) only [feMul_ne, feSqr_ne, feSub_ne, feMulSmall_ne, copyElem_ne]

variable [DecidableEq K] {accel : PointAccel K} {fld : Nat}

/-- The sum of points over different `x`. -/
theorem coordsAt_ecpAddFormula (hp1 : p1 + 3 ≤ h) (hp2 : p2 + 3 ≤ h) (hout : out + 3 ≤ h)
    (hne : c p2 * c (p1 + 2) ≠ c p1 * c (p2 + 2)) :
    coordsAt (ecpAddFormula accel fld h out p1 p2 c) out =
      ShortCurve.homogAdd (coordsAt c p1) (coordsAt c p2) := by
  unfold ecpAddFormula
  dsimp only
  rw [if_neg (by simpa (disch := omega) only [feMul_self, feMul_ne] using hne)]
  simp (disch := omega) only [coordsAt, feMul_self, feMul_ne, feSqr_self, feSqr_ne, feSub_self,
    feSub_ne, feMulSmall_self, feMulSmall_ne, copyElem_self, copyElem_ne, ShortCurve.homogAdd,
    Coords.mk.injEq]
  push_cast
  refine ⟨?_, ?_, ?_⟩ <;> ring

theorem only_ecpAddFormula (hout : out + 3 ≤ h)
    (hne : c p2 * c (p1 + 2) ≠ c p1 * c (p2 + 2)) (hp1 : p1 + 3 ≤ h) (hp2 : p2 + 3 ≤ h) :
    Only 3 h out c (ecpAddFormula accel fld h out p1 p2 c) := by
  intro i hi hi'
  unfold ecpAddFormula
  dsimp only
  rw [if_neg (by simpa (disch := omega) only [feMul_self, feMul_ne] using hne)]
  simp (disch := omega) only [feMul_ne, feSqr_ne, feSub_ne, feMulSmall_ne, copyElem_ne]

/-! ## In the group -/

variable {E : ShortCurve K} {P Q : E.Point}

theorem affineOf_eq (z x : K) : affineOf z x = x / z := by
  unfold affineOf
  split
  · next hz => rw [hz, div_one]
  · rw [div_eq_mul_inv]

theorem leaves_setInf : Leaves E h out c 0 (ecpSetInf out c) :=
  leaves_set (ShortCurve.homog_zero rfl)

theorem leaves_ecpDouble (hacc : fld = 1 → accel.Exact E) (ha : E.a = 0) (hpt : pt + 3 ≤ h)
    (hout : out + 3 ≤ h) (hP : E.Homog (coordsAt c pt) P) :
    Leaves E h out c (P + P) (ecpDouble accel fld h out pt c) := by
  unfold ecpDouble
  by_cases hfld : fld = 1
  · rw [if_pos hfld]
    dsimp only
    by_cases hz : c (pt + 2) = 0
    · rw [if_pos hz, hP.eq_zero hz, add_zero]
      exact leaves_setInf
    · have haff := hP.affine hz
      change E.Affine (c pt / c (pt + 2)) (c (pt + 1) / c (pt + 2)) P at haff
      rw [if_neg hz, affineOf_eq, affineOf_eq]
      by_cases hy : c (pt + 1) / c (pt + 2) = 0
      · rw [if_pos hy, ShortCurve.add_opposite haff haff (by rw [hy, add_zero])]
        exact leaves_setInf
      · rw [if_neg hy]
        exact leaves_affine ((hacc hfld).dbl haff hy)
  · rw [if_neg hfld]
    refine ⟨?_, only_ecpDoubleFormula hout⟩
    rw [coordsAt_ecpDoubleFormula hpt hout]
    exact ShortCurve.homog_double ha hP

/-- The first products of the addition leave the points where they are. -/
theorem leaves_ecpAddFormula (hacc : fld = 1 → accel.Exact E) (ha : E.a = 0) (hp1 : p1 + 3 ≤ h)
    (hp2 : p2 + 3 ≤ h) (hout : out + 3 ≤ h) (hP : E.Homog (coordsAt c p1) P)
    (hQ : E.Homog (coordsAt c p2) Q) (hz1 : c (p1 + 2) ≠ 0) (hz2 : c (p2 + 2) ≠ 0) :
    Leaves E h out c (P + Q) (ecpAddFormula accel fld h out p1 p2 c) := by
  by_cases hx : c p2 * c (p1 + 2) = c p1 * c (p2 + 2)
  · have hsame := ShortCurve.homog_same_x hP hQ hz1 hz2 hx
    change if c (p2 + 1) * c (p1 + 2) = c (p1 + 1) * c (p2 + 2) then P = Q else P + Q = 0 at hsame
    unfold ecpAddFormula
    dsimp only
    obtain ⟨c₁, hc₁⟩ : ∃ t, t = feMul (h + 3) p1 (p2 + 2) (feMul (h + 2) p2 (p1 + 2)
      (feMul (h + 1) (p1 + 1) (p2 + 2) (feMul h (p2 + 1) (p1 + 2) c))) := ⟨_, rfl⟩
    have hkeep : ∀ i < h, c₁ i = c i := by
      intro i hi
      rw [hc₁]
      simp (disch := omega) only [feMul_ne]
    have hV : c₁ (h + 2) = c₁ (h + 3) := by
      rw [hc₁]
      simpa (disch := omega) only [feMul_self, feMul_ne] using hx
    have hU : c₁ h = c₁ (h + 1) ↔ c (p2 + 1) * c (p1 + 2) = c (p1 + 1) * c (p2 + 2) := by
      rw [hc₁]
      simp (disch := omega) only [feMul_self, feMul_ne]
    rw [← hc₁, if_pos hV]
    by_cases hy : c (p2 + 1) * c (p1 + 2) = c (p1 + 1) * c (p2 + 2)
    · rw [if_pos hy] at hsame
      rw [if_pos (hU.mpr hy), ← hsame]
      have hP₁ : E.Homog (coordsAt c₁ p1) P := by
        rwa [coordsAt_congr fun i hi => hkeep (p1 + i) (by omega)]
      exact (leaves_ecpDouble hacc ha hp1 hout hP₁).after hkeep
    · rw [if_neg hy] at hsame
      rw [if_neg fun heq => hy (hU.mp heq), hsame]
      exact leaves_setInf.after hkeep
  · refine ⟨?_, only_ecpAddFormula hout hx hp1 hp2⟩
    rw [coordsAt_ecpAddFormula hp1 hp2 hout hx]
    exact ShortCurve.homog_add hP hQ hz1 hz2 hx

theorem leaves_ecpAdd (hacc : fld = 1 → accel.Exact E) (ha : E.a = 0) (hp1 : p1 + 3 ≤ h)
    (hp2 : p2 + 3 ≤ h) (hout : out + 3 ≤ h) (hal1 : MayAlias 3 out p1) (hal2 : MayAlias 3 out p2)
    (hP : E.Homog (coordsAt c p1) P) (hQ : E.Homog (coordsAt c p2) Q) :
    Leaves E h out c (P + Q) (ecpAdd accel fld h out p1 p2 c) := by
  unfold ecpAdd
  dsimp only
  by_cases hz1 : c (p1 + 2) = 0
  · rw [if_pos hz1, hP.eq_zero hz1, zero_add]
    exact leaves_copy hal2 hQ
  by_cases hz2 : c (p2 + 2) = 0
  · rw [if_neg hz1, if_pos hz2, hQ.eq_zero hz2, add_zero]
    exact leaves_copy hal1 hP
  rw [if_neg hz1, if_neg hz2]
  by_cases hfld : fld = 1
  · have haff1 := hP.affine hz1
    have haff2 := hQ.affine hz2
    change E.Affine (c p1 / c (p1 + 2)) (c (p1 + 1) / c (p1 + 2)) P at haff1
    change E.Affine (c p2 / c (p2 + 2)) (c (p2 + 1) / c (p2 + 2)) Q at haff2
    rw [if_pos hfld, affineOf_eq, affineOf_eq, affineOf_eq, affineOf_eq]
    by_cases hx : c p1 / c (p1 + 2) = c p2 / c (p2 + 2)
    · rw [if_pos hx]
      rw [← hx] at haff2
      by_cases hy : c (p1 + 1) / c (p1 + 2) + c (p2 + 1) / c (p2 + 2) = 0
      · rw [if_pos hy, ShortCurve.add_opposite haff1 haff2 hy]
        exact leaves_setInf
      · -- the points are the same, and not opposite to themselves
        have hsame : c (p1 + 1) / c (p1 + 2) = c (p2 + 1) / c (p2 + 2) := by
          obtain ⟨h1, -⟩ := id haff1
          obtain ⟨h2, -⟩ := id haff2
          exact (ShortCurve.eq_or_eq_neg h1 h2).resolve_right fun hneg =>
            hy (by rw [hneg, neg_add_cancel])
        rw [← hsame] at haff2 hy
        have hPQ : P = Q := by
          obtain ⟨h1, rfl⟩ := haff1
          obtain ⟨h2, rfl⟩ := haff2
          rfl
        rw [if_neg (hsame ▸ hy), ← hPQ]
        refine leaves_affine ((hacc hfld).dbl haff1 fun hzero => hy ?_)
        rw [hzero, add_zero]
    · rw [if_neg hx]
      exact leaves_affine ((hacc hfld).add haff1 haff2 hx)
  · rw [if_neg hfld]
    exact leaves_ecpAddFormula hacc ha hp1 hp2 hout hP hQ hz1 hz2

/-! ## Multiples -/

theorem leaves_ecpMulLoop (hacc : fld = 1 → accel.Exact E) (ha : E.a = 0) {acc base len n : Nat}
    (hn : n < 2 ^ len) (hapart : acc + 3 ≤ base) (hbase : base + 3 ≤ h) {k i : Nat}
    (hk : k + i = len) {c : Store K} (hA : E.Homog (coordsAt c acc) ((n % 2 ^ i) • P))
    (hB : 0 < k → E.Homog (coordsAt c base) (2 ^ i • P)) :
    E.Homog (coordsAt (ecpMulLoop accel fld h acc base n len k i c) acc) (n • P) ∧
      ∀ j < acc, ecpMulLoop accel fld h acc base n len k i c j = c j := by
  induction k generalizing i c with
  | zero =>
    rw [← hk, Nat.zero_add] at hn
    rw [Nat.mod_eq_of_lt hn] at hA
    exact ⟨hA, fun j _ => rfl⟩
  | succ k ih =>
    have hB := hB (Nat.succ_pos k)
    have hbits : n % 2 ^ (i + 1) = n % 2 ^ i + 2 ^ i * (n.testBit i).toNat := by
      rw [Nat.mod_pow_succ, Nat.toNat_testBit]
    obtain ⟨c₁, hc₁⟩ : ∃ t, t = if n.testBit i then ecpAdd accel fld h acc acc base c else c :=
      ⟨_, rfl⟩
    have hsum : E.Homog (coordsAt c₁ acc) ((n % 2 ^ (i + 1)) • P) ∧ Only 3 h acc c c₁ := by
      rw [hc₁, hbits]
      cases n.testBit i with
      | false =>
        rw [if_neg Bool.false_ne_true, Bool.toNat_false, Nat.mul_zero, Nat.add_zero]
        exact ⟨hA, Only.refl 3 h acc c⟩
      | true =>
        rw [if_pos rfl, Bool.toNat_true, Nat.mul_one, add_nsmul]
        exact leaves_ecpAdd hacc ha (by omega) hbase (by omega) (.inl rfl) (.inr (.inl hapart)) hA hB
    have hB₁ : E.Homog (coordsAt c₁ base) (2 ^ i • P) := by
      rwa [hsum.2.coordsAt_eq hbase (.inr hapart)]
    obtain ⟨c₂, hc₂⟩ : ∃ t, t = if i + 1 < len then ecpDouble accel fld h base base c₁ else c₁ :=
      ⟨_, rfl⟩
    have hdouble : (0 < k → E.Homog (coordsAt c₂ base) (2 ^ (i + 1) • P)) ∧
        Only 3 h base c₁ c₂ := by
      rw [hc₂]
      by_cases hlast : i + 1 < len
      · rw [if_pos hlast, pow_succ, Nat.mul_two, add_nsmul]
        obtain ⟨hsum, honly⟩ := leaves_ecpDouble hacc ha hbase hbase hB₁
        exact ⟨fun _ => hsum, honly⟩
      · rw [if_neg hlast]
        exact ⟨fun hk0 => absurd hk (by omega), Only.refl 3 h base c₁⟩
    have hA₂ : E.Homog (coordsAt c₂ acc) ((n % 2 ^ (i + 1)) • P) := by
      rw [hdouble.2.coordsAt_eq (by omega) (.inl hapart)]
      exact hsum.1
    rw [ecpMulLoop, ← hc₁, ← hc₂]
    obtain ⟨hrest, hkeep⟩ := ih (i := i + 1) (by omega) hA₂ hdouble.1
    refine ⟨hrest, fun j hj => ?_⟩
    rw [hkeep j hj, hdouble.2 j (by omega) (by omega), hsum.2 j (by omega) (by omega)]

theorem leaves_ecpMul (hacc : fld = 1 → accel.Exact E) (ha : E.a = 0) (hpt : pt + 3 ≤ h)
    (hout : out + 3 ≤ h) (hP : E.Homog (coordsAt c pt) P) (n : Nat) :
    Leaves E h out c (n • P) (ecpMul accel fld h out pt n c) := by
  unfold ecpMul
  dsimp only
  obtain ⟨c₁, hc₁⟩ : ∃ t, t = ecpSetInf h c := ⟨_, rfl⟩
  obtain ⟨c₂, hc₂⟩ : ∃ t, t = copyElems (h + 3) pt 3 c₁ := ⟨_, rfl⟩
  rw [← hc₁, ← hc₂]
  obtain ⟨hinf, honly₁⟩ : Leaves E (h + 6) h c 0 (ecpSetInf h c) := leaves_setInf
  rw [← hc₁] at hinf honly₁
  have hcopy : coordsAt c₂ (h + 3) = coordsAt c pt := by
    rw [hc₂, coordsAt_copyElems (.inr (.inr (by omega))), honly₁.coordsAt_eq (by omega) (by omega)]
  have honly₂ : Only 3 (h + 6) (h + 3) c₁ c₂ := hc₂ ▸ only_copyElems _ _ _ _ _
  have hA : E.Homog (coordsAt c₂ h) ((n % 2 ^ 0) • P) := by
    rw [honly₂.coordsAt_eq (by omega) (by omega), pow_zero, Nat.mod_one, zero_nsmul]
    exact hinf
  have hB : E.Homog (coordsAt c₂ (h + 3)) (2 ^ 0 • P) := by
    rw [hcopy, pow_zero, one_nsmul]
    exact hP
  obtain ⟨hmul, hkeep⟩ := leaves_ecpMulLoop (h := h + 6) hacc ha (Nat.lt_size_self n)
    (Nat.le_refl (h + 3)) (Nat.le_refl (h + 6)) (Nat.add_zero n.size) hA fun _ => hB
  refine ⟨?_, fun i hi hi' => ?_⟩
  · rw [coordsAt_copyElems (.inr (.inl hout))]
    exact hmul
  · rw [copyElems_of_not_mem hi', hkeep i hi, honly₂ i (by omega) (by omega),
      honly₁ i (by omega) (by omega)]

/-! ## The operations -/

/-- The point operations compute in the group of the curve: the sum, the double and the multiples
of the points at `p1` and `p2`, wherever the result lies, and whatever stands for the zero point. -/
theorem ecp_exact (accel : PointAccel K) (fld : Nat) (hacc : fld = 1 → accel.Exact E)
    (ha : E.a = 0) (c : Store K) (hp1 : p1 + 3 ≤ h) (hp2 : p2 + 3 ≤ h) (hout : out + 3 ≤ h)
    (hal1 : MayAlias 3 out p1) (hal2 : MayAlias 3 out p2) (hP : E.Homog (coordsAt c p1) P)
    (hQ : E.Homog (coordsAt c p2) Q) :
    Leaves E h out c (P + Q) (ecpAdd accel fld h out p1 p2 c) ∧
      Leaves E h out c (P + P) (ecpDouble accel fld h out p1 c) ∧
      ∀ n, Leaves E h out c (n • P) (ecpMul accel fld h out p1 n c) :=
  ⟨leaves_ecpAdd hacc ha hp1 hp2 hout hal1 hal2 hP hQ, leaves_ecpDouble hacc ha hp1 hout hP,
    leaves_ecpMul hacc ha hp1 hout hP⟩

end

section

private abbrev Seven : Type := ZMod 7

private instance factSeven : Fact (Nat.Prime 7) := ⟨by decide⟩

private theorem seven_two : (2 : Seven) ≠ 0 := by decide

private theorem seven_disc : 4 * (0 : Seven) ^ 3 + 27 * ((3 : Nat) : Seven) ^ 2 ≠ 0 := by decide

private def sevenCurve : ShortCurve Seven := ⟨0, (3 : Nat), seven_two, seven_disc⟩

private theorem on_seven : sevenCurve.On 1 2 := by
  unfold ShortCurve.On
  decide

/-- The point `(1, 2)` twice, once with another `z`. -/
private def sevenStore : Store Seven := fun i => ([1, 2, 1, 2, 4, 2].getD i 0 : Nat)

theorem ecp_exact_seven : ∃ P : sevenCurve.Point, P ≠ 0 ∧
    Leaves sevenCurve 6 0 sevenStore (P + P) (ecpAdd (lineAccel 0) 1 6 0 0 3 sevenStore) ∧
    Leaves sevenCurve 6 0 sevenStore (P + P) (ecpDouble (lineAccel 0) 1 6 0 0 sevenStore) ∧
    ∀ n, Leaves sevenCurve 6 0 sevenStore (n • P) (ecpMul (lineAccel 0) 1 6 0 0 n sevenStore) := by
  have hP : sevenCurve.Affine 1 2 (ShortCurve.point on_seven) := ShortCurve.affine_point on_seven
  have hquot : (1 : Seven) / 1 = 1 ∧ (2 : Seven) / 1 = 2 ∧ (2 : Seven) / 2 = 1 ∧
      (4 : Seven) / 2 = 2 := by decide +kernel
  refine ⟨ShortCurve.point on_seven, hP.ne_zero, ?_⟩
  refine ecp_exact (lineAccel 0) 1 (fun _ => lineAccel_exact sevenCurve) rfl sevenStore
    (by decide) (by decide) (by decide) (.inl rfl) (.inr (.inl (by decide))) (.inr ⟨?_, ?_⟩)
    (.inr ⟨?_, ?_⟩)
  · decide
  · change sevenCurve.Affine ((1 : Seven) / 1) (2 / 1) _
    rwa [hquot.1, hquot.2.1]
  · decide
  · change sevenCurve.Affine ((2 : Seven) / 2) (4 / 2) _
    rwa [hquot.2.2.1, hquot.2.2.2]

end

end StatelessGuest.Curve
