import StatelessGuest.Curve.FinalExp
import StatelessGuest.Curve.Points
import StatelessGuest.Lib.Digits
import StatelessGuest.Num.Mul

/-!
# Points of BLS12-381

Points over the base field are added with values, and by an accelerator where both have `z = 1`.
Points over the extension are added in memory. A multiple is computed from the top bit of the
scalar on, which is any number of words.

* `g1Double`, `g1Add`, `g1Mul`, `g1SubgroupCheck`, and the same for `g2`.
* `scalar`: the number that the words stand for.
* `bls_groups_exact`: they compute in the groups of the curves.
-/

namespace StatelessGuest.Curve

open Lib

section

variable {K : Type} [Field K]

/-! ## The code -/

def g1SetInf (r : Nat) (c : Store K) : Store K := setCoords r ⟨1, 1, 0⟩ c

variable [DecidableEq K]

def g1IsInf (p : Nat) (c : Store K) : Bool := c (p + 2) = 0

/-- `r = 2 * p`. -/
def g1Double (accel : PointAccel K) (r p : Nat) (c : Store K) : Store K :=
  let x := c p
  let y := c (p + 1)
  let z := c (p + 2)
  if z = 1 then
    if y = 0 then g1SetInf r c else accelDouble accel r x y c
  else
    let w := x ^ 2
    let w2 := w + w
    let w := w2 + w
    let s := y * z
    let b := x * y
    let b := b * s
    let b4 := b + b
    let b4 := b4 + b4
    let b8 := b4 + b4
    let h := w ^ 2
    let h := h - b8
    let s2 := s ^ 2
    let nx := h * s
    let nx := nx + nx
    let t := b4 - h
    let t := w * t
    let yy := y ^ 2
    let yy := yy * s2
    let yy := yy + yy
    let yy := yy + yy
    let yy := yy + yy
    let ny := t - yy
    let nz := s * s2
    let nz := nz + nz
    let nz := nz + nz
    let nz := nz + nz
    setCoords r ⟨nx, ny, nz⟩ c

/-- The sum of points that are not zero and not both with `z = 1`. -/
def g1AddFormula (accel : PointAccel K) (r p1 p2 : Nat) (c : Store K) : Store K :=
  let x1 := c p1
  let y1 := c (p1 + 1)
  let z1 := c (p1 + 2)
  let x2 := c p2
  let y2 := c (p2 + 1)
  let z2 := c (p2 + 2)
  let u1 := y2 * z1
  let u2 := y1 * z2
  let v1 := x2 * z1
  let v2 := x1 * z2
  if v1 = v2 then
    if u1 = u2 then g1Double accel r p1 c else g1SetInf r c
  else
    let u := u1 - u2
    let v := v1 - v2
    let vv := v ^ 2
    let vvv2 := vv * v2
    let v3 := v * vv
    let w := z1 * z2
    let a := u ^ 2
    let a := a * w
    let a := a - v3
    let t := vvv2 + vvv2
    let a := a - t
    let nx := v * a
    let ny := vvv2 - a
    let ny := u * ny
    let t := v3 * u2
    let ny := ny - t
    let nz := v3 * w
    setCoords r ⟨nx, ny, nz⟩ c

/-- `r = p1 + p2`. -/
def g1Add (accel : PointAccel K) (r p1 p2 : Nat) (c : Store K) : Store K :=
  if c (p1 + 2) = 0 then copyElems r p2 3 c
  else if c (p2 + 2) = 0 then copyElems r p1 3 c
  else if c (p1 + 2) = 1 ∧ c (p2 + 2) = 1 then
    if c p1 = c p2 then
      if c (p1 + 1) = c (p2 + 1) then g1Double accel r p1 c else g1SetInf r c
    else accelAdd accel r (c p1) (c (p1 + 1)) (c p2) (c (p2 + 1)) c
  else g1AddFormula accel r p1 p2 c

/-- The coordinates divided by `z`, and whether the point is not zero. -/
def g1Normalize (r p : Nat) (c : Store K) : Bool × Store K :=
  let zi := (c (p + 2))⁻¹
  let x := c p * zi
  let y := c (p + 1) * zi
  (!g1IsInf p c, Function.update (Function.update c r x) (r + 1) y)

/-- The bit `i` of the scalar with the words `ks`. -/
def scalarBit (ks : Nat → Word) (i : Nat) : Bool := ks (i / 64) >>> (i % 64) &&& 1 = 1

/-- The point that is multiplied, with `z = 1` unless it is zero; `aff` are two elements. -/
def g1MulBase (aff base p : Nat) (c : Store K) : Store K :=
  if g1IsInf p c then g1SetInf base c
  else if c (p + 2) = 1 then copyElems base p 3 c
  else
    let c := (g1Normalize aff p c).2
    setCoords base ⟨c aff, c (aff + 1), 1⟩ c

/-- `r = k * p`, where `k` has the `n` words `ks`. -/
def g1Mul (accel : PointAccel K) (h r p : Nat) (ks : Nat → Word) (n : Nat) (c : Store K) :
    Store K :=
  let acc := h
  let base := h + 3
  let aff := h + 6
  let c := g1MulBase aff base p c
  let c := g1SetInf acc c
  let c := ladder (g1Double accel acc acc) (g1Add accel acc acc base) (scalarBit ks) (n * 64) false c
  copyElems r acc 3 c

/-- The words of `C_ORDER`. -/
def cOrder : Nat → Word
  | 0 => -4294967295
  | 1 => 6034159408538082302
  | 2 => 3691218898639771653
  | 3 => 8353516859464449352
  | _ => 0

/-- The group order times the point is zero. -/
def g1SubgroupCheck (accel : PointAccel K) (h p : Nat) (c : Store K) : Bool :=
  g1IsInf h (g1Mul accel (h + 3) h p cOrder 4 c)

omit [DecidableEq K] in
def g2SetInf (r : Nat) (c : Store K) : Store K :=
  fp2SetZero (r + 2) (fp2SetOne (r + 1) (fp2SetOne r c))

omit [DecidableEq K] in
/-- `r = 2 * p`; the temporaries are the eight elements from `h` on. -/
def g2Double (h r p : Nat) (c : Store K) : Store K :=
  let w := h
  let s := h + 1
  let b := h + 2
  let h' := h + 3
  let s2 := h + 4
  let u := h + 5
  let nx := h + 6
  let ny := h + 7
  let x := p
  let y := p + 1
  let z := p + 2
  let c := fp2Sqr w x c
  let c := fp2Add u w w c
  let c := fp2Add w u w c
  let c := fp2Mul s y z c
  let c := fp2Mul b x y c
  let c := fp2Mul b b s c
  let c := fp2Add u b b c
  let c := fp2Add u u u c
  let c := fp2Add h' u u c
  let c := fp2Sqr nx w c
  let c := fp2Sub h' nx h' c
  let c := fp2Sqr s2 s c
  let c := fp2Mul nx h' s c
  let c := fp2Add nx nx nx c
  let c := fp2Sub u u h' c
  let c := fp2Mul ny w u c
  let c := fp2Sqr u y c
  let c := fp2Mul u u s2 c
  let c := fp2Add u u u c
  let c := fp2Add u u u c
  let c := fp2Add u u u c
  let c := fp2Sub ny ny u c
  let c := fp2Mul u s s2 c
  let c := fp2Add u u u c
  let c := fp2Add u u u c
  let c := fp2Add u u u c
  let c := fp2Copy r nx c
  let c := fp2Copy (r + 1) ny c
  fp2Copy (r + 2) u c

def g2IsInf (p : Nat) (c : Store K) : Bool := c (p + 2) = 0

/-- The sum of points that are not zero; the temporaries are the twelve elements from `h` on. -/
def g2AddFormula (h r p1 p2 : Nat) (c : Store K) : Store K :=
  let u1 := h
  let u2 := h + 1
  let v1 := h + 2
  let v2 := h + 3
  let c := fp2Mul u1 (p2 + 1) (p1 + 2) c
  let c := fp2Mul u2 (p1 + 1) (p2 + 2) c
  let c := fp2Mul v1 p2 (p1 + 2) c
  let c := fp2Mul v2 p1 (p2 + 2) c
  if c v1 = c v2 then
    if c u1 = c u2 then g2Double h r p1 c else g2SetInf r c
  else
    let u := h + 4
    let v := h + 5
    let vv := h + 6
    let vvv2 := h + 7
    let v3 := h + 8
    let w := h + 9
    let a := h + 10
    let q := h + 11
    let c := fp2Sub u u1 u2 c
    let c := fp2Sub v v1 v2 c
    let c := fp2Sqr vv v c
    let c := fp2Mul vvv2 vv v2 c
    let c := fp2Mul v3 v vv c
    let c := fp2Mul w (p1 + 2) (p2 + 2) c
    let c := fp2Sqr a u c
    let c := fp2Mul a a w c
    let c := fp2Sub a a v3 c
    let c := fp2Add q vvv2 vvv2 c
    let c := fp2Sub a a q c
    let c := fp2Mul q v a c
    let c := fp2Sub u1 vvv2 a c
    let c := fp2Mul u1 u u1 c
    let c := fp2Mul u2 v3 u2 c
    let c := fp2Sub u1 u1 u2 c
    let c := fp2Mul w v3 w c
    let c := fp2Copy r q c
    let c := fp2Copy (r + 1) u1 c
    fp2Copy (r + 2) w c

/-- `r = p1 + p2`. -/
def g2Add (h r p1 p2 : Nat) (c : Store K) : Store K :=
  if g2IsInf p1 c then copyElems r p2 3 c
  else if g2IsInf p2 c then copyElems r p1 3 c
  else g2AddFormula h r p1 p2 c

/-- `r = k * p`, where `k` has the `n` words `ks`. -/
def g2Mul (h r p : Nat) (ks : Nat → Word) (n : Nat) (c : Store K) : Store K :=
  let acc := h
  let h := h + 3
  let c := g2SetInf acc c
  let c := ladder (g2Double h acc acc) (g2Add h acc acc p) (scalarBit ks) (n * 64) false c
  copyElems r acc 3 c

/-- The group order times the point is zero. -/
def g2SubgroupCheck (h p : Nat) (c : Store K) : Bool :=
  g2IsInf h (g2Mul (h + 3) h p cOrder 4 c)

/-! ## Scalars -/

/-- The number with the `n` words `ks`. -/
def scalar (ks : Nat → Word) (n : Nat) : Nat := Digits.value (2 ^ 64) (fun j => (ks j).toNat) n

theorem scalar_lt (ks : Nat → Word) (n : Nat) : scalar ks n < 2 ^ (n * 64) := by
  rw [Nat.mul_comm, Nat.pow_mul]
  exact Digits.value_lt fun j _ => (ks j).isLt

theorem scalarBit_eq (ks : Nat → Word) {n i : Nat} (hi : i < n * 64) :
    scalarBit ks i = (scalar ks n).testBit i := by
  have hword : (ks (i / 64)).toNat = scalar ks n / (2 ^ 64) ^ (i / 64) % 2 ^ 64 :=
    Digits.digit_eq (fun j _ => (ks j).isLt) (by omega)
  have hbit : scalarBit ks i = (ks (i / 64)).getLsbD (i % 64) := by
    unfold scalarBit
    rw [Bool.eq_iff_iff, decide_eq_true_iff]
    exact Limb.shiftRight_and_one_eq_one
  rw [hbit, BitVec.getLsbD, hword, ← Nat.pow_mul, Nat.testBit_mod_two_pow, Nat.testBit_div_two_pow,
    decide_eq_true (Nat.mod_lt i (by decide)), Bool.true_and, Nat.mod_add_div]

theorem scalar_cOrder : scalar cOrder 4 = blsR := by decide +kernel

/-! ## Points over the base field -/

variable {c c₁ : Store K} {h p p1 p2 r : Nat} {accel : PointAccel K} {E : ShortCurve K}
  {P Q : E.Point}

omit [DecidableEq K] in
theorem leaves_g1SetInf : Leaves E h r c 0 (g1SetInf r c) := leaves_set (ShortCurve.homog_zero rfl)

omit [DecidableEq K] in
theorem affine_of_one (hP : E.Homog (coordsAt c p) P) (hz : c (p + 2) = 1) :
    E.Affine (c p) (c (p + 1)) P := by
  have haff := hP.affine (by
    change c (p + 2) ≠ 0
    rw [hz]
    exact one_ne_zero)
  change E.Affine (c p / c (p + 2)) (c (p + 1) / c (p + 2)) P at haff
  rwa [hz, div_one, div_one] at haff

theorem leaves_g1Double (hacc : accel.Exact E) (ha : E.a = 0) (hP : E.Homog (coordsAt c p) P) :
    Leaves E h r c (P + P) (g1Double accel r p c) := by
  unfold g1Double
  dsimp only
  by_cases hz : c (p + 2) = 1
  · have haff := affine_of_one hP hz
    rw [if_pos hz]
    by_cases hy : c (p + 1) = 0
    · rw [if_pos hy, ShortCurve.add_opposite haff haff (by rw [hy, add_zero])]
      exact leaves_g1SetInf
    · rw [if_neg hy]
      exact leaves_affine (hacc.dbl haff hy)
  · rw [if_neg hz]
    refine leaves_set ((congrArg (fun q => E.Homog q (P + P)) ?_).mp (ShortCurve.homog_double ha hP))
    simp only [ShortCurve.homogDouble, coordsAt, Coords.mk.injEq]
    refine ⟨?_, ?_, ?_⟩ <;> ring

theorem leaves_g1AddFormula (hacc : accel.Exact E) (ha : E.a = 0)
    (hP : E.Homog (coordsAt c p1) P) (hQ : E.Homog (coordsAt c p2) Q) (hz1 : c (p1 + 2) ≠ 0)
    (hz2 : c (p2 + 2) ≠ 0) : Leaves E h r c (P + Q) (g1AddFormula accel r p1 p2 c) := by
  unfold g1AddFormula
  dsimp only
  by_cases hx : c p2 * c (p1 + 2) = c p1 * c (p2 + 2)
  · have hsame := ShortCurve.homog_same_x hP hQ hz1 hz2 hx
    change if c (p2 + 1) * c (p1 + 2) = c (p1 + 1) * c (p2 + 2) then P = Q else P + Q = 0 at hsame
    rw [if_pos hx]
    by_cases hy : c (p2 + 1) * c (p1 + 2) = c (p1 + 1) * c (p2 + 2)
    · rw [if_pos hy] at hsame ⊢
      rw [← hsame]
      exact leaves_g1Double hacc ha hP
    · rw [if_neg hy] at hsame ⊢
      rw [hsame]
      exact leaves_g1SetInf
  · rw [if_neg hx]
    refine leaves_set ((congrArg (fun q => E.Homog q (P + Q)) ?_).mp
      (ShortCurve.homog_add hP hQ hz1 hz2 hx))
    simp only [ShortCurve.homogAdd, coordsAt, Coords.mk.injEq]
    refine ⟨?_, ?_, ?_⟩ <;> ring

theorem leaves_g1Add (hacc : accel.Exact E) (ha : E.a = 0) (hal1 : MayAlias 3 r p1)
    (hal2 : MayAlias 3 r p2) (hP : E.Homog (coordsAt c p1) P) (hQ : E.Homog (coordsAt c p2) Q) :
    Leaves E h r c (P + Q) (g1Add accel r p1 p2 c) := by
  unfold g1Add
  by_cases hz1 : c (p1 + 2) = 0
  · rw [if_pos hz1, hP.eq_zero hz1, zero_add]
    exact leaves_copy hal2 hQ
  by_cases hz2 : c (p2 + 2) = 0
  · rw [if_neg hz1, if_pos hz2, hQ.eq_zero hz2, add_zero]
    exact leaves_copy hal1 hP
  rw [if_neg hz1, if_neg hz2]
  by_cases hone : c (p1 + 2) = 1 ∧ c (p2 + 2) = 1
  · have haff1 := affine_of_one hP hone.1
    have haff2 := affine_of_one hQ hone.2
    rw [if_pos hone]
    by_cases hx : c p1 = c p2
    · rw [if_pos hx]
      rw [← hx] at haff2
      obtain ⟨h1, hP1⟩ := id haff1
      obtain ⟨h2, hQ2⟩ := id haff2
      by_cases hy : c (p1 + 1) = c (p2 + 1)
      · have hPQ : P = Q := by
          rw [hP1, hQ2]
          unfold ShortCurve.point
          simp only [hy]
        rw [if_pos hy, ← hPQ]
        exact leaves_g1Double hacc ha hP
      · have hneg := (ShortCurve.eq_or_eq_neg h1 h2).resolve_left hy
        rw [if_neg hy, ShortCurve.add_opposite haff1 haff2 (by rw [hneg, neg_add_cancel])]
        exact leaves_g1SetInf
    · rw [if_neg hx]
      exact leaves_affine (hacc.add haff1 haff2 hx)
  · rw [if_neg hone]
    exact leaves_g1AddFormula hacc ha hP hQ hz1 hz2

/-- The point that is multiplied is the same point. -/
theorem g1MulBase_homog {aff base : Nat} (haff : base + 3 ≤ aff) (hp : p + 3 ≤ base)
    (hP : E.Homog (coordsAt c p) P) :
    E.Homog (coordsAt (g1MulBase aff base p c) base) P ∧
      ∀ i < base, g1MulBase aff base p c i = c i := by
  unfold g1MulBase
  by_cases hz : c (p + 2) = 0
  · rw [if_pos (show g1IsInf p c = true from decide_eq_true hz), hP.eq_zero hz]
    obtain ⟨hinf, honly⟩ : Leaves E base base c 0 (g1SetInf base c) := leaves_g1SetInf
    exact ⟨hinf, fun i hi => honly i hi (.inl hi)⟩
  rw [if_neg (by simpa [g1IsInf] using hz)]
  by_cases hone : c (p + 2) = 1
  · rw [if_pos hone]
    obtain ⟨hcopy, honly⟩ : Leaves E base base c P (copyElems base p 3 c) :=
      leaves_copy (.inr (.inr hp)) hP
    exact ⟨hcopy, fun i hi => honly i hi (.inl hi)⟩
  · have hdiv := hP.affine hz
    change E.Affine (c p / c (p + 2)) (c (p + 1) / c (p + 2)) P at hdiv
    rw [div_eq_mul_inv, div_eq_mul_inv] at hdiv
    rw [if_neg hone]
    unfold g1Normalize
    dsimp only
    rw [Function.update_self, Function.update_of_ne (by omega), Function.update_self]
    obtain ⟨c₁, hc₁⟩ : ∃ t, t = Function.update (Function.update c aff (c p * (c (p + 2))⁻¹))
      (aff + 1) (c (p + 1) * (c (p + 2))⁻¹) := ⟨_, rfl⟩
    rw [← hc₁]
    obtain ⟨hset, honly⟩ : Leaves E base base c₁ P (setCoords base
      ⟨c p * (c (p + 2))⁻¹, c (p + 1) * (c (p + 2))⁻¹, 1⟩ c₁) := leaves_affine hdiv
    refine ⟨hset, fun i hi => (honly i hi (.inl hi)).trans ?_⟩
    rw [hc₁, Function.update_of_ne (by omega), Function.update_of_ne (by omega)]

/-! ## Multiples -/

/-- During a multiplication the accumulator stands for `k * P`. -/
structure MulStands (E : ShortCurve K) (c : Store K) (h acc base : Nat) (P : E.Point) (k : Nat)
    (c' : Store K) : Prop where
  acc : E.Homog (coordsAt c' acc) (k • P)
  base : E.Homog (coordsAt c' base) P
  kept : ∀ i < h, c' i = c i

/-- The accumulator and the point lie apart, below the heap pointer. -/
structure MulLayout (h acc base heap : Nat) : Prop where
  above : h ≤ acc
  apart : base + 3 ≤ acc ∨ acc + 3 ≤ base
  acc_le : acc + 3 ≤ heap
  base_le : base + 3 ≤ heap

theorem MulStands.step {acc base heap j k : Nat} {c' : Store K} (hl : MulLayout h acc base heap)
    (hs : MulStands E c h acc base P k c₁) (hnext : Leaves E heap acc c₁ (j • P) c') :
    MulStands E c h acc base P j c' := by
  obtain ⟨habove, hapart, hacc, hbase⟩ := hl
  obtain ⟨hpoint, honly⟩ := hnext
  refine ⟨hpoint, ?_, fun i hi => ?_⟩
  · rw [honly.coordsAt_eq hbase (by omega)]
    exact hs.base
  · rw [honly i (by omega) (by omega), hs.kept i hi]

/-- The loop over the bits of the scalar, whatever doubles and adds. -/
theorem mulStands_ladder {acc base heap : Nat} {dbl add : Store K → Store K}
    (hl : MulLayout h acc base heap)
    (hdbl : ∀ {c' : Store K} {Q : E.Point}, E.Homog (coordsAt c' acc) Q →
      Leaves E heap acc c' (Q + Q) (dbl c'))
    (hadd : ∀ {c' : Store K} {Q R : E.Point}, E.Homog (coordsAt c' acc) Q →
      E.Homog (coordsAt c' base) R → Leaves E heap acc c' (Q + R) (add c'))
    (ks : Nat → Word) (n : Nat) (hs : MulStands E c h acc base P 0 c₁) :
    MulStands E c h acc base P (scalar ks n)
      (ladder dbl add (scalarBit ks) (n * 64) false c₁) := by
  rw [ladder_congr _ _ (fun j hj => scalarBit_eq ks hj)]
  refine ladder_run (MulStands E c h acc base P) (fun k s hs => hs.step hl ?_)
    (fun k s hs => hs.step hl ?_) (scalar_lt ks n) hs
  · rw [Nat.two_mul, add_nsmul]
    exact hdbl hs.acc
  · rw [add_nsmul, one_nsmul]
    exact hadd hs.acc hs.base

theorem MulStands.leaves {acc base k : Nat} (hs : MulStands E c h acc base P k c₁)
    (hr : r + 3 ≤ acc) : Leaves E h r c (k • P) (copyElems r acc 3 c₁) := by
  refine ⟨?_, fun i hi hi' => ?_⟩
  · rw [coordsAt_copyElems (.inr (.inl hr))]
    exact hs.acc
  · rw [copyElems_of_not_mem hi', hs.kept i hi]

theorem leaves_g1Mul (hacc : accel.Exact E) (ha : E.a = 0) (hp : p + 3 ≤ h) (hr : r + 3 ≤ h)
    (hP : E.Homog (coordsAt c p) P) (ks : Nat → Word) (n : Nat) :
    Leaves E h r c (scalar ks n • P) (g1Mul accel h r p ks n c) := by
  unfold g1Mul
  dsimp only
  have hl : MulLayout h h (h + 3) (h + 6) := ⟨Nat.le_refl h, .inr (Nat.le_refl _),
    by omega, Nat.le_refl _⟩
  obtain ⟨c₁, hc₁⟩ : ∃ t, t = g1MulBase (h + 6) (h + 3) p c := ⟨_, rfl⟩
  obtain ⟨hbase, hkept⟩ : E.Homog (coordsAt c₁ (h + 3)) P ∧ ∀ i < h + 3, c₁ i = c i := by
    rw [hc₁]
    exact g1MulBase_homog (by omega) (by omega) hP
  rw [← hc₁]
  obtain ⟨hinf, honly⟩ : Leaves E (h + 6) h c₁ 0 (g1SetInf h c₁) := leaves_g1SetInf
  have hstart : MulStands E c h h (h + 3) P 0 (g1SetInf h c₁) := by
    refine ⟨?_, ?_, fun i hi => ?_⟩
    · rw [zero_nsmul]
      exact hinf
    · rw [honly.coordsAt_eq (by omega) (by omega)]
      exact hbase
    · rw [honly i (by omega) (.inl hi), hkept i (by omega)]
  refine (mulStands_ladder hl (leaves_g1Double hacc ha) (fun hQ hR => ?_) ks n hstart).leaves hr
  exact leaves_g1Add hacc ha (.inl rfl) (.inr (.inl (Nat.le_refl _))) hQ hR

/-! ## Points over the extension -/

omit [DecidableEq K] in
theorem leaves_g2SetInf : Leaves E h r c 0 (g2SetInf r c) :=
  have hset : Leaves E h r c 0 (setCoords r ⟨1, 1, 0⟩ c) := leaves_set (ShortCurve.homog_zero rfl)
  hset

omit [DecidableEq K] in
theorem coordsAt_g2Double (hp : p + 3 ≤ h) (hr : r + 3 ≤ h) :
    coordsAt (g2Double h r p c) r = ShortCurve.homogDouble (coordsAt c p) := by
  unfold g2Double
  simp (disch := omega) only [coordsAt, fp2Mul_self, fp2Mul_ne, fp2Sqr_self, fp2Sqr_ne, fp2Sub_self,
    fp2Sub_ne, fp2Add_self, fp2Add_ne, fp2Copy_self, fp2Copy_ne, ShortCurve.homogDouble,
    Coords.mk.injEq]
  refine ⟨?_, ?_, ?_⟩ <;> ring

omit [DecidableEq K] in
theorem only_g2Double (hr : r + 3 ≤ h) : Only 3 h r c (g2Double h r p c) := by
  intro i hi hi'
  unfold g2Double
  simp (disch := omega) only [fp2Mul_ne, fp2Sqr_ne, fp2Sub_ne, fp2Add_ne, fp2Copy_ne]

theorem leaves_g2Double (ha : E.a = 0) (hp : p + 3 ≤ h) (hr : r + 3 ≤ h)
    (hP : E.Homog (coordsAt c p) P) : Leaves E h r c (P + P) (g2Double h r p c) := by
  refine ⟨?_, only_g2Double hr⟩
  rw [coordsAt_g2Double hp hr]
  exact ShortCurve.homog_double ha hP

theorem coordsAt_g2AddFormula (hp1 : p1 + 3 ≤ h) (hp2 : p2 + 3 ≤ h) (hr : r + 3 ≤ h)
    (hne : c p2 * c (p1 + 2) ≠ c p1 * c (p2 + 2)) :
    coordsAt (g2AddFormula h r p1 p2 c) r =
      ShortCurve.homogAdd (coordsAt c p1) (coordsAt c p2) := by
  unfold g2AddFormula
  dsimp only
  rw [if_neg (by simpa (disch := omega) only [fp2Mul_self, fp2Mul_ne] using hne)]
  simp (disch := omega) only [coordsAt, fp2Mul_self, fp2Mul_ne, fp2Sqr_self, fp2Sqr_ne, fp2Sub_self,
    fp2Sub_ne, fp2Add_self, fp2Add_ne, fp2Copy_self, fp2Copy_ne, ShortCurve.homogAdd,
    Coords.mk.injEq]
  refine ⟨?_, ?_, ?_⟩ <;> ring

theorem only_g2AddFormula (hp1 : p1 + 3 ≤ h) (hp2 : p2 + 3 ≤ h) (hr : r + 3 ≤ h)
    (hne : c p2 * c (p1 + 2) ≠ c p1 * c (p2 + 2)) :
    Only 3 h r c (g2AddFormula h r p1 p2 c) := by
  intro i hi hi'
  unfold g2AddFormula
  dsimp only
  rw [if_neg (by simpa (disch := omega) only [fp2Mul_self, fp2Mul_ne] using hne)]
  simp (disch := omega) only [fp2Mul_ne, fp2Sqr_ne, fp2Sub_ne, fp2Add_ne, fp2Copy_ne]

theorem leaves_g2AddFormula (ha : E.a = 0) (hp1 : p1 + 3 ≤ h) (hp2 : p2 + 3 ≤ h) (hr : r + 3 ≤ h)
    (hP : E.Homog (coordsAt c p1) P) (hQ : E.Homog (coordsAt c p2) Q) (hz1 : c (p1 + 2) ≠ 0)
    (hz2 : c (p2 + 2) ≠ 0) : Leaves E h r c (P + Q) (g2AddFormula h r p1 p2 c) := by
  by_cases hx : c p2 * c (p1 + 2) = c p1 * c (p2 + 2)
  · have hsame := ShortCurve.homog_same_x hP hQ hz1 hz2 hx
    change if c (p2 + 1) * c (p1 + 2) = c (p1 + 1) * c (p2 + 2) then P = Q else P + Q = 0 at hsame
    unfold g2AddFormula
    dsimp only
    obtain ⟨c₁, hc₁⟩ : ∃ t, t = fp2Mul (h + 3) p1 (p2 + 2) (fp2Mul (h + 2) p2 (p1 + 2)
      (fp2Mul (h + 1) (p1 + 1) (p2 + 2) (fp2Mul h (p2 + 1) (p1 + 2) c))) := ⟨_, rfl⟩
    have hkeep : ∀ i < h, c₁ i = c i := by
      intro i hi
      rw [hc₁]
      simp (disch := omega) only [fp2Mul_ne]
    have hv : c₁ (h + 2) = c₁ (h + 3) := by
      rw [hc₁]
      simpa (disch := omega) only [fp2Mul_self, fp2Mul_ne] using hx
    have hu : c₁ h = c₁ (h + 1) ↔ c (p2 + 1) * c (p1 + 2) = c (p1 + 1) * c (p2 + 2) := by
      rw [hc₁]
      simp (disch := omega) only [fp2Mul_self, fp2Mul_ne]
    rw [← hc₁, if_pos hv]
    by_cases hy : c (p2 + 1) * c (p1 + 2) = c (p1 + 1) * c (p2 + 2)
    · rw [if_pos hy] at hsame
      rw [if_pos (hu.mpr hy), ← hsame]
      have hP₁ : E.Homog (coordsAt c₁ p1) P := by
        rwa [coordsAt_congr fun i hi => hkeep (p1 + i) (by omega)]
      exact (leaves_g2Double ha hp1 hr hP₁).after hkeep
    · rw [if_neg hy] at hsame
      rw [if_neg fun heq => hy (hu.mp heq), hsame]
      exact leaves_g2SetInf.after hkeep
  · refine ⟨?_, only_g2AddFormula hp1 hp2 hr hx⟩
    rw [coordsAt_g2AddFormula hp1 hp2 hr hx]
    exact ShortCurve.homog_add hP hQ hz1 hz2 hx

theorem leaves_g2Add (ha : E.a = 0) (hp1 : p1 + 3 ≤ h) (hp2 : p2 + 3 ≤ h) (hr : r + 3 ≤ h)
    (hal1 : MayAlias 3 r p1) (hal2 : MayAlias 3 r p2) (hP : E.Homog (coordsAt c p1) P)
    (hQ : E.Homog (coordsAt c p2) Q) : Leaves E h r c (P + Q) (g2Add h r p1 p2 c) := by
  unfold g2Add
  by_cases hz1 : c (p1 + 2) = 0
  · rw [if_pos (show g2IsInf p1 c = true from decide_eq_true hz1), hP.eq_zero hz1, zero_add]
    exact leaves_copy hal2 hQ
  rw [if_neg (show ¬g2IsInf p1 c = true by simpa [g2IsInf] using hz1)]
  by_cases hz2 : c (p2 + 2) = 0
  · rw [if_pos (show g2IsInf p2 c = true from decide_eq_true hz2), hQ.eq_zero hz2, add_zero]
    exact leaves_copy hal1 hP
  rw [if_neg (show ¬g2IsInf p2 c = true by simpa [g2IsInf] using hz2)]
  exact leaves_g2AddFormula ha hp1 hp2 hr hP hQ hz1 hz2

theorem leaves_g2Mul (ha : E.a = 0) (hp : p + 3 ≤ h) (hr : r + 3 ≤ h)
    (hP : E.Homog (coordsAt c p) P) (ks : Nat → Word) (n : Nat) :
    Leaves E h r c (scalar ks n • P) (g2Mul h r p ks n c) := by
  unfold g2Mul
  dsimp only
  have hl : MulLayout h h p (h + 3) := ⟨Nat.le_refl h, .inl hp, Nat.le_refl _, by omega⟩
  obtain ⟨hinf, honly⟩ : Leaves E (h + 3) h c 0 (g2SetInf h c) := leaves_g2SetInf
  have hstart : MulStands E c h h p P 0 (g2SetInf h c) := by
    refine ⟨?_, ?_, fun i hi => honly i (by omega) (.inl hi)⟩
    · rw [zero_nsmul]
      exact hinf
    · rw [honly.coordsAt_eq (by omega) (by omega)]
      exact hP
  refine (mulStands_ladder hl (fun hQ => ?_) (fun hQ hR => ?_) ks n hstart).leaves hr
  · exact leaves_g2Double ha (Nat.le_refl _) (Nat.le_refl _) hQ
  · exact leaves_g2Add ha (Nat.le_refl _) (by omega) (Nat.le_refl _) (.inl rfl)
      (.inr (.inr hp)) hQ hR

/-! ## The groups -/

/-- The operations on the points of a group, the heap pointer first. -/
structure PointOps (K : Type) where
  dbl : Nat → Nat → Nat → Store K → Store K
  add : Nat → Nat → Nat → Nat → Store K → Store K
  mul : Nat → Nat → Nat → (Nat → Word) → Nat → Store K → Store K
  check : Nat → Nat → Store K → Bool

def g1Ops (accel : PointAccel K) : PointOps K where
  dbl _ := g1Double accel
  add _ := g1Add accel
  mul := g1Mul accel
  check := g1SubgroupCheck accel

def g2Ops : PointOps K where
  dbl := g2Double
  add := g2Add
  mul := g2Mul
  check := g2SubgroupCheck

/-- The operations compute in the group of the curve, wherever the result lies and whatever the
coordinates of the points; the check is that of the order `q`. -/
structure PointOps.Exact (ops : PointOps K) (E : ShortCurve K) (q : Nat) : Prop where
  dbl : ∀ {c : Store K} {h r p : Nat} {P : E.Point}, p + 3 ≤ h → r + 3 ≤ h →
    E.Homog (coordsAt c p) P → Leaves E h r c (P + P) (ops.dbl h r p c)
  add : ∀ {c : Store K} {h r p1 p2 : Nat} {P Q : E.Point}, p1 + 3 ≤ h → p2 + 3 ≤ h → r + 3 ≤ h →
    MayAlias 3 r p1 → MayAlias 3 r p2 → E.Homog (coordsAt c p1) P → E.Homog (coordsAt c p2) Q →
    Leaves E h r c (P + Q) (ops.add h r p1 p2 c)
  mul : ∀ {c : Store K} {h r p : Nat} {P : E.Point}, p + 3 ≤ h → r + 3 ≤ h →
    E.Homog (coordsAt c p) P → ∀ ks n, Leaves E h r c (scalar ks n • P) (ops.mul h r p ks n c)
  check : ∀ {c : Store K} {h p : Nat} {P : E.Point}, p + 3 ≤ h → E.Homog (coordsAt c p) P →
    (ops.check h p c = true ↔ q • P = 0)

theorem g1Ops_exact (hacc : accel.Exact E) (ha : E.a = 0) : (g1Ops accel).Exact E blsR where
  dbl _ _ := leaves_g1Double hacc ha
  add _ _ _ := leaves_g1Add hacc ha
  mul := leaves_g1Mul hacc ha
  check hp hP := by
    obtain ⟨hmul, -⟩ := leaves_g1Mul hacc ha (Nat.le_add_right_of_le hp) (Nat.le_refl _) hP cOrder 4
    rw [scalar_cOrder] at hmul
    exact decide_eq_true_iff.trans hmul.zero_iff

theorem g2Ops_exact (ha : E.a = 0) : (g2Ops (K := K)).Exact E blsR where
  dbl := leaves_g2Double ha
  add := leaves_g2Add ha
  mul := leaves_g2Mul ha
  check hp hP := by
    obtain ⟨hmul, -⟩ := leaves_g2Mul ha (Nat.le_add_right_of_le hp) (Nat.le_refl _) hP cOrder 4
    rw [scalar_cOrder] at hmul
    exact decide_eq_true_iff.trans hmul.zero_iff

end

/-- The operations of both groups are exact. -/
theorem bls_groups_exact {K L : Type} [Field K] [DecidableEq K] [Field L] [DecidableEq L]
    {E : ShortCurve K} {F : ShortCurve L} (accel : PointAccel K) (hacc : accel.Exact E)
    (ha : E.a = 0) (hb : F.a = 0) :
    (g1Ops accel).Exact E blsR ∧ (g2Ops (K := L)).Exact F blsR :=
  ⟨g1Ops_exact hacc ha, g2Ops_exact hb⟩

section

private abbrev Five : Type := ZMod 5

private instance factFive : Fact (Nat.Prime 5) := ⟨by decide⟩

private theorem five_two : (2 : Five) ≠ 0 := by decide

private theorem five_disc : 4 * (0 : Five) ^ 3 + 27 * ((4 : Nat) : Five) ^ 2 ≠ 0 := by decide

private def fiveCurve : ShortCurve Five := ⟨0, (4 : Nat), five_two, five_disc⟩

theorem bls_groups_exact_five :
    (g1Ops (lineAccel (0 : Five))).Exact fiveCurve blsR ∧ (g2Ops (K := Five)).Exact fiveCurve blsR :=
  bls_groups_exact (lineAccel 0) (lineAccel_exact fiveCurve) rfl rfl

end

end StatelessGuest.Curve
