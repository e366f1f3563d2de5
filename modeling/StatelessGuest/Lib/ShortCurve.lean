import Mathlib.AlgebraicGeometry.EllipticCurve.Affine.Point
import Mathlib.Tactic.FieldSimp
import Mathlib.Tactic.LinearCombination

/-!
# Short Weierstrass curves

The points of `y ^ 2 = x ^ 3 + a * x + b` and the coordinates that stand for them.

* `ShortCurve`, `ShortCurve.On`, `ShortCurve.Point`.
* `add_chord`, `add_tangent`, `add_opposite`: the group law by the slope of a line.
* `Affine`, `Homog`, `Jacobian`: coordinates of a point.
* `homog_double`, `homog_add`, `jacobian_add`: sums without inversions.
-/

namespace StatelessGuest.Lib

/-- A curve in a field in which 2 is not zero, without a singular point. -/
structure ShortCurve (K : Type) [Field K] where
  a : K
  b : K
  two_ne_zero : (2 : K) ≠ 0
  disc_ne_zero : 4 * a ^ 3 + 27 * b ^ 2 ≠ 0

namespace ShortCurve

variable {K : Type} [Field K]

/-- The pair is on the curve. -/
def On (E : ShortCurve K) (x y : K) : Prop := y ^ 2 = x ^ 3 + E.a * x + E.b

/-- The curve with its five coefficients. -/
def weierstrass (E : ShortCurve K) : WeierstrassCurve.Affine K := ⟨0, 0, 0, E.a, E.b⟩

/-- The group of the curve. -/
abbrev Point (E : ShortCurve K) : Type := E.weierstrass.Point

variable {E : ShortCurve K} {x x1 x2 x3 y y1 y2 y3 l : K}

theorem nonsingular (h : E.On x y) : E.weierstrass.Nonsingular x y := by
  have hdisc : E.weierstrass.Δ ≠ 0 := by
    have hvalue : E.weierstrass.Δ = -(2 ^ 4) * (4 * E.a ^ 3 + 27 * E.b ^ 2) := by
      simp only [weierstrass, WeierstrassCurve.Δ, WeierstrassCurve.b₂, WeierstrassCurve.b₄,
        WeierstrassCurve.b₆, WeierstrassCurve.b₈]
      ring
    rw [hvalue]
    exact mul_ne_zero (neg_ne_zero.mpr (pow_ne_zero 4 E.two_ne_zero)) E.disc_ne_zero
  refine (E.weierstrass.equation_iff_nonsingular_of_Δ_ne_zero hdisc).mp ?_
  rw [WeierstrassCurve.Affine.equation_iff]
  unfold On at h
  simp only [weierstrass]
  linear_combination h

/-- The point with the coordinates `x` and `y`. -/
def point (h : E.On x y) : E.Point := .some x y (nonsingular h)

theorem on_of_nonsingular (h : E.weierstrass.Nonsingular x y) : E.On x y := by
  have heq := (WeierstrassCurve.Affine.equation_iff x y).mp h.1
  simp only [weierstrass] at heq
  unfold On
  linear_combination heq

/-- The coordinates of a point. -/
def Affine (E : ShortCurve K) (x y : K) (P : E.Point) : Prop := ∃ h : E.On x y, P = point h

theorem affine_point (h : E.On x y) : E.Affine x y (point h) := ⟨h, rfl⟩

variable {P Q : E.Point}

theorem Affine.ne_zero (h : E.Affine x y P) : P ≠ 0 := by
  obtain ⟨h, rfl⟩ := h
  exact WeierstrassCurve.Affine.Point.some_ne_zero _

/-- Every point but the zero point has coordinates. -/
theorem exists_affine (h : P ≠ 0) : ∃ x y, E.Affine x y P := by
  rcases P with _ | ⟨x, y, hns⟩
  · exact absurd rfl h
  · exact ⟨x, y, on_of_nonsingular hns, rfl⟩

/-- The coordinates are determined by the point. -/
theorem Affine.unique (h1 : E.Affine x1 y1 P) (h2 : E.Affine x2 y2 P) : x1 = x2 ∧ y1 = y2 := by
  obtain ⟨h1, rfl⟩ := h1
  obtain ⟨h2, heq⟩ := h2
  unfold point at heq
  rw [WeierstrassCurve.Affine.Point.some.injEq] at heq
  exact heq

/-- Points over the same `x` are equal or opposite. -/
theorem eq_or_eq_neg (h1 : E.On x y1) (h2 : E.On x y2) : y1 = y2 ∨ y1 = -y2 := by
  unfold On at h1 h2
  exact sq_eq_sq_iff_eq_or_eq_neg.mp (h1.trans h2.symm)

theorem affine_some (h : E.weierstrass.Nonsingular x y) (hx : x3 = x) (hy : y3 = y) :
    E.Affine x3 y3 (.some x y h) := by
  subst hx hy
  exact ⟨on_of_nonsingular h, rfl⟩

variable [DecidableEq K]

/-- The third point of the line with slope `l` through two points, mirrored. -/
theorem add_line (h1 : E.Affine x1 y1 P) (h2 : E.Affine x2 y2 Q)
    (hne : ¬(x1 = x2 ∧ y1 = -y2)) (hl : E.weierstrass.slope x1 x2 y1 y2 = l)
    (hx3 : x3 = l ^ 2 - x1 - x2) (hy3 : y3 = l * (x1 - x3) - y1) : E.Affine x3 y3 (P + Q) := by
  obtain ⟨h1, rfl⟩ := h1
  obtain ⟨h2, rfl⟩ := h2
  have hne' : ¬(x1 = x2 ∧ y1 = E.weierstrass.negY x2 y2) := by
    simpa [WeierstrassCurve.Affine.negY, weierstrass] using hne
  unfold point
  rw [WeierstrassCurve.Affine.Point.add_some hne']
  refine affine_some _ ?_ ?_
  · rw [hx3, hl]
    simp [WeierstrassCurve.Affine.addX, weierstrass]
  · rw [hy3, hx3, hl]
    simp [WeierstrassCurve.Affine.addX, WeierstrassCurve.Affine.addY,
      WeierstrassCurve.Affine.negAddY, WeierstrassCurve.Affine.negY, weierstrass]
    ring

/-- The sum of points over different `x` is on the chord. -/
theorem add_chord (h1 : E.Affine x1 y1 P) (h2 : E.Affine x2 y2 Q) (hx : x1 ≠ x2)
    (hl : l * (x1 - x2) = y1 - y2) (hx3 : x3 = l ^ 2 - x1 - x2) (hy3 : y3 = l * (x1 - x3) - y1) :
    E.Affine x3 y3 (P + Q) := by
  refine add_line h1 h2 (fun h => hx h.1) ?_ hx3 hy3
  rw [WeierstrassCurve.Affine.slope_of_X_ne hx, div_eq_iff (sub_ne_zero.mpr hx), hl]

/-- The double of a point is on the tangent. -/
theorem add_tangent (h : E.Affine x y P) (hy : y ≠ 0) (hl : l * (2 * y) = 3 * x ^ 2 + E.a)
    (hx3 : x3 = l ^ 2 - x - x) (hy3 : y3 = l * (x - x3) - y) : E.Affine x3 y3 (P + P) := by
  have htwo : 2 * y ≠ 0 := mul_ne_zero E.two_ne_zero hy
  have hne : y ≠ -y := fun heq => htwo (by linear_combination heq)
  refine add_line h h (fun h => hne h.2) ?_ hx3 hy3
  have hneg : E.weierstrass.negY x y = -y := by
    simp [WeierstrassCurve.Affine.negY, weierstrass]
  rw [WeierstrassCurve.Affine.slope_of_Y_ne rfl (by rw [hneg]; exact hne), hneg, sub_neg_eq_add,
    ← two_mul, div_eq_iff htwo, hl]
  simp [weierstrass]

/-- Points over the same `x` with opposite `y` cancel. -/
theorem add_opposite (h1 : E.Affine x y1 P) (h2 : E.Affine x y2 Q) (hy : y1 + y2 = 0) :
    P + Q = 0 := by
  obtain ⟨h1, rfl⟩ := h1
  obtain ⟨h2, rfl⟩ := h2
  refine WeierstrassCurve.Affine.Point.add_of_Y_eq rfl ?_
  rw [eq_neg_of_add_eq_zero_left hy]
  simp [WeierstrassCurve.Affine.negY, weierstrass]

end ShortCurve

/-- Three coordinates of a point. -/
@[ext]
structure Coords (K : Type) where
  x : K
  y : K
  z : K
  deriving DecidableEq, Repr

namespace ShortCurve

variable {K : Type} [Field K]

/-! ## Homogeneous coordinates -/

/-- `(x / z, y / z)`, and the zero point where `z` is zero. -/
def Homog (E : ShortCurve K) (p : Coords K) (P : E.Point) : Prop :=
  p.z = 0 ∧ P = 0 ∨ p.z ≠ 0 ∧ E.Affine (p.x / p.z) (p.y / p.z) P

/-- The double on a curve with `a = 0`. -/
def homogDouble (p : Coords K) : Coords K :=
  let w := 3 * p.x ^ 2
  let s := p.y * p.z
  let b := p.x * p.y * s
  let h := w ^ 2 - 8 * b
  ⟨2 * h * s, w * (4 * b - h) - 8 * p.y ^ 2 * s ^ 2, 8 * s ^ 3⟩

/-- The sum of points over different `x`. -/
def homogAdd (p q : Coords K) : Coords K :=
  let u := q.y * p.z - p.y * q.z
  let v := q.x * p.z - p.x * q.z
  let w := p.z * q.z
  let vv := v ^ 2 * (p.x * q.z)
  let a := u ^ 2 * w - v ^ 3 - 2 * vv
  ⟨v * a, u * (vv - a) - v ^ 3 * (p.y * q.z), v ^ 3 * w⟩

variable {E : ShortCurve K} {p q : Coords K} {P Q : E.Point}

theorem Homog.eq_zero (h : E.Homog p P) (hz : p.z = 0) : P = 0 :=
  h.elim And.right fun hne => absurd hz hne.1

theorem Homog.affine (h : E.Homog p P) (hz : p.z ≠ 0) : E.Affine (p.x / p.z) (p.y / p.z) P :=
  h.elim (fun hzero => absurd hzero.1 hz) And.right

theorem homog_zero (hz : p.z = 0) : E.Homog p 0 := .inl ⟨hz, rfl⟩

theorem homog_affine {x y : K} (h : E.Affine x y P) : E.Homog ⟨x, y, 1⟩ P := by
  refine .inr ⟨one_ne_zero, ?_⟩
  simpa using h

theorem Homog.zero_iff (h : E.Homog p P) : p.z = 0 ↔ P = 0 :=
  ⟨h.eq_zero, fun hP => by_contra fun hz => (h.affine hz).ne_zero hP⟩

theorem eight_ne_zero (E : ShortCurve K) : (8 : K) ≠ 0 := by
  have h : (8 : K) = 2 ^ 3 := by norm_num
  rw [h]
  exact pow_ne_zero 3 E.two_ne_zero

/-! ## Jacobian coordinates -/

/-- `(x / z ^ 2, y / z ^ 3)`, and the zero point where `z` is zero. -/
def Jacobian (E : ShortCurve K) (p : Coords K) (P : E.Point) : Prop :=
  p.z = 0 ∧ P = 0 ∨ p.z ≠ 0 ∧ E.Affine (p.x / p.z ^ 2) (p.y / p.z ^ 3) P

/-- The double on a curve with `a = -3`. -/
def jacobianDouble (p : Coords K) : Coords K :=
  let delta := p.z ^ 2
  let gamma := p.y ^ 2
  let beta := p.x * gamma
  let alpha := 3 * ((p.x - delta) * (p.x + delta))
  let x3 := alpha ^ 2 - 8 * beta
  ⟨x3, alpha * (4 * beta - x3) - 8 * gamma ^ 2, (p.y + p.z) ^ 2 - gamma - delta⟩

/-- The sum with a point over a different `x`. -/
def jacobianAdd (p : Coords K) (ax ay : K) : Coords K :=
  let h := ax * p.z ^ 2 - p.x
  let r := ay * p.z ^ 3 - p.y
  let v := p.x * h ^ 2
  let x3 := r ^ 2 - h ^ 3 - 2 * v
  ⟨x3, r * (v - x3) - p.y * h ^ 3, p.z * h⟩

theorem Jacobian.eq_zero (h : E.Jacobian p P) (hz : p.z = 0) : P = 0 :=
  h.elim And.right fun hne => absurd hz hne.1

theorem Jacobian.affine (h : E.Jacobian p P) (hz : p.z ≠ 0) :
    E.Affine (p.x / p.z ^ 2) (p.y / p.z ^ 3) P :=
  h.elim (fun hzero => absurd hzero.1 hz) And.right

theorem jacobian_zero (hz : p.z = 0) : E.Jacobian p 0 := .inl ⟨hz, rfl⟩

theorem jacobian_affine {x y : K} (h : E.Affine x y P) : E.Jacobian ⟨x, y, 1⟩ P := by
  refine .inr ⟨one_ne_zero, ?_⟩
  simpa using h

theorem Jacobian.zero_iff (h : E.Jacobian p P) : p.z = 0 ↔ P = 0 :=
  ⟨h.eq_zero, fun hP => by_contra fun hz => (h.affine hz).ne_zero hP⟩

/-! ## Sums in homogeneous coordinates -/

variable [DecidableEq K]

theorem homog_double (ha : E.a = 0) (h : E.Homog p P) : E.Homog (homogDouble p) (P + P) := by
  by_cases hz : p.z = 0
  · rw [h.eq_zero hz, add_zero]
    refine homog_zero ?_
    simp [homogDouble, hz]
  have haff := h.affine hz
  by_cases hy : p.y = 0
  · rw [add_opposite haff haff (by rw [hy, zero_div, add_zero])]
    refine homog_zero ?_
    simp [homogDouble, hy]
  have htwo := E.two_ne_zero
  have height := E.eight_ne_zero
  refine .inr ⟨by simp [homogDouble, hz, hy, height], ?_⟩
  refine add_tangent (l := 3 * p.x ^ 2 / (2 * p.y * p.z)) haff (div_ne_zero hy hz) ?_ ?_ ?_
  · rw [ha]
    field_simp
    ring
  · simp only [homogDouble]
    field_simp
    ring
  · simp only [homogDouble]
    field_simp
    ring

theorem homog_add (hp : E.Homog p P) (hq : E.Homog q Q) (hpz : p.z ≠ 0) (hqz : q.z ≠ 0)
    (hv : q.x * p.z ≠ p.x * q.z) : E.Homog (homogAdd p q) (P + Q) := by
  have hp := hp.affine hpz
  have hq := hq.affine hqz
  obtain ⟨x1, y1, z1⟩ := p
  obtain ⟨x2, y2, z2⟩ := q
  dsimp only at hp hq hpz hqz hv
  -- the second `x` in terms of the difference, which is not zero
  obtain ⟨v, hx2⟩ : ∃ v, x2 = (v + x1 * z2) / z1 :=
    ⟨x2 * z1 - x1 * z2, by rw [sub_add_cancel, mul_div_cancel_right₀ _ hpz]⟩
  subst hx2
  rw [div_mul_cancel₀ _ hpz] at hv
  have hne : v ≠ 0 := fun hzero => hv (by rw [hzero, zero_add])
  have hdiff : (v + x1 * z2) / z1 * z1 - x1 * z2 = v := by
    rw [div_mul_cancel₀ _ hpz, add_sub_cancel_right]
  refine .inr ⟨by simp [homogAdd, hpz, hqz, hne], ?_⟩
  refine add_chord (l := (y2 * z1 - y1 * z2) / v) hp hq ?_ ?_ ?_ ?_
  · rw [ne_eq, div_eq_div_iff hpz hqz, div_mul_cancel₀ _ hpz]
    exact hv.symm
  · field_simp
    ring
  · simp only [homogAdd, hdiff]
    field_simp
    ring
  · simp only [homogAdd, hdiff]
    field_simp

/-- Over the same `x`, the points are equal or cancel. -/
theorem homog_same_x (hp : E.Homog p P) (hq : E.Homog q Q) (hpz : p.z ≠ 0) (hqz : q.z ≠ 0)
    (hv : q.x * p.z = p.x * q.z) :
    if q.y * p.z = p.y * q.z then P = Q else P + Q = 0 := by
  have hx : p.x / p.z = q.x / q.z := by rw [div_eq_div_iff hpz hqz, hv]
  have hy : p.y / p.z = q.y / q.z ↔ q.y * p.z = p.y * q.z := by
    rw [div_eq_div_iff hpz hqz, eq_comm]
  have hp' := hp.affine hpz
  have hq' := hq.affine hqz
  rw [← hx] at hq'
  by_cases hu : q.y * p.z = p.y * q.z
  · rw [if_pos hu]
    rw [← hy.mpr hu] at hq'
    obtain ⟨h1, rfl⟩ := hp'
    obtain ⟨h2, rfl⟩ := hq'
    rfl
  · rw [if_neg hu]
    obtain ⟨h1, -⟩ := id hp'
    obtain ⟨h2, -⟩ := id hq'
    rcases eq_or_eq_neg h1 h2 with heq | heq
    · exact absurd (hy.mp heq) hu
    · exact add_opposite hp' hq' (by rw [heq, neg_add_cancel])

/-! ## Sums in Jacobian coordinates -/

variable {ax ay : K}

theorem jacobian_double (ha : E.a = -3) (h : E.Jacobian p P) (hz : p.z ≠ 0) (hy : p.y ≠ 0) :
    E.Jacobian (jacobianDouble p) (P + P) := by
  have haff := h.affine hz
  have htwo := E.two_ne_zero
  have hz3 : (jacobianDouble p).z = 2 * p.y * p.z := by
    simp only [jacobianDouble]
    ring
  refine .inr ⟨by rw [hz3]; simp [hz, hy, htwo], ?_⟩
  rw [hz3]
  refine add_tangent (l := 3 * ((p.x - p.z ^ 2) * (p.x + p.z ^ 2)) / (2 * p.y * p.z)) haff
    (div_ne_zero hy (pow_ne_zero 3 hz)) ?_ ?_ ?_
  · rw [ha]
    field_simp
    ring
  · simp only [jacobianDouble]
    field_simp
    ring
  · simp only [jacobianDouble]
    field_simp
    ring

/-- The double of a point with `y = 0`. -/
theorem jacobian_double_zero (h : E.Jacobian p P) (hy : p.y = 0) : P + P = 0 := by
  by_cases hz : p.z = 0
  · rw [h.eq_zero hz, add_zero]
  · exact add_opposite (h.affine hz) (h.affine hz) (by rw [hy, zero_div, add_zero])

theorem jacobian_add (hp : E.Jacobian p P) (hq : E.Affine ax ay Q) (hz : p.z ≠ 0)
    (hne : ax * p.z ^ 2 ≠ p.x) : E.Jacobian (jacobianAdd p ax ay) (P + Q) := by
  have hp := hp.affine hz
  obtain ⟨x, y, z⟩ := p
  dsimp only at hp hz hne
  obtain ⟨h, hax⟩ : ∃ h, ax = (h + x) / z ^ 2 :=
    ⟨ax * z ^ 2 - x, by rw [sub_add_cancel, mul_div_cancel_right₀ _ (pow_ne_zero 2 hz)]⟩
  subst hax
  rw [div_mul_cancel₀ _ (pow_ne_zero 2 hz)] at hne
  have hh : h ≠ 0 := fun hzero => hne (by rw [hzero, zero_add])
  have hdiff : (h + x) / z ^ 2 * z ^ 2 - x = h := by
    rw [div_mul_cancel₀ _ (pow_ne_zero 2 hz), add_sub_cancel_right]
  refine .inr ⟨by simp [jacobianAdd, hz, hh], ?_⟩
  refine add_chord (l := (ay * z ^ 3 - y) / (z * h)) hp hq ?_ ?_ ?_ ?_
  · rw [ne_eq, div_left_inj' (pow_ne_zero 2 hz)]
    exact hne.symm
  · field_simp
    ring
  · simp only [jacobianAdd, hdiff]
    field_simp
    ring
  · simp only [jacobianAdd, hdiff]
    field_simp

/-- Over the same `x`, the points are equal or cancel. -/
theorem jacobian_same_x (hp : E.Jacobian p P) (hq : E.Affine ax ay Q) (hz : p.z ≠ 0)
    (heq : ax * p.z ^ 2 = p.x) :
    if ay * p.z ^ 3 + p.y = 0 then P + Q = 0 else P = Q := by
  have hx : p.x / p.z ^ 2 = ax := by rw [← heq, mul_div_cancel_right₀ _ (pow_ne_zero 2 hz)]
  have hp' := hp.affine hz
  rw [hx] at hp'
  by_cases hy : ay * p.z ^ 3 + p.y = 0
  · rw [if_pos hy]
    refine add_opposite hp' hq ?_
    field_simp
    linear_combination hy
  · rw [if_neg hy]
    obtain ⟨h1, rfl⟩ := hp'
    obtain ⟨h2, rfl⟩ := hq
    rcases eq_or_eq_neg h1 h2 with h | h
    · simp only [point, h]
    · refine absurd ?_ hy
      rw [div_eq_iff (pow_ne_zero 3 hz)] at h
      linear_combination h

end ShortCurve

end StatelessGuest.Lib
