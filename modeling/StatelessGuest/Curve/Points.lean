import StatelessGuest.Curve.Store

/-!
# Points in memory

The point operations of both curves write a point in homogeneous coordinates. Over the base fields
some of the work is done by accelerators on affine coordinates.

* `PointAccel`, `PointAccel.Exact`: the accelerators, and what they are documented to compute.
* `Leaves`: the result of a point operation.
-/

namespace StatelessGuest.Curve

open Lib

/-- The accelerators of a curve, on affine coordinates. -/
structure PointAccel (K : Type) where
  dbl : K → K → K × K
  add : K → K → K → K → K × K

section

variable {K : Type} [Field K]

def accelDouble (accel : PointAccel K) (out : Nat) (x y : K) (c : Store K) : Store K :=
  let r := accel.dbl x y
  setCoords out ⟨r.1, r.2, 1⟩ c

def accelAdd (accel : PointAccel K) (out : Nat) (x1 y1 x2 y2 : K) (c : Store K) : Store K :=
  let r := accel.add x1 y1 x2 y2
  setCoords out ⟨r.1, r.2, 1⟩ c

variable [DecidableEq K]

/-- What the accelerators are documented to do: the double of a point with `y` other than zero,
and the sum of points over different `x`. -/
structure PointAccel.Exact (accel : PointAccel K) (E : ShortCurve K) : Prop where
  dbl : ∀ {x y : K} {P : E.Point}, E.Affine x y P → y ≠ 0 →
    E.Affine (accel.dbl x y).1 (accel.dbl x y).2 (P + P)
  add : ∀ {x1 y1 x2 y2 : K} {P Q : E.Point}, E.Affine x1 y1 P → E.Affine x2 y2 Q → x1 ≠ x2 →
    E.Affine (accel.add x1 y1 x2 y2).1 (accel.add x1 y1 x2 y2).2 (P + Q)

/-- Accelerators that divide. -/
def lineAccel (a : K) : PointAccel K where
  dbl x y :=
    let l := (x ^ 2 + x ^ 2 + x ^ 2 + a) / (y + y)
    let x3 := l ^ 2 - x - x
    (x3, l * (x - x3) - y)
  add x1 y1 x2 y2 :=
    let l := (y1 - y2) / (x1 - x2)
    let x3 := l ^ 2 - x1 - x2
    (x3, l * (x1 - x3) - y1)

theorem lineAccel_exact (E : ShortCurve K) : (lineAccel E.a).Exact E where
  dbl {x y P} hP hy := by
    have htwo : y + y ≠ 0 := by
      rw [← two_mul]
      exact mul_ne_zero E.two_ne_zero hy
    refine ShortCurve.add_tangent hP hy ?_ rfl rfl
    rw [two_mul, div_mul_cancel₀ _ htwo]
    ring
  add hP hQ hx := ShortCurve.add_chord hP hQ hx (div_mul_cancel₀ _ (sub_ne_zero.mpr hx)) rfl rfl

omit [DecidableEq K]

/-- The result of a point operation: the point is at `out`, and nothing else below `h` changed. -/
def Leaves (E : ShortCurve K) (h out : Nat) (c : Store K) (P : E.Point) (c' : Store K) : Prop :=
  E.Homog (coordsAt c' out) P ∧ Only 3 h out c c'

variable {c c₁ c' : Store K} {h out pt : Nat} {E : ShortCurve K} {p : Coords K} {P : E.Point}

theorem leaves_set (hp : E.Homog p P) : Leaves E h out c P (setCoords out p c) := by
  refine ⟨?_, only_setCoords h out _ c⟩
  rw [coordsAt_setCoords]
  exact hp

theorem leaves_affine {x y : K} (hP : E.Affine x y P) :
    Leaves E h out c P (setCoords out ⟨x, y, 1⟩ c) :=
  leaves_set (ShortCurve.homog_affine hP)

theorem leaves_copy (hal : MayAlias 3 out pt) (hP : E.Homog (coordsAt c pt) P) :
    Leaves E h out c P (copyElems out pt 3 c) := by
  refine ⟨?_, only_copyElems 3 h out pt c⟩
  rw [coordsAt_copyElems hal]
  exact hP

/-- The operation after changes from `h` on. -/
theorem Leaves.after (hkeep : ∀ i < h, c₁ i = c i) (hP : Leaves E h out c₁ P c') :
    Leaves E h out c P c' :=
  ⟨hP.1, fun i hi hi' => (hP.2 i hi hi').trans (hkeep i hi)⟩

end

end StatelessGuest.Curve
