import StatelessGuest.Curve.BlsField
import StatelessGuest.Curve.Store

/-!
# The tower of BLS12-381

Elements of the tower are given by coefficients over the quadratic extension of the base field,
three of them on the first level and six on the second.

* `fp2Mul`, `fp2Add`, `fp2MulXi`, ...: the operations on elements in memory.
* `fp6Mul`, `fp6Inv`, `fp12Mul`, `fp12Inv`.
* `elem6`, `elem12`: the elements of the quotient rings at an address.
* `tower_exact`: products and inverses, over any operand.
-/

namespace StatelessGuest.Curve

open Lib Polynomial

section

variable {K : Type} [Field K]

/-! ## The code -/

def fp2Copy (r a : Nat) (c : Store K) : Store K := Function.update c r (c a)

def fp2SetZero (r : Nat) (c : Store K) : Store K := Function.update c r 0

def fp2SetOne (r : Nat) (c : Store K) : Store K := Function.update c r 1

def fp2Add (r a b : Nat) (c : Store K) : Store K := Function.update c r (c a + c b)

def fp2Sub (r a b : Nat) (c : Store K) : Store K := Function.update c r (c a - c b)

def fp2Neg (r a : Nat) (c : Store K) : Store K := Function.update c r (-c a)

def fp2Mul (r a b : Nat) (c : Store K) : Store K := Function.update c r (c a * c b)

def fp2Sqr (r a : Nat) (c : Store K) : Store K := Function.update c r (c a ^ 2)

def fp2MulXi (xi : K) (r a : Nat) (c : Store K) : Store K := Function.update c r (xi * c a)

/-- Zero is its own inverse. -/
def fp2Inv (r a : Nat) (c : Store K) : Store K := Function.update c r (c a)⁻¹

def fp6Add (r a b : Nat) (c : Store K) : Store K :=
  let c := fp2Add r a b c
  let c := fp2Add (r + 1) (a + 1) (b + 1) c
  fp2Add (r + 2) (a + 2) (b + 2) c

def fp6Sub (r a b : Nat) (c : Store K) : Store K :=
  let c := fp2Sub r a b c
  let c := fp2Sub (r + 1) (a + 1) (b + 1) c
  fp2Sub (r + 2) (a + 2) (b + 2) c

def fp6Neg (r a : Nat) (c : Store K) : Store K :=
  let c := fp2Neg r a c
  let c := fp2Neg (r + 1) (a + 1) c
  fp2Neg (r + 2) (a + 2) c

variable (xi : K)

/-- `r = a * b`; the temporaries are the ten elements from the heap pointer `h` on. -/
def fp6Mul (h r a b : Nat) (c : Store K) : Store K :=
  let t := h
  let c := fp2Mul t a b c
  let c := fp2Mul (t + 1) a (b + 1) c
  let c := fp2Mul (t + 2) a (b + 2) c
  let c := fp2Mul (t + 3) (a + 1) b c
  let c := fp2Mul (t + 4) (a + 1) (b + 1) c
  let c := fp2Mul (t + 5) (a + 1) (b + 2) c
  let c := fp2Mul (t + 6) (a + 2) b c
  let c := fp2Mul (t + 7) (a + 2) (b + 1) c
  let c := fp2Mul (t + 8) (a + 2) (b + 2) c
  let u := t + 9
  let c := fp2Add u (t + 5) (t + 7) c
  let c := fp2MulXi xi u u c
  let c := fp2Add r t u c
  let c := fp2MulXi xi u (t + 8) c
  let c := fp2Add u u (t + 1) c
  let c := fp2Add (r + 1) u (t + 3) c
  let c := fp2Add u (t + 2) (t + 4) c
  fp2Add (r + 2) u (t + 6) c

/-- `r = a * v`. -/
def fp6MulV (h r a : Nat) (c : Store K) : Store K :=
  let t := h
  let c := fp2MulXi xi t (a + 2) c
  let c := fp2Copy (r + 2) (a + 1) c
  let c := fp2Copy (r + 1) a c
  fp2Copy r t c

/-- `r = a⁻¹`. -/
def fp6Inv (h r a : Nat) (c : Store K) : Store K :=
  let t0 := h
  let t1 := h + 1
  let t2 := h + 2
  let u := h + 3
  let d := h + 4
  let di := h + 5
  let c := fp2Sqr t0 a c
  let c := fp2Mul u (a + 1) (a + 2) c
  let c := fp2MulXi xi u u c
  let c := fp2Sub t0 t0 u c
  let c := fp2Sqr t1 (a + 2) c
  let c := fp2MulXi xi t1 t1 c
  let c := fp2Mul u a (a + 1) c
  let c := fp2Sub t1 t1 u c
  let c := fp2Sqr t2 (a + 1) c
  let c := fp2Mul u a (a + 2) c
  let c := fp2Sub t2 t2 u c
  let c := fp2Mul d (a + 2) t1 c
  let c := fp2Mul u (a + 1) t2 c
  let c := fp2Add d d u c
  let c := fp2MulXi xi d d c
  let c := fp2Mul u a t0 c
  let c := fp2Add d d u c
  let c := fp2Inv di d c
  let c := fp2Mul r t0 di c
  let c := fp2Mul (r + 1) t1 di c
  fp2Mul (r + 2) t2 di c

/-- `r = a * b`; the temporaries are five elements of the first level. -/
@[nospecialize] def fp12Mul (h r a b : Nat) (c : Store K) : Store K :=
  let t0 := h
  let t1 := h + 3
  let t2 := h + 6
  let sa := h + 9
  let sb := h + 12
  let h := h + 15
  let c := fp6Mul xi h t0 a b c
  let c := fp6Mul xi h t1 (a + 3) (b + 3) c
  let c := fp6Add sa a (a + 3) c
  let c := fp6Add sb b (b + 3) c
  let c := fp6Mul xi h t2 sa sb c
  let c := fp6Sub t2 t2 t0 c
  let c := fp6Sub (r + 3) t2 t1 c
  let c := fp6MulV xi h t1 t1 c
  fp6Add r t0 t1 c

/-- `r = a⁻¹`. -/
@[nospecialize] def fp12Inv (h r a : Nat) (c : Store K) : Store K :=
  let t0 := h
  let t1 := h + 3
  let d := h + 6
  let h := h + 9
  let c := fp6Mul xi h t0 a a c
  let c := fp6Mul xi h t1 (a + 3) (a + 3) c
  let c := fp6MulV xi h t1 t1 c
  let c := fp6Sub d t0 t1 c
  let c := fp6Inv xi h d d c
  let c := fp6Mul xi h r a d c
  let c := fp6Mul xi h (r + 3) (a + 3) d c
  fp6Neg (r + 3) (r + 3) c

/-! ## Lookups -/

variable {c : Store K} {a b h i r : Nat}

omit [Field K] in
theorem fp2Copy_self : fp2Copy r a c r = c a := Function.update_self ..

omit [Field K] in
theorem fp2Copy_ne (hi : i ≠ r) : fp2Copy r a c i = c i := Function.update_of_ne hi ..

theorem fp2Add_self : fp2Add r a b c r = c a + c b := Function.update_self ..

theorem fp2Add_ne (hi : i ≠ r) : fp2Add r a b c i = c i := Function.update_of_ne hi ..

theorem fp2Sub_self : fp2Sub r a b c r = c a - c b := Function.update_self ..

theorem fp2Sub_ne (hi : i ≠ r) : fp2Sub r a b c i = c i := Function.update_of_ne hi ..

theorem fp2Neg_self : fp2Neg r a c r = -c a := Function.update_self ..

theorem fp2Neg_ne (hi : i ≠ r) : fp2Neg r a c i = c i := Function.update_of_ne hi ..

theorem fp2Mul_self : fp2Mul r a b c r = c a * c b := Function.update_self ..

theorem fp2Mul_ne (hi : i ≠ r) : fp2Mul r a b c i = c i := Function.update_of_ne hi ..

theorem fp2Sqr_self : fp2Sqr r a c r = c a ^ 2 := Function.update_self ..

theorem fp2Sqr_ne (hi : i ≠ r) : fp2Sqr r a c i = c i := Function.update_of_ne hi ..

theorem fp2MulXi_self : fp2MulXi xi r a c r = xi * c a := Function.update_self ..

theorem fp2MulXi_ne (hi : i ≠ r) : fp2MulXi xi r a c i = c i := Function.update_of_ne hi ..

theorem fp2Inv_self : fp2Inv r a c r = (c a)⁻¹ := Function.update_self ..

theorem fp2Inv_ne (hi : i ≠ r) : fp2Inv r a c i = c i := Function.update_of_ne hi ..

/-! ## The first level -/

/-- The element with the three coefficients from `p` on. -/
noncomputable def elem6 (c : Store K) (p : Nat) : Cubic xi := cubic xi (c p) (c (p + 1)) (c (p + 2))

theorem elem6_congr {c' : Store K} {p q : Nat} (h : ∀ k < 3, c' (p + k) = c (q + k)) :
    elem6 xi c' p = elem6 xi c q := by
  have h0 : c' p = c q := h 0 (by decide)
  unfold elem6
  rw [h0, h 1 (by decide), h 2 (by decide)]

theorem only_fp6Mul : Only 3 h r c (fp6Mul xi h r a b c) := by
  intro i hi hout
  unfold fp6Mul
  simp (disch := omega) only [fp2Add_ne, fp2Mul_ne, fp2MulXi_ne]

theorem elem6_fp6Mul (hr : r + 3 ≤ h) (ha : a + 3 ≤ h) (hb : b + 3 ≤ h) :
    elem6 xi (fp6Mul xi h r a b c) r = elem6 xi c a * elem6 xi c b := by
  have h0 : fp6Mul xi h r a b c r =
      c a * c b + xi * (c (a + 1) * c (b + 2) + c (a + 2) * c (b + 1)) := by
    unfold fp6Mul
    simp (disch := omega) only [fp2Add_self, fp2Add_ne, fp2Mul_self, fp2Mul_ne, fp2MulXi_self,
      fp2MulXi_ne]
  have h1 : fp6Mul xi h r a b c (r + 1) =
      xi * (c (a + 2) * c (b + 2)) + c a * c (b + 1) + c (a + 1) * c b := by
    unfold fp6Mul
    simp (disch := omega) only [fp2Add_self, fp2Add_ne, fp2Mul_self, fp2Mul_ne, fp2MulXi_self,
      fp2MulXi_ne]
  have h2 : fp6Mul xi h r a b c (r + 2) =
      c a * c (b + 2) + c (a + 1) * c (b + 1) + c (a + 2) * c b := by
    unfold fp6Mul
    simp (disch := omega) only [fp2Add_self, fp2Add_ne, fp2Mul_self, fp2Mul_ne, fp2MulXi_ne]
  unfold elem6
  rw [h0, h1, h2, cubic_mul]
  congr 1
  ring

theorem only_fp6Add : Only 3 h r c (fp6Add r a b c) := by
  intro i hi hout
  unfold fp6Add
  simp (disch := omega) only [fp2Add_ne]

theorem elem6_fp6Add (ha : MayAlias 3 r a) (hb : MayAlias 3 r b) :
    elem6 xi (fp6Add r a b c) r = elem6 xi c a + elem6 xi c b := by
  have h0 : fp6Add r a b c r = c a + c b := by
    unfold fp6Add
    simp (disch := omega) only [fp2Add_self, fp2Add_ne]
  have h1 : fp6Add r a b c (r + 1) = c (a + 1) + c (b + 1) := by
    unfold fp6Add
    simp (disch := omega) only [fp2Add_self, fp2Add_ne]
  have h2 : fp6Add r a b c (r + 2) = c (a + 2) + c (b + 2) := by
    unfold fp6Add
    simp (disch := omega) only [fp2Add_self, fp2Add_ne]
  unfold elem6
  rw [h0, h1, h2, cubic_add]

theorem only_fp6Sub : Only 3 h r c (fp6Sub r a b c) := by
  intro i hi hout
  unfold fp6Sub
  simp (disch := omega) only [fp2Sub_ne]

theorem elem6_fp6Sub (ha : MayAlias 3 r a) (hb : MayAlias 3 r b) :
    elem6 xi (fp6Sub r a b c) r = elem6 xi c a - elem6 xi c b := by
  have h0 : fp6Sub r a b c r = c a - c b := by
    unfold fp6Sub
    simp (disch := omega) only [fp2Sub_self, fp2Sub_ne]
  have h1 : fp6Sub r a b c (r + 1) = c (a + 1) - c (b + 1) := by
    unfold fp6Sub
    simp (disch := omega) only [fp2Sub_self, fp2Sub_ne]
  have h2 : fp6Sub r a b c (r + 2) = c (a + 2) - c (b + 2) := by
    unfold fp6Sub
    simp (disch := omega) only [fp2Sub_self, fp2Sub_ne]
  unfold elem6
  rw [h0, h1, h2, cubic_sub]

theorem only_fp6Neg : Only 3 h r c (fp6Neg r a c) := by
  intro i hi hout
  unfold fp6Neg
  simp (disch := omega) only [fp2Neg_ne]

theorem elem6_fp6Neg (ha : MayAlias 3 r a) : elem6 xi (fp6Neg r a c) r = -elem6 xi c a := by
  have h0 : fp6Neg r a c r = -c a := by
    unfold fp6Neg
    simp (disch := omega) only [fp2Neg_self, fp2Neg_ne]
  have h1 : fp6Neg r a c (r + 1) = -c (a + 1) := by
    unfold fp6Neg
    simp (disch := omega) only [fp2Neg_self, fp2Neg_ne]
  have h2 : fp6Neg r a c (r + 2) = -c (a + 2) := by
    unfold fp6Neg
    simp (disch := omega) only [fp2Neg_self, fp2Neg_ne]
  unfold elem6
  rw [h0, h1, h2, cubic_neg]

theorem only_fp6MulV : Only 3 h r c (fp6MulV xi h r a c) := by
  intro i hi hout
  unfold fp6MulV
  simp (disch := omega) only [fp2Copy_ne, fp2MulXi_ne]

theorem elem6_fp6MulV (hr : r + 3 ≤ h) (ha : a + 3 ≤ h) (hra : MayAlias 3 r a) :
    elem6 xi (fp6MulV xi h r a c) r = AdjoinRoot.root _ * elem6 xi c a := by
  have h0 : fp6MulV xi h r a c r = xi * c (a + 2) := by
    unfold fp6MulV
    simp (disch := omega) only [fp2Copy_self, fp2Copy_ne, fp2MulXi_self]
  have h1 : fp6MulV xi h r a c (r + 1) = c a := by
    unfold fp6MulV
    simp (disch := omega) only [fp2Copy_self, fp2Copy_ne, fp2MulXi_ne]
  have h2 : fp6MulV xi h r a c (r + 2) = c (a + 1) := by
    unfold fp6MulV
    simp (disch := omega) only [fp2Copy_self, fp2Copy_ne, fp2MulXi_ne]
  unfold elem6
  rw [h0, h1, h2, root_mul_cubic]

theorem only_fp6Inv : Only 3 h r c (fp6Inv xi h r a c) := by
  intro i hi hout
  unfold fp6Inv
  simp (disch := omega) only [fp2Add_ne, fp2Sub_ne, fp2Mul_ne, fp2Sqr_ne, fp2MulXi_ne, fp2Inv_ne]

theorem fp6Inv_coeffs (hr : r + 3 ≤ h) (ha : a + 3 ≤ h) :
    fp6Inv xi h r a c r = (c a ^ 2 - xi * (c (a + 1) * c (a + 2))) *
        (cubicNorm xi (c a) (c (a + 1)) (c (a + 2)))⁻¹ ∧
      fp6Inv xi h r a c (r + 1) = (xi * c (a + 2) ^ 2 - c a * c (a + 1)) *
        (cubicNorm xi (c a) (c (a + 1)) (c (a + 2)))⁻¹ ∧
      fp6Inv xi h r a c (r + 2) = (c (a + 1) ^ 2 - c a * c (a + 2)) *
        (cubicNorm xi (c a) (c (a + 1)) (c (a + 2)))⁻¹ := by
  have hnorm : xi * (c (a + 2) * (xi * c (a + 2) ^ 2 - c a * c (a + 1)) +
      c (a + 1) * (c (a + 1) ^ 2 - c a * c (a + 2))) +
        c a * (c a ^ 2 - xi * (c (a + 1) * c (a + 2))) =
          cubicNorm xi (c a) (c (a + 1)) (c (a + 2)) := add_comm _ _
  unfold fp6Inv
  simp (disch := omega) only [fp2Add_self, fp2Add_ne, fp2Sub_self, fp2Sub_ne, fp2Mul_self,
    fp2Mul_ne, fp2Sqr_self, fp2Sqr_ne, fp2MulXi_self, fp2MulXi_ne, fp2Inv_self, fp2Inv_ne, hnorm,
    and_self]

theorem elem6_fp6Inv [NonResidue xi] (hr : r + 3 ≤ h) (ha : a + 3 ≤ h) :
    elem6 xi (fp6Inv xi h r a c) r = (elem6 xi c a)⁻¹ := by
  obtain ⟨h0, h1, h2⟩ := @fp6Inv_coeffs K _ xi c a h r hr ha
  unfold elem6
  rw [h0, h1, h2, cubic_inv]

/-! ## The second level -/

/-- An element of the first level is kept when only other elements are written. -/
theorem Only.elem6_eq {c' : Store K} {n out p : Nat} (h1 : Only n h out c c') (hp : p + 3 ≤ h)
    (hapart : p + 3 ≤ out ∨ out + n ≤ p) : elem6 xi c' p = elem6 xi c p :=
  elem6_congr xi fun k hk => h1 (p + k) (by omega) (by omega)

/-- The element with the six coefficients from `p` on. -/
noncomputable def elem12 (c : Store K) (p : Nat) : Sextic xi :=
  sextic xi (elem6 xi c p) (elem6 xi c (p + 3))

theorem elem12_congr {c' : Store K} {p q : Nat} (h : ∀ k < 6, c' (p + k) = c (q + k)) :
    elem12 xi c' p = elem12 xi c q := by
  have hlow : elem6 xi c' p = elem6 xi c q := elem6_congr xi fun k hk => h k (by omega)
  have hhigh : elem6 xi c' (p + 3) = elem6 xi c (q + 3) := by
    refine elem6_congr xi fun k hk => ?_
    rw [Nat.add_assoc, Nat.add_assoc, h (3 + k) (by omega)]
  rw [elem12, elem12, hlow, hhigh]

/-- The coefficients are determined by the element. -/
theorem elem12_inj {c' : Store K} {p q : Nat} (h : elem12 xi c' p = elem12 xi c q) :
    ∀ k < 6, c' (p + k) = c (q + k) := by
  obtain ⟨hlow, hhigh⟩ := sextic_inj.mp h
  obtain ⟨h0, h1, h2⟩ := cubic_inj.mp hlow
  obtain ⟨h3, h4, h5⟩ := cubic_inj.mp hhigh
  intro k hk
  rcases k with _ | _ | _ | _ | _ | _ | k
  · exact h0
  · exact h1
  · exact h2
  · exact h3
  · exact h4
  · exact h5
  · omega

theorem Only.elem12_eq {c' : Store K} {n out p : Nat} (h1 : Only n h out c c') (hp : p + 6 ≤ h)
    (hapart : p + 6 ≤ out ∨ out + n ≤ p) : elem12 xi c' p = elem12 xi c p :=
  elem12_congr xi fun k hk => h1 (p + k) (by omega) (by omega)

theorem elem6_fp6Mul_ne {p : Nat} (hp : p + 3 ≤ h) (hapart : p + 3 ≤ r ∨ r + 3 ≤ p) :
    elem6 xi (fp6Mul xi h r a b c) p = elem6 xi c p := (only_fp6Mul xi).elem6_eq xi hp hapart

theorem elem6_fp6Add_ne {p : Nat} (hapart : p + 3 ≤ r ∨ r + 3 ≤ p) :
    elem6 xi (fp6Add r a b c) p = elem6 xi c p := only_fp6Add.elem6_eq xi (Nat.le_refl _) hapart

theorem elem6_fp6Sub_ne {p : Nat} (hapart : p + 3 ≤ r ∨ r + 3 ≤ p) :
    elem6 xi (fp6Sub r a b c) p = elem6 xi c p := only_fp6Sub.elem6_eq xi (Nat.le_refl _) hapart

theorem elem6_fp6Neg_ne {p : Nat} (hapart : p + 3 ≤ r ∨ r + 3 ≤ p) :
    elem6 xi (fp6Neg r a c) p = elem6 xi c p := only_fp6Neg.elem6_eq xi (Nat.le_refl _) hapart

theorem elem6_fp6MulV_ne {p : Nat} (hp : p + 3 ≤ h) (hapart : p + 3 ≤ r ∨ r + 3 ≤ p) :
    elem6 xi (fp6MulV xi h r a c) p = elem6 xi c p := (only_fp6MulV xi).elem6_eq xi hp hapart

theorem elem6_fp6Inv_ne {p : Nat} (hp : p + 3 ≤ h) (hapart : p + 3 ≤ r ∨ r + 3 ≤ p) :
    elem6 xi (fp6Inv xi h r a c) p = elem6 xi c p := (only_fp6Inv xi).elem6_eq xi hp hapart

theorem only_fp12Mul : Only 6 h r c (fp12Mul xi h r a b c) := by
  intro i hi hout
  unfold fp12Mul
  rw [only_fp6Add (h := h + 15) i (by omega) (by omega),
    only_fp6MulV xi (h := h + 15) i (by omega) (by omega),
    only_fp6Sub (h := h + 15) i (by omega) (by omega),
    only_fp6Sub (h := h + 15) i (by omega) (by omega),
    only_fp6Mul xi (h := h + 15) i (by omega) (by omega),
    only_fp6Add (h := h + 15) i (by omega) (by omega),
    only_fp6Add (h := h + 15) i (by omega) (by omega),
    only_fp6Mul xi (h := h + 15) i (by omega) (by omega),
    only_fp6Mul xi (h := h + 15) i (by omega) (by omega)]

theorem elem12_fp12Mul (hr : r + 6 ≤ h) (ha : a + 6 ≤ h) (hb : b + 6 ≤ h) :
    elem12 xi (fp12Mul xi h r a b c) r = elem12 xi c a * elem12 xi c b := by
  have h0 : elem6 xi (fp12Mul xi h r a b c) r =
      elem6 xi c a * elem6 xi c b +
        AdjoinRoot.root _ * (elem6 xi c (a + 3) * elem6 xi c (b + 3)) := by
    unfold fp12Mul
    simp (disch := omega) only [elem6_fp6Mul, elem6_fp6Mul_ne, elem6_fp6Add, elem6_fp6Add_ne,
      elem6_fp6Sub_ne, elem6_fp6MulV, elem6_fp6MulV_ne]
  have h1 : elem6 xi (fp12Mul xi h r a b c) (r + 3) =
      (elem6 xi c a + elem6 xi c (a + 3)) * (elem6 xi c b + elem6 xi c (b + 3)) -
        elem6 xi c a * elem6 xi c b - elem6 xi c (a + 3) * elem6 xi c (b + 3) := by
    unfold fp12Mul
    simp (disch := omega) only [elem6_fp6Mul, elem6_fp6Mul_ne, elem6_fp6Add, elem6_fp6Add_ne,
      elem6_fp6Sub, elem6_fp6Sub_ne, elem6_fp6MulV_ne]
  unfold elem12
  rw [h0, h1, sextic_mul]
  congr 1
  ring

theorem only_fp12Inv : Only 6 h r c (fp12Inv xi h r a c) := by
  intro i hi hout
  unfold fp12Inv
  rw [only_fp6Neg (h := h + 9) i (by omega) (by omega),
    only_fp6Mul xi (h := h + 9) i (by omega) (by omega),
    only_fp6Mul xi (h := h + 9) i (by omega) (by omega),
    only_fp6Inv xi (h := h + 9) i (by omega) (by omega),
    only_fp6Sub (h := h + 9) i (by omega) (by omega),
    only_fp6MulV xi (h := h + 9) i (by omega) (by omega),
    only_fp6Mul xi (h := h + 9) i (by omega) (by omega),
    only_fp6Mul xi (h := h + 9) i (by omega) (by omega)]

theorem elem12_fp12Inv [NonResidue xi] (hr : r + 6 ≤ h) (ha : a + 6 ≤ h)
    (hra : MayAlias 6 r a) : elem12 xi (fp12Inv xi h r a c) r = (elem12 xi c a)⁻¹ := by
  have h0 : elem6 xi (fp12Inv xi h r a c) r = elem6 xi c a *
      (elem6 xi c a * elem6 xi c a -
        AdjoinRoot.root _ * (elem6 xi c (a + 3) * elem6 xi c (a + 3)))⁻¹ := by
    unfold fp12Inv
    simp (disch := omega) only [elem6_fp6Mul, elem6_fp6Mul_ne, elem6_fp6Neg_ne, elem6_fp6Inv,
      elem6_fp6Inv_ne, elem6_fp6Sub, elem6_fp6Sub_ne, elem6_fp6MulV, elem6_fp6MulV_ne]
  have h1 : elem6 xi (fp12Inv xi h r a c) (r + 3) = -(elem6 xi c (a + 3) *
      (elem6 xi c a * elem6 xi c a -
        AdjoinRoot.root _ * (elem6 xi c (a + 3) * elem6 xi c (a + 3)))⁻¹) := by
    unfold fp12Inv
    simp (disch := omega) only [elem6_fp6Mul, elem6_fp6Mul_ne, elem6_fp6Neg, elem6_fp6Inv,
      elem6_fp6Inv_ne, elem6_fp6Sub, elem6_fp6Sub_ne, elem6_fp6MulV, elem6_fp6MulV_ne]
  unfold elem12
  rw [h0, h1, sextic_inv, sq, sq]

end

/-- Products and inverses are those of the quotient rings `Fp2[v] / (v ^ 3 - xi)` and
`Fp6[w] / (w ^ 2 - v)`, which are fields, and only the result is written. The operands may lie
over each other and under the result in any way; under the result of the last inversion, only its
operand as a whole. -/
theorem tower_exact (c : Store Fp2) (h r a b : Nat) :
    (r + 3 ≤ h → a + 3 ≤ h → b + 3 ≤ h →
      elem6 fp2Xi (fp6Mul fp2Xi h r a b c) r = elem6 fp2Xi c a * elem6 fp2Xi c b ∧
      Only 3 h r c (fp6Mul fp2Xi h r a b c)) ∧
    (r + 6 ≤ h → a + 6 ≤ h → b + 6 ≤ h →
      elem12 fp2Xi (fp12Mul fp2Xi h r a b c) r = elem12 fp2Xi c a * elem12 fp2Xi c b ∧
      Only 6 h r c (fp12Mul fp2Xi h r a b c)) ∧
    (r + 3 ≤ h → a + 3 ≤ h →
      elem6 fp2Xi (fp6Inv fp2Xi h r a c) r = (elem6 fp2Xi c a)⁻¹ ∧
      Only 3 h r c (fp6Inv fp2Xi h r a c)) ∧
    (r + 6 ≤ h → a + 6 ≤ h → MayAlias 6 r a →
      elem12 fp2Xi (fp12Inv fp2Xi h r a c) r = (elem12 fp2Xi c a)⁻¹ ∧
      Only 6 h r c (fp12Inv fp2Xi h r a c)) :=
  ⟨fun hr ha hb => ⟨elem6_fp6Mul _ hr ha hb, only_fp6Mul _⟩,
    fun hr ha hb => ⟨elem12_fp12Mul _ hr ha hb, only_fp12Mul _⟩,
    fun hr ha => ⟨elem6_fp6Inv _ hr ha, only_fp6Inv _⟩,
    fun hr ha hra => ⟨elem12_fp12Inv _ hr ha hra, only_fp12Inv _⟩⟩

end StatelessGuest.Curve
