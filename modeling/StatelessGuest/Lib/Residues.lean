import Mathlib.FieldTheory.KummerPolynomial
import Mathlib.RingTheory.Norm.Basic
import Mathlib.Tactic.LinearCombination

/-!
# Residues of polynomials by their coefficients

An element of `R[X] / f` is given by as many coefficients as `f` has degree. Adjoining first a
cube root and then a square root of that gives the towers that pairings are computed in.

* `residue`: the element with some coefficients; `residue_inj`, `exists_residue`.
* `Cubic`, `Quadratic`: a cube root and a square root adjoined; `cubic`, `quadratic`: their
  elements.
* `root_cubic_not_sq`: the cube root of a number that is no square is no square.
* `cubic_inv`, `quadratic_inv`: inverses by norms.
* `Sextic`: both roots adjoined, to a field in which `NonResidue` holds of the first one.
-/

namespace StatelessGuest.Lib

open Polynomial

section

variable {R : Type} [CommRing R]

/-- The residue of a polynomial with `n` coefficients. -/
noncomputable def residue (f : R[X]) (n : Nat) (a : Nat → R) : AdjoinRoot f :=
  ∑ i ∈ Finset.range n, AdjoinRoot.of f (a i) * AdjoinRoot.root f ^ i

variable {f : R[X]} {n : Nat} {a b : Nat → R}

theorem residue_congr (h : ∀ i < n, a i = b i) : residue f n a = residue f n b :=
  Finset.sum_congr rfl fun i hi => by rw [h i (Finset.mem_range.mp hi)]

theorem residue_eq_mk (f : R[X]) (n : Nat) (a : Nat → R) :
    residue f n a = AdjoinRoot.mk f (∑ i ∈ Finset.range n, C (a i) * X ^ i) := by
  simp [residue, map_sum]

theorem residue_eq_zero [Nontrivial R] (hf : f.Monic) (hn : n ≤ f.natDegree) :
    residue f n a = 0 ↔ ∀ i < n, a i = 0 := by
  constructor
  · intro h
    rw [residue_eq_mk, AdjoinRoot.mk_eq_zero] at h
    have hdegree : (∑ i ∈ Finset.range n, C (a i) * X ^ i : R[X]).degree < f.degree := by
      rw [degree_eq_natDegree hf.ne_zero]
      refine lt_of_lt_of_le ?_ (Nat.cast_le.mpr hn)
      rw [degree_lt_iff_coeff_zero]
      intro m hm
      simp only [finsetSum_coeff, coeff_C_mul, coeff_X_pow]
      refine Finset.sum_eq_zero fun i hi => ?_
      rw [if_neg, mul_zero]
      have := Finset.mem_range.mp hi
      omega
    have hzero : (∑ i ∈ Finset.range n, C (a i) * X ^ i : R[X]) = 0 := by
      by_contra hne
      exact hf.not_dvd_of_degree_lt hne hdegree h
    intro i hi
    have hcoeff := congrArg (fun g => coeff g i) hzero
    simpa [finsetSum_coeff, coeff_X_pow, hi] using hcoeff
  · intro h
    exact Finset.sum_eq_zero fun i hi => by rw [h i (Finset.mem_range.mp hi), map_zero, zero_mul]

theorem residue_sub (f : R[X]) (n : Nat) (a b : Nat → R) :
    residue f n a - residue f n b = residue f n fun i => a i - b i := by
  simp only [residue, map_sub, sub_mul, Finset.sum_sub_distrib]

/-- Residues are equal when their coefficients are. -/
theorem residue_inj [Nontrivial R] (hf : f.Monic) (hn : n ≤ f.natDegree) :
    residue f n a = residue f n b ↔ ∀ i < n, a i = b i := by
  rw [← sub_eq_zero, residue_sub, residue_eq_zero hf hn]
  exact forall_congr' fun i => imp_congr_right fun _ => sub_eq_zero

/-- Every element has coefficients. -/
theorem exists_residue (hf : f.Monic) (hn : f.natDegree = n) (x : AdjoinRoot f) :
    ∃ a, x = residue f n a := by
  obtain ⟨g, rfl⟩ := AdjoinRoot.mk_surjective x
  rcases eq_or_ne f 1 with rfl | hne
  · refine ⟨fun _ => 0, ?_⟩
    rw [residue_eq_mk, AdjoinRoot.mk_eq_mk]
    exact one_dvd _
  refine ⟨(g %ₘ f).coeff, ?_⟩
  have hlt : (g %ₘ f).natDegree < n := hn ▸ natDegree_modByMonic_lt g hf hne
  rw [residue_eq_mk, ← as_sum_range_C_mul_X_pow' _ hlt, AdjoinRoot.mk_eq_mk]
  exact ⟨g /ₘ f, by rw [sub_eq_iff_eq_add, add_comm, modByMonic_add_div]⟩

/-! ## Roots -/

/-- `R` with a cube root of `xi`. -/
abbrev Cubic (xi : R) : Type := AdjoinRoot (X ^ 3 - C xi)

/-- `R` with a square root of `v`. -/
abbrev Quadratic (v : R) : Type := AdjoinRoot (X ^ 2 - C v)

theorem root_cubic (xi : R) :
    AdjoinRoot.root (X ^ 3 - C xi) ^ 3 = AdjoinRoot.of (X ^ 3 - C xi) xi := by
  have h := AdjoinRoot.eval₂_root (X ^ 3 - C xi)
  rw [eval₂_sub, eval₂_X_pow, eval₂_C] at h
  exact sub_eq_zero.mp h

theorem root_quadratic (v : R) :
    AdjoinRoot.root (X ^ 2 - C v) ^ 2 = AdjoinRoot.of (X ^ 2 - C v) v := by
  have h := AdjoinRoot.eval₂_root (X ^ 2 - C v)
  rw [eval₂_sub, eval₂_X_pow, eval₂_C] at h
  exact sub_eq_zero.mp h

noncomputable def cubic (xi x0 x1 x2 : R) : Cubic xi :=
  AdjoinRoot.of _ x0 + AdjoinRoot.of _ x1 * AdjoinRoot.root _ +
    AdjoinRoot.of _ x2 * AdjoinRoot.root _ ^ 2

noncomputable def quadratic (v x0 x1 : R) : Quadratic v :=
  AdjoinRoot.of _ x0 + AdjoinRoot.of _ x1 * AdjoinRoot.root _

theorem cubic_eq_residue (xi : R) (a : Nat → R) :
    cubic xi (a 0) (a 1) (a 2) = residue _ 3 a := by
  simp [cubic, residue, Finset.sum_range_succ]

theorem quadratic_eq_residue (v : R) (a : Nat → R) :
    quadratic v (a 0) (a 1) = residue _ 2 a := by
  simp [quadratic, residue, Finset.sum_range_succ]

theorem exists_cubic [Nontrivial R] {xi : R} (x : Cubic xi) :
    ∃ x0 x1 x2, x = cubic xi x0 x1 x2 := by
  obtain ⟨a, rfl⟩ := exists_residue (monic_X_pow_sub_C xi (by decide)) natDegree_X_pow_sub_C x
  exact ⟨a 0, a 1, a 2, (cubic_eq_residue xi a).symm⟩

theorem exists_quadratic [Nontrivial R] {v : R} (x : Quadratic v) :
    ∃ x0 x1, x = quadratic v x0 x1 := by
  obtain ⟨a, rfl⟩ := exists_residue (monic_X_pow_sub_C v (by decide)) natDegree_X_pow_sub_C x
  exact ⟨a 0, a 1, (quadratic_eq_residue v a).symm⟩

variable (xi v x0 x1 x2 y0 y1 y2 : R)

theorem cubic_zero : cubic xi 0 0 0 = 0 := by
  simp [cubic]

theorem cubic_one : cubic xi 1 0 0 = 1 := by
  simp [cubic]

theorem cubic_add : cubic xi x0 x1 x2 + cubic xi y0 y1 y2 =
    cubic xi (x0 + y0) (x1 + y1) (x2 + y2) := by
  simp only [cubic, map_add]
  ring

theorem cubic_sub : cubic xi x0 x1 x2 - cubic xi y0 y1 y2 =
    cubic xi (x0 - y0) (x1 - y1) (x2 - y2) := by
  simp only [cubic, map_sub]
  ring

theorem cubic_neg : -cubic xi x0 x1 x2 = cubic xi (-x0) (-x1) (-x2) := by
  simp only [cubic, map_neg]
  ring

theorem cubic_mul : cubic xi x0 x1 x2 * cubic xi y0 y1 y2 =
    cubic xi (x0 * y0 + xi * (x1 * y2 + x2 * y1)) (x0 * y1 + x1 * y0 + xi * (x2 * y2))
      (x0 * y2 + x1 * y1 + x2 * y0) := by
  have hroot := root_cubic xi
  simp only [cubic, map_add, map_mul]
  generalize AdjoinRoot.root (X ^ 3 - C xi) = r at *
  linear_combination (AdjoinRoot.of _ x1 * AdjoinRoot.of _ y2 +
    AdjoinRoot.of _ x2 * AdjoinRoot.of _ y1 + AdjoinRoot.of _ x2 * AdjoinRoot.of _ y2 * r) * hroot

theorem root_mul_cubic : AdjoinRoot.root _ * cubic xi x0 x1 x2 = cubic xi (xi * x2) x0 x1 := by
  have hroot := root_cubic xi
  simp only [cubic, map_mul]
  generalize AdjoinRoot.root (X ^ 3 - C xi) = r at *
  linear_combination AdjoinRoot.of _ x2 * hroot

theorem quadratic_zero : quadratic v 0 0 = 0 := by
  simp [quadratic]

theorem quadratic_mul : quadratic v x0 x1 * quadratic v y0 y1 =
    quadratic v (x0 * y0 + v * (x1 * y1)) (x0 * y1 + x1 * y0) := by
  have hroot := root_quadratic v
  simp only [quadratic, map_add, map_mul]
  linear_combination (AdjoinRoot.of _ x1 * AdjoinRoot.of _ y1) * hroot

variable {xi v x0 x1 x2 y0 y1 y2} [Nontrivial R]

theorem cubic_inj :
    cubic xi x0 x1 x2 = cubic xi y0 y1 y2 ↔ x0 = y0 ∧ x1 = y1 ∧ x2 = y2 := by
  have h := residue_inj (f := X ^ 3 - C xi) (n := 3) (a := fun i => [x0, x1, x2].getD i 0)
    (b := fun i => [y0, y1, y2].getD i 0) (monic_X_pow_sub_C xi (by decide))
    (by rw [natDegree_X_pow_sub_C])
  rw [← cubic_eq_residue, ← cubic_eq_residue] at h
  refine h.trans ⟨fun h => ⟨h 0 (by decide), h 1 (by decide), h 2 (by decide)⟩, fun h i hi => ?_⟩
  rcases h with ⟨rfl, rfl, rfl⟩
  rfl

theorem quadratic_inj :
    quadratic v x0 x1 = quadratic v y0 y1 ↔ x0 = y0 ∧ x1 = y1 := by
  have h := residue_inj (f := X ^ 2 - C v) (n := 2) (a := fun i => [x0, x1].getD i 0)
    (b := fun i => [y0, y1].getD i 0) (monic_X_pow_sub_C v (by decide))
    (by rw [natDegree_X_pow_sub_C])
  rw [← quadratic_eq_residue, ← quadratic_eq_residue] at h
  refine h.trans ⟨fun h => ⟨h 0 (by decide), h 1 (by decide)⟩, fun h i hi => ?_⟩
  rcases h with ⟨rfl, rfl⟩
  rfl

end

section

variable {K : Type} [Field K]

theorem irreducible_cubic {xi : K} (h : ∀ s, s ^ 3 ≠ xi) : Irreducible (X ^ 3 - C xi) :=
  X_pow_sub_C_irreducible_of_prime Nat.prime_three h

theorem irreducible_quadratic {v : K} (h : ∀ s, s ^ 2 ≠ v) : Irreducible (X ^ 2 - C v) :=
  X_pow_sub_C_irreducible_of_prime Nat.prime_two h

theorem ne_cube_of_irreducible {xi : K} [h : Fact (Irreducible (X ^ 3 - C xi))] (s : K) :
    s ^ 3 ≠ xi :=
  pow_ne_of_irreducible_X_pow_sub_C h.out dvd_rfl (by decide) s

theorem ne_sq_of_irreducible {v : K} [h : Fact (Irreducible (X ^ 2 - C v))] (s : K) : s ^ 2 ≠ v :=
  pow_ne_of_irreducible_X_pow_sub_C h.out dvd_rfl (by decide) s

/-- A square root of the cube root would have a norm, the square root of a power of `xi`. -/
theorem root_cubic_not_sq {xi : K} (hsq : ∀ s, s ^ 2 ≠ xi) (hcube : ∀ s, s ^ 3 ≠ xi)
    (s : Cubic xi) : s ^ 2 ≠ AdjoinRoot.root (X ^ 3 - C xi) := by
  intro hs
  have hmonic : (X ^ 3 - C xi).Monic := monic_X_pow_sub_C xi (by decide)
  have hxi : xi ≠ 0 := fun h => hcube 0 (by rw [h]; exact zero_pow (by decide))
  have hrank : Module.finrank K (Cubic xi) = 3 := by
    rw [(AdjoinRoot.powerBasis' hmonic).finrank, AdjoinRoot.powerBasis'_dim, natDegree_X_pow_sub_C]
  have hpow : (s ^ 3) ^ 2 = algebraMap K (Cubic xi) xi := by
    rw [← pow_mul, mul_comm, pow_mul, hs, root_cubic]
    rfl
  have hnorm := congrArg (Algebra.norm K) hpow
  rw [map_pow, Algebra.norm_algebraMap, hrank] at hnorm
  refine hsq (Algebra.norm K (s ^ 3) / xi) ?_
  rw [div_pow, hnorm]
  field_simp

/-! ## Inverses -/

variable {xi v x0 x1 x2 : K}

/-- The product of an element and its conjugates. -/
def cubicNorm (xi x0 x1 x2 : K) : K :=
  x0 * (x0 ^ 2 - xi * (x1 * x2)) + xi * (x2 * (xi * x2 ^ 2 - x0 * x1) + x1 * (x1 ^ 2 - x0 * x2))

theorem cubic_mul_adjugate (xi x0 x1 x2 : K) :
    cubic xi x0 x1 x2 * cubic xi (x0 ^ 2 - xi * (x1 * x2)) (xi * x2 ^ 2 - x0 * x1)
      (x1 ^ 2 - x0 * x2) = AdjoinRoot.of _ (cubicNorm xi x0 x1 x2) := by
  have hnorm : AdjoinRoot.of _ (cubicNorm xi x0 x1 x2) =
      cubic xi (cubicNorm xi x0 x1 x2) 0 0 := by
    simp [cubic]
  rw [hnorm, cubic_mul, cubic_inj]
  unfold cubicNorm
  refine ⟨?_, ?_, ?_⟩ <;> ring

/-- The norm is zero only for zero, as otherwise the quotient of two coefficients would be a cube
root of `xi`. -/
theorem cubicNorm_eq_zero (hcube : ∀ s, s ^ 3 ≠ xi) (h : cubicNorm xi x0 x1 x2 = 0) :
    x0 = 0 ∧ x1 = 0 ∧ x2 = 0 := by
  have : Fact (Irreducible (X ^ 3 - C xi)) := ⟨irreducible_cubic hcube⟩
  have hprod := cubic_mul_adjugate xi x0 x1 x2
  rw [h, map_zero, mul_eq_zero] at hprod
  rcases hprod with hzero | hzero
  · rw [← cubic_zero xi, cubic_inj] at hzero
    exact hzero
  rw [← cubic_zero xi, cubic_inj] at hzero
  obtain ⟨h0, h1, h2⟩ := hzero
  by_cases hx2 : x2 = 0
  · subst hx2
    simp only [mul_zero, sub_zero, pow_eq_zero_iff two_ne_zero] at h0 h2
    exact ⟨h0, h2, rfl⟩
  · refine absurd ?_ (hcube (x1 / x2))
    rw [div_pow, div_eq_iff (pow_ne_zero 3 hx2)]
    linear_combination x1 * h2 - x2 * h1

theorem cubic_inv [Fact (Irreducible (X ^ 3 - C xi))] (x0 x1 x2 : K) :
    (cubic xi x0 x1 x2)⁻¹ =
      cubic xi ((x0 ^ 2 - xi * (x1 * x2)) * (cubicNorm xi x0 x1 x2)⁻¹)
        ((xi * x2 ^ 2 - x0 * x1) * (cubicNorm xi x0 x1 x2)⁻¹)
        ((x1 ^ 2 - x0 * x2) * (cubicNorm xi x0 x1 x2)⁻¹) := by
  have hscale : ∀ y0 y1 y2 k : K, cubic xi (y0 * k) (y1 * k) (y2 * k) =
      cubic xi y0 y1 y2 * AdjoinRoot.of _ k := by
    intro y0 y1 y2 k
    simp only [cubic, map_mul]
    ring
  by_cases hne : cubicNorm xi x0 x1 x2 = 0
  · obtain ⟨rfl, rfl, rfl⟩ := cubicNorm_eq_zero (fun s => ne_cube_of_irreducible s) hne
    rw [hscale, hne, inv_zero, map_zero, mul_zero, cubic_zero, inv_zero]
  · refine inv_eq_of_mul_eq_one_right ?_
    rw [hscale, ← mul_assoc, cubic_mul_adjugate, ← map_mul, mul_inv_cancel₀ hne, map_one]

theorem quadratic_mul_conj (v x0 x1 : K) : quadratic v x0 x1 * quadratic v x0 (-x1) =
    AdjoinRoot.of _ (x0 ^ 2 - v * x1 ^ 2) := by
  have hnorm : AdjoinRoot.of _ (x0 ^ 2 - v * x1 ^ 2) = quadratic v (x0 ^ 2 - v * x1 ^ 2) 0 := by
    simp [quadratic]
  rw [hnorm, quadratic_mul, quadratic_inj]
  refine ⟨?_, ?_⟩ <;> ring

theorem quadraticNorm_eq_zero (hsq : ∀ s, s ^ 2 ≠ v) (h : x0 ^ 2 - v * x1 ^ 2 = 0) :
    x0 = 0 ∧ x1 = 0 := by
  by_cases hx1 : x1 = 0
  · subst hx1
    rw [zero_pow two_ne_zero, mul_zero, sub_zero, pow_eq_zero_iff two_ne_zero] at h
    exact ⟨h, rfl⟩
  · refine absurd ?_ (hsq (x0 / x1))
    rw [div_pow, div_eq_iff (pow_ne_zero 2 hx1)]
    exact sub_eq_zero.mp h

theorem quadratic_inv [Fact (Irreducible (X ^ 2 - C v))] (x0 x1 : K) :
    (quadratic v x0 x1)⁻¹ =
      quadratic v (x0 * (x0 ^ 2 - v * x1 ^ 2)⁻¹) (-(x1 * (x0 ^ 2 - v * x1 ^ 2)⁻¹)) := by
  have hscale : ∀ d : K, quadratic v (x0 * d) (-(x1 * d)) =
      quadratic v x0 (-x1) * AdjoinRoot.of _ d := by
    intro d
    simp only [quadratic, map_mul, map_neg]
    ring
  by_cases hne : x0 ^ 2 - v * x1 ^ 2 = 0
  · obtain ⟨rfl, rfl⟩ := quadraticNorm_eq_zero (fun s => ne_sq_of_irreducible s) hne
    rw [hscale, hne, inv_zero, map_zero, mul_zero, quadratic_zero, inv_zero]
  · refine inv_eq_of_mul_eq_one_right ?_
    rw [hscale, ← mul_assoc, quadratic_mul_conj, ← map_mul, mul_inv_cancel₀ hne, map_one]

end

/-! ## Both roots -/

section

variable {K : Type} [Field K]

/-- Neither a square nor a cube. -/
class NonResidue (xi : K) : Prop where
  ne_sq : ∀ s, s ^ 2 ≠ xi
  ne_cube : ∀ s, s ^ 3 ≠ xi

instance NonResidue.cubic (xi : K) [h : NonResidue xi] : Fact (Irreducible (X ^ 3 - C xi)) :=
  ⟨irreducible_cubic h.ne_cube⟩

/-- `K` with a square root of a cube root of `xi`. -/
def Sextic (xi : K) : Type := Quadratic (AdjoinRoot.root (X ^ 3 - C xi))

noncomputable instance (xi : K) : CommRing (Sextic xi) := AdjoinRoot.instCommRing _

instance NonResidue.sextic (xi : K) [h : NonResidue xi] :
    Fact (Irreducible (X ^ 2 - C (AdjoinRoot.root (X ^ 3 - C xi)))) :=
  ⟨irreducible_quadratic (K := Cubic xi) (root_cubic_not_sq h.ne_sq h.ne_cube)⟩

noncomputable instance (xi : K) [h : NonResidue xi] : Field (Sextic xi) :=
  AdjoinRoot.instField (f := X ^ 2 - C (AdjoinRoot.root (X ^ 3 - C xi)))

noncomputable def sextic (xi : K) (x0 x1 : Cubic xi) : Sextic xi := quadratic _ x0 x1

variable {xi : K} {x0 x1 y0 y1 : Cubic xi}

theorem sextic_inj : sextic xi x0 x1 = sextic xi y0 y1 ↔ x0 = y0 ∧ x1 = y1 := by
  have : Nontrivial (Cubic xi) := AdjoinRoot.nontrivial _ (by
    rw [degree_X_pow_sub_C (by decide)]
    decide)
  exact quadratic_inj

theorem exists_sextic (x : Sextic xi) : ∃ x0 x1, x = sextic xi x0 x1 := by
  have : Nontrivial (Cubic xi) := AdjoinRoot.nontrivial _ (by
    rw [degree_X_pow_sub_C (by decide)]
    decide)
  exact exists_quadratic x

theorem sextic_mul (x0 x1 y0 y1 : Cubic xi) : sextic xi x0 x1 * sextic xi y0 y1 =
    sextic xi (x0 * y0 + AdjoinRoot.root _ * (x1 * y1)) (x0 * y1 + x1 * y0) :=
  quadratic_mul _ x0 x1 y0 y1

theorem sextic_inv [NonResidue xi] (x0 x1 : Cubic xi) : (sextic xi x0 x1)⁻¹ =
    sextic xi (x0 * (x0 ^ 2 - AdjoinRoot.root _ * x1 ^ 2)⁻¹)
      (-(x1 * (x0 ^ 2 - AdjoinRoot.root _ * x1 ^ 2)⁻¹)) :=
  quadratic_inv (K := Cubic xi) (v := AdjoinRoot.root (X ^ 3 - C xi)) x0 x1

/-- The field with the cube root in the one with both. -/
noncomputable def cubicOf (xi : K) : Cubic xi →+* Sextic xi :=
  AdjoinRoot.of (X ^ 2 - C (AdjoinRoot.root (X ^ 3 - C xi)))

/-- `K` in the field with both roots. -/
noncomputable def sexticOf (xi : K) : K →+* Sextic xi :=
  (cubicOf xi).comp (AdjoinRoot.of (X ^ 3 - C xi))

/-- The square root of the cube root. -/
noncomputable def sexticRoot (xi : K) : Sextic xi :=
  AdjoinRoot.root (X ^ 2 - C (AdjoinRoot.root (X ^ 3 - C xi)))

theorem sexticRoot_sq (xi : K) :
    sexticRoot xi ^ 2 = cubicOf xi (AdjoinRoot.root (X ^ 3 - C xi)) :=
  root_quadratic (AdjoinRoot.root (X ^ 3 - C xi))

theorem sexticRoot_pow_six (xi : K) : sexticRoot xi ^ 6 = sexticOf xi xi := by
  rw [show 6 = 2 * 3 from rfl, pow_mul, sexticRoot_sq, ← map_pow, root_cubic]
  rfl

theorem sextic_eq (x0 x1 : Cubic xi) :
    sextic xi x0 x1 = cubicOf xi x0 + cubicOf xi x1 * sexticRoot xi := rfl

theorem cubicOf_cubic (xi x0 x1 x2 : K) : cubicOf xi (cubic xi x0 x1 x2) =
    sexticOf xi x0 + sexticOf xi x1 * sexticRoot xi ^ 2 + sexticOf xi x2 * sexticRoot xi ^ 4 := by
  rw [show 4 = 2 * 2 from rfl, pow_mul, sexticRoot_sq]
  simp only [cubic, sexticOf, RingHom.comp_apply, map_add, map_mul, map_pow]

/-- The coefficients over the powers of the root. -/
theorem sextic_expand (xi a0 a1 a2 b0 b1 b2 : K) :
    sextic xi (cubic xi a0 a1 a2) (cubic xi b0 b1 b2) =
      sexticOf xi a0 + sexticOf xi b0 * sexticRoot xi + sexticOf xi a1 * sexticRoot xi ^ 2 +
        sexticOf xi b1 * sexticRoot xi ^ 3 + sexticOf xi a2 * sexticRoot xi ^ 4 +
          sexticOf xi b2 * sexticRoot xi ^ 5 := by
  rw [sextic_eq, cubicOf_cubic, cubicOf_cubic]
  ring

end

end StatelessGuest.Lib
