import Mathlib.Data.Nat.Find
import Mathlib.Data.Nat.Factorial.Basic
import Mathlib.Tactic.Linarith

/-!
# The exponential of a quotient by its Taylor series

`f * e ^ (n / d)` over the naturals: every term is rounded down from the one before,
and the series is summed until a term is zero.

* `term`, `partialSum`, `exponential`: the terms, their sums and the result.
* `term_zero_of_small`: terms whose product with `n` stays below `2 ^ 256` are zero from the
  1280th on.
* `partialSum_lt`: then no sum reaches `2 ^ 256`.
-/

namespace StatelessGuest.Lib.Taylor

/-- Term `k`, scaled by the denominator. -/
def term (f n d : Nat) : Nat → Nat
  | 0 => f * d
  | k + 1 => term f n d k * n / ((k + 1) * d)

/-- The sum of the first terms. -/
def partialSum (f n d : Nat) : Nat → Nat
  | 0 => 0
  | k + 1 => partialSum f n d k + term f n d k

section

variable {f n d : Nat}

/-! ## Terms that shrink -/

theorem term_succ_zero {k : Nat} (h : term f n d k = 0) :
    term f n d (k + 1) = 0 := by
  rw [term, h, Nat.zero_mul, Nat.zero_div]

theorem term_zero_of_le {m k : Nat} (h : term f n d m = 0) (hle : m ≤ k) :
    term f n d k = 0 := by
  induction k, hle using Nat.le_induction with
  | base => exact h
  | succ k _ ih => exact term_succ_zero ih

/-- A ratio of consecutive terms that is at most `a / b`. -/
theorem mul_term_succ_le {a b k : Nat} (h : b * n ≤ a * ((k + 1) * d)) :
    b * term f n d (k + 1) ≤ a * term f n d k := by
  have hdiv := Nat.div_mul_le_self (term f n d k * n) ((k + 1) * d)
  by_cases hd : (k + 1) * d = 0
  · rw [term, hd, Nat.div_zero, Nat.mul_zero]
    exact Nat.zero_le _
  refine Nat.le_of_mul_le_mul_right ?_ (Nat.pos_of_ne_zero hd)
  calc b * term f n d (k + 1) * ((k + 1) * d)
      = b * (term f n d k * n / ((k + 1) * d) * ((k + 1) * d)) := by
        rw [term, Nat.mul_assoc]
    _ ≤ b * (term f n d k * n) := Nat.mul_le_mul_left b hdiv
    _ = term f n d k * (b * n) := by ac_rfl
    _ ≤ term f n d k * (a * ((k + 1) * d)) := Nat.mul_le_mul_left _ h
    _ = a * term f n d k * ((k + 1) * d) := by ac_rfl

/-- A ratio of consecutive terms that is at least the integer `a`. -/
theorem mul_le_term_succ {a k : Nat} (hden : 0 < d) (h : a * ((k + 1) * d) ≤ n) :
    a * term f n d k ≤ term f n d (k + 1) := by
  rw [term, Nat.le_div_iff_mul_le (Nat.mul_pos (Nat.succ_pos k) hden)]
  calc a * term f n d k * ((k + 1) * d)
      = term f n d k * (a * ((k + 1) * d)) := by ac_rfl
    _ ≤ term f n d k * n := Nat.mul_le_mul_left _ h

/-- Where the terms are at least halved, `j` rounds make a term below `2 ^ j` zero. -/
theorem term_zero_of_halving {k : Nat} (h : 2 * n ≤ (k + 1) * d) :
    ∀ {j : Nat}, term f n d k < 2 ^ j → term f n d (k + j) = 0 := by
  have hhalf : ∀ i, term f n d (k + i) * 2 ^ i ≤ term f n d k := by
    intro i
    induction i with
    | zero => exact Nat.le_of_eq (Nat.mul_one _)
    | succ i ih =>
      have hratio : 2 * n ≤ 1 * ((k + i + 1) * d) := by
        rw [Nat.one_mul]
        exact h.trans (Nat.mul_le_mul_right _ (by omega))
      have hle := mul_term_succ_le (f := f) hratio
      rw [Nat.one_mul] at hle
      calc term f n d (k + i + 1) * 2 ^ (i + 1)
          = 2 * term f n d (k + i + 1) * 2 ^ i := by rw [Nat.pow_succ]; ac_rfl
        _ ≤ term f n d (k + i) * 2 ^ i := Nat.mul_le_mul_right _ hle
        _ ≤ term f n d k := ih
  intro j hj
  by_contra hne
  have hpos := Nat.le_mul_of_pos_left (2 ^ j) (Nat.pos_of_ne_zero hne)
  have := hhalf j
  omega

/-- The series ends. -/
theorem exists_term_zero (hden : 0 < d) : ∃ k, term f n d k = 0 := by
  refine ⟨2 * n + term f n d (2 * n), term_zero_of_halving ?_ Nat.lt_two_pow_self⟩
  exact (Nat.le_succ _).trans (Nat.le_mul_of_pos_right _ hden)

end

/-- The number of terms before the first zero. -/
def length (f n d : Nat) (hden : 0 < d) : Nat :=
  Nat.find (exists_term_zero (f := f) (n := n) hden)

/-- The sum of the terms, the denominator taken out again. -/
def exponential (f n d : Nat) (hden : 0 < d) : Nat :=
  partialSum f n d (length f n d hden) / d

section

variable {f n d : Nat}

theorem term_length (hden : 0 < d) :
    term f n d (length f n d hden) = 0 :=
  Nat.find_spec (exists_term_zero hden)

theorem term_ne_zero (hden : 0 < d) {k : Nat} (h : k < length f n d hden) :
    term f n d k ≠ 0 :=
  Nat.find_min (exists_term_zero hden) h

theorem length_le (hden : 0 < d) {k : Nat} (h : term f n d k = 0) :
    length f n d hden ≤ k :=
  Nat.find_min' _ h

theorem partialSum_mono {m k : Nat} (hle : m ≤ k) :
    partialSum f n d m ≤ partialSum f n d k := by
  induction k, hle using Nat.le_induction with
  | base => exact Nat.le_refl _
  | succ k _ ih => exact ih.trans (Nat.le_add_right _ _)

/-- Terms of at most `b` each. -/
theorem partialSum_add_le {b m : Nat} (h : ∀ k, term f n d k ≤ b) (j : Nat) :
    partialSum f n d (m + j) ≤ partialSum f n d m + j * b := by
  induction j with
  | zero => exact Nat.le_add_right _ _
  | succ j ih =>
    have hterm := h (m + j)
    rw [← Nat.add_assoc, partialSum, Nat.succ_mul]
    omega

/-! ## Terms below `2 ^ 256` -/

/-- Terms that grow for 256 rounds leave the bound, so the quotient is small and the terms vanish. -/
theorem term_zero_of_small (hden : 0 < d)
    (h : ∀ k < 1280, term f n d k * n < 2 ^ 256) : term f n d 1280 = 0 := by
  by_cases hnum : n < 512 * d
  · have hlt : term f n d 1024 < 2 ^ 256 := by
      by_cases hz : n = 0
      · refine (Nat.lt_of_le_of_lt (Nat.le_of_eq ?_) (by decide : 0 < 2 ^ 256))
        rw [term, hz, Nat.mul_zero, Nat.zero_div]
      · exact Nat.lt_of_le_of_lt (Nat.le_mul_of_pos_right _ (Nat.pos_of_ne_zero hz))
          (h 1024 (by decide))
    exact term_zero_of_halving (k := 1024) (j := 256) (by omega) hlt
  · have hpos : 0 < n := Nat.lt_of_lt_of_le (by omega) (Nat.not_lt.mp hnum)
    by_cases hzero : term f n d 0 = 0
    · exact term_zero_of_le hzero (Nat.zero_le _)
    have hgrow : ∀ k ≤ 256, 2 ^ k ≤ term f n d k := by
      intro k
      induction k with
      | zero => exact fun _ => Nat.pos_of_ne_zero hzero
      | succ k ih =>
        intro hk
        have hratio : 2 * ((k + 1) * d) ≤ n := by
          refine Nat.le_trans ?_ (Nat.not_lt.mp hnum)
          rw [← Nat.mul_assoc]
          exact Nat.mul_le_mul_right _ (by omega)
        have hle := mul_le_term_succ (f := f) hden hratio
        have := ih (by omega)
        rw [Nat.pow_succ]
        omega
    have hge := hgrow 256 (Nat.le_refl _)
    have hlt := h 256 (by decide)
    have := Nat.le_mul_of_pos_right (term f n d 256) hpos
    omega

/-- While the terms at least double, each one exceeds all that came before it. -/
theorem partialSum_le_term (hden : 0 < d) {k : Nat} (h : 2 * (k * d) ≤ n) :
    partialSum f n d k ≤ term f n d k := by
  induction k with
  | zero => exact Nat.zero_le _
  | succ k ih =>
    have hle := mul_le_term_succ (f := f) hden h
    have := ih (le_trans (Nat.mul_le_mul_left 2 (Nat.mul_le_mul_right d (Nat.le_succ k))) h)
    rw [partialSum]
    omega

/-- Where the terms lose a quarter, what is left of the sum is at most four times the next term. -/
theorem partialSum_add_tail {m : Nat} (h : 4 * n ≤ 3 * ((m + 1) * d)) (j : Nat) :
    partialSum f n d (m + j) + 4 * term f n d (m + j) ≤
      partialSum f n d m + 4 * term f n d m := by
  induction j with
  | zero => exact Nat.le_refl _
  | succ j ih =>
    have hratio : 4 * n ≤ 3 * ((m + j + 1) * d) :=
      h.trans (Nat.mul_le_mul_left 3 (Nat.mul_le_mul_right _ (by omega)))
    have hle := mul_term_succ_le (f := f) hratio
    rw [← Nat.add_assoc, partialSum]
    omega

/-- The terms grow up to `n / d`, stay below the bound `b` and then fall off: the sum is that
of at most `n` terms of size `b`. -/
theorem partialSum_le_mul {b : Nat} (hden : 0 < d) (hnum : 36 ≤ n)
    (h : ∀ k, term f n d k ≤ b) (k : Nat) : partialSum f n d k ≤ n * b := by
  have hrise : n / (2 * d) * (2 * d) ≤ n := Nat.div_mul_le_self _ _
  have hrise' := Nat.lt_div_mul_add (a := n) (b := 2 * d) (by omega)
  have hfall : 4 * n / (3 * d) * (3 * d) ≤ 4 * n := Nat.div_mul_le_self _ _
  have hfall' := Nat.lt_div_mul_add (a := 4 * n) (b := 3 * d) (by omega)
  generalize n / (2 * d) = rise at hrise hrise'
  generalize 4 * n / (3 * d) = fall at hfall hfall'
  rw [Nat.mul_left_comm] at hrise hrise' hfall hfall'
  have hmiddle : rise ≤ fall := by
    by_contra hcon
    have := Nat.mul_le_mul_right d (Nat.succ_le_of_lt (Nat.not_le.mp hcon))
    rw [Nat.succ_mul] at this
    omega
  obtain ⟨j, rfl⟩ := Nat.exists_eq_add_of_le hmiddle
  have hj : 5 + j ≤ n := by
    by_contra hcon
    have hJ := Nat.mul_le_mul_right d (show n ≤ j + 4 by omega)
    have hden' := Nat.mul_le_mul_right d hnum
    have hnum' := Nat.le_mul_of_pos_right n hden
    rw [Nat.add_mul] at hJ hfall hfall'
    omega
  have hgrow : partialSum f n d rise ≤ b :=
    (partialSum_le_term hden (by omega)).trans (h rise)
  have hflat := partialSum_add_le (m := rise) h j
  have htail := partialSum_add_tail (f := f) (n := n) (d := d) (m := rise + j)
    (by rw [Nat.add_mul (rise + j) 1]; omega) k
  have hmono := partialSum_mono (f := f) (n := n) (d := d)
    (Nat.le_add_left k (rise + j))
  have hlast := h (rise + j)
  calc partialSum f n d k ≤ (5 + j) * b := by
        rw [Nat.add_mul]
        omega
    _ ≤ n * b := Nat.mul_le_mul_right b hj

theorem term_mul_factorial_le (hden : 0 < d) (k : Nat) :
    term f n d k * k.factorial ≤ f * d * n ^ k := by
  induction k with
  | zero => exact Nat.le_refl _
  | succ k ih =>
    have hstep : term f n d (k + 1) * (k + 1) ≤ term f n d k * n := by
      refine Nat.le_trans ?_ (Nat.div_mul_le_self _ ((k + 1) * d))
      exact Nat.mul_le_mul_left _ (Nat.le_mul_of_pos_right _ hden)
    calc term f n d (k + 1) * (k + 1).factorial
        = term f n d (k + 1) * (k + 1) * k.factorial := by
          rw [Nat.factorial_succ, Nat.mul_assoc]
      _ ≤ term f n d k * n * k.factorial := Nat.mul_le_mul_right _ hstep
      _ = term f n d k * k.factorial * n := by ac_rfl
      _ ≤ f * d * n ^ k * n := Nat.mul_le_mul_right _ ih
      _ = f * d * n ^ (k + 1) := by rw [Nat.pow_succ, Nat.mul_assoc]

/-- For a small numerator the terms grow by a f of at most `2 ^ 70`. -/
theorem term_le_of_num_lt (hden : 0 < d) (hnum : n < 36) (k : Nat) :
    term f n d k ≤ f * d * 2 ^ 70 := by
  have hearly : ∀ k ≤ 36, term f n d k ≤ f * d * 2 ^ 70 := by
    intro k hk
    have hbound : ∀ k < 37, 36 ^ k ≤ 2 ^ 70 * k.factorial := by decide
    have hpow := (Nat.pow_le_pow_left (Nat.le_of_lt hnum) k).trans (hbound k (by omega))
    refine Nat.le_of_mul_le_mul_right ?_ k.factorial_pos
    calc term f n d k * k.factorial ≤ f * d * n ^ k :=
          term_mul_factorial_le hden k
      _ ≤ f * d * (2 ^ 70 * k.factorial) := Nat.mul_le_mul_left _ hpow
      _ = f * d * 2 ^ 70 * k.factorial := (Nat.mul_assoc _ _ _).symm
  by_cases hk : k ≤ 36
  · exact hearly k hk
  · obtain ⟨j, rfl⟩ := Nat.exists_eq_add_of_le (Nat.le_of_not_le hk)
    refine Nat.le_trans ?_ (hearly 36 (Nat.le_refl _))
    clear hk
    induction j with
    | zero => exact Nat.le_refl _
    | succ j ih =>
      have hratio : 1 * n ≤ 1 * ((36 + j + 1) * d) := by
        have := Nat.le_mul_of_pos_right (36 + j + 1) hden
        omega
      have hle := mul_term_succ_le (f := f) hratio
      rw [Nat.one_mul, Nat.one_mul] at hle
      exact hle.trans ih

/-- Terms whose product with `n` stays below `2 ^ 256` have sums below it. -/
theorem partialSum_lt (hden : 0 < d) (hscale : f * d < 2 ^ 128)
    (h : ∀ k, term f n d k * n < 2 ^ 256) (k : Nat) :
    partialSum f n d k < 2 ^ 256 := by
  by_cases hnum : n < 36
  · have hzero := term_zero_of_small hden fun k _ => h k
    have hsum := partialSum_add_le (m := 0) (term_le_of_num_lt (f := f) hden hnum) 1280
    have hall : partialSum f n d k ≤ partialSum f n d 1280 := by
      rcases Nat.le_total k 1280 with hk | hk
      · exact partialSum_mono hk
      · induction k, hk using Nat.le_induction with
        | base => exact Nat.le_refl _
        | succ k hk ih =>
          rw [partialSum, term_zero_of_le hzero hk]
          exact ih
    rw [partialSum, Nat.zero_add, Nat.zero_add] at hsum
    omega
  · have hpos : 0 < n := by omega
    have hterm : ∀ k, term f n d k ≤ (2 ^ 256 - 1) / n := fun k =>
      (Nat.le_div_iff_mul_le hpos).mpr (Nat.le_sub_one_of_lt (h k))
    have hle := partialSum_le_mul hden (Nat.not_lt.mp hnum) hterm k
    have := Nat.mul_div_le (2 ^ 256 - 1) n
    omega

end

end StatelessGuest.Lib.Taylor
