import Mathlib.Algebra.Group.Nat.Defs
import Mathlib.Logic.Function.Basic
import Mathlib.Tactic.LinearCombination
import Mathlib.Tactic.Ring

/-!
# Numbers as digits

A number is given by its digits in a base, the least significant one first, as a function that is
read below a length.

* `value b f n`: the number with the digits `f 0, …, f (n - 1)`.
* `value_add`: the lower and the upper digits; `value_lt`: the digits are below the base.
* `value_shift`: digits that are moved with what they carry.
* `quotient_step`: a quotient digit that is at most one too large.
-/

namespace StatelessGuest.Lib.Digits

/-- The number with the digits `f 0, …, f (n - 1)`. -/
def value (b : Nat) (f : Nat → Nat) : Nat → Nat
  | 0 => 0
  | n + 1 => value b f n + f n * b ^ n

variable {b : Nat} {f g : Nat → Nat} {m n : Nat}

theorem value_congr (h : ∀ i < n, f i = g i) : value b f n = value b g n := by
  induction n with
  | zero => rfl
  | succ n ih => rw [value, value, ih fun i hi => h i (by omega), h n (by omega)]

theorem value_lt (h : ∀ i < n, f i < b) : value b f n < b ^ n := by
  induction n with
  | zero => exact Nat.one_pos
  | succ n ih =>
    have hlow := ih fun i hi => h i (by omega)
    have htop : (f n + 1) * b ^ n ≤ b * b ^ n := Nat.mul_le_mul_right _ (h n (by omega))
    rw [value, Nat.pow_succ']
    rw [Nat.succ_mul] at htop
    omega

/-- The lower digits and the upper ones. -/
theorem value_add (b : Nat) (f : Nat → Nat) (m n : Nat) :
    value b f (m + n) = value b f m + b ^ m * value b (fun i => f (m + i)) n := by
  induction n with
  | zero => rfl
  | succ n ih =>
    rw [← Nat.add_assoc, value, ih, value, Nat.pow_add]
    ring

theorem value_one (b : Nat) (f : Nat → Nat) : value b f 1 = f 0 := by
  rw [value, value, Nat.zero_add, Nat.pow_zero, Nat.mul_one]

theorem value_eq_zero (h : ∀ i < n, f i = 0) : value b f n = 0 := by
  induction n with
  | zero => rfl
  | succ n ih => rw [value, ih fun i hi => h i (by omega), h n (by omega), Nat.zero_mul]

/-- Digits that are zero do not count. -/
theorem value_of_zero_above (hmn : m ≤ n) (h : ∀ i, m ≤ i → i < n → f i = 0) :
    value b f n = value b f m := by
  obtain ⟨k, rfl⟩ := Nat.exists_eq_add_of_le hmn
  rw [value_add, value_eq_zero fun i hi => h (m + i) (by omega) (by omega), Nat.mul_zero,
    Nat.add_zero]

theorem value_mono (hmn : m ≤ n) : value b f m ≤ value b f n := by
  obtain ⟨k, rfl⟩ := Nat.exists_eq_add_of_le hmn
  rw [value_add]
  exact Nat.le_add_right _ _

/-- The top digit bounds the number from below. -/
theorem le_value (b : Nat) (f : Nat → Nat) (n : Nat) : f n * b ^ n ≤ value b f (n + 1) :=
  Nat.le_add_left _ _

/-- The top digit bounds the number from above. -/
theorem value_succ_lt (h : ∀ i < n, f i < b) : value b f (n + 1) < (f n + 1) * b ^ n := by
  have hlow := value_lt h
  rw [value, Nat.succ_mul]
  omega

/-- A digit is a part of the number. -/
theorem digit_eq (h : ∀ i < n, f i < b) {k : Nat} (hk : k < n) : f k = value b f n / b ^ k % b := by
  have hlow : value b f k < b ^ k := value_lt fun i hi => h i (by omega)
  obtain ⟨j, rfl⟩ : ∃ j, n = k + (1 + j) := ⟨n - k - 1, by omega⟩
  have hdigit := h k hk
  rw [value_add, value_add, value_one, Nat.add_zero, Nat.pow_one,
    Nat.add_mul_div_left _ _ (Nat.zero_lt_of_lt hlow), Nat.div_eq_of_lt hlow, Nat.zero_add,
    Nat.add_mul_mod_self_left, Nat.mod_eq_of_lt hdigit]

/-- A digit that is replaced. -/
theorem value_update {k : Nat} (hk : k < n) (w : Nat) :
    value b (Function.update f k w) n + f k * b ^ k = value b f n + w * b ^ k := by
  induction n with
  | zero => exact absurd hk (Nat.not_lt_zero k)
  | succ n ih =>
    rw [value, value]
    by_cases htop : k = n
    · subst htop
      rw [Function.update_self, value_congr fun i hi => Function.update_of_ne (by omega) _ _]
      omega
    · have hrest := ih (by omega)
      rw [Function.update_of_ne fun h => htop h.symm]
      omega

/-! ## Loops over the digits -/

/-- A loop that takes a digit of `f` and a digit of `g` times `q` and passes a carry on. -/
theorem value_carry {u v : Nat → Nat} {c : Nat → Nat} (q : Nat)
    (h : ∀ i < n, f i + q * v i + c i = u i + b * c (i + 1)) :
    value b f n + q * value b v n + c 0 = value b u n + c n * b ^ n := by
  induction n with
  | zero => rw [Nat.pow_zero]; simp only [value]; omega
  | succ n ih =>
    have hstep := h n (by omega)
    have hrest := ih fun i hi => h i (by omega)
    rw [value, value, value, Nat.pow_succ']
    linear_combination hrest + b ^ n * hstep

/-- Every digit takes in the carry of the one below and leaves a carry. -/
theorem value_shift {u c : Nat → Nat} {k : Nat} (h : ∀ i < n, f i + b * c (i + 1) = u i * k + c i) :
    value b f n + c n * b ^ n = value b u n * k + c 0 := by
  induction n with
  | zero => rw [Nat.pow_zero]; simp only [value]; omega
  | succ n ih =>
    have hstep := h n (by omega)
    have hrest := ih fun i hi => h i (by omega)
    rw [value, value, Nat.pow_succ']
    linear_combination hrest + b ^ n * hstep

/-- Every digit gives its lower part to the one below. -/
theorem value_unshift {u c : Nat → Nat} {k : Nat} (h : ∀ i < n, f i * k + c i = u i + b * c (i + 1)) :
    value b f n * k + c 0 = value b u n + c n * b ^ n := by
  induction n with
  | zero => rw [Nat.pow_zero]; simp only [value]; omega
  | succ n ih =>
    have hstep := h n (by omega)
    have hrest := ih fun i hi => h i (by omega)
    rw [value, value, Nat.pow_succ']
    linear_combination hrest + b ^ n * hstep

/-! ## A quotient digit -/

/-- An estimate from the leading digits `w` of a divisor `v` and `t` of a dividend `u`, of the same
weight `p`, is at most one too large. -/
theorem quotient_step {u v q t w p : Nat} (ht : t * p ≤ u) (hw : v < (w + 1) * p)
    (hq : q * w ≤ t) (hp : q * p ≤ v) : (q - 1) * v ≤ u := by
  cases q with
  | zero => rw [Nat.zero_sub, Nat.zero_mul]; exact Nat.zero_le u
  | succ q =>
    rw [Nat.add_sub_cancel]
    have hmul : (q + 1) * v ≤ (q + 1) * ((w + 1) * p) := Nat.mul_le_mul_left _ (Nat.le_of_lt hw)
    have hle : (q + 1) * w * p ≤ t * p := Nat.mul_le_mul_right _ hq
    have hsplit : (q + 1) * ((w + 1) * p) = (q + 1) * w * p + (q + 1) * p := by ring
    have hsucc : (q + 1) * v = q * v + v := Nat.succ_mul q v
    omega

/-- An estimate above what the leading digits allow is too large. -/
theorem lt_quotient_of_lt {u v q t w p : Nat} (hu : u < (t + 1) * p) (hv : w * p ≤ v)
    (hlt : t < q * w) : u < q * v := by
  have hmul : q * (w * p) ≤ q * v := Nat.mul_le_mul_left _ hv
  have hle : (t + 1) * p ≤ q * w * p := Nat.mul_le_mul_right _ hlt
  rw [← Nat.mul_assoc] at hmul
  omega

end StatelessGuest.Lib.Digits
