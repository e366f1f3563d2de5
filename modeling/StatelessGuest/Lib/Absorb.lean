import Mathlib.Data.List.Basic

/-!
# Absorbing a string block by block

A digest runs through a padded string in blocks of one size. A program runs through the blocks of
the string itself and then through those of the rest of it with the padding.

* `absorb`: the state after some blocks.
* `absorb_append`: a string in two parts, the first one made of whole blocks.
-/

namespace StatelessGuest.Lib

section

variable {σ α : Type}

/-- The state after the first `k` blocks of `size` symbols. -/
def absorb (step : σ → List α → σ) (size : Nat) : Nat → σ → List α → σ
  | 0, s, _ => s
  | k + 1, s, xs => absorb step size k (step s (xs.take size)) (xs.drop size)

variable {step : σ → List α → σ} {size k j : Nat} {s : σ} {xs ys : List α}

theorem absorb_append (h : xs.length = k * size) :
    absorb step size (k + j) s (xs ++ ys) = absorb step size j (absorb step size k s xs) ys := by
  induction k generalizing s xs with
  | zero =>
    rw [Nat.zero_mul, List.length_eq_zero_iff] at h
    rw [h, List.nil_append, Nat.zero_add, absorb]
  | succ k ih =>
    rw [Nat.succ_mul] at h
    rw [Nat.succ_add, absorb, absorb, List.take_append_of_le_length (by omega),
      List.drop_append_of_le_length (by omega), ih (by rw [List.length_drop]; omega)]

/-- What comes behind the blocks does not matter. -/
theorem absorb_prefix (h : k * size ≤ xs.length) :
    absorb step size k s (xs ++ ys) = absorb step size k s xs := by
  induction k generalizing s xs with
  | zero => rfl
  | succ k ih =>
    rw [Nat.succ_mul] at h
    rw [absorb, absorb, List.take_append_of_le_length (by omega),
      List.drop_append_of_le_length (by omega), ih (by rw [List.length_drop]; omega)]

/-- One more block. -/
theorem absorb_succ (h : (k + 1) * size ≤ xs.length) :
    absorb step size (k + 1) s xs =
      step (absorb step size k s xs) ((xs.drop (k * size)).take size) := by
  rw [Nat.succ_mul] at h
  have hsplit : absorb step size (k + 1) s (xs.take (k * size) ++ xs.drop (k * size)) =
      absorb step size 1 (absorb step size k s (xs.take (k * size))) (xs.drop (k * size)) :=
    absorb_append (by rw [List.length_take]; omega)
  have hfront : absorb step size k s (xs.take (k * size) ++ xs.drop (k * size)) =
      absorb step size k s (xs.take (k * size)) :=
    absorb_prefix (by rw [List.length_take]; omega)
  rw [List.take_append_drop] at hsplit hfront
  rw [hsplit, ← hfront]
  rfl

/-- What every block keeps. -/
theorem absorb_keeps (holds : σ → Prop)
    (hstep : ∀ s xs, holds s → xs.length = size → holds (step s xs)) (h : k * size ≤ xs.length)
    (hs : holds s) : holds (absorb step size k s xs) := by
  induction k generalizing s xs with
  | zero => exact hs
  | succ k ih =>
    rw [Nat.succ_mul] at h
    refine ih (by rw [List.length_drop]; omega) (hstep s _ hs ?_)
    rw [List.length_take]
    omega

/-- The whole blocks of a string, and then those of the rest of it with a padding. -/
theorem absorb_padded (step : σ → List α → σ) (s : σ) {size j : Nat} {xs ys : List α}
    (hsize : 0 < size) (hlen : ys.length = j * size - xs.length % size)
    (hj : xs.length % size ≤ j * size) :
    absorb step size ((xs ++ ys).length / size) s (xs ++ ys) =
      absorb step size j (absorb step size (xs.length / size) s xs)
        (xs.drop (xs.length / size * size) ++ ys) := by
  have hdiv := Nat.div_add_mod' xs.length size
  have hcount : (xs ++ ys).length / size = xs.length / size + j := by
    have htotal : (xs ++ ys).length = (xs.length / size + j) * size := by
      rw [List.length_append, Nat.add_mul]
      omega
    rw [htotal, Nat.mul_div_cancel _ hsize]
  have hsplit : xs ++ ys = xs.take (xs.length / size * size) ++
      (xs.drop (xs.length / size * size) ++ ys) := by
    rw [← List.append_assoc, List.take_append_drop]
  have hfront : (xs.take (xs.length / size * size)).length = xs.length / size * size := by
    rw [List.length_take]
    omega
  have hwhole : absorb step size (xs.length / size) s (xs.take (xs.length / size * size) ++
      xs.drop (xs.length / size * size)) =
        absorb step size (xs.length / size) s (xs.take (xs.length / size * size)) :=
    absorb_prefix (Nat.le_of_eq hfront.symm)
  rw [List.take_append_drop] at hwhole
  rw [hcount, hwhole, ← absorb_append hfront, ← hsplit]

end

end StatelessGuest.Lib
