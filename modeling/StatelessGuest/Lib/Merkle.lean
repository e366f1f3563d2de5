import Mathlib.Algebra.Group.Nat.Defs
import Mathlib.Data.List.Basic

/-!
# Merkle trees

Roots of complete binary trees over a list of leaves, padded with one more leaf, for any way of
combining two nodes.

* `root d xs`: the root of the tree of depth `d`; `zeroRoot d`: the one without leaves.
* `root_pairs`: the lowest level may be combined first.
* `root_of_le`: the leaves lie in the left half.
* `progressiveRoot k xs`: a chain of trees with `4 ^ k`, `4 ^ (k + 1)`, … leaves.
-/

namespace StatelessGuest.Lib.Merkle

variable {α : Type} (H : α → α → α) (z : α)

/-- The root of a tree whose leaves are all `z`. -/
def zeroRoot : Nat → α
  | 0 => z
  | d + 1 => H (zeroRoot d) (zeroRoot d)

/-- The root of the tree of depth `d` with the leaves `xs`, padded with `z`. -/
def root : Nat → List α → α
  | 0, xs => xs.headD z
  | d + 1, xs => H (root d (xs.take (2 ^ d))) (root d (xs.drop (2 ^ d)))

/-- Neighbours combined. -/
def pairs : List α → List α
  | a :: b :: xs => H a b :: pairs xs
  | _ => []

/-- The root of a tree with `4 ^ k` leaves, combined with what is left in wider trees. -/
def progressiveRoot (k : Nat) (xs : List α) : α :=
  if h : xs = [] then z
  else H (root H z (2 * k) (xs.take (4 ^ k))) (progressiveRoot (k + 1) (xs.drop (4 ^ k)))
termination_by xs.length
decreasing_by
  have hlen := List.length_pos_of_ne_nil h
  have hpow : 0 < 4 ^ k := Nat.pow_pos (by decide)
  rw [List.length_drop]
  omega

variable {H z} {xs : List α} {d k : Nat}

theorem root_nil (d : Nat) : root H z d [] = zeroRoot H z d := by
  induction d with
  | zero => rfl
  | succ d ih => rw [root, List.take_nil, List.drop_nil, ih, zeroRoot]

/-- The leaves lie in the left half. -/
theorem root_of_le (h : xs.length ≤ 2 ^ d) :
    root H z (d + 1) xs = H (root H z d xs) (zeroRoot H z d) := by
  rw [root, List.take_of_length_le h, List.drop_eq_nil_of_le h, root_nil]

theorem root_append_replicate (d n : Nat) (xs : List α) :
    root H z d (xs ++ List.replicate n z) = root H z d xs := by
  induction d generalizing xs n with
  | zero =>
    cases xs with
    | nil => cases n <;> rfl
    | cons x xs => rfl
  | succ d ih =>
    rw [root, root, List.take_append, List.drop_append, List.take_replicate, List.drop_replicate,
      ih, ih]

/-! ## The lowest level -/

theorem pairs_take (k : Nat) (xs : List α) : pairs H (xs.take (2 * k)) = (pairs H xs).take k := by
  induction k generalizing xs with
  | zero => rfl
  | succ k ih =>
    rw [Nat.mul_succ]
    cases xs with
    | nil => rfl
    | cons a xs =>
      cases xs with
      | nil => rfl
      | cons b xs =>
        rw [List.take_succ_cons, List.take_succ_cons, pairs, pairs, List.take_succ_cons, ih]

theorem pairs_drop (k : Nat) (xs : List α) : pairs H (xs.drop (2 * k)) = (pairs H xs).drop k := by
  induction k generalizing xs with
  | zero => rfl
  | succ k ih =>
    rw [Nat.mul_succ]
    cases xs with
    | nil => rfl
    | cons a xs =>
      cases xs with
      | nil =>
        rw [List.drop_eq_nil_of_le (by rw [List.length_singleton]; omega)]
        rfl
      | cons b xs =>
        rw [List.drop_succ_cons, List.drop_succ_cons, pairs, List.drop_succ_cons, ih]

theorem length_pairs (h : xs.length = 2 * k) : (pairs H xs).length = k := by
  induction k generalizing xs with
  | zero =>
    rw [List.length_eq_zero_iff.mp h]
    rfl
  | succ k ih =>
    obtain ⟨a, b, rest, rfl⟩ : ∃ a b rest, xs = a :: b :: rest := by
      cases xs with
      | nil => cases h
      | cons a xs =>
        cases xs with
        | nil => rw [List.length_singleton] at h; omega
        | cons b rest => exact ⟨a, b, rest, rfl⟩
    rw [pairs, List.length_cons, ih]
    rw [List.length_cons, List.length_cons] at h
    omega

theorem getElem?_pairs {i : Nat} {a b : α} (ha : xs[2 * i]? = some a) (hb : xs[2 * i + 1]? = some b) :
    (pairs H xs)[i]? = some (H a b) := by
  have hdrop : ∃ rest, xs.drop (2 * i) = a :: b :: rest := by
    refine ⟨xs.drop (2 * i + 2), ?_⟩
    refine List.ext_getElem? fun j => ?_
    rw [List.getElem?_drop]
    cases j with
    | zero => exact ha
    | succ j =>
      cases j with
      | zero => exact hb
      | succ j =>
        rw [List.getElem?_cons_succ, List.getElem?_cons_succ, List.getElem?_drop]
        congr 1
        omega
  obtain ⟨rest, hrest⟩ := hdrop
  have hpairs := congrArg (pairs H) hrest
  rw [pairs_drop, pairs] at hpairs
  have hget : ((pairs H xs).drop i)[0]? = some (H a b) := by rw [hpairs]; rfl
  rwa [List.getElem?_drop, Nat.add_zero] at hget

/-- The lowest level is combined first. -/
theorem root_pairs (h : xs.length = 2 ^ (d + 1)) : root H z (d + 1) xs = root H z d (pairs H xs) := by
  induction d generalizing xs with
  | zero =>
    obtain ⟨a, b, rfl⟩ := List.length_eq_two.mp h
    rfl
  | succ d ih =>
    have hpow : 2 ^ (d + 2) = 2 * 2 ^ (d + 1) := Nat.pow_succ'
    have hpow' : 2 ^ (d + 1) = 2 * 2 ^ d := Nat.pow_succ'
    rw [root, ih (by rw [List.length_take]; omega), ih (by rw [List.length_drop]; omega), hpow',
      pairs_take, pairs_drop, root]

/-! ## Chains of trees -/

theorem progressiveRoot_nil (k : Nat) : progressiveRoot H z k [] = z := by
  rw [progressiveRoot, dif_pos rfl]

theorem progressiveRoot_of_ne_nil (h : xs ≠ []) : progressiveRoot H z k xs =
    H (root H z (2 * k) (xs.take (4 ^ k))) (progressiveRoot H z (k + 1) (xs.drop (4 ^ k))) := by
  rw [progressiveRoot, dif_neg h]

end StatelessGuest.Lib.Merkle
