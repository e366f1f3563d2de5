import Mathlib.Order.Lattice

/-!
# Merging runs by a key

A list is cut into runs of one width. A pass merges neighbouring runs, and the width doubles.

* `SortedBy`, `Runs`: sorted by a key, as a whole and in runs.
* `Passes`: the result of a pass; `Passes.runs`, `Passes.perm`, `Passes.filter`.
* `StableSort`: a sorted permutation that keeps the order of the elements with equal keys.
-/

namespace StatelessGuest.Lib

variable {α β : Type} [LinearOrder β] {key : α → β}

def SortedBy (key : α → β) (xs : List α) : Prop := xs.Pairwise fun x y => key x ≤ key y

/-- Elements of the first list come first among equal keys. -/
def mergeBy (key : α → β) (xs ys : List α) : List α :=
  List.merge xs ys fun x y => decide (key x ≤ key y)

/-- Every run of `w` elements is sorted, and so is the one that is left. -/
def Runs (key : α → β) (w : Nat) (xs : List α) : Prop :=
  ∀ i, SortedBy key ((xs.drop (i * w)).take w)

/-- The runs of `w` elements are merged in pairs. -/
inductive Passes (key : α → β) (w : Nat) : List α → List α → Prop where
  | nil : Passes key w [] []
  | step {xs ys : List α} (h : Passes key w (xs.drop (2 * w)) ys) :
      Passes key w xs (mergeBy key (xs.take w) ((xs.drop w).take w) ++ ys)

/-- A sorted permutation, with equal keys in the order they had. -/
structure StableSort (key : α → β) (xs ys : List α) : Prop where
  perm : ys.Perm xs
  sorted : SortedBy key ys
  stable : ∀ k, ys.filter (fun x => key x = k) = xs.filter (fun x => key x = k)

/-! ## One merge -/

variable {xs ys : List α} {w : Nat}

theorem mergeBy_nil_left (key : α → β) (ys : List α) : mergeBy key [] ys = ys :=
  List.nil_merge ys

theorem mergeBy_nil_right (key : α → β) (xs : List α) : mergeBy key xs [] = xs :=
  List.merge_right xs

theorem mergeBy_perm (key : α → β) (xs ys : List α) : (mergeBy key xs ys).Perm (xs ++ ys) :=
  List.merge_perm_append _

theorem mergeBy_sorted (hx : SortedBy key xs) (hy : SortedBy key ys) :
    SortedBy key (mergeBy key xs ys) := by
  have hle : ∀ {zs : List α}, SortedBy key zs ↔
      zs.Pairwise fun x y => decide (key x ≤ key y) = true := by
    intro zs
    simp only [SortedBy, decide_eq_true_eq]
  rw [hle] at hx hy ⊢
  apply List.pairwise_merge
  · intro a b c hab hbc
    rw [decide_eq_true_eq] at hab hbc ⊢
    exact le_trans hab hbc
  · intro a b
    rw [Bool.or_eq_true, decide_eq_true_eq, decide_eq_true_eq]
    exact le_total _ _
  · exact hx
  · exact hy

/-- The elements with one key, those of the first list first. -/
theorem mergeBy_filter (hx : SortedBy key xs) (hy : SortedBy key ys) (k : β) :
    (mergeBy key xs ys).filter (fun x => key x = k) =
      xs.filter (fun x => key x = k) ++ ys.filter (fun x => key x = k) := by
  induction xs generalizing ys with
  | nil => rw [mergeBy_nil_left, List.filter_nil, List.nil_append]
  | cons x xs ihx =>
    induction ys with
    | nil => rw [mergeBy_nil_right, List.filter_nil, List.append_nil]
    | cons y ys ihy =>
      have hx' := List.pairwise_cons.mp hx
      have hy' := List.pairwise_cons.mp hy
      unfold mergeBy at ihx ihy ⊢
      rw [List.cons_merge_cons]
      split
      · rw [List.filter_cons, ihx hx'.2 hy, @List.filter_cons _ x xs]
        split
        · rw [List.cons_append]
        · rfl
      · next hgt =>
        rw [decide_eq_true_eq, not_le] at hgt
        rw [List.filter_cons, ihy hy'.2, @List.filter_cons _ y ys]
        split
        · next hk =>
          -- no element of the first list has the smaller key
          have hnone : (x :: xs).filter (fun x => key x = k) = [] := by
            rw [List.filter_eq_nil_iff]
            intro z hz
            rw [decide_eq_true_eq] at hk ⊢
            have hle : key x ≤ key z := by
              rcases List.mem_cons.mp hz with rfl | hz
              · exact le_refl _
              · exact hx'.1 z hz
            intro heq
            exact absurd (lt_of_lt_of_le hgt hle) (hk ▸ heq ▸ lt_irrefl _)
          rw [hnone, List.nil_append, List.nil_append]
        · rfl

/-! ## One pass -/

theorem Runs.drop (h : Runs key w xs) : Runs key w (xs.drop (2 * w)) := by
  intro i
  rw [List.drop_drop, show 2 * w + i * w = (i + 2) * w by rw [Nat.add_mul, Nat.add_comm]]
  exact h (i + 2)

theorem Runs.first (h : Runs key w xs) : SortedBy key (xs.take w) := by
  have h0 := h 0
  rwa [Nat.zero_mul, List.drop_zero] at h0

theorem Runs.second (h : Runs key w xs) : SortedBy key ((xs.drop w).take w) := by
  have h1 := h 1
  rwa [Nat.one_mul] at h1

/-- A pair of runs and what is behind it. -/
theorem take_append_pair (xs : List α) (w : Nat) :
    xs.take w ++ (xs.drop w).take w ++ xs.drop (2 * w) = xs := by
  rw [Nat.two_mul, ← List.drop_drop, List.append_assoc, List.take_append_drop,
    List.take_append_drop]

theorem Passes.perm (h : Passes key w xs ys) : ys.Perm xs := by
  induction h with
  | nil => exact .refl _
  | @step xs ys _ ih =>
    have hall := (mergeBy_perm key (xs.take w) ((xs.drop w).take w)).append ih
    rwa [take_append_pair] at hall

theorem Passes.filter (h : Passes key w xs ys) (hruns : Runs key w xs) (k : β) :
    ys.filter (fun x => key x = k) = xs.filter (fun x => key x = k) := by
  induction h with
  | nil => rfl
  | @step xs ys _ ih =>
    rw [List.filter_append, mergeBy_filter hruns.first hruns.second, ih hruns.drop,
      ← List.filter_append, ← List.filter_append, take_append_pair]

/-- The runs are twice as long. -/
theorem Passes.runs (h : Passes key w xs ys) (hruns : Runs key w xs) : Runs key (2 * w) ys := by
  induction h with
  | nil =>
    intro i
    rw [List.drop_nil, List.take_nil]
    exact .nil
  | @step xs ys h ih =>
    have hsorted := mergeBy_sorted hruns.first hruns.second
    have hlen := (mergeBy_perm key (xs.take w) ((xs.drop w).take w)).length_eq
    rw [List.length_append, List.length_take, List.length_take, List.length_drop] at hlen
    have hrest := h.perm.length_eq
    rw [List.length_drop] at hrest
    intro i
    by_cases hle : xs.length ≤ 2 * w
    · obtain rfl : ys = [] := List.eq_nil_of_length_eq_zero (by omega)
      rw [List.append_nil]
      exact hsorted.sublist ((List.take_sublist _ _).trans (List.drop_sublist _ _))
    · have hfull : (mergeBy key (xs.take w) ((xs.drop w).take w)).length = 2 * w := by omega
      cases i with
      | zero =>
        rw [Nat.zero_mul, List.drop_zero, List.take_left' hfull]
        exact hsorted
      | succ i =>
        rw [Nat.succ_mul i (2 * w), Nat.add_comm, ← List.drop_drop, List.drop_left' hfull]
        exact ih hruns.drop i

/-! ## Until one run is left -/

theorem runs_one (key : α → β) (xs : List α) : Runs key 1 xs := by
  intro i
  rw [SortedBy]
  rcases hcase : (xs.drop (i * 1)).take 1 with _ | ⟨x, tail⟩
  · exact .nil
  · have hlen := congrArg List.length hcase
    rw [List.length_take, List.length_cons] at hlen
    obtain rfl : tail = [] := List.eq_nil_of_length_eq_zero (by omega)
    exact List.pairwise_singleton _ x

theorem Runs.sorted (h : Runs key w xs) (hlen : xs.length ≤ w) : SortedBy key xs := by
  have hfirst := h.first
  rwa [List.take_of_length_le hlen] at hfirst

end StatelessGuest.Lib
