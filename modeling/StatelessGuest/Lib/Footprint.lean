import Mathlib.Data.Set.Insert
import StatelessGuest.Lib.Arena

/-!
# Footprints in an arena

An operation on one of several linked structures in an arena changes records of that structure and
allocates new ones. The pointers to the records that it may change are its footprint.

* `Changes`: what lies outside of a footprint is kept.
* `Renewed`: the footprint of the structure afterwards consists of old and of new records.
* `release`, `release_of_changes`: new records are given back.
-/

namespace StatelessGuest.Lib.Arena

variable {α : Type} [Inhabited α] {S S' : Set Nat} {a b c : Arena α} {p : Nat}

/-- Records are added, and of those that were there only some in `S` are changed. -/
structure Changes (S : Set Nat) (a b : Arena α) : Prop where
  next_le : a.next ≤ b.next
  same : ∀ p, a.Valid p → p ∉ S → b.load p = a.load p

theorem Changes.valid (h : Changes S a b) (hp : a.Valid p) : b.Valid p :=
  Nat.lt_of_lt_of_le hp h.next_le

theorem Changes.refl (S : Set Nat) (a : Arena α) : Changes S a a :=
  ⟨Nat.le_refl _, fun _ _ _ => rfl⟩

theorem Changes.mono (h : Changes S a b) (hsub : S ⊆ S') : Changes S' a b :=
  ⟨h.next_le, fun p hp hne => h.same p hp fun h => hne (hsub h)⟩

theorem changes_alloc (S : Set Nat) (a : Arena α) (x : α) : Changes S a (a.alloc x) :=
  ⟨by rw [next_alloc]; exact Nat.le_succ _, fun _ hp _ => load_alloc_of_valid hp x⟩

theorem changes_store (hp : p ∈ S) (a : Arena α) (x : α) : Changes S a (a.store p x) := by
  refine ⟨Nat.le_of_eq (next_store a p x).symm, fun q _ hq => load_store_of_ne ?_ x⟩
  rintro rfl
  exact hq hp

/-- The pointers in `S'` are in `S` or new. -/
def Renewed (a : Arena α) (S S' : Set Nat) : Prop := ∀ p ∈ S', p ∈ S ∨ ¬ a.Valid p

omit [Inhabited α] in
theorem Renewed.refl (a : Arena α) (S : Set Nat) : Renewed a S S := fun _ => .inl

omit [Inhabited α] in
theorem renewed_of_subset (h : S' ⊆ S) : Renewed a S S' := fun _ hp => .inl (h hp)

theorem Renewed.trans {T : Set Nat} (h : Renewed a S S') (hab : Changes S a b)
    (h' : Renewed b S' T) : Renewed a S T := by
  intro p hp
  rcases h' p hp with hp | hp
  · exact h p hp
  · exact .inr fun ha => hp (hab.valid ha)

/-- A change within a footprint, then one within what the footprint has become. -/
theorem Changes.trans (h : Changes S a b) (hren : Renewed a S S') (h' : Changes S' b c) :
    Changes S a c := by
  refine ⟨Nat.le_trans h.next_le h'.next_le, fun p hp hne => ?_⟩
  rw [h'.same p (h.valid hp) fun hp' => (hren p hp').elim hne (absurd hp), h.same p hp hne]

theorem Changes.trans_self (h : Changes S a b) (h' : Changes S b c) : Changes S a c :=
  h.trans (.refl a S) h'

omit [Inhabited α] in
/-- What is disjoint from the footprint stays disjoint from it. -/
theorem Renewed.not_mem (h : Renewed a S S') (hp : a.Valid p) (hne : p ∉ S) : p ∉ S' :=
  fun hp' => (h p hp').elim hne (absurd hp)

theorem store_load_self (a : Arena α) (p : Nat) : a.store p (a.load p) = a := by
  unfold store load
  rw [List.getD_eq_getElem?_getD]
  cases h : a.cells[p]? with
  | none => rw [List.set_eq_of_length_le (List.getElem?_eq_none_iff.mp h)]
  | some x =>
    obtain ⟨hp, rfl⟩ := List.getElem?_eq_some_iff.mp h
    rw [Option.getD_some, List.set_getElem_self]

/-- Give back what was allocated since the next pointer was `mark`. -/
def release (a : Arena α) (mark : Nat) : Arena α := ⟨a.cells.take mark⟩

/-- When no old record was changed, giving the new ones back undoes everything. -/
theorem release_of_changes (h : Changes ∅ a b) : b.release a.next = a := by
  have hcells : b.cells.take a.next = a.cells := by
    refine List.ext_getElem ?_ fun p hp hp' => ?_
    · rw [List.length_take]
      exact Nat.min_eq_left h.next_le
    · have hsame := h.same p hp' (Set.notMem_empty p)
      have hb : p < b.cells.length := Nat.lt_of_lt_of_le hp' h.next_le
      unfold load at hsame
      rw [List.getD_eq_getElem?_getD, List.getD_eq_getElem?_getD, List.getElem?_eq_getElem hb,
        List.getElem?_eq_getElem hp', Option.getD_some, Option.getD_some] at hsame
      rw [List.getElem_take, hsame]
  exact congrArg Arena.mk hcells

end StatelessGuest.Lib.Arena
