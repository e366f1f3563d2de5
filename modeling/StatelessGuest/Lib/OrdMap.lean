import Mathlib.Data.List.Nodup
import Mathlib.Data.List.Perm.Basic
import Mathlib.Data.List.Lemmas
import Mathlib.Logic.Function.Iterate

/-!
# Finite maps with an iteration order

A finite map kept as the list of its bindings in iteration order. `set` updates a present
key in place and appends a new one. `del` moves the last binding into the place of the
deleted one, so deletion reorders; deleting the last binding only shortens the list, which
is why `truncate` undoes the latest insertions.

* `get_set`, `get_del`: the operations as updates of the lookup function.
* `get_eq_some`: lookups are membership in the binding list.
* `entries_truncate`: truncation is a prefix of the binding list.
-/

namespace StatelessGuest.Lib

/-! ## Moving the last element into a hole -/

/-- Remove position `i`, moving the last element into it. -/
def swapRemove {α : Type} (l : List α) (i : Nat) : List α :=
  match l.getLast? with
  | none => []
  | some z => (l.set i z).dropLast

theorem swapRemove_append {α : Type} (l : List α) (z : α) (i : Nat) :
    swapRemove (l ++ [z]) i = if i < l.length then l.set i z else l := by
  unfold swapRemove
  simp only [List.getLast?_append, List.getLast?_singleton, Option.some_or]
  split
  · next hi => rw [List.set_append_left _ _ hi, List.dropLast_concat]
  · next hi =>
    rw [List.set_append_right _ _ (by omega)]
    cases i - l.length <;> simp

theorem swapRemove_perm {α : Type} {l : List α} {i : Nat} (hi : i < l.length) :
    (swapRemove l i).Perm (l.eraseIdx i) := by
  obtain ⟨init, z, rfl⟩ : ∃ init z, l = init ++ [z] :=
    ⟨l.dropLast, l.getLast (List.ne_nil_of_length_pos (by omega)),
      (List.dropLast_append_getLast _).symm⟩
  rw [swapRemove_append]
  split
  · next hlt =>
    rw [List.eraseIdx_append_of_lt_length hlt, List.set_eq_take_append_cons_drop, if_pos hlt,
      List.eraseIdx_eq_take_drop_succ, List.append_assoc]
    exact (List.perm_append_singleton z _).symm.append_left _
  · next hge =>
    have : i = init.length := by simp at hi; omega
    subst this
    rw [List.eraseIdx_append_of_length_le le_rfl]
    simp

/-! ## The map -/

/-- Bindings in iteration order, each key once. -/
structure OrdMap (κ ν : Type) where
  entries : List (κ × ν)
  nodup : (entries.map Prod.fst).Nodup

namespace OrdMap

variable {κ ν : Type}

@[ext] theorem ext {m n : OrdMap κ ν} (h : m.entries = n.entries) : m = n := by
  cases m; cases n; cases h; rfl

instance [DecidableEq κ] [DecidableEq ν] : DecidableEq (OrdMap κ ν) := fun m n =>
  decidable_of_iff (m.entries = n.entries) ⟨ext, fun h => h ▸ rfl⟩

/-- The map without bindings. -/
def empty : OrdMap κ ν := ⟨[], List.nodup_nil⟩

instance : Inhabited (OrdMap κ ν) := ⟨empty⟩

/-- The number of bindings. -/
def count (m : OrdMap κ ν) : Nat := m.entries.length

/-- The keys in iteration order. -/
def keys (m : OrdMap κ ν) : List κ := m.entries.map Prod.fst

section Lookup

variable [DecidableEq κ]

/-- The position of a key. -/
def findSlot (m : OrdMap κ ν) (k : κ) : Nat := m.entries.findIdx (fun e => e.1 = k)

/-- The value bound to a key. -/
def get (m : OrdMap κ ν) (k : κ) : Option ν := (m.entries.find? (fun e => e.1 = k)).map Prod.snd

/-- Whether a key is bound. -/
def has (m : OrdMap κ ν) (k : κ) : Bool := (m.get k).isSome

theorem get_eq_some {m : OrdMap κ ν} {k : κ} {v : ν} :
    m.get k = some v ↔ (k, v) ∈ m.entries := by
  obtain ⟨es, hes⟩ := m
  unfold get
  induction es with
  | nil => simp
  | cons e es ih =>
    obtain ⟨hnot, hrest⟩ := List.nodup_cons.mp hes
    obtain ⟨k', v'⟩ := e
    by_cases hk : k' = k
    · subst hk
      have : (k', v) ∉ es := fun h => hnot (List.mem_map.mpr ⟨_, h, rfl⟩)
      simp [this, eq_comm]
    · have hk' : ¬ k = k' := fun h => hk h.symm
      simp only [List.find?_cons, hk, decide_false, List.mem_cons, Prod.mk.injEq, hk', false_and,
        false_or]
      exact ih hrest

theorem get_eq_none {m : OrdMap κ ν} {k : κ} : m.get k = none ↔ k ∉ m.keys := by
  simp only [get, Option.map_eq_none_iff, List.find?_eq_none, keys, List.mem_map,
    decide_eq_true_eq, not_exists, not_and, Prod.forall]

theorem get_isSome {m : OrdMap κ ν} {k : κ} : (m.get k).isSome ↔ k ∈ m.keys := by
  rw [← not_iff_not, ← get_eq_none]
  simp

theorem has_eq_true {m : OrdMap κ ν} {k : κ} : m.has k = true ↔ k ∈ m.keys := get_isSome

@[simp] theorem get_empty (k : κ) : (empty : OrdMap κ ν).get k = none := rfl

@[simp] theorem has_empty (k : κ) : (empty : OrdMap κ ν).has k = false := rfl

theorem get_congr {m n : OrdMap κ ν} (h : ∀ e, e ∈ m.entries ↔ e ∈ n.entries) (k : κ) :
    m.get k = n.get k := by
  refine Option.ext fun v => ?_
  rw [get_eq_some, get_eq_some, h]

/-! ## Insertion -/

/-- The bindings after `k` is bound to `v`. -/
def setEntries (es : List (κ × ν)) (k : κ) (v : ν) : List (κ × ν) :=
  if k ∈ es.map Prod.fst then es.map (fun e => if e.1 = k then (k, v) else e) else es ++ [(k, v)]

theorem keys_setEntries (es : List (κ × ν)) (k : κ) (v : ν) :
    (setEntries es k v).map Prod.fst =
      if k ∈ es.map Prod.fst then es.map Prod.fst else es.map Prod.fst ++ [k] := by
  unfold setEntries
  split
  · rw [List.map_map]
    refine List.map_congr_left fun e _ => ?_
    by_cases h : e.1 = k <;> simp [h]
  · simp

/-- Bind `k` to `v`: in place when present, at the end otherwise. -/
def set (m : OrdMap κ ν) (k : κ) (v : ν) : OrdMap κ ν where
  entries := setEntries m.entries k v
  nodup := by
    rw [keys_setEntries]
    split
    · exact m.nodup
    · next h =>
      refine List.nodup_append.mpr ⟨m.nodup, List.nodup_singleton k, ?_⟩
      intro a ha b hb hab
      rw [List.mem_singleton] at hb
      exact h (hb ▸ hab ▸ ha)

theorem entries_set_of_notMem {m : OrdMap κ ν} {k : κ} (v : ν) (h : k ∉ m.keys) :
    (m.set k v).entries = m.entries ++ [(k, v)] := if_neg h

/-- An update in place. -/
theorem entries_set_of_getElem {m : OrdMap κ ν} {k : κ} {v w : ν} {j : Nat}
    (h : m.entries[j]? = some (k, w)) : (m.set k v).entries = m.entries.set j (k, v) := by
  obtain ⟨hj, hk⟩ := List.getElem?_eq_some_iff.mp h
  have hmem : k ∈ m.entries.map Prod.fst :=
    List.mem_map.mpr ⟨(k, w), hk ▸ List.getElem_mem hj, rfl⟩
  change setEntries m.entries k v = _
  rw [setEntries, if_pos hmem]
  apply List.ext_getElem
  · rw [List.length_map, List.length_set]
  · intro i h₁ h₂
    rw [List.length_map] at h₁
    rw [List.getElem_map, List.getElem_set]
    have hiff : m.entries[i].1 = k ↔ j = i := by
      constructor
      · intro hi
        refine (@List.Nodup.getElem_inj_iff _ _ m.nodup j (by simpa using hj) i
          (by simpa using h₁)).mp ?_
        simp [hi, hk]
      · rintro rfl
        rw [hk]
    simp only [hiff]

theorem mem_entries_set {m : OrdMap κ ν} {k : κ} {v : ν} {e : κ × ν} :
    e ∈ (m.set k v).entries ↔ e = (k, v) ∨ (e ∈ m.entries ∧ e.1 ≠ k) := by
  obtain ⟨k', v'⟩ := e
  simp only [set, setEntries]
  split
  · next h =>
    obtain ⟨⟨k₀, v₀⟩, h₀, rfl⟩ := List.mem_map.mp h
    simp only [List.mem_map]
    constructor
    · rintro ⟨⟨a, b⟩, hab, heq⟩
      by_cases ha : a = k₀
      · simp only [ha, if_true] at heq
        exact .inl heq.symm
      · simp only [ha, if_false] at heq
        cases heq
        exact .inr ⟨hab, ha⟩
    · rintro (h | ⟨hmem, hne⟩)
      · exact ⟨(k₀, v₀), h₀, by simp [h]⟩
      · exact ⟨(k', v'), hmem, by simp [hne]⟩
  · next h =>
    simp only [List.mem_append, List.mem_singleton]
    constructor
    · rintro (hmem | heq)
      · exact .inr ⟨hmem, fun hk => h (hk ▸ List.mem_map.mpr ⟨_, hmem, rfl⟩)⟩
      · exact .inl heq
    · rintro (heq | ⟨hmem, _⟩)
      · exact .inr heq
      · exact .inl hmem

theorem get_set (m : OrdMap κ ν) (k k' : κ) (v : ν) :
    (m.set k v).get k' = if k' = k then some v else m.get k' := by
  refine Option.ext fun w => ?_
  rw [get_eq_some, mem_entries_set]
  split
  · next h => simp [h, eq_comm]
  · next h => simp [h, get_eq_some]

@[simp] theorem get_set_self (m : OrdMap κ ν) (k : κ) (v : ν) : (m.set k v).get k = some v := by
  simp [get_set]

theorem get_set_of_ne {m : OrdMap κ ν} {k k' : κ} {v : ν} (h : k' ≠ k) :
    (m.set k v).get k' = m.get k' := by
  simp [get_set, h]

theorem has_set (m : OrdMap κ ν) (k k' : κ) (v : ν) :
    (m.set k v).has k' = (decide (k' = k) || m.has k') := by
  unfold has
  rw [get_set]
  split <;> simp [*]

theorem keys_set (m : OrdMap κ ν) (k : κ) (v : ν) :
    (m.set k v).keys = if k ∈ m.keys then m.keys else m.keys ++ [k] :=
  keys_setEntries m.entries k v

/-! ## Deletion -/

omit [DecidableEq κ] in
theorem entries_swapRemove_nodup (m : OrdMap κ ν) {i : Nat} (hi : i < m.entries.length) :
    ((swapRemove m.entries i).map Prod.fst).Nodup := by
  rw [((swapRemove_perm hi).map Prod.fst).nodup_iff]
  exact m.nodup.sublist ((List.eraseIdx_sublist _ _).map _)

/-- Unbind `k`, moving the last binding into its place. -/
def del (m : OrdMap κ ν) (k : κ) : OrdMap κ ν :=
  if h : m.findSlot k < m.entries.length then
    ⟨swapRemove m.entries (m.findSlot k), m.entries_swapRemove_nodup h⟩
  else m

theorem findSlot_lt {m : OrdMap κ ν} {k : κ} :
    m.findSlot k < m.entries.length ↔ k ∈ m.keys := by
  simp [findSlot, List.findIdx_lt_length, keys]

theorem fst_getElem_findSlot {m : OrdMap κ ν} {k : κ} (h : m.findSlot k < m.entries.length) :
    (m.entries[m.findSlot k]).1 = k :=
  of_decide_eq_true (@List.findIdx_getElem (κ × ν) (fun e : κ × ν => decide (e.1 = k)) m.entries h)

theorem findSlot_eq {m : OrdMap κ ν} {k : κ} {w : ν} {j : Nat} (h : m.entries[j]? = some (k, w)) :
    m.findSlot k = j := by
  obtain ⟨hj, hk⟩ := List.getElem?_eq_some_iff.mp h
  have hmem : k ∈ m.keys := List.mem_map.mpr ⟨(k, w), hk ▸ List.getElem_mem hj, rfl⟩
  have hlt := findSlot_lt.mpr hmem
  refine (@List.Nodup.getElem_inj_iff _ _ m.nodup _ (by simpa using hlt) j (by simpa using hj)).mp ?_
  simp [fst_getElem_findSlot hlt, hk]

/-- A deletion of a binding whose position is known. -/
theorem entries_del_of_getElem {m : OrdMap κ ν} {k : κ} {w : ν} {j : Nat}
    (h : m.entries[j]? = some (k, w)) : (m.del k).entries = swapRemove m.entries j := by
  obtain ⟨hj, -⟩ := List.getElem?_eq_some_iff.mp h
  have hslot := findSlot_eq h
  unfold del
  rw [dif_pos (hslot.symm ▸ hj)]
  exact congrArg (swapRemove m.entries) hslot

theorem del_of_notMem {m : OrdMap κ ν} {k : κ} (h : k ∉ m.keys) : m.del k = m :=
  dif_neg fun hlt => h (findSlot_lt.mp hlt)

theorem mem_entries_del {m : OrdMap κ ν} {k : κ} {e : κ × ν} :
    e ∈ (m.del k).entries ↔ e ∈ m.entries ∧ e.1 ≠ k := by
  unfold del
  split
  · next h =>
    have hk := fst_getElem_findSlot h
    rw [(swapRemove_perm h).mem_iff, List.mem_eraseIdx_iff_getElem]
    constructor
    · rintro ⟨i, hi, hne, rfl⟩
      refine ⟨List.getElem_mem _, fun heq => hne ?_⟩
      refine (@List.Nodup.getElem_inj_iff _ _ m.nodup i (by simpa using hi) _
        (by simpa using h)).mp ?_
      simpa only [List.getElem_map] using heq.trans hk.symm
    · rintro ⟨hmem, hne⟩
      obtain ⟨i, hi, rfl⟩ := List.mem_iff_getElem.mp hmem
      exact ⟨i, hi, fun heq => hne (by subst heq; exact hk), rfl⟩
  · next h =>
    have hk : k ∉ m.keys := fun hk => h (findSlot_lt.mpr hk)
    exact ⟨fun he => ⟨he, fun heq => hk (List.mem_map.mpr ⟨e, he, heq⟩)⟩, fun he => he.1⟩

theorem get_del (m : OrdMap κ ν) (k k' : κ) :
    (m.del k).get k' = if k' = k then none else m.get k' := by
  refine Option.ext fun w => ?_
  rw [get_eq_some, mem_entries_del]
  split
  · next h => simp [h]
  · next h => simp [h, get_eq_some]

end Lookup

/-! ## Truncation -/

section Truncate

variable [DecidableEq κ]

/-- Delete the last binding of the iteration order. -/
def delLast (m : OrdMap κ ν) : OrdMap κ ν :=
  match m.entries.getLast? with
  | none => m
  | some e => m.del e.1

theorem entries_delLast (m : OrdMap κ ν) : m.delLast.entries = m.entries.dropLast := by
  obtain ⟨es, hes⟩ := m
  unfold delLast
  rcases List.eq_nil_or_concat es with rfl | ⟨init, z, rfl⟩
  · rfl
  · have hz : z.1 ∉ init.map Prod.fst := by
      rw [List.concat_eq_append, List.map_append] at hes
      intro hmem
      exact (List.nodup_append.mp hes).2.2 z.1 hmem z.1 (by simp) rfl
    have hslot : (init ++ [z]).findIdx (fun e => e.1 = z.1) = init.length := by
      rw [List.findIdx_append, if_neg]
      · simp
      · rw [List.findIdx_lt_length]
        rintro ⟨e, he, heq⟩
        exact hz (List.mem_map.mpr ⟨e, he, by simpa using heq⟩)
    simp only [List.concat_eq_append, List.getLast?_append, List.getLast?_singleton,
      Option.some_or, del, findSlot, hslot, List.length_append, List.length_singleton,
      Nat.lt_add_one, dif_pos, swapRemove_append, lt_irrefl, if_false, List.dropLast_concat]

/-- Drop the bindings inserted after the map held `n` of them. -/
def truncate (m : OrdMap κ ν) (n : Nat) : OrdMap κ ν := delLast^[m.count - n] m

theorem entries_delLast_iterate (j : Nat) (m : OrdMap κ ν) :
    (delLast^[j] m).entries = m.entries.take (m.count - j) := by
  induction j generalizing m with
  | zero => simp [count]
  | succ j ih =>
    rw [Function.iterate_succ_apply, ih, count, entries_delLast, List.dropLast_eq_take,
      List.take_take]
    congr 1
    simp only [List.length_take, count]
    omega

theorem entries_truncate (m : OrdMap κ ν) (n : Nat) :
    (m.truncate n).entries = m.entries.take n := by
  rw [truncate, entries_delLast_iterate]
  rcases Nat.le_total m.count n with h | h
  · rw [Nat.sub_eq_zero_of_le h, List.take_of_length_le (by simp [count]),
      List.take_of_length_le h]
  · rw [Nat.sub_sub_self h]

end Truncate

/-! ## Growing sets -/

section Sets

variable [DecidableEq κ]

/-- A set that grew: its elements are still there, in their order. -/
def Le (m n : OrdMap κ Unit) : Prop := m.entries <+: n.entries

omit [DecidableEq κ] in
theorem Le.refl (m : OrdMap κ Unit) : m.Le m := List.prefix_rfl

omit [DecidableEq κ] in
theorem Le.trans {m n o : OrdMap κ Unit} (h : m.Le n) (h' : n.Le o) : m.Le o :=
  List.IsPrefix.trans h h'

theorem set_of_mem {m : OrdMap κ Unit} {k : κ} (h : k ∈ m.keys) : m.set k () = m := by
  apply ext
  change setEntries m.entries k () = m.entries
  unfold keys at h
  rw [setEntries, if_pos h]
  apply List.map_id''
  intro e
  split
  · next hk => rw [← hk]
  · rfl

theorem le_set (m : OrdMap κ Unit) (k : κ) : m.Le (m.set k ()) := by
  by_cases h : k ∈ m.keys
  · rw [set_of_mem h]
    exact .refl m
  · change m.entries <+: setEntries m.entries k ()
    unfold keys at h
    rw [setEntries, if_neg h]
    exact List.prefix_append _ _

theorem Le.truncate {m n : OrdMap κ Unit} (h : m.Le n) : n.truncate m.count = m := by
  apply ext
  rw [entries_truncate]
  exact (List.prefix_iff_eq_take.mp h).symm

theorem foldl_set_of_mem {m : OrdMap κ Unit} (es : List (κ × Unit))
    (h : ∀ e ∈ es, e.1 ∈ m.keys) : es.foldl (fun m e => m.set e.1 e.2) m = m := by
  induction es with
  | nil => rfl
  | cons e es ih =>
    have he : m.set e.1 e.2 = m := set_of_mem (h e List.mem_cons_self)
    rw [List.foldl_cons, he]
    exact ih fun e he => h e (List.mem_cons_of_mem _ he)

theorem entries_foldl_set {m : OrdMap κ Unit} (es : List (κ × Unit))
    (h : (m.entries ++ es).map Prod.fst |>.Nodup) :
    (es.foldl (fun m e => m.set e.1 e.2) m).entries = m.entries ++ es := by
  induction es generalizing m with
  | nil => simp
  | cons e es ih =>
    have hnot : e.1 ∉ m.entries.map Prod.fst := by
      intro hmem
      rw [List.map_append, List.map_cons] at h
      exact (List.nodup_append.mp h).2.2 e.1 hmem e.1 List.mem_cons_self rfl
    have hset : (m.set e.1 e.2).entries = m.entries ++ [e] := by
      change setEntries m.entries e.1 e.2 = _
      rw [setEntries, if_neg hnot]
    rw [List.foldl_cons, ih, hset, List.append_assoc, List.singleton_append]
    rw [hset, List.append_assoc, List.singleton_append]
    exact h

end Sets

end OrdMap

end StatelessGuest.Lib
