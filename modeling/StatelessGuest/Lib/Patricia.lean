import Mathlib.Data.Fintype.Basic
import Mathlib.Data.List.FinRange
import Mathlib.Data.Set.Finite.Lattice
import Mathlib.Logic.Function.Basic

/-!
# Patricia tries

Tries over keys of digits to a base `b`, in which a path without branches is one node. A part of a
trie can be a stub: a reference to a subtrie that is not there, which no operation may enter. The
default value stands for an absent key.

* `fork`: the common prefix of two keys, and the rests.
* `Trie.value`, `Trie.get`: what a trie holds; what a lookup that meets no stub finds.
* `Trie.insert`, `Trie.delete`: the operations, which fail at stubs.
* `value_insert`, `value_delete`: they change the value of one key.
* `Trie.Wf`, `wf_insert`, `wf_delete`: the shape of tries.
* `Trie.eq_of_value_eq`: a trie of that shape without stubs is determined by its values.
* `Trie.Prunes`, `insert_prunes`, `delete_prunes`, `get_prunes`: an operation that succeeds on a
  part of a trie does what it does on the trie.
-/

namespace StatelessGuest.Lib

/-! ## Prefixes -/

section

variable {α : Type} [DecidableEq α]

/-- The rest of a key behind a prefix. -/
def strip : List α → List α → Option (List α)
  | [], key => some key
  | _ :: _, [] => none
  | a :: seg, d :: key => if a = d then strip seg key else none

/-- The common prefix of two keys, and the rests behind it. -/
def fork : List α → List α → List α × List α × List α
  | a :: as, b :: bs =>
    if a = b then
      let f := fork as bs
      (a :: f.1, f.2)
    else ([], a :: as, b :: bs)
  | as, bs => ([], as, bs)

theorem strip_eq_some {seg key rest : List α} : strip seg key = some rest ↔ key = seg ++ rest := by
  induction seg generalizing key with
  | nil => exact ⟨fun h => Option.some.inj h, fun h => congrArg some h⟩
  | cons a seg ih =>
    cases key with
    | nil => exact ⟨nofun, nofun⟩
    | cons d key =>
      rw [strip, List.cons_append, List.cons.injEq]
      split
      · next h => rw [ih, h, eq_self, true_and]
      · next h => exact ⟨nofun, fun h' => absurd h'.1.symm h⟩

@[simp] theorem strip_nil (key : List α) : strip [] key = some key := rfl

@[simp] theorem strip_self_append (seg rest : List α) : strip seg (seg ++ rest) = some rest :=
  strip_eq_some.mpr rfl

theorem strip_append (seg seg' key : List α) :
    strip (seg ++ seg') key = (strip seg key).bind (strip seg') := by
  induction seg generalizing key with
  | nil => rfl
  | cons a seg ih =>
    cases key with
    | nil => rfl
    | cons d key =>
      rw [List.cons_append, strip, strip]
      split
      · exact ih key
      · rfl

/-- The first digits of two keys differ, or one of the keys is empty. -/
def Diverge : List α → List α → Prop
  | a :: _, b :: _ => a ≠ b
  | _, _ => True

theorem fork_left (as bs : List α) : as = (fork as bs).1 ++ (fork as bs).2.1 := by
  induction as generalizing bs with
  | nil => rfl
  | cons a as ih =>
    cases bs with
    | nil => rfl
    | cons b bs =>
      rw [fork]
      split
      · exact congrArg (a :: ·) (ih bs)
      · rfl

theorem fork_right (as bs : List α) : bs = (fork as bs).1 ++ (fork as bs).2.2 := by
  induction as generalizing bs with
  | nil => rfl
  | cons a as ih =>
    cases bs with
    | nil => rfl
    | cons b bs =>
      rw [fork]
      split
      · next h =>
        rw [← h]
        exact congrArg (a :: ·) (ih bs)
      · rfl

theorem fork_diverge (as bs : List α) : Diverge (fork as bs).2.1 (fork as bs).2.2 := by
  induction as generalizing bs with
  | nil => trivial
  | cons a as ih =>
    cases bs with
    | nil => trivial
    | cons b bs =>
      rw [fork]
      split
      · exact ih bs
      · next h => exact h

end

/-! ## Tries -/

/-- A trie over digits to the base `b`, with stubs. -/
inductive Trie (b : Nat) (ν η : Type) where
  | empty
  | stub (h : η)
  | leaf (key : List (Fin b)) (v : ν)
  | ext (seg : List (Fin b)) (child : Trie b ν η)
  | branch (child : Fin b → Trie b ν η) (v : ν)

namespace Trie

variable {b : Nat} {ν η : Type}

def isEmpty : Trie b ν η → Bool
  | empty => true
  | _ => false

/-- A branch, or a stub for one. -/
def isBranch : Trie b ν η → Bool
  | branch _ _ => true
  | stub _ => true
  | _ => false

/-- No part is missing. -/
def Full : Trie b ν η → Prop
  | stub _ => False
  | ext _ t => t.Full
  | branch ch _ => ∀ d, (ch d).Full
  | _ => True

/-- An extension, unless the segment is empty. -/
def wrap (seg : List (Fin b)) (t : Trie b ν η) : Trie b ν η := if seg = [] then t else ext seg t

/-- The children and the value of a branch. -/
abbrev Slots (b : Nat) (ν η : Type) : Type := (Fin b → Trie b ν η) × ν

def ofSlots (s : Slots b ν η) : Trie b ν η := branch s.1 s.2

/-- Hang a value into a branch: at the branch, or in a leaf below it. -/
def hang (s : Slots b ν η) (v : ν) : List (Fin b) → Slots b ν η
  | [] => (s.1, v)
  | d :: key => (Function.update s.1 d (leaf key v), s.2)

/-- Hang a trie below a segment into a branch. -/
def hangTrie (s : Slots b ν η) (t : Trie b ν η) : List (Fin b) → Slots b ν η
  | [] => s
  | d :: seg => (Function.update s.1 d (wrap seg t), s.2)

/-- The trie below a segment, where that is no branch its node is joined with the segment. -/
def graft (seg : List (Fin b)) : Trie b ν η → Option (Trie b ν η)
  | empty => some empty
  | stub _ => none
  | leaf key v => some (leaf (seg ++ key) v)
  | ext seg' t => some (ext (seg ++ seg') t)
  | branch ch v => some (ext seg (branch ch v))

/-- The digits with a child. -/
def occupied (ch : Fin b → Trie b ν η) : List (Fin b) :=
  (List.finRange b).filter fun d => !(ch d).isEmpty

section

variable [Inhabited ν]

/-- A branch without children. -/
def bare : Slots b ν η := (fun _ => empty, default)

/-- The value of a key; nothing is under a stub. -/
def value : Trie b ν η → List (Fin b) → ν
  | empty, _ => default
  | stub _, _ => default
  | leaf k v, key => if k = key then v else default
  | ext seg t, key =>
    match strip seg key with
    | some rest => t.value rest
    | none => default
  | branch _ v, [] => v
  | branch ch _, d :: key => (ch d).value key

/-- The value that a lookup finds; it fails at a stub. -/
def get : Trie b ν η → List (Fin b) → Option ν
  | empty, _ => some default
  | stub _, _ => none
  | leaf k v, key => some (if k = key then v else default)
  | ext seg t, key =>
    match strip seg key with
    | some rest => t.get rest
    | none => some default
  | branch _ v, [] => some v
  | branch ch _, d :: key => (ch d).get key

/-- The trie with a new value for a key. -/
def insert (v : ν) : Trie b ν η → List (Fin b) → Option (Trie b ν η)
  | empty, key => some (leaf key v)
  | stub _, _ => none
  | leaf k w, key =>
    if k = key then some (leaf k v)
    else
      let f := fork k key
      some (wrap f.1 (ofSlots (hang (hang bare w f.2.1) v f.2.2)))
  | ext seg t, key =>
    let f := fork seg key
    if f.2.1 = [] then (t.insert v f.2.2).map (ext seg)
    else
      some (wrap f.1 (ofSlots (hang (hangTrie bare t f.2.1) v f.2.2)))
  | branch ch _, [] => some (branch ch v)
  | branch ch w, d :: key =>
    ((ch d).insert v key).map fun t => branch (Function.update ch d t) w

variable [DecidableEq ν]

/-- A branch that may have lost a child or its value. -/
def collapse (ch : Fin b → Trie b ν η) (v : ν) : Option (Trie b ν η) :=
  match occupied ch with
  | [] => if v = default then none else some (leaf [] v)
  | [d] => if v = default then graft [d] (ch d) else some (branch ch v)
  | _ => some (branch ch v)

/-- The trie without a key. -/
def delete : Trie b ν η → List (Fin b) → Option (Trie b ν η)
  | empty, _ => some empty
  | stub _, _ => none
  | leaf k v, key => some (if k = key then empty else leaf k v)
  | ext seg t, key =>
    match strip seg key with
    | some rest => (t.delete rest).bind (graft seg)
    | none => some (ext seg t)
  | branch ch v, [] => if v = default then some (branch ch v) else collapse ch default
  | branch ch v, d :: key =>
    ((ch d).delete key).bind fun t => collapse (Function.update ch d t) v

/-- The children of a branch, and its value if it has one. -/
def occupancy (ch : Fin b → Trie b ν η) (v : ν) : Nat :=
  (occupied ch).length + if v = default then 0 else 1

/-- The shape of tries: no default values, no empty segments, a branch below an extension, and at
least two entries in a branch. -/
def Wf : Trie b ν η → Prop
  | leaf _ v => v ≠ default
  | ext seg t => seg ≠ [] ∧ t.isBranch = true ∧ t.Wf
  | branch ch v => (∀ d, (ch d).Wf) ∧ 2 ≤ occupancy ch v
  | _ => True

end

/-! ## Values -/

section

variable [Inhabited ν] {t t' : Trie b ν η} {s : Slots b ν η} {v w : ν} {seg key k : List (Fin b)}

theorem value_ext (seg : List (Fin b)) (t : Trie b ν η) (key : List (Fin b)) :
    (ext seg t).value key = ((strip seg key).map t.value).getD default := by
  rw [value]
  cases strip seg key <;> rfl

@[simp] theorem value_ext_append (seg : List (Fin b)) (t : Trie b ν η) (rest : List (Fin b)) :
    (ext seg t).value (seg ++ rest) = t.value rest := by
  rw [value_ext, strip_self_append]
  rfl

theorem value_leaf_append (seg k : List (Fin b)) (v : ν) (key : List (Fin b)) :
    (leaf (seg ++ k) v : Trie b ν η).value key =
      ((strip seg key).map (leaf k v : Trie b ν η).value).getD default := by
  rw [value]
  cases hs : strip seg key with
  | none =>
    rw [if_neg fun h => by rw [← h, strip_self_append] at hs; cases hs]
    rfl
  | some rest =>
    rw [strip_eq_some.mp hs, Option.map_some, Option.getD_some, value]
    simp only [List.append_cancel_left_eq]

theorem value_wrap (seg : List (Fin b)) (t : Trie b ν η) (key : List (Fin b)) :
    (wrap seg t).value key = ((strip seg key).map t.value).getD default := by
  unfold wrap
  split
  · next h => rw [h, strip_nil, Option.map_some, Option.getD_some]
  · exact value_ext seg t key

theorem value_graft (h : graft seg t = some t') (key : List (Fin b)) :
    t'.value key = ((strip seg key).map t.value).getD default := by
  cases t with
  | empty =>
    cases h
    cases strip seg key <;> rfl
  | stub => cases h
  | leaf k v =>
    cases h
    exact value_leaf_append seg k v key
  | ext seg' t =>
    cases h
    rw [value_ext, strip_append]
    cases strip seg key with
    | none => rfl
    | some rest => exact (value_ext seg' t rest).symm
  | branch ch v =>
    cases h
    exact value_ext seg _ key

/-- A value hung into a branch changes the value of its key. -/
theorem value_hang (hs : ∀ d rest, key = d :: rest → s.1 d = empty) (v : ν) :
    (ofSlots (hang s v key)).value = Function.update (ofSlots s).value key v := by
  unfold ofSlots
  funext k
  cases key with
  | nil =>
    cases k with
    | nil => rw [Function.update_self]; rfl
    | cons e k => rw [Function.update_of_ne (List.cons_ne_nil e k)]; rfl
  | cons d key =>
    cases k with
    | nil => rw [Function.update_of_ne (List.cons_ne_nil d key).symm]; rfl
    | cons e k =>
      rw [hang, value]
      dsimp only
      by_cases he : e = d
      · subst he
        rw [Function.update_self, value]
        by_cases hk : key = k
        · rw [hk, if_pos rfl, Function.update_self]
        · rw [if_neg hk, Function.update_of_ne fun h => hk (List.cons.inj h).2.symm, value,
            hs e key rfl, value]
      · rw [Function.update_of_ne he, Function.update_of_ne fun h => he (List.cons.inj h).1, value]

theorem value_bare (key : List (Fin b)) :
    (ofSlots (bare : Slots b ν η)).value key = default := by
  cases key <;> rfl

/-- A trie hung into a bare branch is found below its segment. -/
theorem value_hangTrie (hseg : seg ≠ []) (t : Trie b ν η) (key : List (Fin b)) :
    (ofSlots (hangTrie bare t seg)).value key = ((strip seg key).map t.value).getD default := by
  unfold ofSlots
  cases seg with
  | nil => exact absurd rfl hseg
  | cons d seg =>
    cases key with
    | nil => rfl
    | cons e key =>
      rw [hangTrie, value, strip]
      dsimp only
      by_cases he : d = e
      · subst he
        rw [Function.update_self, if_pos rfl]
        exact value_wrap seg t key
      · rw [Function.update_of_ne (Ne.symm he), if_neg he]
        rfl

/-- A leaf hung into a bare branch has the values of the leaf. -/
theorem value_hang_bare (v : ν) :
    (ofSlots (hang (bare : Slots b ν η) v key)).value = (leaf key v : Trie b ν η).value := by
  rw [value_hang fun _ _ _ => rfl]
  funext k
  rw [value]
  by_cases h : key = k
  · rw [h, Function.update_self, if_pos rfl]
  · rw [Function.update_of_ne (Ne.symm h), if_neg h, value_bare]

/-- The child in which another key goes is empty after a fork. -/
theorem hang_bare_empty {v : ν} {k key : List (Fin b)} (h : Diverge k key) (d : Fin b)
    (rest : List (Fin b)) (hkey : key = d :: rest) :
    (hang (bare : Slots b ν η) v k).1 d = empty := by
  subst hkey
  cases k with
  | nil => rfl
  | cons a k => exact Function.update_of_ne (Ne.symm h) _ _

theorem hangTrie_bare_empty {t : Trie b ν η} {k key : List (Fin b)} (h : Diverge k key) (d : Fin b)
    (rest : List (Fin b)) (hkey : key = d :: rest) :
    (hangTrie (bare : Slots b ν η) t k).1 d = empty := by
  subst hkey
  cases k with
  | nil => rfl
  | cons a k => exact Function.update_of_ne (Ne.symm h) _ _

/-- Values below a common prefix, one of which changes. -/
theorem value_wrap_update {r : List (Fin b)} {t u : Trie b ν η}
    (hu : u.value = Function.update t.value r v) :
    (wrap seg u).value = Function.update (wrap seg t).value (seg ++ r) v := by
  funext k
  rw [value_wrap, hu]
  cases hs : strip seg k with
  | none =>
    have hk : k ≠ seg ++ r := by
      rintro rfl
      rw [strip_self_append] at hs
      cases hs
    rw [Function.update_of_ne hk, value_wrap, hs]
    rfl
  | some k' =>
    rw [strip_eq_some.mp hs, Option.map_some, Option.getD_some]
    by_cases hk : k' = r
    · rw [hk, Function.update_self, Function.update_self]
    · rw [Function.update_of_ne hk, Function.update_of_ne fun h => hk (List.append_cancel_left h),
        value_wrap, strip_self_append]
      rfl

omit [Inhabited ν] in
theorem wrap_of_ne (h : seg ≠ []) (t : Trie b ν η) : wrap seg t = ext seg t := if_neg h

theorem ext_value_eq (seg : List (Fin b)) (t : Trie b ν η) :
    (ext seg t).value = (wrap seg t).value := by
  funext key
  rw [value_ext, value_wrap]

/-- One child of a branch changes at one key. -/
theorem value_branch_update {ch : Fin b → Trie b ν η} {d : Fin b} {rest : List (Fin b)}
    {u : Trie b ν η} (hu : u.value = Function.update (ch d).value rest v) :
    (branch (Function.update ch d u) w).value =
      Function.update (branch ch w).value (d :: rest) v := by
  funext k
  cases k with
  | nil => rw [Function.update_of_ne (List.cons_ne_nil d rest).symm]; rfl
  | cons e k =>
    rw [value]
    by_cases he : e = d
    · subst he
      rw [Function.update_self, hu]
      by_cases hk : k = rest
      · rw [hk, Function.update_self, Function.update_self]
      · rw [Function.update_of_ne hk, Function.update_of_ne fun h => hk (List.cons.inj h).2, value]
    · rw [Function.update_of_ne he, Function.update_of_ne fun h => he (List.cons.inj h).1, value]

/-- **Insertion** changes the value of its key. -/
theorem value_insert (h : t.insert v key = some t') :
    t'.value = Function.update t.value key v := by
  induction t generalizing key t' with
  | empty =>
    cases h
    funext k
    rw [value]
    by_cases hk : key = k
    · rw [hk, if_pos rfl, Function.update_self]
    · rw [if_neg hk, Function.update_of_ne (Ne.symm hk), value]
  | stub => cases h
  | leaf k w =>
    rw [insert] at h
    split at h
    · next hk =>
      cases h
      funext k'
      rw [value]
      by_cases h' : k = k'
      · rw [if_pos h', ← hk, h', Function.update_self]
      · rw [if_neg h', ← hk, Function.update_of_ne (Ne.symm h'), value, if_neg h']
    · cases h
      have hleft := fork_left k key
      have hright := fork_right k key
      have hdiv := fork_diverge k key
      generalize fork k key = f at *
      rw [value_wrap_update (t := leaf f.2.1 w) (r := f.2.2) (v := v), ← hright]
      · congr 1
        funext k'
        rw [value_wrap, hleft, value_leaf_append]
      · rw [value_hang (hang_bare_empty hdiv), value_hang_bare]
  | ext seg t ih =>
    rw [insert] at h
    have hleft := fork_left seg key
    have hright := fork_right seg key
    have hdiv := fork_diverge seg key
    generalize fork seg key = f at *
    split at h
    · next hall =>
      obtain ⟨u, hu, rfl⟩ := Option.map_eq_some_iff.mp h
      rw [hall, List.append_nil] at hleft
      rw [ext_value_eq, ext_value_eq, value_wrap_update (ih hu), hleft, ← hright]
    · next hne =>
      cases h
      rw [value_wrap_update (t := ofSlots (hangTrie bare t f.2.1)) (r := f.2.2) (v := v), ← hright]
      · congr 1
        funext k'
        rw [value_wrap, value_ext, hleft, strip_append]
        cases strip f.1 k' with
        | none => rfl
        | some k'' => exact value_hangTrie hne t k''
      · exact value_hang (hangTrie_bare_empty hdiv) v
  | branch ch w ih =>
    cases key with
    | nil =>
      cases h
      funext k'
      cases k' with
      | nil => rw [Function.update_self]; rfl
      | cons e k' => rw [Function.update_of_ne (List.cons_ne_nil e k')]; rfl
    | cons d key =>
      rw [insert] at h
      obtain ⟨u, hu, rfl⟩ := Option.map_eq_some_iff.mp h
      exact value_branch_update (ih d hu)

omit [Inhabited ν] in
theorem eq_empty_of_isEmpty (h : t.isEmpty = true) : t = empty := by
  cases t with
  | empty => rfl
  | _ => cases h

omit [Inhabited ν] in
theorem mem_occupied {ch : Fin b → Trie b ν η} {d : Fin b} :
    d ∈ occupied ch ↔ (ch d).isEmpty = false := by
  unfold occupied
  rw [List.mem_filter, Bool.not_eq_true']
  exact and_iff_right (List.mem_finRange d)

omit [Inhabited ν] in
theorem nodup_occupied (ch : Fin b → Trie b ν η) : (occupied ch).Nodup :=
  (List.nodup_finRange b).filter _

omit [Inhabited ν] in
theorem eq_empty_of_not_mem {ch : Fin b → Trie b ν η} {d : Fin b} (h : d ∉ occupied ch) :
    ch d = empty := by
  rw [mem_occupied, Bool.not_eq_false] at h
  exact eq_empty_of_isEmpty h

variable [DecidableEq ν]

/-- A collapsed branch has the values of the branch. -/
theorem value_collapse {ch : Fin b → Trie b ν η} (h : collapse ch v = some t') :
    t'.value = (branch ch v).value := by
  unfold collapse at h
  split at h
  · next hnone =>
    have hempty : ∀ d, ch d = empty := fun d =>
      eq_empty_of_not_mem (by rw [hnone]; exact List.not_mem_nil)
    split at h
    · cases h
    · cases h
      funext key
      cases key with
      | nil => rfl
      | cons d key =>
        rw [value, value, hempty d]
        exact if_neg (List.cons_ne_nil d key).symm
  · next d hone =>
    have hempty : ∀ e, e ≠ d → ch e = empty := fun e he =>
      eq_empty_of_not_mem (by rw [hone, List.mem_singleton]; exact he)
    split at h
    · next hv =>
      funext key
      rw [value_graft h]
      cases key with
      | nil => exact hv.symm
      | cons e key =>
        rw [strip, value]
        split
        · next he => rw [← he]; rfl
        · next he => rw [hempty e (Ne.symm he)]; rfl
    · cases h
      rfl
  · cases h
    rfl

/-- **Deletion** changes the value of its key. -/
theorem value_delete (h : t.delete key = some t') :
    t'.value = Function.update t.value key default := by
  induction t generalizing key t' with
  | empty =>
    cases h
    exact (Function.update_eq_self key _).symm
  | stub => cases h
  | leaf k w =>
    cases h
    funext k'
    split
    · next hk =>
      by_cases h' : k' = key
      · rw [h', Function.update_self, value]
      · rw [Function.update_of_ne h', value, value, if_neg fun h => h' (h.symm.trans hk)]
    · next hk =>
      by_cases h' : k' = key
      · rw [h', Function.update_self, value, if_neg hk]
      · rw [Function.update_of_ne h']
  | ext seg t ih =>
    rw [delete] at h
    cases hs : strip seg key with
    | some rest =>
      rw [hs] at h
      obtain ⟨u, hu, h⟩ := Option.bind_eq_some_iff.mp h
      have hval : t'.value = (wrap seg u).value := by
        funext k'
        rw [value_graft h, value_wrap]
      rw [hval, ext_value_eq, value_wrap_update (ih hu), strip_eq_some.mp hs]
    | none =>
      rw [hs] at h
      cases h
      have hval : (ext seg t).value key = default := by
        rw [value_ext, hs]
        rfl
      rw [← hval, Function.update_eq_self]
  | branch ch w ih =>
    cases key with
    | nil =>
      rw [delete] at h
      split at h
      · next hw =>
        cases h
        rw [← hw]
        exact (Function.update_eq_self [] _).symm
      · rw [value_collapse h]
        funext k'
        cases k' with
        | nil => rw [Function.update_self]; rfl
        | cons e k' => rw [Function.update_of_ne (List.cons_ne_nil e k')]; rfl
    | cons d key =>
      rw [delete] at h
      obtain ⟨u, hu, h⟩ := Option.bind_eq_some_iff.mp h
      rw [value_collapse h]
      exact value_branch_update (ih d hu)

omit [DecidableEq ν] in
/-- A lookup that meets no stub finds the value. -/
theorem get_eq_some (h : t.get key = some v) : t.value key = v := by
  induction t generalizing key with
  | empty => exact Option.some.inj h
  | stub => cases h
  | leaf k w => exact Option.some.inj h
  | ext seg t ih =>
    rw [get] at h
    rw [value]
    cases hs : strip seg key with
    | some rest =>
      rw [hs] at h
      exact ih h
    | none =>
      rw [hs] at h
      exact Option.some.inj h
  | branch ch w ih =>
    cases key with
    | nil => exact Option.some.inj h
    | cons d key => exact ih d h

/-! ## Shapes -/

omit [Inhabited ν] [DecidableEq ν] in
/-- A child more. -/
theorem length_occupied_update {ch : Fin b → Trie b ν η} {d : Fin b} (hd : ch d = empty)
    (ht : t.isEmpty = false) :
    (occupied (Function.update ch d t)).length = (occupied ch).length + 1 := by
  have hmem : d ∉ occupied ch := by
    rw [mem_occupied, hd]
    exact Bool.noConfusion
  have hperm : (occupied (Function.update ch d t)).Perm (d :: occupied ch) := by
    refine (List.perm_ext_iff_of_nodup (nodup_occupied _)
      (List.nodup_cons.mpr ⟨hmem, nodup_occupied ch⟩)).mpr fun e => ?_
    rw [mem_occupied, List.mem_cons, mem_occupied]
    by_cases he : e = d
    · rw [he, Function.update_self]
      exact ⟨fun _ => .inl rfl, fun _ => ht⟩
    · rw [Function.update_of_ne he]
      exact ⟨.inr, fun h => h.resolve_left he⟩
  rw [hperm.length_eq, List.length_cons]

def Slots.occupancy (s : Slots b ν η) : Nat := Trie.occupancy s.1 s.2

/-- An entry more. -/
theorem occupancy_hang (hs : ∀ d rest, key = d :: rest → s.1 d = empty)
    (hnil : key = [] → s.2 = default) (hv : v ≠ default) :
    (hang s v key).occupancy = s.occupancy + 1 := by
  unfold Slots.occupancy occupancy
  cases key with
  | nil =>
    rw [hang, if_neg hv, hnil rfl, if_pos rfl]
  | cons d key =>
    rw [hang, length_occupied_update (hs d key rfl) rfl]
    exact Nat.succ_add _ _

theorem occupancy_bare : (bare : Slots b ν η).occupancy = 0 := by
  unfold Slots.occupancy occupancy bare
  rw [if_pos rfl, Nat.add_zero, List.length_eq_zero_iff, List.eq_nil_iff_forall_not_mem]
  intro d hd
  rw [mem_occupied] at hd
  cases hd

omit [Inhabited ν] [DecidableEq ν] in
theorem isEmpty_wrap (h : t.isEmpty = false) : (wrap seg t).isEmpty = false := by
  unfold wrap
  split
  · exact h
  · rfl

theorem occupancy_hangTrie (hseg : seg ≠ []) (ht : t.isEmpty = false) :
    (hangTrie bare t seg).occupancy = 1 := by
  cases seg with
  | nil => exact absurd rfl hseg
  | cons d seg =>
    have hbare : (bare : Slots b ν η).occupancy = 0 := occupancy_bare
    unfold Slots.occupancy occupancy at hbare ⊢
    rw [hangTrie, length_occupied_update rfl (isEmpty_wrap ht), Nat.succ_add]
    exact congrArg Nat.succ hbare

omit [Inhabited ν] [DecidableEq ν] in
/-- What holds of the children and of a trie holds of the children with the trie among them. -/
theorem forall_update {P : Trie b ν η → Prop} {ch : Fin b → Trie b ν η} (h : ∀ d, P (ch d))
    {d : Fin b} (ht : P t) (e : Fin b) : P (Function.update ch d t e) := by
  by_cases he : e = d
  · rw [he, Function.update_self]
    exact ht
  · rw [Function.update_of_ne he]
    exact h e

omit [Inhabited ν] [DecidableEq ν] in
theorem forall_hang {P : Trie b ν η → Prop} (h : ∀ d, P (s.1 d)) (hleaf : ∀ k, P (leaf k v))
    (d : Fin b) : P ((hang s v key).1 d) := by
  cases key with
  | nil => exact h d
  | cons e key => exact forall_update h (hleaf key) d

omit [Inhabited ν] [DecidableEq ν] in
theorem forall_hangTrie {P : Trie b ν η → Prop} (h : ∀ d, P (s.1 d)) (ht : ∀ k, P (wrap k t))
    (d : Fin b) : P ((hangTrie s t seg).1 d) := by
  cases seg with
  | nil => exact h d
  | cons e seg => exact forall_update h (ht seg) d

theorem wf_wrap (ht : t.isBranch = true) (h : t.Wf) : (wrap seg t).Wf := by
  unfold wrap
  split
  · exact h
  · next hseg => exact ⟨hseg, ht, h⟩

omit [Inhabited ν] [DecidableEq ν] in
theorem not_isEmpty_of_isBranch (h : t.isBranch = true) : t.isEmpty = false := by
  cases t with
  | empty => cases h
  | _ => rfl

/-- The rests of two different keys are not both empty. -/
theorem fork_ne_nil {α : Type} [DecidableEq α] {k key : List α} (h : k ≠ key)
    (h1 : (fork k key).2.1 = []) : (fork k key).2.2 ≠ [] := by
  intro h2
  refine h ?_
  rw [fork_left k key, h1, ← h2]
  exact (fork_right k key).symm

/-- Insertion keeps the shape, and a branch stays a branch. -/
theorem wf_insert (hv : v ≠ default) (hwf : t.Wf) (h : t.insert v key = some t') :
    t'.Wf ∧ t'.isEmpty = false ∧ (t.isBranch = true → t'.isBranch = true) := by
  induction t generalizing key t' with
  | empty =>
    cases h
    exact ⟨hv, rfl, id⟩
  | stub => cases h
  | leaf k w =>
    rw [insert] at h
    split at h
    · cases h
      exact ⟨hv, rfl, nofun⟩
    · next hne =>
      cases h
      have hempty : ∀ d rest, (fork k key).2.2 = d :: rest →
          (hang (bare : Slots b ν η) w (fork k key).2.1).1 d = empty :=
        hang_bare_empty (fork_diverge k key)
      have hnil := fork_ne_nil hne
      generalize fork k key = f at *
      refine ⟨wf_wrap rfl ⟨?_, ?_⟩, isEmpty_wrap rfl, nofun⟩
      · exact forall_hang (forall_hang (fun _ => trivial) fun _ => hwf) fun _ => hv
      · change 2 ≤ (hang (hang bare w f.2.1) v f.2.2).occupancy
        have hfirst : (hang (bare : Slots b ν η) w f.2.1).occupancy = 1 := by
          rw [occupancy_hang (fun _ _ _ => rfl) (fun _ => rfl) hwf, occupancy_bare]
        rw [occupancy_hang hempty (fun h2 => ?_) hv, hfirst]
        cases h1 : f.2.1 with
        | nil => exact absurd h2 (hnil h1)
        | cons d k => rfl
  | ext seg t ih =>
    obtain ⟨hseg, hbranch, hwf⟩ := hwf
    rw [insert] at h
    have hempty : ∀ d rest, (fork seg key).2.2 = d :: rest →
        (hangTrie (bare : Slots b ν η) t (fork seg key).2.1).1 d = empty :=
      hangTrie_bare_empty (fork_diverge seg key)
    generalize fork seg key = f at *
    split at h
    · obtain ⟨u, hu, rfl⟩ := Option.map_eq_some_iff.mp h
      obtain ⟨hu, -, hub⟩ := ih hwf hu
      exact ⟨⟨hseg, hub hbranch, hu⟩, rfl, nofun⟩
    · next hne =>
      cases h
      have ht := not_isEmpty_of_isBranch hbranch
      refine ⟨wf_wrap rfl ⟨?_, ?_⟩, isEmpty_wrap rfl, nofun⟩
      · exact forall_hang (forall_hangTrie (fun _ => trivial) fun _ => wf_wrap hbranch hwf)
          fun _ => hv
      · change 2 ≤ (hang (hangTrie bare t f.2.1) v f.2.2).occupancy
        rw [occupancy_hang hempty (fun _ => ?_) hv, occupancy_hangTrie hne ht]
        cases f.2.1 <;> rfl
  | branch ch w ih =>
    obtain ⟨hch, hocc⟩ := hwf
    cases key with
    | nil =>
      cases h
      refine ⟨⟨hch, ?_⟩, rfl, fun _ => rfl⟩
      unfold occupancy at hocc ⊢
      split at hocc <;> rw [if_neg hv] <;> omega
    | cons d key =>
      rw [insert] at h
      obtain ⟨u, hu, rfl⟩ := Option.map_eq_some_iff.mp h
      obtain ⟨hu, hne, -⟩ := ih d (hch d) hu
      refine ⟨⟨forall_update hch hu, ?_⟩, rfl, fun _ => rfl⟩
      refine Nat.le_trans hocc (Nat.add_le_add_right ?_ _)
      refine List.Sublist.length_le (List.monotone_filter_right _ fun e he => ?_)
      by_cases hed : e = d
      · rw [hed, Function.update_self, hne]
        rfl
      · rwa [Function.update_of_ne hed]

/-- A trie below a segment. -/
theorem wf_graft (hseg : seg ≠ []) (hwf : t.Wf) (h : graft seg t = some t') : t'.Wf := by
  cases t with
  | empty =>
    cases h
    trivial
  | stub => cases h
  | leaf k v =>
    cases h
    exact hwf
  | ext seg' t =>
    cases h
    exact ⟨fun h => hseg (List.append_eq_nil_iff.mp h).1, hwf.2⟩
  | branch ch v =>
    cases h
    exact ⟨hseg, rfl, hwf⟩

theorem wf_collapse {ch : Fin b → Trie b ν η} (hch : ∀ d, (ch d).Wf)
    (h : collapse ch v = some t') : t'.Wf := by
  unfold collapse at h
  split at h
  · split at h
    · cases h
    · next hv =>
      cases h
      exact hv
  · next d hone =>
    split at h
    · exact wf_graft (List.cons_ne_nil d []) (hch d) h
    · next hv =>
      cases h
      refine ⟨hch, ?_⟩
      unfold occupancy
      rw [hone, if_neg hv]
      rfl
  · next h0 h1 =>
    cases h
    refine ⟨hch, Nat.le_trans ?_ (Nat.le_add_right _ _)⟩
    match hocc : occupied ch with
    | [] => exact absurd hocc h0
    | [d] => exact absurd hocc (h1 d)
    | d :: e :: rest => exact Nat.le_add_left 2 rest.length

/-- Deletion keeps the shape. -/
theorem wf_delete (hwf : t.Wf) (h : t.delete key = some t') : t'.Wf := by
  induction t generalizing key t' with
  | empty =>
    cases h
    trivial
  | stub => cases h
  | leaf k w =>
    cases h
    split
    · trivial
    · exact hwf
  | ext seg t ih =>
    rw [delete] at h
    split at h
    · obtain ⟨u, hu, h⟩ := Option.bind_eq_some_iff.mp h
      exact wf_graft hwf.1 (ih hwf.2.2 hu) h
    · cases h
      exact hwf
  | branch ch w ih =>
    cases key with
    | nil =>
      rw [delete] at h
      split at h
      · cases h
        exact hwf
      · exact wf_collapse hwf.1 h
    | cons d key =>
      rw [delete] at h
      obtain ⟨u, hu, h⟩ := Option.bind_eq_some_iff.mp h
      exact wf_collapse (forall_update hwf.1 (ih d (hwf.1 d) hu)) h

/-! ## Tries without stubs -/

omit [Inhabited ν] [DecidableEq ν] in
theorem full_wrap (h : t.Full) : (wrap seg t).Full := by
  unfold wrap
  split <;> exact h

omit [Inhabited ν] [DecidableEq ν] in
theorem full_graft (h : t.Full) : ∃ t', graft seg t = some t' ∧ t'.Full := by
  cases t with
  | stub => exact h.elim
  | _ => exact ⟨_, rfl, h⟩

omit [DecidableEq ν] in
theorem get_full (h : t.Full) (key : List (Fin b)) : t.get key = some (t.value key) := by
  induction t generalizing key with
  | empty => rfl
  | stub => exact h.elim
  | leaf k w => rfl
  | ext seg t ih =>
    rw [get, value]
    cases strip seg key with
    | none => rfl
    | some rest => exact ih h rest
  | branch ch w ih =>
    cases key with
    | nil => rfl
    | cons d key => exact ih d (h d) key

omit [DecidableEq ν] in
theorem full_insert (h : t.Full) (v : ν) (key : List (Fin b)) :
    ∃ t', t.insert v key = some t' ∧ t'.Full := by
  induction t generalizing key with
  | empty => exact ⟨_, rfl, trivial⟩
  | stub => exact h.elim
  | leaf k w =>
    rw [insert]
    split
    · exact ⟨_, rfl, trivial⟩
    · refine ⟨_, rfl, full_wrap ?_⟩
      exact forall_hang (forall_hang (fun _ => trivial) fun _ => trivial) fun _ => trivial
  | ext seg t ih =>
    rw [insert]
    split
    · obtain ⟨u, hu, hfull⟩ := ih h (fork seg key).2.2
      exact ⟨_, congrArg (Option.map _) hu, hfull⟩
    · refine ⟨_, rfl, full_wrap ?_⟩
      exact forall_hang (forall_hangTrie (fun _ => trivial) fun _ => full_wrap h) fun _ => trivial
  | branch ch w ih =>
    cases key with
    | nil => exact ⟨_, rfl, h⟩
    | cons d key =>
      obtain ⟨u, hu, hfull⟩ := ih d (h d) key
      exact ⟨_, congrArg (Option.map _) hu, forall_update h hfull⟩

theorem full_collapse {ch : Fin b → Trie b ν η} (h : ∀ d, (ch d).Full)
    (hocc : 1 ≤ occupancy ch v) : ∃ t', collapse ch v = some t' ∧ t'.Full := by
  unfold collapse
  split
  · next hnone =>
    have hv : v ≠ default := by
      rintro rfl
      unfold occupancy at hocc
      rw [hnone, if_pos rfl] at hocc
      cases hocc
    exact ⟨_, if_neg hv, trivial⟩
  · next d hone =>
    split
    · exact full_graft (h d)
    · exact ⟨_, rfl, h⟩
  · exact ⟨_, rfl, h⟩

/-- A branch loses at most one entry with a child. -/
theorem occupancy_le_update (ch : Fin b → Trie b ν η) (v : ν) (d : Fin b) (t : Trie b ν η) :
    occupancy ch v ≤ occupancy (Function.update ch d t) v + 1 := by
  unfold occupancy
  have hsub : occupied ch ⊆ d :: occupied (Function.update ch d t) := by
    intro e he
    by_cases hed : e = d
    · exact List.mem_cons.mpr (.inl hed)
    · rw [mem_occupied] at he
      refine List.mem_cons_of_mem d ?_
      rwa [mem_occupied, Function.update_of_ne hed]
  have hlen := ((nodup_occupied ch).subperm hsub).length_le
  rw [List.length_cons] at hlen
  omega

theorem full_delete (hfull : t.Full) (hwf : t.Wf) (key : List (Fin b)) :
    ∃ t', t.delete key = some t' ∧ t'.Full := by
  induction t generalizing key with
  | empty => exact ⟨_, rfl, trivial⟩
  | stub => exact hfull.elim
  | leaf k w =>
    refine ⟨_, rfl, ?_⟩
    split <;> exact trivial
  | ext seg t ih =>
    rw [delete]
    cases strip seg key with
    | none => exact ⟨_, rfl, hfull⟩
    | some rest =>
      obtain ⟨u, hu, hufull⟩ := ih hfull hwf.2.2 rest
      dsimp only
      rw [hu]
      exact full_graft hufull
  | branch ch w ih =>
    obtain ⟨hch, hocc⟩ := hwf
    cases key with
    | nil =>
      rw [delete]
      split
      · exact ⟨_, rfl, hfull⟩
      · refine full_collapse hfull ?_
        unfold occupancy at hocc ⊢
        split at hocc <;> rw [if_pos rfl] <;> omega
    | cons d key =>
      obtain ⟨u, hu, hufull⟩ := ih d (hfull d) (hch d) key
      rw [delete, hu]
      refine full_collapse (forall_update hfull hufull) ?_
      have := occupancy_le_update ch w d u
      omega

/-! ## The trie of a map -/

/-- Something is in a trie that is not empty. -/
theorem exists_value (hfull : t.Full) (hwf : t.Wf) (h : t.isEmpty = false) :
    ∃ key, t.value key ≠ default := by
  induction t with
  | empty => cases h
  | stub => exact hfull.elim
  | leaf k w => exact ⟨k, by rw [value, if_pos rfl]; exact hwf⟩
  | ext seg t ih =>
    obtain ⟨key, hkey⟩ := ih hfull hwf.2.2 (not_isEmpty_of_isBranch hwf.2.1)
    exact ⟨seg ++ key, by rwa [value_ext_append]⟩
  | branch ch w ih =>
    by_cases hw : w = default
    · have hlen := hwf.2
      unfold occupancy at hlen
      rw [if_pos hw] at hlen
      obtain ⟨d, hd⟩ := List.exists_mem_of_length_pos (Nat.lt_of_lt_of_le Nat.zero_lt_two hlen)
      obtain ⟨key, hkey⟩ := ih d (hfull d) (hwf.1 d) (mem_occupied.mp hd)
      exact ⟨d :: key, hkey⟩
    · exact ⟨[], hw⟩

/-- A branch has keys with different heads. -/
theorem exists_value_of_branch {ch : Fin b → Trie b ν η} {w : ν} (hfull : ∀ d, (ch d).Full)
    (hwf : (branch ch w).Wf) (o : Option (Fin b)) :
    ∃ key, (branch ch w).value key ≠ default ∧ key.head? ≠ o := by
  have hbelow : ∀ d, d ∈ occupied ch → some d ≠ o →
      ∃ key, (branch ch w).value key ≠ default ∧ key.head? ≠ o := by
    intro d hd ho
    obtain ⟨key, hkey⟩ := exists_value (hfull d) (hwf.1 d) (mem_occupied.mp hd)
    exact ⟨d :: key, hkey, ho⟩
  have hlen := hwf.2
  unfold occupancy at hlen
  have hnd := nodup_occupied ch
  by_cases hw : w = default
  · rw [if_pos hw] at hlen
    match hocc : occupied ch with
    | [] => rw [hocc] at hlen; cases hlen
    | [d] => rw [hocc] at hlen; exact absurd hlen (Nat.not_succ_le_self 1)
    | d :: e :: rest =>
      rw [hocc] at hnd
      have hde : d ≠ e := fun h => (List.nodup_cons.mp hnd).1 (h ▸ List.mem_cons_self)
      by_cases hd : some d = o
      · refine hbelow e (by rw [hocc]; exact List.mem_cons_of_mem d List.mem_cons_self) ?_
        rw [← hd]
        exact fun h => hde (Option.some.inj h).symm
      · exact hbelow d (by rw [hocc]; exact List.mem_cons_self) hd
  · cases o with
    | none =>
      rw [if_neg hw] at hlen
      obtain ⟨d, hd⟩ :=
        List.exists_mem_of_length_pos (Nat.lt_of_succ_le (Nat.le_of_succ_le_succ hlen))
      exact hbelow d hd nofun
    | some d => exact ⟨[], hw, nofun⟩

/-- The keys of an extension begin with its segment. -/
theorem exists_value_of_isBranch (hfull : t.Full) (hwf : t.Wf) (hb : t.isBranch = true)
    (o : Option (Fin b)) : ∃ key, t.value key ≠ default ∧ key.head? ≠ o := by
  cases t with
  | empty => cases hb
  | stub => exact hfull.elim
  | leaf => cases hb
  | ext => cases hb
  | branch ch w => exact exists_value_of_branch hfull hwf o

omit [DecidableEq ν] in
theorem exists_append_of_value_ext (h : (ext seg t).value key ≠ default) :
    ∃ rest, key = seg ++ rest := by
  rw [value_ext] at h
  cases hs : strip seg key with
  | none =>
    rw [hs] at h
    exact absurd rfl h
  | some rest => exact ⟨rest, strip_eq_some.mp hs⟩

omit [DecidableEq ν] in
/-- A trie has finitely many values. -/
theorem finite_value (t : Trie b ν η) : {key | t.value key ≠ default}.Finite := by
  induction t with
  | empty => exact Set.finite_empty.subset fun key h => h rfl
  | stub => exact Set.finite_empty.subset fun key h => h rfl
  | leaf k v =>
    refine (Set.finite_singleton k).subset fun key h => ?_
    by_contra hne
    exact h (if_neg fun heq => hne heq.symm)
  | ext seg t ih =>
    refine (ih.image (seg ++ ·)).subset fun key h => ?_
    obtain ⟨rest, rfl⟩ := exists_append_of_value_ext h
    exact ⟨rest, by rwa [Set.mem_ofPred_eq, value_ext_append] at h, rfl⟩
  | branch ch v ih =>
    refine ((Set.finite_singleton []).union
      (Set.finite_iUnion fun d => (ih d).image (d :: ·))).subset fun key h => ?_
    cases key with
    | nil => exact .inl rfl
    | cons d rest => exact .inr (Set.mem_iUnion.mpr ⟨d, rest, h, rfl⟩)

/-- Extensions with the same values have the same segment. -/
theorem prefix_of_value_eq {seg' : List (Fin b)} (hfull : t.Full) (hwf : t.Wf)
    (hb : t.isBranch = true) (h : (ext seg t).value = (ext seg' t').value) : seg' <+: seg := by
  have hkey : ∀ o, ∃ rest, rest.head? ≠ o ∧ seg' <+: seg ++ rest := by
    intro o
    obtain ⟨rest, hne, ho⟩ := exists_value_of_isBranch hfull hwf hb o
    rw [← value_ext_append seg t rest, h] at hne
    obtain ⟨r, hr⟩ := exists_append_of_value_ext hne
    exact ⟨rest, ho, ⟨r, hr.symm⟩⟩
  obtain ⟨rest, -, hrest⟩ := hkey none
  rcases Nat.lt_or_ge seg.length seg'.length with hlt | hle
  · -- the first digit that `seg'` has more is the head of every key below `seg`
    obtain ⟨more, rfl⟩ := List.prefix_of_prefix_length_le (List.prefix_append seg rest) hrest
      (Nat.le_of_lt hlt)
    cases more with
    | nil =>
      rw [List.append_nil] at hlt
      exact absurd hlt (Nat.lt_irrefl _)
    | cons d more =>
      obtain ⟨rest, hd, hrest⟩ := hkey (some d)
      obtain ⟨r, hr⟩ := (List.prefix_append_right_inj seg).mp hrest
      rw [← hr] at hd
      exact absurd rfl hd
  · exact List.prefix_of_prefix_length_le hrest (List.prefix_append seg rest) hle

theorem isEmpty_of_value_eq (hfull : t'.Full) (hwf : t'.Wf) (h : t.value = t'.value)
    (ht : t.isEmpty = true) : t'.isEmpty = true := by
  by_contra hne
  rw [Bool.not_eq_true] at hne
  obtain ⟨key, hkey⟩ := exists_value hfull hwf hne
  rw [← h, eq_empty_of_isEmpty ht] at hkey
  exact hkey rfl

/-- A leaf has one key, a branch has two. -/
theorem leaf_value_ne_wrap {k : List (Fin b)} (hfull : t.Full) (hwf : t.Wf)
    (hb : t.isBranch = true) (seg : List (Fin b)) :
    (leaf k v : Trie b ν η).value ≠ (wrap seg t).value := by
  intro h
  obtain ⟨key, hne, -⟩ := exists_value_of_isBranch hfull hwf hb none
  obtain ⟨key', hne', hhead⟩ := exists_value_of_isBranch hfull hwf hb key.head?
  have hk : ∀ r, t.value r ≠ default → k = seg ++ r := by
    intro r hr
    have hr' : (wrap seg t).value (seg ++ r) = t.value r := by
      rw [value_wrap, strip_self_append]
      rfl
    rw [← hr', ← h, value] at hr
    by_contra hk
    exact hr (if_neg hk)
  refine hhead (congrArg List.head? ?_)
  exact List.append_cancel_left ((hk key' hne').symm.trans (hk key hne))

theorem ext_value_ne_branch {ch : Fin b → Trie b ν η} {w : ν} (hseg : seg ≠ [])
    (hfull : ∀ d, (ch d).Full) (hwf : (branch ch w).Wf) :
    (ext seg t).value ≠ (branch ch w).value := by
  intro h
  obtain ⟨key, hne, hhead⟩ := exists_value_of_branch hfull hwf seg.head?
  rw [← h] at hne
  obtain ⟨rest, rfl⟩ := exists_append_of_value_ext hne
  cases seg with
  | nil => exact hseg rfl
  | cons d seg => exact hhead rfl

/-- **A trie is determined by its values**, when nothing is missing in it. -/
theorem eq_of_value_eq (hfull : t.Full) (hwf : t.Wf) (hfull' : t'.Full) (hwf' : t'.Wf)
    (h : t.value = t'.value) : t = t' := by
  induction t generalizing t' with
  | empty => exact (eq_empty_of_isEmpty (isEmpty_of_value_eq hfull' hwf' h rfl)).symm
  | stub => exact hfull.elim
  | leaf k w =>
    cases t' with
    | empty => cases isEmpty_of_value_eq hfull hwf h.symm rfl
    | stub => exact hfull'.elim
    | leaf k' w' =>
      have hk := congrFun h k
      rw [value, value, if_pos rfl] at hk
      by_cases hkk : k' = k
      · rw [if_pos hkk] at hk
        rw [hk, hkk]
      · rw [if_neg hkk] at hk
        exact absurd hk hwf
    | ext seg' u =>
      rw [ext_value_eq] at h
      exact absurd h (leaf_value_ne_wrap (t := u) hfull' hwf'.2.2 hwf'.2.1 seg')
    | branch ch' w' => exact absurd h (leaf_value_ne_wrap hfull' hwf' rfl [])
  | ext seg u ih =>
    cases t' with
    | empty => cases isEmpty_of_value_eq hfull hwf h.symm rfl
    | stub => exact hfull'.elim
    | leaf k' w' =>
      rw [ext_value_eq] at h
      exact absurd h.symm (leaf_value_ne_wrap (t := u) hfull hwf.2.2 hwf.2.1 seg)
    | ext seg' u' =>
      have hseg : seg = seg' := by
        refine List.IsPrefix.eq_of_length_le ?_ ?_
        · exact prefix_of_value_eq (t := u') hfull' hwf'.2.2 hwf'.2.1 h.symm
        · exact (prefix_of_value_eq (t := u) hfull hwf.2.2 hwf.2.1 h).length_le
      subst hseg
      refine congrArg (ext seg) (ih hfull hwf.2.2 hfull' hwf'.2.2 ?_)
      funext key
      rw [← value_ext_append seg u, ← value_ext_append seg u', h]
    | branch ch' w' => exact absurd h (ext_value_ne_branch hwf.1 hfull' hwf')
  | branch ch w ih =>
    cases t' with
    | empty => cases isEmpty_of_value_eq hfull hwf h.symm rfl
    | stub => exact hfull'.elim
    | leaf k' w' => exact absurd h.symm (leaf_value_ne_wrap hfull hwf rfl [])
    | ext seg' u' => exact absurd h.symm (ext_value_ne_branch hwf'.1 hfull hwf)
    | branch ch' w' =>
      have hw : w = w' := congrFun h []
      have hch : ch = ch' := by
        funext d
        refine ih d (hfull d) (hwf.1 d) (hfull' d) (hwf'.1 d) ?_
        funext key
        exact congrFun h (d :: key)
      rw [hw, hch]

/-! ## Parts of tries -/

/-- A part of a trie: a stub stands for any subtrie that `sub` allows. -/
inductive Prunes (sub : η → Trie b ν η → Prop) : Trie b ν η → Trie b ν η → Prop where
  | empty : Prunes sub .empty .empty
  | stub {h : η} {u : Trie b ν η} (hu : sub h u) : Prunes sub (.stub h) u
  | leaf (k : List (Fin b)) (v : ν) : Prunes sub (.leaf k v) (.leaf k v)
  | ext {t u : Trie b ν η} (seg : List (Fin b)) (h : Prunes sub t u) :
    Prunes sub (.ext seg t) (.ext seg u)
  | branch {ch ch' : Fin b → Trie b ν η} (v : ν) (h : ∀ d, Prunes sub (ch d) (ch' d)) :
    Prunes sub (.branch ch v) (.branch ch' v)

section

variable {sub : η → Trie b ν η → Prop} {ch ch' : Fin b → Trie b ν η}

omit [Inhabited ν] [DecidableEq ν] in
theorem prunes_wrap (h : Prunes sub t u) : Prunes sub (wrap seg t) (wrap seg u) := by
  unfold wrap
  split
  · exact h
  · exact .ext seg h

omit [Inhabited ν] [DecidableEq ν] in
theorem prunes_update (h : ∀ d, Prunes sub (ch d) (ch' d)) (d : Fin b) (ht : Prunes sub t u)
    (e : Fin b) : Prunes sub (Function.update ch d t e) (Function.update ch' d u e) := by
  by_cases he : e = d
  · rw [he, Function.update_self, Function.update_self]
    exact ht
  · rw [Function.update_of_ne he, Function.update_of_ne he]
    exact h e

omit [Inhabited ν] [DecidableEq ν] in
/-- A value hung into both. -/
theorem prunes_hang {s s' : Slots b ν η} (h : Prunes sub (ofSlots s) (ofSlots s')) (v : ν)
    (key : List (Fin b)) : Prunes sub (ofSlots (hang s v key)) (ofSlots (hang s' v key)) := by
  unfold ofSlots at h ⊢
  generalize hx : branch s.1 s.2 = x at h
  generalize hy : branch s'.1 s'.2 = y at h
  cases h with
  | branch w h =>
    injection hx with hch hw
    injection hy with hch' hw'
    cases key with
    | nil =>
      rw [hang, hang, hch, hch']
      exact .branch v h
    | cons d key =>
      rw [hang, hang, hch, hch', hw, hw']
      exact .branch w (prunes_update h d (.leaf key v))
  | _ => cases hx

omit [DecidableEq ν] in
theorem prunes_hangTrie (h : Prunes sub t u) (seg : List (Fin b)) :
    Prunes sub (ofSlots (hangTrie bare t seg)) (ofSlots (hangTrie bare u seg)) := by
  have hbare : ∀ d, Prunes sub ((bare : Slots b ν η).1 d) ((bare : Slots b ν η).1 d) :=
    fun _ => .empty
  cases seg with
  | nil => exact .branch _ hbare
  | cons d seg => exact .branch _ (prunes_update hbare d (prunes_wrap h))

omit [DecidableEq ν] in
/-- **Insertion into a part of a trie** is insertion into the trie. -/
theorem insert_prunes (h : Prunes sub t u) (hrun : t.insert v key = some t') :
    ∃ u', u.insert v key = some u' ∧ Prunes sub t' u' := by
  induction h generalizing key t' with
  | empty =>
    cases hrun
    exact ⟨_, rfl, .leaf key v⟩
  | stub => cases hrun
  | leaf k w =>
    refine ⟨t', hrun, ?_⟩
    rw [insert] at hrun
    split at hrun
    · cases hrun
      exact .leaf k v
    · cases hrun
      exact prunes_wrap (prunes_hang (prunes_hang (.branch _ fun _ => .empty) w _) v _)
  | ext seg h ih =>
    rw [insert] at hrun ⊢
    split at hrun
    · next hall =>
      obtain ⟨t₁, ht₁, rfl⟩ := Option.map_eq_some_iff.mp hrun
      obtain ⟨u₁, hu₁, hp⟩ := ih ht₁
      exact ⟨_, by rw [if_pos hall, hu₁]; rfl, .ext seg hp⟩
    · next hne =>
      cases hrun
      exact ⟨_, if_neg hne, prunes_wrap (prunes_hang (prunes_hangTrie h _) v _)⟩
  | branch w h ih =>
    cases key with
    | nil =>
      cases hrun
      exact ⟨_, rfl, .branch v h⟩
    | cons d key =>
      rw [insert] at hrun ⊢
      obtain ⟨t₁, ht₁, rfl⟩ := Option.map_eq_some_iff.mp hrun
      obtain ⟨u₁, hu₁, hp⟩ := ih d ht₁
      exact ⟨_, by rw [hu₁]; rfl, .branch w (prunes_update h d hp)⟩

omit [DecidableEq ν] in
/-- What a lookup finds in a part of a trie is in the trie. -/
theorem get_prunes (h : Prunes sub t u) (hrun : t.get key = some v) : u.get key = some v := by
  induction h generalizing key with
  | empty => exact hrun
  | stub => cases hrun
  | leaf => exact hrun
  | ext seg h ih =>
    rw [get] at hrun ⊢
    cases hs : strip seg key with
    | none =>
      rw [hs] at hrun
      exact hrun
    | some rest =>
      rw [hs] at hrun
      exact ih hrun
  | branch w h ih =>
    cases key with
    | nil => exact hrun
    | cons d key => exact ih d hrun

/-! A stub never stands for the empty trie. -/

variable (hsub : ∀ h u, sub h u → u.isEmpty = false)

include hsub

omit [Inhabited ν] [DecidableEq ν] in
theorem isEmpty_of_prunes (h : Prunes sub t u) : t.isEmpty = u.isEmpty := by
  cases h with
  | stub hu => exact (hsub _ _ hu).symm
  | _ => rfl

omit [Inhabited ν] [DecidableEq ν] in
theorem occupied_of_prunes (h : ∀ d, Prunes sub (ch d) (ch' d)) : occupied ch = occupied ch' := by
  unfold occupied
  congr 1
  funext d
  rw [isEmpty_of_prunes hsub (h d)]

/-- A part of a trie has the shape of tries. -/
theorem wf_of_prunes (h : Prunes sub t u) (hwf : u.Wf) : t.Wf := by
  induction h with
  | empty => trivial
  | stub => trivial
  | leaf => exact hwf
  | @ext t u seg h ih =>
    refine ⟨hwf.1, ?_, ih hwf.2.2⟩
    have hb := hwf.2.1
    cases h with
    | stub => rfl
    | branch => rfl
    | _ => cases hb
  | branch w h ih =>
    refine ⟨fun d => ih d (hwf.1 d), ?_⟩
    have hocc := hwf.2
    unfold occupancy at hocc ⊢
    rwa [occupied_of_prunes hsub h]

omit hsub [Inhabited ν] [DecidableEq ν] in
theorem graft_prunes (h : Prunes sub t u) (hrun : graft seg t = some t') :
    ∃ u', graft seg u = some u' ∧ Prunes sub t' u' := by
  cases h with
  | stub => cases hrun
  | empty =>
    cases hrun
    exact ⟨_, rfl, .empty⟩
  | leaf k w =>
    cases hrun
    exact ⟨_, rfl, .leaf (seg ++ k) w⟩
  | ext seg' h =>
    cases hrun
    exact ⟨_, rfl, .ext (seg ++ seg') h⟩
  | branch w h =>
    cases hrun
    exact ⟨_, rfl, .ext seg (.branch w h)⟩

theorem collapse_prunes (h : ∀ d, Prunes sub (ch d) (ch' d)) (hrun : collapse ch v = some t') :
    ∃ u', collapse ch' v = some u' ∧ Prunes sub t' u' := by
  unfold collapse at hrun ⊢
  rw [← occupied_of_prunes hsub h]
  split at hrun
  · split at hrun
    · cases hrun
    · next hv =>
      cases hrun
      exact ⟨_, if_neg hv, .leaf [] v⟩
  · next d _ =>
    split at hrun
    · next hv =>
      rw [if_pos hv]
      exact graft_prunes (h d) hrun
    · next hv =>
      cases hrun
      exact ⟨_, if_neg hv, .branch v h⟩
  · cases hrun
    exact ⟨_, rfl, .branch v h⟩

/-- **Deletion from a part of a trie** is deletion from the trie. -/
theorem delete_prunes (h : Prunes sub t u) (hrun : t.delete key = some t') :
    ∃ u', u.delete key = some u' ∧ Prunes sub t' u' := by
  induction h generalizing key t' with
  | empty =>
    cases hrun
    exact ⟨_, rfl, .empty⟩
  | stub => cases hrun
  | leaf k w =>
    refine ⟨t', hrun, ?_⟩
    cases hrun
    split
    · exact .empty
    · exact .leaf k w
  | ext seg h ih =>
    rw [delete] at hrun ⊢
    cases hs : strip seg key with
    | none =>
      rw [hs] at hrun
      cases hrun
      exact ⟨_, rfl, .ext seg h⟩
    | some rest =>
      rw [hs] at hrun
      obtain ⟨t₁, ht₁, hrun⟩ := Option.bind_eq_some_iff.mp hrun
      obtain ⟨u₁, hu₁, hp⟩ := ih ht₁
      obtain ⟨u', hu', hp⟩ := graft_prunes hp hrun
      exact ⟨u', by dsimp only; rw [hu₁]; exact hu', hp⟩
  | branch w h ih =>
    cases key with
    | nil =>
      rw [delete] at hrun ⊢
      split at hrun
      · next hw =>
        cases hrun
        exact ⟨_, if_pos hw, .branch w h⟩
      · next hw =>
        rw [if_neg hw]
        exact collapse_prunes hsub h hrun
    | cons d key =>
      rw [delete] at hrun ⊢
      obtain ⟨t₁, ht₁, hrun⟩ := Option.bind_eq_some_iff.mp hrun
      obtain ⟨u₁, hu₁, hp⟩ := ih d ht₁
      rw [hu₁]
      exact collapse_prunes hsub (prunes_update h d hp) hrun

end

end

end Trie

end StatelessGuest.Lib
