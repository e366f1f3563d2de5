import Mathlib.Data.Set.Finite.Basic
import StatelessGuest.Mpt.Bounds
import StatelessGuest.Mpt.Delete

/-!
# Trie handles

A handle is the root of a trie and says whether keys are hashed before they are looked up.

* `mptGet`, `mptSet`, `mptRoot`: the operations; `perform`, `performAll`: programs of them.
* `Contents`, `Op.effect`, `answers`: what a trie is for, a map whose root depends on the map only.
* `trieOf`, `rootOfMap`, `rootOfMap_inj`: the trie of a map, and its root.
* `mpt_runs`: every program on a new trie answers as the map does, and does not fail.
* `mpt_root_history`: the root says which map a program leaves.
-/

namespace StatelessGuest.Mpt

open Lib Arena

/-! ## The code -/

/-- `IncrementalMpt`. -/
structure Handle where
  root : Option Nat
  secured : Bool

def mptNew (root : Option Nat) (secured : Bool) : Handle := ⟨root, secured⟩

/-- The value that is found; an empty one of a branch is not. -/
def trieWalk : Nat → Option Nat → Nibbles → MptM (Option Bytes)
  | 0, _, _ => throw .outOfFuel
  | _ + 1, none, _ => return none
  | fuel + 1, some node, key => do
    match ← ldNode node with
    | .hashed _ => mptFail 2
    | .made (.leaf nib val) _ _ => return if nib = key then some val else none
    | .made (.ext nib child) _ _ =>
      if key.length < nib.length then return none
      else if nib ≠ key.take nib.length then return none
      else trieWalk fuel child (key.drop nib.length)
    | .made (.branch children val) _ _ =>
      match key with
      | [] => return if val = [] then none else some val
      | d :: key => trieWalk fuel (children d) key

section

variable [Keccak]

def mptNibbleKey (secured : Bool) (key : Bytes) : Nibbles :=
  if secured then keyToNibbles (beBytes 32 (keccak256 key).toNat) else keyToNibbles key

def mptGet (m : Handle) (key : Bytes) : MptM (Option Bytes) :=
  let nk := mptNibbleKey m.secured key
  trieWalk (nk.length + 1) m.root nk

variable [Stray]

/-- An empty value deletes. -/
def mptSet (m : Handle) (key val : Bytes) : MptM Handle := do
  let nk := mptNibbleKey m.secured key
  if val = [] then return { m with root := ← mptDeleteNode m.root nk }
  else return { m with root := ← mptInsertNode m.root nk val }

/-- A use of a trie. -/
inductive Op where
  | set (key val : Bytes)
  | get (key : Bytes)
  | root

inductive Answer where
  | done
  | found (val : Option Bytes)
  | root (hash : Hash)

def perform (fuel : Nat) (m : Handle) : Op → MptM (Handle × Answer)
  | .set key val => do return (← mptSet m key val, .done)
  | .get key => do return (m, .found (← mptGet m key))
  | .root => do return (m, .root (← mptRoot fuel m.root))

def performAll (fuel : Nat) : Handle → List Op → MptM (Handle × List Answer)
  | m, [] => return (m, [])
  | m, op :: ops => do
    let r ← perform fuel m op
    let rs ← performAll fuel r.1 ops
    return (rs.1, r.2 :: rs.2)

end

/-- The root that a program on a new trie ends with. -/
def rootAfter [Keccak] [Stray] (fuel : Nat) (secured : Bool) (ops : List Op) : MptM Hash := do
  let r ← performAll fuel (mptNew none secured) ops
  mptRoot fuel r.1.root

/-! ## Maps -/

/-- What a trie holds; the empty string is no value. -/
abbrev Contents := Nibbles → Bytes

/-- A value that is there. -/
def present (val : Bytes) : Option Bytes := if val = [] then none else some val

section

variable [Keccak]

open Classical in
/-- The trie of a map. -/
noncomputable def trieOf (M : Contents) : MptTrie :=
  if h : ∃ t : MptTrie, t.Full ∧ t.Wf ∧ t.value = M then h.choose else .empty

/-- The root of a map. -/
noncomputable def rootOfMap (M : Contents) : Hash := rootOf (trieOf M)

omit [Keccak] in
theorem trieOf_value {t : MptTrie} (hfull : t.Full) (hwf : t.Wf) : trieOf t.value = t := by
  have hex : ∃ u : MptTrie, u.Full ∧ u.Wf ∧ u.value = t.value := ⟨t, hfull, hwf, rfl⟩
  unfold trieOf
  rw [dif_pos hex]
  obtain ⟨hfull', hwf', hvalue⟩ := hex.choose_spec
  exact Trie.eq_of_value_eq hfull' hwf' hfull hwf hvalue

theorem rootOfMap_eq {t : MptTrie} (hfull : t.Full) (hwf : t.Wf) :
    rootOfMap t.value = rootOf t := congrArg rootOf (trieOf_value hfull hwf)

omit [Keccak] in
/-- Every map with finitely many values has a trie. -/
theorem trieOf_spec {M : Contents} (hM : {k | M k ≠ []}.Finite) :
    (trieOf M).Full ∧ (trieOf M).Wf ∧ (trieOf M).value = M := by
  obtain ⟨t, hfull, hwf, rfl⟩ : ∃ t : MptTrie, t.Full ∧ t.Wf ∧ t.value = M := by
    generalize hS : {k | M k ≠ []} = S at hM
    induction S, hM using Set.Finite.induction_on generalizing M with
    | empty =>
      refine ⟨.empty, trivial, trivial, funext fun k => ?_⟩
      by_contra hk
      exact Set.notMem_empty k (hS ▸ (show k ∈ {k | M k ≠ []} from fun h => hk h.symm))
    | @insert key S hkey _ ih =>
      -- the trie without the key, then the value of the key
      have hmem : key ∈ {k | M k ≠ []} := hS ▸ Set.mem_insert key S
      obtain ⟨t, hfull, hwf, hvalue⟩ := ih (M := Function.update M key []) (by
        ext k
        by_cases hk : k = key
        · subst hk
          simp [hkey]
        · have := Set.ext_iff.mp hS k
          simpa [hk] using this)
      obtain ⟨t', hins, hfull'⟩ := Trie.full_insert hfull (M key) key
      refine ⟨t', hfull', (Trie.wf_insert (show M key ≠ default from hmem) hwf hins).1, ?_⟩
      rw [Trie.value_insert hins, hvalue, Function.update_idem, Function.update_eq_self]
  rw [trieOf_value hfull hwf]
  exact ⟨hfull, hwf, rfl⟩

/-- **A root binds a map**: no other map has it, unless two encodings of the tries collide. -/
theorem rootOfMap_inj {M M' : Contents} (hM : {k | M k ≠ []}.Finite)
    (hM' : {k | M' k ≠ []}.Finite)
    (hb : Binding (encodings (trieOf M) ∪ encodings (trieOf M'))) :
    rootOfMap M = rootOfMap M' ↔ M = M' := by
  refine ⟨fun h => ?_, congrArg rootOfMap⟩
  obtain ⟨hfull, -, hvalue⟩ := trieOf_spec hM
  obtain ⟨hfull', -, hvalue'⟩ := trieOf_spec hM'
  rw [← hvalue, ← hvalue', rootOf_injective hb hfull hfull' h]

/-- What an operation does to the map. -/
def Op.effect (secured : Bool) : Op → Contents → Contents
  | .set key val, M => Function.update M (mptNibbleKey secured key) val
  | .get _, M => M
  | .root, M => M

noncomputable def Op.answer (secured : Bool) (M : Contents) : Op → Answer
  | .set _ _ => .done
  | .get key => .found (present (M (mptNibbleKey secured key)))
  | .root => .root (rootOfMap M)

/-- The map that is left. -/
def effects (secured : Bool) : List Op → Contents → Contents
  | [], M => M
  | op :: ops, M => effects secured ops (op.effect secured M)

/-- The answers of a map. -/
noncomputable def answers (secured : Bool) : List Op → Contents → List Answer
  | [], _ => []
  | op :: ops, M => op.answer secured M :: answers secured ops (op.effect secured M)

/-! ## Lookup -/

variable {a b : Arena Node} {S : Set Nat} {c : Option Nat} {t u : MptTrie} {key : Nibbles}

theorem trieWalk_run {fuel : Nat} (hown : Owns a c t S) (hwf : t.Wf) (hlen : key.length < fuel) :
    (∀ v, t.get key = some v → trieWalk fuel c key a = .ok (present v) a) ∧
    (t.get key = none → trieWalk fuel c key a = .error (.mpt 2) a) := by
  obtain ⟨fuel, rfl⟩ := Nat.exists_eq_add_one_of_ne_zero (Nat.ne_zero_of_lt hlen)
  induction t generalizing c key fuel S with
  | empty =>
    cases hown
    refine ⟨fun v h => ?_, fun h => by cases h⟩
    cases h
    rfl
  | stub x =>
    cases hown with
    | @stub p _ _ hload =>
    refine ⟨fun _ h => (by cases h), fun _ => ?_⟩
    rw [trieWalk, bind_run_ok (ldNode_run p a), hload]
    rfl
  | leaf k w =>
    cases hown with
    | @leaf p _ _ _ _ _ hload =>
    refine ⟨fun v h => ?_, fun h => by cases h⟩
    cases h
    rw [trieWalk, bind_run_ok (ldNode_run p a), hload]
    dsimp only
    by_cases hk : k = key
    · rw [if_pos hk, if_pos hk, present, if_neg (show w ≠ [] from hwf)]
      rfl
    · rw [if_neg hk, if_neg hk]
      rfl
  | ext seg t ih =>
    cases hown with
    | @ext p _ c _ _ _ _ _ hload _ hchild =>
    rw [trieWalk, bind_run_ok (ldNode_run p a), hload, Trie.get]
    dsimp only
    cases hs : strip seg key with
    | none =>
      refine ⟨fun v h => ?_, fun h => by cases h⟩
      cases h
      by_cases hlt : key.length < seg.length
      · rw [if_pos hlt]
        rfl
      · have hne : seg ≠ key.take seg.length := by
          intro heq
          have := strip_self_append seg (key.drop seg.length)
          rw [← List.take_append_drop seg.length key, ← heq, this] at hs
          cases hs
        rw [if_neg hlt, if_pos hne]
        rfl
    | some rest =>
      obtain rfl := strip_eq_some.mp hs
      have hpos := List.length_pos_of_ne_nil hwf.1
      rw [List.length_append] at hlen
      obtain ⟨fuel, rfl⟩ := Nat.exists_eq_add_one_of_ne_zero (show fuel ≠ 0 by omega)
      rw [if_neg (by rw [List.length_append]; omega), List.take_left, List.drop_left,
        if_neg (not_not.mpr rfl)]
      exact ih hchild hwf.2.2 _ (by omega)
  | branch ch w ih =>
    cases hown with
    | @branch p cs _ _ _ _ _ _ hload _ hchild =>
    rw [trieWalk, bind_run_ok (ldNode_run p a), hload]
    cases key with
    | nil =>
      refine ⟨fun v h => ?_, fun h => by cases h⟩
      cases h
      rfl
    | cons d key =>
      obtain ⟨fuel, rfl⟩ := Nat.exists_eq_add_one_of_ne_zero
        (Nat.ne_zero_of_lt (Nat.lt_of_succ_lt_succ hlen))
      exact ih d (hchild d) (hwf.1 d) _ (Nat.lt_of_succ_lt_succ hlen)

theorem mptGet_run {m : Handle} (hown : Owns a m.root t S) (hwf : t.Wf) (key : Bytes) :
    (∀ v, t.get (mptNibbleKey m.secured key) = some v →
      mptGet m key a = .ok (present v) a) ∧
    (t.get (mptNibbleKey m.secured key) = none → mptGet m key a = .error (.mpt 2) a) :=
  trieWalk_run hown hwf (Nat.lt_succ_self _)

/-! ## Setting a value -/

/-- The trie after `mpt_set`. -/
def put (t : MptTrie) (key : Nibbles) (val : Bytes) : Option MptTrie :=
  if val = [] then t.delete key else t.insert val key

omit [Keccak] in
theorem value_put {t' : MptTrie} {val : Bytes} (h : put t key val = some t') :
    t'.value = Function.update t.value key val := by
  unfold put at h
  split at h
  · next hval =>
    rw [hval]
    exact Trie.value_delete h
  · exact Trie.value_insert h

omit [Keccak] in
theorem wf_put {t' : MptTrie} {val : Bytes} (hwf : t.Wf) (h : put t key val = some t') :
    t'.Wf := by
  unfold put at h
  split at h
  · exact Trie.wf_delete hwf h
  · next hval => exact (Trie.wf_insert (show val ≠ default from hval) hwf h).1

omit [Keccak] in
theorem full_put (hfull : t.Full) (hwf : t.Wf) (key : Nibbles) (val : Bytes) :
    ∃ t', put t key val = some t' ∧ t'.Full := by
  unfold put
  split
  · exact Trie.full_delete hfull hwf key
  · exact Trie.full_insert hfull val key

variable [Stray]

theorem mptSet_run {m : Handle} (hown : Owns a m.root t S) (hwf : t.Wf) (key val : Bytes) :
    (∀ t', put t (mptNibbleKey m.secured key) val = some t' → ∃ c b,
      mptSet m key val a = .ok ⟨c, m.secured⟩ b ∧ Rebuilt a S b c t') ∧
    (put t (mptNibbleKey m.secured key) val = none →
      ∃ b, mptSet m key val a = .error (.mpt 2) b) := by
  unfold mptSet put
  by_cases hval : val = []
  · obtain ⟨hok, hfail⟩ := mptDeleteNode_run hown hwf (mptNibbleKey m.secured key)
    rw [if_pos hval, if_pos hval]
    refine ⟨fun t' h => ?_, fun h => ?_⟩
    · obtain ⟨c, b, hrun, hb⟩ := hok t' h
      exact ⟨c, b, bind_run_ok hrun, hb⟩
    · obtain ⟨b, hrun⟩ := hfail h
      exact ⟨b, bind_run_error hrun⟩
  · obtain ⟨hok, hfail⟩ := mptInsertNode_run hown hwf val (mptNibbleKey m.secured key)
    rw [if_neg hval, if_neg hval]
    refine ⟨fun t' h => ?_, fun h => ?_⟩
    · obtain ⟨r, b, hrun, hb⟩ := hok t' h
      exact ⟨some r, b, bind_run_ok hrun, hb⟩
    · obtain ⟨b, hrun⟩ := hfail h
      exact ⟨b, bind_run_error hrun⟩

end

/-- The only key is deleted. -/
theorem mptSet_run_leaf :
    let _ : Keccak := fewHashes
    let _ : Stray := ⟨.outOfFuel⟩
    let a := Arena.empty.alloc (.made (.leaf [0, 1] [5]) none none)
    (∀ t', put (.leaf [0, 1] [5]) (mptNibbleKey false [1]) [] = some t' → ∃ c b,
      mptSet ⟨some 0, false⟩ [1] [] a = .ok ⟨c, false⟩ b ∧ Rebuilt a {0} b c t') ∧
    (put (.leaf [0, 1] [5]) (mptNibbleKey false [1]) [] = none →
      ∃ b, mptSet ⟨some 0, false⟩ [1] [] a = .error (.mpt 2) b) := by
  intro _ _ a
  exact mptSet_run (m := ⟨some 0, false⟩) (owns_alloc_leaf .empty [0, 1] [5])
    (List.cons_ne_nil 5 []) [1] []

section

variable [Keccak] {a b : Arena Node} {S : Set Nat} {key : Nibbles} [Stray]

/-! ## Programs -/

/-- The operation uses no more memory than there is. -/
def Op.Small : Op → Prop
  | .set key val => key.length < 2 ^ 59 ∧ val.length < 2 ^ 60
  | _ => True

omit [Stray] in
theorem length_mptNibbleKey_lt {key : Bytes} (h : key.length < 2 ^ 59) (secured : Bool) :
    (mptNibbleKey secured key).length < 2 ^ 60 := by
  unfold mptNibbleKey
  split
  · rw [length_keyToNibbles, length_beBytes]
    decide
  · rw [length_keyToNibbles]
    omega

omit [Stray] in
theorem small_effect {M : Contents} {op : Op} (hM : Small M) (hop : op.Small) (secured : Bool) :
    Small (op.effect secured M) := by
  cases op with
  | set key val =>
    rw [Op.effect]
    refine ⟨fun k hk => ?_, fun k => ?_⟩ <;> by_cases h : k = mptNibbleKey secured key
    · rw [h]
      exact length_mptNibbleKey_lt hop.1 secured
    · rw [Function.update_of_ne h] at hk
      exact hM.key_lt k hk
    · rw [h, Function.update_self]
      exact hop.2
    · rw [Function.update_of_ne h]
      exact hM.val_lt k
  | get key => exact hM
  | root => exact hM

/-- All of a map is in the trie of the handle, which has the footprint `S`. -/
structure Whole (a : Arena Node) (m : Handle) (M : Contents) (S : Set Nat) : Prop where
  holds : ∃ t, Owns a m.root t S ∧ t.Full ∧ t.Wf ∧ t.value = M

omit [Stray] in
theorem whole_new (a : Arena Node) (secured : Bool) :
    Whole a (mptNew none secured) (fun _ => []) ∅ :=
  ⟨.empty, .empty, trivial, trivial, rfl⟩

theorem perform_run {m : Handle} {M : Contents} (h : Whole a m M S) (hM : Small M) (op : Op) :
    ∃ n c b T, (∀ fuel, perform (n + fuel) m op a =
        .ok (⟨c, m.secured⟩, op.answer m.secured M) b) ∧
      Whole b ⟨c, m.secured⟩ (op.effect m.secured M) T ∧ Renewed a S T ∧ Changes S a b := by
  obtain ⟨t, hown, hfull, hwf, rfl⟩ := h.holds
  cases op with
  | set key val =>
    obtain ⟨t', hput, hfull'⟩ := full_put hfull hwf (mptNibbleKey m.secured key) val
    obtain ⟨c, b, hrun, T, hownT, hren, hch⟩ := (mptSet_run hown hwf key val).1 t' hput
    refine ⟨0, c, b, T, fun fuel => ?_, ?_, hren, hch⟩
    · rw [perform, bind_run_ok hrun]
      rfl
    · exact ⟨t', hownT, hfull', wf_put hwf hput, value_put hput⟩
  | get key =>
    have hrun := (mptGet_run hown hwf key).1 _ (Trie.get_full hfull _)
    refine ⟨0, m.root, a, S, fun fuel => ?_, ⟨t, hown, hfull, hwf, rfl⟩, .refl a S, .refl S a⟩
    rw [perform, bind_run_ok hrun]
    rfl
  | root =>
    obtain ⟨n, b, hrun, hownb, hch⟩ := mptRoot_run hown (fits_of_small hfull hwf hM)
    refine ⟨n, m.root, b, S, fun fuel => ?_, ⟨t, hownb, hfull, hwf, rfl⟩, .refl a S, hch⟩
    rw [perform, bind_run_ok (hrun fuel), Op.answer, rootOfMap_eq hfull hwf]
    rfl

/-- A program on a whole trie. -/
theorem performAll_run {m : Handle} {M : Contents} {ops : List Op} (h : Whole a m M S)
    (hM : Small M) (hops : ∀ op ∈ ops, op.Small) :
    ∃ n c b T, (∀ fuel, performAll (n + fuel) m ops a =
        .ok (⟨c, m.secured⟩, answers m.secured ops M) b) ∧
      Whole b ⟨c, m.secured⟩ (effects m.secured ops M) T ∧ Renewed a S T ∧ Changes S a b := by
  induction ops generalizing a m M S with
  | nil => exact ⟨0, m.root, a, S, fun _ => rfl, h, .refl a S, .refl S a⟩
  | cons op ops ih =>
    obtain ⟨n₁, c₁, a₁, S₁, hrun₁, h₁, hren₁, hch₁⟩ := perform_run h hM op
    have hM₁ := small_effect hM (hops op List.mem_cons_self) m.secured
    obtain ⟨n₂, c₂, b, T, hrun₂, h₂, hren₂, hch₂⟩ :=
      ih h₁ hM₁ fun op hop => hops op (List.mem_cons_of_mem _ hop)
    refine ⟨n₁ + n₂, c₂, b, T, fun fuel => ?_, h₂, hren₁.trans hch₁ hren₂,
      hch₁.trans hren₁ hch₂⟩
    have hfirst := hrun₁ (n₂ + fuel)
    have hrest := hrun₂ (n₁ + fuel)
    rw [← Nat.add_assoc] at hfirst hrest
    rw [Nat.add_comm n₂ n₁] at hrest
    rw [performAll, bind_run_ok hfirst, bind_run_ok hrest]
    rfl

omit [Keccak] [Stray] in
theorem small_empty : Small fun _ => [] := ⟨nofun, fun _ => by decide⟩

/-- **A new trie is a map**: for every program, with enough fuel for the encodings, the answers are
those of the map, roots included; nothing fails, and nothing else on the heap is changed. -/
theorem mpt_runs (secured : Bool) {ops : List Op} (hops : ∀ op ∈ ops, op.Small)
    (a : Arena Node) :
    ∃ n m b, (∀ fuel, performAll (n + fuel) (mptNew none secured) ops a =
        .ok (m, answers secured ops fun _ => []) b) ∧ Changes ∅ a b := by
  obtain ⟨n, c, b, T, hrun, -, -, hch⟩ := performAll_run (whole_new a secured) small_empty hops
  exact ⟨n, ⟨c, secured⟩, b, hrun, hch⟩

end

theorem mpt_runs_one :
    let _ : Keccak := fewHashes
    let _ : Stray := ⟨.outOfFuel⟩
    ∃ n m b, (∀ fuel, performAll (n + fuel) (mptNew none false)
        [.set [1] [5], .root, .get [1], .set [1] [], .root] .empty =
      .ok (m, answers false [.set [1] [5], .root, .get [1], .set [1] [], .root] fun _ => []) b) ∧
      Changes ∅ .empty b := by
  intro _ _
  exact mpt_runs false (by simp [Op.Small]) .empty

section

variable [Keccak] [Stray]

omit [Stray] in
theorem small_effects {M : Contents} {ops : List Op} (hM : Small M) (hops : ∀ op ∈ ops, op.Small)
    (secured : Bool) : Small (effects secured ops M) := by
  induction ops generalizing M with
  | nil => exact hM
  | cons op ops ih =>
    exact ih (small_effect hM (hops op List.mem_cons_self) secured)
      fun op hop => hops op (List.mem_cons_of_mem _ hop)

theorem rootAfter_run (secured : Bool) {ops : List Op} (hops : ∀ op ∈ ops, op.Small)
    (a : Arena Node) :
    ∃ n t b, (∀ fuel, rootAfter (n + fuel) secured ops a = .ok (rootOf t) b) ∧ t.Full ∧ t.Wf ∧
      t.value = effects secured ops fun _ => [] := by
  obtain ⟨n₁, c, a₁, T, hrun₁, hw, -, -⟩ := performAll_run (whole_new a secured) small_empty hops
  obtain ⟨t, hown, hfull, hwf, hvalue⟩ := hw.holds
  have hsmall : Small t.value := hvalue ▸ small_effects small_empty hops secured
  obtain ⟨n₂, b, hrun₂, -, -⟩ := mptRoot_run hown (fits_of_small hfull hwf hsmall)
  refine ⟨n₁ + n₂, t, b, fun fuel => ?_, hfull, hwf, hvalue⟩
  have hfirst := hrun₁ (n₂ + fuel)
  have hroot := hrun₂ (n₁ + fuel)
  rw [← Nat.add_assoc] at hfirst hroot
  rw [Nat.add_comm n₂ n₁] at hroot
  rw [rootAfter, bind_run_ok hfirst, hroot]

/-- **The root says which map is left**: two programs, whatever they do on the way, end with the
same root if and only if they leave the same map, unless two encodings of the tries of these maps
collide. -/
theorem mpt_root_history (secured secured' : Bool) {ops ops' : List Op}
    (hops : ∀ op ∈ ops, op.Small) (hops' : ∀ op ∈ ops', op.Small)
    (hb : Binding (encodings (trieOf (effects secured ops fun _ => [])) ∪
      encodings (trieOf (effects secured' ops' fun _ => [])))) (a a' : Arena Node) :
    ∃ n r r' b b', (∀ fuel, rootAfter (n + fuel) secured ops a = .ok r b) ∧
      (∀ fuel, rootAfter (n + fuel) secured' ops' a' = .ok r' b') ∧
      (r = r' ↔ effects secured ops (fun _ => []) = effects secured' ops' fun _ => []) := by
  obtain ⟨n, t, b, hrun, hfull, hwf, hvalue⟩ := rootAfter_run secured hops a
  obtain ⟨n', t', b', hrun', hfull', hwf', hvalue'⟩ := rootAfter_run secured' hops' a'
  rw [← hvalue, ← hvalue', trieOf_value hfull hwf, trieOf_value hfull' hwf'] at hb
  refine ⟨n + n', rootOf t, rootOf t', b, b', fun fuel => ?_, fun fuel => ?_, ?_⟩
  · rw [Nat.add_assoc]
    exact hrun _
  · rw [Nat.add_comm n n', Nat.add_assoc]
    exact hrun' _
  · rw [← hvalue, ← hvalue']
    refine ⟨fun h => congrArg Trie.value (rootOf_injective hb hfull hfull' h), fun h => ?_⟩
    rw [Trie.eq_of_value_eq hfull hwf hfull' hwf' h]

end

/-- A program that takes back what it has done ends with the root of the empty trie. -/
theorem mpt_root_history_empty :
    let _ : Keccak := fewHashes
    let _ : Stray := ⟨.outOfFuel⟩
    ∃ n r r' b b', (∀ fuel, rootAfter (n + fuel) false [.set [1] [5], .set [1] []] .empty =
        .ok r b) ∧ (∀ fuel, rootAfter (n + fuel) false [] .empty = .ok r' b') ∧
      (r = r' ↔ effects false [.set [1] [5], .set [1] []] (fun _ => []) =
        effects false [] fun _ => []) := by
  intro _ _
  have heff : effects false [.set [1] [5], .set [1] []] (fun _ => []) = fun _ => [] := by
    simp [effects, Op.effect]
  have hempty : trieOf (fun _ => []) = .empty :=
    trieOf_value (t := .empty) trivial trivial
  have henc : ∀ e ∈ encodings .empty, e = [128] := by
    rintro e ⟨u, hu, rfl⟩
    cases hu
    exact refBytes_empty
  refine mpt_root_history false false (by simp [Op.Small]) (by simp) ?_ .empty .empty
  rw [heff, effects, hempty, Set.union_self]
  refine ⟨fun x hx y hy _ => ?_, fun e he => ?_⟩
  · rw [henc x hx, henc y hy]
  · rw [henc e he]
    decide

end StatelessGuest.Mpt
