import StatelessGuest.Mpt.Insert

/-!
# Deletion

`mpt_set` without a value. The descent records the nodes that it passes; then they are put in order
from the last one up: a node below an extension may have to be joined with it, and a branch that is
left with one entry is no branch any more.

* `mptDeleteNode`: the code.
* `deleteRec`, `mptDeleteNode_eq`: the recursion that the two loops stand for.
* `collapseBranch_run`, `deleteExtFinish_run`: `Trie.collapse` and `Trie.graft`.
* `deleteRec_run`, `mptDeleteNode_run`: the deletion is `Trie.delete`, and fails where that does.
-/

namespace StatelessGuest.Mpt

open Lib Arena

/-! ## The code -/

/-- How many children there are, and the last of them. -/
def countChildren (children : Nibble → Option Nat) : Nat × Nibble :=
  (List.finRange 16).foldl (fun count i => if (children i).isSome then (count.1 + 1, i) else count)
    (0, nibbleOf 0)

/-- A node that is passed on the way down (`DL_*`). -/
inductive Passed where
  | ext (node : Nat) (seg : Nibbles)
  | branch (node : Nat) (idx : Nibble)

section

variable [Stray]

/-- The only child of a branch takes the place of the branch. -/
def collapseChild (idx : Nibble) : Option Nat → MptM Nat
  | none => throw Stray.exn
  | some child => do
    match ← ldNode child with
    | .hashed _ => mptFail 2
    | .made (.branch _ _) _ _ => nodeNewExt [idx] (some child)
    | .made (.leaf nib val) _ _ => nodeNewLeaf (idx :: nib) val
    | .made (.ext nib c) _ _ => nodeNewExt (idx :: nib) c

def collapseBranch (node : Nat) : MptM Nat := do
  let fields ← ldBranch node
  let count := countChildren fields.1
  if count.1 = 0 then
    if fields.2 = [] then mptFail 12 else nodeNewLeaf [] fields.2
  else if count.1 = 1 ∧ fields.2 = [] then collapseChild count.2 (fields.1 count.2)
  else return node

/-- An extension with what its child has become. -/
def deleteExtFinish (node : Nat) (seg : Nibbles) : Option Nat → MptM (Option Nat)
  | none => return none
  | some nc => do
    match ← ldNode nc with
    | .made (.branch _ _) _ _ => do
      modifyNode node (.setChild (some nc))
      return some node
    | .hashed _ => mptFail 2
    | .made (.ext nib c) _ _ => return some (← nodeNewExt (seg ++ nib) c)
    | .made (.leaf nib val) _ _ => return some (← nodeNewLeaf (seg ++ nib) val)

/-- A round of the descent at a node that is no hash: what is left of the node, or where to go
on. -/
def deleteAt (p : Nat) (key : Nibbles) :
    Body → MptM (Option Nat ⊕ Passed × Option Nat × Nibbles)
  | .leaf nib _ => return .inl (if nib = key then none else some p)
  | .ext seg child =>
    if commonPrefixLength seg key < seg.length then return .inl (some p)
    else return .inr (.ext p seg, child, key.drop seg.length)
  | .branch children val =>
    match key with
    | [] =>
      if val = [] then return .inl (some p)
      else do
        modifyNode p (.setVal [])
        return .inl (some (← collapseBranch p))
    | idx :: key => return .inr (.branch p idx, children idx, key)

def deleteStep : Option Nat → Nibbles → MptM (Option Nat ⊕ Passed × Option Nat × Nibbles)
  | none, _ => return .inl none
  | some p, key => do
    match ← ldNode p with
    | .hashed _ => mptFail 2
    | .made body _ _ => do
      nodeInvalidate p
      deleteAt p key body

def deleteDown : Nat → Option Nat → Nibbles → List Passed → MptM (Option Nat × List Passed)
  | 0, _, _, _ => throw .outOfFuel
  | fuel + 1, node, key, top => do
    match ← deleteStep node key with
    | .inl res => return (res, top)
    | .inr next => deleteDown fuel next.2.1 next.2.2 (next.1 :: top)

/-- The node of a record, with what is left below it. -/
def deleteFinish (res : Option Nat) : Passed → MptM (Option Nat)
  | .ext node seg => deleteExtFinish node seg res
  | .branch node idx => do
    modifyNode node (.setChildren idx res)
    return some (← collapseBranch node)

def deleteUp : List Passed → Option Nat → MptM (Option Nat)
  | [], res => return res
  | fr :: top, res => do
    let res ← deleteFinish res fr
    deleteUp top res

/-- `_mpt_delete_node`, with the part of the key that is left. -/
def mptDeleteNode (node : Option Nat) (key : Nibbles) : MptM (Option Nat) := do
  let r ← deleteDown (key.length + 1) node key []
  deleteUp r.2 r.1

/-! ## The recursion -/

/-- The recursion that the loops stand for. -/
def deleteRec : Nat → Option Nat → Nibbles → MptM (Option Nat)
  | 0, _, _ => throw .outOfFuel
  | fuel + 1, node, key => do
    match ← deleteStep node key with
    | .inl res => return res
    | .inr next => do
      let res ← deleteRec fuel next.2.1 next.2.2
      deleteFinish res next.1

theorem deleteDown_up (fuel : Nat) (node : Option Nat) (key : Nibbles) (top : List Passed) :
    (do let r ← deleteDown fuel node key top; deleteUp r.2 r.1) =
      (do let res ← deleteRec fuel node key; deleteUp top res) := by
  induction fuel generalizing node key top with
  | zero => rfl
  | succ fuel ih =>
    rw [deleteDown, deleteRec, bind_assoc, bind_assoc]
    refine bind_congr fun step => ?_
    cases step with
    | inl res => rw [pure_bind, pure_bind]
    | inr next =>
      dsimp only
      rw [ih, bind_assoc]
      rfl

theorem mptDeleteNode_eq (node : Option Nat) (key : Nibbles) :
    mptDeleteNode node key = deleteRec (key.length + 1) node key := by
  unfold mptDeleteNode
  rw [deleteDown_up]
  exact bind_pure _

end

/-! ## Branches with one entry -/

section

variable [Keccak] {a b : Arena Node} {S : Set Nat} {p : Nat} {r : Option Nat}
  {cs : Nibble → Option Nat} {ch : Nibble → MptTrie} {Ss : Nibble → Set Nat} {v : Bytes}
  {t : MptTrie} {seg key : Nibbles}

omit [Keccak] in
theorem countChildren_eq (cs : Nibble → Option Nat) :
    countChildren cs = (((List.finRange 16).filter fun d => (cs d).isSome).length,
      ((List.finRange 16).filter fun d => (cs d).isSome).getLastD (nibbleOf 0)) := by
  have hfold : ∀ (ds : List Nibble) (count : Nat × Nibble),
      ds.foldl (fun count i => if (cs i).isSome then (count.1 + 1, i) else count) count =
        (count.1 + (ds.filter fun d => (cs d).isSome).length,
          (ds.filter fun d => (cs d).isSome).getLastD count.2) := by
    intro ds
    induction ds with
    | nil => exact fun _ => rfl
    | cons d ds ih =>
      intro count
      rw [List.foldl_cons, ih, List.filter_cons]
      split
      · rw [List.length_cons, List.getLastD_cons, Nat.add_assoc, Nat.add_comm 1]
      · rfl
  unfold countChildren
  rw [hfold, Nat.zero_add]

theorem OwnsAll.occupied_eq (h : OwnsAll a p cs ch Ss) :
    Trie.occupied ch = (List.finRange 16).filter fun d => (cs d).isSome := by
  unfold Trie.occupied
  congr 1
  funext d
  exact (h.child d).isSome.symm

variable [Stray]

/-- The node of an only child is joined with the nibble that leads to it. -/
theorem collapseChild_run {T : Set Nat} (h : Owns a r t T) (hsub : T ⊆ S)
    (hne : t.isEmpty = false) (d : Nibble) :
    (∀ t', Trie.graft [d] t = some t' →
      ∃ q b, collapseChild d r a = .ok q b ∧ Rebuilt a S b (some q) t') ∧
    (Trie.graft [d] t = none → ∃ b, collapseChild d r a = .error (.mpt 2) b) := by
  have hrebuilt := h.rebuilt.mono hsub
  cases h with
  | empty => cases hne
  | @stub q x hq hload =>
    refine ⟨nofun, fun _ => ⟨a, ?_⟩⟩
    rw [collapseChild, bind_run_ok (ldNode_run q a), hload]
    rfl
  | @leaf q k v rlp hash hq hload hc =>
    refine ⟨fun t' ht' => ?_, nofun⟩
    cases ht'
    refine ⟨a.next, _, ?_, rebuilt_alloc_leaf a S (d :: k) v⟩
    rw [collapseChild, bind_run_ok (ldNode_run q a), hload]
    rfl
  | @ext q seg c rlp hash u T hq hload hc hchild hnot =>
    refine ⟨fun t' ht' => ?_, nofun⟩
    cases ht'
    have hT : T ⊆ S := fun x hx => hsub (.inr hx)
    refine ⟨a.next, _, ?_, (hchild.rebuilt.mono hT).alloc_ext (d :: seg)⟩
    rw [collapseChild, bind_run_ok (ldNode_run q a), hload]
    rfl
  | @branch q cs v rlp hash ch Ss hq hload hc hchild hnot hdisj =>
    refine ⟨fun t' ht' => ?_, nofun⟩
    cases ht'
    refine ⟨a.next, _, ?_, hrebuilt.alloc_ext [d]⟩
    rw [collapseChild, bind_run_ok (ldNode_run q a), hload]
    rfl

/-- **`_collapse_branch`** on a branch with an entry. -/
theorem collapseBranch_run (hall : OwnsAll a p cs ch Ss) (hp : a.Valid p)
    (hload : a.load p = .made (.branch cs v) none none) (hocc : 1 ≤ Trie.occupancy ch v) :
    (∀ t', Trie.collapse ch v = some t' → ∃ q b, collapseBranch p a = .ok q b ∧
      Rebuilt a (insert p (⋃ d, Ss d)) b (some q) t') ∧
    (Trie.collapse ch v = none → ∃ b, collapseBranch p a = .error (.mpt 2) b) := by
  have hfields : ldBranch p a = .ok (cs, v) a := by
    unfold ldBranch
    rw [bind_run_ok (ldNode_run p a), hload]
    rfl
  have hrebuilt := (hall.owns hp hload (caches_none _)).rebuilt
  have hsame : ∀ t', some (Trie.branch ch v : MptTrie) = some t' → ∃ q b,
      (pure p : MptM Nat) a = .ok q b ∧ Rebuilt a (insert p (⋃ d, Ss d)) b (some q) t' := by
    intro t' ht'
    cases ht'
    exact ⟨p, a, rfl, hrebuilt⟩
  unfold collapseBranch
  rw [bind_run_ok hfields, countChildren_eq, ← hall.occupied_eq]
  unfold Trie.occupancy at hocc
  unfold Trie.collapse
  split
  · next hnone =>
    rw [hnone] at hocc
    have hlen : (Trie.occupied ch).length = 0 := congrArg List.length hnone
    rw [if_pos hlen]
    have hv : v ≠ [] := by
      rintro rfl
      exact absurd hocc (by decide)
    rw [if_neg hv, if_neg (show v ≠ default from hv)]
    refine ⟨fun t' ht' => ?_, nofun⟩
    cases ht'
    exact ⟨a.next, _, rfl, rebuilt_alloc_leaf a _ [] v⟩
  · next d hone =>
    have hd : (ch d).isEmpty = false := by
      rw [← Trie.mem_occupied, hone]
      exact List.mem_singleton_self d
    have hlen : (Trie.occupied ch).length = 1 := congrArg List.length hone
    have hlast : (Trie.occupied ch).getLastD (nibbleOf 0) = d := by
      rw [hone]
      rfl
    rw [if_neg fun h => Nat.one_ne_zero (hlen.symm.trans h), hlast]
    by_cases hv : v = []
    · rw [if_pos (show v = default from hv), if_pos ⟨hlen, hv⟩]
      exact collapseChild_run (hall.child d)
        (fun q hq => .inr (Set.mem_iUnion.mpr ⟨d, hq⟩)) hd d
    · rw [if_neg (show v ≠ default from hv), if_neg fun h => hv h.2]
      exact ⟨hsame, nofun⟩
  · next h0 h1 =>
    have hlen : (Trie.occupied ch).length ≠ 0 ∧ (Trie.occupied ch).length ≠ 1 := by
      refine ⟨fun h => h0 (List.length_eq_zero_iff.mp h), fun h => ?_⟩
      obtain ⟨d, hd⟩ := List.length_eq_one_iff.mp h
      exact h1 d hd
    rw [if_neg hlen.1, if_neg fun h => hlen.2 h.1]
    exact ⟨hsame, nofun⟩

omit [Stray] in
/-- **`_delete_ext_finish`** above a trie that was made anew. -/
theorem deleteExtFinish_run {c : Option Nat} (hp : a.Valid p)
    (hload : a.load p = .made (.ext seg c) none none) (hnot : p ∉ S) (h : Rebuilt a S b r t) :
    (∀ t', Trie.graft seg t = some t' → ∃ q d, deleteExtFinish p seg r b = .ok q d ∧
      Rebuilt a (insert p S) d q t') ∧
    (Trie.graft seg t = none → ∃ d, deleteExtFinish p seg r b = .error (.mpt 2) d) := by
  have hext : ∀ {c}, Rebuilt a S b c t → Rebuilt a (insert p S)
      (b.store p (.made (.ext seg c) none none)) (some p) (.ext seg t) :=
    rebuilt_ext_store _ hp hnot
  have hkeep := hext h
  have hsub : S ⊆ insert p S := Set.subset_insert p S
  obtain ⟨T, hown, hren, hch⟩ := h
  have hloadb := (hch.same p hp hnot).trans hload
  have hchp := hch.mono hsub
  cases hown with
  | empty =>
    refine ⟨fun t' ht' => ?_, nofun⟩
    cases ht'
    exact ⟨none, b, rfl, ∅, .empty, fun _ => False.elim, hchp⟩
  | @stub q x hq hloadq =>
    refine ⟨nofun, fun _ => ⟨b, ?_⟩⟩
    rw [deleteExtFinish, bind_run_ok (ldNode_run q b), hloadq]
    rfl
  | @leaf q k v rlp hash hq hloadq hc =>
    refine ⟨fun t' ht' => ?_, nofun⟩
    cases ht'
    refine ⟨some b.next, _, ?_, (rebuilt_alloc_leaf b _ (seg ++ k) v).trans hchp (.refl a _)⟩
    rw [deleteExtFinish, bind_run_ok (ldNode_run q b), hloadq]
    rfl
  | @ext q seg' c rlp hash u T hq hloadq hc hchild hnotq =>
    refine ⟨fun t' ht' => ?_, nofun⟩
    cases ht'
    have hT : Renewed a (insert p S) T := fun x hx => (hren x (.inr hx)).imp_left fun h => hsub h
    refine ⟨some b.next, _, ?_, ((hchild.rebuilt).trans hchp hT).alloc_ext (seg ++ seg')⟩
    rw [deleteExtFinish, bind_run_ok (ldNode_run q b), hloadq]
    rfl
  | @branch q cs v rlp hash ch Ss hq hloadq hc hchild hnotq hdisj =>
    refine ⟨fun t' ht' => ?_, nofun⟩
    cases ht'
    refine ⟨some p, _, ?_, hkeep⟩
    rw [deleteExtFinish, bind_run_ok (ldNode_run q b), hloadq]
    dsimp only
    rw [bind_run_ok (modifyNode_run p _ b), hloadb]
    rfl

/-! ## The descent -/

variable {node : Option Nat}

omit [Keccak] in
theorem deleteStep_made {body : Body} {rlp : Option Bytes} {hash : Option Hash}
    (hload : a.load p = .made body rlp hash) (key : Nibbles) :
    deleteStep (some p) key a = deleteAt p key body (a.store p (.made body none none)) := by
  rw [deleteStep, bind_run_ok (ldNode_run p a), hload]
  dsimp only
  rw [bind_run_ok (nodeInvalidate_run p a), hload]
  rfl

omit [Keccak] in
theorem deleteRec_last {res : Option Nat} (h : deleteStep node key a = .ok (.inl res) b)
    (fuel : Nat) : deleteRec (fuel + 1) node key a = .ok res b := by
  rw [deleteRec, bind_run_ok h]
  rfl

omit [Keccak] in
theorem deleteRec_next {fr : Passed} {child : Option Nat} {rest : Nibbles}
    (h : deleteStep node key a = .ok (.inr (fr, child, rest)) b) (fuel : Nat) :
    deleteRec (fuel + 1) node key a =
      (deleteRec fuel child rest >>= fun res => deleteFinish res fr) b := by
  rw [deleteRec, bind_run_ok h]

/-- **The recursion is the deletion**: it leaves the trie without the key, and it fails only at a
hash that the deletion would have to enter. -/
theorem deleteRec_run {fuel : Nat} (hown : Owns a node t S) (hwf : t.Wf)
    (hlen : key.length < fuel) :
    (∀ t', t.delete key = some t' → ∃ q b, deleteRec fuel node key a = .ok q b ∧
      Rebuilt a S b q t') ∧
    (t.delete key = none → ∃ b, deleteRec fuel node key a = .error (.mpt 2) b) := by
  obtain ⟨fuel, rfl⟩ := Nat.exists_eq_add_one_of_ne_zero (Nat.ne_zero_of_lt hlen)
  induction t generalizing a node key fuel S with
  | empty =>
    cases hown
    refine ⟨fun t' h => ?_, fun h => by cases h⟩
    cases h
    exact ⟨none, a, rfl, Owns.empty.rebuilt⟩
  | stub x =>
    cases hown with
    | @stub p _ hp hload =>
    refine ⟨fun _ h => (by cases h), fun _ => ⟨a, ?_⟩⟩
    have hstep : deleteStep (some p) key a = .error (.mpt 2) a := by
      rw [deleteStep, bind_run_ok (ldNode_run p a), hload]
      rfl
    rw [deleteRec, bind_run_error hstep]
  | leaf k w =>
    cases hown with
    | @leaf p _ _ rlp hash hp hload hc =>
    have hch := changes_store (Set.mem_singleton p) a (Node.made (.leaf k w) none none)
    refine ⟨fun t' h => ?_, fun h => by cases h⟩
    cases h
    refine ⟨_, _, deleteRec_last (deleteStep_made hload _) fuel, ?_⟩
    split
    · exact ⟨∅, .empty, fun _ => False.elim, hch⟩
    · exact ⟨{p}, .leaf (hch.valid hp) (load_store_self hp _) (caches_none _), .refl a _, hch⟩
  | ext seg t ih =>
    cases hown with
    | @ext p _ c rlp hash _ S hp hload hc hchild hnot =>
    have hch := changes_store (Set.mem_singleton p) a (Node.made (.ext seg c) none none)
    have hp₁ := hch.valid hp
    have hload₁ := load_store_self hp (Node.made (.ext seg c) none none)
    have hchild₁ := hchild.changes hch (Set.disjoint_singleton_right.mpr hnot)
    have hstep := deleteStep_made hload key
    have hpre := hch.mono (Set.singleton_subset_iff.mpr (Set.mem_insert p S))
    generalize a.store p (.made (.ext seg c) none none) = a₁ at *
    rw [deleteAt] at hstep
    rw [Trie.delete, commonPrefix_strip]
    by_cases hlt : commonPrefixLength seg key < seg.length
    · -- the key is not below the segment
      rw [if_pos hlt] at hstep ⊢
      refine ⟨fun t' h => ?_, fun h => by cases h⟩
      cases h
      exact ⟨some p, a₁, deleteRec_last hstep fuel, _,
        .ext hp₁ hload₁ (caches_none _) hchild₁ hnot, .refl a _, hpre⟩
    · rw [if_neg hlt] at hstep ⊢
      have hlen' : (key.drop seg.length).length < fuel := by
        have hpos := List.length_pos_of_ne_nil hwf.1
        have hle := commonPrefixLength_le_right seg key
        rw [List.length_drop]
        omega
      obtain ⟨fuel, rfl⟩ := Nat.exists_eq_add_one_of_ne_zero (Nat.ne_zero_of_lt hlen')
      obtain ⟨hok, hfail⟩ := ih hchild₁ hwf.2.2 _ hlen'
      rw [deleteRec_next hstep]
      refine ⟨fun t' h => ?_, fun h => ?_⟩
      · obtain ⟨t₁, ht₁, h⟩ := Option.bind_eq_some_iff.mp h
        obtain ⟨r, b, hrun, hb⟩ := hok t₁ ht₁
        obtain ⟨q, d, hfin, hd⟩ := (deleteExtFinish_run hp₁ hload₁ hnot hb).1 t' h
        rw [bind_run_ok hrun]
        exact ⟨q, d, hfin, hd.trans hpre (.refl a _)⟩
      · cases ht₁ : t.delete (key.drop seg.length) with
        | none =>
          obtain ⟨b, hrun⟩ := hfail ht₁
          exact ⟨b, bind_run_error hrun⟩
        | some t₁ =>
          dsimp only at h
          rw [ht₁] at h
          obtain ⟨r, b, hrun, hb⟩ := hok t₁ ht₁
          obtain ⟨d, hfin⟩ := (deleteExtFinish_run hp₁ hload₁ hnot hb).2 h
          rw [bind_run_ok hrun]
          exact ⟨d, hfin⟩
  | branch ch w ih =>
    cases hown with
    | @branch p cs _ rlp hash _ Ss hp hload hc hchild hnot hdisj =>
    have hch := changes_store (Set.mem_singleton p) a (Node.made (.branch cs w) none none)
    have hp₁ := hch.valid hp
    have hload₁ := load_store_self hp (Node.made (.branch cs w) none none)
    have hall := OwnsAll.store ⟨hchild, hnot, hdisj⟩ (Node.made (.branch cs w) none none)
    have hstep := deleteStep_made hload key
    have hpre := hch.mono (Set.singleton_subset_iff.mpr (Set.mem_insert p (⋃ d, Ss d)))
    generalize a.store p (.made (.branch cs w) none none) = a₁ at *
    cases key with
    | nil =>
      rw [deleteAt] at hstep
      rw [Trie.delete]
      by_cases hw : w = []
      · rw [if_pos hw] at hstep
        rw [if_pos (show w = default from hw)]
        refine ⟨fun t' h => ?_, fun h => by cases h⟩
        cases h
        exact ⟨some p, a₁, deleteRec_last hstep fuel, _, hall.owns hp₁ hload₁ (caches_none _),
          .refl a _, hpre⟩
      · rw [if_neg hw, bind_run_ok (modifyNode_run p _ a₁), hload₁] at hstep
        rw [if_neg (show w ≠ default from hw)]
        have hset := changes_store (Set.mem_singleton p) a₁ (Node.made (.branch cs []) none none)
        have hocc : 1 ≤ Trie.occupancy ch ([] : Bytes) := by
          have := hwf.2
          unfold Trie.occupancy at this ⊢
          split at this <;> rw [if_pos (by rfl)] <;> omega
        obtain ⟨hok, hfail⟩ := collapseBranch_run (hall.store _) (hset.valid hp₁)
          (load_store_self hp₁ (Node.made (.branch cs []) none none)) hocc
        have hpre₂ := hpre.trans_self
          (hset.mono (Set.singleton_subset_iff.mpr (Set.mem_insert p (⋃ d, Ss d))))
        refine ⟨fun t' h => ?_, fun h => ?_⟩
        · obtain ⟨q, b, hrun, hb⟩ := hok t' h
          refine ⟨some q, b, deleteRec_last ?_ fuel, hb.trans hpre₂ (.refl a _)⟩
          rw [hstep]
          exact bind_run_ok hrun
        · obtain ⟨b, hrun⟩ := hfail h
          refine ⟨b, ?_⟩
          rw [deleteRec, bind_run_error (hstep.trans (bind_run_error hrun))]
    | cons d key =>
      rw [deleteAt] at hstep
      obtain ⟨fuel, rfl⟩ := Nat.exists_eq_add_one_of_ne_zero
        (Nat.ne_zero_of_lt (Nat.lt_of_succ_lt_succ hlen))
      obtain ⟨hok, hfail⟩ := ih d (hall.child d) (hwf.1 d) _ (Nat.lt_of_succ_lt_succ hlen)
      rw [deleteRec_next hstep, Trie.delete]
      -- the branch after the child was made anew
      have hfinish : ∀ {r : Option Nat} {b : Arena Node} {t₁ : MptTrie}, Rebuilt a₁ (Ss d) b r t₁ →
          (∀ t', Trie.collapse (Function.update ch d t₁) w = some t' → ∃ q c,
            deleteFinish r (.branch p d) b = .ok q c ∧
              Rebuilt a (insert p (⋃ d, Ss d)) c q t') ∧
          (Trie.collapse (Function.update ch d t₁) w = none →
            ∃ c, deleteFinish r (.branch p d) b = .error (.mpt 2) c) := by
        intro r b t₁ hb
        obtain ⟨Ss', hall', hp', hload', hren', hch'⟩ := hall.renew (v := w) hp₁ hb rfl
        obtain ⟨-, -, -, hb⟩ := hb
        have hocc : 1 ≤ Trie.occupancy (Function.update ch d t₁) w := by
          have := Trie.occupancy_le_update ch w d t₁
          have := hwf.2
          omega
        obtain ⟨hok, hfail⟩ := collapseBranch_run hall' hp' hload' hocc
        rw [deleteFinish, bind_run_ok (modifyNode_run p _ b), hb.same p hp₁ (hnot d), hload₁]
        refine ⟨fun t' h => ?_, fun h => ?_⟩
        · obtain ⟨q, c, hrun, hc⟩ := hok t' h
          exact ⟨some q, c, bind_run_ok hrun, (hc.trans hch' hren').trans hpre (.refl a _)⟩
        · obtain ⟨c, hrun⟩ := hfail h
          exact ⟨c, bind_run_error hrun⟩
      refine ⟨fun t' h => ?_, fun h => ?_⟩
      · obtain ⟨t₁, ht₁, h⟩ := Option.bind_eq_some_iff.mp h
        obtain ⟨r, b, hrun, hb⟩ := hok t₁ ht₁
        rw [bind_run_ok hrun]
        exact (hfinish hb).1 t' h
      · cases ht₁ : (ch d).delete key with
        | none =>
          obtain ⟨b, hrun⟩ := hfail ht₁
          exact ⟨b, bind_run_error hrun⟩
        | some t₁ =>
          rw [ht₁] at h
          obtain ⟨r, b, hrun, hb⟩ := hok t₁ ht₁
          rw [bind_run_ok hrun]
          exact (hfinish hb).2 h

/-- **`_mpt_delete_node` is the deletion.** -/
theorem mptDeleteNode_run (hown : Owns a node t S) (hwf : t.Wf) (key : Nibbles) :
    (∀ t', t.delete key = some t' →
      ∃ q b, mptDeleteNode node key a = .ok q b ∧ Rebuilt a S b q t') ∧
    (t.delete key = none → ∃ b, mptDeleteNode node key a = .error (.mpt 2) b) := by
  rw [mptDeleteNode_eq]
  exact deleteRec_run hown hwf (Nat.lt_succ_self _)

end

end StatelessGuest.Mpt
