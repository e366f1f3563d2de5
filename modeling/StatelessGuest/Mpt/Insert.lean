import StatelessGuest.Mpt.Owns

/-!
# Insertion

The descent of `mpt_set` with a value. A node on the path stays in its place, and the node that
replaces what was below the last one of them is stored in the slot that the descent has reached.

* `mptInsertNode`: the code.
* `Building`: a new branch that is being filled.
* `insertLoop_run`: the loop is `Trie.insert`, and fails where that does.
* `mptInsertNode_run`.
-/

namespace StatelessGuest.Mpt

open Lib Arena

/-! ## The code -/

/-- A value in a branch, or in a new leaf below it. -/
def hangLeaf (br : Nat) (v : Bytes) : Nibbles → MptM Unit
  | [] => modifyNode br (.setVal v)
  | d :: key => do
    let lf ← nodeNewLeaf key v
    modifyNode br (.setChildren d (some lf))

def createBranchFromTwoLeaves (k1 : Nibbles) (v1 : Bytes) (k2 : Nibbles) (v2 : Bytes) :
    MptM Nat := do
  let br ← nodeNewBranch
  hangLeaf br v1 k1
  hangLeaf br v2 k2
  return br

/-- The end of a split: an extension of the common prefix, unless that is empty. -/
def wrapNode (seg : Nibbles) (pl br : Nat) : MptM Nat :=
  if 0 < pl then nodeNewExt (seg.take pl) (some br) else return br

/-- Insert at a leaf with the key `ek` and the value `ev`. -/
def insertIntoLeaf (node : Nat) (ek : Nibbles) (ev : Bytes) (rk : Nibbles) (v : Bytes) :
    MptM Nat :=
  if ek = rk then do
    modifyNode node (.setVal v)
    return node
  else do
    let pl := commonPrefixLength ek rk
    let br ← createBranchFromTwoLeaves (ek.drop pl) ev (rk.drop pl) v
    wrapNode ek pl br

/-- The rest of the segment of a split extension. -/
def splitChild (br : Nat) (child : Option Nat) : Nibbles → MptM Unit
  | [] => return ()
  | [d] => modifyNode br (.setChildren d child)
  | d :: rest => do
    let ex ← nodeNewExt rest child
    modifyNode br (.setChildren d (some ex))

section

variable [Stray]

/-- The value at a split extension. -/
def splitLeaf (br : Nat) (v : Bytes) : Nibbles → MptM Unit
  | [] => modifyNode br (.setVal v)
  | idx :: rest => do
    let fields ← ldBranch br
    if (fields.1 idx).isSome then mptFail 11
    else do
      let lf ← nodeNewLeaf rest v
      modifyNode br (.setChildren idx (some lf))

def splitExtension (seg : Nibbles) (child : Option Nat) (rk : Nibbles) (v : Bytes) (pl : Nat) :
    MptM Nat := do
  let br ← nodeNewBranch
  splitChild br child (seg.drop pl)
  splitLeaf br v (rk.drop pl)
  return br

/-- A round at a node that is no hash: the node to store in the slot, and where the descent goes
on. -/
def insertAt (v : Bytes) (p : Nat) (key : Nibbles) :
    Body → MptM (Nat × Option (Option Nat × Nibbles × Slot))
  | .leaf ek ev => do return (← insertIntoLeaf p ek ev key v, none)
  | .ext seg child =>
    let pl := commonPrefixLength seg key
    if pl = seg.length then return (p, some (child, key.drop pl, .child p))
    else do
      let br ← splitExtension seg child key v pl
      return (← wrapNode seg pl br, none)
  | .branch children _ =>
    match key with
    | [] => do
      modifyNode p (.setVal v)
      return (p, none)
    | idx :: key => return (p, some (children idx, key, .children p idx))

def insertStep (v : Bytes) :
    Option Nat → Nibbles → MptM (Nat × Option (Option Nat × Nibbles × Slot))
  | none, key => do return (← nodeNewLeaf key v, none)
  | some p, key => do
    match ← ldNode p with
    | .hashed _ => mptFail 2
    | .made body _ _ => do
      nodeInvalidate p
      insertAt v p key body

def insertLoop (v : Bytes) :
    Nat → Option Nat → Nibbles → Slot → Option Nat → MptM (Option Nat)
  | 0, _, _, _, _ => throw .outOfFuel
  | fuel + 1, node, key, slot, result => do
    let r ← insertStep v node key
    let result ← stSlot (some r.1) slot result
    match r.2 with
    | none => return result
    | some next => insertLoop v fuel next.1 next.2.1 next.2.2 result

/-- `_mpt_insert_node`, with the part of the key that is left. Every round but the last one uses a
nibble. -/
def mptInsertNode (node : Option Nat) (key : Nibbles) (v : Bytes) : MptM (Option Nat) :=
  insertLoop v (key.length + 1) node key .result none

end

/-! ## New branches -/

section

variable [Keccak]

/-- A branch that is not in the heap `a₀` is being filled; the rest of the heap changes in `S`. -/
structure Building (a₀ : Arena Node) (S : Set Nat) (a : Arena Node) (br : Nat)
    (s : Trie.Slots 16 Bytes Hash) (cs : Nibble → Option Nat) (Ss : Nibble → Set Nat) : Prop where
  changes : Changes S a₀ a
  fresh : ¬ a₀.Valid br
  valid : a.Valid br
  load : a.load br = .made (.branch cs s.2) none none
  all : OwnsAll a br cs s.1 Ss
  renewed : ∀ d, Renewed a₀ S (Ss d)

variable {a₀ a b : Arena Node} {S : Set Nat} {br : Nat} {s : Trie.Slots 16 Bytes Hash}
  {cs : Nibble → Option Nat} {Ss : Nibble → Set Nat} {t t' : MptTrie} {v : Bytes}
  {key seg : Nibbles}

theorem Building.rebuilt (h : Building a₀ S a br s cs Ss) :
    Rebuilt a₀ S a (some br) (Trie.ofSlots s) := by
  refine ⟨_, h.all.owns h.valid h.load (caches_none _), ?_, h.changes⟩
  rintro q (rfl | hq)
  · exact .inr h.fresh
  · obtain ⟨d, hd⟩ := Set.mem_iUnion.mp hq
    exact h.renewed d q hd

omit [Keccak] in
/-- A record that is new may change as well. -/
theorem changes_store_fresh (h : Changes S a₀ a) (hfresh : ¬ a₀.Valid br) (x : Node) :
    Changes S a₀ (a.store br x) := by
  refine ⟨by rw [next_store]; exact h.next_le, fun p hp hne => ?_⟩
  have hpr : p ≠ br := by
    rintro rfl
    exact hfresh hp
  rw [load_store_of_ne hpr, h.same p hp hne]

theorem building_new (h : Changes S a₀ a) :
    Building a₀ S (a.alloc (.made (.branch (fun _ => none) []) none none)) a.next Trie.bare
      (fun _ => none) fun _ => ∅ where
  changes := h.trans_self (changes_alloc S a _)
  fresh := fun hn => Nat.lt_irrefl _ (h.valid hn)
  valid := valid_alloc_self a _
  load := load_alloc_self a _
  all := ⟨fun _ => .empty, fun _ => Set.notMem_empty _, fun _ _ _ => Set.disjoint_empty _⟩
  renewed := fun _ _ => False.elim

/-- A trie becomes a child. -/
theorem Building.put {c : Option Nat} {d : Nibble} {T : Set Nat} (h : Building a₀ S a br s cs Ss)
    (hch : Changes (Ss d) a b) (ht : Owns b c t T) (hnot : br ∉ T) (hren : Renewed a₀ S T)
    (hdis : ∀ e, e ≠ d → Disjoint (Ss e) T) :
    ∃ b' cs' Ss', modifyNode br (.setChildren d c) b = .ok () b' ∧
      Building a₀ S b' br (Function.update s.1 d t, s.2) cs' Ss' := by
  have hb := hch.valid h.valid
  refine ⟨b.store br (.made (.branch (Function.update cs d c) s.2) none none), _, _, ?_,
    changes_store_fresh (h.changes.trans (h.renewed d) hch) h.fresh _, h.fresh, ?_,
    load_store_self hb _, (h.all.put hch ht hnot hdis).store _, fun e => ?_⟩
  · rw [modifyNode_run, hch.same br h.valid (h.all.not_mem d), h.load]
    rfl
  · exact (changes_store (Set.mem_singleton br) b _).valid hb
  · by_cases he : e = d
    · rw [he, Function.update_self]
      exact hren
    · rw [Function.update_of_ne he]
      exact h.renewed e

omit [Keccak] in
theorem renewed_singleton_next (a : Arena Node) (S : Set Nat) : Renewed a S {a.next} := by
  rintro q rfl
  exact .inr (Nat.lt_irrefl _)

/-- A new leaf that takes the place of a trie. -/
theorem rebuilt_alloc_leaf (a : Arena Node) (S : Set Nat) (k : Nibbles) (v : Bytes) :
    Rebuilt a S (a.alloc (.made (.leaf k v) none none)) (some a.next) (.leaf k v) :=
  ⟨_, owns_alloc_leaf a k v, renewed_singleton_next a S, changes_alloc S a _⟩

theorem Rebuilt.alloc_ext {p : Option Nat} (h : Rebuilt a S b p t) (seg : Nibbles) :
    Rebuilt a S (b.alloc (.made (.ext seg p) none none)) (some b.next) (.ext seg t) := by
  obtain ⟨T, hown, hren, hch⟩ := h
  refine ⟨_, owns_alloc_ext hown seg, ?_, hch.trans_self (changes_alloc S b _)⟩
  rintro q (rfl | hq)
  · exact .inr fun hn => Nat.lt_irrefl _ (hch.valid hn)
  · exact hren q hq

/-- A value is hung into the branch. -/
theorem hangLeaf_run (h : Building a₀ S a br s cs Ss) (v : Bytes) (key : Nibbles) :
    ∃ b cs' Ss', hangLeaf br v key a = .ok () b ∧
      Building a₀ S b br (Trie.hang s v key) cs' Ss' := by
  cases key with
  | nil =>
    refine ⟨a.store br (.made (.branch cs v) none none), cs, Ss, ?_,
      changes_store_fresh h.changes h.fresh _, h.fresh, ?_, load_store_self h.valid _,
      h.all.store _, h.renewed⟩
    · rw [hangLeaf, modifyNode_run, h.load]
      rfl
    · exact (changes_store (Set.mem_singleton br) a _).valid h.valid
  | cons d key =>
    have hren := renewed_singleton_next a (Ss d)
    exact h.put (d := d) (changes_alloc (Ss d) a _) (owns_alloc_leaf a key v)
      (hren.not_mem h.valid (h.all.not_mem d)) ((h.renewed d).trans h.changes hren)
      (h.all.disjoint_renewed hren)

theorem createBranch_run (k1 k2 : Nibbles) (v1 v2 : Bytes) (h : Changes S a₀ a) :
    ∃ br b, createBranchFromTwoLeaves k1 v1 k2 v2 a = .ok br b ∧
      Rebuilt a₀ S b (some br) (Trie.ofSlots (Trie.hang (Trie.hang Trie.bare v1 k1) v2 k2)) := by
  obtain ⟨a₁, cs₁, Ss₁, hrun₁, h₁⟩ := hangLeaf_run (building_new h) v1 k1
  obtain ⟨a₂, cs₂, Ss₂, hrun₂, h₂⟩ := hangLeaf_run h₁ v2 k2
  refine ⟨a.next, a₂, ?_, h₂.rebuilt⟩
  unfold createBranchFromTwoLeaves nodeNewBranch
  rw [bind_run_ok (allocNode_run _ a), bind_run_ok hrun₁, bind_run_ok hrun₂]
  rfl

theorem wrapNode_run {pl : Nat} (h : Rebuilt a₀ S a (some br) t) (hpl : pl ≤ seg.length) :
    ∃ r b, wrapNode seg pl br a = .ok r b ∧
      Rebuilt a₀ S b (some r) (Trie.wrap (seg.take pl) t) := by
  unfold wrapNode
  split
  · next hpos =>
    have hne : seg.take pl ≠ [] := by
      intro hnil
      have := congrArg List.length hnil
      rw [List.length_take, List.length_nil] at this
      omega
    rw [Trie.wrap_of_ne hne]
    exact ⟨_, _, rfl, h.alloc_ext _⟩
  · next hpos =>
    obtain rfl := Nat.eq_zero_of_not_pos hpos
    exact ⟨br, a, rfl, h⟩

/-- The trie below a split extension is hung into the new branch. -/
theorem splitChild_run {child : Option Nat} {T : Set Nat} (d : Nibble) (rest : Nibbles)
    (h : Building a₀ S a br Trie.bare (fun _ => none) fun _ => ∅) (ht : Owns a child t T)
    (hnot : br ∉ T) (hren : Renewed a₀ S T) :
    ∃ b cs' Ss', splitChild br child (d :: rest) a = .ok () b ∧
      Building a₀ S b br (Trie.hangTrie Trie.bare t (d :: rest)) cs' Ss' := by
  have hdis : ∀ (T : Set Nat) (e : Nibble), e ≠ d → Disjoint (∅ : Set Nat) T :=
    fun T _ _ => Set.empty_disjoint T
  cases rest with
  | nil => exact h.put (.refl ∅ a) ht hnot hren (hdis T)
  | cons e rest =>
    refine h.put (changes_alloc ∅ a _) (owns_alloc_ext ht (e :: rest)) ?_ ?_ (hdis _)
    · rintro (hbr | hbr)
      · exact Nat.lt_irrefl _ (hbr ▸ h.valid)
      · exact hnot hbr
    · rintro q (rfl | hq)
      · exact .inr fun hn => Nat.lt_irrefl _ (h.changes.valid hn)
      · exact hren q hq

variable [Stray]

/-- The value finds its place in the new branch free. -/
theorem splitLeaf_run (h : Building a₀ S a br s cs Ss)
    (hfree : ∀ d rest, key = d :: rest → s.1 d = .empty) (v : Bytes) :
    ∃ b cs' Ss', splitLeaf br v key a = .ok () b ∧
      Building a₀ S b br (Trie.hang s v key) cs' Ss' := by
  have hrun := hangLeaf_run h v key
  cases key with
  | nil => exact hrun
  | cons d key =>
    have hchild := h.all.child d
    rw [hfree d key rfl] at hchild
    have hfields : ldBranch br a = .ok (cs, s.2) a := by
      unfold ldBranch
      rw [bind_run_ok (ldNode_run br a), h.load]
      rfl
    have hnone : (cs, s.2).1 d = none := hchild.eq_none
    rw [splitLeaf, bind_run_ok hfields, hnone]
    exact hrun

theorem splitExtension_run {child : Option Nat} {T : Set Nat} {pl : Nat} (h : Changes S a₀ a)
    (ht : Owns a child t T) (hren : Renewed a₀ S T) (hne : seg.drop pl ≠ [])
    (hdiv : Diverge (seg.drop pl) (key.drop pl)) (v : Bytes) :
    ∃ br b, splitExtension seg child key v pl a = .ok br b ∧ Rebuilt a₀ S b (some br)
      (Trie.ofSlots (Trie.hang (Trie.hangTrie Trie.bare t (seg.drop pl)) v (key.drop pl))) := by
  obtain ⟨d, rest, hseg⟩ := List.exists_cons_of_ne_nil hne
  obtain ⟨a₁, cs₁, Ss₁, hrun₁, h₁⟩ := splitChild_run d rest (building_new h)
    (ht.alloc _) ht.not_mem_next hren
  have hfree : ∀ e rest', key.drop pl = e :: rest' →
      (Trie.hangTrie Trie.bare t (d :: rest)).1 e = .empty := by
    rw [← hseg]
    exact Trie.hangTrie_bare_empty hdiv
  obtain ⟨a₂, cs₂, Ss₂, hrun₂, h₂⟩ := splitLeaf_run h₁ hfree v
  refine ⟨a.next, a₂, ?_, ?_⟩
  · unfold splitExtension nodeNewBranch
    rw [bind_run_ok (allocNode_run _ a), hseg, bind_run_ok hrun₁, bind_run_ok hrun₂]
    rfl
  · rw [hseg]
    exact h₂.rebuilt

/-! ## Slots -/

/-- The pointer is stored in the slot. -/
def Slot.Holds (a : Arena Node) (c : Option Nat) : Slot → Prop
  | .result => True
  | .child p => a.Valid p ∧ ∃ seg rlp hash, a.load p = .made (.ext seg c) rlp hash
  | .children p i =>
    a.Valid p ∧ ∃ cs v rlp hash, a.load p = .made (.branch cs v) rlp hash ∧ cs i = c

/-- The slot is no field of a node in `S`. -/
def Slot.Outside (S : Set Nat) : Slot → Prop
  | .result => True
  | .child p => p ∉ S
  | .children p _ => p ∉ S

/-- The result after a pointer was stored. -/
def Slot.pick (r result : Option Nat) : Slot → Option Nat
  | .result => r
  | _ => result

variable {slot : Slot} {node c : Option Nat}

omit [Keccak] [Stray] in
theorem Slot.Holds.changes (h : slot.Holds a c) (hout : slot.Outside S) (hch : Changes S a b) :
    slot.Holds b c := by
  cases slot with
  | result => trivial
  | child p =>
    obtain ⟨hp, seg, rlp, hash, hload⟩ := h
    exact ⟨hch.valid hp, seg, rlp, hash, (hch.same p hp hout).trans hload⟩
  | children p i =>
    obtain ⟨hp, cs, v, rlp, hash, hload, hi⟩ := h
    exact ⟨hch.valid hp, cs, v, rlp, hash, (hch.same p hp hout).trans hload, hi⟩

omit [Keccak] [Stray] in
/-- Nothing happens when a slot is given what it holds. -/
theorem stSlot_same (h : slot.Holds a c) (result : Option Nat) :
    stSlot c slot result a = .ok (slot.pick c result) a := by
  have hsame : ∀ {p : Nat} {f : Body → Body}, (a.load p).withBody f = a.load p →
      modifyNode p f a = .ok () a := by
    intro p f hf
    rw [modifyNode_run, hf, store_load_self]
  cases slot with
  | result => rfl
  | child p =>
    obtain ⟨-, seg, rlp, hash, hload⟩ := h
    rw [stSlot, bind_run_ok (hsame (by rw [hload]; rfl))]
    rfl
  | children p i =>
    obtain ⟨-, cs, v, rlp, hash, hload, rfl⟩ := h
    rw [stSlot, bind_run_ok (hsame ?_)]
    · rfl
    · rw [hload]
      change Node.made (.branch (Function.update cs i (cs i)) v) rlp hash = _
      rw [Function.update_eq_self]

/-! ## The descent -/

omit [Keccak] in
/-- The descent ends in this round. -/
theorem insertLoop_last {r : Nat} (h : insertStep v node key a = .ok (r, none) b) (fuel : Nat)
    (slot : Slot) (result : Option Nat) :
    insertLoop v (fuel + 1) node key slot result a = stSlot (some r) slot result b := by
  rw [insertLoop, bind_run_ok h]
  cases slot <;> rfl

omit [Keccak] in
/-- The descent goes on from a node that the slot holds already. -/
theorem insertLoop_next {r : Nat} {child : Option Nat} {rest : Nibbles} {slot' : Slot}
    (h : insertStep v node key a = .ok (r, some (child, rest, slot')) b)
    (hslot : slot.Holds b (some r)) (fuel : Nat) (result : Option Nat) :
    insertLoop v (fuel + 1) node key slot result a =
      insertLoop v fuel child rest slot' (slot.pick (some r) result) b := by
  rw [insertLoop, bind_run_ok h, bind_run_ok (stSlot_same hslot result)]

omit [Keccak] in
theorem insertStep_made {p : Nat} {body : Body} {rlp : Option Bytes} {hash : Option Hash}
    (hload : a.load p = .made body rlp hash) (v : Bytes) (key : Nibbles) :
    insertStep v (some p) key a = insertAt v p key body (a.store p (.made body none none)) := by
  rw [insertStep, bind_run_ok (ldNode_run p a), hload]
  dsimp only
  rw [bind_run_ok (nodeInvalidate_run p a), hload]
  rfl

omit [Keccak] in
theorem insertLoop_hashed {p : Nat} {x : Hash} (hload : a.load p = .hashed x) (fuel : Nat)
    (slot : Slot) (result : Option Nat) :
    insertLoop v (fuel + 1) (some p) key slot result a = .error (.mpt 2) a := by
  have hstep : insertStep v (some p) key a = .error (.mpt 2) a := by
    rw [insertStep, bind_run_ok (ldNode_run p a), hload]
    rfl
  rw [insertLoop, bind_run_error hstep]

omit [Stray] in
/-- At a leaf, the key is there or a branch is made. -/
theorem insertIntoLeaf_run {p : Nat} {k : Nibbles} {w : Bytes} (hp : a.Valid p)
    (hload : a.load p = .made (.leaf k w) none none) {t' : MptTrie}
    (h : (Trie.leaf k w : MptTrie).insert v key = some t') :
    ∃ r b, insertIntoLeaf p k w key v a = .ok r b ∧ Rebuilt a {p} b (some r) t' := by
  have hch := changes_store (Set.mem_singleton p) a (Node.made (.leaf k v) none none)
  rw [Trie.insert] at h
  unfold insertIntoLeaf
  split at h
  · next hk =>
    cases h
    rw [if_pos hk]
    refine ⟨p, a.store p (.made (.leaf k v) none none), ?_, {p}, ?_, .refl a _, hch⟩
    · rw [bind_run_ok (modifyNode_run p _ a), hload]
      rfl
    · exact .leaf (hch.valid hp) (load_store_self hp _) (caches_none _)
  · next hk =>
    cases h
    obtain ⟨br, b, hrun, hb⟩ := createBranch_run (k.drop (commonPrefixLength k key))
      (key.drop (commonPrefixLength k key)) w v (.refl {p} a)
    obtain ⟨r, c, hwrap, hc⟩ := wrapNode_run hb (commonPrefixLength_le k key)
    rw [if_neg hk, bind_run_ok hrun, commonPrefix_fork]
    exact ⟨r, c, hwrap, hc⟩

/-- **The loop is the insertion**: it stores the trie with the new value in the slot, and it fails
only at a hash that the insertion would have to enter. -/
theorem insertLoop_run {fuel : Nat} (hown : Owns a node t S) (hwf : t.Wf) (hlen : key.length < fuel)
    (hslot : slot.Holds a node) (hout : slot.Outside S) (result : Option Nat) :
    (∀ t', t.insert v key = some t' → ∃ r b, insertLoop v fuel node key slot result a =
      stSlot (some r) slot result b ∧ Rebuilt a S b (some r) t') ∧
    (t.insert v key = none → ∃ b, insertLoop v fuel node key slot result a =
      .error (.mpt 2) b) := by
  obtain ⟨fuel, rfl⟩ := Nat.exists_eq_add_one_of_ne_zero (Nat.ne_zero_of_lt hlen)
  induction t generalizing a node key fuel slot result S with
  | empty =>
    cases hown
    refine ⟨fun t' h => ?_, fun h => by cases h⟩
    cases h
    exact ⟨a.next, _, insertLoop_last rfl fuel slot result, rebuilt_alloc_leaf a ∅ key v⟩
  | stub x =>
    cases hown with
    | stub hp hload => exact ⟨fun _ h => (by cases h), fun _ => ⟨a, insertLoop_hashed hload fuel slot result⟩⟩
  | leaf k w =>
    cases hown with
    | @leaf p _ _ rlp hash hp hload hc =>
    have hch := changes_store (Set.mem_singleton p) a (Node.made (.leaf k w) none none)
    refine ⟨fun t' h => ?_, fun h => ?_⟩
    · obtain ⟨r, b, hrun, hb⟩ := insertIntoLeaf_run (hch.valid hp) (load_store_self hp _) h
      refine ⟨r, b, insertLoop_last ?_ fuel slot result, hb.trans hch (.refl a _)⟩
      rw [insertStep_made hload, insertAt, bind_run_ok hrun]
      rfl
    · rw [Trie.insert] at h
      split at h <;> cases h
  | ext seg t ih =>
    cases hown with
    | @ext p _ c rlp hash _ S hp hload hc hchild hnot =>
    have hch := changes_store (Set.mem_singleton p) a (Node.made (.ext seg c) none none)
    have hp₁ := hch.valid hp
    have hload₁ := load_store_self hp (Node.made (.ext seg c) none none)
    have hchild₁ := hchild.changes hch (Set.disjoint_singleton_right.mpr hnot)
    have hstep := insertStep_made hload v key
    have hpre := hch.mono (Set.singleton_subset_iff.mpr (Set.mem_insert p S))
    generalize a.store p (.made (.ext seg c) none none) = a₁ at *
    rw [insertAt] at hstep
    rw [Trie.insert]
    by_cases hall : commonPrefixLength seg key = seg.length
    · -- the segment is a prefix of the key
      rw [if_pos hall] at hstep
      rw [if_pos (fork_rest_eq_nil.mpr hall), commonPrefix_fork]
      have hlen' : (key.drop (commonPrefixLength seg key)).length < fuel := by
        have hpos := List.length_pos_of_ne_nil hwf.1
        have hle := commonPrefixLength_le_right seg key
        rw [List.length_drop]
        omega
      obtain ⟨fuel, rfl⟩ := Nat.exists_eq_add_one_of_ne_zero (Nat.ne_zero_of_lt hlen')
      have hnext := insertLoop_next hstep (hslot.changes hout hpre) (fuel + 1) result
      obtain ⟨hok, hfail⟩ := ih hchild₁ hwf.2.2
        (show Slot.Holds a₁ c (.child p) from ⟨hp₁, seg, none, none, hload₁⟩)
        (show Slot.Outside S (.child p) from hnot) (slot.pick (some p) result) _ hlen'
      rw [hnext]
      refine ⟨fun t' h => ?_, fun h => hfail (Option.map_eq_none_iff.mp h)⟩
      obtain ⟨t₁, ht₁, rfl⟩ := Option.map_eq_some_iff.mp h
      obtain ⟨r, b, hrun, hb⟩ := hok t₁ ht₁
      have hbuilt := (rebuilt_ext_store seg hp₁ hnot hb).trans hpre (.refl a _)
      obtain ⟨-, -, -, hb⟩ := hb
      obtain ⟨-, -, -, hbp⟩ := id hbuilt
      refine ⟨p, b.store p (.made (.ext seg (some r)) none none), ?_, hbuilt⟩
      rw [hrun, stSlot_same (hslot.changes hout hbp), stSlot, bind_run_ok (modifyNode_run p _ b),
        hb.same p hp₁ hnot, hload₁]
      rfl
    · -- the segment is split
      rw [if_neg hall] at hstep
      rw [if_neg (mt fork_rest_eq_nil.mp hall), commonPrefix_fork]
      refine ⟨fun t' h => ?_, fun h => by cases h⟩
      cases h
      have hrest := mt fork_rest_eq_nil.mp hall
      have hdiv := fork_diverge seg key
      rw [commonPrefix_fork] at hrest hdiv
      obtain ⟨br, b, hrun, hb⟩ := splitExtension_run hpre hchild₁
        (renewed_of_subset (Set.subset_insert p S)) hrest hdiv v
      obtain ⟨r, d, hwrap, hd⟩ := wrapNode_run hb (commonPrefixLength_le seg key)
      refine ⟨r, d, insertLoop_last ?_ fuel slot result, hd⟩
      rw [hstep, bind_run_ok hrun, bind_run_ok hwrap]
      rfl
  | branch ch w ih =>
    cases hown with
    | @branch p cs _ rlp hash _ Ss hp hload hc hchild hnot hdisj =>
    have hch := changes_store (Set.mem_singleton p) a (Node.made (.branch cs w) none none)
    have hp₁ := hch.valid hp
    have hload₁ := load_store_self hp (Node.made (.branch cs w) none none)
    have hall := OwnsAll.store ⟨hchild, hnot, hdisj⟩ (Node.made (.branch cs w) none none)
    have hstep := insertStep_made hload v key
    have hpre := hch.mono (Set.singleton_subset_iff.mpr (Set.mem_insert p (⋃ d, Ss d)))
    generalize a.store p (.made (.branch cs w) none none) = a₁ at *
    cases key with
    | nil =>
      refine ⟨fun t' h => ?_, fun h => by cases h⟩
      cases h
      have hset := changes_store (Set.mem_singleton p) a₁ (Node.made (.branch cs v) none none)
      refine ⟨p, a₁.store p (.made (.branch cs v) none none), insertLoop_last ?_ fuel slot result,
        _, (hall.store _).owns (hset.valid hp₁) (load_store_self hp₁ _) (caches_none _), .refl a _,
        hpre.trans_self (hset.mono (Set.singleton_subset_iff.mpr (Set.mem_insert p _)))⟩
      rw [hstep, insertAt, bind_run_ok (modifyNode_run p _ a₁), hload₁]
      rfl
    | cons d key =>
      obtain ⟨fuel, rfl⟩ := Nat.exists_eq_add_one_of_ne_zero
        (Nat.ne_zero_of_lt (Nat.lt_of_succ_lt_succ hlen))
      have hnext := insertLoop_next hstep (hslot.changes hout hpre) (fuel + 1) result
      obtain ⟨hok, hfail⟩ := ih d (hall.child d) (hwf.1 d)
        (show Slot.Holds a₁ (cs d) (.children p d) from ⟨hp₁, cs, w, none, none, hload₁, rfl⟩)
        (show Slot.Outside (Ss d) (.children p d) from hnot d) (slot.pick (some p) result) _
        (Nat.lt_of_succ_lt_succ hlen)
      rw [hnext, Trie.insert]
      refine ⟨fun t' h => ?_, fun h => hfail (Option.map_eq_none_iff.mp h)⟩
      obtain ⟨t₁, ht₁, rfl⟩ := Option.map_eq_some_iff.mp h
      obtain ⟨r, b, hrun, hb⟩ := hok t₁ ht₁
      have hbuilt := (rebuilt_branch_store (v := w) hall hp₁ hb).trans hpre (.refl a _)
      obtain ⟨-, -, -, hb⟩ := hb
      obtain ⟨-, -, -, hbp⟩ := id hbuilt
      refine ⟨p, _, ?_, hbuilt⟩
      rw [hrun, stSlot_same (hslot.changes hout hbp), stSlot, bind_run_ok (modifyNode_run p _ b),
        hb.same p hp₁ (hnot d), hload₁]
      rfl

/-- **`_mpt_insert_node` is the insertion.** -/
theorem mptInsertNode_run (hown : Owns a node t S) (hwf : t.Wf) (v : Bytes) (key : Nibbles) :
    (∀ t', t.insert v key = some t' →
      ∃ r b, mptInsertNode node key v a = .ok (some r) b ∧ Rebuilt a S b (some r) t') ∧
    (t.insert v key = none → ∃ b, mptInsertNode node key v a = .error (.mpt 2) b) :=
  insertLoop_run hown hwf (Nat.lt_succ_self _) (show Slot.Holds a node .result from trivial)
    (show Slot.Outside S .result from trivial) none

end

end StatelessGuest.Mpt
