import Mathlib.Data.Set.Lattice
import Mathlib.Order.CompletePartialOrder
import StatelessGuest.Lib.Footprint
import StatelessGuest.Mpt.Commitment
import StatelessGuest.Mpt.Node

/-!
# Tries on the heap

What the nodes below a pointer stand for. The nodes of a trie form a tree: no node is reached on two
ways, so that a change of a node changes one trie in one place. A cached encoding is that of the
node, and a cached hash is the hash of the encoding.

* `Caches`, `Owns`: the trie at a pointer, with its footprint.
* `Owns.frame`, `Owns.changes`: it stays when its footprint is not changed.
* `Rebuilt`: what an operation on a trie leaves.
* `rebuilt_ext_store`, `rebuilt_branch_store`: a node stays in its place above what is made anew.
-/

namespace StatelessGuest.Mpt

open Lib Arena

section

variable [Keccak]

/-- What is cached in the topmost node of a trie is right. -/
structure Caches (t : MptTrie) (rlp : Option Bytes) (hash : Option Hash) : Prop where
  rlp_eq : ∀ b, rlp = some b → b = nodeRlp t
  hash_eq : ∀ x, hash = some x → x = keccak256 (nodeRlp t)

theorem caches_none (t : MptTrie) : Caches t none none := ⟨nofun, nofun⟩

/-- The trie at a pointer, and the pointers to its nodes. -/
inductive Owns (h : Arena Node) : Option Nat → MptTrie → Set Nat → Prop where
  | empty : Owns h none .empty ∅
  | stub {p : Nat} {x : Hash} (hp : h.Valid p) (hload : h.load p = .hashed x) :
    Owns h (some p) (.stub x) {p}
  | leaf {p : Nat} {k : Nibbles} {v : Bytes} {rlp : Option Bytes} {hash : Option Hash}
    (hp : h.Valid p) (hload : h.load p = .made (.leaf k v) rlp hash)
    (hc : Caches (.leaf k v) rlp hash) : Owns h (some p) (.leaf k v) {p}
  | ext {p : Nat} {seg : Nibbles} {c : Option Nat} {rlp : Option Bytes} {hash : Option Hash}
    {t : MptTrie} {S : Set Nat} (hp : h.Valid p) (hload : h.load p = .made (.ext seg c) rlp hash)
    (hc : Caches (.ext seg t) rlp hash) (hchild : Owns h c t S) (hnot : p ∉ S) :
    Owns h (some p) (.ext seg t) (insert p S)
  | branch {p : Nat} {cs : Nibble → Option Nat} {v : Bytes} {rlp : Option Bytes}
    {hash : Option Hash} {ch : Nibble → MptTrie} {Ss : Nibble → Set Nat} (hp : h.Valid p)
    (hload : h.load p = .made (.branch cs v) rlp hash) (hc : Caches (.branch ch v) rlp hash)
    (hchild : ∀ d, Owns h (cs d) (ch d) (Ss d)) (hnot : ∀ d, p ∉ Ss d)
    (hdisj : ∀ d e, d ≠ e → Disjoint (Ss d) (Ss e)) :
    Owns h (some p) (.branch ch v) (insert p (⋃ d, Ss d))

variable {a b : Arena Node} {p q : Option Nat} {t : MptTrie} {S T : Set Nat}

theorem Owns.valid (h : Owns a p t S) : ∀ q ∈ S, a.Valid q := by
  induction h with
  | empty => exact fun _ => False.elim
  | stub hp => exact fun q hq => hq ▸ hp
  | leaf hp => exact fun q hq => hq ▸ hp
  | ext hp _ _ _ _ ih =>
    rintro q (rfl | hq)
    · exact hp
    · exact ih q hq
  | branch hp _ _ _ _ _ ih =>
    rintro q (rfl | hq)
    · exact hp
    · obtain ⟨d, hd⟩ := Set.mem_iUnion.mp hq
      exact ih d q hd

/-- A trie is where it was when its nodes are as they were. -/
theorem Owns.frame (h : Owns a p t S) (hsame : ∀ q ∈ S, b.Valid q ∧ b.load q = a.load q) :
    Owns b p t S := by
  induction h with
  | empty => exact .empty
  | stub _ hload =>
    obtain ⟨hp, hl⟩ := hsame _ rfl
    exact .stub hp (hl.trans hload)
  | leaf _ hload hc =>
    obtain ⟨hp, hl⟩ := hsame _ rfl
    exact .leaf hp (hl.trans hload) hc
  | ext _ hload hc _ hnot ih =>
    obtain ⟨hp, hl⟩ := hsame _ (Set.mem_insert _ _)
    exact .ext hp (hl.trans hload) hc (ih fun q hq => hsame q (.inr hq)) hnot
  | branch _ hload hc _ hnot hdisj ih =>
    obtain ⟨hp, hl⟩ := hsame _ (Set.mem_insert _ _)
    exact .branch hp (hl.trans hload) hc
      (fun d => ih d fun q hq => hsame q (.inr (Set.mem_iUnion.mpr ⟨d, hq⟩))) hnot hdisj

/-- A change elsewhere. -/
theorem Owns.changes (h : Owns a p t S) (hch : Changes T a b) (hdis : Disjoint S T) :
    Owns b p t S :=
  h.frame fun q hq => ⟨hch.valid (h.valid q hq),
    hch.same q (h.valid q hq) (Set.disjoint_left.mp hdis hq)⟩

theorem Owns.isSome (h : Owns a p t S) : p.isSome = !t.isEmpty := by
  cases h <;> rfl

theorem Owns.eq_none (h : Owns a p .empty S) : p = none := by
  cases h
  rfl

/-- A trie at `p` that was made out of the one with the footprint `S`. -/
def Rebuilt (a : Arena Node) (S : Set Nat) (b : Arena Node) (p : Option Nat) (t : MptTrie) : Prop :=
  ∃ T, Owns b p t T ∧ Renewed a S T ∧ Changes S a b

theorem Owns.rebuilt (h : Owns a p t S) : Rebuilt a S a p t := ⟨S, h, .refl a S, .refl S a⟩

/-- A part of the footprint is enough. -/
theorem Rebuilt.mono (h : Rebuilt a S b p t) (hsub : S ⊆ T) : Rebuilt a T b p t := by
  obtain ⟨U, hown, hren, hch⟩ := h
  exact ⟨U, hown, fun q hq => (hren q hq).imp_left fun h => hsub h, hch.mono hsub⟩

theorem Rebuilt.trans {c : Arena Node} {u : MptTrie}
    (h : Changes S a b) (hren : Renewed a S T) (h' : Rebuilt b T c q u) : Rebuilt a S c q u := by
  obtain ⟨U, hown, hren', hch⟩ := h'
  exact ⟨U, hown, hren.trans h hren', h.trans hren hch⟩

/-- A node that is allocated for a leaf. -/
theorem owns_alloc_leaf (a : Arena Node) (k : Nibbles) (v : Bytes) :
    Owns (a.alloc (.made (.leaf k v) none none)) (some a.next) (.leaf k v) {a.next} :=
  .leaf (valid_alloc_self a _) (load_alloc_self a _) (caches_none _)

theorem Owns.not_mem_next (h : Owns a p t S) : a.next ∉ S :=
  fun hn => Nat.lt_irrefl _ (h.valid _ hn)

theorem Owns.alloc (h : Owns a p t S) (x : Node) : Owns (a.alloc x) p t S :=
  h.changes (changes_alloc ∅ a x) (Set.disjoint_empty S)

/-- A node that is allocated above a trie. -/
theorem owns_alloc_ext (h : Owns a p t S) (seg : Nibbles) :
    Owns (a.alloc (.made (.ext seg p) none none)) (some a.next) (.ext seg t) (insert a.next S) :=
  .ext (valid_alloc_self a _) (load_alloc_self a _) (caches_none _) (h.alloc _) h.not_mem_next

/-- An extension keeps its place when the trie below it is made anew. -/
theorem rebuilt_ext_store (seg : Nibbles) {r : Nat} {c : Option Nat} (hr : a.Valid r) (hnot : r ∉ S)
    (h : Rebuilt a S b c t) :
    Rebuilt a (insert r S) (b.store r (.made (.ext seg c) none none)) (some r) (.ext seg t) := by
  obtain ⟨T, hown, hren, hch⟩ := h
  have hnot' := hren.not_mem hr hnot
  have hb := hch.valid hr
  have hstore := changes_store (Set.mem_singleton r) b (Node.made (.ext seg c) none none)
  refine ⟨insert r T, .ext (hstore.valid hb) (load_store_self hb _) (caches_none _) ?_ hnot', ?_,
    ?_⟩
  · exact hown.changes hstore (Set.disjoint_singleton_right.mpr hnot')
  · rintro q (rfl | hq)
    · exact .inl (Set.mem_insert q S)
    · exact (hren q hq).imp_left .inr
  · refine (hch.mono (Set.subset_insert r S)).trans_self (hstore.mono ?_)
    exact Set.singleton_subset_iff.mpr (Set.mem_insert r S)

/-- The children of a branch at `r`. -/
structure OwnsAll (a : Arena Node) (r : Nat) (cs : Nibble → Option Nat) (ch : Nibble → MptTrie)
    (Ss : Nibble → Set Nat) : Prop where
  child : ∀ d, Owns a (cs d) (ch d) (Ss d)
  not_mem : ∀ d, r ∉ Ss d
  disjoint : ∀ d e, d ≠ e → Disjoint (Ss d) (Ss e)

variable {r : Nat} {cs : Nibble → Option Nat} {ch : Nibble → MptTrie} {Ss : Nibble → Set Nat}
  {d : Nibble} {c : Option Nat} {v : Bytes}

theorem OwnsAll.owns {rlp : Option Bytes} {hash : Option Hash} (h : OwnsAll a r cs ch Ss)
    (hr : a.Valid r) (hload : a.load r = .made (.branch cs v) rlp hash)
    (hc : Caches (.branch ch v) rlp hash) :
    Owns a (some r) (.branch ch v) (insert r (⋃ d, Ss d)) :=
  .branch hr hload hc h.child h.not_mem h.disjoint

/-- The record of the branch may change. -/
theorem OwnsAll.store (h : OwnsAll a r cs ch Ss) (x : Node) : OwnsAll (a.store r x) r cs ch Ss :=
  ⟨fun d => (h.child d).changes (changes_store (Set.mem_singleton r) a x)
    (Set.disjoint_singleton_right.mpr (h.not_mem d)), h.not_mem, h.disjoint⟩

/-- Another trie takes the place of a child. -/
theorem OwnsAll.put (h : OwnsAll a r cs ch Ss) (hch : Changes (Ss d) a b) (ht : Owns b c t T)
    (hnot : r ∉ T) (hdis : ∀ e, e ≠ d → Disjoint (Ss e) T) :
    OwnsAll b r (Function.update cs d c) (Function.update ch d t) (Function.update Ss d T) := by
  refine ⟨fun e => ?_, fun e => ?_, fun e e' hne => ?_⟩
  · by_cases he : e = d
    · subst he
      rw [Function.update_self, Function.update_self, Function.update_self]
      exact ht
    · rw [Function.update_of_ne he, Function.update_of_ne he, Function.update_of_ne he]
      exact (h.child e).changes hch (h.disjoint e d he)
  · by_cases he : e = d
    · rw [he, Function.update_self]
      exact hnot
    · rw [Function.update_of_ne he]
      exact h.not_mem e
  · by_cases he : e = d
    · subst he
      rw [Function.update_self, Function.update_of_ne (Ne.symm hne)]
      exact (hdis e' (Ne.symm hne)).symm
    · rw [Function.update_of_ne he]
      by_cases he' : e' = d
      · rw [he', Function.update_self]
        exact hdis e he
      · rw [Function.update_of_ne he']
        exact h.disjoint e e' hne

/-- What one child has become is apart from the others. -/
theorem OwnsAll.disjoint_renewed (h : OwnsAll a r cs ch Ss) (hren : Renewed a (Ss d) T)
    (e : Nibble) (he : e ≠ d) : Disjoint (Ss e) T :=
  Set.disjoint_left.mpr fun q hq => hren.not_mem ((h.child e).valid q hq)
    (Set.disjoint_left.mp (h.disjoint e d he) hq)

/-- One child of a branch is made anew, and the branch keeps its place. -/
theorem OwnsAll.renew (h : OwnsAll a r cs ch Ss) (hr : a.Valid r) (ht : Rebuilt a (Ss d) b c t)
    {b' : Arena Node}
    (hb' : b.store r (.made (.branch (Function.update cs d c) v) none none) = b') :
    ∃ Ss', OwnsAll b' r (Function.update cs d c) (Function.update ch d t) Ss' ∧ b'.Valid r ∧
      b'.load r = .made (.branch (Function.update cs d c) v) none none ∧
      Renewed a (insert r (⋃ d, Ss d)) (insert r (⋃ d, Ss' d)) ∧
      Changes (insert r (⋃ d, Ss d)) a b' := by
  subst hb'
  obtain ⟨T, hown, hren, hch⟩ := ht
  have hall := h.put hch hown (hren.not_mem hr (h.not_mem d)) (h.disjoint_renewed hren)
  have hb := hch.valid hr
  have hstore := changes_store (Set.mem_singleton r) b
    (Node.made (.branch (Function.update cs d c) v) none none)
  have hsub : Ss d ⊆ insert r (⋃ d, Ss d) := fun q hq => .inr (Set.mem_iUnion.mpr ⟨d, hq⟩)
  refine ⟨_, hall.store _, hstore.valid hb, load_store_self hb _, ?_, ?_⟩
  · rintro q (rfl | hq)
    · exact .inl (Set.mem_insert q _)
    · obtain ⟨e, he⟩ := Set.mem_iUnion.mp hq
      by_cases hed : e = d
      · rw [hed, Function.update_self] at he
        exact (hren q he).imp_left fun h => hsub h
      · rw [Function.update_of_ne hed] at he
        exact .inl (.inr (Set.mem_iUnion.mpr ⟨e, he⟩))
  · refine (hch.mono hsub).trans_self (hstore.mono ?_)
    exact Set.singleton_subset_iff.mpr (Set.mem_insert r _)

/-- A branch keeps its place when one child is made anew. -/
theorem rebuilt_branch_store (h : OwnsAll a r cs ch Ss) (hr : a.Valid r)
    (ht : Rebuilt a (Ss d) b c t) :
    Rebuilt a (insert r (⋃ d, Ss d))
      (b.store r (.made (.branch (Function.update cs d c) v) none none)) (some r)
      (.branch (Function.update ch d t) v) := by
  obtain ⟨Ss', hall, hb, hload, hren, hch⟩ := h.renew hr ht rfl
  exact ⟨_, hall.owns hb hload (caches_none _), hren, hch⟩

end

end StatelessGuest.Mpt
