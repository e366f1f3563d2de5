import Mathlib.Data.Set.Function
import StatelessGuest.Mpt.Nibbles
import StatelessGuest.Rlp.Decode

/-!
# What the root of a trie commits to

The encoding of a trie and its root, over tries in which hashes stand for missing parts. A node is
referred to by its encoding if that is shorter than 32 bytes, else by its hash.

* `nodeTree`, `nodeRlp`, `rootOf`.
* `Inside`, `encodings`: what is hashed for a root.
* `rootOf_injective`: two tries with one root are equal unless two of their encodings collide.
-/

namespace StatelessGuest.Mpt

open Lib

/-- A trie of byte strings over nibbles; a stub is the hash of the part that is missing. -/
abbrev MptTrie := Trie 16 Bytes Hash

section

variable [Keccak]

/-- How a trie with the given tree is referred to in the node above it. -/
def refTree : MptTrie → RlpTree → RlpTree
  | .empty, _ => .str []
  | .stub h, _ => .str (beBytes 32 h.toNat)
  | _, tree =>
    if tree.encode.length < 32 then tree
    else .str (beBytes 32 (keccak256 tree.encode).toNat)

/-- The items of the topmost node of a trie. -/
def nodeTree : MptTrie → RlpTree
  | .empty => .str []
  | .stub h => .str (beBytes 32 h.toNat)
  | .leaf key v => .list [.str (nibbleListToCompact key true), .str v]
  | .ext seg t => .list [.str (nibbleListToCompact seg false), refTree t (nodeTree t)]
  | .branch ch v =>
    .list ((List.finRange 16).map (fun d => refTree (ch d) (nodeTree (ch d))) ++ [.str v])

/-- The encoding of the topmost node. -/
def nodeRlp (t : MptTrie) : Bytes := (nodeTree t).encode

/-- The root of a trie. -/
def rootOf : MptTrie → Hash
  | .stub h => h
  | t => keccak256 (nodeRlp t)

/-- The tries inside of a trie, itself included. -/
inductive Inside (u : MptTrie) : MptTrie → Prop where
  | self : Inside u u
  | ext {t : MptTrie} (seg : Nibbles) (h : Inside u t) : Inside u (.ext seg t)
  | branch {ch : Nibble → MptTrie} (v : Bytes) (d : Nibble) (h : Inside u (ch d)) :
    Inside u (.branch ch v)

/-- The encodings of a trie and of what is inside of it. -/
def encodings (t : MptTrie) : Set Bytes := {e | ∃ u, Inside u t ∧ nodeRlp u = e}

variable {t t' u : MptTrie}

theorem nodeRlp_mem : nodeRlp t ∈ encodings t := ⟨t, .self, rfl⟩

theorem encodings_ext (seg : Nibbles) (t : MptTrie) : encodings t ⊆ encodings (.ext seg t) :=
  fun _ ⟨u, hu, he⟩ => ⟨u, .ext seg hu, he⟩

theorem encodings_branch (ch : Nibble → MptTrie) (v : Bytes) (d : Nibble) :
    encodings (ch d) ⊆ encodings (.branch ch v) :=
  fun _ ⟨u, hu, he⟩ => ⟨u, .branch v d hu, he⟩

theorem rootOf_full (h : t.Full) : rootOf t = keccak256 (nodeRlp t) := by
  cases t with
  | stub => exact h.elim
  | _ => rfl

theorem rootOf_empty : rootOf .empty = emptyTrieRoot := rfl

/-- The reference to a part that is there. -/
theorem refTree_full (h : t.Full) (hne : t.isEmpty = false) :
    refTree t (nodeTree t) = if (nodeRlp t).length < 32 then nodeTree t
      else .str (beBytes 32 (keccak256 (nodeRlp t)).toNat) := by
  cases t with
  | empty => cases hne
  | stub => exact h.elim
  | _ => rfl

theorem nodeTree_isList (h : t.Full) (hne : t.isEmpty = false) : (nodeTree t).isList = true := by
  cases t with
  | empty => cases hne
  | stub => exact h.elim
  | _ => rfl

omit [Keccak] in
theorem hashBytes_injective {x y : Hash} (h : beBytes 32 x.toNat = beBytes 32 y.toNat) : x = y := by
  have hnat := congrArg beNat h
  rw [beNat_beBytes, beNat_beBytes, Nat.mod_eq_of_lt (by exact x.isLt),
    Nat.mod_eq_of_lt (by exact y.isLt)] at hnat
  exact BitVec.eq_of_toNat_eq hnat

omit [Keccak] in
theorem encode_injective {x y : RlpTree} (hx : x.encode.length < 2 ^ 64)
    (hy : y.encode.length < 2 ^ 64) (h : x.encode = y.encode) : x = y :=
  encode_prefix_unique hx hy (congrArg (· ++ []) h)

/-- The hash function has no collision among some encodings, none of which is too long for RLP. -/
structure Binding (es : Set Bytes) : Prop where
  inj : Set.InjOn keccak256 es
  length_lt : ∀ e ∈ es, e.length < 2 ^ 64

theorem Binding.mono {es es' : Set Bytes} (h : Binding es) (hsub : es' ⊆ es) : Binding es' :=
  ⟨h.inj.mono hsub, fun e he => h.length_lt e (hsub he)⟩

/-- A hash, the empty string and a node are told apart. -/
theorem nodeTree_eq_of_refTree_eq (hb : Binding (encodings t ∪ encodings t')) (hfull : t.Full)
    (hfull' : t'.Full) (h : refTree t (nodeTree t) = refTree t' (nodeTree t')) :
    nodeTree t = nodeTree t' := by
  have hlist : ∀ {x : RlpTree} {bs : Bytes}, x.isList = true → x ≠ .str bs := by
    rintro x bs hx rfl
    cases hx
  have href : ∀ {t : MptTrie}, t.Full → t.isEmpty = false → refTree t (nodeTree t) ≠ .str [] := by
    intro t hfull hne
    rw [refTree_full hfull hne]
    split
    · exact hlist (nodeTree_isList hfull hne)
    · intro h
      injection h with h
      have hlen := congrArg List.length h
      rw [length_beBytes] at hlen
      cases hlen
  cases hne : t.isEmpty with
  | true =>
    obtain rfl := Trie.eq_empty_of_isEmpty hne
    cases hne' : t'.isEmpty with
    | true => rw [Trie.eq_empty_of_isEmpty hne']
    | false => exact absurd h.symm (href hfull' hne')
  | false =>
    cases hne' : t'.isEmpty with
    | true =>
      obtain rfl := Trie.eq_empty_of_isEmpty hne'
      exact absurd h (href hfull hne)
    | false =>
      rw [refTree_full hfull hne, refTree_full hfull' hne'] at h
      split at h <;> split at h
      · exact h
      · exact absurd h (hlist (nodeTree_isList hfull hne))
      · exact absurd h.symm (hlist (nodeTree_isList hfull' hne'))
      · have henc : nodeRlp t = nodeRlp t' :=
          hb.inj (.inl nodeRlp_mem) (.inr nodeRlp_mem) (hashBytes_injective (RlpTree.str.inj h))
        exact encode_injective (hb.length_lt _ (.inl nodeRlp_mem))
          (hb.length_lt _ (.inr nodeRlp_mem)) henc

omit [Keccak] in
theorem compact_injective {k k' : Nibbles} {l l' : Bool}
    (h : nibbleListToCompact k l = nibbleListToCompact k' l') : k = k' ∧ l = l' := by
  have hk := compact_round_trip k l
  rw [h, compact_round_trip k' l'] at hk
  injection hk with hk
  injection hk with hk hl
  exact ⟨hk.symm, hl.symm⟩

theorem length_branch_items (ch : Nibble → MptTrie) (v : Bytes) :
    ((List.finRange 16).map (fun d => refTree (ch d) (nodeTree (ch d))) ++
      [RlpTree.str v]).length = 17 := by
  rw [List.length_append, List.length_map, List.length_finRange, List.length_singleton]

/-- A node says which node it is, and what is below it. -/
theorem eq_of_nodeTree_eq (hb : Binding (encodings t ∪ encodings t')) (hfull : t.Full)
    (hfull' : t'.Full) (h : nodeTree t = nodeTree t') : t = t' := by
  have hlen : ∀ (x y : RlpTree) (ch : Nibble → MptTrie) (v : Bytes), [x, y] ≠
      (List.finRange 16).map (fun d => refTree (ch d) (nodeTree (ch d))) ++ [.str v] := by
    intro x y ch v h
    have := (congrArg List.length h).trans (length_branch_items ch v)
    cases this
  induction t generalizing t' with
  | stub => exact hfull.elim
  | empty =>
    cases t' with
    | empty => rfl
    | stub => exact hfull'.elim
    | _ => cases h
  | leaf k v =>
    cases t' with
    | empty => cases h
    | stub => exact hfull'.elim
    | leaf k' v' =>
      injection h with h
      injection h with hk hv
      injection hk with hk
      injection hv with hv
      injection hv with hv
      rw [(compact_injective hk).1, hv]
    | ext seg' u =>
      injection h with h
      injection h with hk
      injection hk with hk
      cases (compact_injective hk).2
    | branch ch v' =>
      injection h with h
      exact absurd h (hlen _ _ ch v')
  | ext seg t ih =>
    cases t' with
    | empty => cases h
    | stub => exact hfull'.elim
    | leaf k' v' =>
      injection h with h
      injection h with hk
      injection hk with hk
      cases (compact_injective hk).2
    | ext seg' t' =>
      injection h with h
      injection h with hk ht
      injection hk with hk
      injection ht with ht
      have hb' := hb.mono (Set.union_subset_union (encodings_ext seg t) (encodings_ext seg' t'))
      rw [(compact_injective hk).1, ih hb' hfull hfull'
        (nodeTree_eq_of_refTree_eq hb' hfull hfull' ht)]
    | branch ch v' =>
      injection h with h
      exact absurd h (hlen _ _ ch v')
  | branch ch v ih =>
    cases t' with
    | empty => cases h
    | stub => exact hfull'.elim
    | leaf k' v' =>
      injection h with h
      exact absurd h.symm (hlen _ _ ch v)
    | ext seg' t' =>
      injection h with h
      exact absurd h.symm (hlen _ _ ch v)
    | branch ch' v' =>
      injection h with h
      obtain ⟨hch, hv⟩ := List.append_inj' h rfl
      injection hv with hv
      injection hv with hv
      have hchild : ch = ch' := by
        funext d
        have hb' := hb.mono
          (Set.union_subset_union (encodings_branch ch v d) (encodings_branch ch' v' d))
        have hd := List.map_inj_left.mp hch d (List.mem_finRange d)
        exact ih d hb' (hfull d) (hfull' d)
          (nodeTree_eq_of_refTree_eq hb' (hfull d) (hfull' d) hd)
      rw [hchild, hv]

/-- **A root binds a trie**: no other trie has it, unless two encodings of the tries collide. -/
theorem rootOf_injective (hb : Binding (encodings t ∪ encodings t')) (hfull : t.Full)
    (hfull' : t'.Full) (h : rootOf t = rootOf t') : t = t' := by
  rw [rootOf_full hfull, rootOf_full hfull'] at h
  refine eq_of_nodeTree_eq hb hfull hfull' ?_
  exact encode_injective (hb.length_lt _ (.inl nodeRlp_mem)) (hb.length_lt _ (.inr nodeRlp_mem))
    (hb.inj (.inl nodeRlp_mem) (.inr nodeRlp_mem) h)

end

end StatelessGuest.Mpt
