import StatelessGuest.Lib.OrdMap
import StatelessGuest.Mpt.Handle

/-!
# Tries from the witness

The witness is a list of encoded nodes, found by their hashes. A trie is decoded from its root down;
where the witness has no node with a hash, the hash stays in its place. The recursion over nodes is
a machine with a stack of activations.

* `nodedbBuild`, `decodeWitnessToMpt`, `mptFromWitness`: the code.
* `StubFor`: what a hash stands for; a part of a trie has the root of the trie (`rootOf_of_prunes`).
* `Leads`: rounds of the machine; `leads_child`: a child is resolved and delivered.
* `decodes_ext`, `branch_loop`: what waits for children goes on.
* `decode_run`: a node is decoded to a part of the trie.
-/

namespace StatelessGuest.Mpt

open Lib Arena

/-! ## The code -/

/-- The nodes of the witness by their hashes. -/
abbrev NodeDb := OrdMap Hash Bytes

section

variable [Keccak]

def nodedbBuild (entries : List Bytes) : NodeDb :=
  entries.foldl (fun db entry => db.set (keccak256 entry) entry) .empty

end

def nodedbLookup (db : NodeDb) (hash : Hash) : Option Bytes := db.get hash

/-- The next `count` items of a list. -/
def rlpSlicesOf : Nat → Bytes → Except Exn (List Bytes)
  | 0, _ => .ok []
  | count + 1, bs => do
    let h ← rlpHeader bs
    let rest ← rlpSlicesOf count (bs.drop h.total)
    return bs.take h.total :: rest

/-- `rlp_list_to_slices`. -/
def rlpSlices (payload : Bytes) : Except Exn (List Bytes) := do
  let count ← rlpListCount payload
  rlpSlicesOf count.1 payload

def liftMpt {α : Type} (x : Except Exn α) : MptM α := fun h =>
  match x with
  | .ok a => .ok a h
  | .error e => .error e h

/-- The errors of the RLP decoder are those of a node. -/
def catchRlp {α : Type} (x : Except Exn α) : MptM α := fun h =>
  match x with
  | .ok a => .ok a h
  | .error (.rlp _) => .error (.mpt 3) h
  | .error e => .error e h

/-- What an activation waits for (`WD_STAGE`): the child of an extension with a path, or the child
number `i` of a branch, `occ` entries of which are occupied so far. -/
inductive Stage where
  | ext (nib : Nibbles)
  | branch (node : Nat) (i occ : Nat)

/-- A node whose children are being decoded (`WD_*`). -/
structure Activation where
  stage : Stage
  arr : List Bytes
  rlp : Bytes
  hash : Option Hash

/-- The machine delivers a node to the innermost activation, decodes one, or resolves an item of the
innermost activation. -/
inductive Mode where
  | deliver (result : Option Nat)
  | decode (bs : Bytes)
  | resolve (slot : Nat)

def sliceAt (arr : List Bytes) (slot : Nat) : Bytes := arr.getD slot []

/-- A child that is known at once, or the node to decode with the hash to record on it. -/
def resolveStep (db : NodeDb) (bs : Bytes) : MptM (Option Nat ⊕ Bytes × Option Hash) := do
  let it ← catchRlp (rlpItem bs)
  if it.isList then return .inr (bs, none)
  else if it.payload = 0 then return .inl none
  else if it.payload ≠ 32 then mptFail 10
  else do
    let hash := BitVec.ofNat 256 (beNat (it.payloadOf bs))
    match nodedbLookup db hash with
    | none => return .inl (some (← nodeNewHashed hash))
    | some entry => return .inr (entry, some hash)

/-- A node with a path: a leaf, or an extension that waits for its child. -/
def decodePair (bs : Bytes) (arr : List Bytes) : MptM (Option Nat ⊕ Activation) := do
  let pi ← liftMpt (rlpItem (sliceAt arr 0))
  if pi.isList then mptFail 5
  else do
    let cn ← liftMpt (compactToNibbles (pi.payloadOf (sliceAt arr 0)))
    if cn.2 then do
      let vi ← liftMpt (rlpItem (sliceAt arr 1))
      if vi.isList then mptFail 6
      else do
        let lf ← nodeNewLeaf cn.1 (vi.payloadOf (sliceAt arr 1))
        stRlp lf bs
        return .inl (some lf)
    else if cn.1 = [] then mptFail 7
    else return .inr ⟨.ext cn.1, arr, bs, none⟩

/-- A node with the items `arr`. -/
def decodeItems (bs : Bytes) (arr : List Bytes) : MptM (Option Nat ⊕ Activation) :=
  if arr.length = 2 then decodePair bs arr
  else if arr.length ≠ 17 then mptFail 4
  else do
    let br ← nodeNewBranch
    return .inr ⟨.branch br 0 0, arr, bs, none⟩

def decodeStep (bs : Bytes) : MptM (Option Nat ⊕ Activation) := do
  let it ← catchRlp (rlpDecodeFully bs)
  if it.isList then do
    let arr ← liftMpt (rlpSlices (it.payloadOf bs))
    decodeItems bs arr
  else if it.payload = 0 then return .inl none
  else mptFail 4

/-- The hash that led to a node is recorded on it. -/
def recordHash : Option Hash → Option Nat → MptM Unit
  | some hash, some p => do
    match ← ldNode p with
    | .hashed _ => stNode p (.hashed hash)
    | .made body rlp _ => stNode p (.made body rlp (some hash))
  | _, _ => return ()

/-- The child of an extension: a branch, or the hash of one. -/
def deliverExt (nib : Nibbles) (rlp : Bytes) : Option Nat → MptM Nat
  | none => mptFail 8
  | some p => do
    match ← ldNode p with
    | .made (.leaf _ _) _ _ => mptFail 8
    | .made (.ext _ _) _ _ => mptFail 8
    | _ => do
      let ex ← nodeNewExt nib (some p)
      stRlp ex rlp
      return ex

/-- A branch after its last child. -/
def finishBranch (br occ : Nat) (arr : List Bytes) (rlp : Bytes) : MptM Nat := do
  let bv ← liftMpt (rlpItem (sliceAt arr 16))
  if bv.isList then do
    if occ < 2 then mptFail 9
    else do
      stRlp br rlp
      return br
  else do
    modifyNode br (.setVal (bv.payloadOf (sliceAt arr 16)))
    if (if bv.payload ≠ 0 then occ + 1 else occ) < 2 then mptFail 9
    else do
      stRlp br rlp
      return br

/-- A child is delivered: the node is done, or it waits for its next child. -/
def deliver (act : Activation) (result : Option Nat) : MptM (Nat ⊕ Activation × Nat) := do
  recordHash act.hash result
  match act.stage with
  | .ext nib => return .inl (← deliverExt nib act.rlp result)
  | .branch br i occ => do
    modifyNode br (.setChildren (nibbleOf i) result)
    let occ := if result.isSome then occ + 1 else occ
    if i + 1 < 16 then return .inr ({ act with stage := .branch br (i + 1) occ }, i + 1)
    else return .inl (← finishBranch br occ act.arr act.rlp)

/-- The first item that an activation resolves. -/
def Stage.firstSlot : Stage → Nat
  | .ext _ => 1
  | .branch _ _ _ => 0

def decodeLoop (db : NodeDb) : Nat → List Activation → Mode → MptM (Option Nat)
  | 0, _, _ => throw .outOfFuel
  | fuel + 1, top, .decode bs => do
    match ← decodeStep bs with
    | .inl result => decodeLoop db fuel top (.deliver result)
    | .inr act => decodeLoop db fuel (act :: top) (.resolve act.stage.firstSlot)
  | _ + 1, [], .resolve _ => throw .outOfFuel
  | fuel + 1, act :: top, .resolve slot => do
    match ← resolveStep db (sliceAt act.arr slot) with
    | .inl result => decodeLoop db fuel ({ act with hash := none } :: top) (.deliver result)
    | .inr next => decodeLoop db fuel ({ act with hash := next.2 } :: top) (.decode next.1)
  | _ + 1, [], .deliver result => return result
  | fuel + 1, act :: top, .deliver result => do
    match ← deliver act result with
    | .inl node => decodeLoop db fuel top (.deliver (some node))
    | .inr next => decodeLoop db fuel (next.1 :: top) (.resolve next.2)

section

variable [Keccak]

def decodeWitnessToMpt (fuel : Nat) (db : NodeDb) (rootHash : Hash) : MptM (Option Nat) :=
  if rootHash = emptyTrieRoot then return none
  else do
    match nodedbLookup db rootHash with
    | none => mptFail 1
    | some bs => do
      let nd ← decodeLoop db fuel [] (.decode bs)
      recordHash (some rootHash) nd
      return nd

def mptFromWitness (fuel : Nat) (db : NodeDb) (rootHash : Hash) (secured : Bool) : MptM Handle := do
  return mptNew (← decodeWitnessToMpt fuel db rootHash) secured

end

/-! ## Items of encodings -/

theorem liftMpt_ok {α : Type} {x : Except Exn α} {r : α} (h : x = .ok r) (a : Arena Node) :
    liftMpt x a = .ok r a := by
  subst h
  rfl

theorem catchRlp_ok {α : Type} {x : Except Exn α} {r : α} (h : x = .ok r) (a : Arena Node) :
    catchRlp x a = .ok r a := by
  subst h
  rfl

theorem rlpSlicesOf_encodeAll {ts : List RlpTree}
    (hlt : (RlpTree.encodeAll ts).length < 2 ^ 64) :
    rlpSlicesOf ts.length (RlpTree.encodeAll ts) = .ok (ts.map RlpTree.encode) := by
  induction ts with
  | nil => rfl
  | cons t ts ih =>
    rw [RlpTree.encodeAll, List.length_append] at hlt
    obtain ⟨h, hrun, -, -, hdrop⟩ :=
      rlpHeader_encode t (Nat.lt_of_le_of_lt (Nat.le_add_right _ _) hlt) (RlpTree.encodeAll ts)
    have htake : (t.encode ++ RlpTree.encodeAll ts).take h.total = t.encode := by
      have happ := List.take_append_drop h.total (t.encode ++ RlpTree.encodeAll ts)
      rw [hdrop] at happ
      exact List.append_cancel_right happ
    rw [List.length_cons, rlpSlicesOf, RlpTree.encodeAll]
    refine except_bind_eq_ok.mpr ⟨h, hrun, ?_⟩
    rw [hdrop, ih (Nat.lt_of_le_of_lt (Nat.le_add_left _ _) hlt), htake]
    rfl

theorem rlpSlices_encodeAll {ts : List RlpTree}
    (hlt : (RlpTree.encodeAll ts).length < 2 ^ 64) :
    rlpSlices (RlpTree.encodeAll ts) = .ok (ts.map RlpTree.encode) :=
  except_bind_eq_ok.mpr ⟨_, rlpListCount_encodeAll hlt, rlpSlicesOf_encodeAll hlt⟩

theorem rlpItem_tree {t : RlpTree} (hlt : t.encode.length < 2 ^ 64) :
    ∃ it, rlpItem t.encode = .ok it ∧ it.isList = t.isList ∧ it.payload = t.payload.length ∧
      it.payloadOf t.encode = t.payload := by
  obtain ⟨it, hrun, hd⟩ := rlpItem_encode hlt []
  rw [List.append_nil] at hrun hd
  exact ⟨it, hrun, hd.isList, hd.length, hd.payload⟩

theorem rlpDecodeFully_tree {t : RlpTree} (hlt : t.encode.length < 2 ^ 64) :
    ∃ it, rlpDecodeFully t.encode = .ok it ∧ it.isList = t.isList ∧
      it.payload = t.payload.length ∧ it.payloadOf t.encode = t.payload := by
  obtain ⟨it, hrun, hd⟩ := rlpItem_encode hlt []
  rw [List.append_nil] at hrun hd
  exact ⟨it, rlpDecodeFully_eq_ok.mpr ⟨hrun, hd.total⟩, hd.isList, hd.length, hd.payload⟩

theorem encode_mem_length_le {t : RlpTree} {ts : List RlpTree} (h : t ∈ ts) :
    t.encode.length ≤ (RlpTree.encodeAll ts).length := by
  induction h with
  | head ts =>
    rw [RlpTree.encodeAll, List.length_append]
    exact Nat.le_add_right _ _
  | tail u _ ih =>
    rw [RlpTree.encodeAll, List.length_append]
    exact Nat.le_trans ih (Nat.le_add_left _ _)

section

variable [Keccak] {a b : Arena Node} {t u w : MptTrie} {S T : Set Nat} {db : NodeDb}

/-! ## Stubs -/

/-- The hash stands for a trie that the witness does not contain. -/
structure StubFor (db : NodeDb) (h : Hash) (u : MptTrie) : Prop where
  made : u.isEmpty = false
  full : u.Full
  long : 32 ≤ (nodeRlp u).length
  hash : h = keccak256 (nodeRlp u)
  missing : nodedbLookup db h = none

theorem stubFor_made : ∀ h u, StubFor db h u → u.isEmpty = false := fun _ _ h => h.made

/-- A part of a trie is referred to as the trie is, and has its nodes. -/
theorem refTree_of_prunes (h : Trie.Prunes (StubFor db) t u) :
    refTree t (nodeTree t) = refTree u (nodeTree u) ∧
      (nodeTree t = nodeTree u ∨ ∃ x, t = .stub x) := by
  induction h with
  | empty => exact ⟨rfl, .inl rfl⟩
  | leaf => exact ⟨rfl, .inl rfl⟩
  | @stub x u hu =>
    refine ⟨?_, .inr ⟨x, rfl⟩⟩
    rw [refTree_full hu.full hu.made, if_neg (Nat.not_lt.mpr hu.long), ← hu.hash]
    rfl
  | @ext t u seg h ih =>
    have htree : nodeTree (.ext seg t) = nodeTree (.ext seg u) := by
      rw [nodeTree, nodeTree, ih.1]
    refine ⟨?_, .inl htree⟩
    rw [htree]
    rfl
  | @branch ch ch' v h ih =>
    have htree : nodeTree (.branch ch v) = nodeTree (.branch ch' v) := by
      rw [nodeTree, nodeTree]
      congr 3
      funext d
      exact (ih d).1
    refine ⟨?_, .inl htree⟩
    rw [htree]
    rfl

theorem nodeRlp_of_prunes (h : Trie.Prunes (StubFor db) t u) (hne : ∀ x, t ≠ .stub x) :
    nodeRlp t = nodeRlp u := by
  rcases (refTree_of_prunes h).2 with heq | ⟨x, hx⟩
  · exact congrArg RlpTree.encode heq
  · exact absurd hx (hne x)

/-- **A part of a trie has the root of the trie.** -/
theorem rootOf_of_prunes (h : Trie.Prunes (StubFor db) t u) (hfull : u.Full) :
    rootOf t = rootOf u := by
  have hmade := nodeRlp_of_prunes h
  rw [rootOf_full hfull]
  cases h with
  | stub hu => exact hu.hash
  | _ => exact congrArg keccak256 (hmade nofun)

theorem inside_of_prunes (h : Trie.Prunes (StubFor db) t u) {t' : MptTrie} (hin : Inside t' t) :
    ∃ u', Inside u' u ∧ Trie.Prunes (StubFor db) t' u' := by
  induction h generalizing t' with
  | empty => exact ⟨.empty, .self, by cases hin; exact .empty⟩
  | leaf k v => exact ⟨.leaf k v, .self, by cases hin; exact .leaf k v⟩
  | @stub x u hu => exact ⟨u, .self, by cases hin; exact .stub hu⟩
  | @ext t u seg h ih =>
    cases hin with
    | self => exact ⟨_, .self, .ext seg h⟩
    | ext _ hin =>
      obtain ⟨u', hu', hp⟩ := ih hin
      exact ⟨u', .ext seg hu', hp⟩
  | @branch ch ch' v h ih =>
    cases hin with
    | self => exact ⟨_, .self, .branch v h⟩
    | branch _ d hin =>
      obtain ⟨u', hu', hp⟩ := ih d hin
      exact ⟨u', .branch v d hu', hp⟩

theorem fits_of_prunes (h : Trie.Prunes (StubFor db) t u) (hfits : Fits u) : Fits t := by
  rintro e ⟨t', hin, rfl⟩
  obtain ⟨u', hu', hp⟩ := inside_of_prunes h hin
  rcases (refTree_of_prunes hp).2 with heq | ⟨x, rfl⟩
  · have hlt := hfits _ ⟨u', hu', rfl⟩
    unfold nodeRlp at hlt ⊢
    rwa [heq]
  · change (RlpTree.str (beBytes 32 x.toNat)).encode.length < _
    rw [encode_hash, List.length_cons, length_beBytes]
    decide

/-- A part without stubs is all of the trie. -/
theorem eq_of_prunes (h : Trie.Prunes (StubFor db) t u)
    (hall : ∀ v, Inside v u → 32 ≤ (nodeRlp v).length →
      nodedbLookup db (keccak256 (nodeRlp v)) ≠ none) : t = u := by
  induction h with
  | empty => rfl
  | leaf => rfl
  | stub hu => exact absurd (hu.hash ▸ hu.missing) (hall _ .self hu.long)
  | ext seg h ih => rw [ih fun v hv => hall v (.ext seg hv)]
  | branch w h ih =>
    congr 1
    funext d
    exact ih d fun v hv => hall v (.branch w d hv)

/-! ## Steps of the decoder -/

/-- The hash of a node of the trie leads to that node, if it leads anywhere. -/
def Honest (db : NodeDb) (u : MptTrie) : Prop :=
  ∀ v, Inside v u → ∀ e, nodedbLookup db (keccak256 (nodeRlp v)) = some e → e = nodeRlp v

/-- What an item resolves to: a child that is known, or the node to decode. -/
inductive Resolved (db : NodeDb) (u : MptTrie) (a : Arena Node) :
    Option Nat ⊕ Bytes × Option Hash → Arena Node → Prop where
  | empty (h : u = .empty) : Resolved db u a (.inl none) a
  | missing {x : Hash} (h : StubFor db x u) :
    Resolved db u a (.inl (some a.next)) (a.alloc (.hashed x))
  | inside (h : u.isEmpty = false) : Resolved db u a (.inr (nodeRlp u, none)) a
  | entry (h : u.isEmpty = false) :
    Resolved db u a (.inr (nodeRlp u, some (keccak256 (nodeRlp u)))) a

theorem resolveStep_run (hfull : u.Full) (hlt : (nodeRlp u).length < 2 ^ 64) (hh : Honest db u)
    (a : Arena Node) :
    ∃ r b, resolveStep db (refBytes u) a = .ok r b ∧ Resolved db u a r b := by
  unfold refBytes
  cases hne : u.isEmpty with
  | true =>
    obtain rfl := Trie.eq_empty_of_isEmpty hne
    obtain ⟨it, hrun, hlist, hlen, -⟩ := rlpItem_tree (t := .str []) (by decide)
    refine ⟨.inl none, a, ?_, .empty rfl⟩
    rw [refTree, resolveStep, bind_run_ok (catchRlp_ok hrun a),
      if_neg (by rw [hlist]; exact Bool.noConfusion), if_pos (show it.payload = 0 from hlen)]
    rfl
  | false =>
    rw [refTree_full hfull hne]
    split
    · obtain ⟨it, hrun, hlist, -, -⟩ := rlpItem_tree hlt
      refine ⟨.inr (nodeRlp u, none), a, ?_, .inside hne⟩
      rw [nodeTree_isList hfull hne] at hlist
      rw [resolveStep, bind_run_ok (catchRlp_ok hrun a), if_pos hlist]
      rfl
    · next hlong =>
      have hshort : (RlpTree.str (beBytes 32 (keccak256 (nodeRlp u)).toNat)).encode.length <
          2 ^ 64 := by
        rw [encode_hash, List.length_cons, length_beBytes]
        decide
      obtain ⟨it, hrun, hlist, hlen, hpay⟩ := rlpItem_tree hshort
      have hlen' : it.payload = 32 := by
        rw [hlen, RlpTree.payload, length_beBytes]
      have hhash : BitVec.ofNat 256 (beNat (it.payloadOf
          (RlpTree.str (beBytes 32 (keccak256 (nodeRlp u)).toNat)).encode)) =
          keccak256 (nodeRlp u) := by
        rw [hpay, RlpTree.payload, beNat_beBytes]
        have hx : (keccak256 (nodeRlp u)).toNat < 256 ^ 32 := BitVec.isLt _
        refine BitVec.eq_of_toNat_eq ?_
        rw [BitVec.toNat_ofNat, Nat.mod_eq_of_lt hx, Nat.mod_eq_of_lt (by exact hx)]
      rw [resolveStep, bind_run_ok (catchRlp_ok hrun a),
        if_neg (by rw [hlist]; exact Bool.noConfusion), if_neg (by rw [hlen']; decide),
        if_neg (not_not.mpr hlen'), hhash]
      cases hdb : nodedbLookup db (keccak256 (nodeRlp u)) with
      | none =>
        exact ⟨_, _, rfl, .missing ⟨hne, hfull, Nat.not_lt.mp hlong, rfl, hdb⟩⟩
      | some e =>
        obtain rfl := hh u .self e hdb
        exact ⟨_, _, rfl, .entry hne⟩

omit [Keccak] in
theorem decodeStep_list {ts : List RlpTree} (hlt : (RlpTree.list ts).encode.length < 2 ^ 64)
    (a : Arena Node) : decodeStep (RlpTree.list ts).encode a =
      decodeItems (RlpTree.list ts).encode (ts.map RlpTree.encode) a := by
  obtain ⟨it, hrun, hlist, -, hpay⟩ := rlpDecodeFully_tree hlt
  have hslices : rlpSlices (it.payloadOf (RlpTree.list ts).encode) =
      .ok (ts.map RlpTree.encode) := by
    rw [hpay]
    exact rlpSlices_encodeAll (Nat.lt_of_le_of_lt (length_le_rlpEncodeList _) hlt)
  rw [decodeStep, bind_run_ok (catchRlp_ok hrun a), if_pos (show it.isList = true from hlist),
    bind_run_ok (liftMpt_ok hslices a)]

omit [Keccak] in
/-- The items of a node are short when the node is. -/
theorem length_item_lt {x : RlpTree} {ts : List RlpTree} (h : x ∈ ts)
    (hlt : (RlpTree.list ts).encode.length < 2 ^ 64) : x.encode.length < 2 ^ 64 :=
  Nat.lt_of_le_of_lt (Nat.le_trans (encode_mem_length_le h) (length_le_rlpEncodeList _)) hlt

omit [Keccak] in
theorem stRlp_alloc (a : Arena Node) (body : Body) (rlp : Bytes) :
    stRlp a.next rlp (a.alloc (.made body none none)) =
      .ok () (a.alloc (.made body (some rlp) none)) := by
  unfold stRlp
  rw [bind_run_ok (ldNode_run _ _), load_alloc_self]
  dsimp only
  rw [stNode_run, alloc_store]

theorem decodeStep_leaf {k : Nibbles} {v : Bytes}
    (hlt : (nodeRlp (.leaf k v)).length < 2 ^ 64) (a : Arena Node) :
    decodeStep (nodeRlp (.leaf k v)) a = .ok (.inl (some a.next))
      (a.alloc (.made (.leaf k v) (some (nodeRlp (.leaf k v))) none)) := by
  unfold nodeRlp at hlt ⊢
  rw [nodeTree] at hlt ⊢
  obtain ⟨pi, hpath, hplist, -, hppay⟩ := rlpItem_tree (length_item_lt List.mem_cons_self hlt)
  obtain ⟨vi, hval, hvlist, -, hvpay⟩ :=
    rlpItem_tree (length_item_lt (List.mem_cons_of_mem _ List.mem_cons_self) hlt)
  have hcompact := compact_round_trip k true
  rw [← show _ = nibbleListToCompact k true from hppay] at hcompact
  rw [decodeStep_list hlt]
  change (liftMpt (rlpItem (RlpTree.str (nibbleListToCompact k true)).encode) >>= _) a = _
  rw [bind_run_ok (liftMpt_ok hpath a), if_neg (by rw [hplist]; exact Bool.noConfusion)]
  refine (bind_run_ok (liftMpt_ok hcompact a)).trans ?_
  rw [if_pos rfl]
  refine (bind_run_ok (liftMpt_ok hval a)).trans ?_
  rw [if_neg (by rw [hvlist]; exact Bool.noConfusion)]
  change (nodeNewLeaf k (vi.payloadOf (RlpTree.str v).encode) >>= _) a = _
  rw [show vi.payloadOf (RlpTree.str v).encode = v from hvpay, nodeNewLeaf,
    bind_run_ok (allocNode_run _ a), bind_run_ok (stRlp_alloc a _ _)]
  rfl

theorem decodeStep_ext {seg : Nibbles} (hseg : seg ≠ [])
    (hlt : (nodeRlp (.ext seg t)).length < 2 ^ 64) (a : Arena Node) :
    ∃ arr, decodeStep (nodeRlp (.ext seg t)) a =
      .ok (.inr ⟨.ext seg, arr, nodeRlp (.ext seg t), none⟩) a ∧ sliceAt arr 1 = refBytes t := by
  unfold nodeRlp at hlt ⊢
  rw [nodeTree] at hlt ⊢
  obtain ⟨pi, hpath, hplist, -, hppay⟩ := rlpItem_tree (length_item_lt List.mem_cons_self hlt)
  have hcompact := compact_round_trip seg false
  rw [← show _ = nibbleListToCompact seg false from hppay] at hcompact
  refine ⟨[(RlpTree.str (nibbleListToCompact seg false)).encode, refBytes t], ?_, rfl⟩
  rw [decodeStep_list hlt]
  change (liftMpt (rlpItem (RlpTree.str (nibbleListToCompact seg false)).encode) >>= _) a = _
  rw [bind_run_ok (liftMpt_ok hpath a), if_neg (by rw [hplist]; exact Bool.noConfusion)]
  refine (bind_run_ok (liftMpt_ok hcompact a)).trans ?_
  rw [if_neg Bool.noConfusion, if_neg hseg]
  rfl

/-- The items of a branch. -/
def branchArr (ch : Nibble → MptTrie) (v : Bytes) : List Bytes :=
  (List.finRange 16).map (fun d => refBytes (ch d)) ++ [(RlpTree.str v).encode]

theorem sliceAt_child (ch : Nibble → MptTrie) (v : Bytes) (d : Nibble) :
    sliceAt (branchArr ch v) d.val = refBytes (ch d) := by
  unfold sliceAt branchArr
  rw [List.getD_eq_getElem?_getD, List.getElem?_append_left (by
      rw [List.length_map, List.length_finRange]
      exact d.isLt),
    List.getElem?_map, List.getElem?_eq_getElem (by rw [List.length_finRange]; exact d.isLt),
    List.getElem_finRange]
  rfl

theorem sliceAt_value (ch : Nibble → MptTrie) (v : Bytes) :
    sliceAt (branchArr ch v) 16 = (RlpTree.str v).encode := by
  unfold sliceAt branchArr
  rw [List.getD_eq_getElem?_getD, List.getElem?_append_right (by
      rw [List.length_map, List.length_finRange]),
    List.length_map, List.length_finRange]
  rfl

theorem decodeStep_branch {ch : Nibble → MptTrie} {v : Bytes}
    (hlt : (nodeRlp (.branch ch v)).length < 2 ^ 64) (a : Arena Node) :
    decodeStep (nodeRlp (.branch ch v)) a =
      .ok (.inr ⟨.branch a.next 0 0, branchArr ch v, nodeRlp (.branch ch v), none⟩)
        (a.alloc (.made (.branch (fun _ => none) []) none none)) := by
  unfold nodeRlp at hlt ⊢
  rw [nodeTree] at hlt ⊢
  have harr : ((List.finRange 16).map (fun d => refTree (ch d) (nodeTree (ch d))) ++
      [RlpTree.str v]).map RlpTree.encode = branchArr ch v := by
    rw [List.map_append, List.map_map]
    rfl
  have hlen : (branchArr ch v).length = 17 := by
    rw [← harr, List.length_map, length_branch_items]
  rw [decodeStep_list hlt, harr, decodeItems, if_neg (by rw [hlen]; decide),
    if_neg (not_not.mpr hlen)]
  rfl

/-! ## Nodes -/

/-- A part of the trie `u` is at `r`, all of it new. -/
structure Decoded (db : NodeDb) (a b : Arena Node) (r : Option Nat) (t u : MptTrie)
    (T : Set Nat) : Prop where
  owns : Owns b r t T
  prunes : Trie.Prunes (StubFor db) t u
  renewed : Renewed a ∅ T
  changes : Changes ∅ a b

theorem Owns.exists_made {p : Nat} (h : Owns a (some p) t S) (hne : ∀ x, t ≠ .stub x) :
    ∃ body rlp hash, a.load p = .made body rlp hash := by
  cases h with
  | stub => exact absurd rfl (hne _)
  | leaf _ hload => exact ⟨_, _, _, hload⟩
  | ext _ hload => exact ⟨_, _, _, hload⟩
  | branch _ hload => exact ⟨_, _, _, hload⟩

theorem recordHash_run {p : Nat} (h : Owns a (some p) t S) (hne : ∀ x, t ≠ .stub x) :
    ∃ b, recordHash (some (keccak256 (nodeRlp t))) (some p) a = .ok () b ∧ Owns b (some p) t S ∧
      Changes S a b := by
  obtain ⟨body, rlp, hash, hload⟩ := h.exists_made hne
  have hc : Caches t rlp (some (keccak256 (nodeRlp t))) :=
    ⟨(h.caches hload).rlp_eq, fun x hx => (Option.some.inj hx).symm⟩
  obtain ⟨hown, hch⟩ := h.recache hload hc
  refine ⟨_, ?_, hown, hch⟩
  rw [recordHash, bind_run_ok (ldNode_run p a), hload]
  rfl

/-- Some rounds of the machine. -/
def Leads (db : NodeDb) (a : Arena Node) (top : List Activation) (mode : Mode) (b : Arena Node)
    (top' : List Activation) (mode' : Mode) : Prop :=
  ∃ n, ∀ fuel, decodeLoop db (n + fuel) top mode a = decodeLoop db fuel top' mode' b

omit [Keccak] in
theorem Leads.trans {c : Arena Node} {top top' top'' : List Activation} {mode mode' mode'' : Mode}
    (h : Leads db a top mode b top' mode') (h' : Leads db b top' mode' c top'' mode'') :
    Leads db a top mode c top'' mode'' := by
  obtain ⟨n, hrun⟩ := h
  obtain ⟨n', hrun'⟩ := h'
  exact ⟨n + n', fun fuel => by rw [Nat.add_assoc, hrun, hrun']⟩

omit [Keccak] in
theorem leads_round {top top' : List Activation} {mode mode' : Mode}
    (h : ∀ fuel, decodeLoop db (fuel + 1) top mode a = decodeLoop db fuel top' mode' b) :
    Leads db a top mode b top' mode' := ⟨1, fun fuel => by rw [Nat.add_comm, h]⟩

/-- The machine decodes the topmost node of the trie and what is below it. -/
def Decodes (db : NodeDb) (u : MptTrie) : Prop :=
  ∀ (a : Arena Node) (top : List Activation), ∃ b p t T,
    Leads db a top (.decode (nodeRlp u)) b top (.deliver (some p)) ∧
      (∀ x, t ≠ .stub x) ∧ Decoded db a b (some p) t u T

/-- A child is delivered, with the hash to record on it. -/
theorem leads_child (act : Activation) {slot : Nat} (hslot : sliceAt act.arr slot = refBytes u)
    (hfull : u.Full) (hfits : Fits u) (hh : Honest db u)
    (hdec : u.isEmpty = false → Decodes db u) (a : Arena Node) (top : List Activation) :
    ∃ hash r b c t T, Leads db a (act :: top) (.resolve slot) b
        ({ act with hash := hash } :: top) (.deliver r) ∧
      recordHash hash r b = .ok () c ∧ Decoded db a c r t u T := by
  obtain ⟨r, b, hrun, hres⟩ := resolveStep_run hfull hfits.self hh a
  rw [← hslot] at hrun
  cases hres with
  | empty h =>
    subst h
    refine ⟨none, none, a, a, .empty, ∅, leads_round fun fuel => ?_, rfl, .empty, .empty,
      .refl a ∅, .refl ∅ a⟩
    rw [decodeLoop, bind_run_ok hrun]
  | @missing x h =>
    refine ⟨none, some a.next, a.alloc (.hashed x), a.alloc (.hashed x), .stub x, {a.next},
      leads_round fun fuel => ?_, rfl, ?_, .stub h, renewed_singleton_next a ∅,
      changes_alloc ∅ a _⟩
    · rw [decodeLoop, bind_run_ok hrun]
    · exact .stub (valid_alloc_self a _) (load_alloc_self a _)
  | inside hne =>
    obtain ⟨b, p, t, T, hlead, -, hd⟩ := hdec hne a ({ act with hash := none } :: top)
    refine ⟨none, some p, b, b, t, T, .trans (leads_round fun fuel => ?_) hlead, rfl, hd⟩
    rw [decodeLoop, bind_run_ok hrun]
  | entry hne =>
    obtain ⟨b, p, t, T, hlead, hstub, hd⟩ :=
      hdec hne a ({ act with hash := some (keccak256 (nodeRlp u)) } :: top)
    obtain ⟨c, hrec, hown, hch⟩ := recordHash_run hd.owns hstub
    rw [nodeRlp_of_prunes hd.prunes hstub] at hrec
    refine ⟨_, some p, b, c, t, T, .trans (leads_round fun fuel => ?_) hlead, hrec, hown,
      hd.prunes, hd.renewed, hd.changes.trans hd.renewed hch⟩
    rw [decodeLoop, bind_run_ok hrun]

theorem caches_rlp {rlp : Bytes} (h : nodeRlp t = rlp) : Caches t (some rlp) none :=
  ⟨fun _ hb => (Option.some.inj hb).symm.trans h.symm, nofun⟩

theorem decodes_leaf {k : Nibbles} {v : Bytes} (hfits : Fits (.leaf k v)) :
    Decodes db (.leaf k v) := by
  intro a top
  refine ⟨_, a.next, .leaf k v, {a.next}, leads_round fun fuel => ?_, nofun, ?_, .leaf k v,
    renewed_singleton_next a ∅, changes_alloc ∅ a
      (.made (.leaf k v) (some (nodeRlp (.leaf k v))) none)⟩
  · rw [decodeLoop, bind_run_ok (decodeStep_leaf hfits.self a)]
  · exact .leaf (valid_alloc_self a _) (load_alloc_self a _) (caches_rlp rfl)

theorem deliverExt_run {c : Option Nat} {seg : Nibbles} (h : Owns a c t S)
    (hb : t.isBranch = true) (rlp : Bytes) : deliverExt seg rlp c a =
      .ok a.next (a.alloc (.made (.ext seg c) (some rlp) none)) := by
  have halloc : (do
      let ex ← nodeNewExt seg c
      stRlp ex rlp
      return ex : MptM Nat) a = .ok a.next (a.alloc (.made (.ext seg c) (some rlp) none)) := by
    rw [nodeNewExt, bind_run_ok (allocNode_run _ a), bind_run_ok (stRlp_alloc a _ _)]
    rfl
  cases h with
  | empty => cases hb
  | stub _ hload =>
    rw [deliverExt, bind_run_ok (ldNode_run _ a), hload]
    exact halloc
  | leaf => cases hb
  | ext => cases hb
  | branch _ hload =>
    rw [deliverExt, bind_run_ok (ldNode_run _ a), hload]
    exact halloc

/-- An extension follows its child. -/
theorem decodes_ext {seg : Nibbles} (hfull : u.Full) (hwf : Trie.Wf (.ext seg u))
    (hfits : Fits (.ext seg u)) (hh : Honest db u) (hdec : Decodes db u) :
    Decodes db (.ext seg u) := by
  intro a top
  obtain ⟨arr, hrun, hslot⟩ := decodeStep_ext hwf.1 hfits.self a
  obtain ⟨hash, r, b, c, t, T, hlead, hrec, hd⟩ :=
    leads_child ⟨.ext seg, arr, nodeRlp (.ext seg u), none⟩ hslot hfull hfits.ext hh
      (fun _ => hdec) a top
  have hprunes := Trie.Prunes.ext seg hd.prunes
  have hb : t.isBranch = true := (Trie.wf_of_prunes stubFor_made hprunes hwf).2.1
  have hdeliver : deliver ⟨.ext seg, arr, nodeRlp (.ext seg u), hash⟩ r b = .ok (.inl c.next)
      (c.alloc (.made (.ext seg r) (some (nodeRlp (.ext seg u))) none)) := by
    rw [deliver, bind_run_ok hrec]
    dsimp only
    rw [bind_run_ok (deliverExt_run hd.owns hb _)]
    rfl
  refine ⟨_, c.next, .ext seg t, insert c.next T, .trans (leads_round fun fuel => ?_)
    (hlead.trans (leads_round fun fuel => ?_)), nofun, ?_, hprunes, ?_,
    hd.changes.trans_self (changes_alloc ∅ c
      (.made (.ext seg r) (some (nodeRlp (.ext seg u))) none))⟩
  · rw [decodeLoop, bind_run_ok hrun]
    rfl
  · rw [decodeLoop, bind_run_ok hdeliver]
  · exact .ext (valid_alloc_self c _) (load_alloc_self c _)
      (caches_rlp (nodeRlp_of_prunes hprunes nofun)) (hd.owns.alloc _) hd.owns.not_mem_next
  · rintro q (rfl | hq)
    · exact .inr fun hn => Nat.lt_irrefl _ (hd.changes.valid hn)
    · exact hd.renewed q hq

/-! ## Branches -/

section

variable {ch : Nibble → MptTrie} {v : Bytes} {a₀ c : Arena Node} {br i : Nat}
  {s : Trie.Slots 16 Bytes Hash} {cs : Nibble → Option Nat} {Ss : Nibble → Set Nat}

/-- The branch `br` has got its first `i` children. -/
structure Partway (db : NodeDb) (ch : Nibble → MptTrie) (a₀ : Arena Node) (br i : Nat)
    (a : Arena Node) (s : Trie.Slots 16 Bytes Hash) (cs : Nibble → Option Nat)
    (Ss : Nibble → Set Nat) : Prop where
  building : Building a₀ ∅ a br s cs Ss
  prunes : ∀ d : Nibble, d.val < i → Trie.Prunes (StubFor db) (s.1 d) (ch d)

/-- The number of children among the first `i`. -/
def occupiedBefore (ch : Nibble → MptTrie) (i : Nat) : Nat :=
  ((List.finRange 16).take i).countP fun d => !(ch d).isEmpty

omit [Keccak] in
theorem occupiedBefore_succ (ch : Nibble → MptTrie) (d : Nibble) :
    occupiedBefore ch (d.val + 1) =
      if (!(ch d).isEmpty) = true then occupiedBefore ch d.val + 1
      else occupiedBefore ch d.val := by
  have hd : d.val < (List.finRange 16).length := by
    rw [List.length_finRange]
    exact d.isLt
  unfold occupiedBefore
  rw [List.take_succ_eq_append_getElem hd, List.countP_append, List.getElem_finRange,
    List.countP_singleton, show Fin.cast List.length_finRange ⟨d.val, hd⟩ = d from rfl]
  split
  · rfl
  · rfl

omit [Keccak] in
theorem occupiedBefore_all (ch : Nibble → MptTrie) :
    occupiedBefore ch 16 = (Trie.occupied ch).length := by
  unfold occupiedBefore Trie.occupied
  rw [List.take_of_length_le (by rw [List.length_finRange]), List.countP_eq_length_filter]

/-- A child more. -/
theorem Partway.put {d : Nibble} {r : Option Nat} {T : Set Nat}
    (h : Partway db ch a₀ br d.val a s cs Ss) (hd : Decoded db a c r t (ch d) T) :
    ∃ c' s' cs' Ss', modifyNode br (.setChildren d r) c = .ok () c' ∧
      Partway db ch a₀ br (d.val + 1) c' s' cs' Ss' := by
  have hren : ∀ e, Disjoint (Ss e) T := fun e => Set.disjoint_left.mpr fun q hq =>
    hd.renewed.not_mem ((h.building.all.child e).valid q hq) (Set.notMem_empty q)
  obtain ⟨c', cs', Ss', hrun, hb⟩ := h.building.put (d := d) (hd.changes.mono (Set.empty_subset _))
    hd.owns (hd.renewed.not_mem h.building.valid (Set.notMem_empty br))
    ((Renewed.refl a₀ ∅).trans h.building.changes hd.renewed) fun e _ => hren e
  refine ⟨c', _, cs', Ss', hrun, hb, fun e he => ?_⟩
  dsimp only
  by_cases hed : e = d
  · rw [hed, Function.update_self]
    exact hd.prunes
  · rw [Function.update_of_ne hed]
    exact h.prunes e (Nat.lt_of_le_of_ne (Nat.le_of_lt_succ he) fun h => hed (Fin.ext h))

/-- The value of the branch, and its encoding. -/
theorem finishBranch_run (h : Partway db ch a₀ br 16 a s cs Ss) (hwf : Trie.Wf (.branch ch v))
    (hfits : Fits (.branch ch v)) :
    ∃ b t T, finishBranch br (occupiedBefore ch 16) (branchArr ch v) (nodeRlp (.branch ch v)) a =
        .ok br b ∧ (∀ x, t ≠ .stub x) ∧ Decoded db a₀ b (some br) t (.branch ch v) T := by
  have hval : (RlpTree.str v).encode.length < 2 ^ 64 := by
    refine length_item_lt ?_ hfits.self
    exact List.mem_append_right _ List.mem_cons_self
  obtain ⟨bv, hrun, hlist, hlen, hpay⟩ := rlpItem_tree hval
  have hocc := hwf.2
  unfold Trie.occupancy at hocc
  have hcount :
      ¬ (if bv.payload ≠ 0 then occupiedBefore ch 16 + 1 else occupiedBefore ch 16) < 2 := by
    rw [occupiedBefore_all, hlen, RlpTree.payload]
    by_cases hv : v = default
    · rw [if_pos hv] at hocc
      rw [hv, if_neg (not_not.mpr (show (default : Bytes).length = 0 from rfl))]
      exact Nat.not_lt.mpr hocc
    · rw [if_neg hv] at hocc
      rw [if_pos (fun h => hv (List.length_eq_zero_iff.mp h))]
      exact Nat.not_lt.mpr hocc
  have hb := h.building
  have hprunes : Trie.Prunes (StubFor db) (.branch s.1 v) (.branch ch v) :=
    .branch v fun d => h.prunes d d.isLt
  have hset : modifyNode br (.setVal v) a =
      .ok () (a.store br (.made (.branch cs v) none none)) := by
    rw [modifyNode_run, hb.load]
    rfl
  have hst : stRlp br (nodeRlp (.branch ch v)) (a.store br (.made (.branch cs v) none none)) =
      .ok () ((a.store br (.made (.branch cs v) none none)).store br
        (.made (.branch cs v) (some (nodeRlp (.branch ch v))) none)) := by
    unfold stRlp
    rw [bind_run_ok (ldNode_run br _), load_store_self hb.valid]
    rfl
  have hvalid : (a.store br (.made (.branch cs v) none none)).Valid br :=
    (changes_store (Set.mem_singleton br) a _).valid hb.valid
  refine ⟨_, .branch s.1 v, _, ?_, nofun, ((hb.all.store _).store _).owns ?_
    (load_store_self hvalid _) (caches_rlp (nodeRlp_of_prunes hprunes nofun)), hprunes, ?_, ?_⟩
  · rw [finishBranch, sliceAt_value, bind_run_ok (liftMpt_ok hrun a),
      if_neg (by rw [hlist]; exact Bool.noConfusion),
      show bv.payloadOf (RlpTree.str v).encode = v from hpay, bind_run_ok hset, if_neg hcount,
      bind_run_ok hst]
    rfl
  · exact (changes_store (Set.mem_singleton br) _ _).valid hvalid
  · rintro q (rfl | hq)
    · exact .inr hb.fresh
    · obtain ⟨d, hd⟩ := Set.mem_iUnion.mp hq
      exact hb.renewed d q hd
  · exact changes_store_fresh (changes_store_fresh hb.changes hb.fresh _) hb.fresh _

/-- A round for the child number `d`. -/
theorem branch_round {d : Nibble} (hfull : (ch d).Full) (hfits : Fits (ch d))
    (hh : Honest db (ch d)) (hdec : (ch d).isEmpty = false → Decodes db (ch d))
    (h : Partway db ch a₀ br d.val a s cs Ss) (rlp : Bytes) (hash : Option Hash)
    (top : List Activation) :
    ∃ hash' r b c s' cs' Ss', Leads db a
        (⟨.branch br d.val (occupiedBefore ch d.val), branchArr ch v, rlp, hash⟩ :: top)
        (.resolve d.val) b
        (⟨.branch br d.val (occupiedBefore ch d.val), branchArr ch v, rlp, hash'⟩ :: top)
        (.deliver r) ∧
      Partway db ch a₀ br (d.val + 1) c s' cs' Ss' ∧
      deliver ⟨.branch br d.val (occupiedBefore ch d.val), branchArr ch v, rlp, hash'⟩ r b =
        (if d.val + 1 < 16 then return .inr (⟨.branch br (d.val + 1)
            (occupiedBefore ch (d.val + 1)), branchArr ch v, rlp, hash'⟩, d.val + 1)
          else do return .inl (← finishBranch br (occupiedBefore ch (d.val + 1))
            (branchArr ch v) rlp) : MptM (Nat ⊕ Activation × Nat)) c := by
  obtain ⟨hash', r, b, c, t, T, hlead, hrec, hd⟩ :=
    leads_child ⟨.branch br d.val (occupiedBefore ch d.val), branchArr ch v, rlp, hash⟩
      (sliceAt_child ch v d) hfull hfits hh hdec a top
  obtain ⟨c', s', cs', Ss', hput, h'⟩ := h.put hd
  have hd16 : nibbleOf d.val = d := Fin.ext (Nat.mod_eq_of_lt d.isLt)
  have hsome : r.isSome = !(ch d).isEmpty := by
    rw [hd.owns.isSome, Trie.isEmpty_of_prunes stubFor_made hd.prunes]
  refine ⟨hash', r, b, c', s', cs', Ss', hlead, h', ?_⟩
  rw [deliver, bind_run_ok hrec]
  dsimp only
  rw [hd16, bind_run_ok hput, hsome, ← occupiedBefore_succ]

/-- The children from number `i` on, and the end of the branch. -/
theorem branch_loop (hfull : ∀ d, (ch d).Full) (hwf : Trie.Wf (.branch ch v))
    (hfits : Fits (.branch ch v)) (hh : ∀ d, Honest db (ch d))
    (hdec : ∀ d, (ch d).isEmpty = false → Decodes db (ch d)) {left : Nat}
    (hi : i + left + 1 = 16) (h : Partway db ch a₀ br i a s cs Ss) (hash : Option Hash)
    (top : List Activation) :
    ∃ b t T, Leads db a (⟨.branch br i (occupiedBefore ch i), branchArr ch v,
        nodeRlp (.branch ch v), hash⟩ :: top) (.resolve i) b top (.deliver (some br)) ∧
      (∀ x, t ≠ .stub x) ∧ Decoded db a₀ b (some br) t (.branch ch v) T := by
  induction left generalizing i a s cs Ss hash with
  | zero =>
    obtain rfl : i = 15 := by omega
    obtain ⟨hash', r, b, c, s', cs', Ss', hlead, h', hrun⟩ :=
      branch_round (d := 15) (v := v) (hfull 15) (hfits.branch 15) (hh 15) (hdec 15) h
        (nodeRlp (.branch ch v)) hash top
    obtain ⟨b', t, T, hfin, hstub, hd⟩ := finishBranch_run h' hwf hfits
    rw [if_neg (by decide)] at hrun
    have hdone := hrun.trans (bind_run_ok hfin)
    refine ⟨b', t, T, hlead.trans (leads_round fun fuel => ?_), hstub, hd⟩
    rw [decodeLoop]
    exact bind_run_ok hdone
  | succ left ih =>
    have hlt : i < 16 := by omega
    obtain ⟨hash', r, b, c, s', cs', Ss', hlead, h', hrun⟩ :=
      branch_round (d := ⟨i, hlt⟩) (v := v) (hfull _) (hfits.branch _) (hh _) (hdec _) h
        (nodeRlp (.branch ch v)) hash top
    rw [if_pos (show i + 1 < 16 by omega)] at hrun
    obtain ⟨b', t, T, hrest, hstub, hd⟩ := ih (show i + 1 + left + 1 = 16 by omega) h' hash'
    refine ⟨b', t, T, hlead.trans (.trans (leads_round fun fuel => ?_) hrest), hstub, hd⟩
    rw [decodeLoop]
    exact bind_run_ok hrun

/-- A branch gets its children from the first to the last one. -/
theorem decodes_branch (hfull : ∀ d, (ch d).Full) (hwf : Trie.Wf (.branch ch v))
    (hfits : Fits (.branch ch v)) (hh : ∀ d, Honest db (ch d))
    (hdec : ∀ d, (ch d).isEmpty = false → Decodes db (ch d)) : Decodes db (.branch ch v) := by
  intro a top
  have hstart := building_new (Changes.refl ∅ a)
  obtain ⟨b, t, T, hlead, hstub, hd⟩ := branch_loop hfull hwf hfits hh hdec
    (show 0 + 15 + 1 = 16 from rfl)
    (show Partway db ch a a.next 0 _ _ _ _ from ⟨hstart, fun d hd => absurd hd (Nat.not_lt_zero _)⟩)
    none top
  refine ⟨b, a.next, t, T, .trans (leads_round fun fuel => ?_) hlead, hstub, hd⟩
  rw [decodeLoop, bind_run_ok (decodeStep_branch hfits.self a)]
  rfl

end

theorem Honest.ext {seg : Nibbles} (h : Honest db (.ext seg u)) : Honest db u :=
  fun v hv => h v (.ext seg hv)

theorem Honest.branch {ch : Nibble → MptTrie} {v : Bytes} (h : Honest db (.branch ch v))
    (d : Nibble) : Honest db (ch d) := fun w hw => h w (.branch v d hw)

/-- **A node is decoded** to a part of the trie, whatever part of it the witness contains. -/
theorem decode_run (hfull : u.Full) (hwf : u.Wf) (hfits : Fits u) (hh : Honest db u)
    (hne : u.isEmpty = false) : Decodes db u := by
  induction u with
  | empty => cases hne
  | stub => exact hfull.elim
  | leaf k v => exact decodes_leaf hfits
  | ext seg u ih =>
    exact decodes_ext hfull hwf hfits hh.ext
      (ih hfull hwf.2.2 hfits.ext hh.ext (Trie.not_isEmpty_of_isBranch hwf.2.1))
  | branch ch v ih =>
    exact decodes_branch hfull hwf hfits hh.branch fun d hne =>
      ih d (hfull d) (hwf.1 d) (hfits.branch d) (hh.branch d) hne

end

end StatelessGuest.Mpt
