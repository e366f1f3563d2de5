import StatelessGuest.Mpt.Owns
import StatelessGuest.Rlp.Write

/-!
# Encodings and roots

The encoding of a node is kept with the node. It is made in two passes over the node: the first one
adds up the length of the payload, the second one writes. A child has its encoding before the node
gets one; the recursion is a loop over frames.

* `nodeRlpFillLoop`, `nodeRlpAt`, `nodeHash`, `mptRoot`: the code.
* `Fits`: no encoding is longer than a word can say.
* `nodeRlpFinish_run`: a node whose children have their encodings gets its own.
* `fill_run`: so does every node below it.
* `mptRoot_run`: the root.
-/

namespace StatelessGuest.Mpt

open Lib Arena

/-! ## The code -/

section

variable [Keccak]

/-- A length. -/
abbrev lenOf (bs : Bytes) : Word := BitVec.ofNat 64 bs.length

/-- The first byte, or zero. -/
abbrev firstOf (bs : Bytes) : Word := BitVec.ofNat 64 (bs.headD 0).toNat

def rlpValueEncodedLen (val : Bytes) : Word := rlpBytesEncodedLen (firstOf val) (lenOf val)

/-- A node whose encoding is being made (`NR_*`): the next child to visit, the compact path, and
the length of the payload before the children. -/
structure Frame where
  node : Nat
  i : Nat
  cbuf : Bytes
  payload : Word

def stRlp (p : Nat) (rlp : Bytes) : MptM Unit := do
  match ← ldNode p with
  | .hashed hash => stNode p (.hashed hash)
  | .made body _ hash => stNode p (.made body (some rlp) hash)

/-- The node has no encoding yet. -/
def Node.uncached : Node → Bool
  | made _ none _ => true
  | _ => false

def nodeNeedsRlp : Option Nat → MptM Bool
  | none => return false
  | some child => do return (← ldNode child).uncached

/-- The length of the reference to a child. -/
def nodeRefLen : Option Nat → MptM Word
  | none => return 1
  | some child => do
    match ← ldNode child with
    | .hashed _ => return 33
    | .made _ none _ => mptFail 13
    | .made _ (some rlp) _ => return if lenOf rlp < 32 then lenOf rlp else 33

def nodeHashCached (node : Nat) : MptM Hash := do
  match ← ldNode node with
  | .hashed hash => return hash
  | .made _ _ (some hash) => return hash
  | .made _ none none => mptFail 13
  | .made body (some rlp) none => do
    let hash := keccak256 rlp
    stNode node (.made body (some rlp) (some hash))
    return hash

/-- The reference to a child, as it is written. -/
def nodeWriteRef : Option Nat → MptM Bytes
  | none => return [128]
  | some child => do
    match ← ldNode child with
    | .hashed hash => return 160 :: beBytes 32 hash.toNat
    | .made _ none _ => mptFail 13
    | .made _ (some rlp) _ =>
      if lenOf rlp < 32 then return rlp
      else do
        let hash ← nodeHashCached child
        return 160 :: beBytes 32 hash.toNat

def sumRefLens (children : Nibble → Option Nat) : List Nibble → Word → MptM Word
  | [], payload => return payload
  | i :: is, payload => do
    let rl ← nodeRefLen (children i)
    sumRefLens children is (payload + rl)

def writeRefs (children : Nibble → Option Nat) : List Nibble → MptM Bytes
  | [] => return []
  | i :: is => do
    let w ← nodeWriteRef (children i)
    return w ++ (← writeRefs children is)

/-- The next child without an encoding, with the child behind it. -/
def findUncached (children : Nibble → Option Nat) : Nat → Nat → MptM (Option Nat × Nat)
  | 0, i => return (none, i)
  | left + 1, i => do
    let child := children (nibbleOf i)
    if ← nodeNeedsRlp child then return (child, i + 1)
    else findUncached children left (i + 1)

variable [Stray]

/-- What is known of the encoding before a child is consulted. -/
def frameOf (node : Nat) : Body → Frame
  | .leaf nib val =>
    let cbuf := nibbleListToCompact nib true
    ⟨node, 0, cbuf, rlpBytesEncodedLen (firstOf cbuf) (lenOf cbuf) + rlpValueEncodedLen val⟩
  | .ext nib _ =>
    let cbuf := nibbleListToCompact nib false
    ⟨node, 0, cbuf, rlpBytesEncodedLen (firstOf cbuf) (lenOf cbuf)⟩
  | .branch _ _ => ⟨node, 0, [], 0⟩

def nodeRlpBegin (node : Nat) : MptM Frame := do
  match ← ldNode node with
  | .hashed _ => throw Stray.exn
  | .made body _ _ => return frameOf node body

/-- The rest, when every child has its encoding. -/
def nodeRlpFinish (fr : Frame) : MptM Unit := do
  match ← ldNode fr.node with
  | .hashed _ => throw Stray.exn
  | .made (.leaf _ val) _ _ =>
    stRlp fr.node (rlpEncodeListHeader fr.payload.toNat ++
      (rlpEncodeBytes fr.cbuf ++ rlpEncodeBytes val))
  | .made (.ext _ child) _ _ => do
    let rl ← nodeRefLen child
    let w ← nodeWriteRef child
    stRlp fr.node (rlpEncodeListHeader (fr.payload + rl).toNat ++ (rlpEncodeBytes fr.cbuf ++ w))
  | .made (.branch children val) _ _ => do
    let payload ← sumRefLens children (List.finRange 16) fr.payload
    let w ← writeRefs children (List.finRange 16)
    stRlp fr.node (rlpEncodeListHeader (payload + rlpValueEncodedLen val).toNat ++
      (w ++ rlpEncodeBytes val))

/-- The child that is visited next. -/
def nextChild (fr : Frame) : MptM (Option Nat × Frame) := do
  match ← ldNode fr.node with
  | .made (.ext _ child) _ _ =>
    if fr.i = 0 then do
      if ← nodeNeedsRlp child then return (child, { fr with i := 1 })
      else return (none, { fr with i := 1 })
    else return (none, fr)
  | .made (.branch children _) _ _ => do
    let next ← findUncached children (16 - fr.i) fr.i
    return (next.1, { fr with i := next.2 })
  | _ => return (none, fr)

def nodeRlpFillLoop : Nat → List Frame → MptM Unit
  | _, [] => return ()
  | 0, _ :: _ => throw .outOfFuel
  | fuel + 1, fr :: top => do
    let next ← nextChild fr
    match next.1 with
    | some child => do
      let cf ← nodeRlpBegin child
      nodeRlpFillLoop fuel (cf :: next.2 :: top)
    | none => do
      nodeRlpFinish next.2
      nodeRlpFillLoop fuel top

def nodeRlpFill (fuel node : Nat) : MptM Unit := do
  let fr ← nodeRlpBegin node
  nodeRlpFillLoop fuel [fr]

/-- `node_rlp`. -/
def nodeRlpAt (fuel node : Nat) : MptM Bytes := do
  match ← ldNode node with
  | .made _ (some rlp) _ => return rlp
  | .hashed _ => mptFail 2
  | .made _ none _ => do
    nodeRlpFill fuel node
    match ← ldNode node with
    | .made _ (some rlp) _ => return rlp
    | _ => throw Stray.exn

def nodeHash (fuel node : Nat) : MptM Hash := do
  match ← ldNode node with
  | .hashed hash => return hash
  | .made _ _ (some hash) => return hash
  | .made _ _ none => do
    let rlp ← nodeRlpAt fuel node
    let hash := keccak256 rlp
    match ← ldNode node with
    | .made body cached _ => do
      stNode node (.made body cached (some hash))
      return hash
    | .hashed _ => throw Stray.exn

def mptRoot (fuel : Nat) : Option Nat → MptM Hash
  | none => return emptyTrieRoot
  | some root => nodeHash fuel root

end

/-! ## Lengths -/

section

variable [Keccak] {a b : Arena Node} {S : Set Nat} {p : Nat} {c : Option Nat} {t : MptTrie}
  {cs : Nibble → Option Nat} {ch : Nibble → MptTrie} {Ss : Nibble → Set Nat} {v : Bytes}

/-- The encodings in a trie are short enough for a word. -/
def Fits (t : MptTrie) : Prop := ∀ e ∈ encodings t, e.length < 2 ^ 64

theorem Fits.self (h : Fits t) : (nodeRlp t).length < 2 ^ 64 := h _ nodeRlp_mem

theorem Fits.ext {seg : Nibbles} (h : Fits (.ext seg t)) : Fits t :=
  fun e he => h e (encodings_ext seg t he)

theorem Fits.branch (h : Fits (.branch ch v)) (d : Nibble) : Fits (ch d) :=
  fun e he => h e (encodings_branch ch v d he)

omit [Keccak] in
theorem toNat_lenOf {bs : Bytes} (h : bs.length < 2 ^ 64) : (lenOf bs).toNat = bs.length := by
  rw [BitVec.toNat_ofNat, Nat.mod_eq_of_lt h]

omit [Keccak] in
theorem lenOf_append (bs bs' : Bytes) : lenOf (bs ++ bs') = lenOf bs + lenOf bs' := by
  unfold lenOf
  rw [List.length_append, BitVec.ofNat_add]

omit [Keccak] in
/-- The predicted length of a string. -/
theorem bytesEncodedLen_eq {bs : Bytes} (h : bs.length < 2 ^ 64) :
    rlpBytesEncodedLen (firstOf bs) (lenOf bs) = lenOf (rlpEncodeBytes bs) := by
  refine rlpBytesEncodedLen_eq h fun _ => ?_
  rw [BitVec.toNat_ofNat, Nat.mod_eq_of_lt]
  exact Nat.lt_trans (bs.headD 0).toNat_lt (by decide)

omit [Keccak] in
/-- A list with a payload of the predicted length. -/
theorem rlpEncodeList_of_lenOf {payload : Bytes} {w : Word} (hlt : payload.length < 2 ^ 64)
    (hw : w = lenOf payload) :
    rlpEncodeListHeader w.toNat ++ payload = rlpEncodeList payload := by
  rw [hw, toNat_lenOf hlt]
  rfl

omit [Keccak] in
theorem encodeAll_append (ts us : List RlpTree) :
    RlpTree.encodeAll (ts ++ us) = RlpTree.encodeAll ts ++ RlpTree.encodeAll us := by
  induction ts with
  | nil => rfl
  | cons t ts ih =>
    rw [List.cons_append, RlpTree.encodeAll, RlpTree.encodeAll, ih, List.append_assoc]

omit [Keccak] in
theorem encode_hash (h : Hash) :
    (RlpTree.str (beBytes 32 h.toNat)).encode = 160 :: beBytes 32 h.toNat := by
  have hheader : rlpWriteHeader 128 32 = [160] := by decide
  rw [RlpTree.encode, rlpEncodeBytes_of_length_ne (by rw [length_beBytes]; decide), length_beBytes,
    hheader, List.singleton_append]

/-! ## References -/

/-- The reference to a trie, as it is written. -/
def refBytes (t : MptTrie) : Bytes := (refTree t (nodeTree t)).encode

theorem refBytes_empty : refBytes .empty = [128] := by
  unfold refBytes
  rw [refTree]
  decide

theorem refBytes_stub (x : Hash) : refBytes (.stub x) = 160 :: beBytes 32 x.toNat := encode_hash x

theorem Owns.caches {body : Body} {rlp : Option Bytes} {hash : Option Hash}
    (h : Owns a (some p) t S) (hload : a.load p = .made body rlp hash) : Caches t rlp hash := by
  cases h with
  | stub _ hl => cases hload.symm.trans hl
  | leaf _ hl hc =>
    cases hload.symm.trans hl
    exact hc
  | ext _ hl hc =>
    cases hload.symm.trans hl
    exact hc
  | branch _ hl hc =>
    cases hload.symm.trans hl
    exact hc

/-- The caches of a node may change. -/
theorem Owns.recache {body : Body} {rlp rlp' : Option Bytes} {hash hash' : Option Hash}
    (h : Owns a (some p) t S) (hload : a.load p = .made body rlp hash) (hc : Caches t rlp' hash') :
    Owns (a.store p (.made body rlp' hash')) (some p) t S ∧
      Changes S a (a.store p (.made body rlp' hash')) := by
  have hstore := changes_store (Set.mem_singleton p) a (Node.made body rlp' hash')
  cases h with
  | stub _ hl => cases hload.symm.trans hl
  | leaf hp hl =>
    cases hload.symm.trans hl
    exact ⟨.leaf (hstore.valid hp) (load_store_self hp _) hc, hstore⟩
  | ext hp hl _ hchild hnot =>
    cases hload.symm.trans hl
    exact ⟨.ext (hstore.valid hp) (load_store_self hp _) hc
      (hchild.changes hstore (Set.disjoint_singleton_right.mpr hnot)) hnot,
      hstore.mono (Set.singleton_subset_iff.mpr (Set.mem_insert _ _))⟩
  | branch hp hl _ hchild hnot hdisj =>
    cases hload.symm.trans hl
    exact ⟨(OwnsAll.store ⟨hchild, hnot, hdisj⟩ _).owns (hstore.valid hp) (load_store_self hp _) hc,
      hstore.mono (Set.singleton_subset_iff.mpr (Set.mem_insert _ _))⟩

/-- A node that is no hash is referred to by what is cached in it. -/
theorem Owns.refBytes_eq {body : Body} {rlp : Option Bytes} {hash : Option Hash}
    (h : Owns a (some p) t S) (hload : a.load p = .made body rlp hash) :
    refBytes t = if (nodeRlp t).length < 32 then nodeRlp t
      else 160 :: beBytes 32 (keccak256 (nodeRlp t)).toNat := by
  have hif : ∀ tree : RlpTree, (if tree.encode.length < 32 then tree
      else .str (beBytes 32 (keccak256 tree.encode).toNat)).encode =
      if tree.encode.length < 32 then tree.encode
      else 160 :: beBytes 32 (keccak256 tree.encode).toNat := by
    intro tree
    split
    · rfl
    · exact encode_hash _
  unfold refBytes
  cases h with
  | stub _ hl => cases hload.symm.trans hl
  | leaf => exact hif _
  | ext => exact hif _
  | branch => exact hif _

/-- The child needs no encoding to be referred to. -/
def Ready (a : Arena Node) (c : Option Nat) : Prop :=
  ∀ p, c = some p → (a.load p).uncached = false

omit [Keccak] in
theorem nodeNeedsRlp_run (a : Arena Node) (c : Option Nat) :
    ∃ found, nodeNeedsRlp c a = .ok found a ∧ (found = false ↔ Ready a c) := by
  cases c with
  | none => exact ⟨false, rfl, fun _ => nofun, fun _ => rfl⟩
  | some p =>
    refine ⟨(a.load p).uncached, rfl, fun h q hq => ?_, fun h => h p rfl⟩
    cases hq
    exact h

theorem Owns.mem (h : Owns a (some p) t S) : p ∈ S := by
  cases h with
  | stub => rfl
  | leaf => rfl
  | ext => exact Set.mem_insert p _
  | branch => exact Set.mem_insert p _

theorem Ready.changes {T : Set Nat} (h : Ready a c) (hown : Owns a c t S) (hch : Changes T a b)
    (hdis : Disjoint S T) : Ready b c := by
  rintro q rfl
  rw [hch.same q (hown.valid q hown.mem) (Set.disjoint_left.mp hdis hown.mem)]
  exact h q rfl

/-- What a child is that is ready. -/
theorem Owns.ready_cases (h : Owns a c t S) (hready : Ready a c) :
    (c = none ∧ t = .empty) ∨ (∃ p x, c = some p ∧ a.load p = .hashed x ∧ t = .stub x) ∨
      ∃ p body hash, c = some p ∧ a.load p = .made body (some (nodeRlp t)) hash := by
  have hmade : ∀ {p : Nat} {body : Body} {rlp : Option Bytes} {hash : Option Hash}, c = some p →
      a.load p = .made body rlp hash → Caches t rlp hash →
      ∃ p body hash, c = some p ∧ a.load p = .made body (some (nodeRlp t)) hash := by
    intro p body rlp hash hc hload hcaches
    have hcached := hready p hc
    rw [hload] at hcached
    cases rlp with
    | none => cases hcached
    | some rlp => exact ⟨p, body, hash, hc, hcaches.rlp_eq rlp rfl ▸ hload⟩
  cases h with
  | empty => exact .inl ⟨rfl, rfl⟩
  | stub _ hload => exact .inr (.inl ⟨_, _, rfl, hload, rfl⟩)
  | leaf _ hload hc => exact .inr (.inr (hmade rfl hload hc))
  | ext _ hload hc => exact .inr (.inr (hmade rfl hload hc))
  | branch _ hload hc => exact .inr (.inr (hmade rfl hload hc))

omit [Keccak] in
theorem lenOf_hash (x : Hash) : lenOf (160 :: beBytes 32 x.toNat) = 33 := by
  unfold lenOf
  rw [List.length_cons, length_beBytes]
  rfl

omit [Keccak] in
theorem lenOf_lt_iff {bs : Bytes} (h : bs.length < 2 ^ 64) : lenOf bs < 32 ↔ bs.length < 32 := by
  rw [BitVec.lt_def, toNat_lenOf h]
  rfl

theorem nodeRefLen_run (hown : Owns a c t S) (hfits : Fits t) (hready : Ready a c) :
    nodeRefLen c a = .ok (lenOf (refBytes t)) a := by
  rcases hown.ready_cases hready with ⟨rfl, rfl⟩ | ⟨p, x, rfl, hload, rfl⟩ |
    ⟨p, body, hash, rfl, hload⟩
  · rw [refBytes_empty]
    rfl
  · rw [nodeRefLen, bind_run_ok (ldNode_run p a), hload, refBytes_stub, lenOf_hash]
    rfl
  · rw [nodeRefLen, bind_run_ok (ldNode_run p a), hload, hown.refBytes_eq hload]
    dsimp only
    by_cases hshort : (nodeRlp t).length < 32
    · rw [if_pos hshort, if_pos ((lenOf_lt_iff hfits.self).mpr hshort)]
      rfl
    · rw [if_neg hshort, if_neg (mt (lenOf_lt_iff hfits.self).mp hshort), lenOf_hash]
      rfl

theorem nodeHashCached_run {body : Body} {hash : Option Hash} (hown : Owns a (some p) t S)
    (hload : a.load p = .made body (some (nodeRlp t)) hash) :
    ∃ b, nodeHashCached p a = .ok (keccak256 (nodeRlp t)) b ∧ Owns b (some p) t S ∧
      Changes S a b := by
  unfold nodeHashCached
  rw [bind_run_ok (ldNode_run p a), hload]
  cases hash with
  | some x =>
    obtain rfl := (hown.caches hload).hash_eq x rfl
    exact ⟨a, rfl, hown, .refl S a⟩
  | none =>
    have hc : Caches t (some (nodeRlp t)) (some (keccak256 (nodeRlp t))) :=
      ⟨fun b hb => (Option.some.inj hb).symm, fun x hx => (Option.some.inj hx).symm⟩
    exact ⟨_, rfl, hown.recache hload hc⟩

/-- The reference that is written may need the hash of the child. -/
theorem nodeWriteRef_run (hown : Owns a c t S) (hfits : Fits t) (hready : Ready a c) :
    ∃ b, nodeWriteRef c a = .ok (refBytes t) b ∧ Owns b c t S ∧ Changes S a b := by
  rcases hown.ready_cases hready with ⟨rfl, rfl⟩ | ⟨p, x, rfl, hload, rfl⟩ |
    ⟨p, body, hash, rfl, hload⟩
  · rw [refBytes_empty]
    exact ⟨a, rfl, hown, .refl S a⟩
  · rw [nodeWriteRef, bind_run_ok (ldNode_run p a), hload, refBytes_stub]
    exact ⟨a, rfl, hown, .refl S a⟩
  · rw [nodeWriteRef, bind_run_ok (ldNode_run p a), hload, hown.refBytes_eq hload]
    dsimp only
    by_cases hshort : (nodeRlp t).length < 32
    · rw [if_pos hshort, if_pos ((lenOf_lt_iff hfits.self).mpr hshort)]
      exact ⟨a, rfl, hown, .refl S a⟩
    · obtain ⟨b, hrun, hb⟩ := nodeHashCached_run hown hload
      rw [if_neg hshort, if_neg (mt (lenOf_lt_iff hfits.self).mp hshort), bind_run_ok hrun]
      exact ⟨b, rfl, hb⟩

/-! ## All references of a branch -/

/-- One child changes, and stands for what it stood for. -/
theorem OwnsAll.keep {r : Nat} {d : Nibble} (h : OwnsAll a r cs ch Ss)
    (hd : Owns b (cs d) (ch d) (Ss d)) (hch : Changes (Ss d) a b) : OwnsAll b r cs ch Ss := by
  have hput := h.put hch hd (h.not_mem d) fun e he => h.disjoint e d he
  rwa [Function.update_eq_self, Function.update_eq_self, Function.update_eq_self] at hput

theorem sumRefLens_run {r : Nat} (h : OwnsAll a r cs ch Ss) (hfits : ∀ d, Fits (ch d))
    (hready : ∀ d, Ready a (cs d)) (ds : List Nibble) (payload : Word) :
    sumRefLens cs ds payload a =
      .ok (payload + lenOf (ds.flatMap fun d => refBytes (ch d))) a := by
  induction ds generalizing payload with
  | nil => exact congrArg (EStateM.Result.ok · a) (BitVec.add_zero payload).symm
  | cons d ds ih =>
    rw [sumRefLens, bind_run_ok (nodeRefLen_run (h.child d) (hfits d) (hready d)), ih,
      List.flatMap_cons, lenOf_append, BitVec.add_assoc]

theorem writeRefs_run {r : Nat} {ds : List Nibble} (h : OwnsAll a r cs ch Ss)
    (hfits : ∀ d, Fits (ch d)) (hready : ∀ d ∈ ds, Ready a (cs d)) (hnd : ds.Nodup) :
    ∃ b, writeRefs cs ds a = .ok (ds.flatMap fun d => refBytes (ch d)) b ∧
      OwnsAll b r cs ch Ss ∧ Changes (⋃ d, Ss d) a b := by
  induction ds generalizing a with
  | nil => exact ⟨a, rfl, h, .refl _ a⟩
  | cons d ds ih =>
    obtain ⟨hd, hnd⟩ := List.nodup_cons.mp hnd
    obtain ⟨a₁, hrun, hown, hch⟩ := nodeWriteRef_run (h.child d) (hfits d)
      (hready d List.mem_cons_self)
    have hready₁ : ∀ e ∈ ds, Ready a₁ (cs e) := by
      intro e he
      refine (hready e (List.mem_cons_of_mem d he)).changes (h.child e) hch (h.disjoint e d ?_)
      rintro rfl
      exact hd he
    obtain ⟨b, hrun', hall, hch'⟩ := ih (h.keep hown hch) hready₁ hnd
    refine ⟨b, ?_, hall, (hch.mono (Set.subset_iUnion Ss d)).trans_self hch'⟩
    rw [writeRefs, bind_run_ok hrun, bind_run_ok hrun']
    rfl

/-! ## One node -/

theorem nodeRlp_leaf (k : Nibbles) (v : Bytes) : nodeRlp (.leaf k v) =
    rlpEncodeList (rlpEncodeBytes (nibbleListToCompact k true) ++ rlpEncodeBytes v) := by
  unfold nodeRlp nodeTree
  rw [RlpTree.encode, RlpTree.encodeAll, RlpTree.encodeAll, RlpTree.encodeAll, List.append_nil]
  rfl

theorem nodeRlp_ext (seg : Nibbles) (t : MptTrie) : nodeRlp (.ext seg t) =
    rlpEncodeList (rlpEncodeBytes (nibbleListToCompact seg false) ++ refBytes t) := by
  unfold nodeRlp refBytes
  rw [nodeTree, RlpTree.encode, RlpTree.encodeAll, RlpTree.encodeAll, RlpTree.encodeAll,
    List.append_nil]
  rfl

theorem nodeRlp_branch (ch : Nibble → MptTrie) (v : Bytes) : nodeRlp (.branch ch v) =
    rlpEncodeList (((List.finRange 16).flatMap fun d => refBytes (ch d)) ++ rlpEncodeBytes v) := by
  have hmap : ∀ ds : List Nibble, RlpTree.encodeAll
      (ds.map fun d => refTree (ch d) (nodeTree (ch d))) = ds.flatMap fun d => refBytes (ch d) := by
    intro ds
    induction ds with
    | nil => rfl
    | cons d ds ih =>
      rw [List.map_cons, RlpTree.encodeAll, ih, List.flatMap_cons]
      rfl
  unfold nodeRlp
  rw [nodeTree, RlpTree.encode, encodeAll_append, hmap, RlpTree.encodeAll, RlpTree.encodeAll,
    List.append_nil]
  rfl

omit [Keccak] in
theorem length_le_rlpEncodeList (payload : Bytes) :
    payload.length ≤ (rlpEncodeList payload).length := by
  unfold rlpEncodeList
  rw [List.length_append]
  exact Nat.le_add_left _ _

omit [Keccak] in
theorem bytesEncodedLen_lt {bs : Bytes} (h : (rlpEncodeBytes bs).length < 2 ^ 64) :
    rlpBytesEncodedLen (firstOf bs) (lenOf bs) = lenOf (rlpEncodeBytes bs) :=
  bytesEncodedLen_eq (Nat.lt_of_le_of_lt (length_le_rlpFrame false bs) h)

/-- The encoding is stored. -/
theorem stRlp_run {body : Body} {rlp : Option Bytes} {hash : Option Hash}
    (hown : Owns a (some p) t S) (hload : a.load p = .made body rlp hash) :
    ∃ b, stRlp p (nodeRlp t) a = .ok () b ∧ Owns b (some p) t S ∧ Changes S a b ∧
      Ready b (some p) := by
  have hc : Caches t (some (nodeRlp t)) hash :=
    ⟨fun b hb => (Option.some.inj hb).symm, (hown.caches hload).hash_eq⟩
  obtain ⟨hown', hch⟩ := hown.recache hload hc
  refine ⟨_, ?_, hown', hch, fun q hq => ?_⟩
  · unfold stRlp
    rw [bind_run_ok (ldNode_run p a), hload]
    rfl
  · cases hq
    rw [load_store_self (hown.valid p hown.mem)]
    rfl

/-- The children of a node are ready. -/
def ReadyBelow (a : Arena Node) : Body → Prop
  | .leaf _ _ => True
  | .ext _ c => Ready a c
  | .branch cs _ => ∀ d, Ready a (cs d)

/-- The frame of a node with the next child to visit. -/
def frameAt (p : Nat) (body : Body) (i : Nat) : Frame :=
  ⟨p, i, (frameOf p body).cbuf, (frameOf p body).payload⟩

variable [Stray]

/-- **A node whose children are ready** gets the encoding of the trie that it stands for. -/
theorem nodeRlpFinish_run {body : Body} {hash : Option Hash} (hown : Owns a (some p) t S)
    (hfits : Fits t) (hload : a.load p = .made body none hash) (hready : ReadyBelow a body)
    (i : Nat) :
    ∃ b, nodeRlpFinish (frameAt p body i) a = .ok () b ∧ Owns b (some p) t S ∧
      Changes S a b ∧ Ready b (some p) := by
  have hlist : ∀ {payload : Bytes}, nodeRlp t = rlpEncodeList payload →
      payload.length < 2 ^ 64 := by
    intro payload heq
    exact Nat.lt_of_le_of_lt (length_le_rlpEncodeList payload) (heq ▸ hfits.self)
  have hself := hown
  cases hown with
  | stub _ hl => cases hload.symm.trans hl
  | @leaf _ k v _ _ hp hl hc =>
    cases hload.symm.trans hl
    have heq := nodeRlp_leaf k v
    have hlt := hlist heq
    obtain ⟨b, hrun, hb⟩ := stRlp_run hself hload
    refine ⟨b, ?_, hb⟩
    have hld : ldNode (frameAt p (.leaf k v) i).node a = _ := ldNode_run p a
    rw [← hrun, heq, ← rlpEncodeList_of_lenOf hlt rfl, nodeRlpFinish, bind_run_ok hld, hload,
      lenOf_append]
    rw [List.length_append] at hlt
    rw [← bytesEncodedLen_lt (by omega), ← bytesEncodedLen_lt (by omega)]
    rfl
  | @ext _ seg c _ _ u S hp hl hc hchild hnot =>
    cases hload.symm.trans hl
    have heq := nodeRlp_ext seg u
    have hlt := hlist heq
    obtain ⟨a₁, hwrite, hown₁, hch⟩ := nodeWriteRef_run hchild hfits.ext hready
    have hload₁ := (hch.same p hp hnot).trans hload
    have hch₁ := hch.mono (Set.subset_insert p S)
    obtain ⟨b, hrun, hb, hchb, hr⟩ :=
      stRlp_run (Owns.ext (hch.valid hp) hload₁ hc hown₁ hnot) hload₁
    refine ⟨b, ?_, hb, hch₁.trans_self hchb, hr⟩
    have hld : ldNode (frameAt p (.ext seg c) i).node a = _ := ldNode_run p a
    rw [← hrun, heq, ← rlpEncodeList_of_lenOf hlt rfl, nodeRlpFinish, bind_run_ok hld, hload]
    dsimp only
    rw [bind_run_ok (nodeRefLen_run hchild hfits.ext hready), bind_run_ok hwrite, lenOf_append]
    rw [List.length_append] at hlt
    rw [← bytesEncodedLen_lt (by omega)]
    rfl
  | @branch _ cs v _ _ ch Ss hp hl hc hchild hnot hdisj =>
    cases hload.symm.trans hl
    have hall : OwnsAll a p cs ch Ss := ⟨hchild, hnot, hdisj⟩
    have heq := nodeRlp_branch ch v
    have hlt := hlist heq
    obtain ⟨a₁, hwrite, hall₁, hch⟩ := writeRefs_run hall hfits.branch (fun d _ => hready d)
      (List.nodup_finRange 16)
    have hnotAll : p ∉ ⋃ d, Ss d := fun hmem => (Set.mem_iUnion.mp hmem).elim hnot
    have hload₁ := (hch.same p hp hnotAll).trans hload
    obtain ⟨b, hrun, hb, hchb, hr⟩ := stRlp_run (hall₁.owns (hch.valid hp) hload₁ hc) hload₁
    refine ⟨b, ?_, hb, (hch.mono (Set.subset_insert p _)).trans_self hchb, hr⟩
    have hld : ldNode (frameAt p (.branch cs v) i).node a = _ := ldNode_run p a
    rw [← hrun, heq, ← rlpEncodeList_of_lenOf hlt rfl, nodeRlpFinish, bind_run_ok hld, hload]
    dsimp only
    rw [bind_run_ok (sumRefLens_run hall hfits.branch hready _ _), bind_run_ok hwrite,
      lenOf_append]
    rw [List.length_append] at hlt
    rw [← bytesEncodedLen_lt (by omega), show (frameAt p (.branch cs v) i).payload = 0#64 from rfl,
      BitVec.zero_add]
    rfl

/-! ## All nodes -/

omit [Keccak] [Stray] in
theorem not_ready (h : ¬ Ready a c) :
    ∃ p body hash, c = some p ∧ a.load p = .made body none hash := by
  cases c with
  | none => exact absurd nofun h
  | some p =>
    have hp : (a.load p).uncached ≠ false := by
      intro hp
      refine h fun q hq => ?_
      cases hq
      exact hp
    cases hload : a.load p with
    | hashed x => exact absurd (by rw [hload]; rfl) hp
    | made body rlp hash =>
      cases rlp with
      | none => exact ⟨p, body, hash, rfl, hload⟩
      | some rlp => exact absurd (by rw [hload]; rfl) hp

/-- A child is visited. -/
theorem fillLoop_child {fr fr' : Frame} {q : Nat} {body : Body} {hash : Option Hash}
    (h : nextChild fr a = .ok (some q, fr') a) (hload : a.load q = .made body none hash)
    (fuel : Nat) (top : List Frame) :
    nodeRlpFillLoop (fuel + 1) (fr :: top) a =
      nodeRlpFillLoop fuel (frameAt q body 0 :: fr' :: top) a := by
  have hbegin : nodeRlpBegin q a = .ok (frameAt q body 0) a := by
    unfold nodeRlpBegin
    rw [bind_run_ok (ldNode_run q a), hload]
    cases body <;> rfl
  rw [nodeRlpFillLoop, bind_run_ok h]
  dsimp only
  rw [bind_run_ok hbegin]

/-- A node is finished. -/
theorem fillLoop_finish {fr fr' : Frame} (h : nextChild fr a = .ok (none, fr') a)
    (hfin : nodeRlpFinish fr' a = .ok () b) (fuel : Nat) (top : List Frame) :
    nodeRlpFillLoop (fuel + 1) (fr :: top) a = nodeRlpFillLoop fuel top b := by
  rw [nodeRlpFillLoop, bind_run_ok h]
  dsimp only
  rw [bind_run_ok hfin]

omit [Keccak] [Stray] in
/-- The search for a child passes over those that are ready. -/
theorem findUncached_run (cs : Nibble → Option Nat) (a : Arena Node) {left i : Nat}
    (h : i + left = 16) :
    (findUncached cs left i a = .ok (none, 16) a ∧ ∀ d : Nibble, i ≤ d.val → Ready a (cs d)) ∨
    ∃ d : Nibble, findUncached cs left i a = .ok (cs d, d.val + 1) a ∧ i ≤ d.val ∧
      ¬ Ready a (cs d) ∧ ∀ e : Nibble, i ≤ e.val → e.val < d.val → Ready a (cs e) := by
  induction left generalizing i with
  | zero =>
    obtain rfl : i = 16 := h
    exact .inl ⟨rfl, fun d hd => absurd d.isLt (Nat.not_lt.mpr hd)⟩
  | succ left ih =>
    have hlt : i < 16 := by omega
    have hi : (nibbleOf i).val = i := Nat.mod_eq_of_lt hlt
    obtain ⟨found, hrun, hfound⟩ := nodeNeedsRlp_run a (cs (nibbleOf i))
    cases found with
    | true =>
      refine .inr ⟨nibbleOf i, ?_, Nat.le_of_eq hi.symm, ?_, fun e he he' => ?_⟩
      · rw [findUncached, bind_run_ok hrun, hi]
        rfl
      · exact fun hready => Bool.noConfusion (hfound.mpr hready)
      · rw [hi] at he'
        exact absurd he (Nat.not_le.mpr he')
    | false =>
      have hready := hfound.mp rfl
      have hstep : findUncached cs (left + 1) i a = findUncached cs left (i + 1) a := by
        rw [findUncached, bind_run_ok hrun]
        rfl
      have hhere : ∀ e : Nibble, i ≤ e.val → e.val < i + 1 → Ready a (cs e) := by
        intro e h h'
        obtain rfl : e = nibbleOf i := Fin.ext (by omega)
        exact hready
      rw [hstep]
      rcases ih (show i + 1 + left = 16 by omega) with ⟨hend, hall⟩ | ⟨d, hd, hle, hnot, hall⟩
      · refine .inl ⟨hend, fun e he => ?_⟩
        rcases Nat.lt_or_ge e.val (i + 1) with h | h
        · exact hhere e he h
        · exact hall e h
      · refine .inr ⟨d, hd, by omega, hnot, fun e he hed => ?_⟩
        rcases Nat.lt_or_ge e.val (i + 1) with h | h
        · exact hhere e he h
        · exact hall e h hed

/-- After some rounds the topmost frame is gone and its node has its encoding. -/
def Fills (a : Arena Node) (p : Nat) (fr : Frame) (t : MptTrie) (S : Set Nat) : Prop :=
  ∃ n b, (∀ fuel top, nodeRlpFillLoop (n + fuel) (fr :: top) a = nodeRlpFillLoop fuel top b) ∧
    Owns b (some p) t S ∧ Changes S a b ∧ Ready b (some p)

/-- The children of a branch are visited one after the other; the ones before `i` are ready. -/
theorem fills_branch {hash : Option Hash} (hfits : Fits (.branch ch v))
    (ih : ∀ d, ∀ {a : Arena Node} {q : Nat} {body : Body} {hash : Option Hash},
      Owns a (some q) (ch d) (Ss d) → a.load q = .made body none hash →
      Fills a q (frameAt q body 0) (ch d) (Ss d))
    (hp : a.Valid p) (hall : OwnsAll a p cs ch Ss)
    (hload : a.load p = .made (.branch cs v) none hash) (hc : Caches (.branch ch v) none hash)
    {left i : Nat} (hi : i + left = 16) (hready : ∀ d : Nibble, d.val < i → Ready a (cs d)) :
    Fills a p (frameAt p (.branch cs v) i) (.branch ch v) (insert p (⋃ d, Ss d)) := by
  induction left using Nat.strongRecOn generalizing a i with
  | ind left hrec =>
  have hleft : 16 - i = left := by omega
  have hnext : ∀ {r j}, findUncached cs left i a = .ok (r, j) a →
      nextChild (frameAt p (.branch cs v) i) a = .ok (r, frameAt p (.branch cs v) j) a := by
    intro r j hfind
    have hld : ldNode (frameAt p (.branch cs v) i).node a = _ := ldNode_run p a
    unfold nextChild
    rw [bind_run_ok hld, hload]
    dsimp only
    rw [show (frameAt p (.branch cs v) i).i = i from rfl, hleft, bind_run_ok hfind]
    rfl
  rcases findUncached_run cs a hi with ⟨hend, hrest⟩ | ⟨d, hd, hle, hnot, hbetween⟩
  · have hreadyAll : ∀ d, Ready a (cs d) := fun d =>
      (Nat.lt_or_ge d.val i).elim (hready d) (hrest d)
    obtain ⟨b, hfin, hb⟩ := nodeRlpFinish_run (hall.owns hp hload hc) hfits hload hreadyAll 16
    exact ⟨1, b, fun fuel top => by
      rw [Nat.add_comm]
      exact fillLoop_finish (hnext hend) hfin fuel top, hb⟩
  · obtain ⟨q, body, hash', hq, hloadq⟩ := not_ready hnot
    have hchild := hall.child d
    rw [hq] at hchild
    obtain ⟨n, b, hrun, hown, hch, hrq⟩ := ih d hchild hloadq
    have hallb : OwnsAll b p cs ch Ss := hall.keep (by rw [hq]; exact hown) hch
    have hreadyb : ∀ e : Nibble, e.val < d.val + 1 → Ready b (cs e) := by
      intro e he
      by_cases hed : e = d
      · rw [hed, hq]
        exact hrq
      · have hlt : e.val < d.val :=
          Nat.lt_of_le_of_ne (Nat.le_of_lt_succ he) fun h => hed (Fin.ext h)
        have hea : Ready a (cs e) :=
          (Nat.lt_or_ge e.val i).elim (hready e) fun h => hbetween e h hlt
        exact hea.changes (hall.child e) hch (hall.disjoint e d hed)
    obtain ⟨m, b', hrun', hown', hch', hr⟩ := hrec (16 - (d.val + 1)) (by omega)
      (hch.valid hp) hallb ((hch.same p hp (hall.not_mem d)).trans hload) (by omega) hreadyb
    have hsub : Ss d ⊆ insert p (⋃ d, Ss d) := fun x hx => .inr (Set.mem_iUnion.mpr ⟨d, hx⟩)
    refine ⟨n + m + 1, b', fun fuel top => ?_, hown', (hch.mono hsub).trans_self hch', hr⟩
    rw [hq] at hd
    rw [show n + m + 1 + fuel = (n + (m + fuel)) + 1 by omega,
      fillLoop_child (hnext hd) hloadq, hrun, hrun']

/-- **The loop is the recursion**: it gives a node and all nodes below it their encodings. -/
theorem fill_run {body : Body} {hash : Option Hash} (hown : Owns a (some p) t S) (hfits : Fits t)
    (hload : a.load p = .made body none hash) : Fills a p (frameAt p body 0) t S := by
  induction t generalizing a p S body hash with
  | empty => cases hown
  | stub x =>
    cases hown with
    | stub _ hl => cases hload.symm.trans hl
  | leaf k w =>
    have hself := hown
    cases hown with
    | leaf hp hl hc =>
    cases hload.symm.trans hl
    have hnext : nextChild (frameAt p (.leaf k w) 0) a =
        .ok (none, frameAt p (.leaf k w) 0) a := by
      have hld : ldNode (frameAt p (.leaf k w) 0).node a = _ := ldNode_run p a
      unfold nextChild
      rw [bind_run_ok hld, hload]
      rfl
    obtain ⟨b, hfin, hb⟩ := nodeRlpFinish_run hself hfits hload trivial 0
    exact ⟨1, b, fun fuel top => by
      rw [Nat.add_comm]
      exact fillLoop_finish hnext hfin fuel top, hb⟩
  | ext seg u ih =>
    have hself := hown
    cases hown with
    | @ext _ _ c _ _ _ S hp hl hc hchild hnot =>
    cases hload.symm.trans hl
    obtain ⟨found, hrun, hfound⟩ := nodeNeedsRlp_run a c
    have hld : ∀ (a : Arena Node) i, ldNode (frameAt p (.ext seg c) i).node a = .ok (a.load p) a :=
      fun a _ => ldNode_run p a
    cases found with
    | false =>
      have hnext : nextChild (frameAt p (.ext seg c) 0) a =
          .ok (none, frameAt p (.ext seg c) 1) a := by
        unfold nextChild
        rw [bind_run_ok (hld a 0), hload]
        dsimp only
        rw [if_pos (by rfl), bind_run_ok hrun]
        rfl
      obtain ⟨b, hfin, hb⟩ := nodeRlpFinish_run hself hfits hload (hfound.mp rfl) 1
      exact ⟨1, b, fun fuel top => by
        rw [Nat.add_comm]
        exact fillLoop_finish hnext hfin fuel top, hb⟩
    | true =>
      have hnext : nextChild (frameAt p (.ext seg c) 0) a =
          .ok (c, frameAt p (.ext seg c) 1) a := by
        unfold nextChild
        rw [bind_run_ok (hld a 0), hload]
        dsimp only
        rw [if_pos (by rfl), bind_run_ok hrun]
        rfl
      obtain ⟨q, body, hash', rfl, hloadq⟩ :=
        not_ready fun hr => Bool.noConfusion (hfound.mpr hr)
      obtain ⟨n, b, hfill, hownb, hch, hrq⟩ := ih hchild hfits.ext hloadq
      have hloadb := (hch.same p hp hnot).trans hload
      have hselfb : Owns b (some p) (.ext seg u) (insert p S) :=
        .ext (hch.valid hp) hloadb hc hownb hnot
      have hnextb : nextChild (frameAt p (.ext seg (some q)) 1) b =
          .ok (none, frameAt p (.ext seg (some q)) 1) b := by
        unfold nextChild
        rw [bind_run_ok (hld b 1), hloadb]
        rfl
      obtain ⟨b', hfin, hb', hchb, hr⟩ := nodeRlpFinish_run hselfb hfits hloadb hrq 1
      refine ⟨n + 2, b', fun fuel top => ?_, hb',
        (hch.mono (Set.subset_insert p S)).trans_self hchb, hr⟩
      rw [show n + 2 + fuel = (n + (fuel + 1)) + 1 by omega, fillLoop_child hnext hloadq, hfill,
        fillLoop_finish hnextb hfin]
  | branch ch w ih =>
    cases hown with
    | @branch _ cs _ _ _ _ Ss hp hl hc hchild hnot hdisj =>
    cases hload.symm.trans hl
    exact fills_branch hfits (fun d _ _ _ _ hown hload => ih d hown (hfits.branch d) hload) hp
      ⟨hchild, hnot, hdisj⟩ hload hc (show 0 + 16 = 16 from rfl)
      fun d hd => absurd hd (Nat.not_lt_zero _)

/-! ## Roots -/

theorem nodeRlpAt_run {body : Body} {rlp : Option Bytes} {hash : Option Hash}
    (hown : Owns a (some p) t S) (hfits : Fits t) (hload : a.load p = .made body rlp hash) :
    ∃ n b body' hash', (∀ fuel, nodeRlpAt (n + fuel) p a = .ok (nodeRlp t) b) ∧
      Owns b (some p) t S ∧ Changes S a b ∧ b.load p = .made body' (some (nodeRlp t)) hash' := by
  cases rlp with
  | some rlp =>
    obtain rfl := (hown.caches hload).rlp_eq rlp rfl
    refine ⟨0, a, body, hash, fun fuel => ?_, hown, .refl S a, hload⟩
    unfold nodeRlpAt
    rw [bind_run_ok (ldNode_run p a), hload]
    rfl
  | none =>
    obtain ⟨n, b, hfill, hownb, hch, hready⟩ := fill_run hown hfits hload
    have hbegin : nodeRlpBegin p a = .ok (frameAt p body 0) a := by
      unfold nodeRlpBegin
      rw [bind_run_ok (ldNode_run p a), hload]
      cases body <;> rfl
    have hrun : ∀ fuel, nodeRlpFill (n + fuel) p a = .ok () b := by
      intro fuel
      unfold nodeRlpFill
      rw [bind_run_ok hbegin, hfill]
      cases fuel <;> rfl
    rcases hownb.ready_cases hready with ⟨hp, -⟩ | ⟨q, x, hp, hloadb, rfl⟩ |
      ⟨q, body', hash', hp, hloadb⟩
    · cases hp
    · cases hown with
      | stub _ hl => cases hload.symm.trans hl
    · cases hp
      refine ⟨n, b, body', hash', fun fuel => ?_, hownb, hch, hloadb⟩
      unfold nodeRlpAt
      rw [bind_run_ok (ldNode_run p a), hload]
      dsimp only
      rw [bind_run_ok (hrun fuel), bind_run_ok (ldNode_run p b), hloadb]
      rfl

/-- **The root that is computed** is the root of the trie; the trie stays what it was. -/
theorem mptRoot_run (hown : Owns a c t S) (hfits : Fits t) :
    ∃ n b, (∀ fuel, mptRoot (n + fuel) c a = .ok (rootOf t) b) ∧ Owns b c t S ∧
      Changes S a b := by
  cases c with
  | none =>
    cases hown
    exact ⟨0, a, fun _ => rfl, .empty, .refl _ a⟩
  | some p =>
    cases hload : a.load p with
    | hashed x =>
      have hself := hown
      cases hown with
      | stub _ hl =>
        cases hload.symm.trans hl
        refine ⟨0, a, fun fuel => ?_, hself, .refl _ a⟩
        rw [mptRoot, nodeHash, bind_run_ok (ldNode_run p a), hload]
        rfl
      | leaf _ hl => cases hload.symm.trans hl
      | ext _ hl => cases hload.symm.trans hl
      | branch _ hl => cases hload.symm.trans hl
    | made body rlp hash =>
      have hroot : rootOf t = keccak256 (nodeRlp t) := by
        cases hown with
        | stub _ hl => cases hload.symm.trans hl
        | _ => rfl
      rw [hroot]
      cases hash with
      | some x =>
        obtain rfl := (hown.caches hload).hash_eq x rfl
        refine ⟨0, a, fun fuel => ?_, hown, .refl _ a⟩
        rw [mptRoot, nodeHash, bind_run_ok (ldNode_run p a), hload]
        rfl
      | none =>
        obtain ⟨n, b, body', hash', hrun, hownb, hch, hloadb⟩ := nodeRlpAt_run hown hfits hload
        have hc : Caches t (some (nodeRlp t)) (some (keccak256 (nodeRlp t))) :=
          ⟨fun b hb => (Option.some.inj hb).symm, fun x hx => (Option.some.inj hx).symm⟩
        obtain ⟨hown', hch'⟩ := hownb.recache hloadb hc
        refine ⟨n, _, fun fuel => ?_, hown', hch.trans_self hch'⟩
        rw [mptRoot, nodeHash, bind_run_ok (ldNode_run p a), hload]
        dsimp only
        rw [bind_run_ok (hrun fuel), bind_run_ok (ldNode_run p b), hloadb]
        rfl

end

/-- The hashes of the empty trie and of the tries that map the key `01` or the key `80` to `05`. -/
abbrev fewHashes : Keccak := ⟨fun bs =>
  if bs = [128] then 0x56e81f171bcc55a6ff8345e692c0f86e5b48e01b996cadc001622fb5e363b421#256
  else if bs = [196, 130, 32, 1, 5] then
    0x5aa296fd5f7f7632ea2aa4071c09ffc08a6135c58510573f83c1e0c49dc276c4#256
  else 0x89e789a07f16423b5c47f81b39059941a0544f774e63dac2782c63c35b9623a6#256⟩

theorem mptRoot_run_leaf :
    let _ : Keccak := fewHashes
    let _ : Stray := ⟨.outOfFuel⟩
    let a := Arena.empty.alloc (.made (.leaf [0, 1] [5]) none none)
    ∃ n b, (∀ fuel, mptRoot (n + fuel) (some 0) a = .ok (rootOf (.leaf [0, 1] [5])) b) ∧
      Owns b (some 0) (.leaf [0, 1] [5]) {0} ∧ Changes {0} a b := by
  intro _ _ a
  refine mptRoot_run (owns_alloc_leaf .empty [0, 1] [5]) ?_
  rintro e ⟨u, hu, rfl⟩
  cases hu
  decide

end StatelessGuest.Mpt
