import StatelessGuest.Block.StateRoot
import StatelessGuest.Lib.Fuel
import StatelessGuest.Mpt.Stateless
import StatelessGuest.Rlp.RoundTrip

/-!
# Reads of the witness

Accounts and slots are read from tries that are decoded from the witness. The trie of the accounts
is decoded at the start, and each storage trie when it is needed for the first time. All of them are
on one heap.

* `decodeAcct`: the account of a leaf.
* `Reader`, `wsAccountLeaf`, `wsStorageTrie`, ...: the code.
* `World`, `PreState.Represents`: the accounts and slots of a state, and the tries that have them.
* `Keys`: accounts and slots whose keys do not collide.
* `witness_reads`: every sequence of reads answers as the state does, or a node is missing.
-/

namespace StatelessGuest

open Lib Arena Mpt

/-! ## The code -/

/-- A hash of a leaf, where an empty string stands for that of something empty. -/
def leafHash (bs : Bytes) (empty : Hash) (code : Nat) : Except Exn Hash :=
  if bs = [] then .ok empty
  else if bs.length ≠ 32 then .error (.mpt code)
  else .ok (BitVec.ofNat 256 (beNat bs))

/-- The errors of the RLP decoder are those of a malformed leaf. -/
def leafItem (leaf : Bytes) : Except Exn RlpItem :=
  match rlpDecodeFully leaf with
  | .error (.rlp _) => .error (.mpt 20)
  | r => r

section

variable [Keccak]

/-- An account with the fields in the items `arr`. -/
def decodeAcctItems (arr : List Bytes) : Except Exn Acct := do
  let f0 ← rlpItem (sliceAt arr 0)
  let f1 ← rlpItem (sliceAt arr 1)
  let f2 ← rlpItem (sliceAt arr 2)
  let f3 ← rlpItem (sliceAt arr 3)
  if f0.isList || f1.isList || f2.isList || f3.isList then .error (.mpt 20)
  else if 8 < f0.payload then .error (.mpt 21)
  else if 32 < f1.payload then .error (.mpt 22)
  else do
    let storageRoot ← leafHash (f2.payloadOf (sliceAt arr 2)) emptyTrieRoot 23
    let codeHash ← leafHash (f3.payloadOf (sliceAt arr 3)) emptyCodeHash 24
    return ⟨BitVec.ofNat 64 (beNat (f0.payloadOf (sliceAt arr 0))),
      BitVec.ofNat 256 (beNat (f1.payloadOf (sliceAt arr 1))), storageRoot, codeHash⟩

/-- `decode_account_from_leaf`, on the bytes of the leaf. -/
def decodeAcct (leaf : Bytes) : Except Exn Acct := do
  let it ← leafItem leaf
  if it.isList = false then .error (.mpt 20)
  else do
    let arr ← rlpSlices (it.payloadOf leaf)
    if arr.length ≠ 4 then .error (.mpt 20) else decodeAcctItems arr

/-- The tries of the witness (`WS_*`); storage tries are found by their roots. -/
structure Reader where
  heap : Arena Node
  stateTrie : Option Nat
  storageTries : OrdMap Hash (Option Nat)

abbrev ReadM := EStateM Exn Reader

/-- Work on the nodes. -/
def onTries {α : Type} (x : MptM α) : ReadM α := fun r =>
  match x r.heap with
  | .ok a b => .ok a { r with heap := b }
  | .error e b => .error e { r with heap := b }

def liftRead {α : Type} (x : Except Exn α) : ReadM α := fun r =>
  match x with
  | .ok a => .ok a r
  | .error e => .error e r

/-- The key is hashed already. -/
def trieLookup (root : Option Nat) (keyHash : Bytes) : MptM (Option Bytes) :=
  trieWalk 65 root (keyToNibbles keyHash)

def hashKey (key : Bytes) : Bytes := beBytes 32 (keccak256 key).toNat

def wsAccountLeaf (addr : Address) : ReadM (Option Bytes) := do
  let r ← get
  onTries (trieLookup r.stateTrie (hashKey (beBytes 20 addr.toNat)))

namespace Reader

/-- The trie of the accounts is decoded (`state_init`). -/
def stateInit (fuel : Nat) (db : NodeDb) (stateRoot : Hash) : ReadM Unit := do
  let root ← onTries (decodeWitnessToMpt fuel db stateRoot)
  modify fun r => { r with stateTrie := root, storageTries := .empty }

def wsGetAccountOptional (addr : Address) : ReadM (Option Acct) := do
  match ← wsAccountLeaf addr with
  | none => return none
  | some leaf => do
    let a ← liftRead (decodeAcct leaf)
    return some a

def wsStorageRootOf (addr : Address) : ReadM Hash := do
  let a ← wsGetAccountOptional addr
  return (a.map Acct.storageRoot).getD emptyTrieRoot

/-- The trie with a root, which is decoded at most once. -/
def wsStorageTrie (fuel : Nat) (db : NodeDb) (root : Hash) : ReadM (Option Nat) := do
  match (← get).storageTries.get root with
  | some node => return node
  | none => do
    let node ← onTries (decodeWitnessToMpt fuel db root)
    modify fun r => { r with storageTries := r.storageTries.set root node }
    return node

/-- The number in the leaf of a slot. -/
def decodeSlot (leaf : Bytes) : Except Exn U256 := do
  let it ← rlpDecodeFully leaf
  if it.isList then return 0
  else if 32 < it.payload then .error (.state 1)
  else return BitVec.ofNat 256 (beNat (it.payloadOf leaf))

def wsGetStorage (fuel : Nat) (db : NodeDb) (addr : Address) (key : Hash) : ReadM U256 := do
  let root ← wsStorageRootOf addr
  if root = emptyTrieRoot then return 0
  else do
    let node ← wsStorageTrie fuel db root
    match ← onTries (trieLookup node (hashKey (beBytes 32 key.toNat))) with
    | none => return 0
    | some leaf => liftRead (decodeSlot leaf)

end Reader

/-- A read of the state before the block. -/
inductive Read where
  | account (addr : Address)
  | slot (addr : Address) (key : Hash)

inductive ReadAnswer where
  | account (a : Option Acct)
  | slot (v : U256)

def Read.run (fuel : Nat) (db : NodeDb) : Read → ReadM ReadAnswer
  | .account addr => do return .account (← Reader.wsGetAccountOptional addr)
  | .slot addr key => do return .slot (← Reader.wsGetStorage fuel db addr key)

def Read.runAll (fuel : Nat) (db : NodeDb) : List Read → ReadM (List ReadAnswer)
  | [] => return []
  | read :: reads => do
    let answer ← read.run fuel db
    let answers ← runAll fuel db reads
    return answer :: answers

/-! ## States -/

/-- The accounts and the slots of a state. -/
structure World where
  account : Address → Option Acct
  slot : Address → Hash → U256

def World.answer (world : World) : Read → ReadAnswer
  | .account addr => .account (world.account addr)
  | .slot addr key => .slot (world.slot addr key)

/-- The storage root of an account. -/
def World.storageRoot (world : World) (addr : Address) : Hash :=
  ((world.account addr).map Acct.storageRoot).getD emptyTrieRoot

/-- A trie of accounts, and a storage trie for each. -/
structure PreState where
  accounts : MptTrie
  storage : Address → MptTrie

/-- Where a trie has the account of an address. -/
def accountPath (addr : Address) : Nibbles := mptNibbleKey true (beBytes 20 addr.toNat)

/-- Where a storage trie has a slot. -/
def slotPath (key : Hash) : Nibbles := mptNibbleKey true (beBytes 32 key.toNat)

/-- The accounts and the slots in question, no two of which have the same path. -/
structure Keys where
  addrs : Set Address
  slots : Set Hash
  addrs_apart : Set.InjOn accountPath addrs
  slots_apart : Set.InjOn slotPath slots

/-- The leaf of an account with its storage root. -/
def acctLeaf (a : Option Acct) : Bytes := (a.map fun a => encodeAccount a a.storageRoot).getD []

/-- The value of a slot in a storage trie; zero is no value. -/
def encodeSlot (v : U256) : Bytes := if v = 0 then [] else rlpPutU256 v

/-- The tries have the accounts and the slots of a state, and their roots are those of the
accounts. -/
structure PreState.Represents (keys : Keys) (pre : PreState) (world : World) : Prop where
  account : ∀ addr ∈ keys.addrs,
    pre.accounts.value (accountPath addr) = acctLeaf (world.account addr)
  root : ∀ addr ∈ keys.addrs, rootOf (pre.storage addr) = world.storageRoot addr
  slot : ∀ addr ∈ keys.addrs, ∀ key ∈ keys.slots,
    (pre.storage addr).value (slotPath key) = encodeSlot (world.slot addr key)

/-- The read is of an account or a slot in question. -/
def Read.Within (keys : Keys) : Read → Prop
  | .account addr => addr ∈ keys.addrs
  | .slot addr key => addr ∈ keys.addrs ∧ key ∈ keys.slots

/-- A whole trie of a reasonable size. -/
structure Sized (u : MptTrie) : Prop where
  full : u.Full
  wf : u.Wf
  small : Small u.value

/-- A trie, the nodes of which do not collide with the witness. -/
structure Committed (entries : List Bytes) (u : MptTrie) : Prop extends Sized u where
  apart : NoCollision entries u

/-- The tries of a state, the roots of which the witness is for. -/
structure PreState.Committed (pre : PreState) (entries : List Bytes) : Prop where
  accounts : StatelessGuest.Committed entries pre.accounts
  storage : ∀ addr, StatelessGuest.Committed entries (pre.storage addr)

/-- The witness has the nodes of all tries. -/
def PreState.Complete (pre : PreState) (entries : List Bytes) : Prop :=
  Mpt.Complete entries pre.accounts ∧ ∀ addr, Mpt.Complete entries (pre.storage addr)

/-! ## Leaves -/

omit [Keccak] in
theorem length_rlpPutU256_le (v : U256) : (rlpPutU256 v).length ≤ 41 := by
  have hbe : rlpBeLen v.toNat ≤ 32 := rlpBeLen_le v.isLt
  have hlen := length_rlpBe v.toNat
  have hle := length_rlpEncodeBytes_le (rlpBe v.toNat) (by omega)
  unfold rlpPutU256
  omega

omit [Keccak] in
theorem length_encodeSlot_le (v : U256) : (encodeSlot v).length ≤ 41 := by
  unfold encodeSlot
  split
  · exact Nat.zero_le 41
  · exact length_rlpPutU256_le v

/-- The strings of a leaf. -/
def acctItems (a : Acct) (root : Hash) : List RlpTree :=
  [.str (rlpBe a.nonce.toNat), .str (rlpBe a.balance.toNat), .str (beBytes 32 root.toNat),
    .str (beBytes 32 a.codeHash.toNat)]

omit [Keccak] in
theorem length_acctItems_le (a : Acct) (root : Hash) :
    (RlpTree.encodeAll (acctItems a root)).length ≤ 140 := by
  have hstr : ∀ {n : Nat} {bs : Bytes}, bs.length ≤ n → n ≤ 32 →
      (RlpTree.str bs).encode.length ≤ n + 9 := fun {n bs} hlen hle => by
    have h := length_rlpEncodeBytes_le bs (by omega)
    rw [RlpTree.encode]
    omega
  have hnonce := hstr ((length_rlpBe a.nonce.toNat).le.trans (rlpBeLen_le (n := 8) a.nonce.isLt))
    (by decide)
  have hbal := hstr ((length_rlpBe a.balance.toNat).le.trans
    (rlpBeLen_le (n := 32) a.balance.isLt)) (Nat.le_refl 32)
  have hroot := hstr (length_beBytes 32 root.toNat).le (Nat.le_refl 32)
  have hcode := hstr (length_beBytes 32 a.codeHash.toNat).le (Nat.le_refl 32)
  unfold acctItems
  simp only [RlpTree.encodeAll, List.length_append, List.length_nil]
  omega

omit [Keccak] in
theorem encodeAccount_tree (a : Acct) (root : Hash) :
    encodeAccount a root = (RlpTree.list (acctItems a root)).encode := by
  unfold encodeAccount acctItems rlpPutU256
  rw [RlpTree.encode, RlpData.rlpEncodeWord_eq]
  simp only [RlpTree.encodeAll, RlpTree.encode, List.append_nil, List.append_assoc]

omit [Keccak] in
theorem length_encodeAccount_le (a : Acct) (root : Hash) : (encodeAccount a root).length ≤ 150 := by
  have hle := length_acctItems_le a root
  have hlist := length_rlpEncodeList_le (RlpTree.encodeAll (acctItems a root)) (by omega)
  rw [encodeAccount_tree, RlpTree.encode]
  omega

omit [Keccak] in
theorem leafHash_beBytes (h empty : Hash) (code : Nat) :
    leafHash (beBytes 32 h.toNat) empty code = .ok h := by
  have hlen := length_beBytes 32 h.toNat
  have hne : beBytes 32 h.toNat ≠ [] := fun hnil => by
    rw [hnil] at hlen
    cases hlen
  rw [leafHash, if_neg hne, if_neg (not_not.mpr hlen), beNat_beBytes_of_lt h.isLt]
  exact congrArg _ (BitVec.ofNat_toNat 256 h)

/-- Four strings that are short enough are the fields of an account. -/
theorem decodeAcctItems_strings {e0 e1 e2 e3 : Bytes} {f0 f1 f2 f3 : RlpItem} {root codeHash : Hash}
    (h0 : rlpItem e0 = .ok f0) (h1 : rlpItem e1 = .ok f1) (h2 : rlpItem e2 = .ok f2)
    (h3 : rlpItem e3 = .ok f3)
    (hstr : (f0.isList || f1.isList || f2.isList || f3.isList) = false)
    (hnonce : f0.payload ≤ 8) (hbalance : f1.payload ≤ 32)
    (hroot : leafHash (f2.payloadOf e2) emptyTrieRoot 23 = .ok root)
    (hcode : leafHash (f3.payloadOf e3) emptyCodeHash 24 = .ok codeHash) :
    decodeAcctItems [e0, e1, e2, e3] = .ok ⟨BitVec.ofNat 64 (beNat (f0.payloadOf e0)),
      BitVec.ofNat 256 (beNat (f1.payloadOf e1)), root, codeHash⟩ := by
  rw [decodeAcctItems]
  refine except_bind_eq_ok.mpr ⟨f0, h0, ?_⟩
  refine except_bind_eq_ok.mpr ⟨f1, h1, ?_⟩
  refine except_bind_eq_ok.mpr ⟨f2, h2, ?_⟩
  refine except_bind_eq_ok.mpr ⟨f3, h3, ?_⟩
  rw [hstr, if_neg Bool.false_ne_true, if_neg (Nat.not_lt.mpr hnonce),
    if_neg (Nat.not_lt.mpr hbalance)]
  exact except_bind_eq_ok.mpr ⟨root, hroot, except_bind_eq_ok.mpr ⟨codeHash, hcode, rfl⟩⟩

/-- The account with the fields of a leaf. -/
theorem decodeAcctItems_encode (a : Acct) (root : Hash) :
    decodeAcctItems ((acctItems a root).map RlpTree.encode) = .ok { a with storageRoot := root } := by
  have hlen := length_acctItems_le a root
  have hitem : ∀ bs : Bytes, .str bs ∈ acctItems a root → ∃ f,
      rlpItem (RlpTree.str bs).encode = .ok f ∧ f.isList = false ∧ f.payload = bs.length ∧
        f.payloadOf (RlpTree.str bs).encode = bs := fun _ hmem =>
    rlpItem_tree (Nat.lt_of_le_of_lt (encode_mem_length_le hmem) (by omega))
  obtain ⟨f0, h0, hl0, hp0, hb0⟩ := hitem (rlpBe a.nonce.toNat) (by simp [acctItems])
  obtain ⟨f1, h1, hl1, hp1, hb1⟩ := hitem (rlpBe a.balance.toNat) (by simp [acctItems])
  obtain ⟨f2, h2, hl2, -, hb2⟩ := hitem (beBytes 32 root.toNat) (by simp [acctItems])
  obtain ⟨f3, h3, hl3, -, hb3⟩ := hitem (beBytes 32 a.codeHash.toNat) (by simp [acctItems])
  have hstr : (f0.isList || f1.isList || f2.isList || f3.isList) = false := by
    rw [hl0, hl1, hl2, hl3]
    rfl
  have hnonce : f0.payload ≤ 8 := by
    rw [hp0, length_rlpBe]
    exact rlpBeLen_le a.nonce.isLt
  have hbalance : f1.payload ≤ 32 := by
    rw [hp1, length_rlpBe]
    exact rlpBeLen_le a.balance.isLt
  have hroot := leafHash_beBytes root emptyTrieRoot 23
  have hcode := leafHash_beBytes a.codeHash emptyCodeHash 24
  rw [← hb2] at hroot
  rw [← hb3] at hcode
  refine (decodeAcctItems_strings h0 h1 h2 h3 hstr hnonce hbalance hroot hcode).trans ?_
  rw [hb0, hb1, beNat_rlpBe, beNat_rlpBe, BitVec.ofNat_toNat, BitVec.ofNat_toNat,
    BitVec.setWidth_eq, BitVec.setWidth_eq]

/-- The account of a leaf that was encoded. -/
theorem decodeAcct_encodeAccount (a : Acct) (root : Hash) :
    decodeAcct (encodeAccount a root) = .ok { a with storageRoot := root } := by
  have hle := length_encodeAccount_le a root
  have hlen := length_acctItems_le a root
  rw [encodeAccount_tree] at hle ⊢
  obtain ⟨it, hit, hlist, -, hpay⟩ := rlpDecodeFully_tree (t := .list (acctItems a root)) (by omega)
  have hleaf : leafItem (RlpTree.list (acctItems a root)).encode = .ok it := by
    rw [leafItem, hit]
  have hslices : rlpSlices (it.payloadOf (RlpTree.list (acctItems a root)).encode) =
      .ok ((acctItems a root).map RlpTree.encode) := by
    rw [hpay]
    exact rlpSlices_encodeAll (by omega)
  have hfour : ((acctItems a root).map RlpTree.encode).length = 4 := rfl
  rw [decodeAcct]
  refine except_bind_eq_ok.mpr ⟨it, hleaf, ?_⟩
  rw [if_neg (by rw [hlist]; exact Bool.noConfusion)]
  refine except_bind_eq_ok.mpr ⟨_, hslices, ?_⟩
  rw [if_neg (not_not.mpr hfour)]
  exact decodeAcctItems_encode a root

theorem encodeAccount_ne_nil (a : Acct) (root : Hash) : encodeAccount a root ≠ [] := fun hnil => by
  have hrun := decodeAcct_encodeAccount a root
  rw [hnil] at hrun
  cases hrun

omit [Keccak] in
/-- The number of a slot that was encoded. -/
theorem decodeSlot_encodeSlot {v : U256} (hv : v ≠ 0) :
    Reader.decodeSlot (encodeSlot v) = .ok v := by
  have hle := length_rlpPutU256_le v
  have htree : rlpPutU256 v = (RlpTree.str (rlpBe v.toNat)).encode := by
    rw [RlpTree.encode, rlpPutU256]
  rw [htree] at hle
  obtain ⟨it, hit, hlist, hlen, hpay⟩ := rlpDecodeFully_tree (Nat.lt_of_le_of_lt hle (by decide))
  have hshort : it.payload ≤ 32 := by
    rw [hlen, RlpTree.payload, length_rlpBe]
    exact rlpBeLen_le v.isLt
  rw [encodeSlot, if_neg hv, htree, Reader.decodeSlot]
  refine except_bind_eq_ok.mpr ⟨it, hit, ?_⟩
  rw [if_neg (by rw [hlist]; exact Bool.noConfusion), if_neg (Nat.not_lt.mpr hshort), hpay,
    RlpTree.payload, beNat_rlpBe, BitVec.ofNat_toNat, BitVec.setWidth_eq]
  rfl

omit [Keccak] in
theorem encodeSlot_eq_nil {v : U256} : encodeSlot v = [] ↔ v = 0 := by
  refine ⟨fun hnil => ?_, fun h => if_pos h⟩
  by_contra hv
  have hrun := decodeSlot_encodeSlot hv
  rw [hnil] at hrun
  cases hrun

/-! ## Tries on one heap -/

variable {entries : List Bytes} {db : NodeDb} {c : Prop} {a b : Arena Node} {u : MptTrie}
  {M : Contents}

/-- The handle holds a map, a part of it at least and all of it if `c`. -/
structure Holds (c : Prop) (db : NodeDb) (a : Arena Node) (m : Handle) (M : Contents) : Prop where
  partly : ∃ S, Partly db a m M S
  whole : c → ∃ S, Whole a m M S

/-- A node that is missing is what a program fails for. -/
def Lacks (c : Prop) (e : Exn) : Prop := (e = .mpt 1 ∨ e = .mpt 2) ∧ ¬c

theorem Sized.rootOfMap (h : Sized u) : rootOfMap u.value = rootOf u := rootOfMap_eq h.full h.wf

theorem Sized.fits (h : Sized u) : Fits u := fits_of_small h.full h.wf h.small

/-- What is done elsewhere on the heap changes nothing. -/
theorem Holds.frame {m : Handle} (h : Holds c db a m M) (hch : Changes ∅ a b) :
    Holds c db b m M := by
  refine ⟨?_, fun hc => ?_⟩
  · obtain ⟨S, t, u, hown, hp, hfull, hwf, hval⟩ := h.partly
    exact ⟨S, t, u, hown.changes hch (Set.disjoint_empty S), hp, hfull, hwf, hval⟩
  · obtain ⟨S, t, hown, hfull, hwf, hval⟩ := h.whole hc
    exact ⟨S, t, hown.changes hch (Set.disjoint_empty S), hfull, hwf, hval⟩

/-- The trie that is decoded for a root. -/
theorem decode_holds (h : Committed entries u) (hc : c → Complete entries u) (secured : Bool)
    (a : Arena Node) :
    (∃ n r b, (∀ fuel, decodeWitnessToMpt (n + fuel) (nodedbBuild entries) (rootOf u) a = .ok r b) ∧
      Changes ∅ a b ∧ Holds c (nodedbBuild entries) b ⟨r, secured⟩ u.value) ∨
    (∀ fuel, decodeWitnessToMpt fuel (nodedbBuild entries) (rootOf u) a = .error (.mpt 1) a) ∧ ¬c := by
  obtain ⟨hok, hfail⟩ := decodeWitness_run h.full h.wf h.fits h.apart a
  by_cases hroot : u.isEmpty = true ∨ nodeRlp u ∈ entries
  · obtain ⟨n, r, b, t, T, hrun, hd⟩ := hok hroot
    refine .inl ⟨n, r, b, hrun, hd.changes,
      ⟨T, t, u, hd.owns, hd.prunes, h.full, h.wf, rfl⟩, fun hall => ?_⟩
    have htu : t = u := h.apart.eq_of_prunes (hc hall) hd.prunes
    exact ⟨T, u, htu ▸ hd.owns, h.full, h.wf, rfl⟩
  · obtain ⟨hmade, hmem⟩ := not_or.mp hroot
    have hmade := Bool.eq_false_iff.mpr hmade
    exact .inr ⟨hfail hmade hmem, fun hall => hmem (hc hall hmade).1⟩

theorem mptNibbleKey_secured (key : Bytes) : mptNibbleKey true key = keyToNibbles (hashKey key) :=
  if_pos rfl

theorem length_path (key : Bytes) : (mptNibbleKey true key).length = 64 := by
  rw [mptNibbleKey_secured, length_keyToNibbles, hashKey, length_beBytes]

/-- A key is looked up, or its path is missing. -/
theorem trieLookup_run {node : Option Nat} (h : Holds c db a ⟨node, true⟩ M) (key : Bytes) :
    trieLookup node (hashKey key) a = .ok (present (M (mptNibbleKey true key))) a ∨
      trieLookup node (hashKey key) a = .error (.mpt 2) a ∧ ¬c := by
  obtain ⟨S, t, u, hown, hp, hfull, hwf, rfl⟩ := h.partly
  have hget : mptGet ⟨node, true⟩ key = trieLookup node (hashKey key) := by
    rw [mptGet, trieLookup]
    dsimp only
    rw [length_path, mptNibbleKey_secured]
  obtain ⟨hok, hfail⟩ := mptGet_run (m := ⟨node, true⟩) hown (Trie.wf_of_prunes stubFor_made hp hwf) key
  rw [hget] at hok hfail
  cases hlook : t.get (mptNibbleKey true key) with
  | some v =>
    left
    rw [hok v hlook, Trie.get_eq_some (Trie.get_prunes hp hlook)]
  | none =>
    refine .inr ⟨hfail hlook, fun hc => ?_⟩
    obtain ⟨S', t', hown', hfull', hwf', -⟩ := h.whole hc
    obtain ⟨hok', -⟩ := mptGet_run (m := ⟨node, true⟩) hown' hwf' key
    rw [hget] at hok'
    cases (hok' _ (Trie.get_full hfull' _)).symm.trans (hfail hlook)

/-! ## Reads -/

/-- The trie of the accounts is decoded, and what is decoded for a root is the trie with the root. -/
structure Reader.Ready (c : Prop) (db : NodeDb) (pre : PreState) (r : Reader) : Prop where
  accounts : Holds c db r.heap ⟨r.stateTrie, true⟩ pre.accounts.value
  storage : ∀ root node, r.storageTries.get root = some node → ∀ addr,
    rootOf (pre.storage addr) = root → Holds c db r.heap ⟨node, true⟩ (pre.storage addr).value

namespace Reader

variable {keys : Keys} {pre : PreState} {world : World} {r : Reader} {addr : Address} {key : Hash}

theorem wsGetAccountOptional_halts (hr : r.Ready c db pre) (hrep : pre.Represents keys world)
    (haddr : addr ∈ keys.addrs) :
    Halts (fun _ => wsGetAccountOptional addr) r
      (fun a r' => a = world.account addr ∧ r' = r) (fun e _ => Lacks c e) := by
  have hleaf := hrep.account addr haddr
  rcases trieLookup_run hr.accounts (beBytes 20 addr.toNat) with hrun | ⟨hrun, hc⟩
  · have hws : wsAccountLeaf addr r = .ok (present (acctLeaf (world.account addr))) r := by
      rw [wsAccountLeaf, bind_run_ok (get_run r), onTries, hrun, ← hleaf]
      rfl
    refine halts_ok (fun _ => ?_) ⟨rfl, rfl⟩
    rw [wsGetAccountOptional, bind_run_ok hws]
    cases world.account addr with
    | none => rfl
    | some a =>
      have hpresent : present (acctLeaf (some a)) = some (encodeAccount a a.storageRoot) :=
        if_neg (encodeAccount_ne_nil a a.storageRoot)
      have hdec : liftRead (decodeAcct (encodeAccount a a.storageRoot)) r = .ok a r := by
        rw [decodeAcct_encodeAccount]
        rfl
      rw [hpresent]
      exact bind_run_ok hdec
  · have hws : wsAccountLeaf addr r = .error (.mpt 2) r := by
      rw [wsAccountLeaf, bind_run_ok (get_run r), onTries, hrun]
    exact halts_error (fun _ => bind_run_error hws) ⟨.inr rfl, hc⟩

theorem wsStorageRootOf_halts (hr : r.Ready c db pre) (hrep : pre.Represents keys world)
    (haddr : addr ∈ keys.addrs) :
    Halts (fun _ => wsStorageRootOf addr) r
      (fun root r' => root = rootOf (pre.storage addr) ∧ r' = r) (fun e _ => Lacks c e) := by
  refine (wsGetAccountOptional_halts hr hrep haddr).bind fun a r' h => ?_
  obtain ⟨rfl, rfl⟩ := h
  exact halts_pure ⟨(hrep.root addr haddr).symm, rfl⟩

/-- The storage trie of an account, decoded now or before. -/
theorem wsStorageTrie_halts (hroot : pre.Committed entries)
    (hr : r.Ready (pre.Complete entries) (nodedbBuild entries) pre) (addr : Address) :
    Halts (fun fuel => wsStorageTrie fuel (nodedbBuild entries) (rootOf (pre.storage addr))) r
      (fun node r' => r'.Ready (pre.Complete entries) (nodedbBuild entries) pre ∧
        Holds (pre.Complete entries) (nodedbBuild entries) r'.heap ⟨node, true⟩
          (pre.storage addr).value)
      (fun e _ => Lacks (pre.Complete entries) e) := by
  have hdecode := fun addr => decode_holds (hroot.storage addr)
    (fun hc : pre.Complete entries => hc.2 addr) true r.heap
  cases hget : r.storageTries.get (rootOf (pre.storage addr)) with
  | some node =>
    refine halts_ok (fun fuel => ?_) ⟨hr, hr.storage _ node hget addr rfl⟩
    rw [wsStorageTrie, bind_run_ok (get_run r), hget]
    rfl
  | none =>
    rcases hdecode addr with ⟨n, node, b, hrun, hch, hholds⟩ | ⟨hrun, hc⟩
    · refine ⟨n, .ok node ⟨b, r.stateTrie, r.storageTries.set (rootOf (pre.storage addr)) node⟩,
        fun fuel => ?_, ⟨hr.accounts.frame hch, fun root node' hnode addr' hroot' => ?_⟩, hholds⟩
      · have hon : onTries (decodeWitnessToMpt (n + fuel) (nodedbBuild entries)
            (rootOf (pre.storage addr))) r = .ok node { r with heap := b } := by
          rw [onTries, hrun fuel]
        dsimp only
        rw [wsStorageTrie, bind_run_ok (get_run r), hget]
        exact bind_run_ok hon
      · dsimp only at hnode ⊢
        rw [OrdMap.get_set] at hnode
        split at hnode
        · next heq =>
          -- another account may have the same storage, for which the same is decoded
          obtain rfl := Option.some.inj hnode
          have hsame := hroot'.trans heq
          rcases hdecode addr' with ⟨n', node'', b', hrun', -, hholds'⟩ | ⟨hrun', -⟩
          · have hrun₁ := hrun' n
            rw [hsame, Nat.add_comm, hrun n'] at hrun₁
            cases hrun₁
            exact hholds'
          · have hrun₁ := hrun' (n + 0)
            rw [hsame, hrun 0] at hrun₁
            cases hrun₁
        · exact (hr.storage root node' hnode addr' hroot').frame hch
    · have hfail : ∀ fuel, wsStorageTrie fuel (nodedbBuild entries) (rootOf (pre.storage addr)) r =
          .error (.mpt 1) r := fun fuel => by
        have hon : onTries (decodeWitnessToMpt fuel (nodedbBuild entries)
            (rootOf (pre.storage addr))) r = .error (.mpt 1) r := by
          rw [onTries, hrun fuel]
        rw [wsStorageTrie, bind_run_ok (get_run r), hget]
        exact bind_run_error hon
      exact halts_error hfail ⟨.inl rfl, hc⟩

/-- The slots of an account without storage are zero. -/
theorem slot_eq_zero (hroot : pre.Committed entries) (hrep : pre.Represents keys world)
    (haddr : addr ∈ keys.addrs) (hkey : key ∈ keys.slots)
    (h : rootOf (pre.storage addr) = emptyTrieRoot) : world.slot addr key = 0 := by
  have hs := hroot.storage addr
  have hempty := hs.apart.root_eq_empty hs.full hs.fits.self h
  have hslot := hrep.slot addr haddr key hkey
  rw [Trie.eq_empty_of_isEmpty hempty] at hslot
  exact encodeSlot_eq_nil.mp hslot.symm

theorem wsGetStorage_halts (hroot : pre.Committed entries) (hrep : pre.Represents keys world)
    (hr : r.Ready (pre.Complete entries) (nodedbBuild entries) pre) (haddr : addr ∈ keys.addrs)
    (hkey : key ∈ keys.slots) :
    Halts (fun fuel => wsGetStorage fuel (nodedbBuild entries) addr key) r
      (fun v r' => v = world.slot addr key ∧
        r'.Ready (pre.Complete entries) (nodedbBuild entries) pre)
      (fun e _ => Lacks (pre.Complete entries) e) := by
  unfold wsGetStorage
  refine (wsStorageRootOf_halts hr hrep haddr).bind fun root r₁ h₁ => ?_
  obtain ⟨rfl, rfl⟩ := h₁
  by_cases hempty : rootOf (pre.storage addr) = emptyTrieRoot
  · simp only [if_pos hempty]
    exact halts_pure ⟨(slot_eq_zero hroot hrep haddr hkey hempty).symm, hr⟩
  · simp only [if_neg hempty]
    refine (wsStorageTrie_halts hroot hr addr).bind fun node r₂ h₂ => ?_
    obtain ⟨hr₂, hnode⟩ := h₂
    have hslot := hrep.slot addr haddr key hkey
    rcases trieLookup_run hnode (beBytes 32 key.toNat) with hrun | ⟨hrun, hc⟩
    · have hon : onTries (trieLookup node (hashKey (beBytes 32 key.toNat))) r₂ =
          .ok (present (encodeSlot (world.slot addr key))) r₂ := by
        rw [onTries, hrun, ← hslot]
        rfl
      refine halts_ok (fun _ => ?_) ⟨rfl, hr₂⟩
      rw [bind_run_ok hon]
      by_cases hv : world.slot addr key = 0
      · rw [encodeSlot_eq_nil.mpr hv, hv]
        rfl
      · have hpresent : present (encodeSlot (world.slot addr key)) =
            some (encodeSlot (world.slot addr key)) := if_neg (mt encodeSlot_eq_nil.mp hv)
        rw [hpresent]
        dsimp only
        rw [decodeSlot_encodeSlot hv]
        rfl
    · have hon : onTries (trieLookup node (hashKey (beBytes 32 key.toNat))) r₂ =
          .error (.mpt 2) r₂ := by
        rw [onTries, hrun]
      exact halts_error (fun _ => bind_run_error hon) ⟨.inr rfl, hc⟩

end Reader

variable {keys : Keys} {pre : PreState} {world : World} {r : Reader}

/-- One read answers as the state does. -/
theorem Read.run_halts (hroot : pre.Committed entries) (hrep : pre.Represents keys world)
    (hr : r.Ready (pre.Complete entries) (nodedbBuild entries) pre) {read : Read}
    (hread : read.Within keys) :
    Halts (fun fuel => read.run fuel (nodedbBuild entries)) r
      (fun answer r' => answer = world.answer read ∧
        r'.Ready (pre.Complete entries) (nodedbBuild entries) pre)
      (fun e _ => Lacks (pre.Complete entries) e) := by
  cases read with
  | account addr =>
    refine (Reader.wsGetAccountOptional_halts hr hrep hread).bind fun a r' h => ?_
    obtain ⟨rfl, rfl⟩ := h
    exact halts_pure ⟨rfl, hr⟩
  | slot addr key =>
    refine (Reader.wsGetStorage_halts hroot hrep hr hread.1 hread.2).bind fun v r' h => ?_
    obtain ⟨rfl, hr'⟩ := h
    exact halts_pure ⟨rfl, hr'⟩

theorem Read.runAll_halts (hroot : pre.Committed entries) (hrep : pre.Represents keys world)
    (hr : r.Ready (pre.Complete entries) (nodedbBuild entries) pre) {reads : List Read}
    (hreads : ∀ read ∈ reads, read.Within keys) :
    Halts (fun fuel => Read.runAll fuel (nodedbBuild entries) reads) r
      (fun answers _ => answers = reads.map world.answer)
      (fun e _ => Lacks (pre.Complete entries) e) := by
  induction reads generalizing r with
  | nil => exact halts_pure rfl
  | cons read reads ih =>
    refine (Read.run_halts hroot hrep hr (hreads read List.mem_cons_self)).bind
      fun answer r₁ h₁ => ?_
    obtain ⟨rfl, hr₁⟩ := h₁
    refine (ih hr₁ fun read hmem => hreads read (List.mem_cons_of_mem _ hmem)).bind
      fun answers r₂ h₂ => ?_
    subst h₂
    exact halts_pure rfl

/-- **The reads of a witness are those of the state.** The witness may be any list of byte strings.
From the root of a state, every sequence of reads of accounts and slots answers as the state does,
storage tries being decoded once and found again later, unless a node of the state is not in the
witness. -/
theorem witness_reads (hroot : pre.Committed entries) (hrep : pre.Represents keys world)
    {reads : List Read} (hreads : ∀ read ∈ reads, read.Within keys) (r : Reader) :
    Halts (fun fuel => do
        Reader.stateInit fuel (nodedbBuild entries) (rootOf pre.accounts)
        Read.runAll fuel (nodedbBuild entries) reads) r
      (fun answers _ => answers = reads.map world.answer)
      (fun e _ => Lacks (pre.Complete entries) e) := by
  refine Halts.bind (P := fun _ r' => r'.Ready (pre.Complete entries) (nodedbBuild entries) pre)
    ?_ fun _ r' hr => Read.runAll_halts hroot hrep hr hreads
  rcases decode_holds hroot.accounts (fun hc : pre.Complete entries => hc.1) true r.heap with
    ⟨n, node, b, hrun, -, hholds⟩ | ⟨hrun, hc⟩
  · refine ⟨n, .ok () ⟨b, node, .empty⟩, fun fuel => ?_, hholds, fun root node' hnode => ?_⟩
    · have hon : onTries (decodeWitnessToMpt (n + fuel) (nodedbBuild entries)
          (rootOf pre.accounts)) r = .ok node { r with heap := b } := by
        rw [onTries, hrun fuel]
      exact bind_run_ok hon
    · cases hnode
  · have hon : ∀ fuel, onTries (decodeWitnessToMpt fuel (nodedbBuild entries)
        (rootOf pre.accounts)) r = .error (.mpt 1) r := fun fuel => by
      rw [onTries, hrun fuel]
    exact halts_error (fun fuel => bind_run_error (hon fuel)) ⟨.inl rfl, hc⟩

end

section

attribute [local instance] numKeccak

/-- An account without code and storage. -/
def oneAcct : Acct := ⟨1, 5, emptyTrieRoot, emptyCodeHash⟩

/-- A state with one account. -/
def oneWorld : World where
  account addr := if addr = 1 then some oneAcct else none
  slot _ _ := 0

def onePre : PreState where
  accounts := .leaf (accountPath 1) (acctLeaf (some oneAcct))
  storage _ := .empty

/-- The node of the state. -/
def oneEntry : Bytes := nodeRlp onePre.accounts

private theorem accountPath_num {x y : Address} (h : accountPath x = accountPath y) : x = y := by
  rw [accountPath, accountPath, mptNibbleKey_secured, mptNibbleKey_secured] at h
  have hnat := congrArg beNat (keyToNibbles_injective h)
  rw [hashKey, hashKey, beNat_beBytes_of_lt (BitVec.isLt _),
    beNat_beBytes_of_lt (BitVec.isLt _)] at hnat
  have hx : ∀ z : Address, (keccak256 (beBytes 20 z.toNat)).toNat = z.toNat := fun z => by
    have hlt : z.toNat < 2 ^ 256 := Nat.lt_of_lt_of_le z.isLt (by decide)
    change (BitVec.ofNat 256 (beNat (beBytes 20 z.toNat))).toNat = z.toNat
    rw [beNat_beBytes_of_lt z.isLt, BitVec.toNat_ofNat, Nat.mod_eq_of_lt hlt]
  rw [hx, hx] at hnat
  exact BitVec.eq_of_toNat_eq hnat

private theorem injOn_pair {x y : Bytes} (h : keccak256 x ≠ keccak256 y) {K : Set Bytes}
    (hK : ∀ z ∈ K, z = x ∨ z = y) : Set.InjOn keccak256 K := by
  intro p hp q hq heq
  rcases hK p hp with rfl | rfl <;> rcases hK q hq with rfl | rfl
  · rfl
  · exact absurd heq h
  · exact absurd heq.symm h
  · rfl

private theorem apart_one : keccak256 (nodeRlp .empty) ≠ keccak256 oneEntry := by decide +kernel

theorem onePre_committed : onePre.Committed [oneEntry] where
  accounts := by
    refine ⟨⟨trivial, encodeAccount_ne_nil oneAcct _, ⟨fun k hk => ?_, fun k => ?_⟩⟩,
      injOn_pair apart_one ?_⟩
    · by_cases heq : accountPath 1 = k
      · rw [← heq]
        decide +kernel
      · exact absurd (if_neg heq) hk
    · have hle := length_encodeAccount_le oneAcct oneAcct.storageRoot
      change (if accountPath 1 = k then encodeAccount oneAcct oneAcct.storageRoot else []).length < _
      split
      · omega
      · exact Nat.two_pow_pos 60
    · rintro z (rfl | ⟨u, hu, rfl⟩ | hz)
      · exact .inl rfl
      · cases hu
        exact .inr rfl
      · exact .inr (List.mem_singleton.mp hz)
  storage _ := by
    refine ⟨⟨trivial, trivial, small_empty⟩, injOn_pair apart_one ?_⟩
    rintro z (rfl | ⟨u, hu, rfl⟩ | hz)
    · exact .inl rfl
    · cases hu
      exact .inl rfl
    · exact .inr (List.mem_singleton.mp hz)

/-- All accounts and one slot. -/
def oneKeys : Keys where
  addrs := Set.univ
  slots := {7}
  addrs_apart _ _ _ _ h := accountPath_num h
  slots_apart x hx y hy _ := by
    rw [Set.mem_singleton_iff.mp hx, Set.mem_singleton_iff.mp hy]

theorem onePre_represents : onePre.Represents oneKeys oneWorld where
  account addr _ := by
    change (if accountPath 1 = accountPath addr then acctLeaf (some oneAcct) else []) =
      acctLeaf (if addr = 1 then some oneAcct else none)
    by_cases h : addr = 1
    · rw [h, if_pos rfl, if_pos rfl]
    · rw [if_neg fun heq => h (accountPath_num heq).symm, if_neg h]
      rfl
  root addr _ := by
    change emptyTrieRoot = ((if addr = 1 then some oneAcct else none).map Acct.storageRoot).getD _
    split <;> rfl
  slot _ _ _ _ := rfl

theorem witness_reads_one :
    Halts (fun fuel => do
        Reader.stateInit fuel (nodedbBuild [oneEntry]) (rootOf onePre.accounts)
        Read.runAll fuel (nodedbBuild [oneEntry]) [.account 1, .slot 1 7, .account 2])
      ⟨.empty, none, .empty⟩
      (fun answers _ => answers = [.account 1, .slot 1 7, .account 2].map oneWorld.answer)
      (fun e _ => Lacks (onePre.Complete [oneEntry]) e) :=
  witness_reads onePre_committed onePre_represents (by simp [Read.Within, oneKeys]) _

end

end StatelessGuest
