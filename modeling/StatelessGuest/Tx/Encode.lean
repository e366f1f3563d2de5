import StatelessGuest.Tx.Decode

/-!
# Encoding transactions

The encoder computes the lengths of the nested lists first, so that it can write every header before
its payload, and leaves room for the outermost one. The messages that are signed are encoded by the
same code.

* `accessListPayloadLen`, `authListPayloadLen`, `txEncodeBound`: the lengths that are predicted.
* `txEncodeGeneric`, `encodeTransaction`: the code.
* `Tx.items`: the fields as trees.
* `txEncodeGeneric_eq`: the encoding is canonical; `txPayload_in_bound`: the buffer is large enough.
-/

namespace StatelessGuest

open RlpTree (encodeAll)

/-! ## The code -/

def txPutTo : Option Address → Bytes
  | none => [128]
  | some a => rlpEncodeBytes (addrBytes a)

/-- The length of the keys of an entry. -/
def Access.slotsLen (a : Access) : Word := 33 * BitVec.ofNat 64 a.slots.length

def Access.entryLen (a : Access) : Word := 21 + rlpListHeaderLen a.slotsLen + a.slotsLen

def accessListPayloadLen (recs : List Access) : Word :=
  recs.foldl (fun total a => total + rlpListHeaderLen a.entryLen + a.entryLen) 0

def txPutAccess (a : Access) : Bytes :=
  rlpEncodeListHeader a.entryLen.toNat ++ rlpEncodeBytes (addrBytes a.addr) ++
    rlpEncodeListHeader a.slotsLen.toNat ++ a.slots.flatMap fun k => rlpEncodeBytes (hashBytes k)

def txPutAccessList (recs : List Access) : Bytes :=
  rlpEncodeListHeader (accessListPayloadLen recs).toNat ++ recs.flatMap txPutAccess

def blobHashesLen (hashes : List Hash) : Word := 33 * BitVec.ofNat 64 hashes.length

def txPutBlobHashes (hashes : List Hash) : Bytes :=
  rlpEncodeListHeader (blobHashesLen hashes).toNat ++
    hashes.flatMap fun h => rlpEncodeBytes (hashBytes h)

def authPayloadLen (a : Auth) : Word :=
  txU256EncodedLen a.chainId + 21 + rlpWordEncodedLen a.nonce + rlpWordEncodedLen a.yParity +
    txU256EncodedLen a.r + txU256EncodedLen a.s

def authListPayloadLen (recs : List Auth) : Word :=
  recs.foldl (fun total a => total + rlpListHeaderLen (authPayloadLen a) + authPayloadLen a) 0

def txPutAuthorization (a : Auth) : Bytes :=
  rlpEncodeListHeader (authPayloadLen a).toNat ++ rlpPutU256 a.chainId ++
    rlpEncodeBytes (addrBytes a.addr) ++ rlpEncodeWord a.nonce.toNat ++
    rlpEncodeWord a.yParity.toNat ++ rlpPutU256 a.r ++ rlpPutU256 a.s

def txPutAuthorizations (recs : List Auth) : Bytes :=
  rlpEncodeListHeader (authListPayloadLen recs).toNat ++ recs.flatMap txPutAuthorization

/-- The size of the buffer for an encoding. -/
def txEncodeBound (tx : Tx) : Word :=
  64 + 17 * 33 + 30 + BitVec.ofNat 64 tx.data.length + accessListPayloadLen tx.accessList +
    authListPayloadLen tx.authorizations + blobHashesLen tx.blobHashes

/-- What is encoded: the transaction (`full`), what is signed of it (`unsigned`), or this with a
chain id (`chained`). -/
inductive TxMode where
  | full
  | unsigned
  | chained (chainId : Word)
  deriving DecidableEq

/-- What stands behind the fields that are signed. -/
def txTail (tx : Tx) : TxMode → Bytes
  | .full => rlpPutU256 tx.v ++ rlpPutU256 tx.r ++ rlpPutU256 tx.s
  | .unsigned => []
  | .chained chainId => rlpEncodeWord chainId.toNat ++ [128, 128]

def txPayload (tx : Tx) (mode : TxMode) : Bytes :=
  (if tx.type ≠ .legacy then rlpEncodeWord tx.chainId.toNat else []) ++
    rlpPutU256 tx.nonce ++
    (if tx.type.num ≤ 1 then rlpPutU256 tx.gasPrice
      else rlpPutU256 tx.maxPriorityFee ++ rlpPutU256 tx.maxFee) ++
    rlpEncodeWord tx.gas.toNat ++ txPutTo tx.toAddr ++ rlpPutU256 tx.value ++
    rlpEncodeBytes tx.data ++
    (if tx.type ≠ .legacy then txPutAccessList tx.accessList else []) ++
    (if tx.type = .blob then rlpPutU256 tx.maxFeePerBlobGas ++ txPutBlobHashes tx.blobHashes
      else []) ++
    (if tx.type = .setCode then txPutAuthorizations tx.authorizations else []) ++
    txTail tx mode

def txEncodeGeneric (tx : Tx) (mode : TxMode) : Bytes :=
  (if tx.type ≠ .legacy then [UInt8.ofNat tx.type.num] else []) ++
    rlpEncodeListHeader (txPayload tx mode).length ++ txPayload tx mode

def encodeTransaction (tx : Tx) : Bytes := txEncodeGeneric tx .full

/-! ## Trees -/

def u256Tree (v : U256) : RlpTree := .str (rlpBe v.toNat)

def wordTree (w : Word) : RlpTree := .str (rlpBe w.toNat)

def hashTree (h : Hash) : RlpTree := .str (hashBytes h)

def toTree : Option Address → RlpTree
  | none => .str []
  | some a => .str (addrBytes a)

def Access.tree (a : Access) : RlpTree :=
  .list [.str (addrBytes a.addr), .list (a.slots.map hashTree)]

def Auth.tree (a : Auth) : RlpTree :=
  .list [u256Tree a.chainId, .str (addrBytes a.addr), wordTree a.nonce, wordTree a.yParity,
    u256Tree a.r, u256Tree a.s]

def chainItems (t : TxType) (chainId : Word) : List RlpTree :=
  if t = .legacy then [] else [wordTree chainId]

def feeItems (t : TxType) (fees : U256 × U256 × U256) : List RlpTree :=
  if t.num ≤ 1 then [u256Tree fees.1] else [u256Tree fees.2.1, u256Tree fees.2.2]

def accessItems (t : TxType) (recs : List Access) : List RlpTree :=
  if t = .legacy then [] else [.list (recs.map Access.tree)]

def blobItems (t : TxType) (blobs : U256 × List Hash) : List RlpTree :=
  if t = .blob then [u256Tree blobs.1, .list (blobs.2.map hashTree)] else []

def authItems (t : TxType) (recs : List Auth) : List RlpTree :=
  if t = .setCode then [.list (recs.map Auth.tree)] else []

/-- The fields that are signed. -/
def Tx.signedItems (tx : Tx) : List RlpTree :=
  chainItems tx.type tx.chainId ++ [u256Tree tx.nonce] ++
    feeItems tx.type (tx.gasPrice, tx.maxPriorityFee, tx.maxFee) ++
    [wordTree tx.gas, toTree tx.toAddr, u256Tree tx.value, .str tx.data] ++
    accessItems tx.type tx.accessList ++ blobItems tx.type (tx.maxFeePerBlobGas, tx.blobHashes) ++
    authItems tx.type tx.authorizations

def Tx.tailItems (tx : Tx) : TxMode → List RlpTree
  | .full => [u256Tree tx.v, u256Tree tx.r, u256Tree tx.s]
  | .unsigned => []
  | .chained chainId => [wordTree chainId, .str [], .str []]

def Tx.items (tx : Tx) (mode : TxMode) : List RlpTree := tx.signedItems ++ tx.tailItems mode

/-- The byte before the RLP. -/
def TxType.head (t : TxType) : Bytes := if t ≠ .legacy then [UInt8.ofNat t.num] else []

/-! ## Lengths -/

theorem encodeAll_map {α : Type} (f : α → RlpTree) (l : List α) :
    encodeAll (l.map f) = l.flatMap fun a => (f a).encode := by
  rw [RlpTree.encodeAll_eq_flatten, List.map_map, List.flatMap_def]
  rfl

theorem length_encodeAll_map {α : Type} (f : α → RlpTree) (l : List α) :
    (encodeAll (l.map f)).length = (l.map fun a => (f a).encode.length).sum := by
  rw [encodeAll_map, List.length_flatMap]

theorem length_putAddress (a : Address) : (rlpEncodeBytes (addrBytes a)).length = 21 := by
  have hlen : (addrBytes a).length = 20 := length_beBytes 20 _
  rw [rlpEncodeBytes_of_length_ne (by rw [hlen]; decide), List.length_append, hlen,
    length_rlpWriteHeader]
  rfl

theorem length_putHash (h : Hash) : (rlpEncodeBytes (hashBytes h)).length = 33 := by
  have hlen : (hashBytes h).length = 32 := length_beBytes 32 _
  rw [rlpEncodeBytes_of_length_ne (by rw [hlen]; decide), List.length_append, hlen,
    length_rlpWriteHeader]
  rfl

theorem length_putHashes (hashes : List Hash) :
    (encodeAll (hashes.map hashTree)).length = 33 * hashes.length := by
  have hmap : (hashes.map fun h => (hashTree h).encode.length) = hashes.map fun _ => 33 :=
    List.map_congr_left fun h _ => length_putHash h
  rw [length_encodeAll_map, hmap, List.map_const', List.sum_replicate_nat, Nat.mul_comm]

theorem toNat_foldl_len_from {α : Type} {step : Word → α → Word} {len : α → Nat}
    (h : ∀ total a, total.toNat + len a < 2 ^ 64 → (step total a).toNat = total.toNat + len a)
    (l : List α) (total : Word) (hlt : total.toNat + (l.map len).sum < 2 ^ 64) :
    (l.foldl step total).toNat = total.toNat + (l.map len).sum := by
  induction l generalizing total with
  | nil => rfl
  | cons a l ih =>
    rw [List.map_cons, List.sum_cons] at hlt ⊢
    have hstep := h total a (by omega)
    rw [List.foldl_cons, ih _ (by rw [hstep]; omega), hstep]
    omega

/-- A sum of words is the sum of the lengths they stand for, if this is a word. -/
theorem toNat_foldl_len {α : Type} {step : Word → α → Word} {len : α → Nat}
    (h : ∀ total a, total.toNat + len a < 2 ^ 64 → (step total a).toNat = total.toNat + len a)
    {l : List α} (hlt : (l.map len).sum < 2 ^ 64) : (l.foldl step 0).toNat = (l.map len).sum := by
  have hzero : (0 : Word).toNat = 0 := rfl
  have hsum := toNat_foldl_len_from h l 0 (by omega)
  rwa [hzero, Nat.zero_add] at hsum

theorem toNat_hashesLen {n : Nat} (hlt : 33 * n < 2 ^ 64) :
    (33 * BitVec.ofNat 64 n).toNat = 33 * n := by
  have hnum : (33 : Word).toNat = 33 := rfl
  rw [BitVec.toNat_mul, BitVec.toNat_ofNat, hnum, Nat.mod_eq_of_lt (a := n) (by omega),
    Nat.mod_eq_of_lt hlt]

theorem length_rlpEncodeList (payload : Bytes) : (rlpEncodeList payload).length =
    (rlpEncodeListHeader payload.length).length + payload.length := List.length_append

/-- The step of a loop that adds up the lengths of lists. -/
theorem toNat_listLen (total : Word) {n : Word} {payload : Bytes} (hn : n.toNat = payload.length)
    (hlt : total.toNat + (rlpEncodeList payload).length < 2 ^ 64) :
    (total + rlpListHeaderLen n + n).toNat = total.toNat + (rlpEncodeList payload).length := by
  have hhead := toNat_rlpListHeaderLen n
  rw [hn] at hhead
  rw [length_rlpEncodeList] at hlt ⊢
  rw [BitVec.toNat_add, BitVec.toNat_add, hhead, hn]
  omega

/-! ## Access lists -/

variable {a : Access} {auth : Auth} {tx : Tx} {mode : TxMode}

theorem Access.encode_tree (a : Access) : a.tree.encode = rlpEncodeList
    (rlpEncodeBytes (addrBytes a.addr) ++ rlpEncodeList (encodeAll (a.slots.map hashTree))) := by
  simp [Access.tree, RlpTree.encode, encodeAll]

theorem Access.toNat_lens (hlt : a.tree.encode.length < 2 ^ 64) :
    a.slotsLen.toNat = (encodeAll (a.slots.map hashTree)).length ∧
      a.entryLen.toNat = (rlpEncodeBytes (addrBytes a.addr) ++
        rlpEncodeList (encodeAll (a.slots.map hashTree))).length := by
  rw [Access.encode_tree, length_rlpEncodeList, List.length_append, length_putAddress,
    length_rlpEncodeList] at hlt
  have hslots : a.slotsLen.toNat = (encodeAll (a.slots.map hashTree)).length := by
    rw [length_putHashes] at hlt ⊢
    exact toNat_hashesLen (by omega)
  refine ⟨hslots, ?_⟩
  have hentry := toNat_listLen 21 hslots (by
    rw [length_rlpEncodeList]
    have hnum : (21 : Word).toNat = 21 := rfl
    omega)
  rw [List.length_append, length_putAddress]
  exact hentry

theorem txPutAccess_eq (hlt : a.tree.encode.length < 2 ^ 64) : txPutAccess a = a.tree.encode := by
  obtain ⟨hslots, hentry⟩ := Access.toNat_lens hlt
  rw [Access.encode_tree, txPutAccess, hslots, hentry]
  simp only [rlpEncodeList, encodeAll_map, List.append_assoc]
  rfl

theorem toNat_accessListPayloadLen {recs : List Access}
    (hlt : (encodeAll (recs.map Access.tree)).length < 2 ^ 64) :
    (accessListPayloadLen recs).toNat = (encodeAll (recs.map Access.tree)).length := by
  rw [length_encodeAll_map] at hlt ⊢
  refine toNat_foldl_len (fun total a h => ?_) hlt
  have hentry := (Access.toNat_lens (a := a) (by omega)).2
  rw [Access.encode_tree] at h ⊢
  exact toNat_listLen total hentry h

theorem txPutAccessList_eq {recs : List Access}
    (hlt : (encodeAll (recs.map Access.tree)).length < 2 ^ 64) :
    txPutAccessList recs = rlpEncodeList (encodeAll (recs.map Access.tree)) := by
  have hbody : recs.flatMap txPutAccess = encodeAll (recs.map Access.tree) := by
    rw [encodeAll_map, List.flatMap_def, List.flatMap_def]
    refine congrArg List.flatten (List.map_congr_left fun a ha => txPutAccess_eq ?_)
    exact Nat.lt_of_le_of_lt (Mpt.encode_mem_length_le (List.mem_map_of_mem ha)) hlt
  rw [txPutAccessList, toNat_accessListPayloadLen hlt, hbody]
  rfl

/-! ## Hashes and authorizations -/

theorem toNat_blobHashesLen {hashes : List Hash}
    (hlt : (encodeAll (hashes.map hashTree)).length < 2 ^ 64) :
    (blobHashesLen hashes).toNat = (encodeAll (hashes.map hashTree)).length := by
  rw [length_putHashes] at hlt ⊢
  exact toNat_hashesLen hlt

theorem txPutBlobHashes_eq {hashes : List Hash}
    (hlt : (encodeAll (hashes.map hashTree)).length < 2 ^ 64) :
    txPutBlobHashes hashes = rlpEncodeList (encodeAll (hashes.map hashTree)) := by
  rw [txPutBlobHashes, toNat_blobHashesLen hlt, encodeAll_map]
  rfl

theorem u256Tree_encode (v : U256) : (u256Tree v).encode = rlpPutU256 v := rfl

theorem wordTree_encode (w : Word) : (wordTree w).encode = rlpEncodeWord w.toNat :=
  (RlpData.rlpEncodeWord_eq w).symm

theorem Auth.encode_tree (auth : Auth) : auth.tree.encode = rlpEncodeList
    (rlpPutU256 auth.chainId ++ rlpEncodeBytes (addrBytes auth.addr) ++
      rlpEncodeWord auth.nonce.toNat ++ rlpEncodeWord auth.yParity.toNat ++ rlpPutU256 auth.r ++
      rlpPutU256 auth.s) := by
  simp [Auth.tree, RlpTree.encode, encodeAll, u256Tree_encode, wordTree_encode]

theorem Auth.toNat_payloadLen (hlt : auth.tree.encode.length < 2 ^ 64) :
    (authPayloadLen auth).toNat = (rlpPutU256 auth.chainId ++
      rlpEncodeBytes (addrBytes auth.addr) ++ rlpEncodeWord auth.nonce.toNat ++
      rlpEncodeWord auth.yParity.toNat ++ rlpPutU256 auth.r ++ rlpPutU256 auth.s).length := by
  have hnum : (21 : Word).toNat = 21 := rfl
  rw [Auth.encode_tree, length_rlpEncodeList] at hlt
  simp only [List.length_append, length_putAddress] at hlt ⊢
  simp only [authPayloadLen, BitVec.toNat_add, toNat_txU256EncodedLen, toNat_rlpWordEncodedLen,
    hnum]
  omega

theorem txPutAuthorization_eq (hlt : auth.tree.encode.length < 2 ^ 64) :
    txPutAuthorization auth = auth.tree.encode := by
  rw [Auth.encode_tree, txPutAuthorization, Auth.toNat_payloadLen hlt]
  simp only [rlpEncodeList, List.append_assoc]

theorem toNat_authListPayloadLen {recs : List Auth}
    (hlt : (encodeAll (recs.map Auth.tree)).length < 2 ^ 64) :
    (authListPayloadLen recs).toNat = (encodeAll (recs.map Auth.tree)).length := by
  rw [length_encodeAll_map] at hlt ⊢
  refine toNat_foldl_len (fun total auth h => ?_) hlt
  have hfits : auth.tree.encode.length < 2 ^ 64 := by omega
  have hpayload := Auth.toNat_payloadLen hfits
  rw [Auth.encode_tree] at h ⊢
  exact toNat_listLen total hpayload h

theorem txPutAuthorizations_eq {recs : List Auth}
    (hlt : (encodeAll (recs.map Auth.tree)).length < 2 ^ 64) :
    txPutAuthorizations recs = rlpEncodeList (encodeAll (recs.map Auth.tree)) := by
  have hbody : recs.flatMap txPutAuthorization = encodeAll (recs.map Auth.tree) := by
    rw [encodeAll_map, List.flatMap_def, List.flatMap_def]
    refine congrArg List.flatten (List.map_congr_left fun auth ha => txPutAuthorization_eq ?_)
    exact Nat.lt_of_le_of_lt (Mpt.encode_mem_length_le (List.mem_map_of_mem ha)) hlt
  rw [txPutAuthorizations, toNat_authListPayloadLen hlt, hbody]
  rfl

/-! ## Transactions -/

theorem toTree_encode (dest : Option Address) : (toTree dest).encode = txPutTo dest := by
  cases dest with
  | none => rfl
  | some a => rfl

theorem tailItems_encode (tx : Tx) (mode : TxMode) :
    encodeAll (tx.tailItems mode) = txTail tx mode := by
  cases mode with
  | full => simp [Tx.tailItems, txTail, encodeAll, u256Tree_encode]
  | unsigned => rfl
  | chained chainId =>
    simp only [Tx.tailItems, txTail, encodeAll, wordTree_encode]
    rfl

/-- The length of what is in a transaction besides numbers and addresses. -/
def Tx.extent (tx : Tx) : Nat :=
  tx.data.length + (encodeAll (tx.accessList.map Access.tree)).length +
    (encodeAll (tx.authorizations.map Auth.tree)).length +
    (encodeAll (tx.blobHashes.map hashTree)).length

theorem Tx.lists_lt {n : Nat} (h : tx.extent < n) :
    (encodeAll (tx.accessList.map Access.tree)).length < n ∧
      (encodeAll (tx.authorizations.map Auth.tree)).length < n ∧
      (encodeAll (tx.blobHashes.map hashTree)).length < n := by
  unfold Tx.extent at h
  omega

theorem txPayload_eq (h : tx.extent < 2 ^ 64) : txPayload tx mode = encodeAll (tx.items mode) := by
  obtain ⟨haccess, hauth, hblob⟩ := Tx.lists_lt h
  have haccess := txPutAccessList_eq haccess
  have hauth := txPutAuthorizations_eq hauth
  have hblob := txPutBlobHashes_eq hblob
  cases htype : tx.type <;>
    simp [txPayload, Tx.items, Tx.signedItems, chainItems, feeItems, accessItems, blobItems,
      authItems, htype, TxType.num, encodeAll, u256Tree_encode,
      wordTree_encode, toTree_encode, tailItems_encode, RlpTree.encode, haccess, hblob, hauth]

/-- **The encoding is canonical.** It is the byte of the type and the RLP of the fields. -/
theorem txEncodeGeneric_eq (h : tx.extent < 2 ^ 64) :
    txEncodeGeneric tx mode = tx.type.head ++ (RlpTree.list (tx.items mode)).encode := by
  rw [txEncodeGeneric, txPayload_eq h, List.append_assoc]
  rfl

/-! ## The buffer -/

theorem length_rlpListHeader_le {n : Nat} (h : n < 2 ^ 64) :
    (rlpEncodeListHeader n).length ≤ 9 := by
  have hlen : (rlpEncodeListHeader n).length = _ := length_rlpWriteHeader 192 n
  have hle : rlpBeLen n ≤ 8 := rlpBeLen_le (Nat.lt_of_lt_of_eq h (by decide))
  rw [hlen]
  split <;> omega

theorem length_rlpPutWord_le (w : Word) : (rlpEncodeWord w.toNat).length ≤ 9 := by
  have hle : rlpBeLen w.toNat ≤ 8 := rlpBeLen_le w.isLt
  rw [length_rlpEncodeWord]
  split <;> omega

theorem length_putU256_le (v : U256) : (rlpPutU256 v).length ≤ 33 := by
  have hle : rlpBeLen v.toNat ≤ 32 := rlpBeLen_le (Nat.lt_of_lt_of_eq v.isLt (by decide))
  rw [rlpPutU256, length_rlpEncodeBytes_rlpBe (by omega)]
  split <;> omega

theorem toNat_txEncodeBound (h : tx.extent < 2 ^ 63) :
    (txEncodeBound tx).toNat = tx.extent + 655 := by
  obtain ⟨haccess, hauth, hblob⟩ := Tx.lists_lt (show tx.extent < 2 ^ 64 by omega)
  unfold Tx.extent at h ⊢
  have hnum : (64 + 17 * 33 + 30 : Word).toNat = 655 := rfl
  unfold txEncodeBound
  rw [BitVec.toNat_add, BitVec.toNat_add, BitVec.toNat_add, BitVec.toNat_add, hnum,
    BitVec.toNat_ofNat, toNat_accessListPayloadLen haccess, toNat_authListPayloadLen hauth,
    toNat_blobHashesLen hblob]
  omega

theorem length_txTail_le (tx : Tx) (mode : TxMode) : (txTail tx mode).length ≤ 99 := by
  cases mode with
  | full =>
    have hv := length_putU256_le tx.v
    have hr := length_putU256_le tx.r
    have hs := length_putU256_le tx.s
    rw [txTail, List.length_append, List.length_append]
    omega
  | unsigned => exact Nat.zero_le 99
  | chained chainId =>
    have hid := length_rlpPutWord_le chainId
    rw [txTail, List.length_append]
    exact Nat.le_trans (Nat.add_le_add_right hid 2) (by decide)

theorem length_txPutTo_le (dest : Option Address) : (txPutTo dest).length ≤ 21 := by
  cases dest with
  | none => decide
  | some a => exact Nat.le_of_eq (length_putAddress a)

theorem length_list_le {payload : Bytes} (h : payload.length < 2 ^ 64) :
    (rlpEncodeList payload).length ≤ payload.length + 9 := by
  have hhead := length_rlpListHeader_le h
  rw [length_rlpEncodeList]
  omega

/-- **The buffer is large enough.** Ten bytes are left for the header and the byte of the type. -/
theorem txPayload_in_bound (h : tx.extent < 2 ^ 63) (mode : TxMode) :
    (txPayload tx mode).length + 10 ≤ (txEncodeBound tx).toNat ∧
      (rlpEncodeListHeader (txPayload tx mode).length).length ≤ 9 := by
  have hbound := toNat_txEncodeBound h
  obtain ⟨haccess, hauth, hblob⟩ := Tx.lists_lt (show tx.extent < 2 ^ 64 by omega)
  have haccess := (txPutAccessList_eq haccess).symm ▸ length_list_le haccess
  have hauth := (txPutAuthorizations_eq hauth).symm ▸ length_list_le hauth
  have hblob := (txPutBlobHashes_eq hblob).symm ▸ length_list_le hblob
  unfold Tx.extent at h hbound
  have hlen : (txPayload tx mode).length ≤ tx.data.length +
      (encodeAll (tx.accessList.map Access.tree)).length +
      (encodeAll (tx.authorizations.map Auth.tree)).length +
      (encodeAll (tx.blobHashes.map hashTree)).length + 400 := by
    have hchain := length_rlpPutWord_le tx.chainId
    have hnonce := length_putU256_le tx.nonce
    have hprice := length_putU256_le tx.gasPrice
    have hpriority := length_putU256_le tx.maxPriorityFee
    have hfee := length_putU256_le tx.maxFee
    have hgas := length_rlpPutWord_le tx.gas
    have hto := length_txPutTo_le tx.toAddr
    have hvalue := length_putU256_le tx.value
    have hdata := length_rlpEncodeBytes_le tx.data (by omega)
    have hblobFee := length_putU256_le tx.maxFeePerBlobGas
    have htail := length_txTail_le tx mode
    unfold txPayload
    simp only [List.length_append]
    split <;> split <;> split <;> split <;>
      simp only [List.length_append, List.length_nil] <;> omega
  exact ⟨by omega, length_rlpListHeader_le (by omega)⟩

/-! ## A transaction -/

/-- A transaction with an access list, which is empty. -/
def smallTx : Tx where
  type := .accessList
  chainId := 1
  nonce := 0
  gasPrice := 10
  maxPriorityFee := 0
  maxFee := 0
  gas := 21000
  toAddr := some 3
  value := 1
  data := [200]
  accessList := []
  maxFeePerBlobGas := 0
  blobHashes := []
  authorizations := []
  v := 1
  r := 5
  s := 6
  raw := [1, 226, 1, 128, 10, 130, 82, 8, 148, 0, 0, 0, 0, 0, 0, 0, 0, 0, 0, 0, 0, 0, 0, 0, 0, 0, 0,
    0, 3, 1, 129, 200, 192, 1, 5, 6]

theorem txPayload_in_bound_small : (txPayload smallTx .full).length + 10 ≤
      (txEncodeBound smallTx).toNat ∧
    (rlpEncodeListHeader (txPayload smallTx .full).length).length ≤ 9 :=
  txPayload_in_bound (by decide) .full

end StatelessGuest
