import StatelessGuest.Block.Receipt
import StatelessGuest.Mpt.Witness

/-!
# Decoding transactions

A transaction is an RLP list, behind a byte for its type unless it is a legacy one. The decoder
takes the fields one after the other, each with its own checks.

* `Tx`: the record, one layout for all types.
* `txScalarItem`, `txFixedBytes`, `txToItem`, `txListItem`: the field decoders.
* `decodeTransaction`: the code.
-/

namespace StatelessGuest

open Mpt (sliceAt rlpSlices)

/-! ## Records -/

/-- The types of transactions (`TX_TYPE`). -/
inductive TxType where
  | legacy
  | accessList
  | feeMarket
  | blob
  | setCode
  deriving DecidableEq, Repr

/-- The number of a type. -/
def TxType.num : TxType → Nat
  | .legacy => 0
  | .accessList => 1
  | .feeMarket => 2
  | .blob => 3
  | .setCode => 4

/-- An entry of an access list (`ACC_*`). -/
structure Access where
  addr : Address
  slots : List Hash
  deriving DecidableEq

/-- A transaction (`TX_*`). A field that the type does not have is zero or empty. -/
structure Tx where
  type : TxType
  chainId : Word
  nonce : U256
  gasPrice : U256
  maxPriorityFee : U256
  maxFee : U256
  gas : Word
  toAddr : Option Address
  value : U256
  data : Bytes
  accessList : List Access
  maxFeePerBlobGas : U256
  blobHashes : List Hash
  authorizations : List Auth
  v : U256
  r : U256
  s : U256
  raw : Bytes
  deriving DecidableEq

/-! ## Fields -/

/-- An integer: a string without a leading zero, of at most `maxb` bytes unless `maxb` is zero. -/
def txScalarItem (item : Bytes) (maxb : Nat) : Except Exn Bytes := do
  let it ← rlpItem item
  if it.isList then .error (.tx 10)
  else if (it.payloadOf item).head? = some 0 then .error (.tx 11)
  else if maxb ≠ 0 ∧ maxb < it.payload then .error (.tx 12)
  else .ok (it.payloadOf item)

def txScalarU256 (item : Bytes) (maxb : Nat) : Except Exn U256 := do
  let f ← txScalarItem item maxb
  if 32 < f.length then .error (.tx 13) else .ok (u256FromBe f)

def txScalarWord (item : Bytes) (maxb envcode : Nat) : Except Exn Word := do
  let f ← txScalarItem item maxb
  if 8 < f.length then .error (.tx envcode)
  else .ok (f.foldl (fun v b => v <<< 8 ||| BitVec.ofNat 64 b.toNat) 0)

def txBytesItem (item : Bytes) : Except Exn Bytes := do
  let it ← rlpItem item
  if it.isList then .error (.tx 15) else .ok (it.payloadOf item)

def txFixedBytes (item : Bytes) (width : Nat) : Except Exn Bytes := do
  let it ← rlpItem item
  if it.isList then .error (.tx 15)
  else if it.payload ≠ width then .error (.tx 16)
  else .ok (it.payloadOf item)

def txAddress (item : Bytes) : Except Exn Address := do
  return BitVec.ofNat 160 (beNat (← txFixedBytes item 20))

def txHash (item : Bytes) : Except Exn Hash := do
  return BitVec.ofNat 256 (beNat (← txFixedBytes item 32))

/-- The receiver; there is none when a contract is created. -/
def txToItem (item : Bytes) : Except Exn (Option Address) := do
  let it ← rlpItem item
  if it.isList then .error (.tx 17)
  else if it.payload = 0 then .ok none
  else if it.payload ≠ 20 then .error (.tx 17)
  else .ok (some (BitVec.ofNat 160 (beNat (it.payloadOf item))))

/-- The payload of a list. -/
def txListItem (item : Bytes) : Except Exn Bytes := do
  let it ← rlpItem item
  if it.isList then .ok (it.payloadOf item) else .error (.tx 18)

/-- The items of a list of `n` items. -/
def txRecord (item : Bytes) (n code : Nat) : Except Exn (List Bytes) := do
  let it ← rlpItem item
  if it.isList then do
    let ent ← rlpSlices (it.payloadOf item)
    if ent.length ≠ n then .error (.tx code) else .ok ent
  else .error (.tx code)

def decodeAccess (item : Bytes) : Except Exn Access := do
  let ent ← txRecord item 2 19
  let addr ← txAddress (sliceAt ent 0)
  let slots ← rlpSlices (← txListItem (sliceAt ent 1))
  return ⟨addr, ← slots.mapM txHash⟩

def decodeAccessList (payload : Bytes) : Except Exn (List Access) := do
  (← rlpSlices payload).mapM decodeAccess

def decodeBlobHashes (payload : Bytes) : Except Exn (List Hash) := do
  (← rlpSlices payload).mapM txHash

def decodeAuthorization (item : Bytes) : Except Exn Auth := do
  let ent ← txRecord item 6 20
  let cid ← txScalarU256 (sliceAt ent 0) 32
  let addr ← txAddress (sliceAt ent 1)
  let nonce ← txScalarWord (sliceAt ent 2) 8 12
  let yParity ← txScalarWord (sliceAt ent 3) 1 12
  let r ← txScalarU256 (sliceAt ent 4) 32
  let s ← txScalarU256 (sliceAt ent 5) 32
  return ⟨cid, addr, nonce, yParity, r, s⟩

def decodeAuthorizations (payload : Bytes) : Except Exn (List Auth) := do
  (← rlpSlices payload).mapM decodeAuthorization

/-! ## Transactions -/

/-- The number of fields. -/
def TxType.fields : TxType → Nat
  | .legacy => 9
  | .accessList => 11
  | .feeMarket => 12
  | .blob => 14
  | .setCode => 13

/-- The type that an envelope has by its first byte. -/
def TxType.ofByte (b0 : UInt8) : Option TxType :=
  if b0 = 1 then some .accessList
  else if b0 = 2 then some .feeMarket
  else if b0 = 3 then some .blob
  else if b0 = 4 then some .setCode
  else if 192 ≤ b0 ∧ b0 ≤ 254 then some .legacy
  else none

/-- The RLP of an envelope. -/
def TxType.body (t : TxType) (bs : Bytes) : Bytes := if t = .legacy then bs else bs.tail

def decodeChainId (t : TxType) (arr : List Bytes) : Except Exn Word :=
  if t = .legacy then .ok 0 else txScalarWord (sliceAt arr 0) 8 12

/-- The nonce of a transaction that sets code is a word. -/
def decodeNonce (t : TxType) (item : Bytes) : Except Exn U256 :=
  if t = .setCode then do
    return u256FromWord (← txScalarWord item 8 12)
  else txScalarU256 item 32

/-- The gas price, or the priority fee and the whole fee. -/
def decodeFees (t : TxType) (arr : List Bytes) (k : Nat) : Except Exn (U256 × U256 × U256) :=
  if t.num ≤ 1 then do
    return (← txScalarU256 (sliceAt arr k) 0, 0, 0)
  else do
    let priority ← txScalarU256 (sliceAt arr k) 0
    let fee ← txScalarU256 (sliceAt arr (k + 1)) 0
    return (0, priority, fee)

def decodeTo (t : TxType) (item : Bytes) : Except Exn (Option Address) :=
  if 3 ≤ t.num then do
    return some (← txAddress item)
  else txToItem item

def decodeAccesses (t : TxType) (arr : List Bytes) (k : Nat) : Except Exn (List Access) :=
  if t = .legacy then .ok [] else do
    decodeAccessList (← txListItem (sliceAt arr k))

def decodeBlobs (t : TxType) (arr : List Bytes) (k : Nat) : Except Exn (U256 × List Hash) :=
  if t = .blob then do
    let fee ← txScalarU256 (sliceAt arr k) 32
    let hashes ← decodeBlobHashes (← txListItem (sliceAt arr (k + 1)))
    return (fee, hashes)
  else .ok (0, [])

def decodeAuths (t : TxType) (arr : List Bytes) (k : Nat) : Except Exn (List Auth) :=
  if t = .setCode then do
    decodeAuthorizations (← txListItem (sliceAt arr k))
  else .ok []

/-- The fields in turn, `k` is the place of the next one. -/
def decodeTxFields (t : TxType) (arr : List Bytes) (raw : Bytes) : Except Exn Tx := do
  let chainId ← decodeChainId t arr
  let k := if t = .legacy then 0 else 1
  let nonce ← decodeNonce t (sliceAt arr k)
  let k := k + 1
  let fees ← decodeFees t arr k
  let k := k + if t.num ≤ 1 then 1 else 2
  let gas ← txScalarWord (sliceAt arr k) 0 14
  let toAddr ← decodeTo t (sliceAt arr (k + 1))
  let value ← txScalarU256 (sliceAt arr (k + 2)) 32
  let data ← txBytesItem (sliceAt arr (k + 3))
  let k := k + 4
  let accesses ← decodeAccesses t arr k
  let k := k + if t = .legacy then 0 else 1
  let blobs ← decodeBlobs t arr k
  let k := k + if t = .blob then 2 else 0
  let auths ← decodeAuths t arr k
  let k := k + if t = .setCode then 1 else 0
  let v ← txScalarU256 (sliceAt arr k) 32
  let r ← txScalarU256 (sliceAt arr (k + 1)) 32
  let s ← txScalarU256 (sliceAt arr (k + 2)) 32
  return ⟨t, chainId, nonce, fees.1, fees.2.1, fees.2.2, gas, toAddr, value, data, accesses,
    blobs.1, blobs.2, auths, v, r, s, raw⟩

def decodeTransactionRlp (bs : Bytes) : Except Exn Tx :=
  match bs.head? with
  | none => .error (.tx 1)
  | some b0 =>
    match TxType.ofByte b0 with
    | none => .error (.tx 2)
    | some t => do
      let top ← rlpDecodeFully (t.body bs)
      if top.isList then do
        let arr ← rlpSlices (top.payloadOf (t.body bs))
        if arr.length ≠ t.fields then .error (.tx 4) else decodeTxFields t arr bs
      else .error (.tx 3)

/-- The errors of the RLP decoder are those of the transaction. -/
def decodeTransaction (bs : Bytes) : Except Exn Tx :=
  match decodeTransactionRlp bs with
  | .error (.rlp code) => .error (.tx (100 + code))
  | r => r

end StatelessGuest
