import StatelessGuest.Evm.Arith
import StatelessGuest.Rlp.Slices

/-!
# Decoded block headers

A header is a list of 21 fields, or of 23 in the current fork. Strings stay where they are in the
input, scalars become words and 256-bit integers; a wider scalar is rejected.

* `decodeHeader`: the decoder; its errors are `hdr` and those of the RLP decoder.
* `HeaderRecord.items`: the fields in the order in which they are encoded.
-/

namespace StatelessGuest

open Lib

/-- A decoded header (`HDR_*`). Strings are given by their address. -/
structure HeaderRecord where
  isCurrent : Bool
  parentHash : Word
  ommersHash : Word
  coinbase : Word
  stateRoot : Word
  txRoot : Word
  receiptRoot : Word
  bloom : Word
  difficulty : U256
  number : Word
  gasLimit : Word
  gasUsed : Word
  timestamp : Word
  extra : Word
  extraN : Word
  prevRandao : Word
  nonce : Word
  baseFee : U256
  withdrawalsRoot : Word
  blobGasUsed : Word
  excessBlobGas : Word
  pbbr : Word
  requestsHash : Word
  balHash : Word
  slot : Word
  deriving DecidableEq

/-! ## Field readers -/

section

variable [Stray] (b : Buffer)

/-- The big-endian bytes at `p` as a word. -/
def hdrReadWord (p n : Word) : RlpM Word :=
  (List.range n.toNat).foldlM (fun v i => do
    let x ← ld8 b (p + BitVec.ofNat 64 i)
    return (v <<< 8) ||| x) 0

/-- The big-endian bytes at `p` as a 256-bit integer. -/
def u256FromBeAt (p n : Word) : RlpM U256 :=
  (List.range n.toNat).foldlM (fun v i => do
    let x ← ld8 b (p + BitVec.ofNat 64 i)
    return (v <<< 8) ||| x.setWidth 256) 0

variable (arr : List (Word × Word))

def slicePtr (i : Nat) : Word := (arr.getD i (0, 0)).1

def sliceLen (i : Nat) : Word := (arr.getD i (0, 0)).2

/-- The first byte of a string; an empty one has no leading zero. -/
def hdrFirstByte (it : ItemAt) : RlpM Word := if it.length ≠ 0 then ld8 b it.payload else return 1

/-- A string without a leading zero, of at most `maxb` bytes unless that is zero. -/
def hdrUintField (i : Nat) (maxb : Word) : RlpM (Word × Word) := do
  let it ← rlpItemAt b (slicePtr arr i) (sliceLen arr i)
  if it.isList then throw (.hdr 1)
  else do
    let first ← hdrFirstByte b it
    if first = 0 then throw (.hdr 2)
    else if maxb ≠ 0 ∧ maxb < it.length then throw (.hdr 3)
    else return (it.payload, it.length)

def hdrWordField (i : Nat) : RlpM Word := do
  let f ← hdrUintField b arr i 0
  if 8 < f.2 then throw (.hdr 4) else hdrReadWord b f.1 f.2

def hdrU256Field (i : Nat) (maxb : Word) : RlpM U256 := do
  let f ← hdrUintField b arr i maxb
  if 32 < f.2 then throw (.hdr 5) else u256FromBeAt b f.1 f.2

def hdrBytesField (i : Nat) (width : Word) : RlpM Word := do
  let it ← rlpItemAt b (slicePtr arr i) (sliceLen arr i)
  if it.isList then throw (.hdr 6)
  else if it.length ≠ width then throw (.hdr 7)
  else return it.payload

def hdrRawField (i : Nat) : RlpM (Word × Word) := do
  let it ← rlpItemAt b (slicePtr arr i) (sliceLen arr i)
  if it.isList then throw (.hdr 8) else return (it.payload, it.length)

/-- The timestamp is 256 bits wide in the protocol and a word here. -/
def hdrTimestampField (i : Nat) : RlpM Word := do
  let f ← hdrUintField b arr i 32
  if 8 < f.2 then throw (.hdr 12) else hdrWordField b arr i

/-- A word whose width is checked before it is read. -/
def hdrWord8Field (i : Nat) : RlpM Word := do
  let _ ← hdrUintField b arr i 8
  hdrWordField b arr i

end

/-! ## The decoder -/

/-- The fields behind the common ones, which only a header of the current fork has. -/
def decodeCurrentFields [Stray] (b : Buffer) (arr : List (Word × Word)) (isCurrent : Bool) :
    RlpM (Word × Word) :=
  if isCurrent then do
    let balHash ← hdrBytesField b arr 21 32
    let slot ← hdrWord8Field b arr 22
    return (balHash, slot)
  else return (0, 0)

def decodeFields [Stray] (b : Buffer) (arr : List (Word × Word)) (isCurrent : Bool) :
    RlpM HeaderRecord := do
  let parentHash ← hdrBytesField b arr 0 32
  let ommersHash ← hdrBytesField b arr 1 32
  let coinbase ← hdrBytesField b arr 2 20
  let stateRoot ← hdrBytesField b arr 3 32
  let txRoot ← hdrBytesField b arr 4 32
  let receiptRoot ← hdrBytesField b arr 5 32
  let bloom ← hdrBytesField b arr 6 256
  let difficulty ← hdrU256Field b arr 7 0
  let number ← hdrWordField b arr 8
  let gasLimit ← hdrWordField b arr 9
  let gasUsed ← hdrWordField b arr 10
  let timestamp ← hdrTimestampField b arr 11
  let ex ← hdrRawField b arr 12
  let prevRandao ← hdrBytesField b arr 13 32
  let nonce ← hdrBytesField b arr 14 8
  let baseFee ← hdrU256Field b arr 15 0
  let withdrawalsRoot ← hdrBytesField b arr 16 32
  let blobGasUsed ← hdrWord8Field b arr 17
  let excessBlobGas ← hdrWord8Field b arr 18
  let pbbr ← hdrBytesField b arr 19 32
  let requestsHash ← hdrBytesField b arr 20 32
  let current ← decodeCurrentFields b arr isCurrent
  return {
    isCurrent, parentHash, ommersHash, coinbase, stateRoot, txRoot, receiptRoot, bloom,
    difficulty, number, gasLimit, gasUsed, timestamp, extra := ex.1, extraN := ex.2, prevRandao,
    nonce, baseFee, withdrawalsRoot, blobGasUsed, excessBlobGas, pbbr, requestsHash,
    balHash := current.1, slot := current.2 }

def decodeHeader [Stray] (b : Buffer) (p len : Word) : RlpM HeaderRecord := do
  let top ← rlpDecodeFullyAt b p len
  if top.isList = false then throw (.hdr 10)
  else do
    let arr ← rlpListToSlices b top.payload top.length
    if arr.length = 23 then decodeFields b arr true
    else if arr.length ≠ 21 then throw (.hdr 11)
    else decodeFields b arr false

/-! ## Encodings of the fields -/

/-- A field as it is encoded: a string at an address, a word or an integer. -/
inductive HeaderItem where
  | bytes (p n : Word)
  | word (w : Word)
  | u256 (v : U256)

/-- The encoding of a field, when `read p n` are the bytes at `p`. -/
def HeaderItem.enc (read : Word → Word → Bytes) : HeaderItem → Bytes
  | .bytes p n => rlpEncodeBytes (read p n)
  | .word w => rlpEncodeWord w.toNat
  | .u256 v => rlpPutU256 v

namespace HeaderRecord

variable (h : HeaderRecord)

/-- The fields before the base fee. -/
def itemsBefore : List HeaderItem :=
  [.bytes h.parentHash 32, .bytes h.ommersHash 32, .bytes h.coinbase 20, .bytes h.stateRoot 32,
    .bytes h.txRoot 32, .bytes h.receiptRoot 32, .bytes h.bloom 256, .u256 h.difficulty,
    .word h.number, .word h.gasLimit, .word h.gasUsed, .word h.timestamp,
    .bytes h.extra h.extraN, .bytes h.prevRandao 32, .bytes h.nonce 8]

/-- The fields behind the base fee. -/
def itemsAfter : List HeaderItem :=
  [.bytes h.withdrawalsRoot 32, .word h.blobGasUsed, .word h.excessBlobGas, .bytes h.pbbr 32,
    .bytes h.requestsHash 32] ++
  if h.isCurrent then [.bytes h.balHash 32, .word h.slot] else []

def items : List HeaderItem := h.itemsBefore ++ .u256 h.baseFee :: h.itemsAfter

/-- The fields one after the other. -/
def payload (read : Word → Word → Bytes) : Bytes := (h.items.map (HeaderItem.enc read)).flatten

/-- The canonical encoding of a header. -/
def encoding (read : Word → Word → Bytes) : Bytes := rlpEncodeList (h.payload read)

end HeaderRecord

end StatelessGuest
