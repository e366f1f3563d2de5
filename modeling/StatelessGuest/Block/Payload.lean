import StatelessGuest.Block.StateRoot
import StatelessGuest.Block.Withdrawal
import StatelessGuest.Header.Validate
import StatelessGuest.Lib.Triple

/-!
# The header of a payload and the size of its block

The header is put together from the payload. Its four roots are buffers that are filled last, after
the size of the whole block has been computed and checked.

* `payloadHeader`: `headerFields`, then the check with `blockRlpLength`, then `fillRoots`.
* `blockEncoding`: the header, the transactions, no ommers and the withdrawals.
* `block_size_exact`: the length that is checked is that of the encoding with the final header.
-/

namespace StatelessGuest

open Lib Ram

/-! ## Payloads -/

/-- A decoded payload (`PL_*`). Strings are given by their address. -/
structure Payload where
  raw : Nat
  extra : Nat
  extraN : Nat
  txs : List (Nat × Nat)
  wd : Nat
  wdN : Nat
  bal : Nat
  balN : Nat
  number : Word
  gasLimit : Word
  gasUsed : Word
  timestamp : Word
  blobGasUsed : Word
  excessBlobGas : Word
  slot : Word

/-- What the header is built from (`SI_*`); a list of requests is an address and a count. -/
structure PayloadInput where
  pl : Payload
  pbbr : Nat
  deposits : Nat × Nat
  withdrawalRequests : Nat × Nat
  consolidations : Nat × Nat
  builderDeposits : Nat × Nat
  builderExits : Nat × Nat

/-- Tries that can be built anew. Their operations fail with the errors of the trie module. -/
structure NewTries extends Tries where
  new : Trie
  setFails : ∀ {t : Trie} {k v : Bytes} {e : Exn}, set t k v = .error e → ∀ c, e ≠ .block c
  rootFails : ∀ {t : Trie} {e : Exn}, root t = .error e → ∀ c, e ≠ .block c

def maxRlpBlockSize : Word := 8388608

/-! ## The size -/

def txFirstByte (tx : Nat × Nat) : RamM Nat := if tx.2 ≠ 0 then Ram.ld8 tx.1 else return 0

/-- A legacy transaction is embedded as it is, a typed one as a string. -/
def txRlpLen (tx : Nat × Nat) : RamM Word := do
  let fb ← txFirstByte tx
  if tx.2 = 0 ∨ fb < 192 then
    return rlpBytesEncodedLen (BitVec.ofNat 64 fb) (BitVec.ofNat 64 tx.2)
  else return BitVec.ofNat 64 tx.2

/-- What `f` returns is added to the total. -/
def sumM {α : Type} (f : α → RamM Word) : List α → Word → RamM Word
  | [], total => return total
  | x :: xs, total => do
    let n ← f x
    sumM f xs (total + n)

def withdrawalPlaces (pl : Payload) : List Nat := (List.range pl.wdN).map fun i => pl.wd + i * 44

def blockRlpLength (hdr : HeaderRecord) (pl : Payload) : RamM Word := do
  let mark ← heapMark
  let he ← encodeHeader hdr
  heapRelease mark
  let total := BitVec.ofNat 64 he.2
  let tl ← sumM txRlpLen pl.txs 0
  let total := total + rlpListHeaderLen tl + tl
  let total := total + 1
  let wl ← sumM withdrawalRlpLen (withdrawalPlaces pl) 0
  let total := total + rlpListHeaderLen wl + wl
  return total + rlpListHeaderLen total

/-! ## The roots -/

/-- `build_mpt_indexed`: the trie from the encoded indices to the values. -/
def indexedRoot (tries : NewTries) (values : List Bytes) : Except Exn Hash := do
  let t ← values.zipIdx.foldlM (fun t v => tries.set t (rlpEncodeWord v.2) v.1) tries.new
  tries.root t

def buildMptIndexed (tries : NewTries) (slices : List (Nat × Nat)) (out : Nat) : RamM Unit := do
  let mark ← heapMark
  let s ← get
  let root ← liftRam (indexedRoot tries (slices.map fun slice => s.bytes.load slice.1 slice.2))
  modify fun s => s.put out (hashBytes root)
  heapRelease mark

def encodeWithdrawals : List Nat → RamM (List (Nat × Nat))
  | [] => return []
  | wd :: wds => do
    let e ← encodeWithdrawalRlp wd
    let es ← encodeWithdrawals wds
    return e :: es

/-- A list of requests behind its type, unless it is empty. -/
def encodeRequests (type size : Nat) (list : Nat × Nat) : RamM (List (Nat × Nat)) :=
  if list.2 ≠ 0 then do
    let blob ← alloc (list.2 * size + 8)
    st8 blob type
    Ram.memcpy (blob + 1) list.1 (list.2 * size)
    return [(blob, list.2 * size + 1)]
  else return []

/-- The size of an element and the list, for every type of request. -/
def PayloadInput.requests (si : PayloadInput) : List (Nat × Nat × Nat) :=
  [(192, si.deposits), (76, si.withdrawalRequests), (116, si.consolidations),
    (184, si.builderDeposits), (68, si.builderExits)]

def encodeAllRequests : List (Nat × Nat × Nat) → Nat → RamM (List (Nat × Nat))
  | [], _ => return []
  | request :: requests, i => do
    let r ← encodeRequests i request.1 request.2
    let rs ← encodeAllRequests requests (i + 1)
    return r ++ rs

def encodeExecutionRequests (si : PayloadInput) : RamM (List (Nat × Nat)) := do
  let _ ← alloc 80
  encodeAllRequests si.requests 0

def sha256At [Sha256] (p n out : Nat) : RamM Unit :=
  modify fun s => s.put out (hashBytes (Sha256.sha256 (s.bytes.load p n)))

def computeRequestsHash [Sha256] (arr : List (Nat × Nat)) (out : Nat) : RamM Unit := do
  let mark ← heapMark
  let cat ← alloc (arr.length * 32 + 8)
  forM arr.zipIdx fun slice => sha256At slice.1.1 slice.1.2 (cat + slice.2 * 32)
  sha256At cat (arr.length * 32) out
  heapRelease mark

/-- The roots go to the buffers that the header points to; the encoded withdrawals are kept. -/
def fillRoots [Keccak] [Sha256] (tries : NewTries) (si : PayloadInput) (h : HeaderRecord) :
    RamM (List (Nat × Nat)) := do
  buildMptIndexed tries si.pl.txs h.txRoot.toNat
  let _ ← alloc (si.pl.wdN * 16 + 16)
  let wdRlpSlices ← encodeWithdrawals (withdrawalPlaces si.pl)
  buildMptIndexed tries wdRlpSlices h.withdrawalsRoot.toNat
  let reqs ← encodeExecutionRequests si
  computeRequestsHash reqs h.requestsHash.toNat
  keccakAt si.pl.bal si.pl.balN h.balHash.toNat
  return wdRlpSlices

/-! ## The header -/

/-- Four little-endian words, the lowest one first. -/
def ldLe256 (p : Nat) : RamM U256 := do
  let w₀ ← ldLe64 p
  let w₁ ← ldLe64 (p + 8)
  let w₂ ← ldLe64 (p + 16)
  let w₃ ← ldLe64 (p + 24)
  return w₃ ++ w₂ ++ w₁ ++ w₀

/-- The header, its roots not filled in. -/
def headerFields [Keccak] (si : PayloadInput) : RamM HeaderRecord := do
  let pl := si.pl
  let h ← alloc 248
  Ram.memzero h 248
  let oh ← alloc 32
  let tmp ← alloc 8
  st8 tmp 192
  keccakAt tmp 1 oh
  let txr ← alloc 32
  let z8 ← alloc 8
  Ram.memzero z8 8
  let baseFee ← ldLe256 (pl.raw + 440)
  let wr ← alloc 32
  let rh ← alloc 32
  let bh ← alloc 32
  return {
    isCurrent := true
    parentHash := BitVec.ofNat 64 pl.raw
    ommersHash := BitVec.ofNat 64 oh
    coinbase := BitVec.ofNat 64 (pl.raw + 32)
    stateRoot := BitVec.ofNat 64 (pl.raw + 52)
    txRoot := BitVec.ofNat 64 txr
    receiptRoot := BitVec.ofNat 64 (pl.raw + 84)
    bloom := BitVec.ofNat 64 (pl.raw + 116)
    difficulty := 0
    number := pl.number
    gasLimit := pl.gasLimit
    gasUsed := pl.gasUsed
    timestamp := pl.timestamp
    extra := BitVec.ofNat 64 pl.extra
    extraN := BitVec.ofNat 64 pl.extraN
    prevRandao := BitVec.ofNat 64 (pl.raw + 372)
    nonce := BitVec.ofNat 64 z8
    baseFee := baseFee
    withdrawalsRoot := BitVec.ofNat 64 wr
    blobGasUsed := pl.blobGasUsed
    excessBlobGas := pl.excessBlobGas
    pbbr := BitVec.ofNat 64 si.pbbr
    requestsHash := BitVec.ofNat 64 rh
    balHash := BitVec.ofNat 64 bh
    slot := pl.slot }

/-- The header and the encoded withdrawals. -/
def payloadHeader [Keccak] [Sha256] (tries : NewTries) (si : PayloadInput) :
    RamM (HeaderRecord × List (Nat × Nat)) := do
  let h ← headerFields si
  let bl ← blockRlpLength h si.pl
  if maxRlpBlockSize < bl then throw (.block 7)
  else do
    let wdRlpSlices ← fillRoots tries si h
    return (h, wdRlpSlices)

/-! ## The encoding of a block -/

/-- A transaction in a block: a list as it is, anything else as a string. -/
def txItem (tx : Bytes) : Bytes := if 192 ≤ (tx.headD 0).toNat then tx else rlpEncodeBytes tx

def txsPayload (m : ByteMap) (pl : Payload) : Bytes :=
  (pl.txs.map fun tx => txItem (m.load tx.1 tx.2)).flatten

/-- The withdrawals of a payload. -/
def withdrawalTrees (m : ByteMap) (pl : Payload) : List RlpTree :=
  (withdrawalPlaces pl).map fun wd => (withdrawalAt m wd).tree

/-- The header, the transactions, no ommers and the withdrawals. -/
def blockPayload (s : Ram) (h : HeaderRecord) (pl : Payload) : Bytes :=
  h.encoding s.read ++ rlpEncodeList (txsPayload s.bytes pl) ++ rlpEncodeList [] ++
    rlpEncodeList (RlpTree.encodeAll (withdrawalTrees s.bytes pl))

/-- The canonical encoding of the block, with the header as it is in memory. -/
def blockEncoding (s : Ram) (h : HeaderRecord) (pl : Payload) : Bytes :=
  rlpEncodeList (blockPayload s h pl)

/-- The strings of a payload lie below `lo`, and so do the slices of its transactions. The length of
the extra data is checked by the decoder. -/
structure Payload.Placed (lo : Nat) (pl : Payload) : Prop where
  raw : pl.raw + 540 ≤ lo
  extra : pl.extra + pl.extraN ≤ lo
  extraN : pl.extraN ≤ 32
  txs : ∀ tx ∈ pl.txs, tx.1 + tx.2 ≤ lo
  slices : pl.txs.length * 16 ≤ lo
  wd : pl.wd + pl.wdN * 44 ≤ lo
  top : lo ≤ Ram.heapEnd

variable {s s' : Ram} {lo : Nat} {pl : Payload} {h : HeaderRecord}

theorem mem_withdrawalPlaces (hpl : pl.Placed lo) : ∀ wd ∈ withdrawalPlaces pl, wd + 44 ≤ lo := by
  intro wd hmem
  obtain ⟨i, hi, rfl⟩ := List.mem_map.mp hmem
  have hlt := List.mem_range.mp hi
  have hwd := hpl.wd
  omega

theorem txsPayload_congr {m m' : ByteMap} (hsame : ByteMap.SameBelow lo m m') (hpl : pl.Placed lo) :
    txsPayload m' pl = txsPayload m pl := by
  unfold txsPayload
  rw [List.map_congr_left fun tx hmem => by rw [hsame.load (hpl.txs tx hmem)]]

theorem withdrawalTrees_congr {m m' : ByteMap} (hsame : ByteMap.SameBelow lo m m')
    (hpl : pl.Placed lo) : withdrawalTrees m' pl = withdrawalTrees m pl := by
  unfold withdrawalTrees
  rw [List.map_congr_left fun wd hmem => by
    rw [withdrawalAt_congr hsame (mem_withdrawalPlaces hpl wd hmem)]]

/-! ## Sums of lengths -/

theorem sumM_run {α : Type} {f : α → RamM Word} {g : α → Nat} {xs : List α}
    (hf : ∀ x ∈ xs, f x s = .ok (BitVec.ofNat 64 (g x)) s) :
    sumM f xs 0 s = .ok (BitVec.ofNat 64 (xs.map g).sum) s := by
  have htotal : ∀ total : Nat, sumM f xs (BitVec.ofNat 64 total) s =
      .ok (BitVec.ofNat 64 (total + (xs.map g).sum)) s := by
    induction xs with
    | nil => exact fun total => rfl
    | cons x xs ih =>
      intro total
      rw [sumM, bind_run_ok (hf x List.mem_cons_self), ← BitVec.ofNat_add,
        ih (fun x hmem => hf x (List.mem_cons_of_mem _ hmem)), List.map_cons, List.sum_cons,
        Nat.add_assoc]
  have hrun := htotal 0
  rwa [Nat.zero_add] at hrun

theorem txRlpLen_run (s : Ram) (tx : Nat × Nat) (hlt : tx.2 < 2 ^ 64) :
    txRlpLen tx s = .ok (BitVec.ofNat 64 (txItem (s.bytes.load tx.1 tx.2)).length) s := by
  have hlen := ByteMap.length_load s.bytes tx.1 tx.2
  have hfirst : txFirstByte tx s = .ok ((s.bytes.load tx.1 tx.2).headD 0).toNat s := by
    unfold txFirstByte
    cases hn : tx.2 with
    | zero => rfl
    | succ n => rfl
  have hbyte := ((s.bytes.load tx.1 tx.2).headD 0).toNat_lt
  unfold txRlpLen txItem
  rw [bind_run_ok hfirst]
  by_cases hlegacy : 192 ≤ ((s.bytes.load tx.1 tx.2).headD 0).toNat
  · have hne : tx.2 ≠ 0 := by
      intro hzero
      rw [hzero] at hlegacy
      exact absurd hlegacy (show ¬ 192 ≤ 0 by decide)
    rw [if_neg (by omega), if_pos hlegacy, hlen]
    rfl
  · have heq : rlpBytesEncodedLen (BitVec.ofNat 64 ((s.bytes.load tx.1 tx.2).headD 0).toNat)
        (BitVec.ofNat 64 (s.bytes.load tx.1 tx.2).length) =
        BitVec.ofNat 64 (rlpEncodeBytes (s.bytes.load tx.1 tx.2)).length := by
      refine rlpBytesEncodedLen_eq (by omega) fun _ => ?_
      rw [BitVec.toNat_ofNat, Nat.mod_eq_of_lt (by omega)]
    rw [hlen] at heq
    rw [if_pos (.inr (by omega)), if_neg hlegacy, heq]
    rfl

theorem length_txItem_le (tx : Bytes) (hlt : tx.length < 2 ^ 64) :
    (txItem tx).length ≤ tx.length + 9 := by
  unfold txItem
  split
  · exact Nat.le_add_right _ _
  · exact length_rlpEncodeBytes_le tx hlt

theorem sum_le_of_forall {α : Type} {g : α → Nat} {xs : List α} {b : Nat}
    (h : ∀ x ∈ xs, g x ≤ b) : (xs.map g).sum ≤ xs.length * b := by
  induction xs with
  | nil => exact Nat.zero_le _
  | cons x xs ih =>
    have hx := h x List.mem_cons_self
    have hxs := ih fun x hmem => h x (List.mem_cons_of_mem _ hmem)
    rw [List.map_cons, List.sum_cons, List.length_cons, Nat.succ_mul]
    omega

theorem length_txsPayload (m : ByteMap) (pl : Payload) : (txsPayload m pl).length =
    (pl.txs.map fun tx => (txItem (m.load tx.1 tx.2)).length).sum := by
  unfold txsPayload
  rw [List.length_flatten, List.map_map]
  rfl

theorem length_withdrawalsPayload (m : ByteMap) (pl : Payload) :
    (RlpTree.encodeAll (withdrawalTrees m pl)).length =
      ((withdrawalPlaces pl).map fun wd => (withdrawalAt m wd).tree.encode.length).sum := by
  unfold withdrawalTrees
  rw [RlpTree.encodeAll_eq_flatten, List.length_flatten, List.map_map, List.map_map]
  rfl

/-- The transactions and the withdrawals of a payload are far below a word. -/
theorem length_txsPayload_lt (m : ByteMap) (hpl : pl.Placed lo) :
    (txsPayload m pl).length < 2 ^ 62 := by
  have hlo := lt_of_le_heapEnd hpl.top
  have hslices := hpl.slices
  have hle : ∀ tx ∈ pl.txs, (txItem (m.load tx.1 tx.2)).length ≤ 2 ^ 33 := by
    intro tx hmem
    have htx := hpl.txs tx hmem
    have hlen := ByteMap.length_load m tx.1 tx.2
    have hitem := length_txItem_le (m.load tx.1 tx.2) (by omega)
    omega
  have hsum := sum_le_of_forall hle
  rw [length_txsPayload]
  have hcount : pl.txs.length * 2 ^ 33 ≤ 2 ^ 28 * 2 ^ 33 := Nat.mul_le_mul_right _ (by omega)
  omega

theorem length_withdrawalsPayload_lt (m : ByteMap) (hpl : pl.Placed lo) :
    (RlpTree.encodeAll (withdrawalTrees m pl)).length < 2 ^ 62 := by
  have hlo := lt_of_le_heapEnd hpl.top
  have hwd := hpl.wd
  have hle : ∀ wd ∈ withdrawalPlaces pl, (withdrawalAt m wd).tree.encode.length ≤ 57 := by
    intro wd _
    have hpayload := length_withdrawalPayload_le m wd
    rw [encode_withdrawal]
    exact (length_rlpEncodeList_le _ (by omega)).trans (by omega)
  have hsum := sum_le_of_forall hle
  have hcount : (withdrawalPlaces pl).length = pl.wdN := by
    unfold withdrawalPlaces
    rw [List.length_map, List.length_range]
  rw [length_withdrawalsPayload]
  rw [hcount] at hsum
  omega

/-- A list behind what is counted already. -/
theorem word_add_list (n : Nat) {payload : Bytes} (hlt : payload.length < 2 ^ 64) :
    BitVec.ofNat 64 n + rlpListHeaderLen (BitVec.ofNat 64 payload.length) +
        BitVec.ofNat 64 payload.length =
      BitVec.ofNat 64 (n + (rlpEncodeList payload).length) := by
  rw [BitVec.ofNat_add, ← word_length_rlpEncodeList hlt, BitVec.add_assoc,
    BitVec.add_comm (rlpListHeaderLen _)]

theorem length_blockPayload (s : Ram) (h : HeaderRecord) (pl : Payload) :
    (blockPayload s h pl).length = (h.encoding s.read).length +
      (rlpEncodeList (txsPayload s.bytes pl)).length + 1 +
        (rlpEncodeList (RlpTree.encodeAll (withdrawalTrees s.bytes pl))).length := by
  have hnone : (rlpEncodeList []).length = 1 := rfl
  unfold blockPayload
  rw [List.length_append, List.length_append, List.length_append, hnone]

theorem length_blockPayload_lt (hpl : pl.Placed lo) (hh : (h.encoding s.read).length < 2 ^ 62) :
    (blockPayload s h pl).length < 2 ^ 64 - 9 := by
  have htxs := length_txsPayload_lt s.bytes hpl
  have hwds := length_withdrawalsPayload_lt s.bytes hpl
  have htxs' := length_rlpEncodeList_le (txsPayload s.bytes pl) (by omega)
  have hwds' := length_rlpEncodeList_le (RlpTree.encodeAll (withdrawalTrees s.bytes pl)) (by omega)
  rw [length_blockPayload]
  omega

/-- The length of the encoding is computed, unless the heap is full. -/
theorem blockRlpLength_run (hpl : pl.Placed lo) (hlo : lo ≤ s.heapPtr)
    (hbelow : ∀ item ∈ h.items, item.Below s.heapPtr) (hfits : h.FitsBuffer s.read)
    (hlt : (h.payload s.read).length < 2 ^ 61) :
    (∃ s', blockRlpLength h pl s = .ok (BitVec.ofNat 64 (blockEncoding s h pl).length) s' ∧
      s'.heapPtr = s.heapPtr ∧ ByteMap.SameBelow s.heapPtr s.bytes s'.bytes) ∨
      ∃ s', blockRlpLength h pl s = .error (.trap 1) s' := by
  unfold blockRlpLength
  rw [bind_run_ok (heapMark_run s)]
  rcases encodeHeader_cases hbelow hfits (by omega) with ⟨start, s₁, hrun, -, hsame⟩ | ⟨-, s₁, hrun⟩
  case inr => exact .inr ⟨s₁, bind_run_error hrun⟩
  left
  rw [bind_run_ok hrun, bind_run_ok (heapRelease_run s₁ _)]
  have hsame' : ByteMap.SameBelow lo s.bytes s₁.bytes := ByteMap.SameBelow.mono hsame hlo
  have hheader := length_rlpEncodeList_le (h.payload s.read) (by omega)
  have htotal := length_blockPayload_lt (s := s) (h := h) hpl (Nat.lt_of_le_of_lt hheader (by omega))
  have htxs := length_txsPayload_lt s.bytes hpl
  have hwds := length_withdrawalsPayload_lt s.bytes hpl
  have hlotop := lt_of_le_heapEnd hpl.top
  have htxsum : sumM txRlpLen pl.txs 0 { s₁ with heapPtr := s.heapPtr } =
      .ok (BitVec.ofNat 64 (txsPayload s.bytes pl).length) { s₁ with heapPtr := s.heapPtr } := by
    rw [← txsPayload_congr hsame' hpl, length_txsPayload]
    refine sumM_run fun tx hmem => txRlpLen_run _ tx ?_
    have htx := hpl.txs tx hmem
    omega
  have hwdsum : sumM withdrawalRlpLen (withdrawalPlaces pl) 0 { s₁ with heapPtr := s.heapPtr } =
      .ok (BitVec.ofNat 64 (RlpTree.encodeAll (withdrawalTrees s.bytes pl)).length)
        { s₁ with heapPtr := s.heapPtr } := by
    rw [← withdrawalTrees_congr hsame' hpl, length_withdrawalsPayload]
    exact sumM_run fun wd _ => withdrawalRlpLen_run _ wd
  have hone : ∀ n, BitVec.ofNat 64 n + 1 = BitVec.ofNat 64 (n + 1) := fun n =>
    (BitVec.ofNat_add n 1).symm
  refine ⟨{ s₁ with heapPtr := s.heapPtr }, ?_, rfl, hsame⟩
  dsimp only
  rw [bind_run_ok htxsum, bind_run_ok hwdsum, word_add_list _ (by omega), hone, word_add_list _ (by omega), ← length_blockPayload, word_length_rlpEncodeList (by omega)]
  rfl

/-! ## Lengths of headers -/

/-- A bound on the length of a field. -/
def HeaderItem.bound : HeaderItem → Nat
  | .bytes _ n => n.toNat + 9
  | .word _ => 9
  | .u256 _ => 41

/-- A field whose length does not depend on what memory holds from `lo` on. -/
def HeaderItem.Fixed (lo : Nat) : HeaderItem → Prop
  | .bytes src n => n.toNat ≠ 1 ∨ src.toNat + n.toNat ≤ lo
  | _ => True

theorem length_enc_le (item : HeaderItem) (s : Ram) : (item.enc s.read).length ≤ item.bound := by
  cases item with
  | bytes src n =>
    have hlen := ByteMap.length_load s.bytes src.toNat n.toNat
    have hle := length_rlpEncodeBytes_le (s.bytes.load src.toNat n.toNat) (by omega)
    rwa [hlen] at hle
  | word w => exact length_rlpEncodeWord_le w
  | u256 v =>
    have hbe : rlpBeLen v.toNat ≤ 32 := rlpBeLen_le (Nat.lt_of_lt_of_eq v.isLt (by decide))
    have hlen := length_rlpBe v.toNat
    have hle := length_rlpEncodeBytes_le (rlpBe v.toNat) (by omega)
    exact hle.trans (show (rlpBe v.toNat).length + 9 ≤ 41 by omega)

theorem length_enc_congr {item : HeaderItem} {t : Ram}
    (hsame : ByteMap.SameBelow lo s.bytes t.bytes) (hitem : item.Fixed lo) :
    (item.enc t.read).length = (item.enc s.read).length := by
  cases item with
  | bytes src n =>
    rcases hitem with hne | hbelow
    · exact length_rlpEncodeBytes_load t.bytes s.bytes hne
    · exact congrArg (fun bs => (rlpEncodeBytes bs).length) (hsame.load hbelow)
  | word w => rfl
  | u256 v => rfl

theorem length_itemsPayload_le (items : List HeaderItem) (s : Ram) :
    (itemsPayload s.read items).length ≤ (items.map HeaderItem.bound).sum := by
  induction items with
  | nil => exact Nat.le_refl 0
  | cons item items ih =>
    have hitem := length_enc_le item s
    rw [itemsPayload_cons, List.length_append, List.map_cons, List.sum_cons]
    omega

theorem length_itemsPayload_congr {items : List HeaderItem} {t : Ram}
    (hsame : ByteMap.SameBelow lo s.bytes t.bytes) (hitems : ∀ item ∈ items, item.Fixed lo) :
    (itemsPayload t.read items).length = (itemsPayload s.read items).length := by
  induction items with
  | nil => rfl
  | cons item items ih =>
    rw [itemsPayload_cons, itemsPayload_cons, List.length_append, List.length_append,
      length_enc_congr hsame (hitems item List.mem_cons_self),
      ih fun item hmem => hitems item (List.mem_cons_of_mem _ hmem)]

theorem fixed_items (h : HeaderRecord) (hextra : h.extra.toNat + h.extraN.toNat ≤ lo) :
    ∀ item ∈ h.items, item.Fixed lo := by
  have hafter : ∀ item ∈ h.itemsAfter, item.Fixed lo := by
    unfold HeaderRecord.itemsAfter
    cases h.isCurrent <;> simp [HeaderItem.Fixed]
  have hbefore : ∀ item ∈ h.itemsBefore, item.Fixed lo := by
    simp [HeaderRecord.itemsBefore, HeaderItem.Fixed, hextra]
  intro item hmem
  rw [h.items_eq, List.append_assoc] at hmem
  rcases List.mem_append.mp hmem with hmem | hmem
  · exact hbefore item hmem
  · rcases List.mem_cons.mp hmem with rfl | hmem
    · trivial
    · exact hafter item hmem

/-- The length of a block, whatever becomes of the memory from `lo` on. -/
theorem length_blockEncoding_congr {t : Ram} (hsame : ByteMap.SameBelow lo s.bytes t.bytes)
    (hpl : pl.Placed lo) (hextra : h.extra.toNat + h.extraN.toNat ≤ lo) :
    (blockEncoding t h pl).length = (blockEncoding s h pl).length := by
  have hpayload : (h.payload t.read).length = (h.payload s.read).length :=
    length_itemsPayload_congr hsame (fixed_items h hextra)
  have hencoding : (h.encoding t.read).length = (h.encoding s.read).length := by
    rw [HeaderRecord.encoding, HeaderRecord.encoding, rlpEncodeList, rlpEncodeList,
      List.length_append, List.length_append, hpayload]
  have hblock : (blockPayload t h pl).length = (blockPayload s h pl).length := by
    rw [length_blockPayload, length_blockPayload, hencoding, txsPayload_congr hsame hpl,
      withdrawalTrees_congr hsame hpl]
  unfold blockEncoding
  rw [rlpEncodeList, rlpEncodeList, List.length_append, List.length_append, hblock]

theorem sum_bounds_before (h : HeaderRecord) :
    ((h.itemsBefore ++ [HeaderItem.u256 h.baseFee]).map HeaderItem.bound).sum =
      684 + h.extraN.toNat := by
  simp [HeaderRecord.itemsBefore, HeaderItem.bound]
  omega

theorem sum_bounds_after (h : HeaderRecord) : (h.itemsAfter.map HeaderItem.bound).sum ≤ 191 := by
  unfold HeaderRecord.itemsAfter
  cases h.isCurrent <;> simp [HeaderItem.bound]

/-- The base fee of a header of a payload is encoded in the buffer of the encoder. -/
theorem fitsBuffer_of_extraN (hextra : h.extraN.toNat ≤ 32) : h.FitsBuffer s.read := by
  have hle := length_itemsPayload_le (h.itemsBefore ++ [.u256 h.baseFee]) s
  rw [sum_bounds_before] at hle
  unfold HeaderRecord.FitsBuffer
  omega

theorem length_payload_le_of_extraN (hextra : h.extraN.toNat ≤ 32) :
    (h.payload s.read).length ≤ 907 := by
  have hle : (h.payload s.read).length ≤ (h.items.map HeaderItem.bound).sum :=
    length_itemsPayload_le h.items s
  have hafter := sum_bounds_after h
  rw [h.items_eq, List.map_append, List.sum_append, sum_bounds_before] at hle
  omega

/-! ## What the roots leave as it was -/

/-- The heap has not shrunk below `k`, and the memory below `lo` is that of `m`. -/
structure Since (m : ByteMap) (lo k : Nat) (s : Ram) : Prop where
  heap : k ≤ s.heapPtr
  below : ByteMap.SameBelow lo m s.bytes

def NotBlock (e : Exn) (_ : Ram) : Prop := ∀ c, e ≠ .block c

section

variable {m : ByteMap} {k : Nat} {α : Type}

theorem triple_alloc (n : Nat) : Triple (Since m lo k) (alloc n)
    (fun p s => (k ≤ p ∧ p + n ≤ Ram.heapEnd) ∧ Since m lo (p + n) s) NotBlock where
  ok {s s' p} hs hrun := by
    rcases alloc_cases n s with ⟨q, hq, -, hend, halloc⟩ | ⟨-, halloc⟩
    · rw [halloc] at hrun
      cases hrun
      exact ⟨⟨hs.heap, hq.trans hend⟩, hq, hs.below⟩
    · rw [halloc] at hrun
      cases hrun
  error {s s' e} hs hrun := by
    rcases alloc_cases n s with ⟨q, -, -, -, halloc⟩ | ⟨-, halloc⟩
    · rw [halloc] at hrun
      cases hrun
    · rw [halloc] at hrun
      cases hrun
      exact fun c hc => by cases hc

/-- An allocation where only the place matters. -/
theorem triple_alloc_above (n : Nat) : Triple (Since m lo lo) (alloc n)
    (fun p s => lo ≤ p ∧ Since m lo lo s) NotBlock :=
  (triple_alloc n).post fun _ _ hs =>
    ⟨hs.1.1, (Nat.le_add_right_of_le hs.1.1).trans hs.2.heap, hs.2.below⟩

theorem triple_put {f : Ram → Bytes} {p : Nat} (hp : lo ≤ p) :
    Triple (Since m lo k) (modify fun s => s.put p (f s)) (fun _ => Since m lo k) NotBlock :=
  .modify fun _ hs => ⟨hs.heap, hs.below.trans (ByteMap.sameBelow_store hp)⟩

theorem triple_mark : Triple (Since m lo lo) heapMark (fun mark s => lo ≤ mark ∧ Since m lo lo s)
    NotBlock where
  ok hs hrun := by
    cases hrun
    exact ⟨hs.heap, hs⟩
  error _ hrun := by cases hrun

theorem triple_release {mark : Nat} (h : lo ≤ mark) :
    Triple (Since m lo lo) (heapRelease mark) (fun _ => Since m lo lo) NotBlock :=
  .modify fun _ hs => ⟨h, hs.below⟩

theorem triple_memcpy {dst src n : Nat} (hdst : lo ≤ dst) (hsrc : src + n ≤ lo) :
    Triple (Since m lo k) (Ram.memcpy dst src n) (fun _ => Since m lo k) NotBlock where
  ok {s s' _} hs hrun := by
    rw [Ram.memcpy_run (.inr (hsrc.trans hdst))] at hrun
    cases hrun
    exact ⟨hs.heap, hs.below.trans (ByteMap.sameBelow_store hdst)⟩
  error {s s' e} hs hrun := by
    rw [Ram.memcpy_run (.inr (hsrc.trans hdst))] at hrun
    cases hrun

theorem triple_ldLe64 (p : Nat) :
    Triple (Since m lo k) (ldLe64 p) (fun _ => Since m lo k) NotBlock where
  ok hs hrun := by
    cases hrun
    exact hs
  error _ hrun := by cases hrun

theorem triple_encodeWithdrawal {wd : Nat} (hwd : wd + 44 ≤ lo) :
    Triple (Since m lo lo) (encodeWithdrawalRlp wd) (fun _ => Since m lo lo) NotBlock where
  ok {s s' _} hs hrun := by
    rcases encodeWithdrawalRlp_run (hwd.trans hs.heap) with ⟨t, hok, -, hheap, hsame⟩ | ⟨-, t, herr⟩
    · rw [hok] at hrun
      cases hrun
      exact ⟨(Nat.le_add_right_of_le hs.heap).trans hheap, hs.below.trans (hsame.mono hs.heap)⟩
    · rw [herr] at hrun
      cases hrun
  error {s s' e} hs hrun := by
    rcases encodeWithdrawalRlp_run (hwd.trans hs.heap) with ⟨t, hok, -⟩ | ⟨-, t, herr⟩
    · rw [hok] at hrun
      cases hrun
    · rw [herr] at hrun
      cases hrun
      exact fun c hc => by cases hc

theorem triple_encodeWithdrawals {wds : List Nat} (hwds : ∀ wd ∈ wds, wd + 44 ≤ lo) :
    Triple (Since m lo lo) (encodeWithdrawals wds) (fun _ => Since m lo lo) NotBlock := by
  induction wds with
  | nil => exact .pure fun _ hs => hs
  | cons wd wds ih =>
    refine .bind (triple_encodeWithdrawal (hwds wd List.mem_cons_self)) fun e => ?_
    refine .bind (ih fun wd hmem => hwds wd (List.mem_cons_of_mem _ hmem)) fun es => ?_
    exact .pure fun _ hs => hs

theorem triple_encodeRequests {type size : Nat} {list : Nat × Nat}
    (hlist : list.1 + list.2 * size ≤ lo) :
    Triple (Since m lo lo) (encodeRequests type size list) (fun _ => Since m lo lo) NotBlock := by
  unfold encodeRequests
  split
  · refine .bind (triple_alloc_above _) fun blob => .of_fact fun hblob => ?_
    refine .bind (triple_put hblob) fun _ => ?_
    refine .bind (triple_memcpy (by omega) hlist) fun _ => ?_
    exact .pure fun _ hs => hs
  · exact .pure fun _ hs => hs

theorem triple_encodeAllRequests {requests : List (Nat × Nat × Nat)} {i : Nat}
    (hrequests : ∀ r ∈ requests, r.2.1 + r.2.2 * r.1 ≤ lo) :
    Triple (Since m lo lo) (encodeAllRequests requests i) (fun _ => Since m lo lo) NotBlock := by
  induction requests generalizing i with
  | nil => exact .pure fun _ hs => hs
  | cons request requests ih =>
    refine .bind (triple_encodeRequests (hrequests request List.mem_cons_self)) fun r => ?_
    refine .bind (ih fun r hmem => hrequests r (List.mem_cons_of_mem _ hmem)) fun rs => ?_
    exact .pure fun _ hs => hs

theorem triple_computeRequestsHash [Sha256] {arr : List (Nat × Nat)} {out : Nat} (hout : lo ≤ out) :
    Triple (Since m lo lo) (computeRequestsHash arr out) (fun _ => Since m lo lo) NotBlock := by
  refine .bind triple_mark fun mark => .of_fact fun hmark => ?_
  refine .bind (triple_alloc_above _) fun cat => .of_fact fun hcat => ?_
  refine .bind (.forM fun slice _ => triple_put (by omega)) fun _ => ?_
  exact .bind (triple_put hout) fun _ => triple_release hmark

theorem indexedRoot_fails {tries : NewTries} {values : List Bytes} {e : Exn}
    (h : indexedRoot tries values = .error e) : ∀ c, e ≠ .block c := by
  have hfold : ∀ (vs : List (Bytes × Nat)) (t : tries.Trie),
      vs.foldlM (fun t v => tries.set t (rlpEncodeWord v.2) v.1) t = .error e →
        ∀ c, e ≠ .block c := by
    intro vs
    induction vs with
    | nil => exact fun t hrun => by cases hrun
    | cons v vs ih =>
      intro t hrun
      rw [List.foldlM_cons] at hrun
      cases hset : tries.set t (rlpEncodeWord v.2) v.1 with
      | error e' =>
        rw [hset] at hrun
        cases hrun
        exact tries.setFails hset
      | ok t' =>
        rw [hset] at hrun
        exact ih t' hrun
  unfold indexedRoot at h
  cases hfill : values.zipIdx.foldlM (fun t v => tries.set t (rlpEncodeWord v.2) v.1) tries.new with
  | error e' =>
    rw [hfill] at h
    cases h
    exact hfold _ _ hfill
  | ok t =>
    rw [hfill] at h
    exact tries.rootFails h

theorem triple_liftRam {x : Except Exn α} (hx : ∀ e, x = .error e → ∀ c, e ≠ .block c) :
    Triple (Since m lo k) (liftRam x) (fun _ => Since m lo k) NotBlock := by
  cases x with
  | ok a => exact .pure fun _ hs => hs
  | error e => exact .throw fun _ _ => hx e rfl

theorem triple_buildMptIndexed {tries : NewTries} {slices : List (Nat × Nat)} {out : Nat}
    (hout : lo ≤ out) :
    Triple (Since m lo lo) (buildMptIndexed tries slices out) (fun _ => Since m lo lo)
      NotBlock := by
  refine .bind triple_mark fun mark => .of_fact fun hmark => ?_
  refine .bind .get fun s => .pre ?_ fun _ hs => hs.2
  refine .bind (triple_liftRam fun e he => indexedRoot_fails he) fun root => ?_
  exact .bind (triple_put hout) fun _ => triple_release hmark

end

/-! ## The header of a payload -/

/-- The payload, the requests and the root of the beacon block lie below `lo`. -/
structure PayloadInput.Placed (lo : Nat) (si : PayloadInput) : Prop where
  pl : si.pl.Placed lo
  pbbr : si.pbbr + 32 ≤ lo
  requests : ∀ r ∈ si.requests, r.2.1 + r.2.2 * r.1 ≤ lo

/-- The header whose roots are still to be filled in, in buffers from `lo` on. -/
structure HeaderReady (lo : Nat) (h : HeaderRecord) (s : Ram) : Prop where
  below : ∀ item ∈ h.items, item.Below s.heapPtr
  extra : h.extra.toNat + h.extraN.toNat ≤ lo
  extraN : h.extraN.toNat ≤ 32
  txRoot : lo ≤ h.txRoot.toNat
  withdrawalsRoot : lo ≤ h.withdrawalsRoot.toNat
  requestsHash : lo ≤ h.requestsHash.toNat
  balHash : lo ≤ h.balHash.toNat

section

variable {m : ByteMap} {k : Nat} {si : PayloadInput} {tries : NewTries}

theorem toNat_ofNat_le (n : Nat) : (BitVec.ofNat 64 n).toNat ≤ n := by
  rw [BitVec.toNat_ofNat]
  exact Nat.mod_le n _

theorem below_ofNat {p : Nat} (n : Nat) (h : p + n ≤ k) :
    HeaderItem.Below k (.bytes (BitVec.ofNat 64 p) (BitVec.ofNat 64 n)) :=
  .inr ((Nat.add_le_add (toNat_ofNat_le p) (toNat_ofNat_le n)).trans h)

/-- An address of the heap as a word. -/
theorem le_toNat_ofNat {p n : Nat} (h : lo ≤ p) (hp : p + n ≤ Ram.heapEnd) :
    lo ≤ (BitVec.ofNat 64 p).toNat := by
  have hlt := lt_of_le_heapEnd hp
  rw [BitVec.toNat_ofNat, Nat.mod_eq_of_lt (by omega)]
  exact h

theorem triple_ldLe256 (p : Nat) :
    Triple (Since m lo k) (ldLe256 p) (fun _ => Since m lo k) NotBlock := by
  refine .bind (triple_ldLe64 p) fun w₀ => .bind (triple_ldLe64 (p + 8)) fun w₁ => ?_
  refine .bind (triple_ldLe64 (p + 16)) fun w₂ => .bind (triple_ldLe64 (p + 24)) fun w₃ => ?_
  exact .pure fun _ hs => hs

theorem triple_headerFields [Keccak] (hsi : si.Placed lo) :
    Triple (Since m lo lo) (headerFields si) (fun h s => HeaderReady lo h s ∧ Since m lo lo s)
      NotBlock := by
  have hraw := hsi.pl.raw
  have hextra := hsi.pl.extra
  have hpbbr := hsi.pbbr
  unfold headerFields
  dsimp only
  refine .bind (triple_alloc 248) fun p => .of_fact fun hp => ?_
  refine .bind (triple_put (by omega)) fun _ => ?_
  refine .bind (triple_alloc 32) fun oh => .of_fact fun hoh => ?_
  refine .bind (triple_alloc 8) fun tmp => .of_fact fun htmp => ?_
  refine .bind (triple_put (by omega)) fun _ => .bind (triple_put (by omega)) fun _ => ?_
  refine .bind (triple_alloc 32) fun txr => .of_fact fun htxr => ?_
  refine .bind (triple_alloc 8) fun z8 => .of_fact fun hz8 => ?_
  refine .bind (triple_put (by omega)) fun _ => .bind (triple_ldLe256 _) fun baseFee => ?_
  refine .bind (triple_alloc 32) fun wr => .of_fact fun hwr => ?_
  refine .bind (triple_alloc 32) fun rh => .of_fact fun hrh => ?_
  refine .bind (triple_alloc 32) fun bh => .of_fact fun hbh => ?_
  refine .pure fun s hs => ⟨?_, ?_, hs.below⟩
  · have hheap := hs.heap
    have hextraN := toNat_ofNat_le si.pl.extraN
    have hextraP := toNat_ofNat_le si.pl.extra
    have hmax := hsi.pl.extraN
    refine ⟨?_, ?_, hextraN.trans hmax, le_toNat_ofNat (by omega) htxr.2,
      le_toNat_ofNat (by omega) hwr.2, le_toNat_ofNat (by omega) hrh.2,
      le_toNat_ofNat (by omega) hbh.2⟩
    · simp only [HeaderRecord.items, HeaderRecord.itemsBefore, HeaderRecord.itemsAfter,
        List.forall_mem_append, List.forall_mem_cons, if_true]
      exact ⟨⟨below_ofNat 32 (by omega), below_ofNat 32 (by omega), below_ofNat 20 (by omega),
        below_ofNat 32 (by omega), below_ofNat 32 (by omega), below_ofNat 32 (by omega),
        below_ofNat 256 (by omega), trivial, trivial, trivial, trivial, trivial,
        below_ofNat si.pl.extraN (by omega), below_ofNat 32 (by omega), below_ofNat 8 (by omega),
        fun _ hmem => by cases hmem⟩, trivial,
        ⟨below_ofNat 32 (by omega), trivial, trivial, below_ofNat 32 (by omega),
          below_ofNat 32 (by omega), fun _ hmem => by cases hmem⟩,
        below_ofNat 32 (by omega), trivial, fun _ hmem => by cases hmem⟩
    · exact (Nat.add_le_add hextraP hextraN).trans hextra
  · exact Nat.le_trans (by omega) hs.heap

theorem triple_fillRoots [Keccak] [Sha256] (hsi : si.Placed lo) {h : HeaderRecord} {s₀ : Ram}
    (hready : HeaderReady lo h s₀) :
    Triple (Since m lo lo) (fillRoots tries si h) (fun _ => Since m lo lo) NotBlock := by
  refine .bind (triple_buildMptIndexed hready.txRoot) fun _ => ?_
  refine .bind (triple_alloc_above _) fun _ => .of_fact fun _ => ?_
  refine .bind (triple_encodeWithdrawals (mem_withdrawalPlaces hsi.pl)) fun slices => ?_
  refine .bind (triple_buildMptIndexed hready.withdrawalsRoot) fun _ => ?_
  refine .bind (.bind (triple_alloc_above _) fun _ => .of_fact fun _ =>
    triple_encodeAllRequests hsi.requests) fun reqs => ?_
  refine .bind (triple_computeRequestsHash hready.requestsHash) fun _ => ?_
  refine .bind (triple_put hready.balHash) fun _ => ?_
  exact .pure fun _ hs => hs

end

/-- What the check of the size comes to: the length that is computed before the roots are filled in
is the one of the block with any roots, and the block is rejected when it is too long. -/
structure SizeChecked [Keccak] [Sha256] (tries : NewTries) (si : PayloadInput) (s : Ram)
    (h : HeaderRecord) (s₁ : Ram) : Prop where
  predicted : (∃ bl s₂, blockRlpLength h si.pl s₁ = .ok bl s₂ ∧
      ∀ t, ByteMap.SameBelow s.heapPtr s.bytes t.bytes →
        bl.toNat = (blockEncoding t h si.pl).length) ∨
    ∃ s₂, blockRlpLength h si.pl s₁ = .error (.trap 1) s₂
  accepted : ∀ r s', payloadHeader tries si s = .ok r s' → r.1 = h ∧
    ByteMap.SameBelow s.heapPtr s.bytes s'.bytes ∧ (blockEncoding s' h si.pl).length ≤ 8388608
  rejected : ∀ s', payloadHeader tries si s = .error (.block 7) s' →
    ∀ t, ByteMap.SameBelow s.heapPtr s.bytes t.bytes →
      8388608 < (blockEncoding t h si.pl).length
  oversized : ∀ t, ByteMap.SameBelow s.heapPtr s.bytes t.bytes →
    8388608 < (blockEncoding t h si.pl).length →
      ∃ e s', payloadHeader tries si s = .error e s' ∧ (e = .block 7 ∨ e = .trap 1)

theorem length_blockEncoding_lt (hpl : pl.Placed lo) (hextra : h.extraN.toNat ≤ 32) :
    (blockEncoding s h pl).length < 2 ^ 64 := by
  have hpayload := length_payload_le_of_extraN (s := s) hextra
  have hencoding := length_rlpEncodeList_le (h.payload s.read) (by omega)
  have hblock := length_blockPayload_lt (s := s) (h := h) hpl
    (Nat.lt_of_le_of_lt hencoding (by omega))
  have hle := length_rlpEncodeList_le (blockPayload s h pl) (by omega)
  unfold blockEncoding
  omega

section

variable [Keccak] [Sha256] {tries : NewTries} {si : PayloadInput} {s₁ s₂ : Ram} {bl : Word}

/-- A run of the whole is one of the fields, of the length, and of the roots when it is short. -/
theorem payloadHeader_run (tries : NewTries) (hfields : headerFields si s = .ok h s₁)
    (hlength : blockRlpLength h si.pl s₁ = .ok bl s₂) : payloadHeader tries si s =
      if maxRlpBlockSize < bl then .error (.block 7) s₂
      else (fillRoots tries si h >>= fun slices => return (h, slices)) s₂ := by
  unfold payloadHeader
  rw [bind_run_ok hfields, bind_run_ok hlength]
  split <;> rfl

theorem sizeChecked_of_length (hsi : si.Placed s.heapPtr) (hready : HeaderReady s.heapPtr h s₁)
    (hfields : headerFields si s = .ok h s₁) (hsame : ByteMap.SameBelow s.heapPtr s.bytes s₁.bytes)
    (hlength : blockRlpLength h si.pl s₁ = .ok bl s₂)
    (hbl : bl = BitVec.ofNat 64 (blockEncoding s₁ h si.pl).length)
    (hsince : Since s.bytes s.heapPtr s.heapPtr s₂) : SizeChecked tries si s h s₁ := by
  have hlt := length_blockEncoding_lt (s := s₁) hsi.pl hready.extraN
  have hnat : bl.toNat = (blockEncoding s₁ h si.pl).length := by
    rw [hbl, BitVec.toNat_ofNat, Nat.mod_eq_of_lt hlt]
  have hall : ∀ t : Ram, ByteMap.SameBelow s.heapPtr s.bytes t.bytes →
      bl.toNat = (blockEncoding t h si.pl).length := by
    intro t ht
    rw [hnat, length_blockEncoding_congr (hsame.symm.trans ht) hsi.pl hready.extra]
  have hrun := payloadHeader_run tries hfields hlength
  have hmax : maxRlpBlockSize < bl ↔ 8388608 < bl.toNat := Iff.rfl
  refine ⟨.inl ⟨bl, s₂, hlength, hall⟩, ?_, ?_, ?_⟩
  · intro r s' hok
    rw [hrun] at hok
    split at hok
    · cases hok
    next hshort =>
    obtain ⟨slices, s₃, hfill, hret⟩ := bind_ok.mp hok
    cases hret
    have hkept := (triple_fillRoots hsi hready).ok hsince hfill
    refine ⟨rfl, hkept.below, ?_⟩
    rw [← hall s' hkept.below]
    exact Nat.not_lt.mp fun hlong => hshort (hmax.mpr hlong)
  · intro s' herr t ht
    rw [hrun] at herr
    split at herr
    · next hlong =>
      rw [← hall t ht]
      exact hmax.mp hlong
    · rcases bind_error.mp herr with hfill | ⟨slices, s₃, -, hret⟩
      · exact absurd rfl ((triple_fillRoots hsi hready).error hsince hfill 7)
      · cases hret
  · intro t ht hlong
    rw [← hall t ht] at hlong
    rw [hrun, if_pos (hmax.mpr hlong)]
    exact ⟨_, _, rfl, .inl rfl⟩

end

/-- Tries that only keep what is put into them. -/
def recordingTries : NewTries where
  Trie := List (Bytes × Bytes)
  fromWitness _ := .ok []
  set t k v := .ok ((k, v) :: t)
  root _ := .ok 0
  new := []
  setFails h := by cases h
  rootFails h := by cases h

/-- A legacy transaction, a typed one and two withdrawals. -/
def smallPayload : PayloadInput where
  pl := {
    raw := 4096, extra := 8192, extraN := 5, txs := [(12288, 100), (12400, 60)], wd := 16384
    wdN := 2, bal := 20480, balN := 1, number := 7, gasLimit := 30000000, gasUsed := 21000
    timestamp := 12, blobGasUsed := 0, excessBlobGas := 0, slot := 1 }
  pbbr := 24576
  deposits := (28672, 0)
  withdrawalRequests := (28672, 1)
  consolidations := (28672, 0)
  builderDeposits := (28672, 0)
  builderExits := (28672, 0)

theorem headerFields_small :
    let _ : Keccak := ⟨fun _ => 0⟩
    ((headerFields smallPayload).run' ⟨fun p => if p = 12288 then 248 else 2, 2701131776⟩).isSome =
      true := by
  decide +kernel

end StatelessGuest
