import StatelessGuest.Block.Bloom
import StatelessGuest.Evm.Frame
import StatelessGuest.Rlp.RoundTrip

/-!
# Receipts

A receipt is a list of the status, the gas used so far, the bloom filter and the logs. Every list is
written nine bytes behind its start and then moved down to its header, inside of the lists around
it.

* `encodeReceipt`: the encoder in memory.
* `finishList_run`: a payload is moved down over itself without loss.
* `encode_receipt_canonical`: the bytes are the encoding of the receipt and of no other one.
-/

namespace StatelessGuest

open Lib Ram

/-! ## The encoder -/

/-- The addresses in a log record (`LOG_*`). -/
structure LogRecord where
  address : Nat
  topics : Nat
  topicsN : Nat
  data : Nat
  dataN : Nat

def logsBloom [Keccak] (logs : List LogRecord) (out : Nat) : RamM Unit := do
  Ram.memzero out 256
  forM logs fun log => do
    addToBloom out log.address 20
    forM (List.range log.topicsN) fun j => addToBloom out (log.topics + j * 32) 32

/-- The payload at `dst + 9` is moved down to the header of the list. -/
def rlpFinishList (dst payloadEnd : Nat) : RamM Nat := do
  let payload := payloadEnd - (dst + 9)
  let hl := (rlpListHeaderLen (BitVec.ofNat 64 payload)).toNat
  Ram.memcpy (dst + hl) (dst + 9) payload
  let _ ← rlpEncodeListHeaderAt dst payload
  return hl + payload

/-- More than the logs take. -/
def logsEncodedBound (logs : List LogRecord) : Nat :=
  logs.foldl (fun total log => total + 64 + log.topicsN * 33 + log.dataN) 16

/-- The strings one after another; the address behind the last is returned. -/
def putStrings : List (Nat × Nat) → Nat → RamM Nat
  | [], p => return p
  | place :: places, p => do
    let w ← rlpEncodeBytesAt p place.1 place.2
    putStrings places (p + w)

def LogRecord.topicPlaces (log : LogRecord) : List (Nat × Nat) :=
  (List.range log.topicsN).map fun j => (log.topics + j * 32, 32)

def encodeLog (q : Nat) (log : LogRecord) : RamM Nat := do
  let w ← rlpEncodeBytesAt (q + 9) log.address 20
  let tstart := q + 9 + w
  let t ← putStrings log.topicPlaces (tstart + 9)
  let w ← rlpFinishList tstart t
  let r := tstart + w
  let w ← rlpEncodeBytesAt r log.data log.dataN
  rlpFinishList q (r + w)

def putLogs : List LogRecord → Nat → RamM Nat
  | [], q => return q
  | log :: logs, q => do
    let w ← encodeLog q log
    putLogs logs (q + w)

def encodeLogs (dst : Nat) (logs : List LogRecord) : RamM Nat := do
  let q ← putLogs logs (dst + 9)
  rlpFinishList dst q

/-- The status, one byte as it is encoded. -/
def putStatus (p : Nat) (succeeded : Word) : RamM Nat := do
  st8 p (if succeeded ≠ 0 then 1 else 128)
  return 1

/-- The type of a transaction stands before the receipt of a typed one. -/
def putType (start w : Nat) (txType : Word) : RamM (Nat × Nat) :=
  if txType ≠ 0 then do
    st8 (start - 1) txType.toNat
    return (start - 1, w + 1)
  else return (start, w)

/-- The address and the length of the encoding. -/
def encodeReceipt [Keccak] (txType succeeded cumulativeGas : Word) (logs : List LogRecord) :
    RamM (Nat × Nat) := do
  let buf ← alloc (logsEncodedBound logs + 400)
  let start := buf + 1
  let p := start + 9
  let w ← putStatus p succeeded
  let p := p + w
  let w ← rlpEncodeWordAt p cumulativeGas
  let p := p + w
  let bloom ← alloc 256
  logsBloom logs bloom
  let w ← rlpEncodeBytesAt p bloom 256
  let p := p + w
  let w ← encodeLogs p logs
  let p := p + w
  let w ← rlpFinishList start p
  putType start w txType

/-! ## What a receipt holds -/

def Log.tree (log : Log) : RlpTree :=
  .list [.str (addrBytes log.address), .list (log.topics.map fun topic => .str (hashBytes topic)),
    .str log.data]

/-- The entries of the bloom filter. -/
def Log.entries (log : Log) : List Bytes := addrBytes log.address :: log.topics.map hashBytes

structure Receipt where
  succeeded : Bool
  cumulativeGas : Word
  bloom : Bloom
  logs : List Log

def Receipt.tree (r : Receipt) : RlpTree :=
  .list [.str (if r.succeeded then [1] else []), .str (rlpBe r.cumulativeGas.toNat),
    .str r.bloom.bytes, .list (r.logs.map Log.tree)]

/-- The 20 bytes at an address of the memory. -/
def addressAt (m : ByteMap) (p : Nat) : Address := BitVec.ofNat 160 (beNat (m.load p 20))

/-- The 32 bytes at an address of the memory. -/
def hashAt (m : ByteMap) (p : Nat) : Hash := BitVec.ofNat 256 (beNat (m.load p 32))

/-- The log that a record holds. -/
def LogRecord.log (m : ByteMap) (log : LogRecord) : Log where
  address := addressAt m log.address
  topics := (List.range log.topicsN).map fun j => hashAt m (log.topics + j * 32)
  data := m.load log.data log.dataN

/-- The strings of a log lie below `lo`. -/
structure LogRecord.Below (lo : Nat) (log : LogRecord) : Prop where
  address : log.address + 20 ≤ lo
  topics : log.topics + log.topicsN * 32 ≤ lo
  data : log.data + log.dataN ≤ lo

theorem LogRecord.Below.mono {lo lo' : Nat} {log : LogRecord} (h : log.Below lo) (hle : lo ≤ lo') :
    log.Below lo' :=
  ⟨h.address.trans hle, h.topics.trans hle, h.data.trans hle⟩

/-! ## Lists -/

variable {s s' : Ram} {p q dst lo : Nat} {payload : Bytes} {log : LogRecord}

/-- A payload is moved down to its header, over itself where they overlap. -/
theorem finishList_run (h : s.Leaves (dst + 9) payload s') (hlt : payload.length < 2 ^ 64) :
    ∃ s'', rlpFinishList dst (dst + 9 + payload.length) s' =
        .ok (rlpEncodeList payload).length s'' ∧ s.Leaves dst (rlpEncodeList payload) s'' := by
  have hle := length_rlpEncodeListHeader_le hlt
  have hhead : (rlpListHeaderLen (BitVec.ofNat 64 payload.length)).toNat =
      (rlpEncodeListHeader payload.length).length := by
    rw [toNat_rlpListHeaderLen, BitVec.toNat_ofNat, Nat.mod_eq_of_lt hlt]
  have hlen : (rlpEncodeList payload).length =
      (rlpEncodeListHeader payload.length).length + payload.length := by
    rw [rlpEncodeList, List.length_append]
  refine ⟨s'.put dst (rlpEncodeList payload), ?_, ?_⟩
  · unfold rlpFinishList
    rw [Nat.add_sub_cancel_left, hhead, bind_run_ok (Ram.memcpy_run (by omega)), h.content,
      bind_run_ok (puts_listHeader _ _ _), hlen, rlpEncodeList, put_append]
    unfold Ram.put
    rw [ByteMap.store_comm (.inr (Nat.le_refl _))]
    rfl
  · refine ⟨h.heapPtr, ByteMap.load_store_self _ _ _, ?_⟩
    exact (h.below.mono (Nat.le_add_right dst 9)).trans (ByteMap.sameBelow_store (Nat.le_refl dst))

/-! ## Logs -/

/-- The encodings of strings, one after another. -/
def stringsPayload (m : ByteMap) (places : List (Nat × Nat)) : Bytes :=
  (places.map fun place => rlpEncodeBytes (m.load place.1 place.2)).flatten

theorem stringsPayload_congr {m m' : ByteMap} {places : List (Nat × Nat)}
    (h : ByteMap.SameBelow lo m m') (hplaces : ∀ place ∈ places, place.1 + place.2 ≤ lo) :
    stringsPayload m' places = stringsPayload m places := by
  unfold stringsPayload
  rw [List.map_congr_left fun place hmem => by rw [h.load (hplaces place hmem)]]

theorem putStrings_run {places : List (Nat × Nat)}
    (hplaces : ∀ place ∈ places, place.1 + place.2 ≤ lo) (hlo : lo ≤ p) :
    ∃ s', putStrings places p s = .ok (p + (stringsPayload s.bytes places).length) s' ∧
      s.Leaves p (stringsPayload s.bytes places) s' := by
  induction places generalizing p s with
  | nil => exact ⟨s, rfl, leaves_nil s p⟩
  | cons place places ih =>
    have hplace : place.1 + place.2 ≤ p := (hplaces place List.mem_cons_self).trans hlo
    have hrest : ∀ place ∈ places, place.1 + place.2 ≤ lo := fun place hmem =>
      hplaces place (List.mem_cons_of_mem _ hmem)
    have hput : Puts (rlpEncodeBytesAt p place.1 place.2) s p
      (rlpEncodeBytes (s.bytes.load place.1 place.2)) := puts_encodeBytes (.inr hplace)
    have hleaves := leaves_put s p (rlpEncodeBytes (s.bytes.load place.1 place.2))
    obtain ⟨s', hrun, hleaves'⟩ := ih (s := s.put p (rlpEncodeBytes (s.bytes.load place.1 place.2)))
      (p := p + (rlpEncodeBytes (s.bytes.load place.1 place.2)).length) hrest (by omega)
    rw [stringsPayload_congr (hleaves.below.mono hlo) hrest] at hrun hleaves'
    have hcons : stringsPayload s.bytes (place :: places) =
      rlpEncodeBytes (s.bytes.load place.1 place.2) ++ stringsPayload s.bytes places := rfl
    rw [hcons, List.length_append, ← Nat.add_assoc]
    refine ⟨s', ?_, hleaves.append hleaves'⟩
    rw [putStrings, bind_run_ok hput, hrun]

/-- The bytes of an address, read back from a number. -/
theorem addrBytes_ofNat {bs : Bytes} (h : bs.length = 20) :
    addrBytes (BitVec.ofNat 160 (beNat bs)) = bs := by
  have hlt := beNat_lt bs
  unfold addrBytes
  rw [BitVec.toNat_ofNat, Nat.mod_eq_of_lt (by rw [h] at hlt; omega), ← h, beBytes_beNat]

theorem addrBytes_addressAt (m : ByteMap) (p : Nat) : addrBytes (addressAt m p) = m.load p 20 :=
  addrBytes_ofNat (ByteMap.length_load m p 20)

theorem hashBytes_ofNat {bs : Bytes} (h : bs.length = 32) :
    hashBytes (BitVec.ofNat 256 (beNat bs)) = bs := by
  have hlt := beNat_lt bs
  unfold hashBytes
  rw [BitVec.toNat_ofNat, Nat.mod_eq_of_lt (by rw [h] at hlt; omega), ← h, beBytes_beNat]

theorem hashBytes_hashAt (m : ByteMap) (p : Nat) : hashBytes (hashAt m p) = m.load p 32 :=
  hashBytes_ofNat (ByteMap.length_load m p 32)

theorem topicPlaces_below (h : log.Below lo) : ∀ place ∈ log.topicPlaces, place.1 + place.2 ≤ lo := by
  intro place hmem
  obtain ⟨j, hj, rfl⟩ := List.mem_map.mp hmem
  have hlt := List.mem_range.mp hj
  have htopics := h.topics
  dsimp only
  omega

/-- The topics of a log, as they are encoded. -/
theorem encodeAll_topics (m : ByteMap) (log : LogRecord) :
    RlpTree.encodeAll ((log.log m).topics.map fun topic => .str (hashBytes topic)) =
      stringsPayload m log.topicPlaces := by
  have htopics : (log.log m).topics =
    (List.range log.topicsN).map fun j => hashAt m (log.topics + j * 32) := rfl
  unfold stringsPayload LogRecord.topicPlaces
  rw [RlpTree.encodeAll_eq_flatten, htopics, List.map_map, List.map_map, List.map_map]
  refine congrArg List.flatten (List.map_congr_left fun j _ => ?_)
  rw [Function.comp_apply, Function.comp_apply, Function.comp_apply, RlpTree.encode,
    hashBytes_hashAt]

/-- The payload of a log. -/
def logPayload (m : ByteMap) (log : LogRecord) : Bytes :=
  rlpEncodeBytes (m.load log.address 20) ++ (rlpEncodeList (stringsPayload m log.topicPlaces) ++
    rlpEncodeBytes (m.load log.data log.dataN))

theorem encode_log (m : ByteMap) (log : LogRecord) :
    (log.log m).tree.encode = rlpEncodeList (logPayload m log) := by
  have haddr : addrBytes (log.log m).address = m.load log.address 20 :=
    addrBytes_addressAt m log.address
  have hdata : (log.log m).data = m.load log.data log.dataN := rfl
  unfold logPayload
  rw [Log.tree, RlpTree.encode, RlpTree.encodeAll, RlpTree.encodeAll, RlpTree.encodeAll,
    RlpTree.encodeAll, List.append_nil, RlpTree.encode, RlpTree.encode, RlpTree.encode,
    encodeAll_topics, haddr, hdata]

/-! ## Sizes -/

theorem length_rlpEncodeBytes_le (bs : Bytes) (h : bs.length < 2 ^ 64) :
    (rlpEncodeBytes bs).length ≤ bs.length + 9 := by
  have hlen : rlpBeLen bs.length ≤ 8 := rlpBeLen_le h
  by_cases hone : bs.length = 1
  · obtain ⟨b, rfl⟩ := List.length_eq_one_iff.mp hone
    rw [rlpEncodeBytes_single]
    split
    · exact Nat.le_add_right _ _
    · rw [List.length_append, length_rlpWriteHeader, List.length_singleton]
      decide
  · rw [rlpEncodeBytes_of_length_ne hone, List.length_append, length_rlpWriteHeader]
    split <;> omega

theorem length_topicsPayload (m : ByteMap) (log : LogRecord) :
    (stringsPayload m log.topicPlaces).length = 33 * log.topicsN := by
  have hone : ∀ j, (rlpEncodeBytes (m.load (log.topics + j * 32) 32)).length = 33 := by
    intro j
    have hlen := ByteMap.length_load m (log.topics + j * 32) 32
    rw [rlpEncodeBytes_of_length_ne (by omega), List.length_append, length_rlpWriteHeader, hlen]
    rfl
  unfold stringsPayload LogRecord.topicPlaces
  induction log.topicsN with
  | zero => rfl
  | succ n ih =>
    rw [List.range_succ, List.map_append, List.map_append, List.flatten_append,
      List.length_append, ih]
    simp only [List.map_cons, List.map_nil, List.flatten_cons, List.flatten_nil, List.append_nil,
      hone]
    omega

/-- What the bound counts for a log. -/
def LogRecord.size (log : LogRecord) : Nat := 64 + log.topicsN * 33 + log.dataN

theorem length_logPayload_le (m : ByteMap) (log : LogRecord) (h : log.size < 2 ^ 64) :
    (logPayload m log).length + 9 ≤ log.size := by
  have htopics := length_topicsPayload m log
  unfold LogRecord.size at h ⊢
  have haddr := ByteMap.length_load m log.address 20
  have hdata := ByteMap.length_load m log.data log.dataN
  have haddr' := length_rlpEncodeBytes_le (m.load log.address 20) (by omega)
  have hdata' := length_rlpEncodeBytes_le (m.load log.data log.dataN) (by omega)
  have hlist := length_rlpEncodeList_le (stringsPayload m log.topicPlaces) (by omega)
  unfold logPayload
  rw [List.length_append, List.length_append]
  omega

/-! ## Writing the logs -/

/-- A string is written behind what is there. -/
theorem Ram.Leaves.encodeBytes {bs : Bytes} (h : s.Leaves p bs s') (q src n : Nat)
    (hq : q = p + bs.length) (hsrc : src + n ≤ p) :
    ∃ s'', rlpEncodeBytesAt q src n s' =
        .ok (rlpEncodeBytes (s.bytes.load src n)).length s'' ∧
      s.Leaves p (bs ++ rlpEncodeBytes (s.bytes.load src n)) s'' := by
  subst hq
  have hput : Puts (rlpEncodeBytesAt (p + bs.length) src n) s' (p + bs.length)
    (rlpEncodeBytes (s'.bytes.load src n)) := puts_encodeBytes (.inr (by omega))
  rw [h.below.load hsrc] at hput
  exact ⟨_, hput, h.append (leaves_put s' _ _)⟩

theorem encodeLog_run (hlog : log.Below lo) (hlo : lo ≤ q) (hsize : log.size < 2 ^ 64) :
    ∃ s', encodeLog q log s = .ok (log.log s.bytes).tree.encode.length s' ∧
      s.Leaves q (log.log s.bytes).tree.encode s' := by
  have hlt := length_logPayload_le s.bytes log hsize
  have htopics := length_topicsPayload s.bytes log
  have hcount : log.topicsN * 33 < 2 ^ 64 := by
    unfold LogRecord.size at hsize
    omega
  have haddress := hlog.address
  have hdata := hlog.data
  rw [encode_log]
  obtain ⟨s₁, hrun₁, hleaves₁⟩ := 
    (leaves_nil s (q + 9)).encodeBytes (q + 9) log.address 20 rfl (by omega)
  rw [List.nil_append] at hleaves₁
  obtain ⟨s₂, hrun₂, hleaves₂⟩ := putStrings_run (s := s₁)
    (p := q + 9 + (rlpEncodeBytes (s.bytes.load log.address 20)).length + 9)
    (topicPlaces_below hlog) (by omega)
  rw [stringsPayload_congr (hleaves₁.below.mono (by omega)) (topicPlaces_below hlog)]
    at hrun₂ hleaves₂
  obtain ⟨s₃, hrun₃, hleaves₃⟩ := finishList_run hleaves₂ (by omega)
  have hleaves₄ := hleaves₁.append hleaves₃
  obtain ⟨s₅, hrun₅, hleaves₅⟩ := hleaves₄.encodeBytes
    (q + 9 + (rlpEncodeBytes (s.bytes.load log.address 20)).length +
      (rlpEncodeList (stringsPayload s.bytes log.topicPlaces)).length)
    log.data log.dataN (by rw [List.length_append, Nat.add_assoc]) (by omega)
  rw [List.append_assoc] at hleaves₅
  obtain ⟨s₆, hrun₆, hleaves₆⟩ :=
    finishList_run hleaves₅ (show (logPayload s.bytes log).length < 2 ^ 64 by omega)
  refine ⟨s₆, ?_, hleaves₆⟩
  unfold encodeLog
  rw [bind_run_ok hrun₁]
  dsimp only
  rw [bind_run_ok hrun₂, bind_run_ok hrun₃, bind_run_ok hrun₅]
  rw [List.length_append, List.length_append, ← Nat.add_assoc, ← Nat.add_assoc] at hrun₆
  exact hrun₆

theorem log_congr {m m' : ByteMap} (h : ByteMap.SameBelow lo m m') (hlog : log.Below lo) :
    log.log m' = log.log m := by
  have haddress : addressAt m' log.address = addressAt m log.address := by
    unfold addressAt
    rw [h.load hlog.address]
  have htopics : ∀ j ∈ List.range log.topicsN,
      hashAt m' (log.topics + j * 32) = hashAt m (log.topics + j * 32) := by
    intro j hj
    have hlt := List.mem_range.mp hj
    have hle := hlog.topics
    unfold hashAt
    rw [h.load (by omega)]
  unfold LogRecord.log
  rw [haddress, List.map_congr_left htopics, h.load hlog.data]

/-- The logs that the records hold. -/
def logsAt (m : ByteMap) (logs : List LogRecord) : List Log := logs.map (LogRecord.log m)

theorem logsAt_congr {m m' : ByteMap} {logs : List LogRecord} (h : ByteMap.SameBelow lo m m')
    (hlogs : ∀ log ∈ logs, log.Below lo) : logsAt m' logs = logsAt m logs :=
  List.map_congr_left fun log hmem => log_congr h (hlogs log hmem)

/-- The items of the list of logs. -/
def logTrees (m : ByteMap) (logs : List LogRecord) : List RlpTree := (logsAt m logs).map Log.tree

theorem logsEncodedBound_eq (logs : List LogRecord) :
    logsEncodedBound logs = 16 + (logs.map LogRecord.size).sum := by
  have hfold : ∀ total, logs.foldl (fun total log => total + 64 + log.topicsN * 33 + log.dataN)
      total = total + (logs.map LogRecord.size).sum := by
    induction logs with
    | nil => exact fun total => rfl
    | cons log logs ih =>
      intro total
      rw [List.foldl_cons, ih, List.map_cons, List.sum_cons, LogRecord.size]
      omega
  exact hfold 16

theorem length_encodeAll_logs_le (m : ByteMap) {logs : List LogRecord}
    (h : (logs.map LogRecord.size).sum < 2 ^ 64) :
    (RlpTree.encodeAll (logTrees m logs)).length ≤ (logs.map LogRecord.size).sum := by
  induction logs with
  | nil => exact Nat.le_refl 0
  | cons log logs ih =>
    rw [List.map_cons, List.sum_cons] at h ⊢
    have hlog := length_logPayload_le m log (by omega)
    have hlist := length_rlpEncodeList_le (logPayload m log) (by omega)
    have hrest := ih (by omega)
    change (RlpTree.encodeAll ((log.log m).tree :: logTrees m logs)).length ≤ _
    rw [RlpTree.encodeAll, List.length_append, encode_log]
    omega

theorem putLogs_run {logs : List LogRecord} (hlogs : ∀ log ∈ logs, log.Below lo) (hlo : lo ≤ q)
    (hsize : (logs.map LogRecord.size).sum < 2 ^ 64) :
    ∃ s', putLogs logs q s = .ok (q + (RlpTree.encodeAll (logTrees s.bytes logs)).length) s' ∧
      s.Leaves q (RlpTree.encodeAll (logTrees s.bytes logs)) s' := by
  induction logs generalizing q s with
  | nil => exact ⟨s, rfl, leaves_nil s q⟩
  | cons log logs ih =>
    rw [List.map_cons, List.sum_cons] at hsize
    have hrest : ∀ log ∈ logs, log.Below lo := fun log hmem =>
      hlogs log (List.mem_cons_of_mem _ hmem)
    obtain ⟨s₁, hrun₁, hleaves₁⟩ :=
      encodeLog_run (s := s) (hlogs log List.mem_cons_self) hlo (by omega)
    obtain ⟨s₂, hrun₂, hleaves₂⟩ := ih (s := s₁)
      (q := q + (log.log s.bytes).tree.encode.length) hrest (by omega) (by omega)
    have hsame : logTrees s₁.bytes logs = logTrees s.bytes logs :=
      congrArg (List.map Log.tree) (logsAt_congr (hleaves₁.below.mono hlo) hrest)
    rw [hsame] at hrun₂ hleaves₂
    have hcons : RlpTree.encodeAll (logTrees s.bytes (log :: logs)) =
      (log.log s.bytes).tree.encode ++ RlpTree.encodeAll (logTrees s.bytes logs) := rfl
    rw [hcons, List.length_append, ← Nat.add_assoc]
    refine ⟨s₂, ?_, hleaves₁.append hleaves₂⟩
    rw [putLogs, bind_run_ok hrun₁, hrun₂]

theorem encodeLogs_run {logs : List LogRecord} (dst : Nat) (hlogs : ∀ log ∈ logs, log.Below lo)
    (hlo : lo ≤ dst) (hsize : (logs.map LogRecord.size).sum < 2 ^ 64) :
    ∃ s', encodeLogs dst logs s =
        .ok (rlpEncodeList (RlpTree.encodeAll (logTrees s.bytes logs))).length s' ∧
      s.Leaves dst (rlpEncodeList (RlpTree.encodeAll (logTrees s.bytes logs))) s' := by
  have hlen := length_encodeAll_logs_le s.bytes hsize
  obtain ⟨s₁, hrun₁, hleaves₁⟩ := putLogs_run (s := s) (q := dst + 9) hlogs (by omega) hsize
  obtain ⟨s₂, hrun₂, hleaves₂⟩ := finishList_run hleaves₁ (by omega)
  refine ⟨s₂, ?_, hleaves₂⟩
  unfold encodeLogs
  rw [bind_run_ok hrun₁, hrun₂]

/-! ## The bloom filter -/

/-- The address and the topics of a log. -/
def LogRecord.entryPlaces (log : LogRecord) : List (Nat × Nat) :=
  (log.address, 20) :: log.topicPlaces

theorem entryPlaces_below (h : log.Below lo) :
    ∀ place ∈ log.entryPlaces, place.1 + place.2 ≤ lo := by
  intro place hmem
  rcases List.mem_cons.mp hmem with rfl | hmem
  · exact h.address
  · exact topicPlaces_below h place hmem

theorem entries_log (m : ByteMap) (log : LogRecord) :
    (log.log m).entries = log.entryPlaces.map fun place => m.load place.1 place.2 := by
  have hentries : (log.log m).entries = addrBytes (addressAt m log.address) ::
    ((List.range log.topicsN).map fun j => hashAt m (log.topics + j * 32)).map hashBytes := rfl
  rw [hentries, addrBytes_addressAt, List.map_map, LogRecord.entryPlaces, List.map_cons,
    LogRecord.topicPlaces, List.map_map]
  refine congrArg (List.cons _) (List.map_congr_left fun j _ => ?_)
  rw [Function.comp_apply, hashBytes_hashAt, Function.comp_apply]

theorem addEntries_run [Keccak] {bloom : Nat} {v : Bloom} {places : List (Nat × Nat)}
    (hv : s.bytes.load bloom 256 = v.bytes) (hbloom : bloom + 256 ≤ s.heapPtr)
    (hplaces : ∀ place ∈ places, place.1 + place.2 ≤ bloom) :
    (∃ s', forM places (fun place => addToBloom bloom place.1 place.2) s = .ok () s' ∧
      s'.heapPtr = s.heapPtr ∧
      s'.bytes.load bloom 256 = Bloom.bytes ((places.map fun place =>
        s.bytes.load place.1 place.2).foldl (fun b entry => b ||| entryBloom entry) v) ∧
      ByteMap.SameBelow bloom s.bytes s'.bytes) ∨
      Ram.heapEnd < s.heapPtr + 39 ∧
        ∃ s', forM places (fun place => addToBloom bloom place.1 place.2) s =
          .error (.trap 1) s' := by
  induction places generalizing s v with
  | nil => exact .inl ⟨s, rfl, rfl, hv, .refl _ _⟩
  | cons place places ih =>
    have hrest : ∀ place ∈ places, place.1 + place.2 ≤ bloom := fun place hmem =>
      hplaces place (List.mem_cons_of_mem _ hmem)
    rw [List.forM_cons]
    rcases addToBloom_run place.1 place.2 hv hbloom with
      ⟨s₁, hrun₁, hheap₁, hv₁, hsame₁⟩ | ⟨hfull, s₁, hrun₁⟩
    case inr => exact .inr ⟨hfull, s₁, bind_run_error hrun₁⟩
    have hread : places.map (fun place => s₁.bytes.load place.1 place.2) =
        places.map fun place => s.bytes.load place.1 place.2 :=
      List.map_congr_left fun place hmem => hsame₁.load (hrest place hmem)
    rw [bind_run_ok hrun₁]
    rcases ih hv₁ (by omega) hrest with ⟨s₂, hrun₂, hheap₂, hv₂, hsame₂⟩ | ⟨hfull, hfail⟩
    · rw [hread] at hv₂
      exact .inl ⟨s₂, hrun₂, hheap₂.trans hheap₁, hv₂, hsame₁.trans hsame₂⟩
    · rw [hheap₁] at hfull
      exact .inr ⟨hfull, hfail⟩

theorem logsBloom_eq [Keccak] (logs : List LogRecord) (out : Nat) :
    logsBloom logs out = (do
      Ram.memzero out 256
      forM (logs.flatMap LogRecord.entryPlaces) fun place => addToBloom out place.1 place.2) := by
  have hlog : ∀ log : LogRecord, (do
      addToBloom out log.address 20
      forM (List.range log.topicsN) fun j => addToBloom out (log.topics + j * 32) 32) =
      forM log.entryPlaces fun place => addToBloom out place.1 place.2 := by
    intro log
    rw [LogRecord.entryPlaces, List.forM_cons, LogRecord.topicPlaces, List.forM_map]
  have hall : (forM logs fun log => forM log.entryPlaces fun place =>
      addToBloom out place.1 place.2) =
      forM (logs.flatMap LogRecord.entryPlaces) fun place => addToBloom out place.1 place.2 := by
    induction logs with
    | nil => rfl
    | cons log logs ih => rw [List.forM_cons, List.flatMap_cons, List.forM_append, ih]
  unfold logsBloom
  simp only [hlog, hall]

/-- The entries of all logs. -/
def logEntries (m : ByteMap) (logs : List LogRecord) : List Bytes :=
  (logsAt m logs).flatMap Log.entries

theorem logEntries_eq (m : ByteMap) (logs : List LogRecord) :
    logEntries m logs = (logs.flatMap LogRecord.entryPlaces).map fun place =>
      m.load place.1 place.2 := by
  unfold logEntries logsAt
  rw [List.flatMap_map, List.map_flatMap]
  exact congrArg (logs.flatMap ·) (funext fun log => entries_log m log)

theorem Ram.memzero_run (s : Ram) (dst n : Nat) :
    ∃ s', Ram.memzero dst n s = .ok () s' ∧ s'.heapPtr = s.heapPtr ∧
      s'.bytes.load dst n = List.replicate n 0 ∧ ByteMap.SameBelow dst s.bytes s'.bytes := by
  have hload := ByteMap.load_store_self s.bytes dst (List.replicate n 0)
  rw [List.length_replicate] at hload
  exact ⟨_, rfl, rfl, hload, ByteMap.sameBelow_store (Nat.le_refl dst)⟩

theorem bloom_bytes_zero : Bloom.bytes 0 = List.replicate 256 0 := by
  decide +kernel

/-- The filter of the logs takes the place of what was there, unless the heap is full. -/
theorem logsBloom_run [Keccak] (logs : List LogRecord) (out : Nat) (hout : out + 256 ≤ s.heapPtr)
    (hlogs : ∀ log ∈ logs, log.Below out) :
    (∃ s', logsBloom logs out s = .ok () s' ∧ s'.heapPtr = s.heapPtr ∧
      s'.bytes.load out 256 = (bloomOf (logEntries s.bytes logs)).bytes ∧
      ByteMap.SameBelow out s.bytes s'.bytes) ∨
      Ram.heapEnd < s.heapPtr + 39 ∧ ∃ s', logsBloom logs out s = .error (.trap 1) s' := by
  have hplaces : ∀ place ∈ logs.flatMap LogRecord.entryPlaces, place.1 + place.2 ≤ out := by
    intro place hmem
    obtain ⟨log, hlog, hplace⟩ := List.mem_flatMap.mp hmem
    exact entryPlaces_below (hlogs log hlog) place hplace
  obtain ⟨s₀, hrun₀, hheap₀, hzero, hsame₀⟩ := Ram.memzero_run s out 256
  have hread : (logs.flatMap LogRecord.entryPlaces).map (fun place =>
      s₀.bytes.load place.1 place.2) = logEntries s.bytes logs := by
    rw [logEntries_eq]
    exact List.map_congr_left fun place hmem => hsame₀.load (hplaces place hmem)
  rw [logsBloom_eq, bind_run_ok hrun₀]
  rw [← hheap₀] at hout ⊢
  rcases addEntries_run (hzero.trans bloom_bytes_zero.symm) hout hplaces with
    ⟨s', hrun, hheap, hv, hbelow⟩ | hfull
  · rw [hread] at hv
    exact .inl ⟨s', hrun, hheap, hv, hsame₀.trans hbelow⟩
  · exact .inr hfull

/-! ## The whole receipt -/

/-- What the transaction and its logs put into the receipt. -/
def receiptOf [Keccak] (m : ByteMap) (succeeded cumulativeGas : Word) (logs : List LogRecord) :
    Receipt where
  succeeded := succeeded != 0
  cumulativeGas := cumulativeGas
  bloom := bloomOf (logEntries m logs)
  logs := logsAt m logs

/-- The byte before the receipt of a typed transaction. -/
def typePrefix (txType : Word) : Bytes := if txType ≠ 0 then [UInt8.ofNat txType.toNat] else []

theorem length_typePrefix_le (txType : Word) : (typePrefix txType).length ≤ 1 := by
  unfold typePrefix
  split
  · exact Nat.le_refl 1
  · exact Nat.zero_le 1

def Receipt.encoding (txType : Word) (r : Receipt) : Bytes := typePrefix txType ++ r.tree.encode

/-- What is written before the bloom filter is computed. -/
def receiptHead (succeeded cumulativeGas : Word) : Bytes :=
  [if succeeded ≠ 0 then 1 else 128] ++ rlpEncodeWord cumulativeGas.toNat

def receiptPayload [Keccak] (m : ByteMap) (succeeded cumulativeGas : Word)
    (logs : List LogRecord) : Bytes :=
  receiptHead succeeded cumulativeGas ++ rlpEncodeBytes (bloomOf (logEntries m logs)).bytes ++
    rlpEncodeList (RlpTree.encodeAll (logTrees m logs))

variable {logs : List LogRecord} {txType succeeded cumulativeGas : Word}

theorem encode_receiptOf [Keccak] (m : ByteMap) :
    (receiptOf m succeeded cumulativeGas logs).tree.encode =
      rlpEncodeList (receiptPayload m succeeded cumulativeGas logs) := by
  have hstatus : rlpEncodeBytes (if (succeeded != 0) = true then [1] else []) =
      [if succeeded ≠ 0 then 1 else 128] := by
    by_cases h : succeeded = 0
    · subst h
      rfl
    · rw [if_pos (bne_iff_ne.mpr h), if_pos h]
      rfl
  have hlogs : RlpTree.encode (.list ((logsAt m logs).map Log.tree)) =
    rlpEncodeList (RlpTree.encodeAll (logTrees m logs)) := rfl
  unfold Receipt.tree receiptOf receiptPayload receiptHead
  dsimp only
  rw [RlpTree.encode, RlpTree.encodeAll, RlpTree.encodeAll, RlpTree.encodeAll, RlpTree.encodeAll,
    RlpTree.encodeAll, hlogs, RlpTree.encode, RlpTree.encode, RlpTree.encode, hstatus,
    ← RlpData.rlpEncodeWord_eq, List.append_nil, List.append_assoc, List.append_assoc]

theorem length_receiptHead_le (succeeded cumulativeGas : Word) :
    (receiptHead succeeded cumulativeGas).length ≤ 10 := by
  have hle : rlpBeLen cumulativeGas.toNat ≤ 8 := rlpBeLen_le cumulativeGas.isLt
  unfold receiptHead
  rw [List.length_append, List.length_singleton, length_rlpEncodeWord]
  split <;> omega

theorem length_bloom_bytes (b : Bloom) : b.bytes.length = 256 := length_beBytes 256 _

theorem length_receiptPayload_le [Keccak] (m : ByteMap) (succeeded cumulativeGas : Word)
    (h : (logs.map LogRecord.size).sum < 2 ^ 64) :
    (receiptPayload m succeeded cumulativeGas logs).length ≤
      (logs.map LogRecord.size).sum + 284 := by
  have hhead := length_receiptHead_le succeeded cumulativeGas
  have hlogs := length_encodeAll_logs_le m h
  have hlist := length_rlpEncodeList_le (RlpTree.encodeAll (logTrees m logs)) (by omega)
  have hbloom := length_bloom_bytes (bloomOf (logEntries m logs))
  have hbloom' := length_rlpEncodeBytes_le (bloomOf (logEntries m logs)).bytes (by omega)
  unfold receiptPayload
  rw [List.length_append, List.length_append]
  omega

/-- A range that holds an encoding, in a memory that is the old one below `lo`. -/
structure Encoded (s : Ram) (lo start n : Nat) (bs : Bytes) (s' : Ram) : Prop where
  length : n = bs.length
  content : s'.bytes.load start n = bs
  start : lo ≤ start
  below : ByteMap.SameBelow lo s.bytes s'.bytes

theorem putType_run {bs : Bytes} (txType : Word) (h : s.Leaves (p + 1) bs s') :
    ∃ start n s'', putType (p + 1) bs.length txType s' = .ok (start, n) s'' ∧
      Encoded s p start n (typePrefix txType ++ bs) s'' := by
  unfold putType typePrefix
  split
  · refine ⟨p, bs.length + 1, s'.put p [UInt8.ofNat txType.toNat], rfl, ?_, ?_, Nat.le_refl p, ?_⟩
    · rw [List.length_append, List.length_singleton, Nat.add_comm]
    · rw [Nat.add_comm, ByteMap.load_add, put_bytes]
      have hrest : (s'.bytes.store p [UInt8.ofNat txType.toNat]).load (p + 1) bs.length = bs := by
        rw [ByteMap.load_store_of_disjoint (.inr (by rw [List.length_singleton])), h.content]
      rw [hrest]
      exact congrArg (· ++ bs) (ByteMap.load_store_self s'.bytes p [UInt8.ofNat txType.toNat])
    · exact (h.below.mono (Nat.le_add_right p 1)).trans (ByteMap.sameBelow_store (Nat.le_refl p))
  · exact ⟨p + 1, bs.length, s', rfl, rfl, h.content, Nat.le_add_right p 1,
      h.below.mono (Nat.le_add_right p 1)⟩

theorem putStatus_run (s : Ram) (p : Nat) (succeeded : Word) :
    putStatus p succeeded s = .ok 1 (s.put p [if succeeded ≠ 0 then 1 else 128]) := by
  unfold putStatus
  rw [bind_run_ok (st8_run s p _)]
  split <;> rfl

/-- The end of the encoder: the filter at `q` and the logs follow what is there. -/
theorem receiptTail_run {t u : Ram} {buf q : Nat} {head : Bytes} {b : Bloom} (txType : Word)
    (p : Nat) (hleaves : t.Leaves (buf + 1 + 9) head u) (hp : p = buf + 1 + 9 + head.length)
    (hbloom : u.bytes.load q 256 = b.bytes) (hq : p + 3 ≤ q) (hlogs : ∀ log ∈ logs, log.Below buf)
    (hlt : (head ++ rlpEncodeBytes b.bytes ++
      rlpEncodeList (RlpTree.encodeAll (logTrees t.bytes logs))).length < 2 ^ 64)
    (hsize : (logs.map LogRecord.size).sum < 2 ^ 64) :
    ∃ start n s', (do
      let w ← rlpEncodeBytesAt p q 256
      let w' ← encodeLogs (p + w) logs
      let w ← rlpFinishList (buf + 1) (p + w + w')
      putType (buf + 1) w txType) u = .ok (start, n) s' ∧
      Encoded t buf start n (typePrefix txType ++ rlpEncodeList (head ++ rlpEncodeBytes b.bytes ++
        rlpEncodeList (RlpTree.encodeAll (logTrees t.bytes logs)))) s' := by
  subst hp
  have hheader : (rlpWriteHeader 128 256).length = 3 := by
    have hlen : rlpBeLen 256 = 2 := rlpBeLen_eq (by decide) (by decide)
    rw [length_rlpWriteHeader, if_neg (by decide), hlen]
  have hput : rlpEncodeBytesAt (buf + 1 + 9 + head.length) q 256 u = .ok _ _ :=
    puts_encodeBytes (.inl (by omega))
  rw [hbloom] at hput
  have hleaves₁ := hleaves.append (leaves_put u _ (rlpEncodeBytes b.bytes))
  generalize u.put (buf + 1 + 9 + head.length) (rlpEncodeBytes b.bytes) = v at hput hleaves₁
  have htrees : logTrees v.bytes logs = logTrees t.bytes logs :=
    congrArg (List.map Log.tree) (logsAt_congr (hleaves₁.below.mono (by omega)) hlogs)
  obtain ⟨w, hrun₂, hleaves₂⟩ := encodeLogs_run (s := v)
    (buf + 1 + 9 + (head ++ rlpEncodeBytes b.bytes).length) hlogs (by omega) hsize
  rw [htrees] at hrun₂ hleaves₂
  obtain ⟨x, hrun₃, hleaves₃⟩ := finishList_run (hleaves₁.append hleaves₂) hlt
  obtain ⟨start, n, y, hrun₄, hencoded⟩ := putType_run txType hleaves₃
  refine ⟨start, n, y, ?_, hencoded⟩
  rw [List.length_append, ← Nat.add_assoc] at hrun₂
  rw [List.length_append, List.length_append, ← Nat.add_assoc, ← Nat.add_assoc] at hrun₃
  rw [bind_run_ok hput, bind_run_ok hrun₂, bind_run_ok hrun₃, hrun₄]

set_option maxRecDepth 2000 in
/-- The encoder leaves the encoding of the receipt, unless the heap is full. -/
theorem encodeReceipt_run [Keccak] (txType succeeded cumulativeGas : Word)
    (hlogs : ∀ log ∈ logs, log.Below s.heapPtr) :
    (∃ start n s', encodeReceipt txType succeeded cumulativeGas logs s = .ok (start, n) s' ∧
      Encoded s s.heapPtr start n
        ((receiptOf s.bytes succeeded cumulativeGas logs).encoding txType) s' ∧ n < 2 ^ 64) ∨
      Ram.heapEnd < s.heapPtr + logsEncodedBound logs + 709 ∧
        ∃ s', encodeReceipt txType succeeded cumulativeGas logs s = .error (.trap 1) s' := by
  have hbound := logsEncodedBound_eq logs
  have hlen := length_receiptHead_le succeeded cumulativeGas
  unfold encodeReceipt
  rcases alloc_cases (logsEncodedBound logs + 400) s with
    ⟨q, hq, hq', hqend, halloc⟩ | ⟨hfull, halloc⟩
  case inr => exact .inr ⟨Nat.lt_of_lt_of_le hfull (by omega), s, bind_run_error halloc⟩
  have hqlt := lt_of_le_heapEnd hqend
  clear hqend
  generalize hbuf : s.heapPtr = buf at hlogs hq hq' halloc ⊢
  rw [bind_run_ok halloc]
  dsimp only
  rw [bind_run_ok (putStatus_run _ _ succeeded), bind_run_ok (puts_encodeWord _ _ _)]
  have hput : ((Ram.mk s.bytes q).put (buf + 1 + 9) [if succeeded ≠ 0 then 1 else 128]).put
      (buf + 1 + 9 + 1) (rlpEncodeWord cumulativeGas.toNat) =
      (Ram.mk s.bytes q).put (buf + 1 + 9) (receiptHead succeeded cumulativeGas) :=
    (put_append _ _ _ _).symm
  have hhead := leaves_put (Ram.mk s.bytes q) (buf + 1 + 9) (receiptHead succeeded cumulativeGas)
  rw [hput]
  generalize (Ram.mk s.bytes q).put (buf + 1 + 9) (receiptHead succeeded cumulativeGas) = t at hhead
  -- the bloom filter is allocated behind the buffer
  have hheap : t.heapPtr = q := hhead.heapPtr
  rcases alloc_cases 256 t with ⟨r, hr, hr', -, halloc'⟩ | ⟨hfull, halloc'⟩
  case inr => exact .inr ⟨Nat.lt_of_lt_of_le hfull (by omega), t, bind_run_error halloc'⟩
  rw [bind_run_ok halloc', hheap]
  have hentries : logEntries t.bytes logs = logEntries s.bytes logs :=
    congrArg (List.flatMap Log.entries) (logsAt_congr (hhead.below.mono (by omega)) hlogs)
  rcases logsBloom_run (s := { t with heapPtr := r }) logs q
    (show q + 256 ≤ r by omega) (fun log hmem => (hlogs log hmem).mono (by omega)) with
    ⟨u, hrun, hheap', hbloom, hsame⟩ | ⟨hfull, u, hrun⟩
  case inr =>
    exact .inr ⟨Nat.lt_of_lt_of_le hfull (show r + 39 ≤ _ by omega), u, bind_run_error hrun⟩
  rw [bind_run_ok hrun]
  rw [hentries] at hbloom
  -- relative to the memory before, with the end of the heap as it is now
  have hleaves : (Ram.mk s.bytes r).Leaves (buf + 1 + 9) (receiptHead succeeded cumulativeGas) u :=
    ⟨hheap', (hsame.load (by omega)).trans hhead.content, hhead.below.trans (hsame.mono (by omega))⟩
  have hpayload := length_receiptPayload_le s.bytes succeeded cumulativeGas
    (show (logs.map LogRecord.size).sum < 2 ^ 64 by omega)
  have hword : (receiptHead succeeded cumulativeGas).length =
      1 + (rlpEncodeWord cumulativeGas.toNat).length := by
    rw [receiptHead, List.length_append, List.length_singleton]
  obtain ⟨start, n, s', hrun', hencoded⟩ := receiptTail_run txType
    (buf + 1 + 9 + 1 + (rlpEncodeWord cumulativeGas.toNat).length) hleaves (by omega) hbloom
    (by omega) hlogs (Nat.lt_of_le_of_lt hpayload (by omega)) (by omega)
  refine .inl ⟨start, n, s', hrun', ?_, ?_⟩
  · rw [Receipt.encoding, encode_receiptOf]
    exact ⟨hencoded.length, hencoded.content, hencoded.start, hencoded.below⟩
  · have hlist := length_rlpEncodeList_le (receiptPayload s.bytes succeeded cumulativeGas logs)
      (by omega)
    have hprefix := length_typePrefix_le txType
    rw [hencoded.length, List.length_append]
    exact Nat.lt_of_le_of_lt (Nat.add_le_add hprefix hlist) (by omega)

/-! ## Decoding -/

theorem Log.tree_injective : Function.Injective Log.tree := by
  rintro ⟨address, topics, data⟩ ⟨address', topics', data'⟩ h
  obtain ⟨haddress, hitems⟩ := List.cons.inj (RlpTree.list.inj h)
  obtain ⟨htopics, hitems⟩ := List.cons.inj hitems
  obtain ⟨hdata, -⟩ := List.cons.inj hitems
  have hstr : Function.Injective fun topic : Hash => RlpTree.str (hashBytes topic) :=
    fun a b hab => hashBytes_injective (RlpTree.str.inj hab)
  obtain rfl : address = address' := addrBytes_injective (RlpTree.str.inj haddress)
  obtain rfl : topics = topics' := List.map_injective_iff.mpr hstr (RlpTree.list.inj htopics)
  obtain rfl : data = data' := RlpTree.str.inj hdata
  rfl

theorem toNat_lt_pow {n : Nat} (v : BitVec (8 * n)) : v.toNat < 256 ^ n :=
  Nat.lt_of_lt_of_eq v.isLt (Nat.pow_mul 2 8 n)

theorem Bloom.bytes_injective : Function.Injective Bloom.bytes := by
  intro b c h
  have hnat := congrArg beNat h
  have hlt : ∀ v : Bloom, v.toNat < 256 ^ 256 := @toNat_lt_pow 256
  unfold Bloom.bytes at hnat
  rw [beNat_beBytes_of_lt (hlt b), beNat_beBytes_of_lt (hlt c)] at hnat
  exact BitVec.eq_of_toNat_eq hnat

theorem rlpBe_injective : Function.Injective rlpBe := fun a b h => by
  rw [← beNat_rlpBe a, h, beNat_rlpBe]

theorem Receipt.tree_injective : Function.Injective Receipt.tree := by
  rintro ⟨succeeded, gas, bloom, logs⟩ ⟨succeeded', gas', bloom', logs'⟩ h
  obtain ⟨hstatus, hitems⟩ := List.cons.inj (RlpTree.list.inj h)
  obtain ⟨hgas, hitems⟩ := List.cons.inj hitems
  obtain ⟨hbloom, hitems⟩ := List.cons.inj hitems
  obtain ⟨hlogs, -⟩ := List.cons.inj hitems
  obtain rfl : succeeded = succeeded' := by
    have hbytes := RlpTree.str.inj hstatus
    cases succeeded <;> cases succeeded' <;> first | rfl | cases hbytes
  obtain rfl : gas = gas' := BitVec.eq_of_toNat_eq (rlpBe_injective (RlpTree.str.inj hgas))
  obtain rfl : bloom = bloom' := Bloom.bytes_injective (RlpTree.str.inj hbloom)
  obtain rfl : logs = logs' :=
    List.map_injective_iff.mpr Log.tree_injective (RlpTree.list.inj hlogs)
  rfl

/-- The encoding of a list starts with a byte from 192 on. -/
theorem head_rlpEncodeList (payload : Bytes) (h : payload.length < 2 ^ 64) :
    ∃ b rest, rlpEncodeList payload = b :: rest ∧ 192 ≤ b.toNat := by
  have hle : rlpBeLen payload.length ≤ 8 := rlpBeLen_le h
  unfold rlpEncodeList rlpEncodeListHeader rlpWriteHeader
  split
  · next hshort =>
    refine ⟨_, payload, rfl, ?_⟩
    rw [UInt8.toNat_ofNat', Nat.mod_eq_of_lt (by omega)]
    omega
  · refine ⟨_, _, rfl, ?_⟩
    rw [UInt8.toNat_ofNat', Nat.mod_eq_of_lt (by omega)]
    omega

/-- A type below 128 is told apart from the first byte of a list. -/
theorem typePrefix_unique {t t' : Word} {p p' : Bytes} (ht : t.toNat < 128) (ht' : t'.toNat < 128)
    (hp : p.length < 2 ^ 64) (hp' : p'.length < 2 ^ 64)
    (h : typePrefix t ++ rlpEncodeList p = typePrefix t' ++ rlpEncodeList p') :
    t = t' ∧ rlpEncodeList p = rlpEncodeList p' := by
  obtain ⟨b, rest, hb, hb192⟩ := head_rlpEncodeList p hp
  obtain ⟨b', rest', hb', hb192'⟩ := head_rlpEncodeList p' hp'
  have hbyte : ∀ w : Word, w.toNat < 128 → (UInt8.ofNat w.toNat).toNat = w.toNat := by
    intro w hw
    rw [UInt8.toNat_ofNat', Nat.mod_eq_of_lt (by omega)]
  have hsmall := hbyte t ht
  have hsmall' := hbyte t' ht'
  rw [hb, hb'] at h ⊢
  unfold typePrefix at h
  by_cases h0 : t = 0 <;> by_cases h0' : t' = 0
  · rw [if_neg (not_not.mpr h0), if_neg (not_not.mpr h0')] at h
    exact ⟨h0.trans h0'.symm, h⟩
  · rw [if_neg (not_not.mpr h0), if_pos h0'] at h
    have hhead := congrArg UInt8.toNat (List.cons.inj h).1
    omega
  · rw [if_pos h0, if_neg (not_not.mpr h0')] at h
    have hhead := congrArg UInt8.toNat (List.cons.inj h).1
    omega
  · rw [if_pos h0, if_pos h0'] at h
    have hhead := congrArg UInt8.toNat (List.cons.inj h).1
    exact ⟨BitVec.eq_of_toNat_eq (by omega), (List.cons.inj h).2⟩

theorem Receipt.encode_tree (r : Receipt) :
    ∃ payload, r.tree.encode = rlpEncodeList payload ∧ payload.length ≤ r.tree.encode.length :=
  ⟨_, rfl, length_le_rlpFrame true _⟩

/-- The bytes are decoded to a receipt and its type, and are the encoding of no other ones. -/
structure Receipt.Decoded (txType : Word) (r : Receipt) : Prop where
  accepted : ∃ it, rlpDecodeFully r.tree.encode = .ok it ∧ it.Describes r.tree r.tree.encode
  unique : ∀ (t : Word) (r' : Receipt), t.toNat < 128 → r'.encoding t = r.encoding txType →
    t = txType ∧ r' = r

theorem Receipt.decoded {r : Receipt} (htype : txType.toNat < 128)
    (hlt : (r.encoding txType).length < 2 ^ 64) : r.Decoded txType where
  accepted := by
    have hlen : r.tree.encode.length < 2 ^ 64 := by
      rw [Receipt.encoding, List.length_append] at hlt
      omega
    obtain ⟨it, hitem, hdesc⟩ := rlpItem_encode hlen []
    rw [List.append_nil] at hitem hdesc
    exact ⟨it, rlpDecodeFully_eq_ok.mpr ⟨hitem, hdesc.total⟩, hdesc⟩
  unique t r' ht heq := by
    have hlt' : (r'.encoding t).length < 2 ^ 64 := heq ▸ hlt
    unfold Receipt.encoding at heq hlt hlt'
    rw [List.length_append] at hlt hlt'
    obtain ⟨p, hp, hple⟩ := r.encode_tree
    obtain ⟨p', hp', hple'⟩ := r'.encode_tree
    rw [hp, hp'] at heq
    obtain ⟨htype', hencode⟩ := typePrefix_unique ht htype (by omega) (by omega) heq
    refine ⟨htype', Receipt.tree_injective ?_⟩
    refine @encode_prefix_unique _ _ [] [] (by omega) (by omega) ?_
    rw [hp, hp', hencode]

/-- The encoder writes the encoding of the receipt, unless the heap is full. It decodes to the
receipt and to nothing else, where the type is one of a transaction (below 128). The payloads of its
lists are moved to lower addresses, over themselves and whatever the alignment. -/
theorem receipt_encoding_canonical [Keccak] (txType succeeded cumulativeGas : Word)
    (hlogs : ∀ log ∈ logs, log.Below s.heapPtr) :
    let r := receiptOf s.bytes succeeded cumulativeGas logs
    ((∃ start n s', encodeReceipt txType succeeded cumulativeGas logs s = .ok (start, n) s' ∧
        Encoded s s.heapPtr start n (r.encoding txType) s' ∧
          (txType.toNat < 128 → r.Decoded txType)) ∨
      Ram.heapEnd < s.heapPtr + logsEncodedBound logs + 709 ∧
        ∃ s', encodeReceipt txType succeeded cumulativeGas logs s = .error (.trap 1) s') ∧
    ∀ (t : Ram) (dst src n : Nat), dst ≤ src →
      Ram.memcpy dst src n t = .ok () (t.put dst (t.bytes.load src n)) := by
  intro r
  refine ⟨?_, fun t dst src n hle => Ram.memcpy_run (.inl hle)⟩
  rcases encodeReceipt_run txType succeeded cumulativeGas hlogs with
    ⟨start, n, s', hrun, hrest⟩ | hfull
  · obtain ⟨hencoded, hlt⟩ := hrest
    exact .inl ⟨start, n, s', hrun, hencoded, fun htype =>
      Receipt.decoded htype (hencoded.length ▸ hlt)⟩
  · exact .inr hfull

/-- A log with two topics, in the receipt of a typed transaction. -/
theorem receipt_encoding_canonical_log :
    let _ : Keccak := ⟨fun bs => BitVec.ofNat 256 (beNat bs)⟩
    let s : Ram := ⟨fun p => UInt8.ofNat p, 2147483648⟩
    let logs : List LogRecord := [⟨4096, 8192, 2, 12288, 60⟩]
    let r := receiptOf s.bytes 1 21000 logs
    ∃ start n s', encodeReceipt 2 1 21000 logs s = .ok (start, n) s' ∧
      Encoded s s.heapPtr start n (r.encoding 2) s' ∧ (2 < 128 → r.Decoded 2) := by
  intro _ s logs r
  have hlogs : ∀ log ∈ logs, log.Below s.heapPtr := by
    intro log hmem
    obtain rfl := List.mem_singleton.mp hmem
    exact ⟨by decide, by decide, by decide⟩
  have hencoding := receipt_encoding_canonical 2 1 21000 hlogs
  exact hencoding.1.resolve_right fun hfull => absurd hfull.1 (by decide)

end StatelessGuest
