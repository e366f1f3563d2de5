import StatelessGuest.Block.Receipt

/-!
# Withdrawals

A withdrawal is 44 bytes of the payload: two words, an address and a word. It is encoded for the
trie of the withdrawals, and the length of its encoding is computed beforehand.

* `withdrawalRlpLen`, `encodeWithdrawalRlp`.
* `withdrawalRlpLen_run`, `encodeWithdrawalRlp_run`: both agree with the encoding.
-/

namespace StatelessGuest

open Lib Ram

/-! ## Words in little-endian order -/

def ldLe32 (p : Nat) : RamM Word := do
  let b₀ ← Ram.ld8 p
  let b₁ ← Ram.ld8 (p + 1)
  let b₂ ← Ram.ld8 (p + 2)
  let b₃ ← Ram.ld8 (p + 3)
  return BitVec.ofNat 64 b₀ ||| BitVec.ofNat 64 b₁ <<< 8 ||| BitVec.ofNat 64 b₂ <<< 16 |||
    BitVec.ofNat 64 b₃ <<< 24

def ldLe64 (p : Nat) : RamM Word := do
  let lo ← ldLe32 p
  let hi ← ldLe32 (p + 4)
  return lo ||| hi <<< 32

def le32At (m : ByteMap) (p : Nat) : Word :=
  BitVec.ofNat 64 (m p).toNat ||| BitVec.ofNat 64 (m (p + 1)).toNat <<< 8 |||
    BitVec.ofNat 64 (m (p + 2)).toNat <<< 16 ||| BitVec.ofNat 64 (m (p + 3)).toNat <<< 24

/-- The little-endian word at an address. -/
def le64At (m : ByteMap) (p : Nat) : Word := le32At m p ||| le32At m (p + 4) <<< 32

theorem ldLe64_run (s : Ram) (p : Nat) : ldLe64 p s = .ok (le64At s.bytes p) s := rfl

variable {m m' : ByteMap} {lo : Nat}

theorem le32At_congr {p : Nat} (h : ByteMap.SameBelow lo m m') (hp : p + 4 ≤ lo) :
    le32At m' p = le32At m p := by
  unfold le32At
  rw [h p (by omega), h (p + 1) (by omega), h (p + 2) (by omega), h (p + 3) (by omega)]

theorem le64At_congr {p : Nat} (h : ByteMap.SameBelow lo m m') (hp : p + 8 ≤ lo) :
    le64At m' p = le64At m p := by
  unfold le64At
  rw [le32At_congr h (by omega), le32At_congr h (by omega)]

/-! ## The encoder -/

def withdrawalRlpLen (wd : Nat) : RamM Word := do
  let index ← ldLe64 wd
  let a := rlpWordEncodedLen index
  let validator ← ldLe64 (wd + 8)
  let b := rlpWordEncodedLen validator
  let amount ← ldLe64 (wd + 36)
  let c := rlpWordEncodedLen amount
  let payload := a + b + 21 + c
  let hl := rlpListHeaderLen payload
  return payload + hl

/-- The address and the length of the encoding. -/
def encodeWithdrawalRlp (wd : Nat) : RamM (Nat × Nat) := do
  let buf ← alloc 64
  let p := buf + 9
  let index ← ldLe64 wd
  let w ← rlpEncodeWordAt p index
  let p := p + w
  let validator ← ldLe64 (wd + 8)
  let w ← rlpEncodeWordAt p validator
  let p := p + w
  let w ← rlpEncodeBytesAt p (wd + 16) 20
  let p := p + w
  let amount ← ldLe64 (wd + 36)
  let w ← rlpEncodeWordAt p amount
  let p := p + w
  let total ← rlpFinishList buf p
  return (buf, total)

/-! ## Withdrawals -/

structure Withdrawal where
  index : Word
  validator : Word
  address : Address
  amount : Word

def Withdrawal.tree (w : Withdrawal) : RlpTree :=
  .list [.str (rlpBe w.index.toNat), .str (rlpBe w.validator.toNat), .str (addrBytes w.address),
    .str (rlpBe w.amount.toNat)]

/-- The withdrawal at an address. -/
def withdrawalAt (m : ByteMap) (p : Nat) : Withdrawal where
  index := le64At m p
  validator := le64At m (p + 8)
  address := addressAt m (p + 16)
  amount := le64At m (p + 36)

theorem withdrawalAt_congr {p : Nat} (h : ByteMap.SameBelow lo m m') (hp : p + 44 ≤ lo) :
    withdrawalAt m' p = withdrawalAt m p := by
  unfold withdrawalAt addressAt
  rw [le64At_congr h (by omega), le64At_congr h (by omega), le64At_congr h (by omega),
    h.load (by omega)]

/-- The items of a withdrawal, one after the other. -/
def withdrawalPayload (m : ByteMap) (p : Nat) : Bytes :=
  rlpEncodeWord (le64At m p).toNat ++ rlpEncodeWord (le64At m (p + 8)).toNat ++
    rlpEncodeBytes (m.load (p + 16) 20) ++ rlpEncodeWord (le64At m (p + 36)).toNat

theorem encode_withdrawal (m : ByteMap) (p : Nat) :
    (withdrawalAt m p).tree.encode = rlpEncodeList (withdrawalPayload m p) := by
  have haddr : addrBytes (withdrawalAt m p).address = m.load (p + 16) 20 :=
    addrBytes_addressAt m (p + 16)
  unfold withdrawalPayload
  rw [Withdrawal.tree, RlpTree.encode, RlpTree.encodeAll, RlpTree.encodeAll, RlpTree.encodeAll,
    RlpTree.encodeAll, RlpTree.encodeAll, List.append_nil, RlpTree.encode, RlpTree.encode,
    RlpTree.encode, RlpTree.encode, haddr, ← RlpData.rlpEncodeWord_eq, ← RlpData.rlpEncodeWord_eq,
    ← RlpData.rlpEncodeWord_eq, List.append_assoc, List.append_assoc]
  rfl

theorem length_rlpEncodeWord_le (w : Word) : (rlpEncodeWord w.toNat).length ≤ 9 := by
  have hle : rlpBeLen w.toNat ≤ 8 := rlpBeLen_le w.isLt
  rw [length_rlpEncodeWord]
  split <;> omega

/-- A string of some length, but not one byte, takes the same for all contents. -/
theorem length_rlpEncodeBytes_load (m m' : ByteMap) {p q n : Nat} (h : n ≠ 1) :
    (rlpEncodeBytes (m.load p n)).length = (rlpEncodeBytes (m'.load q n)).length := by
  rw [rlpEncodeBytes_of_length_ne (by rwa [ByteMap.length_load]),
    rlpEncodeBytes_of_length_ne (by rwa [ByteMap.length_load]), List.length_append,
    List.length_append, ByteMap.length_load, ByteMap.length_load]

theorem length_rlpEncodeBytes_address (m : ByteMap) (p : Nat) :
    (rlpEncodeBytes (m.load p 20)).length = 21 := by
  have hlen := ByteMap.length_load m p 20
  rw [rlpEncodeBytes_of_length_ne (by omega), List.length_append, length_rlpWriteHeader, hlen]
  rfl

theorem length_withdrawalPayload (m : ByteMap) (p : Nat) :
    (withdrawalPayload m p).length = (rlpEncodeWord (le64At m p).toNat).length +
      (rlpEncodeWord (le64At m (p + 8)).toNat).length + 21 +
        (rlpEncodeWord (le64At m (p + 36)).toNat).length := by
  unfold withdrawalPayload
  rw [List.length_append, List.length_append, List.length_append, length_rlpEncodeBytes_address]

theorem length_withdrawalPayload_le (m : ByteMap) (p : Nat) :
    (withdrawalPayload m p).length ≤ 48 := by
  have h₀ := length_rlpEncodeWord_le (le64At m p)
  have h₁ := length_rlpEncodeWord_le (le64At m (p + 8))
  have h₂ := length_rlpEncodeWord_le (le64At m (p + 36))
  rw [length_withdrawalPayload]
  omega

variable {s : Ram}

theorem word_rlpWordEncodedLen (w : Word) :
    rlpWordEncodedLen w = BitVec.ofNat 64 (rlpEncodeWord w.toNat).length := by
  have hle := length_rlpEncodeWord_le w
  refine BitVec.eq_of_toNat_eq ?_
  rw [toNat_rlpWordEncodedLen, BitVec.toNat_ofNat, Nat.mod_eq_of_lt (by omega)]

theorem word_rlpListHeaderLen {n : Nat} (h : n < 2 ^ 64) :
    rlpListHeaderLen (BitVec.ofNat 64 n) = BitVec.ofNat 64 (rlpEncodeListHeader n).length := by
  have hle := length_rlpEncodeListHeader_le h
  refine BitVec.eq_of_toNat_eq ?_
  rw [toNat_rlpListHeaderLen, BitVec.toNat_ofNat, BitVec.toNat_ofNat, Nat.mod_eq_of_lt h,
    Nat.mod_eq_of_lt (by omega)]

/-- The length of a list that is not there yet. -/
theorem word_length_rlpEncodeList {payload : Bytes} (h : payload.length < 2 ^ 64) :
    BitVec.ofNat 64 payload.length + rlpListHeaderLen (BitVec.ofNat 64 payload.length) =
      BitVec.ofNat 64 (rlpEncodeList payload).length := by
  rw [word_rlpListHeaderLen h, ← BitVec.ofNat_add, rlpEncodeList, List.length_append, Nat.add_comm]

theorem withdrawalRlpLen_run (s : Ram) (wd : Nat) :
    withdrawalRlpLen wd s =
      .ok (BitVec.ofNat 64 (withdrawalAt s.bytes wd).tree.encode.length) s := by
  have hle := length_withdrawalPayload_le s.bytes wd
  have hlen : rlpWordEncodedLen (le64At s.bytes wd) + rlpWordEncodedLen (le64At s.bytes (wd + 8)) +
      21 + rlpWordEncodedLen (le64At s.bytes (wd + 36)) =
      BitVec.ofNat 64 (withdrawalPayload s.bytes wd).length := by
    rw [length_withdrawalPayload, word_rlpWordEncodedLen, word_rlpWordEncodedLen,
      word_rlpWordEncodedLen, BitVec.ofNat_add, BitVec.ofNat_add, BitVec.ofNat_add]
    rfl
  unfold withdrawalRlpLen
  rw [bind_run_ok (ldLe64_run s wd), bind_run_ok (ldLe64_run s (wd + 8)),
    bind_run_ok (ldLe64_run s (wd + 36)), hlen, word_length_rlpEncodeList (by omega),
    encode_withdrawal]
  rfl

theorem Ram.Leaves.encodeWord {s' : Ram} {p : Nat} {bs : Bytes} (h : s.Leaves p bs s') (q : Nat)
    (w : Word) (hq : q = p + bs.length) :
    ∃ s'', rlpEncodeWordAt q w s' = .ok (rlpEncodeWord w.toNat).length s'' ∧
      s.Leaves p (bs ++ rlpEncodeWord w.toNat) s'' := by
  subst hq
  exact ⟨_, puts_encodeWord s' _ w, h.append (leaves_put s' _ _)⟩

/-- A word of the old memory is read after a write behind it. -/
theorem Ram.Leaves.ldLe64 {s' : Ram} {p : Nat} {bs : Bytes} (h : s.Leaves p bs s') (q : Nat)
    (hq : q + 8 ≤ p) : ldLe64 q s' = .ok (le64At s.bytes q) s' := by
  rw [ldLe64_run, le64At_congr h.below hq]

/-- The encoder leaves the encoding of the withdrawal, unless the heap is full. -/
theorem encodeWithdrawalRlp_run {wd : Nat} (hwd : wd + 44 ≤ s.heapPtr) :
    (∃ s', encodeWithdrawalRlp wd s =
        .ok (s.heapPtr, (withdrawalAt s.bytes wd).tree.encode.length) s' ∧
      s'.bytes.load s.heapPtr (withdrawalAt s.bytes wd).tree.encode.length =
        (withdrawalAt s.bytes wd).tree.encode ∧
      s.heapPtr + 64 ≤ s'.heapPtr ∧ ByteMap.SameBelow s.heapPtr s.bytes s'.bytes) ∨
      Ram.heapEnd < s.heapPtr + 71 ∧ ∃ s', encodeWithdrawalRlp wd s = .error (.trap 1) s' := by
  have hle := length_withdrawalPayload_le s.bytes wd
  unfold encodeWithdrawalRlp
  rcases alloc_cases 64 s with ⟨q, hq, -, -, halloc⟩ | ⟨hfull, halloc⟩
  case inr => exact .inr ⟨hfull, s, bind_run_error halloc⟩
  left
  generalize s.heapPtr = buf at hwd hq halloc ⊢
  rw [bind_run_ok halloc]
  have hleaves := leaves_nil (Ram.mk s.bytes q) (buf + 9)
  obtain ⟨s₁, hrun₁, hleaves₁⟩ := hleaves.encodeWord (buf + 9) (le64At s.bytes wd) rfl
  rw [List.nil_append] at hleaves₁
  obtain ⟨s₂, hrun₂, hleaves₂⟩ := hleaves₁.encodeWord _ (le64At s.bytes (wd + 8)) rfl
  obtain ⟨s₃, hrun₃, hleaves₃⟩ := hleaves₂.encodeBytes _ (wd + 16) 20
    (by rw [List.length_append, ← Nat.add_assoc]) (by omega)
  obtain ⟨s₄, hrun₄, hleaves₄⟩ := hleaves₃.encodeWord _ (le64At s.bytes (wd + 36))
    (by rw [List.length_append, List.length_append, ← Nat.add_assoc, ← Nat.add_assoc])
  obtain ⟨s₅, hrun₅, hleaves₅⟩ :=
    finishList_run hleaves₄ (show (withdrawalPayload s.bytes wd).length < 2 ^ 64 by omega)
  rw [List.length_append, List.length_append, List.length_append, ← Nat.add_assoc, ← Nat.add_assoc,
    ← Nat.add_assoc] at hrun₅
  have hencode : rlpEncodeList (withdrawalPayload s.bytes wd) = (withdrawalAt s.bytes wd).tree.encode :=
    (encode_withdrawal s.bytes wd).symm
  refine ⟨s₅, ?_, ?_, ?_, ?_⟩
  · dsimp only
    rw [bind_run_ok (hleaves.ldLe64 wd (by omega)), bind_run_ok hrun₁,
      bind_run_ok (hleaves₁.ldLe64 (wd + 8) (by omega)), bind_run_ok hrun₂, bind_run_ok hrun₃,
      bind_run_ok (hleaves₃.ldLe64 (wd + 36) (by omega)), bind_run_ok hrun₄, bind_run_ok hrun₅,
      ← hencode]
    rfl
  · rw [← hencode]
    exact hleaves₅.content
  · exact Nat.le_trans hq (Nat.le_of_eq hleaves₅.heapPtr.symm)
  · exact hleaves₅.below

end StatelessGuest
