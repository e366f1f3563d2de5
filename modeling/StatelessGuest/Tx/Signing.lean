import StatelessGuest.Evm.Calls
import StatelessGuest.Tx.RoundTrip

/-!
# Signatures of transactions

What is signed is the encoding without the signature. A legacy transaction commits to a chain by its
`v`, the others by a field.

* `txChainId`, `signatureRecoveryParameters`, `recoverSender`: the code.
* `Tx.signingMode`, `TxMode.parity`: what is signed, and the `v` that goes with it.
* `message_injective`: a message is signed for one type, one chain and the same fields.
* `signature_fixes_envelope`: a signature of a message belongs to one envelope.
* `recover_sender_agrees`: a sender is recovered for the chain of the transaction.
-/

namespace StatelessGuest

open RlpTree (encodeAll)

/-! ## The code -/

section

variable [Keccak]

def txSigningHashMode (tx : Tx) (mode : TxMode) : Hash := keccak256 (txEncodeGeneric tx mode)

def signingHashPre155 (tx : Tx) : Hash := txSigningHashMode tx .unsigned

def signingHash155 (tx : Tx) (chainId : Word) : Hash := txSigningHashMode tx (.chained chainId)

def signingHash2930 (tx : Tx) : Hash := txSigningHashMode tx .unsigned

def signingHash1559 (tx : Tx) : Hash := txSigningHashMode tx .unsigned

def signingHash4844 (tx : Tx) : Hash := txSigningHashMode tx .unsigned

def signingHash7702 (tx : Tx) : Hash := txSigningHashMode tx .unsigned

def signingHashTyped (tx : Tx) : Hash :=
  if tx.type = .accessList then signingHash2930 tx
  else if tx.type = .feeMarket then signingHash1559 tx
  else if tx.type = .blob then signingHash4844 tx
  else signingHash7702 tx

/-- The chain that a transaction commits to, if it does. -/
def txChainId (tx : Tx) : Except Exn (Option Word) :=
  if tx.type ≠ .legacy then .ok (some tx.chainId)
  else if u256FitsWord tx.v ∧ (tx.v = 27 ∨ tx.v = 28) then .ok none
  else if u256FitsWord tx.v ∧ tx.v < 35 then .error (.tx 44)
  else if u256FitsWord ((tx.v - 35) >>> 1) then .ok (some (((tx.v - 35) >>> 1).setWidth 64))
  else .error (.tx 45)

/-- The recovery id and the hash that is signed. -/
def signatureRecoveryParameters (tx : Tx) (chainId : Word) : Except Exn (Word × Hash) :=
  if tx.r = 0 then .error (.tx 40)
  else if ¬ tx.r < secp256k1N then .error (.tx 40)
  else if tx.s = 0 then .error (.tx 41)
  else if secp256k1NHalf < tx.s then .error (.tx 41)
  else if tx.type = .legacy then
    if u256FitsWord tx.v ∧ (tx.v = 27 ∨ tx.v = 28) then
      .ok (tx.v.setWidth 64 - 27, signingHashPre155 tx)
    else
      let x2 := u256FromWord chainId + u256FromWord chainId
      if tx.v ≠ x2 + 35 ∧ tx.v ≠ x2 + 36 then .error (.tx 42)
      else .ok (if tx.v = x2 + 36 then 1 else 0, signingHash155 tx chainId)
  else if u256FitsWord tx.v = false then .error (.tx 43)
  else if 1 < tx.v.setWidth 64 then .error (.tx 43)
  else .ok (tx.v.setWidth 64, signingHashTyped tx)

/-- The address of a public key without its first byte. -/
def senderAddressFromPublicKey (key : Bytes) : Address := addrOfHash (keccak256 key)

end

section

variable [Crypto] [Keccak]

def recoverTransactionPublicKey (tx : Tx) (chainId : Word) : Except Exn Bytes := do
  let (recid, h) ← signatureRecoveryParameters tx chainId
  match Crypto.secp256k1Recover h tx.r tx.s recid with
  | none => .error (.tx 46)
  | some key => .ok key

def recoverSenderWithChainId (tx : Tx) (chainId : Word) : Except Exn Address := do
  return senderAddressFromPublicKey (← recoverTransactionPublicKey tx chainId)

/-- The chain is the one that the transaction commits to. -/
def recoverSender (tx : Tx) : Except Exn Address := do
  let cid ← txChainId tx
  recoverSenderWithChainId tx (cid.getD 0)

end

/-! ## What is signed -/

variable {tx tx' : Tx} {mode mode' : TxMode} {c c' recid : Word} {h : Hash}

def Tx.signingMode (tx : Tx) (chainId : Word) : TxMode :=
  if tx.type = .legacy ∧ ¬ (tx.v = 27 ∨ tx.v = 28) then .chained chainId else .unsigned

/-- The `v` of a signature with a recovery id. -/
def TxMode.parity (t : TxType) (recid : Word) : TxMode → U256
  | .full => u256FromWord recid
  | .unsigned => if t = .legacy then 27 + u256FromWord recid else u256FromWord recid
  | .chained c => u256FromWord c + u256FromWord c + 35 + u256FromWord recid

theorem u256FitsWord_iff (v : U256) : u256FitsWord v = true ↔ v.toNat < 2 ^ 64 := by
  have hlt := v.isLt
  unfold u256FitsWord
  rw [decide_eq_true_iff, ← BitVec.toNat_inj, BitVec.toNat_ushiftRight, Nat.shiftRight_eq_div_pow]
  change v.toNat / 2 ^ 64 = 0 ↔ _
  omega

theorem u256_pos {v : U256} (h : v ≠ 0) : 0 < v :=
  BitVec.lt_def.mpr (Nat.pos_of_ne_zero fun hzero => h (BitVec.eq_of_toNat_eq hzero))

theorem u256FromWord_setWidth {v : U256} (hv : u256FitsWord v = true) :
    u256FromWord (v.setWidth 64) = v := by
  have hlt := (u256FitsWord_iff v).mp hv
  refine BitVec.eq_of_toNat_eq ?_
  rw [u256FromWord, BitVec.toNat_setWidth, BitVec.toNat_setWidth, Nat.mod_eq_of_lt hlt,
    Nat.mod_eq_of_lt v.isLt]

section

variable [Keccak]

theorem signingHashTyped_eq (tx : Tx) : signingHashTyped tx = txSigningHashMode tx .unsigned := by
  unfold signingHashTyped
  split
  · rfl
  split
  · rfl
  split <;> rfl

/-- The parameters of a recovery say what was signed, and determine `v`. -/
theorem signatureRecoveryParameters_ok (hrun : signatureRecoveryParameters tx c = .ok (recid, h)) :
    (0 < tx.r ∧ tx.r < secp256k1N) ∧ (0 < tx.s ∧ tx.s ≤ secp256k1NHalf) ∧ recid ≤ 1 ∧
      h = keccak256 (txEncodeGeneric tx (tx.signingMode c)) ∧
      tx.v = (tx.signingMode c).parity tx.type recid := by
  unfold signatureRecoveryParameters at hrun
  simp only [check_eq_ok] at hrun
  obtain ⟨hr0, hr, hs0, hs, hrun⟩ := hrun
  refine ⟨⟨u256_pos hr0, not_not.mp hr⟩, ⟨u256_pos hs0, BitVec.not_lt.mp hs⟩, ?_⟩
  unfold Tx.signingMode
  split at hrun
  · next hlegacy =>
    split at hrun
    · next hv =>
      obtain ⟨rfl, rfl⟩ := Prod.mk.inj (Except.ok.inj hrun)
      rw [if_neg fun hc => hc.2 hv.2, TxMode.parity, if_pos hlegacy]
      rcases hv.2 with hv | hv <;> rw [hv] <;> exact ⟨by decide, rfl, by decide⟩
    · next hv =>
      have hold : ¬ (tx.v = 27 ∨ tx.v = 28) := by
        rintro (h27 | h28)
        · exact hv ⟨by rw [h27]; decide, .inl h27⟩
        · exact hv ⟨by rw [h28]; decide, .inr h28⟩
      rw [if_pos ⟨hlegacy, hold⟩]
      obtain ⟨hx, hrun⟩ := check_eq_ok.mp hrun
      obtain ⟨rfl, rfl⟩ := Prod.mk.inj (Except.ok.inj hrun)
      refine ⟨by split <;> decide, rfl, ?_⟩
      change tx.v = u256FromWord c + u256FromWord c + 35 + u256FromWord _
      by_cases h36 : tx.v = u256FromWord c + u256FromWord c + 36
      · rw [if_pos h36, h36, BitVec.add_assoc _ 35]
        rfl
      · have h35 : tx.v = u256FromWord c + u256FromWord c + 35 := by
          by_contra hne
          exact hx ⟨hne, h36⟩
        rw [if_neg h36, BitVec.add_assoc _ 35]
        exact h35
  · next htyped =>
    simp only [check_eq_ok] at hrun
    obtain ⟨hfits, hone, hrun⟩ := hrun
    obtain ⟨rfl, rfl⟩ := Prod.mk.inj (Except.ok.inj hrun)
    rw [if_neg fun hc => htyped hc.1, TxMode.parity, if_neg htyped, signingHashTyped_eq]
    exact ⟨BitVec.not_lt.mp hone, rfl,
      (u256FromWord_setWidth (Bool.eq_true_of_not_eq_false hfits)).symm⟩

end

/-! ## Messages -/

theorem length_signedItems (ht : tx.type = tx'.type) :
    tx.signedItems.length = tx'.signedItems.length := by
  unfold Tx.signedItems
  simp only [List.length_append, length_chainItems, length_feeItems, length_accessItems,
    length_blobItems, length_authItems, List.length_cons, List.length_nil, ht]

theorem wordTree_injective {w w' : Word} (h : wordTree w = wordTree w') : w = w' := by
  have hbe : rlpBe w.toNat = rlpBe w'.toNat := RlpTree.str.inj h
  have hnat := congrArg beNat hbe
  rw [beNat_rlpBe, beNat_rlpBe] at hnat
  exact BitVec.eq_of_toNat_eq hnat

theorem length_list_lt {ts : List RlpTree} (h : (encodeAll ts).length < 2 ^ 56) :
    (RlpTree.list ts).encode.length < 2 ^ 64 := by
  have hle : (RlpTree.list ts).encode.length ≤ _ := length_list_le (Nat.lt_trans h (by decide))
  omega

/-- **Messages are injective.** A message of a transaction that fits a memory is the one of its
type, its signed fields and what stands behind them. -/
theorem message_injective (hx : (encodeAll (tx.items mode)).length < 2 ^ 56)
    (hx' : (encodeAll (tx'.items mode')).length < 2 ^ 56)
    (heq : tx.type.head ++ (RlpTree.list (tx.items mode)).encode =
      tx'.type.head ++ (RlpTree.list (tx'.items mode')).encode) :
    tx.type = tx'.type ∧ tx.signedItems = tx'.signedItems ∧
      tx.tailItems mode = tx'.tailItems mode' := by
  obtain ⟨b, hb, hbt⟩ := ofByte_envelope tx.type hx
  obtain ⟨b', hb', hbt'⟩ := ofByte_envelope tx'.type hx'
  rw [heq, hb'] at hb
  obtain rfl := Option.some.inj hb
  have ht : tx.type = tx'.type := Option.some.inj (hbt.symm.trans hbt')
  rw [ht] at heq
  have hlist := List.append_cancel_left heq
  have hpayload : encodeAll (tx.items mode) = encodeAll (tx'.items mode') := by
    have hfits := length_list_lt hx
    have hfits' := length_list_lt hx'
    have htree := encode_prefix_unique hfits hfits' (congrArg (· ++ []) hlist)
    exact congrArg encodeAll (RlpTree.list.inj htree)
  have hitems := encodeAll_injective (Nat.lt_trans hx (by decide)) hpayload
  obtain ⟨hsigned, htail⟩ := List.append_inj hitems (length_signedItems ht)
  exact ⟨ht, hsigned, htail⟩

theorem signingMode_eq
    (h : tx.tailItems (tx.signingMode c) = tx'.tailItems (tx'.signingMode c')) :
    tx.signingMode c = tx'.signingMode c' := by
  unfold Tx.signingMode at h ⊢
  split at h <;> split at h
  · next h₁ h₂ =>
    rw [if_pos h₁, if_pos h₂, wordTree_injective (List.cons.inj h).1]
  · cases h
  · cases h
  · next h₁ h₂ => rw [if_neg h₁, if_neg h₂]

theorem length_items_le (tx : Tx) (mode : TxMode) :
    (encodeAll (tx.items mode)).length ≤ (encodeAll (tx.items .full)).length + 99 := by
  have htail := length_txTail_le tx mode
  unfold Tx.items
  rw [Mpt.encodeAll_append, Mpt.encodeAll_append, List.length_append, List.length_append,
    tailItems_encode tx mode]
  omega

/-- The encodings of a transaction from an envelope. -/
theorem decoded_encodings {bs : Bytes} (hlt : bs.length < 2 ^ 55)
    (hdec : decodeTransaction bs = .ok tx) :
    bs = tx.type.head ++ (RlpTree.list (tx.items .full)).encode ∧
      (∀ mode, (encodeAll (tx.items mode)).length < 2 ^ 56) ∧
      ∀ mode, txEncodeGeneric tx mode =
        tx.type.head ++ (RlpTree.list (tx.items mode)).encode := by
  obtain ⟨hvalid, hbs⟩ := accepted_envelope (by omega) hdec
  obtain ⟨hfull, hextent⟩ := Tx.extent_le_envelope hvalid hbs
  refine ⟨hbs, fun mode => ?_, fun mode => txEncodeGeneric_eq (by omega)⟩
  have hle := length_items_le tx mode
  omega

/-- **A signature belongs to one envelope.** Take two accepted envelopes whose signatures have the
same values and recovery id and sign the same hash, perhaps for different chains. If the hash is not
a collision, they are one envelope. -/
theorem signature_fixes_envelope [Keccak] {bs bs' : Bytes} (hlt : bs.length < 2 ^ 55)
    (hlt' : bs'.length < 2 ^ 55) (hdec : decodeTransaction bs = .ok tx)
    (hdec' : decodeTransaction bs' = .ok tx')
    (hsig : signatureRecoveryParameters tx c = .ok (recid, h))
    (hsig' : signatureRecoveryParameters tx' c' = .ok (recid, h))
    (hr : tx.r = tx'.r) (hs : tx.s = tx'.s)
    (hhash : keccak256 (txEncodeGeneric tx (tx.signingMode c)) =
        keccak256 (txEncodeGeneric tx' (tx'.signingMode c')) →
      txEncodeGeneric tx (tx.signingMode c) = txEncodeGeneric tx' (tx'.signingMode c')) :
    bs = bs' ∧ tx = tx' ∧ tx.signingMode c = tx'.signingMode c' := by
  obtain ⟨hbs, hfits, henc⟩ := decoded_encodings hlt hdec
  obtain ⟨hbs', hfits', henc'⟩ := decoded_encodings hlt' hdec'
  obtain ⟨-, -, -, hh, hv⟩ := signatureRecoveryParameters_ok hsig
  obtain ⟨-, -, -, hh', hv'⟩ := signatureRecoveryParameters_ok hsig'
  have hmessage := hhash (hh.symm.trans hh')
  rw [henc, henc'] at hmessage
  obtain ⟨ht, hsigned, htail⟩ := message_injective (hfits _) (hfits' _) hmessage
  have hmode := signingMode_eq htail
  have hveq : tx.v = tx'.v := by rw [hv, hv', hmode, ht]
  have hitems : tx.items .full = tx'.items .full := by
    simp only [Tx.items, Tx.tailItems, hsigned, hveq, hr, hs]
  have heq : bs = bs' := by rw [hbs, hbs', hitems, ht]
  refine ⟨heq, ?_, hmode⟩
  rw [heq, hdec'] at hdec
  exact (Except.ok.inj hdec).symm

/-- The chain that is given does not matter to a transaction that names one. -/
theorem signature_fixes_envelope_small :
    let _ : Keccak := numKeccak
    smallTx.raw = smallTx.raw ∧ smallTx = smallTx ∧
      smallTx.signingMode 1 = smallTx.signingMode 2 := by
  intro _
  have hsig : ∀ c, signatureRecoveryParameters smallTx c =
      .ok (1, txSigningHashMode smallTx .unsigned) := fun c => rfl
  exact signature_fixes_envelope (by decide) (by decide) smallTx_decoded smallTx_decoded (hsig 1)
    (hsig 2) rfl rfl fun _ => congrArg (txEncodeGeneric smallTx) rfl

/-! ## The sender -/

section

variable [Keccak]

/-- A transaction that names its chain, or none, is signed alike for all. -/
theorem signatureRecoveryParameters_congr (hmode : tx.signingMode c = .unsigned) (c' : Word) :
    signatureRecoveryParameters tx c' = signatureRecoveryParameters tx c := by
  unfold Tx.signingMode at hmode
  split at hmode
  · cases hmode
  next hopen =>
  unfold signatureRecoveryParameters
  by_cases hlegacy : tx.type = .legacy
  · have hv : tx.v = 27 ∨ tx.v = 28 := not_not.mp fun hv => hopen ⟨hlegacy, hv⟩
    have hfits : u256FitsWord tx.v = true := by
      rcases hv with hv | hv <;> rw [hv] <;> decide
    simp only [hlegacy, if_true, if_pos (And.intro hfits hv)]
  · simp only [hlegacy, if_false]

omit [Keccak] in
theorem txChainId_of_unsigned (hmode : tx.signingMode c = .unsigned) :
    ∃ cid, txChainId tx = .ok cid := by
  unfold Tx.signingMode at hmode
  split at hmode
  · cases hmode
  next hopen =>
  unfold txChainId
  by_cases hlegacy : tx.type = .legacy
  · have hv : tx.v = 27 ∨ tx.v = 28 := not_not.mp fun hv => hopen ⟨hlegacy, hv⟩
    have hfits : u256FitsWord tx.v = true := by
      rcases hv with hv | hv <;> rw [hv] <;> decide
    exact ⟨none, by rw [if_neg (not_not.mpr hlegacy), if_pos ⟨hfits, hv⟩]⟩
  · exact ⟨some tx.chainId, if_pos hlegacy⟩

omit [Keccak] in
/-- The chain of a legacy transaction can be told from `v`. -/
theorem txChainId_of_chained (hlegacy : tx.type = .legacy) (hrec : recid ≤ 1)
    (hv : tx.v = (TxMode.chained c).parity tx.type recid) : txChainId tx = .ok (some c) := by
  have hc := c.isLt
  have hrec : recid.toNat ≤ 1 := hrec
  have h35 : (35 : U256).toNat = 35 := rfl
  have hwide : ∀ w : Word, (u256FromWord w).toNat = w.toNat := fun w => by
    rw [u256FromWord, BitVec.toNat_setWidth, Nat.mod_eq_of_lt (Nat.lt_trans w.isLt (by decide))]
  have hnat : tx.v.toNat = 2 * c.toNat + 35 + recid.toNat := by
    rw [hv, TxMode.parity, BitVec.toNat_add, BitVec.toNat_add, BitVec.toNat_add, hwide, hwide, h35]
    omega
  have hshift : ((tx.v - 35) >>> 1).toNat = c.toNat := by
    rw [BitVec.toNat_ushiftRight, BitVec.toNat_sub, h35, hnat, Nat.shiftRight_eq_div_pow]
    omega
  have hfits : u256FitsWord ((tx.v - 35) >>> 1) = true := by
    rw [u256FitsWord_iff, hshift]
    exact hc
  have hold : ¬ (tx.v = 27 ∨ tx.v = 28) := by
    rintro (h27 | h28)
    · rw [h27] at hnat
      change 27 = _ at hnat
      omega
    · rw [h28] at hnat
      change 28 = _ at hnat
      omega
  have hlarge : ¬ tx.v < 35 := by
    rw [BitVec.lt_def, h35]
    omega
  have hword : ((tx.v - 35) >>> 1).setWidth 64 = c := by
    refine BitVec.eq_of_toNat_eq ?_
    rw [BitVec.toNat_setWidth, hshift, Nat.mod_eq_of_lt hc]
  unfold txChainId
  rw [if_neg (not_not.mpr hlegacy), if_neg fun h => hold h.2, if_neg fun h => hlarge h.2,
    if_pos hfits, hword]

end

/-- **Senders are recovered for one chain.** The sender that is recovered for the chain of a block
is the one for the chain that the transaction commits to. A legacy transaction that commits to a
chain has a sender on no other. -/
theorem recover_sender_agrees [Crypto] [Keccak] {a : Address}
    (h : recoverSenderWithChainId tx c = .ok a) : recoverSender tx = .ok a ∧
      (tx.type = .legacy → tx.v ≠ 27 → tx.v ≠ 28 → txChainId tx = .ok (some c)) := by
  have hchained : tx.type = .legacy ∧ ¬ (tx.v = 27 ∨ tx.v = 28) → txChainId tx = .ok (some c) := by
    intro hcommits
    obtain ⟨key, hkey, -⟩ := except_bind_eq_ok.mp h
    obtain ⟨⟨recid, hash⟩, hsig, -⟩ := except_bind_eq_ok.mp hkey
    obtain ⟨-, -, hrec, -, hv⟩ := signatureRecoveryParameters_ok hsig
    rw [Tx.signingMode, if_pos hcommits] at hv
    exact txChainId_of_chained hcommits.1 hrec hv
  refine ⟨?_, fun hlegacy h27 h28 => hchained ⟨hlegacy, not_or.mpr ⟨h27, h28⟩⟩⟩
  by_cases hcommits : tx.type = .legacy ∧ ¬ (tx.v = 27 ∨ tx.v = 28)
  · exact except_bind_eq_ok.mpr ⟨some c, hchained hcommits, h⟩
  · have hmode : tx.signingMode c = .unsigned := if_neg hcommits
    obtain ⟨cid, hcid⟩ := txChainId_of_unsigned hmode
    refine except_bind_eq_ok.mpr ⟨cid, hcid, ?_⟩
    unfold recoverSenderWithChainId recoverTransactionPublicKey at h ⊢
    rwa [signatureRecoveryParameters_congr hmode]

/-- A legacy transaction that commits to chain 1. -/
def chainedTx : Tx := { smallTx with type := .legacy, chainId := 0, v := 37 }

theorem recover_sender_agrees_chained :
    let _ : Crypto := stubCrypto
    let _ : Keccak := numKeccak
    recoverSender chainedTx = .ok 48 ∧ txChainId chainedTx = .ok (some 1) := by
  intro _ _
  have hrun : recoverSenderWithChainId chainedTx 1 = .ok 48 := rfl
  have hagrees := recover_sender_agrees hrun
  exact ⟨hagrees.1, hagrees.2 rfl (by decide) (by decide)⟩

end StatelessGuest
