import StatelessGuest.Header.Chain
import StatelessGuest.Header.Rules

/-!
# The validation of a header

A header is compared with the header of its parent: the gas rules, the counters, the fields that are
fixed, and the hash of the parent.

* `validateHeader`, `HeaderChecks`: the comparisons in words; `validateHeader_decides`.
* `HeaderRules`: the same over the naturals.
* `header_rules_exact_iff`: they agree exactly as far as the sums of limits and of blob gas fit.
-/

namespace StatelessGuest

open Lib Ram

/-! ## The validator -/

/-- Two ranges hold the same bytes. -/
def Ram.memeq (a b n : Nat) : RamM Bool := do
  let s ← get
  return s.bytes.load a n = s.bytes.load b n

/-- `header_init`: a nonce of zeros. -/
def headerInit : RamM Nat := do
  let hdrZero8 ← alloc 8
  memzero hdrZero8 8
  return hdrZero8

/-- The hashes are computed in a buffer that is released again. -/
def validateHashes [Keccak] (hdrZero8 : Nat) (parent h : HeaderRecord) : RamM Unit := do
  let eq ← Ram.memeq h.nonce.toNat hdrZero8 8
  if eq = false then throw (.block 28)
  else do
    let mark ← heapMark
    let tmp ← alloc 64
    st8 tmp 192
    keccakAt tmp 1 (tmp + 32)
    let eq ← Ram.memeq h.ommersHash.toNat (tmp + 32) 32
    if eq = false then do
      heapRelease mark
      throw (.block 29)
    else do
      headerHash parent tmp
      let eq ← Ram.memeq h.parentHash.toNat tmp 32
      heapRelease mark
      if eq = false then throw (.block 30) else return ()

def validateHeader [Keccak] (hdrZero8 : Nat) (parent h : HeaderRecord) : RamM Unit :=
  if h.number < 1 then throw (.block 20)
  else do
    let ebg ← liftRam (calculateExcessBlobGas parent)
    if h.excessBlobGas ≠ ebg then throw (.block 21)
    else if h.gasLimit < h.gasUsed then throw (.block 22)
    else do
      let expected ← liftRam (calculateBaseFeePerGas h.gasLimit parent.gasLimit parent.gasUsed
        parent.baseFee)
      if expected ≠ h.baseFee then throw (.block 23)
      else if h.timestamp ≤ parent.timestamp then throw (.block 24)
      else if h.number ≠ parent.number + 1 then throw (.block 25)
      else if 32 < h.extraN then throw (.block 26)
      else if h.difficulty ≠ 0 then throw (.block 27)
      else validateHashes hdrZero8 parent h

/-! ## Comparisons -/

/-- A run that accepts when `p` holds and rejects when it does not, unless the heap is full. -/
inductive Decides (s : Ram) (p : Prop) : EStateM.Result Exn Ram Unit → Prop where
  | accept {s' : Ram} (hp : p) : Decides s p (.ok () s')
  | reject {s' : Ram} {c : Nat} (hp : ¬ p) : Decides s p (.error (.block c) s')
  | full {s' : Ram} (hfull : Ram.heapEnd < s.heapPtr + 1142) : Decides s p (.error (.trap 1) s')

section

variable {s : Ram} {p q : Prop} {r : EStateM.Result Exn Ram Unit}

theorem Decides.congr (h : Decides s p r) (hpq : p ↔ q) : Decides s q r := by
  rwa [propext hpq] at h

theorem Decides.unless {c : Prop} [Decidable c] {k : Nat} {f : RamM Unit} (h : Decides s p (f s)) :
    Decides s (¬ c ∧ p) ((if c then throw (.block k) else f) s) := by
  by_cases hc : c
  · rw [if_pos hc]
    exact .reject fun hp => hp.1 hc
  · rw [if_neg hc]
    exact h.congr ⟨fun hp => ⟨hc, hp⟩, fun hp => hp.2⟩

theorem Decides.accepts (h : Decides s p r) (hok : ∃ s', r = .ok () s') : p := by
  obtain ⟨s', rfl⟩ := hok
  cases h with
  | accept hp => exact hp

theorem Decides.of_holds (h : Decides s p r) (hp : p) :
    (∃ s', r = .ok () s') ∨ Ram.heapEnd < s.heapPtr + 1142 ∧ ∃ s', r = .error (.trap 1) s' := by
  cases h with
  | accept => exact .inl ⟨_, rfl⟩
  | reject hnot => exact absurd hp hnot
  | full hfull => exact .inr ⟨hfull, _, rfl⟩

end

/-- The strings of both headers lie below the end of the heap, the parent's base fee in the buffer
of the encoder, and the nonce of zeros is there. -/
structure HeaderPlaced (s : Ram) (hdrZero8 : Nat) (parent h : HeaderRecord) : Prop where
  parentBelow : ∀ item ∈ parent.items, item.Below s.heapPtr
  fits : parent.FitsBuffer s.read
  payload : (parent.payload s.read).length < 2 ^ 64
  childBelow : ∀ item ∈ h.items, item.Below s.heapPtr
  below : hdrZero8 + 8 ≤ s.heapPtr
  zeros : s.bytes.load hdrZero8 8 = List.replicate 8 0

theorem memeq_run (s : Ram) (a b n : Nat) :
    Ram.memeq a b n s = .ok (decide (s.bytes.load a n = s.bytes.load b n)) s := rfl

/-- A string of a header that is placed lies below the end of the heap. -/
theorem HeaderPlaced.below_of_mem {s : Ram} {hdrZero8 : Nat} {parent h : HeaderRecord} {p n : Word}
    (hplaced : HeaderPlaced s hdrZero8 parent h) (hn : n ≠ 0)
    (hmem : .bytes p n ∈ h.items) : p.toNat + n.toNat ≤ s.heapPtr :=
  (hplaced.childBelow _ hmem).resolve_left hn

theorem mem_items_ommers (h : HeaderRecord) : .bytes h.ommersHash 32 ∈ h.items := by
  simp [HeaderRecord.items, HeaderRecord.itemsBefore]

theorem mem_items_parent (h : HeaderRecord) : .bytes h.parentHash 32 ∈ h.items := by
  simp [HeaderRecord.items, HeaderRecord.itemsBefore]

/-- The hashes and the nonce that a header has to carry. -/
structure HashRules [Keccak] (s : Ram) (parent h : HeaderRecord) : Prop where
  nonce : s.read h.nonce 8 = List.replicate 8 0
  ommers : s.read h.ommersHash 32 = hashBytes (keccak256 [0xc0])
  parentHash : s.read h.parentHash 32 = hashBytes (keccak256 (parent.encoding s.read))

section

variable [Keccak] {s : Ram} {hdrZero8 : Nat} {parent h : HeaderRecord}

/-- The hash of a header goes to `out`, unless the heap is full. -/
theorem headerHash_cases (out : Nat) (hbelow : ∀ item ∈ h.items, item.Below s.heapPtr)
    (hfits : h.FitsBuffer s.read) (hlt : (h.payload s.read).length < 2 ^ 64) :
    (∃ s', headerHash h out s = .ok () s' ∧
      s'.bytes.load out 32 = hashBytes (keccak256 (h.encoding s.read)) ∧
        ∀ q < s.heapPtr, q < out ∨ out + 32 ≤ q → s'.bytes q = s.bytes q) ∨
      Ram.heapEnd < s.heapPtr + 1070 ∧ ∃ s', headerHash h out s = .error (.trap 1) s' := by
  unfold headerHash
  rw [bind_run_ok (heapMark_run s)]
  rcases encodeHeader_cases hbelow hfits hlt with ⟨start, s', hrun, hload, hsame⟩ | ⟨hfull, s', hrun⟩
  · left
    have hself := ByteMap.load_store_self s'.bytes out (hashBytes (keccak256 (h.encoding s.read)))
    rw [length_hashBytes] at hself
    rw [bind_run_ok hrun, bind_run_ok (keccakAt_run s' _ _ _), heapRelease_run]
    dsimp only
    rw [hload]
    refine ⟨_, rfl, hself, fun q hq hout => ?_⟩
    exact (ByteMap.store_off (by rwa [length_hashBytes])).trans (hsame q hq)
  · exact .inr ⟨hfull, s', bind_run_error hrun⟩

theorem validateHashes_decides (hplaced : HeaderPlaced s hdrZero8 parent h) :
    Decides s (HashRules s parent h) (validateHashes hdrZero8 parent h s) := by
  have hommers := hplaced.below_of_mem (by decide) (mem_items_ommers h)
  have hparent := hplaced.below_of_mem (by decide) (mem_items_parent h)
  change h.ommersHash.toNat + 32 ≤ s.heapPtr at hommers
  change h.parentHash.toNat + 32 ≤ s.heapPtr at hparent
  unfold validateHashes
  rw [bind_run_ok (memeq_run s _ _ _), hplaced.zeros]
  by_cases hnonce : s.bytes.load h.nonce.toNat 8 = List.replicate 8 0
  case neg =>
    rw [decide_eq_false hnonce, if_pos rfl]
    exact .reject fun hrules => hnonce hrules.nonce
  rw [decide_eq_true hnonce, if_neg (by decide), bind_run_ok (heapMark_run s)]
  rcases alloc_cases 64 s with ⟨q, hq, hq', -, halloc⟩ | ⟨hfull, halloc⟩
  case inr =>
    rw [bind_run_error halloc]
    exact .full (by omega)
  -- the hash of an empty list behind its encoding
  have hbyte := ByteMap.load_store_self s.bytes s.heapPtr [0xc0]
  have hself := ByteMap.load_store_self (s.bytes.store s.heapPtr [0xc0]) (s.heapPtr + 32)
    (hashBytes (keccak256 [0xc0]))
  rw [length_hashBytes] at hself
  rw [bind_run_ok halloc, bind_run_ok (st8_run _ _ _), bind_run_ok (keccakAt_run _ _ _ _)]
  generalize hs₁ : Ram.put _ (s.heapPtr + 32) _ = s₁
  have hbytes₁ : s₁.bytes = (s.bytes.store s.heapPtr [0xc0]).store (s.heapPtr + 32)
      (hashBytes (keccak256 [0xc0])) := by
    rw [← hs₁]
    exact congrArg (fun bs => ByteMap.store _ _ (hashBytes (keccak256 bs))) hbyte
  have hheap₁ : s₁.heapPtr = q := by
    rw [← hs₁]
    rfl
  have hsame₁ : ByteMap.SameBelow s.heapPtr s.bytes s₁.bytes := by
    rw [hbytes₁]
    exact (ByteMap.sameBelow_store (Nat.le_refl _)).trans (ByteMap.sameBelow_store (by omega))
  rw [← hbytes₁] at hself
  rw [bind_run_ok (memeq_run s₁ _ _ _), hself, hsame₁.load hommers]
  by_cases hempty : s.bytes.load h.ommersHash.toNat 32 = hashBytes (keccak256 [0xc0])
  case neg =>
    rw [decide_eq_false hempty, if_pos rfl]
    exact .reject fun hrules => hempty hrules.ommers
  rw [decide_eq_true hempty, if_neg (by decide)]
  have hparent₁ : ∀ item ∈ parent.items, item.Below s₁.heapPtr := by
    intro item hmem
    rw [hheap₁]
    exact (hplaced.parentBelow item hmem).mono (by omega)
  have hpayload₁ : parent.payload s₁.read = parent.payload s.read :=
    itemsPayload_congr hsame₁ hplaced.parentBelow
  have hencoding₁ : parent.encoding s₁.read = parent.encoding s.read := by
    rw [HeaderRecord.encoding, hpayload₁]
    rfl
  have hfits₁ : parent.FitsBuffer s₁.read := by
    have hfits := hplaced.fits
    unfold HeaderRecord.FitsBuffer at hfits ⊢
    rwa [itemsPayload_congr hsame₁ fun item hmem => hplaced.parentBelow item (by
      rw [parent.items_eq]
      exact List.mem_append_left _ hmem)]
  rcases headerHash_cases s.heapPtr hparent₁ hfits₁ (by rw [hpayload₁]; exact hplaced.payload) with
    ⟨s₂, hrun₂, hhash, hsame⟩ | ⟨hfull, s₂, hrun₂⟩
  case inr =>
    rw [bind_run_error hrun₂]
    exact .full (by omega)
  have hname : s₂.bytes.load h.parentHash.toNat 32 = s.bytes.load h.parentHash.toNat 32 := by
    refine ByteMap.load_congr fun i hi => ?_
    rw [hsame _ (by omega) (by omega), hsame₁ _ (by omega)]
  rw [bind_run_ok hrun₂, bind_run_ok (memeq_run s₂ _ _ _), bind_run_ok (heapRelease_run s₂ _),
    hhash, hname, hencoding₁]
  by_cases hparentHash : s.bytes.load h.parentHash.toNat 32 =
      hashBytes (keccak256 (parent.encoding s.read))
  · rw [decide_eq_true hparentHash, if_neg (by decide)]
    exact .accept ⟨hnonce, hempty, hparentHash⟩
  · rw [decide_eq_false hparentHash, if_pos rfl]
    exact .reject fun hrules => hparentHash hrules.parentHash

/-- The comparisons of a header with its parent. -/
structure HeaderChecks (s : Ram) (parent h : HeaderRecord) : Prop where
  number : 1 ≤ h.number
  excess : calculateExcessBlobGas parent = .ok h.excessBlobGas
  gasUsed : h.gasUsed ≤ h.gasLimit
  baseFee : calculateBaseFeePerGas h.gasLimit parent.gasLimit parent.gasUsed parent.baseFee =
    .ok h.baseFee
  timestamp : parent.timestamp < h.timestamp
  next : h.number = parent.number + 1
  extra : h.extraN ≤ 32
  difficulty : h.difficulty = 0
  hashes : HashRules s parent h

/-- A header is accepted when all comparisons succeed. -/
theorem validateHeader_decides (hplaced : HeaderPlaced s hdrZero8 parent h) {excess : Word}
    (hexcess : calculateExcessBlobGas parent = .ok excess) :
    Decides s (HeaderChecks s parent h) (validateHeader hdrZero8 parent h s) := by
  have hrest := ((((validateHashes_decides hplaced).unless (c := h.difficulty ≠ 0) (k := 27)).unless
    (c := 32 < h.extraN) (k := 26)).unless (c := h.number ≠ parent.number + 1) (k := 25)).unless
      (c := h.timestamp ≤ parent.timestamp) (k := 24)
  unfold validateHeader
  rw [hexcess]
  cases hfee : calculateBaseFeePerGas h.gasLimit parent.gasLimit parent.gasUsed parent.baseFee with
  | ok expected =>
    refine (((hrest.unless (c := expected ≠ h.baseFee) (k := 23)).unless
      (c := h.gasLimit < h.gasUsed) (k := 22)).unless (c := h.excessBlobGas ≠ excess)
        (k := 21)).unless (c := h.number < 1) (k := 20) |>.congr ?_
    constructor
    · rintro ⟨h₀, h₁, h₂, h₃, h₄, h₅, h₆, h₇, hhashes⟩
      exact ⟨BitVec.not_lt.mp h₀, by rw [hexcess, not_not.mp h₁], BitVec.not_lt.mp h₂,
        by rw [hfee, not_not.mp h₃], BitVec.not_le.mp h₄, not_not.mp h₅, BitVec.not_lt.mp h₆,
        not_not.mp h₇, hhashes⟩
    · rintro ⟨h₀, h₁, h₂, h₃, h₄, h₅, h₆, h₇, hhashes⟩
      rw [hexcess] at h₁
      rw [hfee] at h₃
      exact ⟨BitVec.not_lt.mpr h₀, not_not.mpr (Except.ok.inj h₁).symm, BitVec.not_lt.mpr h₂,
        not_not.mpr (Except.ok.inj h₃), BitVec.not_le.mpr h₄, not_not.mpr h₅,
        BitVec.not_lt.mpr h₆, not_not.mpr h₇, hhashes⟩
  | error e =>
    obtain rfl := calculateBaseFee_error hfee
    have hreject (f : U256 → RamM Unit) :
        Decides s False ((liftRam (.error (.block 10)) >>= f) s) := .reject id
    refine (((hreject _).unless (c := h.gasLimit < h.gasUsed) (k := 22)).unless
      (c := h.excessBlobGas ≠ excess) (k := 21)).unless (c := h.number < 1) (k := 20) |>.congr ?_
    refine ⟨fun hnot => hnot.2.2.2.elim, fun hchecks => ?_⟩
    have hok := hchecks.baseFee
    rw [hfee] at hok
    cases hok

end

/-! ## The rules -/

/-- The rules for a header over the naturals. -/
structure HeaderRules [Keccak] (s : Ram) (parent h : HeaderRecord) : Prop where
  excess : h.excessBlobGas.toNat = excessBlobGasRule parent.excessBlobGas.toNat
    parent.blobGasUsed.toNat parent.baseFee.toNat (blobPriceRule parent.excessBlobGas.toNat)
  gasUsed : h.gasUsed.toNat ≤ h.gasLimit.toNat
  gasLimit : GasLimitRule h.gasLimit.toNat parent.gasLimit.toNat
  baseFee : h.baseFee.toNat =
    baseFeeRule parent.gasLimit.toNat parent.gasUsed.toNat parent.baseFee.toNat
  timestamp : parent.timestamp.toNat < h.timestamp.toNat
  number : h.number.toNat = parent.number.toNat + 1
  extra : h.extraN.toNat ≤ 32
  difficulty : h.difficulty.toNat = 0
  hashes : HashRules s parent h

/-- No sum of a limit that is in range and no sum or product of the blob gas leaves a word. -/
structure HeaderFits (parent h : HeaderRecord) : Prop where
  limits : GasLimitRule h.gasLimit.toNat parent.gasLimit.toNat →
    parent.gasLimit.toNat + parent.gasLimit.toNat / 1024 < 2 ^ 64 ∧
      h.gasLimit.toNat + parent.gasLimit.toNat / 1024 < 2 ^ 64
  blobGas : BlobGasFits parent.excessBlobGas.toNat parent.blobGasUsed.toNat parent.baseFee.toNat
    (blobPriceRule parent.excessBlobGas.toNat)

/-- The gas functions return the values of the rules, without a gas target of zero, and a header is
accepted when the rules accept it. -/
structure RulesExact [Keccak] (s : Ram) (hdrZero8 : Nat) (parent h : HeaderRecord) : Prop where
  gasLimit : checkGasLimit h.gasLimit parent.gasLimit = true ↔
    GasLimitRule h.gasLimit.toNat parent.gasLimit.toNat
  baseFee : ∀ fee, calculateBaseFeePerGas h.gasLimit parent.gasLimit parent.gasUsed
      parent.baseFee = .ok fee →
    0 < parent.gasLimit.toNat / 2 ∧
      fee.toNat = baseFeeRule parent.gasLimit.toNat parent.gasUsed.toNat parent.baseFee.toNat
  excess : ∃ e, calculateExcessBlobGas parent = .ok e ∧
    e.toNat = excessBlobGasRule parent.excessBlobGas.toNat parent.blobGasUsed.toNat
      parent.baseFee.toNat (blobPriceRule parent.excessBlobGas.toNat)
  accepts : (∃ s', validateHeader hdrZero8 parent h s = .ok () s') → HeaderRules s parent h
  accepted : HeaderRules s parent h →
    (∃ s', validateHeader hdrZero8 parent h s = .ok () s') ∨
      Ram.heapEnd < s.heapPtr + 1142 ∧
        ∃ s', validateHeader hdrZero8 parent h s = .error (.trap 1) s'

section

variable [Keccak] {s : Ram} {hdrZero8 : Nat} {parent h : HeaderRecord} {price : U256}

omit [Keccak] in
/-- The next block number does not wrap, as it would be zero. -/
theorem next_iff {a b : Word} : 1 ≤ a ∧ a = b + 1 ↔ a.toNat = b.toNat + 1 := by
  have ha := a.isLt
  have hb := b.isLt
  have hone : (1 : Word).toNat = 1 := rfl
  have hsum := BitVec.toNat_add b 1
  rw [hone] at hsum
  rw [BitVec.le_def, hone]
  constructor
  · rintro ⟨hpos, rfl⟩
    omega
  · intro h
    refine ⟨by omega, BitVec.eq_of_toNat_eq ?_⟩
    omega

/-- The comparisons are the rules, where the limit check and the excess blob gas are. -/
theorem headerChecks_iff (hfee : FeeFits parent.baseFee)
    (hlimit : checkGasLimit h.gasLimit parent.gasLimit = true ↔
      GasLimitRule h.gasLimit.toNat parent.gasLimit.toNat)
    (hexcess : ∃ e, calculateExcessBlobGas parent = .ok e ∧
      e.toNat = excessBlobGasRule parent.excessBlobGas.toNat parent.blobGasUsed.toNat
        parent.baseFee.toNat (blobPriceRule parent.excessBlobGas.toNat)) :
    HeaderChecks s parent h ↔ HeaderRules s parent h := by
  obtain ⟨e, he, hrule⟩ := hexcess
  constructor
  · intro hc
    have hcheck := calculateBaseFee_check hc.baseFee
    obtain ⟨-, v, hv, hvalue⟩ := calculateBaseFee_ok parent.gasUsed hfee hcheck
    have hsame := he.symm.trans hc.excess
    have hsame' := hv.symm.trans hc.baseFee
    cases hsame
    cases hsame'
    exact {
      excess := hrule
      gasUsed := hc.gasUsed
      gasLimit := hlimit.mp hcheck
      baseFee := hvalue
      timestamp := hc.timestamp
      number := next_iff.mp ⟨hc.number, hc.next⟩
      extra := hc.extra
      difficulty := congrArg BitVec.toNat hc.difficulty
      hashes := hc.hashes }
  · intro hr
    obtain ⟨-, v, hv, hvalue⟩ := calculateBaseFee_ok parent.gasUsed hfee (hlimit.mpr hr.gasLimit)
    obtain ⟨hnumber, hnext⟩ := next_iff.mpr hr.number
    exact {
      number := hnumber
      excess := by rw [he, BitVec.eq_of_toNat_eq (hrule.trans hr.excess.symm)]
      gasUsed := hr.gasUsed
      baseFee := by rw [hv, BitVec.eq_of_toNat_eq (hvalue.trans hr.baseFee.symm)]
      timestamp := hr.timestamp
      next := hnext
      extra := hr.extra
      difficulty := BitVec.eq_of_toNat_eq hr.difficulty
      hashes := hr.hashes }

/-- The rules are followed exactly as far as the sums of limits and of blob gas stay in a word. -/
theorem header_rules_exact_iff (hplaced : HeaderPlaced s hdrZero8 parent h)
    (hprice : calculateBlobGasPrice parent.excessBlobGas = .ok price)
    (hfee : FeeFits parent.baseFee) :
    RulesExact s hdrZero8 parent h ↔ HeaderFits parent h := by
  obtain ⟨e, he, hexcess⟩ := calculateExcessBlobGas_eq_iff hfee hprice
  rw [(blobPrice_ok hprice).1] at hexcess
  constructor
  · intro hexact
    obtain ⟨e', he', hrule⟩ := hexact.excess
    have hsame := he.symm.trans he'
    cases hsame
    exact ⟨checkGasLimit_eq_iff.mp hexact.gasLimit, hexcess.mp hrule⟩
  · intro hfits
    have hlimit := checkGasLimit_eq_iff.mpr hfits.limits
    have hrule := hexcess.mpr hfits.blobGas
    have hdecides := validateHeader_decides hplaced he
    have hiff : HeaderChecks s parent h ↔ HeaderRules s parent h :=
      headerChecks_iff hfee hlimit ⟨e, he, hrule⟩
    refine ⟨hlimit, fun fee hrun => ?_, ⟨e, he, hrule⟩, fun hok => hiff.mp (hdecides.accepts hok),
      fun hr => hdecides.of_holds (hiff.mpr hr)⟩
    obtain ⟨htarget, v, hv, hvalue⟩ :=
      calculateBaseFee_ok parent.gasUsed hfee (calculateBaseFee_check hrun)
    have hsame := hv.symm.trans hrun
    cases hsame
    exact ⟨htarget, hvalue⟩

end

/-! ## Headers of zeros -/

/-- A header whose strings are at address zero and whose gas is at its target. -/
def idleHeader (number timestamp excessBlobGas blobGasUsed : Word) : HeaderRecord :=
  { isCurrent := true, parentHash := 0, ommersHash := 0, coinbase := 0, stateRoot := 0,
    txRoot := 0, receiptRoot := 0, bloom := 0, difficulty := 0, number, gasLimit := 10000,
    gasUsed := 5000, timestamp, extra := 0, extraN := 0, prevRandao := 0, nonce := 0,
    baseFee := 0, withdrawalsRoot := 0, blobGasUsed, excessBlobGas, pbbr := 0, requestsHash := 0,
    balHash := 0, slot := 0 }

/-- A memory of zeros. -/
def idleRam : Ram where
  bytes _ := 0
  heapPtr := 4096

set_option maxRecDepth 4000 in
theorem idle_placed :
    HeaderPlaced idleRam 0 (idleHeader 0 0 0 0) (idleHeader 1 1 0 0) ∧
      HeaderPlaced idleRam 0 (idleHeader 0 0 1 wordMax) (idleHeader 1 1 0 0) := by
  refine ⟨⟨?_, ?_, ?_, ?_, ?_, ?_⟩, ⟨?_, ?_, ?_, ?_, ?_, ?_⟩⟩ <;> decide +kernel

/-- A child of a header without blobs. -/
theorem header_rules_exact_idle :
    let _ : Keccak := ⟨fun _ => 0⟩
    RulesExact idleRam 0 (idleHeader 0 0 0 0) (idleHeader 1 1 0 0) := by
  intro _
  obtain ⟨price, hprice⟩ := blobPrice_of_small (show (0 : Word).toNat < 36 by decide)
  have hfee : FeeFits 0 := fun w => by
    change 0 * w.toNat < 2 ^ 256
    omega
  refine (header_rules_exact_iff idle_placed.1 hprice hfee).mpr ⟨fun _ => by decide, ?_, ?_⟩
  · decide
  · intro hle
    exact absurd hle (by decide)

theorem idle_checks :
    let _ : Keccak := ⟨fun _ => 0⟩
    HeaderChecks idleRam (idleHeader 0 0 1 wordMax) (idleHeader 1 1 0 0) := by
  intro _
  exact ⟨by decide, by rfl, by decide, by decide +kernel, by decide, by decide, by decide,
    by decide, ⟨by decide, by decide +kernel, by decide +kernel⟩⟩

/-- The blob gas of the parent leaves its word, and a child without excess is accepted. -/
theorem blob_gas_wraps :
    let _ : Keccak := ⟨fun _ => 0⟩
    let parent := idleHeader 0 0 1 wordMax
    let h := idleHeader 1 1 0 0
    HeaderPlaced idleRam 0 parent h ∧
      (∃ price, calculateBlobGasPrice parent.excessBlobGas = .ok price) ∧
      FeeFits parent.baseFee ∧
      (∃ s', validateHeader 0 parent h idleRam = .ok () s') ∧
      ¬ HeaderRules idleRam parent h := by
  intro _ parent h
  have hfee : FeeFits parent.baseFee := fun w => by
    change 0 * w.toNat < 2 ^ 256
    omega
  refine ⟨idle_placed.2, blobPrice_of_small (by decide), hfee, ?_, fun hrules => ?_⟩
  · have hdecides := validateHeader_decides idle_placed.2 idle_checks.excess
    exact (hdecides.of_holds idle_checks).resolve_right fun hfull => absurd hfull.1 (by decide)
  · have hexcess := hrules.excess
    have hzero : h.excessBlobGas.toNat = 0 := rfl
    rw [hzero] at hexcess
    have hone : parent.excessBlobGas.toNat = 1 := rfl
    have hused : parent.blobGasUsed.toNat = 2 ^ 64 - 1 := rfl
    unfold excessBlobGasRule at hexcess
    rw [hone, hused] at hexcess
    split_ifs at hexcess
    all_goals omega

end StatelessGuest
