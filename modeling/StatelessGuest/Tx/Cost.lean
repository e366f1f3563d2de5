import StatelessGuest.Tx.Signing

/-!
# Costs of transactions

The gas that a transaction uses before it runs is computed in words. A transaction from an envelope
is too short for an overflow, so the words are the costs.

* `calculateIntrinsicCost`, `validateTransaction`: the code.
* `Tx.regularCost`, `Tx.floorCost`: the costs as numbers.
* `validate_transaction_iff`: what is accepted, in numbers.
-/

namespace StatelessGuest

open RlpTree (encodeAll)

/-! ## The code -/

def txBase : Word := 12000

def txValueCost : Word := 6000

def txDataTokenStandard : Word := 4

def txDataTokenFloor : Word := 16

def codeInitPerWord : Word := 2

def coldStorageAccess : Word := 2100

def txAccessListAddress : Word := gColdAccountAccess - gWarmAccess

def txAccessListStorageKey : Word := coldStorageAccess - gWarmAccess

def regularPerAuthBaseCost : Word := 7816

def accessListAddressFloorTokens : Word := 80

def accessListStorageKeyFloorTokens : Word := 128

def txMaxGasLimit : Word := 16777216

def txMaxTotalGasLimit : Word := 4294967295

/-- A zero byte is one token, any other one four. -/
def countTokensInData (data : Bytes) : Word :=
  let zeros := data.foldl (fun zeros b => if b = 0 then zeros + 1 else zeros) 0
  zeros + (BitVec.ofNat 64 data.length - zeros) * 4

/-- The loop over an access list: its cost and its tokens so far. -/
def accessListLoop (recs : List Access) : Word × Word :=
  recs.foldl (fun sums a =>
    let ns := BitVec.ofNat 64 a.slots.length
    (sums.1 + txAccessListAddress + ns * txAccessListStorageKey,
      sums.2 + accessListAddressFloorTokens + ns * accessListStorageKeyFloorTokens)) (0, 0)

def recipientRegularGas (tx : Tx) (sender : Address) : Word :=
  match tx.toAddr with
  | none => gCreateAccess
  | some a =>
    if a = sender then 0
    else if tx.value = 0 then gColdAccountAccess else gColdAccountAccess + txValueCost

def initCodeGas (tx : Tx) : Word :=
  if tx.toAddr = none then codeInitPerWord * ((BitVec.ofNat 64 tx.data.length + 31) >>> 5) else 0

/-- The regular gas, the gas for state and the floor of the gas that is paid. -/
def calculateIntrinsicCost (tx : Tx) (sender : Address) : Word × Word × Word :=
  let dataCost := countTokensInData tx.data * txDataTokenStandard
  let sums := if tx.type ≠ .legacy then accessListLoop tx.accessList else (0, 0)
  let accessListCost := sums.1 + sums.2 * txDataTokenFloor
  let authRegularGas :=
    if tx.type = .setCode then regularPerAuthBaseCost * BitVec.ofNat 64 tx.authorizations.length
    else 0
  let floorTokens := BitVec.ofNat 64 tx.data.length * txDataTokenStandard + sums.2
  let baseRegularGas := txBase + recipientRegularGas tx sender
  (baseRegularGas + initCodeGas tx + dataCost + accessListCost + authRegularGas, 0,
    floorTokens * txDataTokenFloor + baseRegularGas)

def validateTransaction (tx : Tx) (sender : Address) : Except Exn (Word × Word × Word) :=
  let ic := calculateIntrinsicCost tx sender
  if txMaxTotalGasLimit < tx.gas then .error (.tx 66)
  else if tx.gas < ic.1 + ic.2.1 then .error (.tx 60)
  else if tx.gas < ic.2.2 then .error (.tx 61)
  else if tx.toAddr = none ∧ maxInitCodeSize < BitVec.ofNat 64 tx.data.length then .error (.tx 62)
  else if txMaxGasLimit < ic.1 then .error (.tx 63)
  else if txMaxGasLimit < ic.2.2 then .error (.tx 64)
  else if u256FitsWord tx.nonce = false then .error (.tx 65)
  else if tx.nonce.setWidth 64 = wordMax then .error (.tx 65)
  else .ok ic

/-! ## Costs as numbers -/

def dataTokens (data : Bytes) : Nat := (data.map fun b => if b = 0 then 1 else 4).sum

def Access.tokens (a : Access) : Nat := 80 + 128 * a.slots.length

def Access.cost (a : Access) : Nat := 2900 + 2000 * a.slots.length

def Tx.listTokens (tx : Tx) : Nat := (tx.accessList.map Access.tokens).sum

def Tx.listCost (tx : Tx) : Nat := (tx.accessList.map Access.cost).sum

/-- The cost of the transaction itself and of its receiver. -/
def Tx.baseCost (tx : Tx) (sender : Address) : Nat :=
  12000 + if tx.toAddr = none then 12000
    else if tx.toAddr = some sender then 0
    else if tx.value = 0 then 3000 else 9000

def Tx.initCodeCost (tx : Tx) : Nat :=
  if tx.toAddr = none then 2 * ((tx.data.length + 31) / 32) else 0

def Tx.regularCost (tx : Tx) (sender : Address) : Nat :=
  tx.baseCost sender + tx.initCodeCost + 4 * dataTokens tx.data +
    (tx.listCost + 16 * tx.listTokens) + 7816 * tx.authorizations.length

def Tx.floorCost (tx : Tx) (sender : Address) : Nat :=
  16 * (4 * tx.data.length + tx.listTokens) + tx.baseCost sender

/-! ## Sums -/

variable {tx : Tx}

theorem dataTokens_eq (data : Bytes) :
    dataTokens data + 3 * (data.map fun b => if b = 0 then 1 else 0).sum = 4 * data.length := by
  induction data with
  | nil => rfl
  | cons b data ih =>
    unfold dataTokens at ih ⊢
    rw [List.map_cons, List.map_cons, List.sum_cons, List.sum_cons, List.length_cons]
    split <;> omega

/-- A count in words. -/
theorem toNat_zeros {data : Bytes} (h : data.length < 2 ^ 60) :
    (data.foldl (fun zeros b => if b = 0 then zeros + 1 else zeros) 0 : Word).toNat =
      (data.map fun b => if b = 0 then 1 else 0).sum := by
  have htokens := dataTokens_eq data
  refine toNat_foldl_len (fun total b hlt => ?_) (by omega)
  have hone : (1 : Word).toNat = 1 := rfl
  by_cases hb : b = 0
  · rw [if_pos hb] at hlt ⊢
    rw [if_pos hb, BitVec.toNat_add, hone, Nat.mod_eq_of_lt hlt]
  · rw [if_neg hb, if_neg hb, Nat.add_zero]

theorem toNat_countTokensInData {data : Bytes} (h : data.length < 2 ^ 60) :
    (countTokensInData data).toNat = dataTokens data := by
  have htokens := dataTokens_eq data
  have hzeros := toNat_zeros h
  have hfour : (4 : Word).toNat = 4 := rfl
  have hlen : (BitVec.ofNat 64 data.length).toNat = data.length := by
    rw [BitVec.toNat_ofNat, Nat.mod_eq_of_lt (by omega)]
  unfold countTokensInData
  dsimp only
  rw [BitVec.toNat_add, BitVec.toNat_mul, BitVec.toNat_sub, hlen, hzeros, hfour]
  omega

theorem foldl_pair {α : Type} (f g : Word → α → Word) (l : List α) (x y : Word) :
    l.foldl (fun sums a => (f sums.1 a, g sums.2 a)) (x, y) = (l.foldl f x, l.foldl g y) := by
  induction l generalizing x y with
  | nil => rfl
  | cons a l ih => exact ih (f x a) (g y a)

theorem sum_le_mul {α : Type} {f g : α → Nat} {k : Nat} (h : ∀ a, f a ≤ k * g a) (l : List α) :
    (l.map f).sum ≤ k * (l.map g).sum := by
  induction l with
  | nil => exact Nat.zero_le _
  | cons a l ih =>
    have ha := h a
    rw [List.map_cons, List.map_cons, List.sum_cons, List.sum_cons, Nat.mul_add]
    omega

theorem Access.le_tree (a : Access) : 22 + 33 * a.slots.length ≤ a.tree.encode.length := by
  have hpos : ∀ n, 1 ≤ (rlpEncodeListHeader n).length := by
    intro n
    have hlen : (rlpEncodeListHeader n).length = _ := length_rlpWriteHeader 192 n
    rw [hlen]
    split <;> omega
  have hinner := hpos (33 * a.slots.length)
  have houter := hpos (21 + ((rlpEncodeListHeader (33 * a.slots.length)).length +
    33 * a.slots.length))
  rw [Access.encode_tree, length_rlpEncodeList, List.length_append, length_putAddress,
    length_rlpEncodeList, length_putHashes]
  omega

theorem Tx.listTokens_le (tx : Tx) : tx.listTokens ≤ 4 * tx.extent := by
  have hle : ∀ a : Access, a.tokens ≤ 4 * a.tree.encode.length := by
    intro a
    have htree := a.le_tree
    unfold Access.tokens
    omega
  have hsum := sum_le_mul hle tx.accessList
  rw [← length_encodeAll_map] at hsum
  unfold Tx.listTokens Tx.extent
  omega

theorem Tx.listCost_le (tx : Tx) : tx.listCost ≤ 200 * tx.extent := by
  have hle : ∀ a : Access, a.cost ≤ 200 * a.tree.encode.length := by
    intro a
    have htree := a.le_tree
    unfold Access.cost
    omega
  have hsum := sum_le_mul hle tx.accessList
  rw [← length_encodeAll_map] at hsum
  unfold Tx.listCost Tx.extent
  omega

theorem Tx.authorizations_le (tx : Tx) : tx.authorizations.length ≤ tx.extent := by
  have hle := length_le_encodeAll (tx.authorizations.map Auth.tree)
  rw [List.length_map] at hle
  unfold Tx.extent
  omega

/-- One round of the loop, if its result is a word. -/
theorem toNat_round {total x y : Word} {n p q : Nat} (hx : x.toNat = p) (hy : y.toNat = q)
    (hlt : total.toNat + (p + q * n) < 2 ^ 64) (hq : 0 < q) :
    (total + x + BitVec.ofNat 64 n * y).toNat = total.toNat + (p + q * n) := by
  have hn : n ≤ q * n := Nat.le_mul_of_pos_left n hq
  have hmul : (BitVec.ofNat 64 n * y).toNat = q * n := by
    rw [BitVec.toNat_mul, BitVec.toNat_ofNat, hy, Nat.mod_eq_of_lt (a := n) (by omega),
      Nat.mul_comm, Nat.mod_eq_of_lt (by omega)]
  rw [BitVec.toNat_add, BitVec.toNat_add, hmul, hx]
  omega

theorem toNat_costRound (total : Word) (a : Access) (hlt : total.toNat + a.cost < 2 ^ 64) :
    (total + txAccessListAddress + BitVec.ofNat 64 a.slots.length * txAccessListStorageKey).toNat =
      total.toNat + a.cost :=
  toNat_round (p := 2900) (q := 2000) (by decide) (by decide) hlt (by decide)

theorem toNat_tokensRound (total : Word) (a : Access) (hlt : total.toNat + a.tokens < 2 ^ 64) :
    (total + accessListAddressFloorTokens +
      BitVec.ofNat 64 a.slots.length * accessListStorageKeyFloorTokens).toNat =
      total.toNat + a.tokens :=
  toNat_round (p := 80) (q := 128) (by decide) (by decide) hlt (by decide)

theorem toNat_accessListLoop (h : tx.extent < 2 ^ 50) :
    (accessListLoop tx.accessList).1.toNat = tx.listCost ∧
      (accessListLoop tx.accessList).2.toNat = tx.listTokens := by
  have hcost := tx.listCost_le
  have htokens := tx.listTokens_le
  unfold accessListLoop Tx.listCost Tx.listTokens at *
  dsimp only
  rw [foldl_pair (fun total (a : Access) => total + txAccessListAddress +
      BitVec.ofNat 64 a.slots.length * txAccessListStorageKey)
    fun total (a : Access) => total + accessListAddressFloorTokens +
      BitVec.ofNat 64 a.slots.length * accessListStorageKeyFloorTokens]
  exact ⟨toNat_foldl_len toNat_costRound (by omega), toNat_foldl_len toNat_tokensRound (by omega)⟩

/-! ## What is accepted -/

theorem toNat_baseRegularGas (tx : Tx) (sender : Address) :
    (txBase + recipientRegularGas tx sender).toNat = tx.baseCost sender := by
  unfold recipientRegularGas Tx.baseCost
  cases tx.toAddr with
  | none =>
    rw [if_pos rfl]
    change (txBase + gCreateAccess).toNat = _
    decide
  | some a =>
    simp only [reduceCtorEq, if_false, Option.some.injEq]
    split
    · decide
    · split <;> decide

theorem Tx.baseCost_le (tx : Tx) (sender : Address) : tx.baseCost sender ≤ 24000 := by
  unfold Tx.baseCost
  split
  · decide
  · split
    · decide
    · split <;> decide

theorem toNat_initCodeGas (h : tx.data.length < 2 ^ 50) :
    (initCodeGas tx).toNat = tx.initCodeCost := by
  have htwo : codeInitPerWord.toNat = 2 := rfl
  have hround : (31 : Word).toNat = 31 := rfl
  unfold initCodeGas Tx.initCodeCost
  split
  · rw [BitVec.toNat_mul, BitVec.toNat_ushiftRight, BitVec.toNat_add, BitVec.toNat_ofNat, htwo,
      hround, Nat.shiftRight_eq_div_pow]
    omega
  · rfl

/-- The words are the costs. -/
theorem toNat_calculateIntrinsicCost (sender : Address) (hvalid : tx.Valid)
    (h : tx.extent < 2 ^ 50) :
    (calculateIntrinsicCost tx sender).1.toNat = tx.regularCost sender ∧
      (calculateIntrinsicCost tx sender).2.1 = 0 ∧
      (calculateIntrinsicCost tx sender).2.2.toNat = tx.floorCost sender := by
  have hdata : tx.data.length ≤ tx.extent := by
    unfold Tx.extent
    omega
  have hbase := toNat_baseRegularGas tx sender
  have hbase_le := tx.baseCost_le sender
  have hshort : tx.data.length < 2 ^ 50 := by omega
  have hinit := toNat_initCodeGas hshort
  have hinit_le : tx.initCodeCost ≤ 2 * tx.data.length + 64 := by
    unfold Tx.initCodeCost
    split <;> omega
  have htokens := toNat_countTokensInData (Nat.lt_trans hshort (by decide))
  have htokens_le := dataTokens_eq tx.data
  obtain ⟨hcost, hlist⟩ := toNat_accessListLoop h
  have hcost_le := tx.listCost_le
  have hlist_le := tx.listTokens_le
  have hauths_le := tx.authorizations_le
  have hsums : (if tx.type ≠ .legacy then accessListLoop tx.accessList else (0, 0)) =
      accessListLoop tx.accessList := by
    split
    · rfl
    · next ht => rw [hvalid.accessList (not_not.mp ht)]; rfl
  have hauths : (if tx.type = .setCode then
      regularPerAuthBaseCost * BitVec.ofNat 64 tx.authorizations.length else 0 : Word).toNat =
      7816 * tx.authorizations.length := by
    have hper : regularPerAuthBaseCost.toNat = 7816 := rfl
    split
    · rw [BitVec.toNat_mul, BitVec.toNat_ofNat, hper]
      omega
    · next ht => rw [hvalid.authorizations ht]; rfl
  have hfour : txDataTokenStandard.toNat = 4 := rfl
  have hsixteen : txDataTokenFloor.toNat = 16 := rfl
  unfold calculateIntrinsicCost Tx.regularCost Tx.floorCost
  dsimp only
  rw [hsums]
  refine ⟨?_, rfl, ?_⟩
  · rw [BitVec.toNat_add, BitVec.toNat_add, BitVec.toNat_add, BitVec.toNat_add, hbase, hinit,
      BitVec.toNat_mul, htokens, hfour, BitVec.toNat_add, BitVec.toNat_mul, hcost, hlist, hsixteen,
      hauths]
    omega
  · rw [BitVec.toNat_add, hbase, BitVec.toNat_mul, BitVec.toNat_add, BitVec.toNat_mul,
      BitVec.toNat_ofNat, hfour, hlist, hsixteen]
    omega

/-- The limits on a transaction, in numbers. -/
structure Tx.Accepted (tx : Tx) (sender : Address) : Prop where
  limit : tx.gas.toNat ≤ 4294967295
  regular : tx.regularCost sender ≤ tx.gas.toNat
  floor : tx.floorCost sender ≤ tx.gas.toNat
  initCode : tx.toAddr = none → tx.data.length ≤ 131072
  regularLimit : tx.regularCost sender ≤ 16777216
  floorLimit : tx.floorCost sender ≤ 16777216
  nonce : tx.nonce.toNat < 2 ^ 64 - 1

/-- **Validation is exact.** A transaction from an envelope is accepted exactly if it is within the
limits as numbers, and its cost is returned: no sum of words wraps around. -/
theorem validate_transaction_iff {bs : Bytes} {sender : Address} {ic : Word × Word × Word}
    (hlt : bs.length < 2 ^ 50) (hdec : decodeTransaction bs = .ok tx) :
    validateTransaction tx sender = .ok ic ↔ tx.Accepted sender ∧
      ic.1.toNat = tx.regularCost sender ∧ ic.2.1 = 0 ∧ ic.2.2.toNat = tx.floorCost sender := by
  obtain ⟨hvalid, hbs⟩ := accepted_envelope (by omega) hdec
  have hsize := Nat.lt_of_le_of_lt (Tx.extent_le_envelope hvalid hbs).2 hlt
  obtain ⟨hregular, hstate, hfloor⟩ := toNat_calculateIntrinsicCost sender hvalid hsize
  have hdata : (BitVec.ofNat 64 tx.data.length).toNat = tx.data.length := by
    unfold Tx.extent at hsize
    rw [BitVec.toNat_ofNat, Nat.mod_eq_of_lt (by omega)]
  have htotal : txMaxTotalGasLimit.toNat = 4294967295 := rfl
  have hgas : txMaxGasLimit.toNat = 16777216 := rfl
  have hinit : maxInitCodeSize.toNat = 131072 := rfl
  have hmax : wordMax.toNat = 2 ^ 64 - 1 := rfl
  have hnonce : u256FitsWord tx.nonce = true →
      (tx.nonce.setWidth 64 = wordMax ↔ tx.nonce.toNat = 2 ^ 64 - 1) := by
    intro hfits
    have hnlt := (u256FitsWord_iff tx.nonce).mp hfits
    rw [← BitVec.toNat_inj, BitVec.toNat_setWidth, Nat.mod_eq_of_lt hnlt, hmax]
  unfold validateTransaction
  dsimp only
  have hsum : (calculateIntrinsicCost tx sender).1 + (calculateIntrinsicCost tx sender).2.1 =
      (calculateIntrinsicCost tx sender).1 := by
    rw [hstate]
    exact BitVec.add_zero _
  rw [hsum]
  simp only [check_eq_ok, BitVec.lt_def, hregular, hfloor, hdata, htotal, hgas, hinit, Nat.not_lt]
  constructor
  · rintro ⟨hlimit, hreg, hfl, hcode, hreg', hfl', hword, hlast, hrun⟩
    obtain rfl := Except.ok.inj hrun
    have hfits := Bool.eq_true_of_not_eq_false hword
    have hnlt := (u256FitsWord_iff tx.nonce).mp hfits
    rw [hnonce hfits] at hlast
    refine ⟨⟨hlimit, hreg, hfl, fun hnone => ?_, hreg', hfl', by omega⟩, hregular, hstate, hfloor⟩
    by_contra hlong
    exact hcode ⟨hnone, by omega⟩
  · rintro ⟨hok, hic, hic', hic''⟩
    have hn := hok.nonce
    have hfits := (u256FitsWord_iff tx.nonce).mpr (by omega)
    refine ⟨hok.limit, hok.regular, hok.floor, fun h => ?_, hok.regularLimit, hok.floorLimit,
      ?_, fun h => ?_, ?_⟩
    · have hshort := hok.initCode h.1
      omega
    · rw [hfits]
      decide
    · have hlast := (hnonce hfits).mp h
      omega
    · exact congrArg Except.ok (Prod.ext (BitVec.eq_of_toNat_eq (hregular.trans hic.symm))
        (Prod.ext (hstate.trans hic'.symm) (BitVec.eq_of_toNat_eq (hfloor.trans hic''.symm))))

theorem validate_transaction_iff_small : smallTx.Accepted 3 ∧
    smallTx.regularCost 3 = 12016 ∧ smallTx.floorCost 3 = 12064 := by
  have hrun : validateTransaction smallTx 3 = .ok (12016, 0, 12064) := by decide
  obtain ⟨hok, hregular, -, hfloor⟩ :=
    (validate_transaction_iff (by decide) smallTx_decoded).mp hrun
  exact ⟨hok, hregular.symm, hfloor.symm⟩

end StatelessGuest
