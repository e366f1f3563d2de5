import StatelessGuest.Header.BlobPrice
import StatelessGuest.Header.Record

/-!
# The gas rules of a header

The limits, fees and blob gas that a header has to carry, computed in words and 256-bit integers
from the header of its parent, against the same rules over the naturals.

* `checkGasLimit_eq_iff`: the limit check is the rule as far as no sum behind it leaves a word.
* `calculateExcessBlobGas_eq_iff`: so is the excess blob gas.
* `calculateBaseFee_ok`: the base fee is the rule.
-/

namespace StatelessGuest

open Lib

/-! ## Words -/

def checkGasLimit (gasLimit parentGasLimit : Word) : Bool :=
  let maxDelta := udiv parentGasLimit 1024
  if parentGasLimit + maxDelta ≤ gasLimit then false
  else if gasLimit + maxDelta ≤ parentGasLimit then false
  else if gasLimit < 5000 then false
  else true

def calculateExcessBlobGas (parent : HeaderRecord) : Except Exn Word :=
  let excess := parent.excessBlobGas
  let used := parent.blobGasUsed
  let parentBlobGas := excess + used
  if parentBlobGas < 1835008 then .ok 0
  else do
    let price ← calculateBlobGasPrice excess
    let targetPrice := u256FromWord 131072 * price
    let baseBlobTxPrice := u256FromWord 8192 * parent.baseFee
    if targetPrice < baseBlobTxPrice then return excess + udiv (used * (21 - 14)) 21
    else return parentBlobGas - 1835008

/-- The fee moves by an eighth of what the gas used is off the target, by one at least upwards. -/
def calculateBaseFeePerGas (blockGasLimit parentGasLimit parentGasUsed : Word)
    (parentBaseFee : U256) : Except Exn U256 :=
  let parentGasTarget := parentGasLimit >>> 1
  if checkGasLimit blockGasLimit parentGasLimit = false then .error (.block 10)
  else if parentGasUsed = parentGasTarget then .ok parentBaseFee
  else
    let tgt := u256FromWord parentGasTarget
    if parentGasTarget < parentGasUsed then
      let delta := u256FromWord (parentGasUsed - parentGasTarget)
      let bfd := u256Div (u256Div (parentBaseFee * delta) tgt) (u256FromWord 8)
      .ok (parentBaseFee + if bfd = 0 then u256FromWord 1 else bfd)
    else
      let delta := u256FromWord (parentGasTarget - parentGasUsed)
      .ok (parentBaseFee - u256Div (u256Div (parentBaseFee * delta) tgt) (u256FromWord 8))

/-! ## Naturals -/

/-- The limit moves by less than a 1024th and stays at 5000 at least. -/
def GasLimitRule (limit parentLimit : Nat) : Prop :=
  limit < parentLimit + parentLimit / 1024 ∧ parentLimit < limit + parentLimit / 1024 ∧ 5000 ≤ limit

instance (limit parentLimit : Nat) : Decidable (GasLimitRule limit parentLimit) :=
  inferInstanceAs (Decidable (_ ∧ _ ∧ _))

/-- Blobs cost more by the gas of their transactions than by their own price. -/
def ReservePriceRule (baseFee price : Nat) : Prop := 131072 * price < 8192 * baseFee

instance (baseFee price : Nat) : Decidable (ReservePriceRule baseFee price) :=
  inferInstanceAs (Decidable (_ < _))

def excessBlobGasRule (excess used baseFee price : Nat) : Nat :=
  if excess + used < 1835008 then 0
  else if ReservePriceRule baseFee price then excess + used * (21 - 14) / 21
  else excess + used - 1835008

def baseFeeRule (parentLimit parentUsed parentFee : Nat) : Nat :=
  let target := parentLimit / 2
  if parentUsed = target then parentFee
  else if target < parentUsed then
    parentFee + max (parentFee * (parentUsed - target) / target / 8) 1
  else parentFee - parentFee * (target - parentUsed) / target / 8

/-! ## The gas limit -/

section

variable {limit parentLimit : Word}

theorem toNat_udiv_1024 (w : Word) : (udiv w 1024).toNat = w.toNat / 1024 :=
  BitVec.toNat_udiv

/-- The check is the rule, unless the rule accepts a limit with a sum that leaves a word. -/
theorem checkGasLimit_eq_iff :
    (checkGasLimit limit parentLimit = true ↔ GasLimitRule limit.toNat parentLimit.toNat) ↔
      (GasLimitRule limit.toNat parentLimit.toNat →
        parentLimit.toNat + parentLimit.toNat / 1024 < 2 ^ 64 ∧
          limit.toNat + parentLimit.toNat / 1024 < 2 ^ 64) := by
  have hl := limit.isLt
  have hp := parentLimit.isLt
  have hdelta := toNat_udiv_1024 parentLimit
  unfold checkGasLimit GasLimitRule
  simp only [BitVec.le_def, BitVec.lt_def, BitVec.toNat_add, hdelta]
  have h5000 : (5000 : Word).toNat = 5000 := rfl
  rw [h5000]
  split_ifs <;> simp <;> omega

/-- What passes the check is never a sum that leaves a word. -/
theorem checkGasLimit_sound (h : checkGasLimit limit parentLimit = true) :
    GasLimitRule limit.toNat parentLimit.toNat ∧
      parentLimit.toNat + parentLimit.toNat / 1024 < 2 ^ 64 ∧
        limit.toNat + parentLimit.toNat / 1024 < 2 ^ 64 := by
  have hl := limit.isLt
  have hp := parentLimit.isLt
  have hdelta := toNat_udiv_1024 parentLimit
  have h5000 : (5000 : Word).toNat = 5000 := rfl
  unfold checkGasLimit at h
  unfold GasLimitRule
  simp only [BitVec.le_def, BitVec.lt_def, BitVec.toNat_add, hdelta, h5000] at h
  split_ifs at h with habove hbelow hmin
  have hsmall : parentLimit.toNat / 1024 < 2 ^ 54 := by omega
  have hover : parentLimit.toNat + parentLimit.toNat / 1024 < 2 ^ 64 := by
    by_contra hwrap
    -- a limit below the wrapped sum is too low for the other comparison
    have hlow : limit.toNat < 2 ^ 54 := by omega
    rw [Nat.mod_eq_of_lt (by omega)] at hbelow
    omega
  rw [Nat.mod_eq_of_lt hover] at habove
  have hover' : limit.toNat + parentLimit.toNat / 1024 < 2 ^ 64 := by omega
  rw [Nat.mod_eq_of_lt hover'] at hbelow
  omega

end

/-! ## The base fee -/

section

variable {a b : U256}

theorem toNat_u256Div (a b : U256) : (u256Div a b).toNat = a.toNat / b.toNat := by
  unfold u256Div
  split
  · next hzero =>
    rw [hzero]
    exact (Nat.div_zero _).symm
  · exact BitVec.toNat_udiv

theorem toNat_u256Mul (h : a.toNat * b.toNat < 2 ^ 256) : (a * b).toNat = a.toNat * b.toNat := by
  rw [BitVec.toNat_mul, Nat.mod_eq_of_lt h]

theorem toNat_u256Add (h : a.toNat + b.toNat < 2 ^ 256) : (a + b).toNat = a.toNat + b.toNat := by
  rw [BitVec.toNat_add, Nat.mod_eq_of_lt h]

/-- The product of a fee and a word fits. -/
def FeeFits (fee : U256) : Prop := ∀ w : Word, fee.toNat * w.toNat < 2 ^ 256

variable {fee : U256} {limit parentLimit : Word}

theorem FeeFits.lt (h : FeeFits fee) : fee.toNat < 2 ^ 193 := by
  have hmax : fee.toNat * (2 ^ 64 - 1) < 2 ^ 256 := h wordMax
  omega

theorem FeeFits.mul (h : FeeFits fee) (w : Word) :
    (fee * u256FromWord w).toNat = fee.toNat * w.toNat := by
  have hw := h w
  rw [toNat_u256Mul (by rwa [toNat_u256FromWord]), toNat_u256FromWord]

/-- What a fee moves by. -/
theorem FeeFits.move (h : FeeFits fee) (delta target : Word) :
    (u256Div (u256Div (fee * u256FromWord delta) (u256FromWord target)) (u256FromWord 8)).toNat =
      fee.toNat * delta.toNat / target.toNat / 8 := by
  rw [toNat_u256Div, toNat_u256Div, h.mul, toNat_u256FromWord, toNat_u256FromWord]
  rfl

theorem calculateBaseFee_ok (used : Word) (hfee : FeeFits fee)
    (hcheck : checkGasLimit limit parentLimit = true) :
    0 < parentLimit.toNat / 2 ∧
      ∃ v, calculateBaseFeePerGas limit parentLimit used fee = .ok v ∧
        v.toNat = baseFeeRule parentLimit.toNat used.toNat fee.toNat := by
  obtain ⟨hrule, -⟩ := checkGasLimit_sound hcheck
  have htarget : (parentLimit >>> 1).toNat = parentLimit.toNat / 2 := BitVec.toNat_ushiftRight _ _
  have hlt := hfee.lt
  unfold GasLimitRule at hrule
  refine ⟨by omega, ?_⟩
  unfold calculateBaseFeePerGas baseFeeRule
  dsimp only
  rw [if_neg (by rw [hcheck]; decide), ← htarget]
  generalize parentLimit >>> 1 = target
  by_cases heq : used = target
  · rw [if_pos heq, if_pos (congrArg BitVec.toNat heq)]
    exact ⟨fee, rfl, rfl⟩
  have hne : used.toNat ≠ target.toNat := fun h => heq (BitVec.eq_of_toNat_eq h)
  rw [if_neg heq, if_neg hne]
  by_cases hover : target < used
  · have hover' : target.toNat < used.toNat := hover
    have hdelta : (used - target).toNat = used.toNat - target.toNat :=
      BitVec.toNat_sub_of_le (Nat.le_of_lt hover')
    have hmove := hfee.move (used - target) target
    rw [if_pos hover, if_pos hover']
    generalize u256Div (u256Div (fee * u256FromWord (used - target)) (u256FromWord target))
      (u256FromWord 8) = move at hmove
    have hsmall : move.toNat < 2 ^ 253 := by
      have hproduct := hfee (used - target)
      have hdiv := Nat.div_le_self (fee.toNat * (used - target).toNat) target.toNat
      rw [hmove]
      omega
    rw [hdelta] at hmove
    refine ⟨_, rfl, ?_⟩
    rw [← hmove]
    by_cases hzero : move = 0
    · rw [if_pos hzero, hzero, toNat_u256Add (by
        change fee.toNat + 1 < 2 ^ 256
        omega)]
      rfl
    · have hpos : move.toNat ≠ 0 := fun h => hzero (BitVec.eq_of_toNat_eq h)
      rw [if_neg hzero, toNat_u256Add (by omega), Nat.max_eq_left (by omega)]
  · have hunder : used.toNat < target.toNat := by
      have := Nat.not_lt.mp fun h => hover h
      omega
    have hdelta : (target - used).toNat = target.toNat - used.toNat :=
      BitVec.toNat_sub_of_le (Nat.le_of_lt hunder)
    have hmove := hfee.move (target - used) target
    rw [if_neg hover, if_neg (Nat.not_lt.mpr (Nat.le_of_lt hunder))]
    refine ⟨_, rfl, ?_⟩
    rw [BitVec.toNat_sub_of_le, hmove, hdelta]
    rw [BitVec.le_def, hmove, hdelta]
    have hle : fee.toNat * (target.toNat - used.toNat) / target.toNat ≤ fee.toNat := by
      refine Nat.div_le_of_le_mul ?_
      rw [Nat.mul_comm]
      exact Nat.mul_le_mul_right _ (Nat.sub_le _ _)
    omega

end

theorem calculateBaseFee_error {limit parentLimit used : Word} {fee : U256} {e : Exn}
    (h : calculateBaseFeePerGas limit parentLimit used fee = .error e) : e = .block 10 := by
  unfold calculateBaseFeePerGas at h
  dsimp only at h
  split_ifs at h
  cases h
  rfl

theorem calculateBaseFee_check {limit parentLimit used : Word} {fee v : U256}
    (h : calculateBaseFeePerGas limit parentLimit used fee = .ok v) :
    checkGasLimit limit parentLimit = true := by
  unfold calculateBaseFeePerGas at h
  dsimp only at h
  split_ifs at h with hcheck
  all_goals exact Bool.eq_true_of_not_eq_false hcheck

/-! ## The excess blob gas -/

section

variable {parent : HeaderRecord} {price : U256}

/-- The price over the naturals. -/
def blobPriceRule (excess : Nat) : Nat := Taylor.exponential 1 excess 11684671 (by decide)

/-- A price that is computed is the one over the naturals, and leaves room for the gas of a blob. -/
theorem blobPrice_ok {excess : Word} (h : calculateBlobGasPrice excess = .ok price) :
    price.toNat = blobPriceRule excess.toNat ∧ price.toNat * 11684671 < 2 ^ 256 := by
  have hden : 0 < (11684671 : Word).toNat := by decide
  unfold calculateBlobGasPrice at h
  by_cases hfits : ∀ k, Taylor.term (1 : Word).toNat excess.toNat (11684671 : Word).toNat k *
      excess.toNat < 2 ^ 256
  · have hexact := exact_of_fits hden hfits
    rw [taylorExponential_ok hden hexact] at h
    cases h
    have hmul : Taylor.exponential (1 : Word).toNat excess.toNat (11684671 : Word).toNat hden *
        11684671 < 2 ^ 256 :=
      Nat.lt_of_le_of_lt (Nat.div_mul_le_self _ _) (hexact.sum _)
    rw [toNat_ofNat_u256 (by omega)]
    exact ⟨rfl, hmul⟩
  · rw [taylorExponential_trap hfits hden] at h
    cases h

/-- A small excess has a price. -/
theorem blobPrice_of_small {excess : Word} (h : excess.toNat < 36) :
    ∃ price, calculateBlobGasPrice excess = .ok price := by
  have hden : 0 < (11684671 : Word).toNat := by decide
  refine ⟨_, taylorExponential_ok hden (exact_of_fits hden fun k => ?_)⟩
  have hterm := Taylor.term_le_of_num_lt (f := (1 : Word).toNat) hden h k
  exact Nat.lt_of_le_of_lt (Nat.mul_le_mul hterm (Nat.le_of_lt h)) (by decide)

theorem le_term {n : Nat} (hn : 2 ^ 48 ≤ n) {k : Nat} (hk : k ≤ 16) :
    2 ^ (20 * k) ≤ Taylor.term 1 n 11684671 k := by
  induction k with
  | zero => exact Nat.le_of_ble_eq_true rfl
  | succ k ih =>
    rw [Taylor.term, Nat.le_div_iff_mul_le (by omega)]
    calc 2 ^ (20 * (k + 1)) * ((k + 1) * 11684671)
        ≤ 2 ^ (20 * (k + 1)) * (16 * 2 ^ 24) :=
          Nat.mul_le_mul_left _ (Nat.mul_le_mul hk (by decide))
      _ = 2 ^ (20 * k) * 2 ^ 48 := by
        rw [Nat.mul_succ, Nat.pow_add, Nat.mul_assoc]
        exact congrArg (2 ^ (20 * k) * ·) (by decide)
      _ ≤ Taylor.term 1 n 11684671 k * n := Nat.mul_le_mul (ih (by omega)) hn

/-- No more excess than this has a price. -/
theorem excess_lt {excess : Word} (h : calculateBlobGasPrice excess = .ok price) :
    excess.toNat < 2 ^ 48 := by
  by_contra hle
  have hterm := le_term (Nat.not_lt.mp hle) (show 12 ≤ 16 by decide)
  have hover : 2 ^ 256 ≤ Taylor.term 1 excess.toNat 11684671 12 * excess.toNat :=
    Nat.le_trans (by decide) (Nat.mul_le_mul hterm (Nat.not_lt.mp hle))
  have hone : (1 : Word).toNat = 1 := rfl
  have hden : (11684671 : Word).toNat = 11684671 := rfl
  unfold calculateBlobGasPrice at h
  rw [taylorExponential_trap (fun hfits => ?_) (by decide)] at h
  · cases h
  · have hfit := hfits 12
    rw [hone, hden] at hfit
    exact absurd hfit (Nat.not_lt.mpr hover)

/-- No sum and no product of the blob gas leaves a word. -/
def BlobGasFits (excess used baseFee price : Nat) : Prop :=
  excess + used < 2 ^ 64 ∧
    (1835008 ≤ excess + used → ReservePriceRule baseFee price → used * (21 - 14) < 2 ^ 64)

theorem reservePrice_iff (hfee : FeeFits parent.baseFee) (hprice : price.toNat * 11684671 < 2 ^ 256) :
    u256FromWord 131072 * price < u256FromWord 8192 * parent.baseFee ↔
      ReservePriceRule parent.baseFee.toNat price.toNat := by
  have hfee' := hfee 8192
  have h8192 : (u256FromWord 8192).toNat = 8192 := rfl
  have h131072 : (u256FromWord 131072).toNat = 131072 := rfl
  have hword : (8192 : Word).toNat = 8192 := rfl
  rw [hword] at hfee'
  rw [BitVec.lt_def, toNat_u256Mul (by rw [h131072]; omega), toNat_u256Mul (by rw [h8192]; omega),
    h8192, h131072]
  rfl

/-- The excess blob gas is the rule exactly as far as its sums and products fit. -/
theorem calculateExcessBlobGas_eq_iff (hfee : FeeFits parent.baseFee)
    (hprice : calculateBlobGasPrice parent.excessBlobGas = .ok price) :
    ∃ e, calculateExcessBlobGas parent = .ok e ∧
      (e.toNat = excessBlobGasRule parent.excessBlobGas.toNat parent.blobGasUsed.toNat
          parent.baseFee.toNat price.toNat ↔
        BlobGasFits parent.excessBlobGas.toNat parent.blobGasUsed.toNat parent.baseFee.toNat
          price.toNat) := by
  have hreserve := reservePrice_iff hfee (blobPrice_ok hprice).2
  have hexcess := excess_lt hprice
  have hused := parent.blobGasUsed.isLt
  have hsum := BitVec.toNat_add parent.excessBlobGas parent.blobGasUsed
  have htarget : (1835008 : Word).toNat = 1835008 := rfl
  unfold calculateExcessBlobGas excessBlobGasRule BlobGasFits
  dsimp only
  rw [hprice]
  by_cases hlow : parent.excessBlobGas + parent.blobGasUsed < 1835008
  · have hlow' := hlow
    rw [BitVec.lt_def, hsum, htarget] at hlow'
    rw [if_pos hlow]
    refine ⟨0, rfl, ?_⟩
    have hzero : (0 : Word).toNat = 0 := rfl
    rw [hzero]
    split_ifs <;> omega
  · have hlow' := hlow
    rw [BitVec.lt_def, hsum, htarget] at hlow'
    rw [if_neg hlow]
    dsimp only [bind, Except.bind]
    have hle := Nat.le_trans (Nat.not_lt.mp hlow') (Nat.mod_le _ _)
    rw [if_neg (Nat.not_lt.mpr hle)]
    by_cases hres : ReservePriceRule parent.baseFee.toNat price.toNat
    · rw [if_pos (hreserve.mpr hres), if_pos hres]
      refine ⟨_, rfl, ?_⟩
      have hmul : (parent.blobGasUsed * (21 - 14)).toNat =
          parent.blobGasUsed.toNat * (21 - 14) % 2 ^ 64 := BitVec.toNat_mul _ _
      have hdiv : (udiv (parent.blobGasUsed * (21 - 14)) 21).toNat =
          parent.blobGasUsed.toNat * (21 - 14) % 2 ^ 64 / 21 := by
        rw [← hmul]
        exact BitVec.toNat_udiv
      rw [BitVec.toNat_add, hdiv]
      constructor
      · intro heq
        rw [Nat.mod_eq_of_lt (by omega)] at heq
        -- a product that leaves its word is too small by its wrapped part
        have hfit : parent.blobGasUsed.toNat * (21 - 14) < 2 ^ 64 := by
          by_contra hover
          have hwrap : parent.blobGasUsed.toNat * (21 - 14) % 2 ^ 64 + 2 ^ 64 ≤
              parent.blobGasUsed.toNat * (21 - 14) := by omega
          omega
        exact ⟨by omega, fun _ _ => hfit⟩
      · rintro ⟨hfit, hfit'⟩
        have := hfit' hle hres
        rw [Nat.mod_eq_of_lt this, Nat.mod_eq_of_lt (by omega)]
    · rw [if_neg fun h => hres (hreserve.mp h), if_neg hres]
      refine ⟨_, rfl, ?_⟩
      rw [BitVec.toNat_sub_of_le (Nat.not_lt.mp hlow), hsum, htarget]
      constructor
      · exact fun heq => ⟨by omega, fun _ h => absurd h hres⟩
      · rintro ⟨hfit, -⟩
        rw [Nat.mod_eq_of_lt hfit]

end

end StatelessGuest
