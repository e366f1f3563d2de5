import StatelessGuest.Evm.Ordinary
import StatelessGuest.Evm.Saturation
import StatelessGuest.Num.Modexp

/-!
# The modular power as a precompile

The input declares three lengths and holds the base, the exponent and the modulus behind them; what
lies behind its end reads as zero. The price is a function of the lengths and of the first bytes of
the exponent.

* `field`, `baseLength`, `exponentHead`: the input as a string without an end.
* `modexpCost`: the price over numbers without a bound.
* `toNat_modexpGas`: the words of the computation hold it.
* `modexp_exact`: the price is charged, and the output is the power.
-/

namespace StatelessGuest

open Lib

/-! ## The input -/

/-- `len` bytes from `start` on, zero behind the end. -/
def field (data : Bytes) (start len : Nat) : Bytes :=
  (List.range len).map fun i => data.getD (start + i) 0

def baseLength (data : Bytes) : Nat := beNat (field data 0 32)

def exponentLength (data : Bytes) : Nat := beNat (field data 32 32)

def modulusLength (data : Bytes) : Nat := beNat (field data 64 32)

def baseValue (data : Bytes) : Nat := beNat (field data 96 (baseLength data))

def exponentValue (data : Bytes) : Nat :=
  beNat (field data (96 + baseLength data) (exponentLength data))

/-- The first 32 bytes of the exponent. -/
def exponentHead (data : Bytes) : Nat :=
  beNat (field data (96 + baseLength data) (min 32 (exponentLength data)))

def modulusValue (data : Bytes) : Nat :=
  beNat (field data (96 + baseLength data + exponentLength data) (modulusLength data))

/-- The lengths that are accepted. -/
structure ShortOperands (data : Bytes) : Prop where
  base : baseLength data ≤ 1024
  exponent : exponentLength data ≤ 1024
  modulus : modulusLength data ≤ 1024

/-! ## The price -/

def multiplicationComplexity (blen mlen : Nat) : Nat :=
  let words := (max blen mlen + 7) / 8
  if 32 < max blen mlen then 2 * words ^ 2 else 16

/-- The bits behind the top one, and 16 for every byte behind the first 32; at least one. -/
def iterationCount (elen head : Nat) : Nat :=
  max 1 (if elen ≤ 32 then Nat.size head - 1 else 16 * (elen - 32) + (Nat.size head - 1))

def modexpCost (data : Bytes) : Nat :=
  max 500 (multiplicationComplexity (baseLength data) (modulusLength data) *
    iterationCount (exponentLength data) (exponentHead data))

/-! ## Reads of the input -/

theorem length_field (data : Bytes) (start len : Nat) : (field data start len).length = len := by
  rw [field, List.length_map, List.length_range]

theorem getElem?_field (data : Bytes) {start len i : Nat} (hi : i < len) :
    (field data start len)[i]? = some (data.getD (start + i) 0) := by
  rw [field, List.getElem?_map, List.getElem?_range hi, Option.map_some]

theorem bufferRead_eq (data : Bytes) (start size : Word) :
    bufferRead data start size = field data start.toNat size.toNat := by
  refine List.ext_getElem? fun i => ?_
  unfold bufferRead
  by_cases hi : i < size.toNat
  · rw [getElem?_field data hi, List.getD_eq_getElem?_getD]
    by_cases hin : start.toNat + i < data.length
    · rw [List.getElem?_append_left (by simp; omega), List.getElem?_take_of_lt hi,
        List.getElem?_drop, List.getElem?_eq_getElem hin]
      rfl
    · rw [List.getElem?_append_right (by simp; omega), List.getElem?_replicate_of_lt (by simp; omega),
        List.getElem?_eq_none (by omega)]
      rfl
  · rw [List.getElem?_eq_none (by simp; omega), List.getElem?_eq_none (by rw [length_field]; omega)]

theorem take_drop_field (data : Bytes) {start len k n : Nat} (h : k + n ≤ len) :
    ((field data start len).drop k).take n = field data (start + k) n := by
  refine List.ext_getElem? fun i => ?_
  by_cases hi : i < n
  · rw [List.getElem?_take_of_lt hi, List.getElem?_drop, getElem?_field data (by omega),
      getElem?_field data hi, Nat.add_assoc]
  · rw [List.getElem?_eq_none (by simp [length_field]; omega),
      List.getElem?_eq_none (by rw [length_field]; omega)]

theorem toNat_u256FromBe {bs : Bytes} (h : bs.length ≤ 32) : (u256FromBe bs).toNat = beNat bs := by
  have hlt := beNat_lt bs
  have hle : 256 ^ bs.length ≤ 2 ^ 256 := Nat.pow_le_pow_right (n := 256) (by decide) h
  rw [u256FromBe, BitVec.toNat_ofNat, Nat.mod_eq_of_lt (Nat.lt_of_lt_of_le hlt hle)]

/-- A number of the header. -/
theorem toNat_beAt_header (data : Bytes) {k : Nat} (hk : k + 32 ≤ 96) :
    (beAt (bufferRead data 0 96) k).toNat = beNat (field data k 32) := by
  unfold beAt
  rw [bufferRead_eq, show (0 : Word).toNat = 0 from rfl, show (96 : Word).toNat = 96 from rfl,
    take_drop_field data hk, toNat_u256FromBe (by rw [length_field]), Nat.zero_add]

theorem u256BitLength_eq (a : U256) : u256BitLength a = Nat.size a.toNat := by
  unfold u256BitLength
  split
  · next h =>
    rw [h]
    exact Nat.size_zero.symm
  · next h =>
    have hne : a.toNat ≠ 0 := fun hz => h (BitVec.eq_of_toNat_eq hz)
    refine Nat.le_antisymm ?_ (Nat.size_le.mpr Nat.lt_log2_self)
    exact Nat.lt_size.mpr (Nat.log2_self_le hne)

/-! ## The price in words -/

theorem toNat_complexity {b m : Word} (hb : b.toNat ≤ 1024) (hm : m.toNat ≤ 1024) :
    let words : Word := (maxWord b m + 7) >>> 3
    let cplx : Word := if 32 < maxWord b m then 2 * words * words else 16
    cplx.toNat = multiplicationComplexity b.toNat m.toNat := by
  have hmax := maxWord_toNat b m
  have hle : (maxWord b m).toNat ≤ 1024 := by omega
  unfold multiplicationComplexity
  rw [← hmax]
  generalize maxWord b m = w at *
  have hwords : ((w + 7) >>> 3).toNat = (w.toNat + 7) / 8 := by
    rw [BitVec.toNat_ushiftRight, BitVec.toNat_add, show (7 : Word).toNat = 7 from rfl,
      Nat.mod_eq_of_lt (by omega), Nat.shiftRight_eq_div_pow]
  have hsmall : (w.toNat + 7) / 8 ≤ 128 := by omega
  dsimp only
  generalize (w + 7) >>> 3 = words at *
  rw [← hwords] at hsmall ⊢
  have hcond : (32 : Word) < w ↔ 32 < w.toNat := BitVec.lt_def
  by_cases h : (32 : Word) < w
  · have hsq : words.toNat * words.toNat ≤ 128 * 128 := Nat.mul_le_mul hsmall hsmall
    rw [if_pos h, if_pos (hcond.mp h), BitVec.toNat_mul, BitVec.toNat_mul,
      show (2 : Word).toNat = 2 from rfl, Nat.mod_eq_of_lt (a := 2 * words.toNat) (by omega),
      Nat.mul_assoc, Nat.pow_two, Nat.mod_eq_of_lt (by omega)]
  · rw [if_neg h, if_neg fun hn => h (hcond.mpr hn)]
    rfl

theorem multiplicationComplexity_le {b m : Nat} (hb : b ≤ 1024) (hm : m ≤ 1024) :
    multiplicationComplexity b m ≤ 2 * 128 ^ 2 := by
  unfold multiplicationComplexity
  dsimp only
  split
  · have hsmall : (max b m + 7) / 8 ≤ 128 := by omega
    exact Nat.mul_le_mul_left 2 (Nat.pow_le_pow_left hsmall 2)
  · decide

theorem toNat_iterations {e : Word} (head : U256) (he : e.toNat ≤ 1024) :
    let hbits : Word := BitVec.ofNat 64 (u256BitLength head)
    let hbits := if 0 < hbits then hbits - 1 else hbits
    let count := if e ≤ 32 then hbits else 16 * (e - 32) + hbits
    (if count < 1 then 1 else count).toNat = iterationCount e.toNat head.toNat := by
  have hsize : Nat.size head.toNat ≤ 256 := Nat.size_le.mpr head.isLt
  unfold iterationCount
  rw [u256BitLength_eq]
  generalize Nat.size head.toNat = bits at *
  have hbits : (BitVec.ofNat 64 bits).toNat = bits := by
    rw [BitVec.toNat_ofNat, Nat.mod_eq_of_lt (by omega)]
  dsimp only
  generalize BitVec.ofNat 64 bits = w at *
  have hless : (if 0 < w then w - 1 else w).toNat = bits - 1 := by
    have hpos : (0 : Word) < w ↔ 0 < w.toNat := BitVec.lt_def
    split
    · next h =>
      have hle : (1 : Word) ≤ w := BitVec.le_def.mpr (hpos.mp h)
      rw [BitVec.toNat_sub_of_le hle, hbits]
      rfl
    · next h =>
      have hzero : ¬0 < w.toNat := fun hn => h (hpos.mpr hn)
      omega
  generalize (if 0 < w then w - 1 else w) = low at *
  have hle : e ≤ 32 ↔ e.toNat ≤ 32 := BitVec.le_def
  have hcount : (if e ≤ 32 then low else 16 * (e - 32) + low).toNat =
      if e.toNat ≤ 32 then bits - 1 else 16 * (e.toNat - 32) + (bits - 1) := by
    by_cases h : e ≤ 32
    · rw [if_pos h, if_pos (hle.mp h), hless]
    · have h' : ¬e.toNat ≤ 32 := fun hn => h (hle.mpr hn)
      have hsub : (e - 32).toNat = e.toNat - 32 :=
        BitVec.toNat_sub_of_le (BitVec.le_def.mpr (Nat.le_of_lt (Nat.not_le.mp h')))
      rw [if_neg h, if_neg h', BitVec.toNat_add, BitVec.toNat_mul, hsub, hless,
        show (16 : Word).toNat = 16 from rfl,
        Nat.mod_eq_of_lt (a := 16 * (e.toNat - 32)) (by omega), Nat.mod_eq_of_lt (by omega)]
  rw [← hcount]
  generalize (if e ≤ 32 then low else 16 * (e - 32) + low) = count at *
  have hone : count < 1 ↔ count.toNat < 1 := BitVec.lt_def
  split
  · next h =>
    have := hone.mp h
    rw [show (1 : Word).toNat = 1 from rfl]
    omega
  · next h =>
    have : ¬count.toNat < 1 := fun hn => h (hone.mpr hn)
    omega

theorem iterationCount_le {e head : Nat} (he : e ≤ 1024) (hhead : head < 2 ^ 256) :
    iterationCount e head ≤ 16 * 1024 + 256 := by
  have hsize : Nat.size head ≤ 256 := Nat.size_le.mpr hhead
  unfold iterationCount
  split <;> omega

theorem toNat_atLeast500 {x y : Word} (h : x.toNat * y.toNat < 2 ^ 64) :
    (if x * y < 500 then (500 : Word) else x * y).toNat = max 500 (x.toNat * y.toNat) := by
  have hmul : (x * y).toNat = x.toNat * y.toNat := by
    rw [BitVec.toNat_mul, Nat.mod_eq_of_lt h]
  have hlt : x * y < 500 ↔ (x * y).toNat < 500 := BitVec.lt_def
  rw [← hmul]
  split
  · next hsmall => exact (Nat.max_eq_left (Nat.le_of_lt (hlt.mp hsmall))).symm
  · next hlarge => exact (Nat.max_eq_right (Nat.not_lt.mp fun h => hlarge (hlt.mpr h))).symm

/-- The words hold the price of operands of up to 1024 bytes. -/
theorem toNat_modexpGas {b m e : Word} {head : U256} (hb : b.toNat ≤ 1024) (hm : m.toNat ≤ 1024)
    (he : e.toNat ≤ 1024) :
    (modexpGas b m e head).toNat =
      max 500 (multiplicationComplexity b.toNat m.toNat * iterationCount e.toNat head.toNat) := by
  have hcomplexity := toNat_complexity hb hm
  have hiterations := toNat_iterations head he
  have hle := multiplicationComplexity_le hb hm
  have hle' := iterationCount_le he head.isLt
  unfold modexpGas
  dsimp only at hcomplexity hiterations ⊢
  rw [← hcomplexity] at hle ⊢
  rw [← hiterations] at hle' ⊢
  exact toNat_atLeast500 (Nat.lt_of_le_of_lt (Nat.mul_le_mul hle hle') (by decide))

/-! ## The precompile -/

/-- The output of the guest's own modular power. -/
def modexpOutput (bp ep mp : Bytes) : Bytes :=
  match Limb.modexp 3 0 bp ep mp fun _ => 0 with
  | .ok s => s.1
  | .error _ => []

theorem modexpOutput_eq (bp ep mp : Bytes) :
    modexpOutput bp ep mp = beBytes mp.length (Limb.modPow (beNat bp) (beNat ep) (beNat mp)) := by
  obtain ⟨c', hrun, -⟩ := Limb.modexp_value 0 bp ep mp (fun _ => 0) (Nat.le_refl 3)
  unfold modexpOutput
  rw [hrun]

/-- The cryptographic functions with the guest's own modular power. -/
abbrev Crypto.withModexp (x : Crypto) : Crypto := { x with modexp := modexpOutput }

/-- The frame with the price charged and the power as the output. -/
def Frame.afterModexp (e : Frame) : Frame :=
  { e with
    gasLeft := e.gasLeft - BitVec.ofNat 64 (modexpCost e.msg.data)
    regularGasUsed := e.regularGasUsed + BitVec.ofNat 64 (modexpCost e.msg.data)
    output := beBytes (modulusLength e.msg.data)
      (Limb.modPow (baseValue e.msg.data) (exponentValue e.msg.data) (modulusValue e.msg.data)) }

/-- A declared length that is accepted. -/
theorem toNat_declared (data : Bytes) {k : Nat} (hk : k + 32 ≤ 96)
    (h : beNat (field data k 32) ≤ 1024) :
    (satWord (beAt (bufferRead data 0 96) k)).toNat = beNat (field data k 32) ∧
      ¬(1024 : Word) < satWord (beAt (bufferRead data 0 96) k) := by
  have hvalue : (satWord (beAt (bufferRead data 0 96) k)).toNat = beNat (field data k 32) := by
    rw [satWord_toNat, toNat_beAt_header data hk, Nat.min_eq_left (by omega)]
  refine ⟨hvalue, fun hlt => ?_⟩
  have hlt' : 1024 < (satWord (beAt (bufferRead data 0 96) k)).toNat := hlt
  omega

theorem preModexp_run (x : Crypto) (c : Ctx) (h : ShortOperands c.ev.msg.data) :
    @preModexp x.withModexp c =
      if c.ev.gasLeft.toNat < modexpCost c.ev.msg.data then .error (.evm .outOfGas) c
      else .ok () { c with ev := c.ev.afterModexp } := by
  obtain ⟨hb, hbSmall⟩ := toNat_declared c.ev.msg.data (k := 0) (by decide) h.base
  obtain ⟨he, heSmall⟩ := toNat_declared c.ev.msg.data (k := 32) (by decide) h.exponent
  obtain ⟨hm, hmSmall⟩ := toNat_declared c.ev.msg.data (k := 64) (by decide) h.modulus
  unfold preModexp
  rw [bind_run_ok (show getEv c = .ok c.ev c from rfl)]
  dsimp only
  rw [if_neg hbSmall, if_neg heSmall, if_neg hmSmall]
  generalize hblen : satWord (beAt (bufferRead c.ev.msg.data 0 96) 0) = blen at *
  generalize helen : satWord (beAt (bufferRead c.ev.msg.data 0 96) 32) = elen at *
  generalize hmlen : satWord (beAt (bufferRead c.ev.msg.data 0 96) 64) = mlen at *
  have hstart : (96 + blen).toNat = 96 + baseLength c.ev.msg.data := by
    have := h.base
    rw [BitVec.toNat_add, hb, show (96 : Word).toNat = 96 from rfl]
    exact Nat.mod_eq_of_lt (by unfold baseLength at this; omega)
  have hhead : (u256FromBe (bufferRead c.ev.msg.data (96 + blen) (minWord 32 elen))).toNat =
      exponentHead c.ev.msg.data := by
    have hmin : (minWord 32 elen).toNat = min 32 (exponentLength c.ev.msg.data) := by
      rw [minWord_toNat, he]
      rfl
    rw [bufferRead_eq, hstart, hmin, toNat_u256FromBe (by rw [length_field]; omega)]
    rfl
  generalize u256FromBe (bufferRead c.ev.msg.data (96 + blen) (minWord 32 elen)) = head at *
  have hcost : (modexpGas blen mlen elen head).toNat = modexpCost c.ev.msg.data := by
    rw [toNat_modexpGas (hb.trans_le h.base) (hm.trans_le h.modulus) (he.trans_le h.exponent), hb,
      hm, he, hhead]
    rfl
  have hword : modexpGas blen mlen elen head = BitVec.ofNat 64 (modexpCost c.ev.msg.data) := by
    rw [← hcost, BitVec.ofNat_toNat, BitVec.setWidth_eq]
  have hlt : c.ev.gasLeft < modexpGas blen mlen elen head ↔
      c.ev.gasLeft.toNat < modexpCost c.ev.msg.data := by rw [BitVec.lt_def, hcost]
  have hcharge := chargeGas_run (modexpGas blen mlen elen head) c
  by_cases hgas : c.ev.gasLeft.toNat < modexpCost c.ev.msg.data
  · rw [if_pos (hlt.mpr hgas)] at hcharge
    rw [if_pos hgas, bind_run_error hcharge]
  · rw [if_neg (mt hlt.mp hgas), hword] at hcharge
    rw [if_neg hgas, hword, bind_run_ok hcharge]
    have hbase : (bufferRead c.ev.msg.data 96 blen) =
        field c.ev.msg.data 96 (baseLength c.ev.msg.data) := by
      rw [bufferRead_eq, hb]
      rfl
    have hexp : bufferRead c.ev.msg.data (96 + blen) elen =
        field c.ev.msg.data (96 + baseLength c.ev.msg.data) (exponentLength c.ev.msg.data) := by
      rw [bufferRead_eq, hstart, he]
      rfl
    have hmod : bufferRead c.ev.msg.data (96 + blen + elen) mlen = field c.ev.msg.data
        (96 + baseLength c.ev.msg.data + exponentLength c.ev.msg.data)
        (modulusLength c.ev.msg.data) := by
      have hle := h.base
      have hle' := h.exponent
      rw [bufferRead_eq, BitVec.toNat_add, hstart, he, hm,
        Nat.mod_eq_of_lt (by unfold exponentLength at hle'; omega)]
      rfl
    rw [hbase, hexp, hmod]
    have hout := modexpOutput_eq (field c.ev.msg.data 96 (baseLength c.ev.msg.data))
      (field c.ev.msg.data (96 + baseLength c.ev.msg.data) (exponentLength c.ev.msg.data))
      (field c.ev.msg.data (96 + baseLength c.ev.msg.data + exponentLength c.ev.msg.data)
        (modulusLength c.ev.msg.data))
    rw [length_field] at hout
    change (if blen = 0 ∧ mlen = 0 then setOutput [] else setOutput (modexpOutput _ _ _)) _ = _
    rw [hout]
    split
    · next hempty =>
      have hzero : modulusLength c.ev.msg.data = 0 := by
        have hm' := hm
        rw [hempty.2] at hm'
        exact hm'.symm
      unfold Frame.afterModexp
      rw [hzero]
      rfl
    · rfl

end StatelessGuest
