import StatelessGuest.Evm.Frame

/-!
# Precompiled contracts

The dispatch on the address, and each precompile's framing: the input it accepts, the gas it
charges, the error it raises and the output it leaves. The cryptographic functions behind them
are parameters.
-/

namespace StatelessGuest

open Lib

/-- The cryptographic functions; `none` is their error or failure result. -/
class Crypto where
  sha256 : Bytes → Bytes
  ripemd160 : Bytes → Bytes
  secp256k1Recover : Hash → U256 → U256 → Word → Option Bytes
  secp256k1Ecrecover : Bytes → Word → U256 → U256 → Option Bytes
  blake2bF : Word → Bytes → Bytes → Bytes → UInt8 → Bytes
  modexp : Bytes → Bytes → Bytes → Bytes
  bn254G1Add : Bytes → Option Bytes
  bn254G1Mul : Bytes → Option Bytes
  bn254PairingCheck : Bytes → Word → Option Bool
  kzgPointEvaluation : Bytes → Option Bytes
  blsG1Add : Bytes → Option Bytes
  blsG1Msm : Bytes → Word → Option Bytes
  blsG2Add : Bytes → Option Bytes
  blsG2Msm : Bytes → Word → Option Bytes
  blsPairing : Bytes → Word → Option Bytes
  blsMapFpToG1 : Bytes → Option Bytes
  blsMapFp2ToG2 : Bytes → Option Bytes
  p256Verify : Bytes → U256 → U256 → U256 → U256 → Bool

/-- 0 when the address is no precompile, else 1 to 17 for `0x01` to `0x11` and 18 for
`0x100`. -/
def precompileIndex (addr : Address) : Nat :=
  let n := addr.toNat
  if n = 256 then 18 else if 1 ≤ n ∧ n ≤ 17 then n else 0

/-- The length of the call data. -/
def Msg.dataN (m : Msg) : Word := BitVec.ofNat 64 m.data.length

/-- The length of a byte string. -/
def lenWord (bs : Bytes) : Word := BitVec.ofNat 64 bs.length

/-- Output a core's result, or raise its error. -/
def outputOr (err : EvmErr) : Option Bytes → EvmM Unit
  | none => throwEvm err
  | some out => setOutput out

/-- A big-endian number in a buffer, 32 bytes from `start` on. -/
def beAt (buf : Bytes) (start : Nat) : U256 := u256FromBe ((buf.drop start).take 32)

section

variable [Crypto]

open Crypto

def preIdentity : EvmM Unit := do
  let msg := (← getEv).msg
  chargeGas (15 + 3 * wordsOf msg.dataN)
  setOutput msg.data

def preSha256 : EvmM Unit := do
  let msg := (← getEv).msg
  chargeGas (60 + 12 * wordsOf msg.dataN)
  setOutput (sha256 msg.data)

def preEcrecover : EvmM Unit := do
  let msg := (← getEv).msg
  chargeGas 3000
  let buf := bufferRead msg.data 0 128
  let v := beAt buf 32
  let r := beAt buf 64
  let s := beAt buf 96
  if !u256FitsWord v then
    setOutput []
  else
    match secp256k1Ecrecover (buf.take 32) (v.setWidth 64) r s with
    | none => setOutput []
    | some addr => setOutput (List.replicate 12 0 ++ addr)

/-- The digest is left-padded to 32 bytes. -/
def preRipemd160 : EvmM Unit := do
  let msg := (← getEv).msg
  chargeGas (600 + 120 * wordsOf msg.dataN)
  setOutput (List.replicate 12 0 ++ ripemd160 msg.data)

/-- The length is checked before any gas is charged, the final flag after. -/
def preBlake2f : EvmM Unit := do
  let msg := (← getEv).msg
  if msg.dataN ≠ 213 then throwEvm .invalidParameter
  let data := msg.data
  let rounds : Word := BitVec.ofNat 64 (beNat (data.take 4))
  let f := data.getD 212 0
  chargeGas rounds
  if 1 < f then throwEvm .invalidParameter
  setOutput (blake2bF rounds ((data.drop 4).take 64) ((data.drop 68).take 128)
    ((data.drop 196).take 16) f)

/-- `max(500, complexity * iterations)`. -/
def modexpGas (blen mlen elen : Word) (head : U256) : Word :=
  let maxlen := maxWord blen mlen
  let words := (maxlen + 7) >>> 3
  let cplx := if 32 < maxlen then 2 * words * words else 16
  let hbits : Word := BitVec.ofNat 64 (u256BitLength head)
  let hbits := if 0 < hbits then hbits - 1 else hbits
  let count := if elen ≤ 32 then hbits else 16 * (elen - 32) + hbits
  let count := if count < 1 then 1 else count
  let cost := cplx * count
  if cost < 500 then 500 else cost

def preModexp : EvmM Unit := do
  let msg := (← getEv).msg
  let data := msg.data
  let hdr := bufferRead data 0 96
  let blen := satWord (beAt hdr 0)
  if 1024 < blen then throwEvm .outOfGas
  let elen := satWord (beAt hdr 32)
  if 1024 < elen then throwEvm .outOfGas
  let mlen := satWord (beAt hdr 64)
  if 1024 < mlen then throwEvm .outOfGas
  let expStart := 96 + blen
  let head := u256FromBe (bufferRead data expStart (minWord 32 elen))
  chargeGas (modexpGas blen mlen elen head)
  if blen = 0 ∧ mlen = 0 then
    setOutput []
  else
    setOutput (modexp (bufferRead data 96 blen) (bufferRead data expStart elen)
      (bufferRead data (expStart + elen) mlen))

/-- A curve operation on a padded input, whose errors are out of gas. -/
def preAltBn128 (gas len : Word) (core : Bytes → Option Bytes) : EvmM Unit := do
  let msg := (← getEv).msg
  chargeGas gas
  outputOr .outOfGas (core (bufferRead msg.data 0 len))

def preAltBn128Add : EvmM Unit := preAltBn128 150 128 bn254G1Add

def preAltBn128Mul : EvmM Unit := preAltBn128 6000 96 bn254G1Mul

def preAltBn128PairingCheck : EvmM Unit := do
  let msg := (← getEv).msg
  let q := msg.dataN / 192
  chargeGas (34000 * q + 45000)
  if msg.dataN % 192 ≠ 0 then throwEvm .outOfGas
  match bn254PairingCheck msg.data q with
  | none => throwEvm .outOfGas
  | some res => setOutput (u256ToBe32 (u256Bool res))

/-- A precompile with an input of fixed length, checked before the charge. -/
def preFixed (len gas : Word) (err : EvmErr) (core : Bytes → Option Bytes) : EvmM Unit := do
  let msg := (← getEv).msg
  if msg.dataN ≠ len then throwEvm err
  chargeGas gas
  outputOr err (core msg.data)

def preKzgPointEvaluation : EvmM Unit := preFixed 192 50000 .kzgProof kzgPointEvaluation

def preBlsG1Add : EvmM Unit := preFixed 256 375 .invalidParameter blsG1Add

def preBlsG2Add : EvmM Unit := preFixed 512 600 .invalidParameter blsG2Add

def preBlsMapFpToG1 : EvmM Unit := preFixed 64 5500 .invalidParameter blsMapFpToG1

def preBlsMapFp2ToG2 : EvmM Unit := preFixed 128 23800 .invalidParameter blsMapFp2ToG2

/-- The discounts of a G1 multi-scalar multiplication of 1 to 128 pairs. -/
def blsG1Discount : List Nat :=
  [1000, 949, 848, 797, 764, 750, 738, 728, 719, 712, 705, 698, 692, 687, 682, 677, 673, 669, 665,
   661, 658, 654, 651, 648, 645, 642, 640, 637, 635, 632, 630, 627, 625, 623, 621, 619, 617, 615,
   613, 611, 609, 608, 606, 604, 603, 601, 599, 598, 596, 595, 593, 592, 591, 589, 588, 586, 585,
   584, 582, 581, 580, 579, 577, 576, 575, 574, 573, 572, 570, 569, 568, 567, 566, 565, 564, 563,
   562, 561, 560, 559, 558, 557, 556, 555, 554, 553, 552, 551, 550, 549, 548, 547, 547, 546, 545,
   544, 543, 542, 541, 540, 540, 539, 538, 537, 536, 536, 535, 534, 533, 532, 532, 531, 530, 529,
   528, 528, 527, 526, 525, 525, 524, 523, 522, 522, 521, 520, 520, 519]

/-- The discounts of a G2 multi-scalar multiplication of 1 to 128 pairs. -/
def blsG2Discount : List Nat :=
  [1000, 1000, 923, 884, 855, 832, 812, 796, 782, 770, 759, 749, 740, 732, 724, 717, 711, 704, 699,
   693, 688, 683, 679, 674, 670, 666, 663, 659, 655, 652, 649, 646, 643, 640, 637, 634, 632, 629,
   627, 624, 622, 620, 618, 615, 613, 611, 609, 607, 606, 604, 602, 600, 598, 597, 595, 593, 592,
   590, 589, 587, 586, 584, 583, 582, 580, 579, 578, 576, 575, 574, 573, 571, 570, 569, 568, 567,
   566, 565, 563, 562, 561, 560, 559, 558, 557, 556, 555, 554, 553, 552, 552, 551, 550, 549, 548,
   547, 546, 545, 545, 544, 543, 542, 541, 541, 540, 539, 538, 537, 537, 536, 535, 535, 534, 533,
   532, 532, 531, 530, 530, 529, 528, 528, 527, 526, 526, 525, 524, 524]

def blsG1MsmDiscount (k : Word) : Word :=
  if 128 < k then 519 else BitVec.ofNat 64 (blsG1Discount.getD (k.toNat - 1) 0)

def blsG2MsmDiscount (k : Word) : Word :=
  if 128 < k then 524 else BitVec.ofNat 64 (blsG2Discount.getD (k.toNat - 1) 0)

/-- A precompile on a non-empty sequence of pairs, its gas a function of their number. -/
def prePairs (pairLen : Word) (gas : Word → Word) (core : Bytes → Word → Option Bytes) :
    EvmM Unit := do
  let msg := (← getEv).msg
  if msg.dataN = 0 then throwEvm .invalidParameter
  if msg.dataN % pairLen ≠ 0 then throwEvm .invalidParameter
  let k := msg.dataN / pairLen
  chargeGas (gas k)
  outputOr .invalidParameter (core msg.data k)

def preBlsG1Msm : EvmM Unit :=
  prePairs 160 (fun k => k * 12000 * blsG1MsmDiscount k / 1000) blsG1Msm

def preBlsG2Msm : EvmM Unit :=
  prePairs 288 (fun k => k * 22500 * blsG2MsmDiscount k / 1000) blsG2Msm

def preBlsPairing : EvmM Unit := prePairs 384 (fun k => 32600 * k + 37700) blsPairing

/-- A signature that does not verify, or an input of another length, leaves no output. -/
def preP256verify : EvmM Unit := do
  let msg := (← getEv).msg
  chargeGas 6900
  setOutput []
  if msg.dataN = 160 then
    let data := msg.data
    if p256Verify (data.take 32) (beAt data 32) (beAt data 64) (beAt data 96) (beAt data 128) then
      setOutput (u256ToBe32 1)

/-- The precompiles by index. -/
def precompileTable : List (Nat × EvmM Unit) :=
  [(1, preEcrecover), (2, preSha256), (3, preRipemd160), (4, preIdentity), (5, preModexp),
   (6, preAltBn128Add), (7, preAltBn128Mul), (8, preAltBn128PairingCheck), (9, preBlake2f),
   (10, preKzgPointEvaluation), (11, preBlsG1Add), (12, preBlsG1Msm), (13, preBlsG2Add),
   (14, preBlsG2Msm), (15, preBlsPairing), (16, preBlsMapFpToG1), (17, preBlsMapFp2ToG2),
   (18, preP256verify)]

def runPrecompile (idx : Nat) : EvmM Unit :=
  match precompileTable.lookup idx with
  | some pre => pre
  | none => throw (.block 99)

end

/-- Stand-in precompiles; every signature is by the account whose address is the number of the
recovered point. -/
abbrev stubCrypto : Crypto where
  sha256 _ := []
  ripemd160 _ := []
  secp256k1Recover _ _ _ _ := some [0x30]
  secp256k1Ecrecover _ _ _ _ := none
  blake2bF _ _ _ _ _ := []
  modexp _ _ _ := []
  bn254G1Add _ := none
  bn254G1Mul _ := none
  bn254PairingCheck _ _ := none
  kzgPointEvaluation _ := none
  blsG1Add _ := none
  blsG1Msm _ _ := none
  blsG2Add _ := none
  blsG2Msm _ _ := none
  blsPairing _ _ := none
  blsMapFpToG1 _ := none
  blsMapFp2ToG2 _ := none
  p256Verify _ _ _ _ _ := false

end StatelessGuest
