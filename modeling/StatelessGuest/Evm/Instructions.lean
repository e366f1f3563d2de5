import StatelessGuest.Evm.Frame
import StatelessGuest.Header.BlobFee

/-!
# Instructions

Every instruction that stays inside its frame: arithmetic, control flow, memory, stack, logs,
storage and environment. An instruction pops, charges, acts and advances the program counter;
whatever it did before it throws stays done.
-/

namespace StatelessGuest

open Lib

/-! ## Arithmetic, comparison and bitwise instructions -/

def opUnary (gas : Word) (f : U256 → U256) : EvmM Unit := do
  let x ← stackPop
  chargeGas gas
  stackPush (f x)
  pcAdd 1

def opBinary (gas : Word) (f : U256 → U256 → U256) : EvmM Unit := do
  let x ← stackPop
  let y ← stackPop
  chargeGas gas
  stackPush (f x y)
  pcAdd 1

def opTernary (gas : Word) (f : U256 → U256 → U256 → U256) : EvmM Unit := do
  let x ← stackPop
  let y ← stackPop
  let z ← stackPop
  chargeGas gas
  stackPush (f x y z)
  pcAdd 1

abbrev opAdd : EvmM Unit := opBinary 3 (· + ·)
abbrev opMul : EvmM Unit := opBinary 5 (· * ·)
abbrev opSub : EvmM Unit := opBinary 3 (· - ·)
abbrev opDiv : EvmM Unit := opBinary 5 u256Div
abbrev opSdiv : EvmM Unit := opBinary 5 u256Sdiv
abbrev opMod : EvmM Unit := opBinary 5 u256Mod
abbrev opSmod : EvmM Unit := opBinary 5 u256Smod
abbrev opAddmod : EvmM Unit := opTernary 8 u256Addmod
abbrev opMulmod : EvmM Unit := opTernary 8 u256Mulmod

def opExp : EvmM Unit := do
  let base ← stackPop
  let exponent ← stackPop
  let nb : Word := BitVec.ofNat 64 (u256ByteLength exponent)
  chargeGas (gExpBase + gExpPerByte * nb)
  stackPush (u256Exp base exponent)
  pcAdd 1

abbrev opSignextend : EvmM Unit := opBinary 5 fun b x => u256Signextend (satWord b) x
abbrev opLt : EvmM Unit := opBinary 3 fun x y => u256Bool (x < y)
abbrev opGt : EvmM Unit := opBinary 3 fun x y => u256Bool (y < x)
abbrev opSlt : EvmM Unit := opBinary 3 fun x y => u256Bool (u256Slt x y)
abbrev opSgt : EvmM Unit := opBinary 3 fun x y => u256Bool (u256Slt y x)
abbrev opEq : EvmM Unit := opBinary 3 fun x y => u256Bool (x = y)
abbrev opIszero : EvmM Unit := opUnary 3 fun x => u256Bool (x = 0)
abbrev opAnd : EvmM Unit := opBinary 3 (· &&& ·)
abbrev opOr : EvmM Unit := opBinary 3 (· ||| ·)
abbrev opXor : EvmM Unit := opBinary 3 (· ^^^ ·)
abbrev opNot : EvmM Unit := opUnary 3 (~~~ ·)
abbrev opByte : EvmM Unit := opBinary 3 fun i x => u256FromWord (u256Byte (satWord i) x)
abbrev opShl : EvmM Unit := opBinary 3 fun sh x => u256Shl x (satWord sh)
abbrev opShr : EvmM Unit := opBinary 3 fun sh x => u256Shr x (satWord sh)
abbrev opSar : EvmM Unit := opBinary 3 fun sh x => u256Sar x (satWord sh)
abbrev opClz : EvmM Unit := opUnary 5 fun x => BitVec.ofNat 256 (256 - u256BitLength x)

/-! ## Keccak -/

def opKeccak [Keccak] : EvmM Unit := do
  let start ← stackPop
  let size ← stackPop
  let n := satWord size
  let x ← extendMemoryCost1 start size
  chargeGas (addSat (gKeccak256Base + gKeccak256PerWord * wordsOf n) x.1)
  extendMemory x.2
  let e ← getEv
  stackPush (keccak256 (e.memRead (satWord start) n))
  pcAdd 1

/-! ## Control flow -/

def opStop : EvmM Unit := do
  setRunning false
  pcAdd 1

def setPc (dest : U256) : EvmM Unit := modifyEv fun e => { e with pc := dest.setWidth 64 }

def opJump : EvmM Unit := do
  let dest ← stackPop
  chargeGas 8
  if (← getEv).isValidJumpdest dest then setPc dest else throwEvm .invalidJumpdest

def opJumpi : EvmM Unit := do
  let dest ← stackPop
  let cond ← stackPop
  chargeGas 10
  if cond = 0 then pcAdd 1
  else if (← getEv).isValidJumpdest dest then setPc dest
  else throwEvm .invalidJumpdest

/-- Push a value the frame determines, after a fixed charge. -/
def opPushOf (gas : Word) (f : Frame → U256) : EvmM Unit := do
  chargeGas gas
  stackPush (f (← getEv))
  pcAdd 1

abbrev opPc : EvmM Unit := opPushOf 2 fun e => u256FromWord e.pc
abbrev opGas : EvmM Unit := opPushOf 2 fun e => u256FromWord e.gasLeft

def opJumpdest : EvmM Unit := do
  chargeGas 1
  pcAdd 1

/-! ## Memory -/

def opMstore : EvmM Unit := do
  let start ← stackPop
  let value ← stackPop
  chargeWithMemory 3 start 32
  memWrite (satWord start) (u256ToBe32 value)
  pcAdd 1

def opMstore8 : EvmM Unit := do
  let start ← stackPop
  let value ← stackPop
  chargeWithMemory 3 start 1
  memWrite (satWord start) [UInt8.ofNat (value.toNat % 256)]
  pcAdd 1

def opMload : EvmM Unit := do
  let start ← stackPop
  chargeWithMemory 3 start 32
  let e ← getEv
  stackPush (u256FromBe (e.memRead (satWord start) 32))
  pcAdd 1

abbrev opMsize : EvmM Unit := opPushOf 2 fun e => u256FromWord e.memLen

/-- Write to the memory unless the range is empty. -/
def memWriteIf (n : Word) (s : Word) (bs : Bytes) : EvmM Unit := do
  if n ≠ 0 then memWrite s bs

def opMcopy : EvmM Unit := do
  let dst ← stackPop
  let src ← stackPop
  let len ← stackPop
  let n := satWord len
  let x ← extendMemoryCost2 src len dst len
  chargeGas (addSat (3 + gCopyPerWord * wordsOf n) x.1)
  extendMemory x.2
  let e ← getEv
  memWriteIf n (satWord dst) (e.memRead (satWord src) n)
  pcAdd 1

/-! ## Stack -/

def opPop : EvmM Unit := do
  let _ ← stackPop
  chargeGas 2
  pcAdd 1

def opPush (nbytes : Word) : EvmM Unit := do
  chargeGas (if nbytes = 0 then 2 else 3)
  let e ← getEv
  stackPush (u256FromBe (bufferRead e.code (e.pc + 1) nbytes))
  pcAdd (1 + nbytes)

/-- Push a copy of the item at a position from the top. -/
def pushItem (item : Nat) : EvmM Unit := do
  match (← getEv).stack[item]? with
  | none => throwEvm .stackUnderflow
  | some v => stackPush v

def opDup (item : Nat) : EvmM Unit := do
  chargeGas 3
  pushItem item
  pcAdd 1

/-- Exchange two positions, counted from the top. -/
def stackSwapPositions (i j : Nat) : EvmM Unit :=
  modifyEv fun e => { e with
    stack := (e.stack.set i (e.stack.getD j 0)).set j (e.stack.getD i 0) }

/-- Exchange two positions of a stack of at least `need` items. -/
def swapIfDeep (need i j : Nat) : EvmM Unit := do
  if (← getEv).stack.length < need then throwEvm .stackUnderflow
  stackSwapPositions i j

def opSwap (item : Nat) : EvmM Unit := do
  chargeGas 3
  swapIfDeep (item + 1) 0 item
  pcAdd 1

/-- The byte after the opcode, zero past the end of the code. -/
def Frame.codeImm (e : Frame) : Nat := (e.code.getD (e.pc.toNat + 1) 0).toNat

def decodeSingle (x : Nat) : EvmM Nat := do
  if x ≤ 90 ∨ 128 ≤ x then return (x + 145) % 256
  throwEvm .invalidParameter

/-- A decoded count of zero reads below the stack; `decodeSingle` never yields it. -/
def opDupn : EvmM Unit := do
  chargeGas 3
  let n ← decodeSingle (← getEv).codeImm
  pushItem (n - 1)
  pcAdd 2

def opSwapn : EvmM Unit := do
  chargeGas 3
  let n ← decodeSingle (← getEv).codeImm
  swapIfDeep (n + 1) 0 n
  pcAdd 2

def opExchange : EvmM Unit := do
  chargeGas 3
  let imm := (← getEv).codeImm
  if 81 < imm ∧ imm < 128 then throwEvm .invalidParameter
  let k := imm ^^^ 143
  let q := k >>> 4
  let r := k % 16
  let n := if q < r then q + 1 else r + 1
  let m := if q < r then r + 1 else 29 - q
  swapIfDeep (max n m + 1) n m
  pcAdd 2

/-! ## Logs -/

/-- Pop the topics of a log. -/
def popTopics : Nat → EvmM (List Hash)
  | 0 => return []
  | n + 1 => do
    let t ← stackPop
    return t :: (← popTopics n)

/-- The charge of a log, saturating. -/
def logCost (ntopics : Nat) (n memCost : Word) : Word :=
  let dc := mul64x64 gLogDataPerByte n
  if dc.2 ≠ 0 then wordMax
  else addSat (addSat (gLogBase + gLogTopic * BitVec.ofNat 64 ntopics) memCost) dc.1

def opLog (ntopics : Nat) : EvmM Unit := do
  let start ← stackPop
  let size ← stackPop
  if (← getEv).stack.length < ntopics then throwEvm .stackUnderflow
  let n := satWord size
  let x ← extendMemoryCost1 start size
  chargeGas (logCost ntopics n x.1)
  let topics ← popTopics ntopics
  extendMemory x.2
  requireNotStatic
  let e ← getEv
  logAppend ⟨e.msg.currentTarget, topics, e.memRead (satWord start) n⟩
  pcAdd 1

section

variable [Keccak] (w : Witness)

/-! ## Storage -/

/-- Charge for a storage access and warm the slot. -/
def chargeStorageAccess (target : Address) (key : Hash) : EvmM Unit := do
  if ← isWarmStorageKey target key then
    chargeGas gWarmAccess
  else
    chargeGas gColdStorageAccess
    warmStorageKey target key

def opSload : EvmM Unit := do
  let key ← stackPop
  let target := (← getEv).msg.currentTarget
  chargeStorageAccess target key
  let v ← liftState (getStorage w target key)
  stackPush v
  pcAdd 1

/-- The regular charge of a storage write, on top of the access. -/
def SlotWrite.writeGas (x : SlotWrite) : Word :=
  if x.original = x.current ∧ x.current ≠ x.new then gStorageWrite else 0

/-- What a storage write adds to the refund counter, as a signed word. -/
def SlotWrite.refund (x : SlotWrite) : Word :=
  if x.current = x.new then 0
  else
    (if x.original ≠ 0 ∧ x.current ≠ 0 ∧ x.new = 0 then gRefundStorageClear else 0)
      - (if x.original ≠ 0 ∧ x.current = 0 then gRefundStorageClear else 0)
      + (if x.original = x.new then gStorageWrite else 0)

/-- The state gas a storage write charges. -/
def SlotWrite.stateGas (x : SlotWrite) : Word :=
  if x.original = x.current ∧ x.current ≠ x.new ∧ x.original = 0 then sgStorageSet else 0

/-- The state gas a storage write gives back. -/
def SlotWrite.stateCredit (x : SlotWrite) : Word :=
  if x.current ≠ x.new ∧ x.original = x.new ∧ x.original = 0 then sgStorageSet else 0

def opSstore : EvmM Unit := do
  requireNotStatic
  let key ← stackPop
  let newValue ← stackPop
  let target := (← getEv).msg.currentTarget
  let warm ← isWarmStorageKey target key
  let accessCost := if warm then gWarmAccess else gColdStorageAccess
  checkGas (maxWord accessCost (gCallStipend + 1))
  chargeStorageAccess target key
  let original ← liftState (getStorageOriginal w target key)
  let current ← liftState (getStorage w target key)
  let x : SlotWrite := ⟨target, key, original, current, newValue⟩
  modifyEv fun e => { e with refund := e.refund + x.refund }
  creditStateGasRefund x.stateCredit
  chargeGas x.writeGas
  chargeStateGas x.stateGas
  liftState (setStorage w target key newValue)
  modifyEv fun e => { e with slotWrites := e.slotWrites ++ [x] }
  pcAdd 1

def opTload : EvmM Unit := do
  let key ← stackPop
  chargeGas 100
  let target := (← getEv).msg.currentTarget
  let v ← liftState (getTransientStorage target key)
  stackPush v
  pcAdd 1

def opTstore : EvmM Unit := do
  requireNotStatic
  let key ← stackPop
  let v ← stackPop
  chargeGas 100
  let target := (← getEv).msg.currentTarget
  liftState (setTransientStorage target key v)
  pcAdd 1

/-! ## Environment -/

abbrev opAddress : EvmM Unit := opPushOf 2 fun e => addressToU256 e.msg.currentTarget

/-- Charge for an account access, then warm the account. -/
def chargeAccountAccess (addr : Address) (extra : Word) : EvmM Unit := do
  let c ← accessGasCost addr
  chargeGas (c + extra)
  warmAfterCharge addr c

/-- The account record of an address. -/
def loadAccount (addr : Address) : StateM Acct := do ldAcct (← getAccount w addr)

def opBalance : EvmM Unit := do
  let av ← stackPop
  let addr := toAddressMasked av
  chargeAccountAccess addr 0
  let a ← liftState (loadAccount w addr)
  stackPush a.balance
  pcAdd 1

abbrev opOrigin : EvmM Unit := opPushOf 2 fun e => addressToU256 e.msg.te.origin
abbrev opCaller : EvmM Unit := opPushOf 2 fun e => addressToU256 e.msg.caller
abbrev opCallvalue : EvmM Unit := opPushOf 2 fun e => e.msg.value

def opCalldataload : EvmM Unit := do
  let start ← stackPop
  chargeGas 3
  let e ← getEv
  stackPush (u256FromBe (bufferRead e.msg.data (satWord start) 32))
  pcAdd 1

abbrev opCalldatasize : EvmM Unit :=
  opPushOf 2 fun e => u256FromWord (BitVec.ofNat 64 e.msg.data.length)

/-- Copy from a buffer to the memory. -/
def copyFromBuffer (base : Word) (buf : Bytes) : EvmM Unit := do
  let mstart ← stackPop
  let dstart ← stackPop
  let size ← stackPop
  let n := satWord size
  let x ← extendMemoryCost1 mstart size
  chargeGas (addSat (base + gCopyPerWord * wordsOf n) x.1)
  extendMemory x.2
  memWriteIf n (satWord mstart) (bufferRead buf (satWord dstart) n)
  pcAdd 1

def opCalldatacopy : EvmM Unit := do copyFromBuffer 3 (← getEv).msg.data

abbrev opCodesize : EvmM Unit := opPushOf 2 fun e => u256FromWord (BitVec.ofNat 64 e.code.length)

def opCodecopy : EvmM Unit := do copyFromBuffer 3 (← getEv).code

abbrev opGasprice : EvmM Unit := opPushOf 2 fun e => e.msg.te.gasPrice

/-- The code of an address, through the tracker. -/
def extCodeOf (addr : Address) : StateM Bytes := do
  let a ← loadAccount w addr
  getCode w a.codeHash addr

def opExtcodesize : EvmM Unit := do
  let av ← stackPop
  let addr := toAddressMasked av
  chargeAccountAccess addr gWarmAccess
  let code ← liftState (extCodeOf w addr)
  stackPushWord (BitVec.ofNat 64 code.length)
  pcAdd 1

def opExtcodecopy : EvmM Unit := do
  let av ← stackPop
  let addr := toAddressMasked av
  let mstart ← stackPop
  let cstart ← stackPop
  let size ← stackPop
  let n := satWord size
  let x ← extendMemoryCost1 mstart size
  let acc ← accessGasCost addr
  chargeGas (addSat (acc + gWarmAccess + gCopyPerWord * wordsOf n) x.1)
  warmAfterCharge addr acc
  extendMemory x.2
  let code ← liftState (extCodeOf w addr)
  memWriteIf n (satWord mstart) (bufferRead code (satWord cstart) n)
  pcAdd 1

abbrev opReturndatasize : EvmM Unit :=
  opPushOf 2 fun e => u256FromWord (BitVec.ofNat 64 e.retdata.length)

def opReturndatacopy : EvmM Unit := do
  let mstart ← stackPop
  let rstart ← stackPop
  let size ← stackPop
  let n := satWord size
  let x ← extendMemoryCost1 mstart size
  chargeGas (addSat (3 + gCopyPerWord * wordsOf n) x.1)
  let rs := satWord rstart
  let retdata := (← getEv).retdata
  if BitVec.ofNat 64 retdata.length < addSat rs n then throwEvm .outOfBoundsRead
  extendMemory x.2
  memWriteIf n (satWord mstart) (bufferRead retdata rs n)
  pcAdd 1

def opExtcodehash : EvmM Unit := do
  let av ← stackPop
  let addr := toAddressMasked av
  chargeAccountAccess addr 0
  let a ← liftState (loadAccount w addr)
  stackPush (if acctIsEmpty a then 0 else a.codeHash)
  pcAdd 1

def opSelfbalance : EvmM Unit := do
  chargeGas gFastStep
  let target := (← getEv).msg.currentTarget
  let a ← liftState (loadAccount w target)
  stackPush a.balance
  pcAdd 1

abbrev opBasefee : EvmM Unit := opPushOf 2 fun e => e.msg.be.baseFee

def opBlobhash : EvmM Unit := do
  let iv ← stackPop
  chargeGas 3
  let hashes := (← getEv).msg.te.blobHashes
  let i := satWord iv
  stackPush (if i < BitVec.ofNat 64 hashes.length then hashes.getD i.toNat 0 else 0)
  pcAdd 1

def opBlobbasefee : EvmM Unit := do
  chargeGas 2
  let benv := (← getEv).msg.be
  let price ← liftState (liftExcept (calculateBlobGasPrice benv.excessBlobGas))
  stackPush price
  pcAdd 1

/-- The hash of an ancestor; past the witness headers the block is rejected. -/
def ancestorHash (benv : BlockEnv) (b : Word) : StateM U256 := do
  if benv.number ≤ b ∨ b + 256 < benv.number ∨ b = wordMax then return 0
  let offset := benv.number - b
  if BitVec.ofNat 64 benv.blockHashes.length < offset then throw (.block 50)
  trackAncestorAccess offset
  return benv.blockHashes.getD (benv.blockHashes.length - offset.toNat) 0

def opBlockhash : EvmM Unit := do
  let bn ← stackPop
  chargeGas gBlockhash
  let benv := (← getEv).msg.be
  let h ← liftState (ancestorHash benv (satWord bn))
  stackPush h
  pcAdd 1

abbrev opCoinbase : EvmM Unit := opPushOf 2 fun e => addressToU256 e.msg.be.coinbase
abbrev opTimestamp : EvmM Unit := opPushOf 2 fun e => u256FromWord e.msg.be.time
abbrev opNumber : EvmM Unit := opPushOf 2 fun e => u256FromWord e.msg.be.number
abbrev opGaslimit : EvmM Unit := opPushOf 2 fun e => u256FromWord e.msg.be.gasLimit
abbrev opChainid : EvmM Unit := opPushOf 2 fun e => u256FromWord e.msg.be.chainId
abbrev opPrevrandao : EvmM Unit := opPushOf 2 fun e => e.msg.be.prevRandao
abbrev opSlotnum : EvmM Unit := opPushOf 2 fun e => u256FromWord e.msg.be.slot

end

end StatelessGuest
