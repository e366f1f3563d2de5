import StatelessGuest.Evm.Arith
import StatelessGuest.State.Tracker

/-!
# Frames, gas, stack and memory

The frame record an instruction works on, and the primitives instructions are made of. A
frame's gas lives in four counters: gas left, state gas left, the state gas that spilled into
gas left, and the regular gas used.
-/

namespace StatelessGuest

open Lib

/-! ## Records -/

/-- The block environment. -/
structure BlockEnv where
  chainId : Word
  gasLimit : Word
  blockHashes : List Hash
  coinbase : Address
  number : Word
  baseFee : U256
  time : Word
  prevRandao : Hash
  excessBlobGas : Word
  slot : Word
  deriving Inhabited

/-- An EIP-7702 authorization. -/
structure Auth where
  chainId : U256
  addr : Address
  nonce : Word
  yParity : Word
  r : U256
  s : U256
  deriving Inhabited, DecidableEq

/-- The transaction environment. -/
structure TxEnv where
  origin : Address
  value : U256
  gasPrice : U256
  blobHashes : List Hash
  auths : List Auth
  deriving Inhabited

/-- A message: what a frame is opened for. `target` is `none` for a creation and
`codeAddress` is `none` when no code address is given. -/
structure Msg where
  be : BlockEnv
  te : TxEnv
  caller : Address
  target : Option Address
  currentTarget : Address
  gas : Word
  reservoir : Word
  value : U256
  data : Bytes
  codeAddress : Option Address
  code : Bytes
  depth : Nat
  transferValue : Bool
  isStatic : Bool
  disablePrecompiles : Bool
  deriving Inhabited

/-- A log record. -/
structure Log where
  address : Address
  topics : List Hash
  data : Bytes
  deriving DecidableEq, Inhabited

/-- A storage write: the slot with its original, current and new value. -/
structure SlotWrite where
  addr : Address
  key : Hash
  original : U256
  current : U256
  new : U256
  deriving DecidableEq, Inhabited

/-- A frame. The head of `stack` is its top and `refund` is read as a signed word.
`slotWrites` is a ghost that nothing reads: the storage writes of the frame and of its
successful descendants, in order. -/
structure Frame where
  pc : Word
  stack : List U256
  mem : Bytes
  code : Bytes
  gasLeft : Word
  stateGasLeft : Word
  jumpdests : List Nat
  logs : List Log
  refund : Word
  running : Bool
  msg : Msg
  output : Bytes
  delete : OrdMap Address Unit
  retdata : Bytes
  error : Option EvmErr
  regularGasUsed : Word
  stateGasSpilled : Word
  authStateGasUsed : Word
  accAddrsN : Nat
  accKeysN : Nat
  slotWrites : List SlotWrite
  deriving Inhabited

/-- What an instruction works on: the tracker, the accessed sets shared by every frame of the
transaction, and the current frame. -/
structure Ctx where
  tk : Tracker
  accAddrs : OrdMap Address Unit
  accKeys : OrdMap (Address × Hash) Unit
  ev : Frame
  deriving Inhabited

/-- A program of the interpreter. -/
abbrev EvmM := EStateM Exn Ctx

def getEv : EvmM Frame := do return (← get).ev

def modifyEv (f : Frame → Frame) : EvmM Unit := modify fun c => { c with ev := f c.ev }

def throwEvm {α : Type} (e : EvmErr) : EvmM α := throw (.evm e)

/-- Run a tracker operation. -/
def liftState {α : Type} (x : StateM α) : EvmM α := fun c =>
  match x c.tk with
  | .ok a s => .ok a { c with tk := s }
  | .error e s => .error e { c with tk := s }

theorem liftState_ok {α : Type} {x : StateM α} {a : α} {c : Ctx} {s : Tracker}
    (h : x c.tk = .ok a s) : liftState x c = .ok a { c with tk := s } := by
  unfold liftState
  rw [h]

theorem liftState_error {α : Type} {x : StateM α} {e : Exn} {c : Ctx} {s : Tracker}
    (h : x c.tk = .error e s) : liftState x c = .error e { c with tk := s } := by
  unfold liftState
  rw [h]

theorem of_liftState_ok {α : Type} {x : StateM α} {a : α} {c c' : Ctx}
    (h : liftState x c = .ok a c') : ∃ s, x c.tk = .ok a s ∧ c' = { c with tk := s } := by
  cases hx : x c.tk with
  | ok b s =>
    rw [liftState_ok hx] at h
    cases h
    exact ⟨s, rfl, rfl⟩
  | error e s =>
    rw [liftState_error hx] at h
    cases h

theorem of_liftState_error {α : Type} {x : StateM α} {e : Exn} {c c' : Ctx}
    (h : liftState x c = .error e c') : ∃ s, x c.tk = .error e s ∧ c' = { c with tk := s } := by
  cases hx : x c.tk with
  | ok b s =>
    rw [liftState_ok hx] at h
    cases h
  | error e' s =>
    rw [liftState_error hx] at h
    cases h
    exact ⟨s, rfl, rfl⟩

/-! ## Constants -/

def gWarmAccess : Word := 100
def gColdAccountAccess : Word := 3000
def gColdStorageAccess : Word := 2100
def gStorageWrite : Word := 10000
def gCallValue : Word := 11300
def gCallStipend : Word := 2300
def gAccountWrite : Word := 9000
def gCodeInitPerWord : Word := 2
def gCreateAccess : Word := 12000
def gMemoryPerWord : Word := 3
def gFastStep : Word := 5
def gRefundStorageClear : Word := 11616
def gKeccak256Base : Word := 30
def gKeccak256PerWord : Word := 6
def gCopyPerWord : Word := 3
def gLogBase : Word := 375
def gLogDataPerByte : Word := 8
def gLogTopic : Word := 375
def gExpBase : Word := 10
def gExpPerByte : Word := 50
def gSelfdestructBase : Word := 5000
def gBlockhash : Word := 20
def sgCostPerStateByte : Word := 1530
def sgStorageSet : Word := 97920
def sgNewAccount : Word := 183600
def sgAuthBase : Word := 35190
def stackDepthLimit : Nat := 1024
def maxCodeSize : Nat := 65536
def maxInitCodeSize : Word := 131072

/-! ## Gas -/

def checkGas (amount : Word) : EvmM Unit := do
  if (← getEv).gasLeft < amount then throwEvm .outOfGas

def chargeGas (amount : Word) : EvmM Unit := do
  if (← getEv).gasLeft < amount then throwEvm .outOfGas
  modifyEv fun e => { e with
    gasLeft := e.gasLeft - amount
    regularGasUsed := e.regularGasUsed + amount }

/-- State gas comes from the reservoir first; the rest spills into gas left. -/
def chargeStateGas (amount : Word) : EvmM Unit := do
  let e ← getEv
  if amount ≤ e.stateGasLeft then
    modifyEv fun e => { e with stateGasLeft := e.stateGasLeft - amount }
  else if amount ≤ addSat e.stateGasLeft e.gasLeft then
    let rem := amount - e.stateGasLeft
    modifyEv fun e => { e with
      stateGasLeft := 0
      gasLeft := e.gasLeft - rem
      stateGasSpilled := e.stateGasSpilled + rem }
  else throwEvm .outOfGas

/-- A frame after a state-gas credit: what spilled is repaid first. -/
def Frame.creditStateGasRefund (e : Frame) (amount : Word) : Frame :=
  let fromGl := minWord amount e.stateGasSpilled
  { e with
    gasLeft := e.gasLeft + fromGl
    stateGasSpilled := e.stateGasSpilled - fromGl
    stateGasLeft := e.stateGasLeft + (amount - fromGl) }

def creditStateGasRefund (amount : Word) : EvmM Unit :=
  modifyEv fun e => e.creditStateGasRefund amount

/-- The state gas a frame used, as a signed word. -/
def Frame.frameStateGasUsed (e : Frame) : Word :=
  e.msg.reservoir - e.stateGasLeft + e.stateGasSpilled

/-- A frame with its state gas given back. -/
def Frame.refillFrameStateGas (e : Frame) : Frame := { e with
  gasLeft := e.gasLeft + e.stateGasSpilled
  stateGasLeft := e.msg.reservoir
  stateGasSpilled := 0 }

def refillFrameStateGas : EvmM Unit := modifyEv Frame.refillFrameStateGas

/-! ## Stack -/

def stackPop : EvmM U256 := do
  match (← getEv).stack with
  | [] => throwEvm .stackUnderflow
  | v :: rest => do
    modifyEv fun e => { e with stack := rest }
    return v

def stackPush (v : U256) : EvmM Unit := do
  if stackDepthLimit ≤ (← getEv).stack.length then throwEvm .stackOverflow
  modifyEv fun e => { e with stack := v :: e.stack }

def stackPushWord (w : Word) : EvmM Unit := stackPush (u256FromWord w)

def stackPushBool (b : Bool) : EvmM Unit := stackPush (u256Bool b)

/-! ## Memory -/

/-- The length of a frame's memory. -/
def Frame.memLen (e : Frame) : Word := BitVec.ofNat 64 e.mem.length

def memoryGasCost (size : Word) : Word :=
  let w := wordsOf size
  let sq := mul64x64 w w
  if sq.2 ≠ 0 then wordMax else addSat (w * gMemoryPerWord) (sq.1 >>> 9)

/-- The cost of extending a memory of length `cur` to a range, and by how much it grows. -/
def extendMemoryCostAt (cur : Word) (start size : U256) : Word × Word :=
  if size = 0 then (0, 0)
  else
    let endp := addSat (satWord start) (satWord size)
    if endp = wordMax then (wordMax, 0)
    else
      let before := ceil32 cur
      let after := ceil32 endp
      if after ≤ before then (0, 0)
      else
        let ca := memoryGasCost after
        let cb := memoryGasCost before
        if ca = wordMax then (wordMax, 0) else (ca - cb, after - before)

def extendMemoryCost1 (start size : U256) : EvmM (Word × Word) := do
  return extendMemoryCostAt (← getEv).memLen start size

/-- Two extensions, the second measured against the size after the first. -/
def extendMemoryCost2 (s1 n1 s2 n2 : U256) : EvmM (Word × Word) := do
  let cur := (← getEv).memLen
  let a := extendMemoryCostAt cur s1 n1
  if a.1 = wordMax then return a
  let b := extendMemoryCostAt (cur + a.2) s2 n2
  if b.1 = wordMax then return b
  return (a.1 + b.1, a.2 + b.2)

/-- Grow the memory by zero bytes. -/
def extendMemory (expandBy : Word) : EvmM Unit :=
  modifyEv fun e => { e with mem := e.mem ++ List.replicate expandBy.toNat 0 }

/-- Charge for a memory extension on top of a base cost, then extend. -/
def chargeWithMemory (base : Word) (start size : U256) : EvmM Unit := do
  let x ← extendMemoryCost1 start size
  chargeGas (addSat base x.1)
  extendMemory x.2

/-- `size` bytes of a buffer from `start` on, padded with zeros. -/
def bufferRead (buf : Bytes) (start size : Word) : Bytes :=
  let avail := (buf.drop start.toNat).take size.toNat
  avail ++ List.replicate (size.toNat - avail.length) 0

/-- `n` bytes of the memory from `s` on. -/
def Frame.memRead (e : Frame) (s n : Word) : Bytes := (e.mem.drop s.toNat).take n.toNat

/-- Overwrite the memory from `s` on. -/
def memWrite (s : Word) (bs : Bytes) : EvmM Unit :=
  modifyEv fun e => { e with
    mem := e.mem.take s.toNat ++ bs ++ e.mem.drop (s.toNat + bs.length) }

/-! ## Jump destinations -/

/-- How far the scan moves at the opcode at `pc`, over the immediates it has. -/
def jumpdestAdv (code : Bytes) (pc : Nat) : Nat :=
  let op := (code.getD pc 0).toNat
  let next := code[pc + 1]?.map UInt8.toNat
  if op = 91 then 1
  else if 96 ≤ op ∧ op ≤ 127 then op - 96 + 2
  else if op = 230 ∨ op = 231 then
    match next with
    | some nx => if 91 ≤ nx ∧ nx ≤ 127 then 1 else 2
    | none => 2
  else if op = 232 then
    match next with
    | some nx => if 82 ≤ nx ∧ nx ≤ 127 then 1 else 2
    | none => 2
  else 1

/-- The scan for jump destinations; every round moves by at least one byte. -/
def jumpdestLoop (code : Bytes) : Nat → Nat → List Nat
  | 0, _ => []
  | fuel + 1, pc =>
    if pc < code.length then
      let rest := jumpdestLoop code fuel (pc + jumpdestAdv code pc)
      if (code.getD pc 0).toNat = 91 then pc :: rest else rest
    else []

def computeJumpdests (code : Bytes) : List Nat := jumpdestLoop code code.length 0

def Frame.isValidJumpdest (e : Frame) (dest : U256) : Bool :=
  u256FitsWord dest ∧ dest.toNat < e.code.length ∧ dest.toNat ∈ e.jumpdests

/-! ## Frames -/

/-- A fresh frame for a message; the counts are those of the shared accessed sets. -/
def frameNew (msg : Msg) (accAddrsN accKeysN : Nat) : Frame where
  pc := 0
  stack := []
  mem := []
  code := msg.code
  gasLeft := msg.gas
  stateGasLeft := msg.reservoir
  jumpdests := computeJumpdests msg.code
  logs := []
  refund := 0
  running := true
  msg := msg
  output := []
  delete := .empty
  retdata := []
  error := none
  regularGasUsed := 0
  stateGasSpilled := 0
  authStateGasUsed := 0
  accAddrsN := accAddrsN
  accKeysN := accKeysN
  slotWrites := []

def pcAdd (n : Word) : EvmM Unit := modifyEv fun e => { e with pc := e.pc + n }

def setRunning (b : Bool) : EvmM Unit := modifyEv fun e => { e with running := b }

def setOutput (bs : Bytes) : EvmM Unit := modifyEv fun e => { e with output := bs }

def setRetdata (bs : Bytes) : EvmM Unit := modifyEv fun e => { e with retdata := bs }

def logAppend (log : Log) : EvmM Unit := modifyEv fun e => { e with logs := e.logs ++ [log] }

def requireNotStatic : EvmM Unit := do
  if (← getEv).msg.isStatic then throwEvm .writeInStatic

/-! ## Accessed sets -/

def isWarmAddress (addr : Address) : EvmM Bool := do return (← get).accAddrs.has addr

def warmAddress (addr : Address) : EvmM Unit :=
  modify fun c => { c with accAddrs := c.accAddrs.set addr () }

/-- The access cost of an address; warming it is left to the caller, after the charge. -/
def accessGasCost (addr : Address) : EvmM Word := do
  if ← isWarmAddress addr then return gWarmAccess
  return gColdAccountAccess

def warmAfterCharge (addr : Address) (c : Word) : EvmM Unit := do
  if c = gColdAccountAccess then warmAddress addr

def isWarmStorageKey (addr : Address) (key : Hash) : EvmM Bool := do
  return (← get).accKeys.has (addr, key)

def warmStorageKey (addr : Address) (key : Hash) : EvmM Unit :=
  modify fun c => { c with accKeys := c.accKeys.set (addr, key) () }

end StatelessGuest
