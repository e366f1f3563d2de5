import StatelessGuest.Evm.Calls
import StatelessGuest.Lib.Loop

/-!
# The frame machine

One loop runs whichever frame is current. Starting a child suspends the current frame with its
continuation record and makes the child current; a frame that is finished gets its epilogue and
its continuation, and the frame below it is resumed.
-/

namespace StatelessGuest

open Lib

/-- Run a program and handle the errors a frame can end with. -/
def catchEvm {σ α : Type} (x : EStateM Exn σ α) (h : EvmErr → EStateM Exn σ α) :
    EStateM Exn σ α :=
  tryCatch x fun
    | .evm e => h e
    | e => throw e

/-- The continuation record of a frame. -/
structure Cont where
  kind : FrameKind
  snapshot : Nat
  done : Bool
  msg : Msg
  newAccountCharged : Bool
  outStart : Word
  outSize : Word
  contract : Address
  csnapshot : Nat
  deriving Inhabited

/-- The machine: the context with the current frame, its continuation record, and the suspended
frames with theirs, the innermost first. -/
structure Machine where
  ctx : Ctx
  cont : Cont
  suspended : List (Frame × Cont)
  deriving Inhabited

abbrev MachineM := EStateM Exn Machine

/-- Run a program of the current frame. -/
def liftCtx {α : Type} (x : EvmM α) : MachineM α := fun m =>
  match x m.ctx with
  | .ok a c => .ok a { m with ctx := c }
  | .error e c => .error e { m with ctx := c }

/-! ## Frames -/

def setEv (e : Frame) : EvmM Unit := modifyEv fun _ => e

/-- A fresh frame for a message, over the accessed sets as they are. -/
def frameFor (msg : Msg) : EvmM Frame := do
  let c ← get
  return frameNew msg c.accAddrs.count c.accKeys.count

/-- All gas consumed, error recorded. -/
def frameHalt (err : EvmErr) : EvmM Unit :=
  modifyEv fun e => { e with
    regularGasUsed := e.regularGasUsed + e.gasLeft
    gasLeft := 0
    error := some err }

/-- Finish the current frame with an error; a revert keeps the gas and the output. -/
def frameFail (err : EvmErr) : EvmM Unit := do
  refillFrameStateGas
  if err = .revert then
    modifyEv fun e => { e with error := some err }
  else
    frameHalt err
    setOutput []

section

variable [Keccak] [Crypto] (w : Witness)

/-- Transfer the value of a message. -/
def transferMsgValue (msg : Msg) : EvmM Unit := do
  if msg.transferValue ∧ msg.value ≠ 0 then
    liftState (moveEther w msg.caller msg.currentTarget msg.value)
    logTransfer msg.caller msg.currentTarget msg.value

/-- The part before the code: the value transfer and the precompiles. True when the frame is
complete, which it also is at a precompile's address that is disabled. -/
def framePrologue : EvmM Bool := do
  let msg := (← getEv).msg
  transferMsgValue w msg
  match msg.codeAddress with
  | none => return false
  | some ca =>
    let index := precompileIndex ca
    if index = 0 then return false
    if !msg.disablePrecompiles then runPrecompile index
    return true

/-- Revert the state of a frame that failed. -/
def frameEpilogue (snapshot : Nat) : EvmM Unit := do
  if (← getEv).error ≠ none then liftState (stateRestore snapshot)

/-- Before the frame of a creation: a snapshot, then the new account. -/
def openCreate (target : Address) : StateM Nat := do
  let snapshot ← stateSnapshot
  destroyStorage target
  markAccountCreated target
  incrementNonce w target
  return snapshot

/-- After the frame of a creation: store its code, or revert. -/
def closeCreate (msg : Msg) (csnapshot : Nat) : EvmM Unit := do
  if (← getEv).error = none then
    catchEvm (createFinish w msg) fun err => do
      liftState (stateRestore csnapshot)
      refillFrameStateGas
      frameHalt err
      setOutput []
  else liftState (stateRestore csnapshot)

/-- What the caller of a failed child does. -/
def childFailed (child : Frame) (charged : Bool) : EvmM Unit := do
  rollbackChildAccess child
  incorporateChildOnError child
  creditNewAccount charged
  setRetdata child.output
  stackPush 0

/-- Copy the output of a child to the range its caller named. -/
def copyOutput (child : Frame) (outStart outSize : Word) : EvmM Unit := do
  let actual := minWord outSize (lenWord child.output)
  let e ← getEv
  if actual ≠ 0 then memWrite outStart (e.retdata.take actual.toNat)

/-- The tail of `generic_call`. -/
def genericCallTail (child : Frame) (charged : Bool) (outStart outSize : Word) : EvmM Unit := do
  if child.error ≠ none then
    childFailed child charged
    copyOutput child outStart outSize
  else
    incorporateChildOnSuccess child
    setRetdata child.output
    stackPush 1
    copyOutput child outStart outSize

/-- The tail of `generic_create`. -/
def genericCreateTail (child : Frame) (charged : Bool) (contract : Address) : EvmM Unit := do
  if child.error ≠ none then
    childFailed child charged
  else
    incorporateChildOnSuccess child
    setRetdata []
    stackPush (addressToU256 contract)

/-! ## Suspending and resuming -/

/-- Suspend the current frame and make a fresh one for a message current. -/
def frameOpen (msg : Msg) (kind : FrameKind) : MachineM Unit := do
  let child ← liftCtx (frameFor msg)
  modify fun m => {
    ctx := { m.ctx with ev := child }
    cont := { (default : Cont) with kind := kind, msg := msg }
    suspended := (m.ctx.ev, m.cont) :: m.suspended }

/-- Make the frame below current again; yields the frame that was. -/
def frameClose : MachineM Frame := do
  let m ← get
  match m.suspended with
  | [] => return m.ctx.ev
  | (parent, cont) :: rest => do
    set ({ ctx := { m.ctx with ev := parent }, cont := cont, suspended := rest } : Machine)
    return m.ctx.ev

/-- The exception handler of a frame, which is thereby finished. -/
def frameException (err : EvmErr) : MachineM Unit := do
  liftCtx (frameFail err)
  modify fun m => { m with cont := { m.cont with done := true } }

/-- Mark the current frame as finished. -/
def setDone : MachineM Unit := modify fun m => { m with cont := { m.cont with done := true } }

/-- Run the prologue under the frame's exception handler. -/
def frameStart : MachineM Unit := do
  let done ← catchEvm (liftCtx (framePrologue w)) fun err => do
    frameException err
    return false
  if done then setDone

/-- Close the frame of a child that is finished, a creation with its code. -/
def Cont.close (r : Cont) : EvmM Unit :=
  if r.kind = .create then closeCreate w r.msg r.csnapshot else return ()

/-- The caller's share of a child that is finished. -/
def Cont.tail (r : Cont) (child : Frame) : EvmM Unit :=
  if r.kind = .create then genericCreateTail child r.newAccountCharged r.contract
  else genericCallTail child r.newAccountCharged r.outStart r.outSize

/-- The end of a child, then its caller's next instruction. -/
def finishChild : MachineM Unit := do
  let r := (← get).cont
  liftCtx (r.close w)
  let child ← frameClose
  liftCtx (r.tail child)
  liftCtx (pcAdd 1)

/-- Snapshot the state and record the snapshot. -/
def recordSnapshot : MachineM Unit := do
  let snapshot ← liftCtx (liftState stateSnapshot)
  modify fun m => { m with cont := { m.cont with snapshot := snapshot } }

/-- The snapshot `process_create_message` takes; calls have none. -/
def openChild (req : ChildReq) : EvmM Nat := do
  if req.kind = .create then liftState (openCreate w req.msg.currentTarget) else return 0

/-- Start a child frame. -/
def startChild (req : ChildReq) : MachineM Unit := do
  let csnapshot ← liftCtx (openChild w req)
  if stackDepthLimit < req.msg.depth then throw (.evm .stackDepthLimit)
  frameOpen req.msg req.kind
  recordSnapshot
  modify fun m => { m with
    cont := { m.cont with
      csnapshot := csnapshot
      newAccountCharged := req.newAccountCharged
      outStart := req.outStart
      outSize := req.outSize
      contract := req.contract } }
  frameStart w

/-! ## The loop -/

/-- The opcode a frame is at, when it has one to run. -/
def Frame.opcode? (e : Frame) : Option Nat :=
  if e.running then e.code[e.pc.toNat]?.map UInt8.toNat else none

/-- One instruction of the current frame. -/
def runOp (op : Nat) : MachineM Unit := do
  match ← liftCtx (opDispatch w op) with
  | none => return ()
  | some req => startChild w req

/-- One round: an instruction of the current frame, or its end. Yields the frame of the
transaction once that is finished. -/
def frameRound : MachineM (Option Frame) := do
  let m ← get
  match if m.cont.done then none else m.ctx.ev.opcode? with
  | some op => do
    catchEvm (runOp w op) frameException
    return none
  | none => do
    liftCtx (frameEpilogue m.cont.snapshot)
    if m.cont.kind = .transaction then
      return some (← frameClose)
    else
      catchEvm (finishChild w) frameException
      return none

def runFrames (fuel : Nat) : MachineM Frame := loop .outOfFuel (frameRound w) fuel

/-! ## Messages of a transaction -/

/-- What the authorizations cost becomes the frame's base line. -/
def rebaseReservoir : EvmM Unit :=
  modifyEv fun e => { e with
    authStateGasUsed := e.frameStateGasUsed
    msg := { e.msg with reservoir := e.stateGasLeft }
    stateGasSpilled := 0 }

def depth0Prepare : EvmM Unit := do
  if (← getEv).msg.te.auths ≠ [] then
    setDelegation w
    rebaseReservoir
  prepareDispatch w

/-- A preparation that failed: nothing it did stays, and the gas is consumed. -/
def abortPrepare (snapshot : Nat) (reservoir : Word) (err : EvmErr) : EvmM Unit := do
  liftState (stateRestore snapshot)
  modifyEv fun e => { e with
    msg := { e.msg with reservoir := reservoir }
    authStateGasUsed := 0 }
  refillFrameStateGas
  frameHalt err

/-- Prepare the frame of a transaction; false when that failed. -/
def prepareFrame (reservoir : Word) : MachineM Bool := do
  let snapshot ← liftCtx (liftState stateSnapshot)
  catchEvm (do liftCtx (depth0Prepare w); return true) fun err => do
    if err = .revert then
      let _ ← frameClose
      throw (.evm err)
    else
      liftCtx (abortPrepare snapshot reservoir err)
      return false

/-- Only the frame of a transaction is prepared. -/
def prepareMessage (msg : Msg) : MachineM Bool :=
  if msg.depth = 0 then prepareFrame w msg.reservoir else return true

/-- Run the current frame, which is prepared, and everything it calls. -/
def driveFrame (fuel : Nat) : MachineM Frame := do
  recordSnapshot
  frameStart w
  runFrames w fuel

def processMessage (fuel : Nat) (msg : Msg) : MachineM Frame := do
  if stackDepthLimit < msg.depth then throw (.evm .stackDepthLimit)
  frameOpen msg .transaction
  if ← prepareMessage w msg then driveFrame w fuel else frameClose

/-- Close a creation whose frame is no longer current. -/
def closeCreateOf (msg : Msg) (csnapshot : Nat) (child : Frame) : EvmM Frame := do
  let parent ← getEv
  setEv child
  closeCreate w msg csnapshot
  let child ← getEv
  setEv parent
  return child

def processCreateMessage (fuel : Nat) (msg : Msg) : MachineM Frame := do
  let snapshot ← liftCtx (liftState (openCreate w msg.currentTarget))
  let child ← processMessage w fuel msg
  liftCtx (closeCreateOf w msg snapshot child)

/-- The result of a message call; `stateGasUsed` is read as a signed word. -/
structure MessageCallOutput where
  gasLeft : Word
  refund : Word
  logs : List Log
  delete : OrdMap Address Unit
  error : Option EvmErr
  retdata : Bytes
  stateGasLeft : Word
  regularGasUsed : Word
  stateGasUsed : Word
  deriving Inhabited

/-- The result of a creation at an address in use. -/
def collisionOutput (msg : Msg) : MessageCallOutput :=
  { (default : MessageCallOutput) with
    error := some .addressCollision
    delete := .empty
    stateGasLeft := msg.reservoir
    regularGasUsed := msg.gas }

/-- The result a frame leaves; a frame that failed has no logs, deletions and refund. -/
def frameOutput (frame : Frame) : MessageCallOutput where
  gasLeft := frame.gasLeft
  refund := if frame.error = none ∧ ¬ frame.refund.slt 0 then frame.refund else 0
  logs := if frame.error = none then frame.logs else []
  delete := if frame.error = none then frame.delete else .empty
  error := frame.error
  retdata := frame.output
  stateGasLeft := frame.stateGasLeft
  regularGasUsed := frame.regularGasUsed
  stateGasUsed := frame.frameStateGasUsed + frame.authStateGasUsed

def processMessageCall (fuel : Nat) (msg : Msg) : MachineM MessageCallOutput := do
  if msg.target = none then
    if ← liftCtx (liftState (accountDeployable w msg.currentTarget)) then
      return frameOutput (← processCreateMessage w fuel msg)
    else return collisionOutput msg
  else return frameOutput (← processMessage w fuel msg)

end

end StatelessGuest
