import StatelessGuest.Evm.Machine

/-!
# The recursive interpreter

The interpreter the frame machine replaced: a call runs the whole message of its child, then
its own tail, and advances the program counter once. `run` stands for the execution of a
frame's code, and `executeCode` closes the recursion with a bound on its depth and length.
-/

namespace StatelessGuest

open Lib

section

variable [Keccak] [Crypto] (w : Witness)

/-- The value transfer, then the precompile or the code. -/
def executeBody (run : EvmM Unit) : EvmM Unit := do
  if !(← framePrologue w) then run

/-- The body of the current frame under its exception handler, reverted if it failed. -/
def guardedBody (run : EvmM Unit) : EvmM Unit := do
  let snapshot ← liftState stateSnapshot
  catchEvm (executeBody w run) frameFail
  frameEpilogue snapshot

/-- Prepare the frame of a transaction; false when that failed. -/
def recPrepareFrame (parent : Frame) (reservoir : Word) : EvmM Bool := do
  let snapshot ← liftState stateSnapshot
  catchEvm (do depth0Prepare w; return true) fun err => do
    if err = .revert then
      setEv parent
      throwEvm err
    else
      abortPrepare snapshot reservoir err
      return false

/-- Only the frame of a transaction is prepared. -/
def recPrepareMessage (parent : Frame) (msg : Msg) : EvmM Bool :=
  if msg.depth = 0 then recPrepareFrame w parent msg.reservoir else return true

/-- The body of a frame that is prepared. -/
def preparedBody (run : EvmM Unit) (prepared : Bool) : EvmM Unit :=
  if prepared then guardedBody w run else return ()

def recProcessMessage (run : EvmM Unit) (msg : Msg) : EvmM Frame := do
  if stackDepthLimit < msg.depth then throwEvm .stackDepthLimit
  let parent ← getEv
  setEv (← frameFor msg)
  let prepared ← recPrepareMessage w parent msg
  preparedBody w run prepared
  let child ← getEv
  setEv parent
  return child

def recProcessCreateMessage (run : EvmM Unit) (msg : Msg) : EvmM Frame := do
  let snapshot ← liftState (openCreate w msg.currentTarget)
  let child ← recProcessMessage w run msg
  closeCreateOf w msg snapshot child

/-- Run the message of a child. -/
def childMessageRun (run : EvmM Unit) (req : ChildReq) : EvmM Frame :=
  if req.kind = .create then recProcessCreateMessage w run req.msg
  else recProcessMessage w run req.msg

/-- The tail of the instruction that called a child. -/
def childTail (req : ChildReq) (child : Frame) : EvmM Unit :=
  if req.kind = .create then genericCreateTail child req.newAccountCharged req.contract
  else genericCallTail child req.newAccountCharged req.outStart req.outSize

/-- Run a child to completion, then the tail of the instruction that called it. -/
def runChild (run : EvmM Unit) (req : ChildReq) : EvmM Unit := do
  let child ← childMessageRun w run req
  childTail req child
  pcAdd 1

/-- One instruction with everything it calls. -/
def executeOp (run : EvmM Unit) (op : Nat) : EvmM Unit := do
  match ← opDispatch w op with
  | none => return ()
  | some req => runChild w run req

/-- Run the code of the current frame. -/
def executeCode : Nat → EvmM Unit
  | 0 => throw .outOfFuel
  | fuel + 1 => do
    match (← getEv).opcode? with
    | none => return ()
    | some op => do
      executeOp w (executeCode fuel) op
      executeCode fuel

def recProcessMessageCall (fuel : Nat) (msg : Msg) : EvmM MessageCallOutput := do
  if msg.target = none then
    if ← liftState (accountDeployable w msg.currentTarget) then
      return frameOutput (← recProcessCreateMessage w (executeCode w fuel) msg)
    else return collisionOutput msg
  else return frameOutput (← recProcessMessage w (executeCode w fuel) msg)

end

end StatelessGuest
