import StatelessGuest.Evm.Memory
import StatelessGuest.Evm.Calls

/-!
# Memory instructions over unbounded integers

What the instructions on the memory are meant to do: the charge is a natural number, the memory
grows to the length its ranges need, and an access outside of the memory stops everything. What
does not concern the memory is as in the guest.

* `chargeRanges`: the charge for some ranges of the memory.
* `readRange`, `writeRange`: accesses, checked against the memory.
* `MemOp`: the instructions, with their opcodes and their programs.
-/

namespace StatelessGuest

open Lib

namespace Ideal

variable [Stray]

/-! ## Primitives -/

/-- Charge `own` gas and what the ranges cost; the length of the memory that covers them. -/
def chargeRanges (own : Nat) (rs : List MemRange) : EvmM Nat := do
  let e ← getEv
  let total := own + extensionCost e.mem.length rs
  if e.gasLeft.toNat < total then throwEvm .outOfGas
  else
    modifyEv fun e => { e with
      gasLeft := BitVec.ofNat 64 (e.gasLeft.toNat - total)
      regularGasUsed := e.regularGasUsed + BitVec.ofNat 64 total }
    return coverLen e.mem.length rs

/-- Grow the memory with zeros to a length. -/
def growTo (len : Nat) : EvmM Unit :=
  modifyEv fun e => { e with mem := e.mem ++ List.replicate (len - e.mem.length) 0 }

/-- A range that is not empty has to lie in the memory. -/
def checkRange (r : MemRange) : EvmM Unit := do
  let e ← getEv
  if r.size ≠ 0 ∧ e.mem.length < r.start.toNat + r.size.toNat then throw Stray.exn

def readRange (r : MemRange) : EvmM Bytes := do
  checkRange r
  let e ← getEv
  return (e.mem.drop r.start.toNat).take r.size.toNat

/-- Overwrite a range; an empty one is left alone. -/
def writeRange (r : MemRange) (bs : Bytes) : EvmM Unit := do
  checkRange r
  if r.size = 0 then return ()
  else modifyEv fun e => { e with
    mem := e.mem.take r.start.toNat ++ bs ++ e.mem.drop (r.start.toNat + bs.length) }

/-- The number of words of a range of `n` bytes. -/
def words (n : U256) : Nat := (n.toNat + 31) / 32

/-! ## Instructions inside a frame -/

def opKeccak [Keccak] : EvmM Unit := do
  let start ← stackPop
  let size ← stackPop
  let len ← chargeRanges (30 + 6 * words size) [⟨start, size⟩]
  growTo len
  let data ← readRange ⟨start, size⟩
  stackPush (keccak256 data)
  pcAdd 1

def opMstore : EvmM Unit := do
  let start ← stackPop
  let value ← stackPop
  let len ← chargeRanges 3 [⟨start, 32⟩]
  growTo len
  writeRange ⟨start, 32⟩ (u256ToBe32 value)
  pcAdd 1

def opMstore8 : EvmM Unit := do
  let start ← stackPop
  let value ← stackPop
  let len ← chargeRanges 3 [⟨start, 1⟩]
  growTo len
  writeRange ⟨start, 1⟩ [UInt8.ofNat (value.toNat % 256)]
  pcAdd 1

def opMload : EvmM Unit := do
  let start ← stackPop
  let len ← chargeRanges 3 [⟨start, 32⟩]
  growTo len
  let data ← readRange ⟨start, 32⟩
  stackPush (u256FromBe data)
  pcAdd 1

def opMcopy : EvmM Unit := do
  let dst ← stackPop
  let src ← stackPop
  let n ← stackPop
  let len ← chargeRanges (3 + 3 * words n) [⟨src, n⟩, ⟨dst, n⟩]
  growTo len
  let data ← readRange ⟨src, n⟩
  writeRange ⟨dst, n⟩ data
  pcAdd 1

def opLog (ntopics : Nat) : EvmM Unit := do
  let start ← stackPop
  let size ← stackPop
  if (← getEv).stack.length < ntopics then throwEvm .stackUnderflow
  let len ← chargeRanges (375 + 375 * ntopics + 8 * size.toNat) [⟨start, size⟩]
  let topics ← popTopics ntopics
  growTo len
  requireNotStatic
  let data ← readRange ⟨start, size⟩
  let e ← getEv
  logAppend ⟨e.msg.currentTarget, topics, data⟩
  pcAdd 1

def popOutput : EvmM Bytes := do
  let start ← stackPop
  let size ← stackPop
  let len ← chargeRanges 0 [⟨start, size⟩]
  growTo len
  readRange ⟨start, size⟩

def opReturn : EvmM Unit := do
  setOutput (← popOutput)
  setRunning false

def opRevert : EvmM Unit := do
  setOutput (← popOutput)
  throwEvm .revert

/-- Copy from a buffer to the memory. -/
def copyFromBuffer (buf : Bytes) : EvmM Unit := do
  let mstart ← stackPop
  let dstart ← stackPop
  let size ← stackPop
  let len ← chargeRanges (3 + 3 * words size) [⟨mstart, size⟩]
  growTo len
  writeRange ⟨mstart, size⟩ (bufferRead buf (satWord dstart) (satWord size))
  pcAdd 1

def opCalldatacopy : EvmM Unit := do copyFromBuffer (← getEv).msg.data

def opCodecopy : EvmM Unit := do copyFromBuffer (← getEv).code

def opReturndatacopy : EvmM Unit := do
  let mstart ← stackPop
  let rstart ← stackPop
  let size ← stackPop
  let len ← chargeRanges (3 + 3 * words size) [⟨mstart, size⟩]
  let retdata := (← getEv).retdata
  if BitVec.ofNat 64 retdata.length < addSat (satWord rstart) (satWord size) then
    throwEvm .outOfBoundsRead
  growTo len
  writeRange ⟨mstart, size⟩ (bufferRead retdata (satWord rstart) (satWord size))
  pcAdd 1

section

variable [Keccak] (w : Witness)

def opExtcodecopy : EvmM Unit := do
  let av ← stackPop
  let addr := toAddressMasked av
  let mstart ← stackPop
  let cstart ← stackPop
  let size ← stackPop
  let acc ← accessGasCost addr
  let len ← chargeRanges (acc.toNat + 100 + 3 * words size) [⟨mstart, size⟩]
  warmAfterCharge addr acc
  growTo len
  let code ← liftState (extCodeOf w addr)
  writeRange ⟨mstart, size⟩ (bufferRead code (satWord cstart) (satWord size))
  pcAdd 1

/-! ## Creations and calls -/

def opCreate : EvmM (Option ChildReq) := do
  requireNotStatic
  let endowment ← stackPop
  let mstart ← stackPop
  let msize ← stackPop
  let len ← chargeRanges (12000 + 2 * words msize) [⟨mstart, msize⟩]
  growTo len
  let target := (← getEv).msg.currentTarget
  let a ← liftState (loadAccount w target)
  checkRange ⟨mstart, msize⟩
  let started ← genericCreate w endowment (computeContractAddress target a.nonce)
    (satWord mstart) (satWord msize)
  pcAddIfDone started

def opCreate2 : EvmM (Option ChildReq) := do
  requireNotStatic
  let endowment ← stackPop
  let mstart ← stackPop
  let msize ← stackPop
  let salt ← stackPop
  let len ← chargeRanges (12000 + 6 * words msize + 2 * words msize) [⟨mstart, msize⟩]
  growTo len
  let code ← readRange ⟨mstart, msize⟩
  let e ← getEv
  let started ← genericCreate w endowment
    (computeCreate2ContractAddress e.msg.currentTarget salt code) (satWord mstart) (satWord msize)
  pcAddIfDone started

/-- The ranges of a call: its input, then its output. -/
def callRanges (r : CallRanges) : List MemRange := [⟨r.inStart, r.inSize⟩, ⟨r.outStart, r.outSize⟩]

/-- What a call runs, and the length of the memory that covers its ranges. -/
structure Callee where
  len : Nat
  delegates : Bool
  codeAddress : Address
  code : Bytes

/-- Charge for the memory ranges, the access to the callee and its delegation. -/
def accessCallee (addr : Address) (value : U256) (r : CallRanges) : EvmM Callee := do
  let warm ← isWarmAddress addr
  let len ← chargeRanges ((if warm then 100 else 3000) + if value = 0 then 0 else 11300)
    (callRanges r)
  warmUnless warm addr
  let dl ← calculateDelegationCost w addr
  accessDelegate dl.1 dl.2.1 dl.2.2
  let code ← liftState (extCodeOf w dl.2.1)
  return ⟨len, dl.1, dl.2.1, code⟩

/-- Split off the gas and the state gas of the child, and grow the memory. -/
def splitCallGas (value gas : U256) (len : Nat) : EvmM (Word × Word) := do
  let mcg := calculateMessageCallGas value (satWord gas) (← getEv).gasLeft 0 0
  chargeGas mcg.1
  modifyEv fun e => { e with regularGasUsed := e.regularGasUsed - mcg.2 }
  growTo len
  let reservoir ← takeReservoir
  return (mcg.2, reservoir)

/-- Start the child, whose input and output ranges have to lie in the memory. -/
def genericCall (gas reservoir : Word) (value : U256) (caller dst codeAddress : Address)
    (transfer isStatic : Bool) (r : CallRanges) (code : Bytes)
    (disablePre charged : Bool) : EvmM (Option ChildReq) := do
  checkRange ⟨r.inStart, r.inSize⟩
  checkRange ⟨r.outStart, r.outSize⟩
  StatelessGuest.genericCall gas reservoir value caller dst codeAddress transfer isStatic r code
    disablePre charged

def opCall : EvmM (Option ChildReq) := do
  let gas ← stackPop
  let tov ← stackPop
  let dst := toAddressMasked tov
  let value ← stackPop
  let r ← popRanges
  let msg := (← getEv).msg
  if msg.isStatic ∧ value ≠ 0 then throwEvm .writeInStatic
  let callee ← accessCallee w dst value r
  let charged ← chargeIfDead w dst value
  let g ← splitCallGas value gas callee.len
  let sender ← liftState (loadAccount w msg.currentTarget)
  let started ←
    if sender.balance < value then callUnpaid g.1 g.2 charged
    else
      genericCall g.1 g.2 value msg.currentTarget dst callee.codeAddress true false r
        callee.code callee.delegates charged
  pcAddIfDone started

def opCallcode : EvmM (Option ChildReq) := do
  let gas ← stackPop
  let cav ← stackPop
  let value ← stackPop
  let r ← popRanges
  let self := (← getEv).msg.currentTarget
  let callee ← accessCallee w (toAddressMasked cav) value r
  let g ← splitCallGas value gas callee.len
  let sender ← liftState (loadAccount w self)
  let started ←
    if sender.balance < value then callUnpaid g.1 g.2 false
    else
      genericCall g.1 g.2 value self self callee.codeAddress true false r callee.code
        callee.delegates false
  pcAddIfDone started

def opDelegatecall : EvmM (Option ChildReq) := do
  let gas ← stackPop
  let cav ← stackPop
  let r ← popRanges
  let msg := (← getEv).msg
  let callee ← accessCallee w (toAddressMasked cav) 0 r
  let g ← splitCallGas 0 gas callee.len
  let started ← genericCall g.1 g.2 msg.value msg.caller msg.currentTarget callee.codeAddress
    false false r callee.code callee.delegates false
  pcAddIfDone started

def opStaticcall : EvmM (Option ChildReq) := do
  let gas ← stackPop
  let tov ← stackPop
  let dst := toAddressMasked tov
  let r ← popRanges
  let msg := (← getEv).msg
  let callee ← accessCallee w dst 0 r
  let g ← splitCallGas 0 gas callee.len
  let started ← genericCall g.1 g.2 0 msg.currentTarget dst callee.codeAddress true true r
    callee.code callee.delegates false
  pcAddIfDone started

end

end Ideal

/-! ## The instructions -/

/-- The instructions that use the memory. -/
inductive MemOp where
  | keccak
  | calldatacopy
  | codecopy
  | extcodecopy
  | returndatacopy
  | mload
  | mstore
  | mstore8
  | mcopy
  | log (ntopics : Fin 5)
  | create
  | call
  | callcode
  | ret
  | delegatecall
  | create2
  | staticcall
  | revert

namespace MemOp

def opcode : MemOp → Nat
  | keccak => 32
  | calldatacopy => 55
  | codecopy => 57
  | extcodecopy => 60
  | returndatacopy => 62
  | mload => 81
  | mstore => 82
  | mstore8 => 83
  | mcopy => 94
  | log ntopics => 160 + ntopics
  | create => 240
  | call => 241
  | callcode => 242
  | ret => 243
  | delegatecall => 244
  | create2 => 245
  | staticcall => 250
  | revert => 253

/-- What the instruction is meant to do. -/
def ideal [Keccak] [Stray] (w : Witness) : MemOp → EvmM (Option ChildReq)
  | keccak => plain Ideal.opKeccak
  | calldatacopy => plain Ideal.opCalldatacopy
  | codecopy => plain Ideal.opCodecopy
  | extcodecopy => plain (Ideal.opExtcodecopy w)
  | returndatacopy => plain Ideal.opReturndatacopy
  | mload => plain Ideal.opMload
  | mstore => plain Ideal.opMstore
  | mstore8 => plain Ideal.opMstore8
  | mcopy => plain Ideal.opMcopy
  | log ntopics => plain (Ideal.opLog ntopics)
  | create => Ideal.opCreate w
  | call => Ideal.opCall w
  | callcode => Ideal.opCallcode w
  | ret => plain Ideal.opReturn
  | delegatecall => Ideal.opDelegatecall w
  | create2 => Ideal.opCreate2 w
  | staticcall => Ideal.opStaticcall w
  | revert => plain Ideal.opRevert

end MemOp

end StatelessGuest
