import StatelessGuest.Evm.Instructions
import StatelessGuest.Evm.Precompiles
import StatelessGuest.Rlp.Encode

/-!
# System instructions

RETURN, REVERT and SELFDESTRUCT, the delegation of accounts, and the calls and creations up
to the point where a child frame starts: an instruction that starts one yields the request
for it, as the last thing it does.
-/

namespace StatelessGuest

open Lib

/-! ## Transfer logs -/

/-- The address with the low 20 bytes of a hash. -/
def addrOfHash (h : Hash) : Address := h.setWidth 160

def vmSystemAddress : Address := 0xfffffffffffffffffffffffffffffffffffffffe

/-- The bytes of `Transfer(address,address,uint256)`. -/
def transferSignature : Bytes :=
  [84, 114, 97, 110, 115, 102, 101, 114, 40, 97, 100, 100, 114, 101, 115, 115, 44, 97, 100, 100,
    114, 101, 115, 115, 44, 117, 105, 110, 116, 50, 53, 54, 41]

def emitTransferLog [Keccak] (sender recipient : Address) (amount : U256) : EvmM Unit := do
  if amount ≠ 0 then
    logAppend ⟨vmSystemAddress,
      [keccak256 transferSignature, addressToU256 sender, addressToU256 recipient],
      u256ToBe32 amount⟩

/-! ## Halting instructions -/

/-- Pop a range of the memory and pay for it; its bytes. -/
def popOutput : EvmM Bytes := do
  let start ← stackPop
  let size ← stackPop
  let x ← extendMemoryCost1 start size
  chargeGas x.1
  extendMemory x.2
  return (← getEv).memRead (satWord start) (satWord size)

def opReturn : EvmM Unit := do
  setOutput (← popOutput)
  setRunning false

def opRevert : EvmM Unit := do
  setOutput (← popOutput)
  throwEvm .revert

def deleteAppend (addr : Address) : EvmM Unit :=
  modifyEv fun e => { e with delete := e.delete.set addr () }

/-- Mark an account for deletion if the transaction created it. -/
def deleteIfCreated (addr : Address) : EvmM Unit := do
  if (← get).tk.ts.created.has addr then deleteAppend addr

/-- Warm an address that was cold. -/
def warmUnless (warm : Bool) (addr : Address) : EvmM Unit :=
  if warm then return () else warmAddress addr

/-- Log a transfer unless it is to its sender. -/
def logTransfer [Keccak] (sender recipient : Address) (amount : U256) : EvmM Unit :=
  if sender = recipient then return () else emitTransferLog sender recipient amount

section

variable [Keccak] (w : Witness)

def opSelfdestruct : EvmM Unit := do
  requireNotStatic
  let bv ← stackPop
  let beneficiary := toAddressMasked bv
  let warm ← isWarmAddress beneficiary
  chargeGas (if warm then gSelfdestructBase else gSelfdestructBase + gColdAccountAccess)
  warmUnless warm beneficiary
  let originator := (← getEv).msg.currentTarget
  let alive ← liftState (isAccountAlive w beneficiary)
  let oa ← liftState (loadAccount w originator)
  let creates : Bool := !alive ∧ oa.balance ≠ 0
  chargeGas (if creates then gAccountWrite else 0)
  chargeStateGas (if creates then sgNewAccount else 0)
  let oa ← liftState (loadAccount w originator)
  liftState (moveEther w originator beneficiary oa.balance)
  logTransfer originator beneficiary oa.balance
  deleteIfCreated originator
  setRunning false

/-! ## Delegation -/

/-- The code is a delegation: `0xef0100` and an address. -/
def isValidDelegation (code : Bytes) : Bool :=
  code.length = 23 ∧ code.take 3 = [239, 1, 0]

/-- The address a delegation names. -/
def delegatedAddress (code : Bytes) : Address := BitVec.ofNat 160 (beNat (code.drop 3))

def getDelegatedCodeAddress (code : Bytes) : Option Address :=
  if isValidDelegation code then some (delegatedAddress code) else none

def secp256k1N : U256 := 0xfffffffffffffffffffffffffffffffebaaedce6af48a03bbfd25e8cd0364141

def secp256k1NHalf : U256 := 0x7fffffffffffffffffffffffffffffff5d576e7357a4501ddfe92f46681b20a0

/-- The signer of an authorization. -/
def recoverAuthority [Crypto] (auth : Auth) : Option Address :=
  if auth.yParity ≠ 0 ∧ auth.yParity ≠ 1 then none
  else if auth.r = 0 ∨ ¬ auth.r < secp256k1N then none
  else if auth.s = 0 ∨ secp256k1NHalf < auth.s then none
  else
    let payload := rlpPutU256 auth.chainId ++ rlpEncodeBytes (addrBytes auth.addr)
      ++ rlpEncodeWord auth.nonce.toNat
    let h := keccak256 (5 :: rlpEncodeList payload)
    (Crypto.secp256k1Recover h auth.r auth.s auth.yParity).map fun pt => addrOfHash (keccak256 pt)

/-- Where the code of an account is: whether it delegates, the address and the access cost. -/
def calculateDelegationCost (addr : Address) : EvmM (Bool × Address × Word) := do
  let code ← liftState (extCodeOf w addr)
  if isValidDelegation code then
    let da := delegatedAddress code
    if ← isWarmAddress da then return (true, da, gWarmAccess)
    return (true, da, gColdAccountAccess)
  return (false, addr, 0)

def validateAuthorizationChecks (auth : Auth) (authority : Address) : StateM Bool := do
  let a ← loadAccount w authority
  let code ← getCode w a.codeHash authority
  if code ≠ [] ∧ !isValidDelegation code then return false
  return a.nonce = auth.nonce

/-- The accounts a delegation round has paid the write of, and those it has delegated. -/
structure Delegating where
  written : OrdMap Address Unit
  setFor : OrdMap Address Unit

/-- The chain and nonce checks on an authorization. -/
def Auth.eligible (auth : Auth) (chainId : Word) : Bool :=
  (auth.chainId = 0 ∨ auth.chainId = u256FromWord chainId) ∧ auth.nonce < wordMax

/-- The account an authorization is for, when it is valid; it is warmed once recovered. -/
def authorityOf [Crypto] (auth : Auth) : EvmM (Option Address) := do
  if !auth.eligible (← getEv).msg.be.chainId then return none
  match recoverAuthority auth with
  | none => return none
  | some rec => do
    warmAddress rec
    if ← liftState (validateAuthorizationChecks w auth rec) then return some rec
    return none

/-- The code of an account of the block state is a delegation. -/
def delegatedBefore (authority : Address) : StateM Bool := do
  let pre ← ldAcct (← getPreStateAccount w authority)
  return isValidDelegation (← getCode w pre.codeHash authority)

/-- The code that delegates to an address. -/
def delegationCode (addr : Address) : Bytes := [239, 1, 0] ++ addrBytes addr

/-- The state gas of a first delegation. -/
def authBaseGas (before again : Bool) : Word := if !before ∧ !again then sgAuthBase else 0

/-- Write the delegation of an account, or clear it. -/
def writeDelegation (d : Delegating) (auth : Auth) (authority : Address) (before : Bool) :
    EvmM Delegating := do
  if auth.addr = 0 then
    liftState (setCode w authority [])
    return d
  else
    chargeStateGas (authBaseGas before (d.setFor.has authority))
    liftState (setCode w authority (delegationCode auth.addr))
    return { d with setFor := d.setFor.set authority () }

/-- Charge the write of an account once. -/
def chargeAccountWrite (d : Delegating) (authority : Address) : EvmM Delegating := do
  if d.written.has authority then return d
  chargeGas gAccountWrite
  return { d with written := d.written.set authority () }

/-- Charge for an authorization and apply it. -/
def applyAuthorization (d : Delegating) (auth : Auth) (authority : Address) :
    EvmM Delegating := do
  let ex ← liftState (accountExists w authority)
  chargeStateGas (if ex then 0 else sgNewAccount)
  let d ← chargeAccountWrite d authority
  let before ← liftState (delegatedBefore w authority)
  let d ← writeDelegation w d auth authority before
  liftState (incrementNonce w authority)
  return d

def setDelegationLoop [Crypto] : List Auth → Delegating → EvmM Unit
  | [], _ => return ()
  | auth :: rest, d => do
    match ← authorityOf w auth with
    | none => setDelegationLoop rest d
    | some authority => do
      let d ← applyAuthorization w d auth authority
      setDelegationLoop rest d

def setDelegation [Crypto] : EvmM Unit := do
  let msg := (← getEv).msg
  let origin : OrdMap Address Unit := OrdMap.empty.set msg.te.origin ()
  let written := if msg.te.value = 0 then origin else origin.set msg.currentTarget ()
  setDelegationLoop w msg.te.auths ⟨written, .empty⟩

/-- The account of the transaction's new contract is empty before the transaction. -/
def preStateIsEmpty (addr : Address) : StateM Bool := do
  return acctIsEmpty (← ldAcct (← getPreStateAccount w addr))

/-- Follow a delegation, at the access cost of the account it names. -/
def followDelegation (code : Bytes) : EvmM Bytes := do
  match getDelegatedCodeAddress code with
  | none => return code
  | some da => do
    chargeAccountAccess da 0
    let dcode ← liftState (extCodeOf w da)
    modifyEv fun e => { e with
      msg := { e.msg with disablePrecompiles := true, codeAddress := some da } }
    return dcode

/-- Give the frame the code it runs. -/
def setFrameCode (code : Bytes) : EvmM Unit :=
  modifyEv fun e => { e with
    msg := { e.msg with code := code }
    code := code
    jumpdests := computeJumpdests code }

/-- The state gas of a value transfer to a dead account. -/
def chargeIfDead (addr : Address) (value : U256) : EvmM Bool := do
  if value = 0 then return false
  if ← liftState (isAccountAlive w addr) then return false
  chargeStateGas sgNewAccount
  return true

def prepareDispatch : EvmM Unit := do
  let msg := (← getEv).msg
  if msg.target = none then
    let e ← liftState (preStateIsEmpty w msg.currentTarget)
    chargeStateGas (if e then sgNewAccount else 0)
  else
    let _ ← chargeIfDead w msg.currentTarget msg.value
    let rcode ← liftState (extCodeOf w msg.currentTarget)
    setFrameCode (← followDelegation w rcode)

/-! ## Child frames -/

/-- What a frame was started for. -/
inductive FrameKind where
  | transaction
  | call
  | create
  deriving DecidableEq, Inhabited

/-- A request for a child frame: its message and what the caller needs once it is done. Only the
frame of the transaction is at depth zero, and no frame is below the depth limit. -/
structure ChildReq where
  msg : Msg
  kind : FrameKind
  newAccountCharged : Bool
  outStart : Word
  outSize : Word
  contract : Address
  below : msg.depth ≠ 0
  depth_le : msg.depth ≤ stackDepthLimit
  isChild : kind ≠ .transaction

/-- The message of a child frame, with the environments of its caller. -/
def childMessage (pm : Msg) (caller : Address) (target : Option Address) (currentTarget : Address)
    (gas reservoir : Word) (value : U256) (data : Bytes) (codeAddress : Option Address)
    (code : Bytes) (transfer isStatic disablePre : Bool) : Msg where
  be := pm.be
  te := pm.te
  caller := caller
  target := target
  currentTarget := currentTarget
  gas := gas
  reservoir := reservoir
  value := value
  data := data
  codeAddress := codeAddress
  code := code
  depth := pm.depth + 1
  transferValue := transfer
  isStatic := isStatic || pm.isStatic
  disablePrecompiles := disablePre

/-- Give the state gas of a new account back if it was charged. -/
def creditNewAccount (charged : Bool) : EvmM Unit :=
  creditStateGasRefund (if charged then sgNewAccount else 0)

def incorporateChildOnError (child : Frame) : EvmM Unit :=
  modifyEv fun e => { e with
    gasLeft := e.gasLeft + child.gasLeft
    stateGasLeft := e.stateGasLeft + child.stateGasLeft
    regularGasUsed := e.regularGasUsed + child.regularGasUsed }

/-- A frame whose reservoir repays what has spilled. -/
def Frame.repayStateGasSpill (e : Frame) : Frame :=
  let rep := minWord e.stateGasSpilled e.stateGasLeft
  { e with
    gasLeft := e.gasLeft + rep
    stateGasLeft := e.stateGasLeft - rep
    stateGasSpilled := e.stateGasSpilled - rep }

def incorporateChildOnSuccess (child : Frame) : EvmM Unit := do
  incorporateChildOnError child
  modifyEv fun e => { e with stateGasSpilled := e.stateGasSpilled + child.stateGasSpilled }
  modifyEv Frame.repayStateGasSpill
  modifyEv fun e => { e with
    logs := e.logs ++ child.logs
    refund := e.refund + child.refund
    delete := htabUnionInto e.delete child.delete
    slotWrites := e.slotWrites ++ child.slotWrites }

/-- Drop what the accessed sets gained since a frame was opened. -/
def rollbackChildAccess (child : Frame) : EvmM Unit :=
  modify fun c => { c with
    accAddrs := c.accAddrs.truncate child.accAddrsN
    accKeys := c.accKeys.truncate child.accKeysN }

/-! ## Creations -/

def computeContractAddress (addr : Address) (nonce : Word) : Address :=
  addrOfHash (keccak256 (rlpEncodeList (rlpEncodeBytes (addrBytes addr)
    ++ rlpEncodeWord nonce.toNat)))

def computeCreate2ContractAddress (addr : Address) (salt : Hash) (code : Bytes) : Address :=
  addrOfHash (keccak256 (255 :: addrBytes addr ++ hashBytes salt ++ hashBytes (keccak256 code)))

/-- Charge the state gas of a new account unless the account is alive. -/
def chargeNewContract (addr : Address) : EvmM Bool := do
  let alive ← liftState (isAccountAlive w addr)
  chargeStateGas (if alive then 0 else sgNewAccount)
  return !alive

/-- Set aside all but a 64th of the gas left. -/
def takeCreateGas : EvmM Word := do
  let gl := (← getEv).gasLeft
  let createGas := gl - (gl >>> 6)
  modifyEv fun e => { e with gasLeft := gl - createGas }
  return createGas

/-- Set the whole state gas aside. -/
def takeReservoir : EvmM Word := do
  let reservoir := (← getEv).stateGasLeft
  modifyEv fun e => { e with stateGasLeft := 0 }
  return reservoir

/-- A creation at an address in use: the gas set aside is used up. -/
def createCollision (sender : Address) (createGas : Word) (charged : Bool) : EvmM Unit := do
  liftState (incrementNonce w sender)
  modifyEv fun e => { e with regularGasUsed := e.regularGasUsed + createGas }
  creditNewAccount charged
  stackPush 0

def genericCreate (endowment : U256) (contract : Address) (mstart msize : Word) :
    EvmM (Option ChildReq) := do
  if maxInitCodeSize < msize then throwEvm .outOfGas
  let code := (← getEv).memRead mstart msize
  setRetdata []
  let msg := (← getEv).msg
  let senderAddress := msg.currentTarget
  let sender ← liftState (loadAccount w senderAddress)
  if h : sender.balance < endowment ∨ sender.nonce = wordMax ∨ stackDepthLimit < msg.depth + 1 then
    stackPush 0
    return none
  else
    warmAddress contract
    let charged ← chargeNewContract w contract
    let createGas ← takeCreateGas
    if ← liftState (accountDeployable w contract) then
      let reservoir ← takeReservoir
      liftState (incrementNonce w senderAddress)
      return some {
        msg := childMessage msg senderAddress none contract createGas reservoir endowment []
          none code true false false
        kind := .create
        newAccountCharged := charged
        outStart := 0
        outSize := 0
        contract := contract
        below := Nat.succ_ne_zero _
        depth_le := Nat.not_lt.mp fun hd => h (.inr (.inr hd))
        isChild := by decide }
    else
      createCollision w senderAddress createGas charged
      return none

/-- Advance the program counter unless a child frame starts. -/
def pcAddIfDone (started : Option ChildReq) : EvmM (Option ChildReq) := do
  if started.isNone then pcAdd 1
  return started

def opCreate : EvmM (Option ChildReq) := do
  requireNotStatic
  let endowment ← stackPop
  let mstart ← stackPop
  let msize ← stackPop
  let n := satWord msize
  let x ← extendMemoryCost1 mstart msize
  chargeGas (addSat (gCreateAccess + gCodeInitPerWord * wordsOf n) x.1)
  extendMemory x.2
  let target := (← getEv).msg.currentTarget
  let a ← liftState (loadAccount w target)
  let started ← genericCreate w endowment (computeContractAddress target a.nonce)
    (satWord mstart) n
  pcAddIfDone started

def opCreate2 : EvmM (Option ChildReq) := do
  requireNotStatic
  let endowment ← stackPop
  let mstart ← stackPop
  let msize ← stackPop
  let salt ← stackPop
  let n := satWord msize
  let x ← extendMemoryCost1 mstart msize
  chargeGas (addSat (gCreateAccess + gKeccak256PerWord * wordsOf n
    + gCodeInitPerWord * wordsOf n) x.1)
  extendMemory x.2
  let e ← getEv
  let started ← genericCreate w endowment
    (computeCreate2ContractAddress e.msg.currentTarget salt (e.memRead (satWord mstart) n))
    (satWord mstart) n
  pcAddIfDone started

/-- Post-processing of a successful creation, in its own frame: pay for the code and store it. -/
def createFinish (msg : Msg) : EvmM Unit := do
  let code := (← getEv).output
  if code.head? = some 239 then throwEvm .invalidContractPrefix
  if maxCodeSize < code.length then throwEvm .outOfGas
  let n := lenWord code
  chargeGas (gKeccak256PerWord * wordsOf n)
  chargeStateGas (n * sgCostPerStateByte)
  liftState (setCode w msg.currentTarget code)

/-! ## Calls -/

/-- The memory ranges of a call. -/
structure CallRanges where
  inStart : U256
  inSize : U256
  outStart : U256
  outSize : U256

def popRanges : EvmM CallRanges := do
  let inStart ← stackPop
  let inSize ← stackPop
  let outStart ← stackPop
  let outSize ← stackPop
  return ⟨inStart, inSize, outStart, outSize⟩

/-- What a call runs: the memory growth it has paid for, whether the callee delegates, and the
address and the code. -/
structure Callee where
  expandBy : Word
  delegates : Bool
  codeAddress : Address
  code : Bytes

/-- Charge for the access to the account a callee delegates to. -/
def accessDelegate (delegates : Bool) (addr : Address) (cost : Word) : EvmM Unit := do
  if delegates then
    chargeGas cost
    warmAddress addr

/-- Charge for the memory ranges, the access to the callee and its delegation. -/
def accessCallee (addr : Address) (value : U256) (r : CallRanges) : EvmM Callee := do
  let x ← extendMemoryCost2 r.inStart r.inSize r.outStart r.outSize
  let warm ← isWarmAddress addr
  let accessCost := if warm then gWarmAccess else gColdAccountAccess
  let transferCost := if value = 0 then 0 else gCallValue
  chargeGas (addSat (accessCost + transferCost) x.1)
  warmUnless warm addr
  let dl ← calculateDelegationCost w addr
  accessDelegate dl.1 dl.2.1 dl.2.2
  let code ← liftState (extCodeOf w dl.2.1)
  return ⟨x.2, dl.1, dl.2.1, code⟩

/-- The cost of a message call and the gas of its child. -/
def calculateMessageCallGas (value : U256) (gas gasLeft memoryCost extraGas : Word) :
    Word × Word :=
  let stipend := if value = 0 then 0 else gCallStipend
  let need := addSat extraGas memoryCost
  if gasLeft < need then (addSat gas extraGas, addSat gas stipend)
  else
    let avail := gasLeft - memoryCost - extraGas
    let mx := avail - (avail >>> 6)
    let g := minWord gas mx
    (g + extraGas, g + stipend)

/-- Split off the gas and the state gas of the child; what it is given is not used yet. -/
def splitCallGas (value gas : U256) (expandBy : Word) : EvmM (Word × Word) := do
  let mcg := calculateMessageCallGas value (satWord gas) (← getEv).gasLeft 0 0
  chargeGas mcg.1
  modifyEv fun e => { e with regularGasUsed := e.regularGasUsed - mcg.2 }
  extendMemory expandBy
  let reservoir ← takeReservoir
  return (mcg.2, reservoir)

/-- Take the gas and the state gas of a child that does not start back. -/
def returnCallGas (gas reservoir : Word) : EvmM Unit :=
  modifyEv fun e => { e with
    gasLeft := e.gasLeft + gas
    stateGasLeft := e.stateGasLeft + reservoir }

def genericCall (gas reservoir : Word) (value : U256) (caller dst codeAddress : Address)
    (transfer isStatic : Bool) (r : CallRanges) (code : Bytes)
    (disablePre charged : Bool) : EvmM (Option ChildReq) := do
  setRetdata []
  let e ← getEv
  if h : stackDepthLimit < e.msg.depth + 1 then
    returnCallGas gas reservoir
    creditNewAccount charged
    stackPush 0
    return none
  else
    return some {
      msg := childMessage e.msg caller (some dst) dst gas reservoir value
        (e.memRead (satWord r.inStart) (satWord r.inSize)) (some codeAddress) code transfer
        isStatic disablePre
      kind := .call
      newAccountCharged := charged
      outStart := satWord r.outStart
      outSize := satWord r.outSize
      contract := 0
      below := Nat.succ_ne_zero _
      depth_le := Nat.not_lt.mp h
      isChild := by decide }

/-- A call whose caller cannot pay the value: it fails without a child. -/
def callUnpaid (gas reservoir : Word) (charged : Bool) : EvmM (Option ChildReq) := do
  stackPush 0
  setRetdata []
  returnCallGas gas reservoir
  creditNewAccount charged
  return none

def opCall : EvmM (Option ChildReq) := do
  let gas ← stackPop
  let tov ← stackPop
  let dst := toAddressMasked tov
  let value ← stackPop
  let r ← popRanges
  let msg := (← getEv).msg
  if msg.isStatic ∧ value ≠ 0 then throwEvm .writeInStatic
  let callee ← accessCallee w dst value r
  let charged ← chargeIfDead w dst value
  let g ← splitCallGas value gas callee.expandBy
  let sender ← liftState (loadAccount w msg.currentTarget)
  let started ←
    if sender.balance < value then callUnpaid g.1 g.2 charged
    else
      genericCall g.1 g.2 value msg.currentTarget dst callee.codeAddress true false r
        callee.code callee.delegates charged
  pcAddIfDone started

def opCallcode : EvmM (Option ChildReq) := do
  let gas ← stackPop
  let cav ← stackPop
  let value ← stackPop
  let r ← popRanges
  let self := (← getEv).msg.currentTarget
  let callee ← accessCallee w (toAddressMasked cav) value r
  let g ← splitCallGas value gas callee.expandBy
  let sender ← liftState (loadAccount w self)
  let started ←
    if sender.balance < value then callUnpaid g.1 g.2 false
    else
      genericCall g.1 g.2 value self self callee.codeAddress true false r callee.code
        callee.delegates false
  pcAddIfDone started

def opDelegatecall : EvmM (Option ChildReq) := do
  let gas ← stackPop
  let cav ← stackPop
  let r ← popRanges
  let msg := (← getEv).msg
  let callee ← accessCallee w (toAddressMasked cav) 0 r
  let g ← splitCallGas 0 gas callee.expandBy
  let started ← genericCall g.1 g.2 msg.value msg.caller msg.currentTarget callee.codeAddress
    false false r callee.code callee.delegates false
  pcAddIfDone started

def opStaticcall : EvmM (Option ChildReq) := do
  let gas ← stackPop
  let tov ← stackPop
  let dst := toAddressMasked tov
  let r ← popRanges
  let msg := (← getEv).msg
  let callee ← accessCallee w dst 0 r
  let g ← splitCallGas 0 gas callee.expandBy
  let started ← genericCall g.1 g.2 0 msg.currentTarget dst callee.codeAddress true true r
    callee.code callee.delegates false
  pcAddIfDone started

/-! ## Dispatch -/

/-- The instructions that start no child frame, by opcode. -/
def opTable : List (Nat × EvmM Unit) :=
  [(0, opStop), (1, opAdd), (2, opMul), (3, opSub), (4, opDiv), (5, opSdiv), (6, opMod),
    (7, opSmod), (8, opAddmod), (9, opMulmod), (10, opExp), (11, opSignextend),
    (16, opLt), (17, opGt), (18, opSlt), (19, opSgt), (20, opEq), (21, opIszero), (22, opAnd),
    (23, opOr), (24, opXor), (25, opNot), (26, opByte), (27, opShl), (28, opShr), (29, opSar),
    (30, opClz),
    (32, opKeccak), (48, opAddress), (49, opBalance w), (50, opOrigin), (51, opCaller),
    (52, opCallvalue), (53, opCalldataload), (54, opCalldatasize), (55, opCalldatacopy),
    (56, opCodesize), (57, opCodecopy), (58, opGasprice), (59, opExtcodesize w),
    (60, opExtcodecopy w), (61, opReturndatasize), (62, opReturndatacopy), (63, opExtcodehash w),
    (64, opBlockhash), (65, opCoinbase), (66, opTimestamp), (67, opNumber), (68, opPrevrandao),
    (69, opGaslimit), (70, opChainid), (71, opSelfbalance w), (72, opBasefee), (73, opBlobhash),
    (74, opBlobbasefee), (75, opSlotnum), (80, opPop), (81, opMload), (82, opMstore),
    (83, opMstore8), (84, opSload w), (85, opSstore w), (86, opJump), (87, opJumpi), (88, opPc),
    (89, opMsize), (90, opGas), (91, opJumpdest), (92, opTload), (93, opTstore), (94, opMcopy),
    (95, opPush 0),
    (230, opDupn), (231, opSwapn), (232, opExchange), (243, opReturn), (253, opRevert),
    (255, opSelfdestruct w)]

/-- The instructions that may start a child frame, by opcode. -/
def callTable : List (Nat × EvmM (Option ChildReq)) :=
  [(240, opCreate w), (241, opCall w), (242, opCallcode w), (244, opDelegatecall w),
    (245, opCreate2 w), (250, opStaticcall w)]

/-- An instruction without a child. -/
def plain (x : EvmM Unit) : EvmM (Option ChildReq) := do
  x
  return none

def opDispatch (op : Nat) : EvmM (Option ChildReq) :=
  if 96 ≤ op ∧ op < 128 then plain (opPush (BitVec.ofNat 64 (op - 95)))
  else if 128 ≤ op ∧ op < 144 then plain (opDup (op - 128))
  else if 144 ≤ op ∧ op < 160 then plain (opSwap (op - 143))
  else if 160 ≤ op ∧ op < 165 then plain (opLog (op - 160))
  else if let some x := (callTable w).lookup op then x
  else if let some x := (opTable w).lookup op then plain x
  else throwEvm .invalidOpcode

end

end StatelessGuest
