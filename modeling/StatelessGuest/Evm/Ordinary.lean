import StatelessGuest.Evm.Calls
import StatelessGuest.State.Reads

/-!
# Ordinary instructions

What an instruction does that touches no account, no slot and no state gas: it uses gas of its
frame, reads, warms addresses and slots, and everything else it changes stays inside the frame.
`Ordinary R` says that `R` allows these changes, `Inert R` that it allows those that leave the
memory alone. Every instruction but TSTORE, SSTORE, SELFDESTRUCT, the creations and the calls
keeps every ordinary relation, and so do the parts of those that only read.
-/

namespace StatelessGuest

open Lib

/-! ## Frames -/

/-- The part of a frame that ordinary instructions leave alone. -/
structure FrameCore where
  msg : Msg
  stateGasLeft : Word
  stateGasSpilled : Word
  authStateGasUsed : Word
  refund : Word
  error : Option EvmErr
  accAddrsN : Nat
  accKeysN : Nat
  slotWrites : List SlotWrite

def Frame.core (e : Frame) : FrameCore where
  msg := e.msg
  stateGasLeft := e.stateGasLeft
  stateGasSpilled := e.stateGasSpilled
  authStateGasUsed := e.authStateGasUsed
  refund := e.refund
  error := e.error
  accAddrsN := e.accAddrsN
  accKeysN := e.accKeysN
  slotWrites := e.slotWrites

/-- Gas moves from the gas left to the gas used, the stack stays within its limit, and the core
stays. -/
structure FrameLocal (e e' : Frame) : Prop where
  core : e'.core = e.core
  gas : e'.gasLeft + e'.regularGasUsed = e.gasLeft + e.regularGasUsed
  le : e'.gasLeft ≤ e.gasLeft
  stack : e.stack.length ≤ stackDepthLimit → e'.stack.length ≤ stackDepthLimit

theorem FrameLocal.refl (e : Frame) : FrameLocal e e := ⟨rfl, rfl, BitVec.le_refl _, id⟩

theorem FrameLocal.trans {e₁ e₂ e₃ : Frame} (h : FrameLocal e₁ e₂) (h' : FrameLocal e₂ e₃) :
    FrameLocal e₁ e₃ :=
  ⟨h'.core.trans h.core, h'.gas.trans h.gas, BitVec.le_trans h'.le h.le, h'.stack ∘ h.stack⟩


/-- A change outside the core and the gas. -/
theorem FrameLocal.of_eq {e e' : Frame} (hc : e'.core = e.core) (hg : e'.gasLeft = e.gasLeft)
    (hr : e'.regularGasUsed = e.regularGasUsed)
    (hs : e.stack.length ≤ stackDepthLimit → e'.stack.length ≤ stackDepthLimit) :
    FrameLocal e e' :=
  ⟨hc, by rw [hg, hr], by rw [hg]; exact BitVec.le_refl _, hs⟩

theorem mem_of_lookup {α : Type} {l : List (Nat × α)} {k : Nat} {a : α}
    (h : l.lookup k = some a) : (k, a) ∈ l := by
  induction l with
  | nil => cases h
  | cons e l ih =>
    rw [List.lookup_cons] at h
    split at h
    · next heq =>
      cases h
      rw [beq_iff_eq] at heq
      rw [heq]
      exact List.mem_cons_self
    · exact List.mem_cons_of_mem _ (ih h)

/-! ## The class -/

-- a program of ten steps needs more instances than the default allows
set_option synthInstance.maxSize 1000

/-- The rest of a frame that working on the stack and paying leave alone. -/
structure FrameRest where
  pc : Word
  code : Bytes
  jumpdests : List Nat
  mem : Bytes
  logs : List Log
  delete : OrdMap Address Unit

def Frame.rest (e : Frame) : FrameRest where
  pc := e.pc
  code := e.code
  jumpdests := e.jumpdests
  mem := e.mem
  logs := e.logs
  delete := e.delete

/-- A relation that allows what an instruction does besides moving on, writing to the memory and
leaving logs and deletions. -/
class Still (R : Ctx → Ctx → Prop) : Prop extends Std.Refl R, IsTrans Ctx R where
  still : ∀ (c : Ctx) {e : Frame}, FrameLocal c.ev e → e.rest = c.ev.rest →
    R c { c with ev := e }
  read : ∀ (c : Ctx) {s : Tracker}, ReadOnly c.tk s → R c { c with tk := s }
  warmAddress : ∀ (c : Ctx) (addr : Address),
    R c { c with accAddrs := c.accAddrs.set addr () }
  warmStorageKey : ∀ (c : Ctx) (k : Address × Hash), R c { c with accKeys := c.accKeys.set k () }

/-- It allows a frame to move on. -/
class Moves (R : Ctx → Ctx → Prop) : Prop extends Still R where
  move : ∀ (c : Ctx) (pc : Word), R c { c with ev := { c.ev with pc := pc } }

/-- It allows changes of the memory. -/
class Stores (R : Ctx → Ctx → Prop) : Prop extends Still R where
  store : ∀ (c : Ctx) (mem : Bytes), R c { c with ev := { c.ev with mem := mem } }

/-- It allows logs and deletions. -/
class Emits (R : Ctx → Ctx → Prop) : Prop extends Still R where
  emit : ∀ (c : Ctx) (logs : List Log) (delete : OrdMap Address Unit),
    R c { c with ev := { c.ev with logs := logs, delete := delete } }

/-- A relation that allows what an instruction does that leaves the memory alone. -/
class Inert (R : Ctx → Ctx → Prop) : Prop extends Std.Refl R, IsTrans Ctx R where
  inert : ∀ (c : Ctx) {e : Frame}, FrameLocal c.ev e → e.mem = c.ev.mem → R c { c with ev := e }
  read : ∀ (c : Ctx) {s : Tracker}, ReadOnly c.tk s → R c { c with tk := s }
  warmAddress : ∀ (c : Ctx) (addr : Address),
    R c { c with accAddrs := c.accAddrs.set addr () }
  warmStorageKey : ∀ (c : Ctx) (k : Address × Hash), R c { c with accKeys := c.accKeys.set k () }

/-- A relation that allows what an ordinary instruction does. -/
class Ordinary (R : Ctx → Ctx → Prop) : Prop extends Inert R where
  frame : ∀ (c : Ctx) {e : Frame}, FrameLocal c.ev e → R c { c with ev := e }
  inert := fun c _ h _ => frame c h

section

variable {R : Ctx → Ctx → Prop}

instance [Inert R] : Moves R where
  still c _ h hrest := Inert.inert c h (congrArg FrameRest.mem hrest)
  read c _ h := Inert.read c h
  warmAddress := Inert.warmAddress
  warmStorageKey := Inert.warmStorageKey
  move c _ := Inert.inert c (.of_eq rfl rfl rfl id) rfl

instance [Inert R] : Emits R where
  emit c _ _ := Inert.inert c (.of_eq rfl rfl rfl id) rfl

instance [Ordinary R] : Stores R where
  store c _ := Ordinary.frame c (.of_eq rfl rfl rfl id)

end

section

variable {R : Ctx → Ctx → Prop} [Still R]

/-! ## Primitives -/

theorem keeps_modifyEv {f : Frame → Frame} (h : ∀ e, FrameLocal e (f e))
    (hrest : ∀ e, (f e).rest = e.rest) : Keeps R (modifyEv f) :=
  Keeps.modify fun c => Still.still c (h c.ev) (hrest c.ev)

instance : Keeps R getEv := by unfold getEv; infer_instance

instance {α : Type} (e : EvmErr) : Keeps R (throwEvm e : EvmM α) := by
  unfold throwEvm
  infer_instance

omit [Still R] in
theorem keeps_liftState {T : Tracker → Tracker → Prop}
    (hT : ∀ (c : Ctx) (s : Tracker), T c.tk s → R c { c with tk := s }) {α : Type}
    (x : StateM α) [Keeps T x] : Keeps R (liftState x) := by
  refine ⟨fun c => ?_⟩
  have h := Keeps.rel (R := T) (x := x) c.tk
  cases hx : x c.tk with
  | ok a s =>
    rw [liftState_ok hx]
    rw [hx] at h
    exact hT c s h
  | error e s =>
    rw [liftState_error hx]
    rw [hx] at h
    exact hT c s h

instance {α : Type} (x : StateM α) [Keeps ReadOnly x] : Keeps R (liftState x) :=
  keeps_liftState (fun c _ h => Still.read c h) x

instance (addr : Address) : Keeps R (warmAddress addr) :=
  Keeps.modify fun c => Still.warmAddress c addr

instance (addr : Address) (key : Hash) : Keeps R (warmStorageKey addr key) :=
  Keeps.modify fun c => Still.warmStorageKey c (addr, key)

instance (addr : Address) : Keeps R (isWarmAddress addr) := by
  unfold isWarmAddress
  infer_instance

instance (addr : Address) (key : Hash) : Keeps R (isWarmStorageKey addr key) := by
  unfold isWarmStorageKey
  infer_instance

instance (addr : Address) : Keeps R (accessGasCost addr) := by
  unfold accessGasCost
  infer_instance

instance (addr : Address) (c : Word) : Keeps R (warmAfterCharge addr c) := by
  unfold warmAfterCharge
  infer_instance

instance (amount : Word) : Keeps R (checkGas amount) := by unfold checkGas; infer_instance

omit [Still R] in
theorem chargeGas_run (amount : Word) (c : Ctx) :
    chargeGas amount c =
      if c.ev.gasLeft < amount then .error (.evm .outOfGas) c
      else .ok () { c with ev := { c.ev with
        gasLeft := c.ev.gasLeft - amount
        regularGasUsed := c.ev.regularGasUsed + amount } } := by
  unfold chargeGas
  by_cases h : c.ev.gasLeft < amount
  · rw [if_pos h, bind_run_ok (show getEv c = .ok c.ev c from rfl), if_pos h]
    rfl
  · rw [if_neg h, bind_run_ok (show getEv c = .ok c.ev c from rfl), if_neg h]
    rfl

instance (amount : Word) : Keeps R (chargeGas amount) := by
  refine ⟨fun c => ?_⟩
  rw [chargeGas_run]
  split
  · exact refl_of R c
  · next h =>
    refine Still.still c ⟨rfl, ?_, ?_, id⟩ rfl
    · change c.ev.gasLeft - amount + (c.ev.regularGasUsed + amount) = _
      rw [BitVec.add_comm c.ev.regularGasUsed, ← BitVec.add_assoc, BitVec.sub_add_cancel]
    · change c.ev.gasLeft - amount ≤ c.ev.gasLeft
      rw [BitVec.le_def, BitVec.toNat_sub_of_le (BitVec.not_lt.mp h)]
      exact Nat.sub_le _ _

theorem chargeStateGas_run (amount : Word) (c : Ctx) :
    chargeStateGas amount c =
      if amount ≤ c.ev.stateGasLeft then
        .ok () { c with ev := { c.ev with stateGasLeft := c.ev.stateGasLeft - amount } }
      else if amount ≤ addSat c.ev.stateGasLeft c.ev.gasLeft then
        .ok () { c with ev := { c.ev with
          stateGasLeft := 0
          gasLeft := c.ev.gasLeft - (amount - c.ev.stateGasLeft)
          stateGasSpilled := c.ev.stateGasSpilled + (amount - c.ev.stateGasLeft) } }
      else .error (.evm .outOfGas) c := by
  unfold chargeStateGas
  rw [bind_run_ok (show getEv c = .ok c.ev c from rfl)]
  split
  · rfl
  · split <;> rfl

omit [Still R] in
theorem stackPop_run (c : Ctx) :
    stackPop c = if c.ev.stack = [] then .error (.evm .stackUnderflow) c
      else .ok (c.ev.stack.headD 0) { c with ev := { c.ev with stack := c.ev.stack.tail } } := by
  unfold stackPop
  rw [bind_run_ok (show getEv c = .ok c.ev c from rfl)]
  cases h : c.ev.stack with
  | nil => rfl
  | cons v rest => rfl

omit [Still R] in
theorem stackPush_run (v : U256) (c : Ctx) :
    stackPush v c = if stackDepthLimit ≤ c.ev.stack.length then .error (.evm .stackOverflow) c
      else .ok () { c with ev := { c.ev with stack := v :: c.ev.stack } } := by
  unfold stackPush
  rw [bind_run_ok (show getEv c = .ok c.ev c from rfl)]
  split <;> rfl

instance : Keeps R stackPop := by
  refine ⟨fun c => ?_⟩
  rw [stackPop_run]
  split
  · exact refl_of R c
  · refine Still.still c (.of_eq rfl rfl rfl fun h => ?_) rfl
    exact (List.length_tail (l := c.ev.stack)).trans_le ((Nat.sub_le _ 1).trans h)

instance (v : U256) : Keeps R (stackPush v) := by
  refine ⟨fun c => ?_⟩
  rw [stackPush_run]
  split
  · exact refl_of R c
  · next hlt => exact Still.still c (.of_eq rfl rfl rfl fun _ => Nat.not_le.mp hlt) rfl

instance (b : Bool) : Keeps R (setRunning b) := keeps_modifyEv (fun _ => .of_eq rfl rfl rfl id) fun _ => rfl

instance (bs : Bytes) : Keeps R (setOutput bs) := keeps_modifyEv (fun _ => .of_eq rfl rfl rfl id) fun _ => rfl

instance (bs : Bytes) : Keeps R (setRetdata bs) := keeps_modifyEv (fun _ => .of_eq rfl rfl rfl id) fun _ => rfl

instance (i j : Nat) : Keeps R (stackSwapPositions i j) := by
  refine keeps_modifyEv (fun e => .of_eq rfl rfl rfl fun h => ?_) fun _ => rfl
  simpa using h

instance (v : Word) : Keeps R (stackPushWord v) := by
  unfold stackPushWord
  infer_instance

instance (b : Bool) : Keeps R (stackPushBool b) := by
  unfold stackPushBool
  infer_instance

instance : Keeps R requireNotStatic := by
  unfold requireNotStatic
  infer_instance

instance (s n : U256) : Keeps R (extendMemoryCost1 s n) := by
  unfold extendMemoryCost1
  infer_instance

instance (s n t k : U256) : Keeps R (extendMemoryCost2 s n t k) := by
  unfold extendMemoryCost2
  infer_instance

instance (item : Nat) : Keeps R (pushItem item) := by
  unfold pushItem
  refine Keeps.seq inferInstance fun e => ?_
  split <;> infer_instance

instance (need i j : Nat) : Keeps R (swapIfDeep need i j) := by
  unfold swapIfDeep
  infer_instance

instance (x : Nat) : Keeps R (decodeSingle x) := by
  unfold decodeSingle
  infer_instance

instance (n : Nat) : Keeps R (popTopics n) := by
  induction n with
  | zero => exact Keeps.pure _
  | succ n ih =>
    unfold popTopics
    infer_instance

instance : Keeps R popRanges := by
  unfold popRanges
  infer_instance

section

variable [Keccak] (w : Witness)

instance (addr : Address) : Keeps ReadOnly (loadAccount w addr) := by
  unfold loadAccount
  infer_instance

instance (addr : Address) : Keeps ReadOnly (extCodeOf w addr) := by
  unfold extCodeOf
  infer_instance

instance (addr : Address) (key : Hash) : Keeps R (chargeStorageAccess addr key) := by
  unfold chargeStorageAccess
  infer_instance

instance (addr : Address) (extra : Word) : Keeps R (chargeAccountAccess addr extra) := by
  unfold chargeAccountAccess
  infer_instance

instance (warm : Bool) (addr : Address) : Keeps R (warmUnless warm addr) := by
  unfold warmUnless
  infer_instance

instance (delegates : Bool) (addr : Address) (cost : Word) :
    Keeps R (accessDelegate delegates addr cost) := by
  unfold accessDelegate
  infer_instance

instance (addr : Address) : Keeps R (calculateDelegationCost w addr) := by
  unfold calculateDelegationCost
  infer_instance

instance (addr : Address) (value : U256) (r : CallRanges) :
    Keeps R (accessCallee w addr value r) := by
  unfold accessCallee
  infer_instance

end

/-! ## Precompiles -/

section

variable [Crypto]

omit [Crypto] in
theorem keeps_outputOr (err : EvmErr) (r : Option Bytes) : Keeps R (outputOr err r) := by
  cases r with
  | none => exact inferInstanceAs (Keeps R (throwEvm err))
  | some out => exact inferInstanceAs (Keeps R (setOutput out))

instance (err : EvmErr) (r : Option Bytes) : Keeps R (outputOr err r) := keeps_outputOr err r

instance : Keeps R preIdentity := by unfold preIdentity; infer_instance

instance : Keeps R preSha256 := by unfold preSha256; infer_instance

instance : Keeps R preRipemd160 := by unfold preRipemd160; infer_instance

instance : Keeps R preEcrecover := by
  unfold preEcrecover
  refine Keeps.seq inferInstance fun e => Keeps.seq inferInstance fun _ => ?_
  dsimp only
  split
  · infer_instance
  · split <;> infer_instance

instance : Keeps R preBlake2f := by
  unfold preBlake2f
  dsimp only
  infer_instance

omit [Crypto] in
theorem keeps_unless {p : Prop} [Decidable p] {err : EvmErr} {x : EvmM Unit}
    (h : Keeps R x) : Keeps R (if p then throwEvm err >>= fun _ : Unit => x else x) := by
  split
  · exact Keeps.seq inferInstance fun _ => h
  · exact h

instance : Keeps R preModexp := by
  unfold preModexp
  dsimp only
  refine Keeps.seq inferInstance fun e => keeps_unless (keeps_unless (keeps_unless ?_))
  infer_instance

instance (gas len : Word) (core : Bytes → Option Bytes) :
    Keeps R (preAltBn128 gas len core) := by
  unfold preAltBn128
  infer_instance

instance : Keeps R preAltBn128PairingCheck := by
  unfold preAltBn128PairingCheck
  refine Keeps.seq inferInstance fun e => Keeps.seq inferInstance fun _ => keeps_unless ?_
  split <;> infer_instance

instance (len gas : Word) (err : EvmErr) (core : Bytes → Option Bytes) :
    Keeps R (preFixed len gas err core) := by
  unfold preFixed
  dsimp only
  infer_instance

instance (pairLen : Word) (gas : Word → Word) (core : Bytes → Word → Option Bytes) :
    Keeps R (prePairs pairLen gas core) := by
  unfold prePairs
  dsimp only
  infer_instance

instance : Keeps R preP256verify := by
  unfold preP256verify
  dsimp only
  infer_instance

instance : Keeps R preAltBn128Add := inferInstanceAs (Keeps R (preAltBn128 _ _ _))

instance : Keeps R preAltBn128Mul := inferInstanceAs (Keeps R (preAltBn128 _ _ _))

instance : Keeps R preKzgPointEvaluation := inferInstanceAs (Keeps R (preFixed _ _ _ _))

instance : Keeps R preBlsG1Add := inferInstanceAs (Keeps R (preFixed _ _ _ _))

instance : Keeps R preBlsG2Add := inferInstanceAs (Keeps R (preFixed _ _ _ _))

instance : Keeps R preBlsMapFpToG1 := inferInstanceAs (Keeps R (preFixed _ _ _ _))

instance : Keeps R preBlsMapFp2ToG2 := inferInstanceAs (Keeps R (preFixed _ _ _ _))

instance : Keeps R preBlsG1Msm := inferInstanceAs (Keeps R (prePairs _ _ _))

instance : Keeps R preBlsG2Msm := inferInstanceAs (Keeps R (prePairs _ _ _))

instance : Keeps R preBlsPairing := inferInstanceAs (Keeps R (prePairs _ _ _))

theorem precompileTable_local : ∀ e ∈ precompileTable, Keeps R e.2 := by
  unfold precompileTable
  simp only [List.forall_mem_cons]
  repeat' apply And.intro
  all_goals first
    | infer_instance
    | exact fun _ h => nomatch h

instance (idx : Nat) : Keeps R (runPrecompile idx) := by
  unfold runPrecompile
  split
  · next h => exact precompileTable_local _ (mem_of_lookup h)
  · infer_instance

end

end

/-! ## Logs and deletions -/

section

variable {R : Ctx → Ctx → Prop} [Emits R]

instance (log : Log) : Keeps R (logAppend log) := Keeps.modify fun c => Emits.emit c _ c.ev.delete

instance (addr : Address) : Keeps R (deleteAppend addr) :=
  Keeps.modify fun c => Emits.emit c c.ev.logs _

instance [Keccak] (sender recipient : Address) (amount : U256) :
    Keeps R (emitTransferLog sender recipient amount) := by
  unfold emitTransferLog
  infer_instance

instance [Keccak] (sender recipient : Address) (amount : U256) :
    Keeps R (logTransfer sender recipient amount) := by
  unfold logTransfer
  infer_instance

instance (addr : Address) : Keeps R (deleteIfCreated addr) := by
  unfold deleteIfCreated
  infer_instance

end

section

variable {R : Ctx → Ctx → Prop} [Moves R]

instance (n : Word) : Keeps R (pcAdd n) := Keeps.modify fun c => Moves.move c _

instance (dest : U256) : Keeps R (setPc dest) := Keeps.modify fun c => Moves.move c _

instance (started : Option ChildReq) : Keeps R (pcAddIfDone started) := by
  unfold pcAddIfDone
  infer_instance

/-! ## Families of instructions -/

instance (gas : Word) (f : U256 → U256) : Keeps R (opUnary gas f) := by
  unfold opUnary
  infer_instance

instance (gas : Word) (f : U256 → U256 → U256) : Keeps R (opBinary gas f) := by
  unfold opBinary
  infer_instance

instance (gas : Word) (f : U256 → U256 → U256 → U256) : Keeps R (opTernary gas f) := by
  unfold opTernary
  infer_instance

instance (gas : Word) (f : Frame → U256) : Keeps R (opPushOf gas f) := by
  unfold opPushOf
  infer_instance

/-! ## Single instructions -/

instance : Keeps R opExp := by
  unfold opExp
  infer_instance

instance : Keeps R opStop := by
  unfold opStop
  infer_instance

instance : Keeps R opJump := by
  unfold opJump
  infer_instance

instance : Keeps R opJumpdest := by
  unfold opJumpdest
  infer_instance

instance : Keeps R opPop := by
  unfold opPop
  infer_instance

instance : Keeps R opJumpi := by
  unfold opJumpi
  infer_instance

instance (n : Word) : Keeps R (opPush n) := by
  unfold opPush
  infer_instance

instance (item : Nat) : Keeps R (opDup item) := by
  unfold opDup
  infer_instance

instance (item : Nat) : Keeps R (opSwap item) := by
  unfold opSwap
  infer_instance

instance : Keeps R opDupn := by
  unfold opDupn
  infer_instance

instance : Keeps R opSwapn := by
  unfold opSwapn
  infer_instance

instance : Keeps R opExchange := by
  unfold opExchange
  dsimp only
  infer_instance

instance : Keeps R opCalldataload := by
  unfold opCalldataload
  infer_instance

instance : Keeps R opBlobhash := by
  unfold opBlobhash
  infer_instance

section

variable [Keccak] (w : Witness)

instance : Keeps R (opSload w) := by
  unfold opSload
  infer_instance

instance : Keeps R opTload := by
  unfold opTload
  infer_instance

instance : Keeps R (opBalance w) := by
  unfold opBalance
  infer_instance

instance : Keeps R (opExtcodesize w) := by
  unfold opExtcodesize
  infer_instance

instance : Keeps R (opExtcodehash w) := by
  unfold opExtcodehash
  infer_instance

instance : Keeps R (opSelfbalance w) := by
  unfold opSelfbalance
  infer_instance

instance (benv : BlockEnv) (b : Word) : Keeps ReadOnly (ancestorHash benv b) := by
  unfold ancestorHash
  dsimp only
  infer_instance

instance : Keeps R opBlockhash := by
  unfold opBlockhash
  infer_instance

instance : Keeps R opBlobbasefee := by
  unfold opBlobbasefee
  infer_instance

end

end

/-! ## Instructions on the memory -/

section

variable {R : Ctx → Ctx → Prop} [Stores R]

instance (n : Word) : Keeps R (extendMemory n) := Keeps.modify fun c => Stores.store c _

instance (s : Word) (bs : Bytes) : Keeps R (memWrite s bs) :=
  Keeps.modify fun c => Stores.store c _

instance (base : Word) (s n : U256) : Keeps R (chargeWithMemory base s n) := by
  unfold chargeWithMemory
  infer_instance

instance (n s : Word) (bs : Bytes) : Keeps R (memWriteIf n s bs) := by
  unfold memWriteIf
  infer_instance

instance : Keeps R popOutput := by
  unfold popOutput
  infer_instance

instance : Keeps R opReturn := by
  unfold opReturn
  infer_instance

instance : Keeps R opRevert := by
  unfold opRevert
  infer_instance

variable [Moves R]

instance : Keeps R opMstore := by
  unfold opMstore
  infer_instance

instance : Keeps R opMstore8 := by
  unfold opMstore8
  infer_instance

instance : Keeps R opMload := by
  unfold opMload
  infer_instance

instance : Keeps R opMcopy := by
  unfold opMcopy
  dsimp only
  infer_instance

instance (base : Word) (buf : Bytes) : Keeps R (copyFromBuffer base buf) := by
  unfold copyFromBuffer
  infer_instance

instance : Keeps R opCalldatacopy := by
  unfold opCalldatacopy
  infer_instance

instance : Keeps R opCodecopy := by
  unfold opCodecopy
  infer_instance

instance : Keeps R opReturndatacopy := by
  unfold opReturndatacopy
  dsimp only
  infer_instance

instance [Keccak] : Keeps R opKeccak := by
  unfold opKeccak
  infer_instance

instance [Keccak] (w : Witness) : Keeps R (opExtcodecopy w) := by
  unfold opExtcodecopy
  refine Keeps.seq inferInstance fun av => Keeps.seq inferInstance fun mstart => ?_
  refine Keeps.seq inferInstance fun cstart => Keeps.seq inferInstance fun size => ?_
  infer_instance

instance [Emits R] (n : Nat) : Keeps R (opLog n) := by
  unfold opLog
  refine Keeps.seq inferInstance fun start => Keeps.seq inferInstance fun size => ?_
  refine Keeps.seq inferInstance fun e => ?_
  dsimp only
  split
  · exact Keeps.seq inferInstance fun _ => inferInstance
  · infer_instance

end

section

variable [Keccak] (w : Witness)

/-! ## Dispatch -/

/-- An ordinary instruction. -/
def IsOrdinary (x : EvmM Unit) : Prop := ∀ (R : Ctx → Ctx → Prop) [Ordinary R], Keeps R x

omit [Keccak] in
theorem IsOrdinary.keeps {x : EvmM Unit} (h : IsOrdinary x) {R : Ctx → Ctx → Prop} [Ordinary R] :
    Keeps R x := h R

/-- An instruction that leaves no logs and no deletions either. -/
def IsSilent (x : EvmM Unit) : Prop := ∀ (R : Ctx → Ctx → Prop) [Moves R] [Stores R], Keeps R x

omit [Keccak] in
theorem IsSilent.keeps {x : EvmM Unit} (h : IsSilent x) {R : Ctx → Ctx → Prop} [Moves R] [Stores R] :
    Keeps R x := h R

omit [Keccak] in
theorem IsSilent.ordinary {x : EvmM Unit} (h : IsSilent x) : IsOrdinary x := fun R _ => h R

/-- Every instruction of the table is silent but TSTORE, SSTORE and SELFDESTRUCT. -/
theorem opTable_forall {P : EvmM Unit → Prop} (hord : ∀ x, IsSilent x → P x)
    (htstore : P opTstore) (hsstore : P (opSstore w)) (hself : P (opSelfdestruct w)) :
    ∀ e ∈ opTable w, P e.2 := by
  unfold opTable
  simp only [List.forall_mem_cons]
  repeat' apply And.intro
  all_goals first
    | exact htstore
    | exact hsstore
    | exact hself
    | exact hord _ fun R _ _ => inferInstance
    | exact fun _ h => nomatch h

theorem callTable_forall {P : EvmM (Option ChildReq) → Prop} (hcreate : P (opCreate w))
    (hcall : P (opCall w)) (hcallcode : P (opCallcode w)) (hdelegate : P (opDelegatecall w))
    (hcreate2 : P (opCreate2 w)) (hstatic : P (opStaticcall w)) : ∀ e ∈ callTable w, P e.2 := by
  unfold callTable
  simp only [List.forall_mem_cons]
  exact ⟨hcreate, hcall, hcallcode, hdelegate, hcreate2, hstatic, fun _ h => nomatch h⟩

/-- A property of every instruction, by cases on what an opcode dispatches to. -/
theorem opDispatch_cases {P : EvmM (Option ChildReq) → Prop} (hpush : ∀ n, P (plain (opPush n)))
    (hdup : ∀ n, P (plain (opDup n))) (hswap : ∀ n, P (plain (opSwap n)))
    (hlog : ∀ n < 5, P (plain (opLog n))) (htable : ∀ e ∈ opTable w, P (plain e.2))
    (hcalls : ∀ e ∈ callTable w, P e.2) (hinvalid : P (throwEvm .invalidOpcode)) (op : Nat) :
    P (opDispatch w op) := by
  unfold opDispatch
  split
  · exact hpush _
  split
  · exact hdup _
  split
  · exact hswap _
  split
  · next h => exact hlog _ (by omega)
  split
  · next h => exact hcalls _ (mem_of_lookup h)
  split
  · next h => exact htable _ (mem_of_lookup h)
  · exact hinvalid

theorem opDispatch_forall {P : EvmM (Option ChildReq) → Prop}
    (hord : ∀ x, IsOrdinary x → P (plain x)) (htstore : P (plain opTstore))
    (hsstore : P (plain (opSstore w))) (hself : P (plain (opSelfdestruct w)))
    (hcreate : P (opCreate w)) (hcall : P (opCall w)) (hcallcode : P (opCallcode w))
    (hdelegate : P (opDelegatecall w)) (hcreate2 : P (opCreate2 w))
    (hstatic : P (opStaticcall w)) (hinvalid : P (throwEvm .invalidOpcode)) (op : Nat) :
    P (opDispatch w op) :=
  opDispatch_cases w (fun _ => hord _ fun _ _ => inferInstance)
    (fun _ => hord _ fun _ _ => inferInstance) (fun _ => hord _ fun _ _ => inferInstance)
    (fun _ _ => hord _ fun _ _ => inferInstance)
    (opTable_forall w (P := fun x => P (plain x)) (fun x hx => hord x hx.ordinary) htstore hsstore
      hself)
    (callTable_forall w hcreate hcall hcallcode hdelegate hcreate2 hstatic) hinvalid op

end

end StatelessGuest
