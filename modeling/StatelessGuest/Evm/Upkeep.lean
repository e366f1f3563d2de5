import StatelessGuest.Evm.Ordinary
import StatelessGuest.Evm.Machine

/-!
# Upkeep of a frame

`Upkeep R` says that `R` allows what the inert instructions do and besides what the tracker
does, the state gas operations and the end of a frame. SSTORE, SELFDESTRUCT, the parts of the
creations and calls that move no regular gas, and the machine's own work on the current frame
keep every such relation.
-/

namespace StatelessGuest

open Lib

/-- A relation that allows, besides, what the tracker, the state gas and the end of a frame
do. -/
class Tends (R : Ctx → Ctx → Prop) : Prop extends Still R where
  tracker : ∀ (c : Ctx) (s : Tracker), R c { c with tk := s }
  chargeStateGas : ∀ amount, Keeps R (chargeStateGas amount)
  creditStateGas : ∀ amount, Keeps R (creditStateGasRefund amount)
  refund : ∀ (c : Ctx) (v : Word), R c { c with ev := { c.ev with refund := v } }
  slotWrites : ∀ (c : Ctx) (v : List SlotWrite),
    R c { c with ev := { c.ev with slotWrites := v } }
  takeStateGas : ∀ c : Ctx, R c { c with ev := { c.ev with stateGasLeft := 0 } }
  refill : ∀ c : Ctx, R c { c with ev := c.ev.refillFrameStateGas }
  halt : ∀ err, Keeps R (frameHalt err)
  error : ∀ (c : Ctx) (err : EvmErr), R c { c with ev := { c.ev with error := some err } }
  msg : ∀ (c : Ctx) (msg : Msg), msg.isStatic = c.ev.msg.isStatic →
    R c { c with ev := { c.ev with msg := msg } }

class Upkeep (R : Ctx → Ctx → Prop) : Prop extends Inert R where
  tracker : ∀ (c : Ctx) (s : Tracker), R c { c with tk := s }
  chargeStateGas : ∀ amount, Keeps R (chargeStateGas amount)
  creditStateGas : ∀ amount, Keeps R (creditStateGasRefund amount)
  refund : ∀ (c : Ctx) (v : Word), R c { c with ev := { c.ev with refund := v } }
  slotWrites : ∀ (c : Ctx) (v : List SlotWrite),
    R c { c with ev := { c.ev with slotWrites := v } }
  takeStateGas : ∀ c : Ctx, R c { c with ev := { c.ev with stateGasLeft := 0 } }
  refill : ∀ c : Ctx, R c { c with ev := c.ev.refillFrameStateGas }
  halt : ∀ err, Keeps R (frameHalt err)
  error : ∀ (c : Ctx) (err : EvmErr), R c { c with ev := { c.ev with error := some err } }
  msg : ∀ (c : Ctx) (msg : Msg), R c { c with ev := { c.ev with msg := msg } }

theorem keeps_catchEvm {R : Ctx → Ctx → Prop} [Std.Refl R] [IsTrans Ctx R] {α : Type} {x : EvmM α}
    {h : EvmErr → EvmM α} (hx : Keeps R x) (hh : ∀ e, Keeps R (h e)) :
    Keeps R (catchEvm x h) := by
  refine @Keeps.tryCatch _ _ _ R _ x _ hx fun e => ?_
  cases e with
  | evm e => exact hh e
  | _ => exact Keeps.throw _

instance {R : Ctx → Ctx → Prop} [Upkeep R] : Tends R where
  tracker := Upkeep.tracker
  chargeStateGas := Upkeep.chargeStateGas
  creditStateGas := Upkeep.creditStateGas
  refund := Upkeep.refund
  slotWrites := Upkeep.slotWrites
  takeStateGas := Upkeep.takeStateGas
  refill := Upkeep.refill
  halt := Upkeep.halt
  error := Upkeep.error
  msg c msg _ := Upkeep.msg c msg

-- an instruction of fifteen steps needs more instances than the default allows
set_option synthInstance.maxSize 1000

section

variable {R : Ctx → Ctx → Prop} [Tends R]

/-! ## Parts of instructions -/

instance {α : Type} (x : StateM α) : Keeps R (liftState x) := by
  constructor
  intro c
  cases hx : x c.tk with
  | ok a s =>
    rw [liftState_ok hx]
    exact Tends.tracker c s
  | error e s =>
    rw [liftState_error hx]
    exact Tends.tracker c s

instance (amount : Word) : Keeps R (chargeStateGas amount) := Tends.chargeStateGas amount

instance (amount : Word) : Keeps R (creditStateGasRefund amount) := Tends.creditStateGas amount

instance (charged : Bool) : Keeps R (creditNewAccount charged) :=
  inferInstanceAs (Keeps R (creditStateGasRefund _))

instance : Keeps R takeReservoir :=
  Keeps.seq inferInstance fun _ => Keeps.seq (Keeps.modify Tends.takeStateGas)
    fun _ => inferInstance

section

variable [Keccak] {w : Witness}

instance (addr : Address) (value : U256) : Keeps R (chargeIfDead w addr value) := by
  unfold chargeIfDead
  infer_instance

instance (addr : Address) : Keeps R (chargeNewContract w addr) := by
  unfold chargeNewContract
  infer_instance

instance [Emits R] : Keeps R (opSelfdestruct w) := by
  unfold opSelfdestruct
  dsimp only
  iterate 6 refine Keeps.seq inferInstance fun _ => ?_
  infer_instance

omit [Keccak] in
instance [Moves R] : Keeps R opTstore := by
  unfold opTstore
  infer_instance

instance [Moves R] : Keeps R (opSstore w) := by
  have hrefund : ∀ x : SlotWrite,
      Keeps R (modifyEv fun e => { e with refund := e.refund + x.refund }) :=
    fun _ => Keeps.modify fun c => Tends.refund c _
  have hwrite : ∀ x : SlotWrite,
      Keeps R (modifyEv fun e => { e with slotWrites := e.slotWrites ++ [x] }) :=
    fun _ => Keeps.modify fun c => Tends.slotWrites c _
  unfold opSstore
  dsimp only
  iterate 9 refine Keeps.seq inferInstance fun _ => ?_
  refine Keeps.seq (hrefund _) fun _ => ?_
  iterate 4 refine Keeps.seq inferInstance fun _ => ?_
  exact Keeps.seq (hwrite _) fun _ => inferInstance

end

/-! ## What the machine does besides instructions -/

instance (err : EvmErr) : Keeps R (frameHalt err) := Tends.halt err

instance : Keeps R refillFrameStateGas := Keeps.modify Tends.refill

instance (err : EvmErr) : Keeps R (frameFail err) := by
  unfold frameFail
  have : Keeps R (modifyEv fun e => { e with error := some err }) :=
    Keeps.modify fun c => Tends.error c err
  infer_instance

instance (snapshot : Nat) : Keeps R (frameEpilogue snapshot) := by
  unfold frameEpilogue
  infer_instance

variable [Keccak] {w : Witness}

instance [Emits R] [Crypto] : Keeps R (framePrologue w) := by
  unfold framePrologue transferMsgValue
  refine Keeps.seq inferInstance fun e => Keeps.seq inferInstance fun _ => ?_
  split
  · infer_instance
  · dsimp only
    split <;> infer_instance

instance (msg : Msg) : Keeps R (createFinish w msg) := by
  unfold createFinish
  infer_instance

instance (msg : Msg) (csnapshot : Nat) : Keeps R (closeCreate w msg csnapshot) := by
  unfold closeCreate
  have := keeps_catchEvm (R := R) (x := createFinish w msg) inferInstance fun err =>
    (inferInstance : Keeps R do
      liftState (stateRestore csnapshot)
      refillFrameStateGas
      frameHalt err
      setOutput [])
  infer_instance

instance (r : Cont) : Keeps R (r.close w) := by
  unfold Cont.close
  infer_instance

/-! ## The preparation of a transaction's frame -/

instance [Crypto] (auth : Auth) : Keeps R (authorityOf w auth) := by
  unfold authorityOf
  refine Keeps.seq inferInstance fun e => ?_
  split
  · infer_instance
  · split
    · infer_instance
    · infer_instance

instance (d : Delegating) (authority : Address) : Keeps R (chargeAccountWrite d authority) := by
  unfold chargeAccountWrite
  infer_instance

instance (d : Delegating) (auth : Auth) (authority : Address) (before : Bool) :
    Keeps R (writeDelegation w d auth authority before) := by
  unfold writeDelegation
  infer_instance

instance (d : Delegating) (auth : Auth) (authority : Address) :
    Keeps R (applyAuthorization w d auth authority) := by
  unfold applyAuthorization
  infer_instance

instance [Crypto] (auths : List Auth) (d : Delegating) : Keeps R (setDelegationLoop w auths d) := by
  induction auths generalizing d with
  | nil => exact Keeps.pure _
  | cons auth rest ih =>
    unfold setDelegationLoop
    refine Keeps.seq inferInstance fun authority => ?_
    cases authority with
    | none => exact ih d
    | some authority => exact Keeps.seq inferInstance fun d => ih d

instance [Crypto] : Keeps R (setDelegation w) := by
  unfold setDelegation
  infer_instance

instance (code : Bytes) : Keeps R (followDelegation w code) := by
  unfold followDelegation
  split
  · infer_instance
  · refine Keeps.seq inferInstance fun _ => Keeps.seq inferInstance fun _ => ?_
    exact Keeps.seq (Keeps.modify fun c => Tends.msg c _ rfl) fun _ => inferInstance

instance {R : Ctx → Ctx → Prop} [Upkeep R] (code : Bytes) : Keeps R (setFrameCode code) := by
  refine Keeps.modify fun c => ?_
  have hcode : FrameLocal { c.ev with msg := { c.ev.msg with code := code } }
      { c.ev with
        msg := { c.ev.msg with code := code }
        code := code
        jumpdests := computeJumpdests code } := .of_eq rfl rfl rfl id
  exact trans_of R (Upkeep.msg c { c.ev.msg with code := code }) (Inert.inert _ hcode rfl)

instance [∀ code, Keeps R (setFrameCode code)] : Keeps R (prepareDispatch w) := by
  unfold prepareDispatch
  infer_instance

instance [∀ code, Keeps R (setFrameCode code)] [Keeps R rebaseReservoir] [Crypto] :
    Keeps R (depth0Prepare w) := by
  unfold depth0Prepare
  infer_instance

end

end StatelessGuest
