import StatelessGuest.Evm.Lenient
import StatelessGuest.State.Writes

/-!
# Relations of the tracker

`OnTracker T` relates two contexts when `T` relates their trackers. Whatever `T` every write
keeps, the instructions keep `OnTracker T`, and so does the machine's work on one frame, a
rollback apart.
-/

namespace StatelessGuest

open Lib

/-- The trackers are related. -/
def OnTracker (T : Tracker → Tracker → Prop) (c c' : Ctx) : Prop := T c.tk c'.tk

section

variable {T : Tracker → Tracker → Prop} [Reading T]

instance : Lenient (OnTracker T) where
  refl c := refl_of T c.tk
  trans _ _ _ h h' := trans_of T h h'
  free c _ _ _ := refl_of T c.tk
  read _ _ h := Reading.readOnly h
  sets c _ _ := refl_of T c.tk

instance : Ordinary (OnTracker T) where
  frame c _ _ := refl_of T c.tk
  read _ _ h := Reading.readOnly h
  warmAddress c _ := refl_of T c.tk
  warmStorageKey c _ := refl_of T c.tk

instance {α : Type} (x : StateM α) [Keeps T x] : Keeps (OnTracker T) (liftState x) :=
  keeps_liftState (fun _ _ h => h) x

/-- A change of the frame alone. -/
theorem keeps_frame (f : Frame → Frame) : Keeps (OnTracker T) (modifyEv f) :=
  Keeps.modify fun c => refl_of T c.tk

instance (d : Delegating) (authority : Address) :
    Keeps (OnTracker T) (chargeAccountWrite d authority) := by
  unfold chargeAccountWrite
  infer_instance

end

-- an instruction of fifteen steps needs more instances than the default allows
set_option synthInstance.maxSize 1000

theorem keeps_opTstore {T : Tracker → Tracker → Prop} [Keccak] (w : Witness) [Writing w T] :
    Keeps (OnTracker T) opTstore := by
  have hset : ∀ addr key value, Keeps T (setTransientStorage addr key value) :=
    fun addr key value => Writing.write (w := w) (.setTransientStorage addr key value)
  unfold opTstore
  infer_instance

section

variable {T : Tracker → Tracker → Prop} [Keccak] {w : Witness} [Reading T]

instance (auth : Auth) (authority : Address) :
    Keeps T (validateAuthorizationChecks w auth authority) := by
  unfold validateAuthorizationChecks loadAccount
  infer_instance

instance (authority : Address) : Keeps T (delegatedBefore w authority) := by
  unfold delegatedBefore
  infer_instance

instance (addr : Address) : Keeps T (preStateIsEmpty w addr) := by
  unfold preStateIsEmpty
  infer_instance

instance (code : Bytes) : Keeps (OnTracker T) (followDelegation w code) := by
  unfold followDelegation
  split
  · infer_instance
  · refine Keeps.seq inferInstance fun _ => Keeps.seq inferInstance fun _ => ?_
    exact Keeps.seq (keeps_frame _) fun _ => inferInstance

instance : Keeps (OnTracker T) (prepareDispatch w) := by
  have hcode : ∀ code, Keeps (OnTracker T) (setFrameCode code) := fun _ => keeps_frame _
  unfold prepareDispatch
  infer_instance

end

section

variable {T : Tracker → Tracker → Prop} [Keccak] {w : Witness} [Writing w T]

instance (sender recipient : Address) (amount : U256) :
    Keeps T (moveEther w sender recipient amount) := Writing.write (.moveEther _ _ _)

instance (addr : Address) (key : Hash) (value : U256) : Keeps T (setStorage w addr key value) :=
  Writing.write (.setStorage _ _ _)

instance (addr : Address) : Keeps T (incrementNonce w addr) := keeps_incrementNonce addr

instance (addr : Address) (code : Bytes) : Keeps T (setCode w addr code) := keeps_setCode addr code

/-! ## Instructions -/

instance : Keeps (OnTracker T) (opSstore w) := by
  have hrefund : ∀ x : SlotWrite,
      Keeps (OnTracker T) (modifyEv fun e => { e with refund := e.refund + x.refund }) :=
    fun _ => keeps_frame _
  have hwrite : ∀ x : SlotWrite,
      Keeps (OnTracker T) (modifyEv fun e => { e with slotWrites := e.slotWrites ++ [x] }) :=
    fun _ => keeps_frame _
  unfold opSstore
  dsimp only
  iterate 9 refine Keeps.seq inferInstance fun _ => ?_
  refine Keeps.seq (hrefund _) fun _ => ?_
  iterate 4 refine Keeps.seq inferInstance fun _ => ?_
  exact Keeps.seq (hwrite _) fun _ => inferInstance

instance : Keeps (OnTracker T) (opSelfdestruct w) := by
  unfold opSelfdestruct
  dsimp only
  iterate 6 refine Keeps.seq inferInstance fun _ => ?_
  infer_instance

instance (sender : Address) (createGas : Word) (charged : Bool) :
    Keeps (OnTracker T) (createCollision w sender createGas charged) := by
  unfold createCollision
  have : Keeps (OnTracker T)
      (modifyEv fun e => { e with regularGasUsed := e.regularGasUsed + createGas }) :=
    keeps_frame _
  infer_instance

instance (endowment : U256) (contract : Address) (mstart msize : Word) :
    Keeps (OnTracker T) (genericCreate w endowment contract mstart msize) := by
  unfold genericCreate
  dsimp only
  split
  case' isTrue => refine Keeps.seq inferInstance fun _ => ?_
  all_goals
    iterate 4 refine Keeps.seq inferInstance fun _ => ?_
    split
    · infer_instance
    iterate 4 refine Keeps.seq inferInstance fun _ => ?_
    split
    · infer_instance
    · infer_instance

instance : Keeps (OnTracker T) (opCreate w) := by
  unfold opCreate
  infer_instance

instance : Keeps (OnTracker T) (opCreate2 w) := by
  unfold opCreate2
  infer_instance

theorem keeps_opDispatch (op : Nat) : Keeps (OnTracker T) (opDispatch w op) := by
  have hplain : ∀ x : EvmM Unit, Keeps (OnTracker T) x → Keeps (OnTracker T) (plain x) :=
    fun _ hx => Keeps.seq hx fun _ => Keeps.pure _
  have htstore : Keeps (OnTracker T) opTstore := keeps_opTstore w
  have hthrow : Keeps (OnTracker T) (throwEvm .invalidOpcode : EvmM (Option ChildReq)) :=
    inferInstance
  refine opDispatch_forall w (fun x hx => hplain x hx.keeps) (hplain _ htstore) ?_ ?_ ?_ ?_ ?_ ?_ ?_ ?_
    hthrow op
  · exact hplain _ inferInstance
  · exact hplain _ inferInstance
  all_goals infer_instance

/-! ## The work of the machine on a frame -/

instance [Crypto] : Keeps (OnTracker T) (framePrologue w) := by
  unfold framePrologue transferMsgValue
  refine Keeps.seq inferInstance fun e => Keeps.seq inferInstance fun _ => ?_
  split
  · infer_instance
  · dsimp only
    split <;> infer_instance

instance (msg : Msg) : Keeps (OnTracker T) (createFinish w msg) := by
  unfold createFinish
  infer_instance

/-- The new account of a creation, once the snapshot is taken. -/
def createAccount (w : Witness) (target : Address) : StateM Unit := do
  destroyStorage target
  markAccountCreated target
  incrementNonce w target

omit [Writing w T] in
theorem openCreate_eq (target : Address) :
    openCreate w target = stateSnapshot >>= fun snapshot => createAccount w target >>= fun _ =>
      pure snapshot := by
  unfold openCreate createAccount
  simp only [bind_assoc]

instance (target : Address) : Keeps T (createAccount w target) := by
  have hdestroy : Keeps T (destroyStorage target) := Writing.write (w := w) (.destroyStorage target)
  have hmark : Keeps T (markAccountCreated target) :=
    Writing.write (w := w) (.markAccountCreated target)
  unfold createAccount
  infer_instance

instance [Crypto] (auth : Auth) : Keeps (OnTracker T) (authorityOf w auth) := by
  unfold authorityOf
  refine Keeps.seq inferInstance fun e => ?_
  split
  · infer_instance
  · split
    · infer_instance
    · infer_instance

instance (d : Delegating) (auth : Auth) (authority : Address) (before : Bool) :
    Keeps (OnTracker T) (writeDelegation w d auth authority before) := by
  unfold writeDelegation
  infer_instance

instance (d : Delegating) (auth : Auth) (authority : Address) :
    Keeps (OnTracker T) (applyAuthorization w d auth authority) := by
  unfold applyAuthorization
  infer_instance

instance [Crypto] (auths : List Auth) (d : Delegating) :
    Keeps (OnTracker T) (setDelegationLoop w auths d) := by
  induction auths generalizing d with
  | nil => exact Keeps.pure _
  | cons auth rest ih =>
    unfold setDelegationLoop
    refine Keeps.seq inferInstance fun authority => ?_
    cases authority with
    | none => exact ih d
    | some authority => exact Keeps.seq inferInstance fun d => ih d

instance [Crypto] : Keeps (OnTracker T) (depth0Prepare w) := by
  have hrebase : Keeps (OnTracker T) rebaseReservoir := keeps_frame _
  unfold depth0Prepare setDelegation
  infer_instance

end

end StatelessGuest
