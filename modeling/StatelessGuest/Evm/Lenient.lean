import StatelessGuest.Evm.Upkeep

/-!
# Relations that do not look at the gas

`Lenient R` says that `R` allows every change of a frame that leaves its message, its place, its
memory and its logs and deletions alone. The calls and the creations and what follows the end of
a child keep such relations when they allow the rest of what these do.
-/

namespace StatelessGuest

open Lib

class Lenient (R : Ctx → Ctx → Prop) : Prop extends Std.Refl R, IsTrans Ctx R where
  free : ∀ (c : Ctx) {e : Frame}, e.rest = c.ev.rest → e.msg = c.ev.msg → R c { c with ev := e }
  read : ∀ (c : Ctx) {s : Tracker}, ReadOnly c.tk s → R c { c with tk := s }
  sets : ∀ (c : Ctx) (addrs : OrdMap Address Unit) (keys : OrdMap (Address × Hash) Unit),
    R c { c with accAddrs := addrs, accKeys := keys }

/-- It allows whatever the tracker does. -/
class Tracks (R : Ctx → Ctx → Prop) : Prop extends Lenient R where
  tracker : ∀ (c : Ctx) (s : Tracker), R c { c with tk := s }

-- a call of fifteen steps needs more instances than the default allows
set_option synthInstance.maxSize 1000

section

variable {R : Ctx → Ctx → Prop} [Lenient R]

instance : Still R where
  still c _ h hrest := Lenient.free c hrest (congrArg FrameCore.msg h.core)
  read c _ h := Lenient.read c h
  warmAddress c _ := Lenient.sets c _ c.accKeys
  warmStorageKey c _ := Lenient.sets c c.accAddrs _

theorem keeps_free {f : Frame → Frame} (hrest : ∀ e, (f e).rest = e.rest)
    (hmsg : ∀ e, (f e).msg = e.msg) : Keeps R (modifyEv f) :=
  Keeps.modify fun c => Lenient.free c (hrest c.ev) (hmsg c.ev)

/-! ## Gas -/

instance (amount : Word) : Keeps R (chargeStateGas amount) := by
  refine ⟨fun c => ?_⟩
  rw [chargeStateGas_run]
  split
  · exact Lenient.free c rfl rfl
  · split
    · exact Lenient.free c rfl rfl
    · exact refl_of R c

instance (amount : Word) : Keeps R (creditStateGasRefund amount) :=
  keeps_free (fun _ => rfl) fun _ => rfl

instance (charged : Bool) : Keeps R (creditNewAccount charged) :=
  inferInstanceAs (Keeps R (creditStateGasRefund _))

instance : Keeps R refillFrameStateGas := keeps_free (fun _ => rfl) fun _ => rfl

instance (err : EvmErr) : Keeps R (frameHalt err) := keeps_free (fun _ => rfl) fun _ => rfl

instance : Keeps R takeReservoir :=
  Keeps.seq inferInstance fun _ => Keeps.seq (keeps_free (fun _ => rfl) fun _ => rfl)
    fun _ => inferInstance

instance : Keeps R takeCreateGas :=
  Keeps.seq inferInstance fun _ => Keeps.seq (keeps_free (fun _ => rfl) fun _ => rfl)
    fun _ => inferInstance

instance (gas reservoir : Word) : Keeps R (returnCallGas gas reservoir) :=
  keeps_free (fun _ => rfl) fun _ => rfl

instance (err : EvmErr) : Keeps R (frameFail err) := by
  unfold frameFail
  have : Keeps R (modifyEv fun e => { e with error := some err }) :=
    keeps_free (fun _ => rfl) fun _ => rfl
  infer_instance

/-! ## Calls -/

section

variable [Keccak] {w : Witness}

instance (addr : Address) (value : U256) : Keeps R (chargeIfDead w addr value) := by
  unfold chargeIfDead
  infer_instance

instance (addr : Address) : Keeps R (chargeNewContract w addr) := by
  unfold chargeNewContract
  infer_instance

instance (gas reservoir : Word) (charged : Bool) : Keeps R (callUnpaid gas reservoir charged) := by
  unfold callUnpaid
  infer_instance

instance (gas reservoir : Word) (value : U256) (caller dst codeAddress : Address)
    (transfer isStatic : Bool) (r : CallRanges) (code : Bytes) (disablePre charged : Bool) :
    Keeps R (genericCall gas reservoir value caller dst codeAddress transfer isStatic r code
      disablePre charged) := by
  unfold genericCall
  refine Keeps.seq inferInstance fun _ => Keeps.seq inferInstance fun e => ?_
  split
  · infer_instance
  · exact Keeps.pure _

variable [Stores R]

omit [Keccak] in
instance (value gas : U256) (expandBy : Word) : Keeps R (splitCallGas value gas expandBy) := by
  unfold splitCallGas
  refine Keeps.seq inferInstance fun e => Keeps.seq inferInstance fun _ => ?_
  refine Keeps.seq (keeps_free (fun _ => rfl) fun _ => rfl) fun _ => ?_
  infer_instance

variable [Moves R]

instance : Keeps R (opCall w) := by
  unfold opCall
  dsimp only
  iterate 5 refine Keeps.seq inferInstance fun _ => ?_
  split
  case' isTrue => refine Keeps.seq inferInstance fun _ => ?_
  all_goals
    iterate 4 refine Keeps.seq inferInstance fun _ => ?_
    infer_instance

instance : Keeps R (opCallcode w) := by
  unfold opCallcode
  dsimp only
  iterate 8 refine Keeps.seq inferInstance fun _ => ?_
  infer_instance

instance : Keeps R (opDelegatecall w) := by
  unfold opDelegatecall
  infer_instance

instance : Keeps R (opStaticcall w) := by
  unfold opStaticcall
  infer_instance

end

/-! ## The end of a child -/

instance (child : Frame) : Keeps R (incorporateChildOnError child) :=
  keeps_free (fun _ => rfl) fun _ => rfl

instance (child : Frame) : Keeps R (rollbackChildAccess child) :=
  Keeps.modify fun c => Lenient.sets c _ _

instance (child : Frame) (charged : Bool) : Keeps R (childFailed child charged) := by
  unfold childFailed
  infer_instance

theorem keeps_emits [Emits R] {f : Frame → Frame}
    (hrest : ∀ e, (f e).rest = { e.rest with logs := (f e).logs, delete := (f e).delete })
    (hmsg : ∀ e, (f e).msg = e.msg) : Keeps R (modifyEv f) := by
  refine Keeps.modify fun c => ?_
  have hemit := Emits.emit (R := R) c (f c.ev).logs (f c.ev).delete
  exact trans_of R hemit (Lenient.free (e := f c.ev) _ (hrest c.ev) (hmsg c.ev))

instance [Emits R] (child : Frame) : Keeps R (incorporateChildOnSuccess child) := by
  unfold incorporateChildOnSuccess
  have hspill : Keeps R (modifyEv fun e => { e with
      stateGasSpilled := e.stateGasSpilled + child.stateGasSpilled }) :=
    keeps_free (fun _ => rfl) fun _ => rfl
  have hrepay : Keeps R (modifyEv Frame.repayStateGasSpill) :=
    keeps_free (fun _ => rfl) fun _ => rfl
  refine Keeps.seq inferInstance fun _ => Keeps.seq hspill fun _ => Keeps.seq hrepay fun _ => ?_
  exact keeps_emits (fun _ => rfl) fun _ => rfl

instance [Stores R] (child : Frame) (outStart outSize : Word) :
    Keeps R (copyOutput child outStart outSize) := by
  unfold copyOutput
  infer_instance

instance [Emits R] (child : Frame) (charged : Bool) (contract : Address) :
    Keeps R (genericCreateTail child charged contract) := by
  unfold genericCreateTail
  infer_instance

instance [Emits R] [Stores R] (child : Frame) (charged : Bool) (outStart outSize : Word) :
    Keeps R (genericCallTail child charged outStart outSize) := by
  unfold genericCallTail
  infer_instance

instance [Emits R] [Stores R] (r : Cont) (child : Frame) : Keeps R (r.tail child) := by
  unfold Cont.tail
  infer_instance

end

/-! ## Creations -/

section

variable {R : Ctx → Ctx → Prop} [Tracks R] [Keccak] {w : Witness}

omit [Keccak] in
instance {α : Type} (x : StateM α) : Keeps R (liftState x) := by
  have : Keeps (fun _ _ : Tracker => True) x := ⟨fun _ => trivial⟩
  exact keeps_liftState (T := fun _ _ => True) (fun c s _ => Tracks.tracker c s) x

instance (sender : Address) (createGas : Word) (charged : Bool) :
    Keeps R (createCollision w sender createGas charged) := by
  unfold createCollision
  have : Keeps R (modifyEv fun e => { e with regularGasUsed := e.regularGasUsed + createGas }) :=
    keeps_free (fun _ => rfl) fun _ => rfl
  infer_instance

instance (endowment : U256) (contract : Address) (mstart msize : Word) :
    Keeps R (genericCreate w endowment contract mstart msize) := by
  unfold genericCreate
  dsimp only
  split
  case' isTrue => refine Keeps.seq inferInstance fun _ => ?_
  all_goals
    iterate 4 refine Keeps.seq inferInstance fun _ => ?_
    split
    · infer_instance
    iterate 4 refine Keeps.seq inferInstance fun _ => ?_
    split
    · infer_instance
    · infer_instance

variable [Stores R] [Moves R]

instance : Keeps R (opCreate w) := by
  unfold opCreate
  infer_instance

instance : Keeps R (opCreate2 w) := by
  unfold opCreate2
  infer_instance

end

end StatelessGuest
