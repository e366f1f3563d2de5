import StatelessGuest.Evm.GasOps
import StatelessGuest.Evm.Refine

/-!
# The gas of a whole run

A frame that is finished has its sums, or, when it failed, nothing spilled and its reservoir
back. So its caller has its own sums again once it has taken the child's gas, and the code of a
frame keeps the invariant however deep its calls nest.
-/

namespace StatelessGuest

open Lib

section

variable {G : Nat} {R : Int} {m : Msg} {a : Word}

/-! ## Finished frames -/

/-- A finished frame. -/
structure Ended (G : Nat) (R : Int) (m : Msg) (a : Word) (e : Frame) : Prop where
  msg : e.msg = m
  auth : e.authStateGasUsed = a
  gas : e.error = none → Gas G R e
  stack : e.error = none → e.stack.length ≤ stackDepthLimit
  total : e.error ≠ none → e.gasLeft.toNat + e.regularGasUsed.toNat = G
  spilled : e.error ≠ none → e.stateGasSpilled = 0
  reservoir : e.error ≠ none → e.stateGasLeft = m.reservoir

theorem InFrame.ended {c : Ctx} (h : InFrame G R m a c) : Ended G R m a c.ev :=
  ⟨h.msg, h.auth, fun _ => h.gas, fun _ => h.stack, fun he => absurd h.error he,
    fun he => absurd h.error he, fun he => absurd h.error he⟩

theorem Ended.inFrame {c : Ctx} (h : Ended G R m a c.ev) (he : c.ev.error = none) :
    InFrame G R m a c :=
  ⟨h.gas he, h.msg, h.auth, he, h.stack he⟩

/-- A fresh frame for a message. -/
theorem inFrame_frameNew {c : Ctx} (m : Msg) (n k : Nat) :
    InFrame m.gas.toNat m.reservoir.toNat m 0 { c with ev := frameNew m n k } := by
  refine ⟨⟨?_, ?_, ?_⟩, rfl, rfl, rfl, Nat.zero_le _⟩
  · exact Nat.add_zero _
  · rw [Frame.stateBalance]
    dsimp only [frameNew]
    rw [stateNet_nil]
    exact le_of_eq (by simp)
  · exact Nat.zero_le _

theorem ended_halted {e : Frame} {err : EvmErr} {o : Bytes} (hG : G < 2 ^ 52) (htotal : e.gasTotal = G)
    (hm : e.msg = m) (ha : e.authStateGasUsed = a) :
    Ended G R m a { e.refillFrameStateGas with
      regularGasUsed := e.regularGasUsed + (e.gasLeft + e.stateGasSpilled)
      gasLeft := 0
      error := some err
      output := o } := by
  unfold Frame.gasTotal at htotal
  have hused : (e.regularGasUsed + (e.gasLeft + e.stateGasSpilled)).toNat = G := by
    rw [BitVec.toNat_add, BitVec.toNat_add]
    omega
  exact ⟨hm, ha, fun he => (by cases he), fun he => (by cases he),
    fun _ => (Nat.zero_add _).trans hused, fun _ => rfl, fun _ => congrArg Msg.reservoir hm⟩

theorem ended_failed {e : Frame} {err : EvmErr} (hG : G < 2 ^ 52) (htotal : e.gasTotal = G)
    (hm : e.msg = m) (ha : e.authStateGasUsed = a) : Ended G R m a (e.failed err) := by
  unfold Frame.failed
  split
  · unfold Frame.gasTotal at htotal
    have hleft : (e.gasLeft + e.stateGasSpilled).toNat =
        e.gasLeft.toNat + e.stateGasSpilled.toNat := by
      rw [BitVec.toNat_add]
      omega
    refine ⟨hm, ha, fun he => (by cases he), fun he => (by cases he), fun _ => ?_, fun _ => rfl,
      fun _ => congrArg Msg.reservoir hm⟩
    simp only [Frame.refillFrameStateGas]
    omega
  · exact ended_halted hG htotal hm ha

/-- A program of a frame under the frame's exception handler. -/
theorem triple_guarded (hG : G < 2 ^ 52) {x : EvmM Unit}
    (h : Triple (InFrame G R m a) x (fun _ => InFrame G R m a) (Failing G m a)) :
    Triple (InFrame G R m a) (catchEvm x frameFail) (fun _ c => Ended G R m a c.ev)
      fun e _ => e.Fatal where
  ok {c c' _} hc hrun := by
    cases hx : x c with
    | ok u c₁ =>
      rw [catchEvm_ok hx] at hrun
      cases hrun
      exact (h.ok hc hx).ended
    | error e c₁ =>
      obtain he | ⟨err, rfl⟩ := e.fatal_or
      · rw [catchEvm_fatal he hx] at hrun
        cases hrun
      · rw [catchEvm_evm hx, frameFail_run] at hrun
        cases hrun
        obtain ⟨htotal, hm, ha⟩ := h.error hc hx id
        exact ended_failed hG htotal hm ha
  error hc hrun := (fatal_of_guarded hrun).1

/-! ## The body of a frame -/

/-- A run of the code of a frame keeps the invariant, whatever the gas. -/
def RunGas (run : EvmM Unit) : Prop :=
  ∀ (G : Nat) (R : Int) (m : Msg) (a : Word), G < 2 ^ 52 → R + 981 * G < 2 ^ 61 →
    Triple (InFrame G R m a) run (fun _ => InFrame G R m a) (Failing G m a)

variable [Keccak] (w : Witness)

theorem triple_transferMsgValue (hG : G < 2 ^ 52) (msg : Msg) :
    Triple (InFrame G R m a) (transferMsgValue w msg) (fun _ => InFrame G R m a)
      (Failing G m a) := by
  unfold transferMsgValue
  split
  · exact .bind (triple_lift _) fun _ => triple_local hG inferInstance
  · exact .pure fun _ h => h

variable [Crypto]

theorem triple_framePrologue (hG : G < 2 ^ 52) :
    Triple (InFrame G R m a) (framePrologue w) (fun _ => InFrame G R m a) (Failing G m a) := by
  unfold framePrologue
  refine .bind (triple_local hG inferInstance) fun e => ?_
  refine .bind (triple_transferMsgValue w hG _) fun _ => ?_
  split
  · exact .pure fun _ h => h
  dsimp only
  split
  · exact .pure fun _ h => h
  split
  · exact .bind (triple_local hG inferInstance) fun _ => .pure fun _ h => h
  · exact .pure fun _ h => h

theorem triple_executeBody (hG : G < 2 ^ 52) (hR : R + 981 * G < 2 ^ 61) {run : EvmM Unit}
    (hrun : RunGas run) :
    Triple (InFrame G R m a) (executeBody w run) (fun _ => InFrame G R m a) (Failing G m a) := by
  unfold executeBody
  refine .bind (triple_framePrologue w hG) fun complete => ?_
  split
  · exact hrun G R m a hG hR
  · exact .pure fun _ h => h

omit [Keccak] [Crypto] in
/-- Reverting the state of a frame changes nothing of the frame. -/
theorem triple_frameEpilogue (snap : Nat) {P : Frame → Prop} {E : Exn → Ctx → Prop} :
    Triple (fun c => P c.ev) (frameEpilogue snap) (fun _ c => P c.ev) E where
  ok {c c' _} h hrun := by
    change (if c.ev.error ≠ none then liftState (stateRestore snap) else pure () :
      EvmM Unit) c = .ok _ c' at hrun
    split at hrun <;> cases hrun <;> exact h
  error {c c' _} _ hrun := by
    obtain ⟨c₁, h₁⟩ := frameEpilogue_ok snap c
    rw [h₁] at hrun
    cases hrun

theorem triple_guardedBody (hG : G < 2 ^ 52) (hR : R + 981 * G < 2 ^ 61) {run : EvmM Unit}
    (hrun : RunGas run) :
    Triple (InFrame G R m a) (guardedBody w run) (fun _ c => Ended G R m a c.ev)
      fun e _ => e.Fatal := by
  unfold guardedBody
  refine .bind (triple_lift_throws inferInstance fun _ _ he h => h.of_ev he) fun snapshot => ?_
  exact .bind (triple_guarded hG (triple_executeBody w hG hR hrun)) fun _ =>
    triple_frameEpilogue snapshot

/-! ## The end of a creation -/

omit [Crypto] in
theorem triple_createFinish (hG : G < 2 ^ 52) (hR : R + 981 * G < 2 ^ 61) (msg : Msg) :
    Triple (InFrame G R m a) (createFinish w msg) (fun _ => InFrame G R m a)
      (Failing G m a) := by
  unfold createFinish
  dsimp only
  refine .bind (triple_local hG inferInstance) fun e => ?_
  split
  · exact triple_throwEvm
  split
  · exact triple_throwEvm
  refine .bind (triple_local hG inferInstance) fun _ => ?_
  exact .bind (triple_chargeStateGas_le hG (by omega) _) fun _ => triple_lift _

omit [Crypto] in
theorem triple_closeCreate (hG : G < 2 ^ 52) (hR : R + 981 * G < 2 ^ 61) (msg : Msg)
    (csnapshot : Nat) :
    Triple (fun c => Ended G R m a c.ev) (closeCreate w msg csnapshot)
      (fun _ c => Ended G R m a c.ev) fun e _ => e.Fatal where
  ok {c c' _} h hrun := by
    change (if c.ev.error = none then _ else _ : EvmM Unit) c = _ at hrun
    split at hrun
    · next hnone =>
      have hfinish := triple_createFinish (m := m) (a := a) w hG hR msg
      cases hx : createFinish w msg c with
      | ok u c₁ =>
        rw [catchEvm_ok hx] at hrun
        cases hrun
        exact (hfinish.ok (h.inFrame hnone) hx).ended
      | error e c₁ =>
        obtain he | ⟨err, rfl⟩ := e.fatal_or
        · rw [catchEvm_fatal he hx] at hrun
          cases hrun
        · rw [catchEvm_evm hx] at hrun
          cases hrun
          obtain ⟨htotal, hm, ha⟩ := hfinish.error (h.inFrame hnone) hx id
          exact ended_halted hG htotal hm ha
    · cases hrun
      exact h
  error h hrun := closeCreate_fatal hrun

/-! ## The caller's share -/

/-- A caller that takes over the gas of its child, which succeeded. -/
def Frame.absorb (e child : Frame) : Frame :=
  { e with
    gasLeft := e.gasLeft + child.gasLeft
    stateGasLeft := e.stateGasLeft + child.stateGasLeft
    regularGasUsed := e.regularGasUsed + child.regularGasUsed
    stateGasSpilled := e.stateGasSpilled + child.stateGasSpilled
    slotWrites := e.slotWrites ++ child.slotWrites }

omit [Keccak] [Crypto] in
theorem Gas.absorb {G₁ G₂ : Nat} {R₂ : Int} {e child : Frame} (he : Gas G₁ (R - R₂) e)
    (hc : Gas G₂ R₂ child) (hG : G₁ + G₂ < 2 ^ 52) (hR : R + 981 * (G₁ + G₂ : Nat) < 2 ^ 62) :
    Gas (G₁ + G₂) R (e.absorb child) := by
  obtain ⟨htotal, hstate, hwrites⟩ := he
  obtain ⟨htotal', hstate', hwrites'⟩ := hc
  have hnet := neg_le_stateNet e.slotWrites
  have hnet' := neg_le_stateNet child.slotWrites
  unfold Frame.gasTotal at htotal htotal'
  unfold Frame.stateBalance at hstate hstate'
  have hgl : (e.gasLeft + child.gasLeft).toNat = e.gasLeft.toNat + child.gasLeft.toNat := by
    rw [BitVec.toNat_add]
    omega
  have hsgl : (e.stateGasLeft + child.stateGasLeft).toNat =
      e.stateGasLeft.toNat + child.stateGasLeft.toNat := by
    rw [BitVec.toNat_add]
    omega
  have hreg : (e.regularGasUsed + child.regularGasUsed).toNat =
      e.regularGasUsed.toNat + child.regularGasUsed.toNat := by
    rw [BitVec.toNat_add]
    omega
  have hsp : (e.stateGasSpilled + child.stateGasSpilled).toNat =
      e.stateGasSpilled.toNat + child.stateGasSpilled.toNat := by
    rw [BitVec.toNat_add]
    omega
  refine ⟨?_, ?_, ?_⟩
  · rw [Frame.gasTotal]
    simp only [Frame.absorb]
    omega
  · rw [Frame.stateBalance]
    simp only [Frame.absorb]
    rw [stateNet_append]
    omega
  · simp only [Frame.absorb]
    rw [List.length_append]
    omega

omit [Keccak] [Crypto] in
theorem Gas.repay {e : Frame} (h : Gas G R e) (hG : G < 2 ^ 52) :
    Gas G R e.repayStateGasSpill := by
  obtain ⟨htotal, hstate, hwrites⟩ := h
  unfold Frame.gasTotal at htotal
  unfold Frame.stateBalance at hstate
  have hrep : (minWord e.stateGasSpilled e.stateGasLeft).toNat =
      min e.stateGasSpilled.toNat e.stateGasLeft.toNat := by
    unfold minWord
    split
    · next hlt => exact (Nat.min_eq_left (Nat.le_of_lt hlt)).symm
    · next hge => exact (Nat.min_eq_right (BitVec.not_lt.mp hge)).symm
  have hgl : (e.gasLeft + minWord e.stateGasSpilled e.stateGasLeft).toNat =
      e.gasLeft.toNat + min e.stateGasSpilled.toNat e.stateGasLeft.toNat := by
    rw [BitVec.toNat_add, hrep]
    omega
  have hsgl : (e.stateGasLeft - minWord e.stateGasSpilled e.stateGasLeft).toNat =
      e.stateGasLeft.toNat - min e.stateGasSpilled.toNat e.stateGasLeft.toNat := by
    rw [BitVec.toNat_sub_of_le, hrep]
    rw [BitVec.le_def, hrep]
    omega
  have hsp : (e.stateGasSpilled - minWord e.stateGasSpilled e.stateGasLeft).toNat =
      e.stateGasSpilled.toNat - min e.stateGasSpilled.toNat e.stateGasLeft.toNat := by
    rw [BitVec.toNat_sub_of_le, hrep]
    rw [BitVec.le_def, hrep]
    omega
  refine ⟨?_, ?_, hwrites⟩
  · rw [Frame.gasTotal]
    simp only [Frame.repayStateGasSpill]
    omega
  · rw [Frame.stateBalance]
    simp only [Frame.repayStateGasSpill]
    omega

omit [Keccak] [Crypto] in
/-- A caller that takes back the gas of its child, which failed. -/
theorem triple_incorporateChildOnError (hG : G < 2 ^ 52) (hR : R + 981 * G < 2 ^ 61) {req : Msg}
    {child : Frame} (hc : Ended req.gas.toNat req.reservoir.toNat req 0 child)
    (hfail : child.error ≠ none) {E : Exn → Ctx → Prop} :
    Triple (Aside G req.gas (R - req.reservoir.toNat) m a) (incorporateChildOnError child)
      (fun _ => InFrame G R m a) E := by
  refine triple_modifyEv fun c h => ?_
  obtain ⟨G', hG', hgas, hm, ha, herr, hs⟩ := h
  have htotal := hgas.total
  have hstate := hgas.state
  have hwrites := hgas.writes
  have hnet := neg_le_stateNet c.ev.slotWrites
  have hchild := hc.total hfail
  unfold Frame.gasTotal at htotal
  unfold Frame.stateBalance at hstate
  have hgl : (c.ev.gasLeft + child.gasLeft).toNat =
      c.ev.gasLeft.toNat + child.gasLeft.toNat := by
    rw [BitVec.toNat_add]
    omega
  have hsgl : (c.ev.stateGasLeft + child.stateGasLeft).toNat =
      c.ev.stateGasLeft.toNat + req.reservoir.toNat := by
    rw [hc.reservoir hfail, BitVec.toNat_add]
    omega
  have hreg : (c.ev.regularGasUsed + child.regularGasUsed).toNat =
      c.ev.regularGasUsed.toNat + child.regularGasUsed.toNat := by
    rw [BitVec.toNat_add]
    omega
  refine ⟨⟨?_, ?_, ?_⟩, hm, ha, herr, hs⟩
  · rw [Frame.gasTotal]
    dsimp only
    omega
  · rw [Frame.stateBalance]
    dsimp only
    omega
  · dsimp only
    omega

omit [Keccak] [Crypto] in
theorem triple_incorporateChildOnSuccess (hG : G < 2 ^ 52) (hR : R + 981 * G < 2 ^ 61) {req : Msg}
    {child : Frame} (hc : Ended req.gas.toNat req.reservoir.toNat req 0 child)
    (hok : child.error = none) {E : Exn → Ctx → Prop} :
    Triple (Aside G req.gas (R - req.reservoir.toNat) m a) (incorporateChildOnSuccess child)
      (fun _ => InFrame G R m a) E := by
  have hrun : incorporateChildOnSuccess child = modifyEv fun e =>
      { (e.absorb child).repayStateGasSpill with
        logs := e.logs ++ child.logs
        refund := e.refund + child.refund
        delete := htabUnionInto e.delete child.delete } := rfl
  rw [hrun]
  refine triple_modifyEv fun c h => ?_
  obtain ⟨G', hG', hgas, hm, ha, herr, hs⟩ := h
  have hsum := ((hgas.absorb (hc.gas hok) (by omega) (by omega)).repay (by omega))
  rw [hG'] at hsum
  exact ⟨⟨hsum.total, hsum.state, hsum.writes⟩, hm, ha, herr, hs⟩

omit [Keccak] [Crypto] in
theorem triple_childFailed (hG : G < 2 ^ 52) (hR : R + 981 * G < 2 ^ 61) {req : Msg}
    {child : Frame} (hc : Ended req.gas.toNat req.reservoir.toNat req 0 child)
    (hfail : child.error ≠ none) (charged : Bool) :
    Triple (Aside G req.gas (R - req.reservoir.toNat - (newAccountGas charged).toNat) m a)
      (childFailed child charged) (fun _ => InFrame G R m a) (Failing G m a) := by
  unfold childFailed
  refine .bind (Q := fun _ => Aside G req.gas (R - (newAccountGas charged).toNat -
    req.reservoir.toNat) m a) (.modify fun c h => ?_) fun _ => ?_
  · rw [sub_right_comm]
    exact Aside.of_ev (c := c) rfl h
  refine .bind (triple_incorporateChildOnError hG (by omega) hc hfail) fun _ => ?_
  refine .bind (triple_creditNewAccount hG (by omega) charged) fun _ => ?_
  exact .bind (triple_local hG inferInstance) fun _ => triple_local hG inferInstance

omit [Keccak] [Crypto] in
instance (child : Frame) (outStart outSize : Word) :
    Keeps Local (copyOutput child outStart outSize) := by
  unfold copyOutput
  infer_instance

omit [Keccak] [Crypto] in
theorem triple_childTail (hG : G < 2 ^ 52) (hR : R + 981 * G < 2 ^ 61) {req : ChildReq}
    {child : Frame}
    (hc : Ended req.msg.gas.toNat req.msg.reservoir.toNat req.msg 0 child) :
    Triple (Requested G R m a (some req)) (childTail req child) (fun _ => InFrame G R m a)
      (Failing G m a) := by
  have hfailed (hfail : child.error ≠ none) : Triple (Requested G R m a (some req))
      (childFailed child req.newAccountCharged) (fun _ => InFrame G R m a) (Failing G m a) :=
    triple_childFailed hG hR hc hfail _
  have habsorb (hok : child.error = none) : Triple (Requested G R m a (some req))
      (incorporateChildOnSuccess child) (fun _ => InFrame G R m a) (Failing G m a) :=
    (triple_incorporateChildOnSuccess hG hR hc hok).pre fun c h => by
      obtain ⟨G', hG', hf⟩ := h
      exact ⟨G', hG', hf.mono (by omega)⟩
  unfold childTail genericCreateTail genericCallTail
  split
  · split
    · next hfail => exact hfailed hfail
    · next hok =>
      refine .bind (habsorb (not_not.mp hok)) fun _ => ?_
      exact .bind (triple_local hG inferInstance) fun _ => triple_local hG inferInstance
  · split
    · next hfail =>
      exact .bind (hfailed hfail) fun _ => triple_local hG inferInstance
    · next hok =>
      refine .bind (habsorb (not_not.mp hok)) fun _ => ?_
      refine .bind (triple_local hG inferInstance) fun _ => ?_
      exact .bind (triple_local hG inferInstance) fun _ => triple_local hG inferInstance

/-! ## Instructions with their children -/

omit [Keccak] [Crypto] in
/-- The gas of a child is within the bounds of its caller's. -/
theorem Requested.bounds {req : ChildReq} {c : Ctx} (h : Requested G R m a (some req) c) :
    req.msg.gas.toNat ≤ G ∧
      (req.msg.reservoir.toNat : Int) + 981 * req.msg.gas.toNat ≤ R + 981 * G := by
  obtain ⟨G', hG', hf⟩ := h
  have htotal := hf.gas.total
  have hstate := hf.gas.state
  have hwrites := hf.gas.writes
  have hnet := neg_le_stateNet c.ev.slotWrites
  unfold Frame.gasTotal at htotal
  unfold Frame.stateBalance at hstate
  omega

omit [Crypto] in
theorem triple_afterChild (hG : G < 2 ^ 52) (hR : R + 981 * G < 2 ^ 61) {req : ChildReq}
    {parent : Ctx} (hparent : Requested G R m a (some req) parent) (csnapshot : Nat) :
    Triple (fun c => Ended req.msg.gas.toNat req.msg.reservoir.toNat req.msg 0 c.ev)
      (afterChild w req csnapshot parent.ev) (fun _ => InFrame G R m a) (Failing G m a) := by
  obtain ⟨hle, hbound⟩ := hparent.bounds
  have hclose : Triple
      (fun c => Ended req.msg.gas.toNat req.msg.reservoir.toNat req.msg 0 c.ev)
      (closeChild w req csnapshot)
      (fun _ c => Ended req.msg.gas.toNat req.msg.reservoir.toNat req.msg 0 c.ev)
      (Failing G m a) := by
    unfold closeChild
    split
    · exact (triple_closeCreate w (by omega) (by omega) req.msg csnapshot).fails
        fun _ _ he hne => absurd he hne
    · exact .pure fun _ h => h
  unfold afterChild
  refine .bind hclose fun _ => .bind triple_getEv fun child => ?_
  refine .pre (P := fun c => Ended req.msg.gas.toNat req.msg.reservoir.toNat req.msg 0 child ∧
    True) (.of_fact fun hc => ?_) fun c h => ⟨by rw [h.1]; exact h.2, trivial⟩
  refine .bind (Q := fun _ => Requested G R m a (some req))
    (triple_modifyEv fun c _ => Aside.of_ev (c := parent) rfl hparent) fun _ => ?_
  exact .bind (triple_childTail hG hR hc) fun _ => triple_local hG inferInstance

/-- A child and the tail of the instruction that called it. -/
theorem triple_runChild (hG : G < 2 ^ 52) (hR : R + 981 * G < 2 ^ 61) {run : EvmM Unit}
    (hrun : RunGas run) (req : ChildReq) :
    Triple (Requested G R m a (some req)) (runChild w run req) (fun _ => InFrame G R m a)
      (Failing G m a) := by
  have hbody {c : Ctx} (h : Requested G R m a (some req) c) (snap : Nat) : Triple
      (InFrame req.msg.gas.toNat req.msg.reservoir.toNat req.msg 0)
      (guardedBody w run >>= fun _ => afterChild w req snap c.ev)
      (fun _ => InFrame G R m a) (Failing G m a) := by
    obtain ⟨hle, hbound⟩ := h.bounds
    refine .bind ?_ fun _ => triple_afterChild w hG hR h snap
    exact (triple_guardedBody w (by omega) (by omega) hrun).fails fun _ _ he hne => absurd he hne
  have hdepth : ¬ stackDepthLimit < req.msg.depth := Nat.not_lt.mpr req.depth_le
  refine ⟨fun {c c' _} h hrunc => ?_, fun {c c' e} h hrunc => ?_⟩
  · cases ho : openChild w req c with
    | error e c₁ =>
      rw [runChild_error ho] at hrunc
      cases hrunc
    | ok snap c₁ =>
      have h₁ := Aside.of_ev (openChild_ev ho) h
      rw [runChild_open ho hdepth] at hrunc
      exact (hbody h₁ snap).ok (inFrame_frameNew _ _ _) hrunc
  · cases ho : openChild w req c with
    | error e₁ c₁ =>
      rw [runChild_error ho] at hrunc
      cases hrunc
      exact fun hne => absurd (openChild_fatal ho) hne
    | ok snap c₁ =>
      have h₁ := Aside.of_ev (openChild_ev ho) h
      rw [runChild_open ho hdepth] at hrunc
      exact (hbody h₁ snap).error (inFrame_frameNew _ _ _) hrunc

theorem runGas_executeOp {run : EvmM Unit} (hrun : RunGas run) (op : Nat) :
    RunGas (executeOp w run op) := by
  intro G R m a hG hR
  unfold executeOp
  refine .bind (triple_opDispatch w hG hR op) fun started => ?_
  cases started with
  | none => exact .pure fun _ h => h
  | some req => exact triple_runChild w hG hR hrun req

/-- The code of a frame keeps its gas, by induction on the bound of the recursion. -/
theorem runGas_executeCode (fuel : Nat) : RunGas (executeCode w fuel) := by
  induction fuel with
  | zero => exact fun _ _ _ _ _ _ => Triple.throw fun _ h => h.failing _
  | succ fuel ih =>
    intro G R m a hG hR
    unfold executeCode
    refine .bind (triple_local hG inferInstance) fun e => ?_
    split
    · exact .pure fun _ h => h
    · exact .bind (runGas_executeOp w ih _ G R m a hG hR) fun _ => ih G R m a hG hR

end

end StatelessGuest
