import StatelessGuest.Evm.Recursive
import StatelessGuest.State.Fatal

/-!
# The frame machine refines the recursive interpreter

The simulation runs along the recursion's bound. What the recursion does inside one frame, the
machine does in a stretch of rounds below which the suspended frames stay as they are, so a
parent is resumed once, at the end of its child's stretch, with the frame and the continuation
it was suspended with.

* `Sim`: the machine against the guarded execution of the current frame's code.
* `StepSim`: the machine against one instruction with everything it calls.
* `frame_loop_refines`: the theorem.
-/

namespace StatelessGuest

open Lib

/-! ## Runs of lifted programs -/

section

variable {α : Type} {m : Machine} {c : Ctx}

theorem liftCtx_ok {x : EvmM α} {a : α} (h : x m.ctx = .ok a c) :
    liftCtx x m = .ok a { m with ctx := c } := by
  unfold liftCtx
  rw [h]

theorem liftCtx_error {x : EvmM α} {e : Exn} (h : x m.ctx = .error e c) :
    liftCtx x m = .error e { m with ctx := c } := by
  unfold liftCtx
  rw [h]

end

theorem liftCtx_bind {α β : Type} (x : EvmM α) (f : α → EvmM β) :
    liftCtx (x >>= f) = liftCtx x >>= fun a => liftCtx (f a) := by
  funext m
  rw [bind_run]
  cases hx : x m.ctx with
  | ok a c =>
    rw [liftCtx_ok hx]
    unfold liftCtx
    rw [bind_run_ok hx]
  | error e c =>
    rw [liftCtx_error hx, liftCtx_error (bind_run_error hx)]

section

variable {σ α : Type} {x : EStateM Exn σ α} {h : EvmErr → EStateM Exn σ α} {s s' : σ}

theorem catchEvm_ok {a : α} (hx : x s = .ok a s') : catchEvm x h s = .ok a s' := by
  rw [catchEvm, tryCatch_run, hx]

theorem catchEvm_evm {e : EvmErr} (hx : x s = .error (.evm e) s') :
    catchEvm x h s = h e s' := by
  rw [catchEvm, tryCatch_run, hx]

theorem catchEvm_congr {y : EStateM Exn σ α} (hx : x s = y s') :
    catchEvm x h s = catchEvm y h s' := by
  rw [catchEvm, catchEvm, tryCatch_run, tryCatch_run, hx]

theorem catchEvm_fatal {e : Exn} (he : e.Fatal) (hx : x s = .error e s') :
    catchEvm x h s = .error e s' := by
  rw [catchEvm, tryCatch_run, hx]
  cases e with
  | evm _ => exact he.elim
  | _ => rfl

end

/-- A frame finished with an error. -/
def Frame.failed (e : Frame) (err : EvmErr) : Frame :=
  if err = .revert then { e.refillFrameStateGas with error := some err }
  else { e.refillFrameStateGas with
    regularGasUsed := e.regularGasUsed + (e.gasLeft + e.stateGasSpilled)
    gasLeft := 0
    error := some err
    output := [] }

theorem frameFail_run (err : EvmErr) (c : Ctx) :
    frameFail err c = .ok () { c with ev := c.ev.failed err } := by
  unfold frameFail Frame.failed
  by_cases h : err = .revert
  · simp only [if_pos h]
    rfl
  · simp only [if_neg h]
    rfl

/-- A guarded program does not end with an error of the frame. -/
theorem fatal_of_guarded {x : EvmM Unit} {c c' : Ctx} {e : Exn}
    (h : catchEvm x frameFail c = .error e c') : e.Fatal ∧ x c = .error e c' := by
  cases hx : x c with
  | ok a c'' =>
    rw [catchEvm_ok hx] at h
    cases h
  | error e' c'' =>
    obtain he | ⟨err, rfl⟩ := e'.fatal_or
    · rw [catchEvm_fatal he hx] at h
      cases h
      exact ⟨he, rfl⟩
    · rw [catchEvm_evm hx, frameFail_run] at h
      cases h

namespace Machine

/-- The machine with its current frame finished or at the end of its code. -/
def finished (m : Machine) (c : Ctx) (done : Bool) : Machine :=
  { m with ctx := c, cont := { m.cont with done := done } }

/-- The machine whose current frame ended with an error. -/
def excepted (m : Machine) (c : Ctx) (err : EvmErr) : Machine :=
  m.finished { c with ev := c.ev.failed err } true

end Machine

theorem frameException_run (err : EvmErr) (m : Machine) :
    frameException err m = .ok () (m.excepted m.ctx err) := by
  rw [frameException, bind_run_ok (liftCtx_ok (frameFail_run err m.ctx))]
  rfl

theorem frameClose_run {m : Machine} {parent : Frame} {pcont : Cont} {rest : List (Frame × Cont)}
    (h : m.suspended = (parent, pcont) :: rest) :
    frameClose m = .ok m.ctx.ev ⟨{ m.ctx with ev := parent }, pcont, rest⟩ := by
  rw [frameClose, bind_run, get_run]
  simp only [h]
  rfl

theorem frameClose_ok (m : Machine) : ∃ e m', frameClose m = .ok e m' := by
  cases hs : m.suspended with
  | nil =>
    refine ⟨m.ctx.ev, m, ?_⟩
    rw [frameClose, bind_run, get_run]
    simp only [hs]
    rfl
  | cons caller below => exact ⟨_, _, frameClose_run hs⟩

section

variable [Keccak] [Crypto] {w : Witness}

/-! ## Single rounds -/

/-- The current frame is not marked as finished and is at an instruction. -/
structure Machine.At (m : Machine) (op : Nat) : Prop where
  running : m.cont.done = false
  opcode : m.ctx.ev.opcode? = some op

theorem frameRound_at {m : Machine} {op : Nat} (h : m.At op) :
    frameRound w m = (catchEvm (runOp w op) frameException >>= fun _ => pure none) m := by
  rw [frameRound, bind_run, get_run]
  simp only [h.running, h.opcode, Bool.false_eq_true, if_false]

/-- The current frame has nothing left to run. -/
def Machine.Over (m : Machine) : Prop := m.cont.done = true ∨ m.ctx.ev.opcode? = none

theorem frameRound_over {m : Machine} (h : m.Over) :
    frameRound w m = (do
      liftCtx (frameEpilogue m.cont.snapshot)
      if m.cont.kind = .transaction then return some (← frameClose)
      else
        catchEvm (finishChild w) frameException
        return none : MachineM (Option Frame)) m := by
  rw [frameRound, bind_run, get_run]
  obtain h | h := h
  · simp only [h, if_true]
  · simp only [h, ite_self]

theorem frameRound_evm {m : Machine} {op : Nat} {c : Ctx} {err : EvmErr} {m' : Machine}
    (h : m.At op) (hrun : runOp w op m = .error (.evm err) m') (hc : m'.ctx = c)
    (hcont : m'.cont = m.cont) (hs : m'.suspended = m.suspended) :
    frameRound w m = .ok none (m.excepted c err) := by
  rw [frameRound_at h, bind_run_ok ((catchEvm_evm hrun).trans (frameException_run err m'))]
  subst hc
  rw [pure_run, Machine.excepted, Machine.excepted, Machine.finished, Machine.finished, hcont, hs]

theorem frameRound_fatal {m m' : Machine} {op : Nat} {e : Exn} (h : m.At op) (he : e.Fatal)
    (hrun : runOp w op m = .error e m') : frameRound w m = .error e m' := by
  rw [frameRound_at h, bind_run_error (catchEvm_fatal he hrun)]

theorem frameRound_ok {m m' : Machine} {op : Nat} (h : m.At op)
    (hrun : runOp w op m = .ok () m') : frameRound w m = .ok none m' := by
  rw [frameRound_at h, bind_run_ok (catchEvm_ok hrun)]
  rfl

/-! ## Simulations -/

/-- The suspended frames `base` are below everything. -/
def Above (base : List (Frame × Cont)) (m : Machine) : Prop := base <:+ m.suspended

omit [Keccak] [Crypto] in
theorem Above.mono {base base' : List (Frame × Cont)} (h : base <:+ base') (m : Machine)
    (hm : Above base' m) : Above base m := h.trans hm

/-- The rounds from `m` do what a guarded execution of its frame's code did. -/
inductive Sim (w : Witness) (fuel : Nat) (m : Machine) :
    EStateM.Result Exn Ctx Unit → Prop where
  | ok {n : Nat} {c : Ctx} {done : Bool}
      (hgo : Goes (frameRound w) (Above m.suspended) n m (m.finished c done))
      (hover : (m.finished c done).Over) : Sim w fuel m (.ok () c)
  | error {n : Nat} {m' m'' : Machine} {e : Exn}
      (hgo : Goes (frameRound w) (Above m.suspended) n m m')
      (hround : frameRound w m' = .error e m'') : Sim w fuel m (.error e m''.ctx)
  | starve {c : Ctx} (h : Starves .outOfFuel (frameRound w) fuel m) :
      Sim w fuel m (.error .outOfFuel c)

/-- The rounds from `m` do what one instruction, with everything it calls, did; after the first
round the frames of `base` stay suspended until the last. -/
inductive StepSim (w : Witness) (fuel : Nat) (m : Machine) (base : List (Frame × Cont)) :
    EStateM.Result Exn Ctx Unit → Prop where
  | ok {m' : Machine} {n : Nat} {c : Ctx} (hround : frameRound w m = .ok none m')
      (hgo : Goes (frameRound w) (Above base) n m' { m with ctx := c }) :
      StepSim w fuel m base (.ok () c)
  | evm {m' : Machine} {n : Nat} {c : Ctx} {err : EvmErr}
      (hround : frameRound w m = .ok none m')
      (hgo : Goes (frameRound w) (Above base) n m' (m.excepted c err)) :
      StepSim w fuel m base (.error (.evm err) c)
  | error {n : Nat} {m' m'' : Machine} {e : Exn} (he : e.Fatal)
      (hgo : Goes (frameRound w) (Above m.suspended) n m m')
      (hround : frameRound w m' = .error e m'') : StepSim w fuel m base (.error e m''.ctx)
  | starve {c : Ctx} (h : Starves .outOfFuel (frameRound w) (fuel + 1) m) :
      StepSim w fuel m base (.error .outOfFuel c)

/-! ## Starting a frame -/

theorem executeBody_complete {run : EvmM Unit} {c c' : Ctx}
    (h : framePrologue w c = .ok true c') : executeBody w run c = .ok () c' := by
  rw [executeBody, bind_run_ok h]
  rfl

theorem executeBody_code {run : EvmM Unit} {c c' : Ctx}
    (h : framePrologue w c = .ok false c') : executeBody w run c = run c' := by
  rw [executeBody, bind_run_ok h]
  rfl

theorem executeBody_error {run : EvmM Unit} {c c' : Ctx} {e : Exn}
    (h : framePrologue w c = .error e c') : executeBody w run c = .error e c' := by
  rw [executeBody, bind_run_error h]

omit [Keccak] [Crypto] in
theorem Machine.finished_false {m : Machine} (hd : m.cont.done = false) (c : Ctx) :
    m.finished c false = { m with ctx := c } := by
  rw [Machine.finished, ← hd]

theorem frameStart_complete {m : Machine} {c : Ctx} (h : framePrologue w m.ctx = .ok true c) :
    frameStart w m = .ok () (m.finished c true) := by
  rw [frameStart, bind_run_ok (catchEvm_ok (liftCtx_ok h))]
  rfl

theorem frameStart_code {m : Machine} {c : Ctx} (h : framePrologue w m.ctx = .ok false c) :
    frameStart w m = .ok () { m with ctx := c } := by
  rw [frameStart, bind_run_ok (catchEvm_ok (liftCtx_ok h))]
  rfl

theorem frameStart_evm {m : Machine} {c : Ctx} {err : EvmErr}
    (h : framePrologue w m.ctx = .error (.evm err) c) :
    frameStart w m = .ok () (m.excepted c err) := by
  have hcatch := catchEvm_evm (h := fun err => do frameException err; return false)
    (liftCtx_error (m := m) h)
  rw [bind_run_ok (frameException_run err _), pure_run] at hcatch
  rw [frameStart, bind_run_ok hcatch]
  rfl

theorem frameStart_fatal {m : Machine} {c : Ctx} {e : Exn} (he : e.Fatal)
    (h : framePrologue w m.ctx = .error e c) :
    frameStart w m = .error e { m with ctx := c } := by
  rw [frameStart, bind_run_error (catchEvm_fatal he (liftCtx_error h))]

/-- The prologue of a frame either ends the run in both interpreters, or leaves a machine that
simulates the rest of the guarded body. -/
theorem frameStart_sim {fuel : Nat} {m : Machine} (hd : m.cont.done = false)
    (hcode : ∀ c, Sim w fuel { m with ctx := c } (catchEvm (executeCode w fuel) frameFail c)) :
    (∃ e m', frameStart w m = .error e m' ∧ e.Fatal ∧
        catchEvm (executeBody w (executeCode w fuel)) frameFail m.ctx = .error e m'.ctx) ∨
      ∃ c done, frameStart w m = .ok () (m.finished c done) ∧
        Sim w fuel (m.finished c done)
          (catchEvm (executeBody w (executeCode w fuel)) frameFail m.ctx) := by
  cases hp : framePrologue w m.ctx with
  | ok complete c =>
    cases complete with
    | true =>
      refine .inr ⟨c, true, frameStart_complete hp, ?_⟩
      rw [catchEvm_ok (executeBody_complete hp)]
      exact .ok (.refl _) (.inl rfl)
    | false =>
      refine .inr ⟨c, false, ?_, ?_⟩
      · rw [frameStart_code hp, Machine.finished_false hd]
      · rw [Machine.finished_false hd, catchEvm_congr (executeBody_code hp)]
        exact hcode c
  | error e c =>
    obtain he | ⟨err, rfl⟩ := e.fatal_or
    · exact .inl ⟨e, _, frameStart_fatal he hp, he, catchEvm_fatal he (executeBody_error hp)⟩
    · refine .inr ⟨_, true, frameStart_evm hp, ?_⟩
      rw [catchEvm_evm (executeBody_error hp), frameFail_run]
      exact .ok (.refl _) (.inl rfl)

/-! ## One child in the recursion -/

variable (w) in
/-- Close the frame of a child, a creation with its code. -/
def closeChild (req : ChildReq) (csnapshot : Nat) : EvmM Unit :=
  if req.kind = .create then closeCreate w req.msg csnapshot else return ()

variable (w) in
/-- What is left once the frame of a child has its epilogue. -/
def afterChild (req : ChildReq) (csnapshot : Nat) (parent : Frame) : EvmM Unit := do
  closeChild w req csnapshot
  let child ← getEv
  setEv parent
  childTail req child
  pcAdd 1

/-- A child's message, its frame opened. -/
theorem recProcessMessage_child {run : EvmM Unit} {req : ChildReq} {c : Ctx}
    (hdepth : ¬ stackDepthLimit < req.msg.depth) :
    recProcessMessage w run req.msg c = (do
      guardedBody w run
      let child ← getEv
      setEv c.ev
      return child : EvmM Frame)
        { c with ev := frameNew req.msg c.accAddrs.count c.accKeys.count } := by
  unfold recProcessMessage recPrepareMessage
  rw [if_neg hdepth]
  simp only [if_neg req.below]
  rfl

theorem recProcessMessage_deep {run : EvmM Unit} {msg : Msg} {c : Ctx}
    (hdepth : stackDepthLimit < msg.depth) :
    recProcessMessage w run msg c = .error (.evm .stackDepthLimit) c := by
  unfold recProcessMessage
  rw [if_pos hdepth]
  rfl

/-- The message of a child, from the context it is started in. -/
theorem childMessageRun_eq {run : EvmM Unit} {req : ChildReq} {c c' : Ctx} {snap : Nat}
    (h : openChild w req c = .ok snap c') :
    childMessageRun w run req c = (do
      let child ← recProcessMessage w run req.msg
      if req.kind = .create then closeCreateOf w req.msg snap child else return child :
        EvmM Frame) c' := by
  unfold openChild at h
  unfold childMessageRun
  by_cases hk : req.kind = .create
  · rw [if_pos hk] at h ⊢
    simp only [if_pos hk]
    rw [recProcessCreateMessage, bind_run_ok h]
  · rw [if_neg hk] at h ⊢
    simp only [if_neg hk]
    cases h
    rw [bind_pure]

theorem runChild_error {run : EvmM Unit} {req : ChildReq} {c c' : Ctx} {e : Exn}
    (h : openChild w req c = .error e c') : runChild w run req c = .error e c' := by
  have hrun : childMessageRun w run req c = .error e c' := by
    unfold openChild at h
    unfold childMessageRun
    by_cases hk : req.kind = .create
    · rw [if_pos hk] at h ⊢
      rw [recProcessCreateMessage, bind_run_error h]
    · rw [if_neg hk] at h
      cases h
  rw [runChild, bind_run_error hrun]

theorem runChild_deep {run : EvmM Unit} {req : ChildReq} {c c' : Ctx} {snap : Nat}
    (h : openChild w req c = .ok snap c') (hdepth : stackDepthLimit < req.msg.depth) :
    runChild w run req c = .error (.evm .stackDepthLimit) c' := by
  have hrun : childMessageRun w run req c = .error (.evm .stackDepthLimit) c' := by
    rw [childMessageRun_eq h, bind_run_error (recProcessMessage_deep hdepth)]
  rw [runChild, bind_run_error hrun]

omit [Crypto] in
/-- A child closed from its caller leaves what closing it in its own frame leaves. -/
theorem closeChild_eq (req : ChildReq) (snap : Nat) (parent : Frame) (c : Ctx) :
    (if req.kind = .create then closeCreateOf w req.msg snap c.ev else return c.ev :
        EvmM Frame) { c with ev := parent } =
      (do
        closeChild w req snap
        let child ← getEv
        setEv parent
        return child : EvmM Frame) c := by
  unfold closeChild
  by_cases hk : req.kind = .create
  · simp only [if_pos hk]
    rfl
  · simp only [if_neg hk]
    rfl

theorem runChild_open {run : EvmM Unit} {req : ChildReq} {c c' : Ctx} {snap : Nat}
    (h : openChild w req c = .ok snap c') (hdepth : ¬ stackDepthLimit < req.msg.depth) :
    runChild w run req c = (do
      guardedBody w run
      afterChild w req snap c'.ev : EvmM Unit)
        { c' with ev := frameNew req.msg c'.accAddrs.count c'.accKeys.count } := by
  have hmsg : recProcessMessage w run req.msg c' = _ := recProcessMessage_child hdepth
  rw [runChild, bind_run, childMessageRun_eq h, bind_run, hmsg, bind_run, bind_run]
  cases hbody : guardedBody w run { c' with
    ev := frameNew req.msg c'.accAddrs.count c'.accKeys.count } with
  | error e c'' => rfl
  | ok _ c'' =>
    have hclose := closeChild_eq (w := w) req snap c'.ev c''
    change ((if req.kind = .create then closeCreateOf w req.msg snap c''.ev else return c''.ev :
      EvmM Frame) >>= fun child => do childTail req child; pcAdd 1) { c'' with ev := c'.ev } = _
    rw [bind_run, hclose, bind_run]
    change _ = afterChild w req snap c'.ev c''
    rw [afterChild, bind_run]
    cases closeChild w req snap c'' with
    | ok _ _ => rfl
    | error _ _ => rfl

/-! ## One child in the machine -/

/-- The continuation record of a child. -/
def ChildReq.cont (req : ChildReq) (csnapshot snapshot : Nat) : Cont where
  kind := req.kind
  snapshot := snapshot
  done := false
  msg := req.msg
  newAccountCharged := req.newAccountCharged
  outStart := req.outStart
  outSize := req.outSize
  contract := req.contract
  csnapshot := csnapshot

/-- The machine with a child's frame opened. -/
def Machine.child (m : Machine) (req : ChildReq) (c : Ctx) (csnapshot : Nat) : Machine where
  ctx := { c with ev := frameNew req.msg c.accAddrs.count c.accKeys.count }
  cont := req.cont csnapshot c.tk.journal.length
  suspended := (c.ev, m.cont) :: m.suspended

theorem startChild_error {m : Machine} {req : ChildReq} {c : Ctx} {e : Exn}
    (h : openChild w req m.ctx = .error e c) :
    startChild w req m = .error e { m with ctx := c } := by
  rw [startChild, bind_run_error (liftCtx_error h)]

theorem startChild_deep {m : Machine} {req : ChildReq} {c : Ctx} {snap : Nat}
    (h : openChild w req m.ctx = .ok snap c) (hdepth : stackDepthLimit < req.msg.depth) :
    startChild w req m = .error (.evm .stackDepthLimit) { m with ctx := c } := by
  rw [startChild, bind_run_ok (liftCtx_ok h), if_pos hdepth]
  rfl

theorem startChild_open {m : Machine} {req : ChildReq} {c : Ctx} {snap : Nat}
    (h : openChild w req m.ctx = .ok snap c) (hdepth : ¬ stackDepthLimit < req.msg.depth) :
    startChild w req m = frameStart w (m.child req c snap) := by
  rw [startChild, bind_run_ok (liftCtx_ok h), if_neg hdepth]
  rfl

omit [Crypto] in
theorem closeCreate_fatal {msg : Msg} {snap : Nat} {c c' : Ctx} {e : Exn}
    (h : closeCreate w msg snap c = .error e c') : e.Fatal := by
  rw [closeCreate, bind_run] at h
  change (if c.ev.error = none then _ else _ : EvmM Unit) c = _ at h
  split at h
  · cases hx : createFinish w msg c with
    | ok a c'' =>
      rw [catchEvm_ok hx] at h
      cases h
    | error e' c'' =>
      obtain he | ⟨err, rfl⟩ := e'.fatal_or
      · rw [catchEvm_fatal he hx] at h
        cases h
        exact he
      · rw [catchEvm_evm hx] at h
        cases h
  · cases h

omit [Crypto] in
theorem closeChild_fatal {req : ChildReq} {snap : Nat} {c c' : Ctx} {e : Exn}
    (h : closeChild w req snap c = .error e c') : e.Fatal := by
  unfold closeChild at h
  split at h
  · exact closeCreate_fatal h
  · cases h

omit [Crypto] in
/-- The end of a child is run in its caller's frame once the child is closed. -/
theorem finishChild_eq {m : Machine} {req : ChildReq} {csnap : Nat} {snap : Nat} {done : Bool}
    (hc : m.cont = { req.cont csnap snap with done := done }) :
    finishChild w m = (do
      liftCtx (closeChild w req csnap)
      let child ← frameClose
      liftCtx (childTail req child)
      liftCtx (pcAdd 1) : MachineM Unit) m := by
  rw [finishChild, bind_run, get_run]
  dsimp only
  rw [hc]
  rfl

omit [Crypto] in
/-- What the machine is after the end of a child, given what the recursion leaves. -/
theorem finishChild_sim {m : Machine} {req : ChildReq} {csnap snap : Nat} {done : Bool}
    {parent : Frame} {pcont : Cont} {rest : List (Frame × Cont)}
    (hc : m.cont = { req.cont csnap snap with done := done })
    (hs : m.suspended = (parent, pcont) :: rest) :
    (∀ c, afterChild w req csnap parent m.ctx = .ok () c →
      finishChild w m = .ok () ⟨c, pcont, rest⟩) ∧
    (∀ err c, afterChild w req csnap parent m.ctx = .error (.evm err) c →
      finishChild w m = .error (.evm err) ⟨c, pcont, rest⟩) ∧
    ∀ e c, e.Fatal → afterChild w req csnap parent m.ctx = .error e c →
      ∃ m', finishChild w m = .error e m' ∧ m'.ctx = c := by
  rw [finishChild_eq hc]
  cases hclose : closeChild w req csnap m.ctx with
  | error e' c' =>
    have hfatal := closeChild_fatal hclose
    have hafter : afterChild w req csnap parent m.ctx = .error e' c' := bind_run_error hclose
    have hmach := bind_run_error (liftCtx_error (m := m) hclose)
      (f := fun _ => do
        let child ← frameClose
        liftCtx (childTail req child)
        liftCtx (pcAdd 1))
    rw [hafter]
    refine ⟨fun c h => (by cases h), fun err c h => ?_, fun e c _ h => ?_⟩
    · cases h
      exact hfatal.elim
    · cases h
      exact ⟨_, hmach, rfl⟩
  | ok _ c' =>
    have hafter : afterChild w req csnap parent m.ctx =
        (childTail req c'.ev >>= fun _ => pcAdd 1) { c' with ev := parent } :=
      bind_run_ok hclose
    have hframe := frameClose_run (m := { m with ctx := c' }) hs
    rw [bind_run_ok (liftCtx_ok hclose), bind_run_ok hframe, ← liftCtx_bind, hafter]
    exact ⟨fun c h => liftCtx_ok h, fun err c h => liftCtx_error h,
      fun e c _ h => ⟨_, liftCtx_error h, rfl⟩⟩

/-! ## The simulation of a child -/

omit [Crypto] in
theorem openChild_ok {req : ChildReq} {c c' : Ctx} {snap : Nat}
    (h : openChild w req c = .ok snap c') : ∃ s, c' = { c with tk := s } := by
  unfold openChild at h
  split at h
  · obtain ⟨s, -, rfl⟩ := of_liftState_ok h
    exact ⟨s, rfl⟩
  · cases h
    exact ⟨c.tk, rfl⟩

omit [Crypto] in
theorem openChild_ev {req : ChildReq} {c c' : Ctx} {snap : Nat}
    (h : openChild w req c = .ok snap c') : c'.ev = c.ev := by
  obtain ⟨s, rfl⟩ := openChild_ok h
  rfl

omit [Crypto] in
theorem openChild_fatal {req : ChildReq} {c c' : Ctx} {e : Exn}
    (h : openChild w req c = .error e c') : e.Fatal := by
  have hopen : Throws Exn.Fatal (openCreate w req.msg.currentTarget) := by
    unfold openCreate
    infer_instance
  unfold openChild at h
  split at h
  · obtain ⟨s, hs, -⟩ := of_liftState_error h
    exact hopen.error hs
  · cases h

omit [Keccak] [Crypto] in
theorem frameEpilogue_ok (snap : Nat) (c : Ctx) : ∃ c', frameEpilogue snap c = .ok () c' := by
  change ∃ c', (if c.ev.error ≠ none then liftState (stateRestore snap) else pure () :
    EvmM Unit) c = .ok () c'
  split
  · exact ⟨_, rfl⟩
  · exact ⟨_, rfl⟩

theorem guardedBody_eq (run : EvmM Unit) (c : Ctx) :
    guardedBody w run c = (do
      catchEvm (executeBody w run) frameFail
      frameEpilogue c.tk.journal.length : EvmM Unit) c := rfl

theorem runOp_child {m : Machine} {op : Nat} {req : ChildReq} {c : Ctx}
    (hop : opDispatch w op m.ctx = .ok (some req) c) :
    runOp w op m = startChild w req { m with ctx := c } := by
  rw [runOp, bind_run_ok (liftCtx_ok hop)]

/-- A round that ends the frame of a child, given what the recursion leaves. -/
theorem frameRound_child {m : Machine} {req : ChildReq} {csnap snap : Nat} {done : Bool}
    {parent : Frame} {pcont : Cont} {rest : List (Frame × Cont)} {c : Ctx} (hover : m.Over)
    (hc : m.cont = { req.cont csnap snap with done := done })
    (hs : m.suspended = (parent, pcont) :: rest) (hep : frameEpilogue snap m.ctx = .ok () c) :
    (∀ c', afterChild w req csnap parent c = .ok () c' →
      frameRound w m = .ok none ⟨c', pcont, rest⟩) ∧
    (∀ err c', afterChild w req csnap parent c = .error (.evm err) c' →
      frameRound w m = .ok none (Machine.excepted ⟨c', pcont, rest⟩ c' err)) ∧
    ∀ e c', e.Fatal → afterChild w req csnap parent c = .error e c' →
      ∃ m', frameRound w m = .error e m' ∧ m'.ctx = c' := by
  have hfin := finishChild_sim (w := w) (m := { m with ctx := c }) hc hs
  have hround : frameRound w m =
      (catchEvm (finishChild w) frameException >>= fun _ => pure none) { m with ctx := c } := by
    have hkind : ¬ m.cont.kind = .transaction := hc ▸ req.isChild
    have hep' : frameEpilogue m.cont.snapshot m.ctx = .ok () c := hc ▸ hep
    rw [frameRound_over hover, bind_run_ok (liftCtx_ok hep')]
    exact if_neg hkind ▸ rfl
  rw [hround]
  obtain ⟨hok, hevm, hfatal⟩ := hfin
  refine ⟨fun c' h => ?_, fun err c' h => ?_, fun e c' he h => ?_⟩
  · rw [bind_run_ok (catchEvm_ok (hok c' h))]
    rfl
  · rw [bind_run_ok ((catchEvm_evm (hevm err c' h)).trans (frameException_run err _))]
    rfl
  · obtain ⟨m', hm', hctx⟩ := hfatal e c' he h
    exact ⟨m', bind_run_error (catchEvm_fatal he hm'), hctx⟩

/-- One instruction that starts a child does what the recursion does. -/
theorem child_sim {fuel : Nat} {m : Machine} {op : Nat} {req : ChildReq} {c : Ctx}
    (hcode : ∀ m : Machine, m.cont.done = false →
      Sim w fuel m (catchEvm (executeCode w fuel) frameFail m.ctx))
    (hat : m.At op) (hop : opDispatch w op m.ctx = .ok (some req) c) :
    StepSim w fuel m ((c.ev, m.cont) :: m.suspended) (runChild w (executeCode w fuel) req c) := by
  have hrun := runOp_child hop
  cases hopen : openChild w req c with
  | error e c' =>
    rw [startChild_error hopen] at hrun
    rw [runChild_error hopen]
    obtain he | ⟨err, rfl⟩ := e.fatal_or
    · exact .error he (.refl _) (frameRound_fatal hat he hrun)
    · exact .evm (frameRound_evm hat hrun rfl rfl rfl) (.refl _)
  | ok csnap c' =>
    by_cases hdepth : stackDepthLimit < req.msg.depth
    · rw [startChild_deep hopen hdepth] at hrun
      rw [runChild_deep hopen hdepth]
      exact .evm (frameRound_evm hat hrun rfl rfl rfl) (.refl _)
    rw [startChild_open hopen hdepth] at hrun
    rw [runChild_open hopen hdepth, openChild_ev hopen]
    generalize hmch : Machine.child { m with ctx := c } req c' csnap = mch at hrun
    have hctx : { c' with ev := frameNew req.msg c'.accAddrs.count c'.accKeys.count } = mch.ctx := by
      rw [← hmch]
      rfl
    have hcont : mch.cont = req.cont csnap mch.ctx.tk.journal.length := by
      rw [← hmch]
      rfl
    have hsusp : mch.suspended = (c.ev, m.cont) :: m.suspended := by
      rw [← hmch, ← openChild_ev hopen]
      rfl
    have hbase : m.suspended <:+ mch.suspended := hsusp ▸ List.suffix_cons _ _
    rw [hctx]
    have hd : mch.cont.done = false := by
      rw [hcont]
      rfl
    obtain ⟨e, m', hstart, he, hbody⟩ | ⟨c₁, done, hstart, hsim⟩ :=
      frameStart_sim hd fun c => hcode { mch with ctx := c } hd
    · rw [bind_run_error ((guardedBody_eq _ _).trans (bind_run_error hbody))]
      exact .error he (.refl _) (frameRound_fatal hat he (hrun.trans hstart))
    have hround := frameRound_ok hat (hrun.trans hstart)
    generalize hr : catchEvm (executeBody w (executeCode w fuel)) frameFail mch.ctx = r at hsim
    cases hsim with
    | starve h =>
      rw [bind_run_error ((guardedBody_eq _ _).trans (bind_run_error hr))]
      exact .starve (.step hround h)
    | error hgo hround' =>
      rw [bind_run_error ((guardedBody_eq _ _).trans (bind_run_error hr))]
      have hgo' := hgo.mono (Above.mono hbase)
      exact .error (fatal_of_guarded hr).1 (.step (List.suffix_refl _) hround hgo') hround'
    | @ok n c₂ done₂ hgo hover =>
      obtain ⟨c₃, hep⟩ := frameEpilogue_ok mch.ctx.tk.journal.length c₂
      have hguard : guardedBody w (executeCode w fuel) mch.ctx = .ok () c₃ :=
        (guardedBody_eq _ _).trans ((bind_run_ok hr).trans hep)
      rw [bind_run_ok hguard]
      have hend : ((mch.finished c₁ done).finished c₂ done₂).cont =
          { req.cont csnap mch.ctx.tk.journal.length with done := done₂ } := by
        rw [← hcont]
        rfl
      obtain ⟨hok, hevm, hfatal⟩ := frameRound_child (w := w) hover hend hsusp hep
      have hgo' : Goes (frameRound w) (Above ((c.ev, m.cont) :: m.suspended)) n
          (mch.finished c₁ done) ((mch.finished c₁ done).finished c₂ done₂) :=
        hsusp ▸ hgo
      have habove : Above ((c.ev, m.cont) :: m.suspended)
          ((mch.finished c₁ done).finished c₂ done₂) :=
        hsusp ▸ List.suffix_refl _
      cases hafter : afterChild w req csnap c.ev c₃ with
      | ok _ c₄ => exact .ok hround (hgo'.trans (.single habove (hok c₄ hafter)))
      | error e c₄ =>
        obtain he | ⟨err, rfl⟩ := e.fatal_or
        · obtain ⟨m', hm', rfl⟩ := hfatal e c₄ he hafter
          exact .error he (.step (List.suffix_refl _) hround (hgo.mono (Above.mono hbase))) hm'
        · exact .evm hround (hgo'.trans (.single habove (hevm err c₄ hafter)))

/-- One instruction does what the recursion does. -/
theorem executeOp_sim {fuel : Nat} {m : Machine} {op : Nat}
    (hcode : ∀ m : Machine, m.cont.done = false →
      Sim w fuel m (catchEvm (executeCode w fuel) frameFail m.ctx)) (hat : m.At op) :
    StepSim w fuel m m.suspended (executeOp w (executeCode w fuel) op m.ctx) := by
  cases hop : opDispatch w op m.ctx with
  | error e c =>
    have hrun : runOp w op m = .error e { m with ctx := c } := by
      rw [runOp, bind_run_error (liftCtx_error hop)]
    rw [executeOp, bind_run_error hop]
    obtain he | ⟨err, rfl⟩ := e.fatal_or
    · exact .error he (.refl _) (frameRound_fatal hat he hrun)
    · exact .evm (frameRound_evm hat hrun rfl rfl rfl) (.refl _)
  | ok started c =>
    cases started with
    | none =>
      have hrun : runOp w op m = .ok () { m with ctx := c } := by
        rw [runOp, bind_run_ok (liftCtx_ok hop)]
        rfl
      rw [executeOp, bind_run_ok hop]
      exact .ok (frameRound_ok hat hrun) (.refl _)
    | some req =>
      rw [executeOp, bind_run_ok hop]
      have hsim := child_sim hcode hat hop
      have hmono := Above.mono (List.suffix_cons (c.ev, m.cont) m.suspended)
      dsimp only
      generalize runChild w (executeCode w fuel) req c = r at hsim ⊢
      cases hsim with
      | ok hround hgo => exact .ok hround (hgo.mono hmono)
      | evm hround hgo => exact .evm hround (hgo.mono hmono)
      | error he hgo hround => exact .error he hgo hround
      | starve h => exact .starve h

/-! ## The simulation of a frame's code -/

theorem executeCode_none {fuel : Nat} {c : Ctx} (h : c.ev.opcode? = none) :
    executeCode w (fuel + 1) c = .ok () c := by
  rw [executeCode, bind_run_ok (show getEv c = .ok c.ev c from rfl), h]
  rfl

theorem executeCode_some {fuel : Nat} {c : Ctx} {op : Nat} (h : c.ev.opcode? = some op) :
    executeCode w (fuel + 1) c = (do
      executeOp w (executeCode w fuel) op
      executeCode w fuel : EvmM Unit) c := by
  rw [executeCode, bind_run_ok (show getEv c = .ok c.ev c from rfl), h]

/-- The rest of a frame's code, after a stretch that changed only the context. -/
theorem Sim.of_step {fuel n : Nat} {m m' : Machine} {c : Ctx}
    {r : EStateM.Result Exn Ctx Unit} (hround : frameRound w m = .ok none m')
    (hgo : Goes (frameRound w) (Above m.suspended) n m' { m with ctx := c })
    (h : Sim w fuel { m with ctx := c } r) : Sim w (fuel + 1) m r := by
  have hstep : Goes (frameRound w) (Above m.suspended) (n + 1) m { m with ctx := c } :=
    .step (List.suffix_refl _) hround hgo
  cases h with
  | ok hgo' hover => exact .ok (hstep.trans hgo') hover
  | error hgo' hround' => exact .error (hstep.trans hgo') hround'
  | starve h =>
    have hstarve := Starves.of_goes hstep h
    exact .starve (hstarve.mono (by omega))

theorem executeCode_sim (fuel : Nat) (m : Machine) (hd : m.cont.done = false) :
    Sim w fuel m (catchEvm (executeCode w fuel) frameFail m.ctx) := by
  induction fuel generalizing m with
  | zero =>
    have hcode : catchEvm (executeCode w 0) frameFail m.ctx = .error .outOfFuel m.ctx := rfl
    rw [hcode]
    exact .starve (starves_zero m)
  | succ fuel ih =>
    cases hop : m.ctx.ev.opcode? with
    | none =>
      rw [catchEvm_ok (executeCode_none hop)]
      have hgo : Goes (frameRound w) (Above m.suspended) 0 m (m.finished m.ctx false) := by
        rw [Machine.finished_false hd]
        exact .refl m
      exact .ok hgo (.inr hop)
    | some op =>
      have hsim := executeOp_sim ih ⟨hd, hop⟩
      generalize hr : executeOp w (executeCode w fuel) op m.ctx = r at hsim
      cases hsim with
      | @ok m' n c hround hgo =>
        have hcode : executeCode w (fuel + 1) m.ctx = executeCode w fuel c :=
          (executeCode_some hop).trans (bind_run_ok hr)
        rw [catchEvm_congr hcode]
        exact .of_step hround hgo (ih { m with ctx := c } hd)
      | @evm m' n c err hround hgo =>
        have hcode := (executeCode_some hop).trans (bind_run_error hr)
        rw [catchEvm_evm hcode, frameFail_run]
        exact .ok (.step (List.suffix_refl _) hround hgo) (.inl rfl)
      | error he hgo hround =>
        have hcode := (executeCode_some hop).trans (bind_run_error hr)
        rw [catchEvm_fatal he hcode]
        exact .error hgo hround
      | starve h =>
        have hcode := (executeCode_some hop).trans (bind_run_error hr)
        rw [catchEvm_fatal (e := .outOfFuel) trivial hcode]
        exact .starve h

/-! ## Messages of a transaction -/

/-- Some bound lets the machine end as the recursion did, back at the suspended frames it was
started over; a recursion that was cut short cuts the machine short. -/
inductive Ends {α : Type} (x : Nat → EStateM.Result Exn Machine α) (base : Machine) (fuel : Nat) :
    EStateM.Result Exn Ctx α → Prop where
  | ok {k : Nat} {a : α} {c : Ctx} (h : x k = .ok a { base with ctx := c }) :
      Ends x base fuel (.ok a c)
  | error {k : Nat} {e : Exn} {m : Machine} (he : e ≠ .outOfFuel) (h : x k = .error e m) :
      Ends x base fuel (.error e m.ctx)
  | starve {c : Ctx} (h : ∀ k ≤ fuel, ∃ m, x k = .error .outOfFuel m) :
      Ends x base fuel (.error .outOfFuel c)

omit [Keccak] [Crypto] in
/-- An error that does not depend on the bound. -/
theorem Ends.of_error {α : Type} {x : Nat → EStateM.Result Exn Machine α} {base : Machine}
    {fuel : Nat} {e : Exn} {m : Machine} (h : ∀ k, x k = .error e m) :
    Ends x base fuel (.error e m.ctx) := by
  by_cases he : e = .outOfFuel
  · subst he
    exact .starve fun k _ => ⟨m, h k⟩
  · exact .error (k := 0) he (h 0)

/-- The frame of a transaction, run from its prologue on. -/
theorem driveFrame_ends {fuel : Nat} {m base : Machine} {parent : Frame}
    (hd : m.cont.done = false) (hk : m.cont.kind = .transaction)
    (hs : m.suspended = (parent, base.cont) :: base.suspended) :
    Ends (fun k => driveFrame w k m) base fuel ((do
      guardedBody w (executeCode w fuel)
      let child ← getEv
      setEv parent
      return child : EvmM Frame) m.ctx) := by
  generalize hms : { m with cont := { m.cont with snapshot := m.ctx.tk.journal.length } } = ms
  have hdrive : ∀ k, driveFrame w k m = (do
      frameStart w
      runFrames w k : MachineM Frame) ms := by
    intro k
    rw [← hms]
    rfl
  have hctx : m.ctx = ms.ctx := by rw [← hms]
  have hsnap : ms.cont.snapshot = ms.ctx.tk.journal.length := by rw [← hms]
  have hd' : ms.cont.done = false := by rw [← hms]; exact hd
  have hk' : ms.cont.kind = .transaction := by rw [← hms]; exact hk
  have hs' : ms.suspended = (parent, base.cont) :: base.suspended := by rw [← hms]; exact hs
  simp only [hdrive]
  rw [hctx]
  obtain ⟨e, m', hstart, -, hbody⟩ | ⟨c₁, done, hstart, hsim⟩ :=
    frameStart_sim hd' fun c => executeCode_sim fuel { ms with ctx := c } hd'
  · rw [bind_run_error ((guardedBody_eq _ _).trans (bind_run_error hbody))]
    exact .of_error fun k => bind_run_error hstart
  simp only [bind_run_ok hstart]
  generalize hr : catchEvm (executeBody w (executeCode w fuel)) frameFail ms.ctx = r at hsim
  cases hsim with
  | starve h =>
    rw [bind_run_error ((guardedBody_eq _ _).trans (bind_run_error hr))]
    exact .starve h
  | @error n m' m'' e hgo hround =>
    rw [bind_run_error ((guardedBody_eq _ _).trans (bind_run_error hr))]
    by_cases he : e = .outOfFuel
    · subst he
      have hstarve := Starves.of_goes hgo (Starves.of_error (n := fuel) hround)
      exact .starve (hstarve.mono (Nat.le_add_left _ _))
    · exact .error (k := n + 1) he ((hgo.loop_eq 1).trans (loop_error hround 0))
  | @ok n c₂ done₂ hgo hover =>
    obtain ⟨c₃, hep⟩ := frameEpilogue_ok ms.ctx.tk.journal.length c₂
    have hguard : guardedBody w (executeCode w fuel) ms.ctx = .ok () c₃ :=
      (guardedBody_eq _ _).trans ((bind_run_ok hr).trans hep)
    rw [bind_run_ok hguard]
    have hround : frameRound w ((ms.finished c₁ done).finished c₂ done₂) =
        .ok (some c₃.ev) { base with ctx := { c₃ with ev := parent } } := by
      have hep' : frameEpilogue ((ms.finished c₁ done).finished c₂ done₂).cont.snapshot
          ((ms.finished c₁ done).finished c₂ done₂).ctx = .ok () c₃ := by
        rw [← hep, ← hsnap]
        rfl
      have hclose := frameClose_run
        (m := { (ms.finished c₁ done).finished c₂ done₂ with ctx := c₃ }) hs'
      have hkind : ((ms.finished c₁ done).finished c₂ done₂).cont.kind = .transaction := hk'
      rw [frameRound_over hover, bind_run_ok (liftCtx_ok hep'), if_pos hkind]
      exact bind_run_ok hclose
    exact .ok (k := n + 1) ((hgo.loop_eq 1).trans (loop_some hround 0))

omit [Keccak] [Crypto] in
theorem abortPrepare_ok (snap : Nat) (reservoir : Word) (err : EvmErr) (c : Ctx) :
    ∃ c', abortPrepare snap reservoir err c = .ok () c' := ⟨_, rfl⟩

/-- The preparation of a transaction's frame. -/
theorem prepareFrame_sim {m : Machine} {parent : Frame} {pcont : Cont}
    {rest : List (Frame × Cont)} (reservoir : Word) (hs : m.suspended = (parent, pcont) :: rest) :
    (∃ b c, recPrepareFrame w parent reservoir m.ctx = .ok b c ∧
      prepareFrame w reservoir m = .ok b { m with ctx := c }) ∨
    ∃ e m', recPrepareFrame w parent reservoir m.ctx = .error e m'.ctx ∧
      prepareFrame w reservoir m = .error e m' := by
  cases hprep : depth0Prepare w m.ctx with
  | ok _ c =>
    refine .inl ⟨true, c, ?_, ?_⟩
    · exact catchEvm_ok (bind_run_ok hprep)
    · exact catchEvm_ok (bind_run_ok (liftCtx_ok hprep))
  | error e c =>
    obtain he | ⟨err, rfl⟩ := e.fatal_or
    · refine .inr ⟨e, { m with ctx := c }, ?_, ?_⟩
      · exact catchEvm_fatal he (bind_run_error hprep)
      · exact catchEvm_fatal he (bind_run_error (liftCtx_error hprep))
    by_cases hrev : err = .revert
    · refine .inr ⟨.evm err, ⟨{ c with ev := parent }, pcont, rest⟩, ?_, ?_⟩
      · refine (catchEvm_evm (bind_run_error hprep)).trans ?_
        rw [if_pos hrev]
        rfl
      · refine (catchEvm_evm (bind_run_error (liftCtx_error hprep))).trans ?_
        rw [if_pos hrev, bind_run_ok (frameClose_run (m := { m with ctx := c }) hs)]
        rfl
    · obtain ⟨c', habort⟩ := abortPrepare_ok m.ctx.tk.journal.length reservoir err c
      refine .inl ⟨false, c', ?_, ?_⟩
      · refine (catchEvm_evm (bind_run_error hprep)).trans ?_
        rw [if_neg hrev]
        exact bind_run_ok habort
      · refine (catchEvm_evm (bind_run_error (liftCtx_error hprep))).trans ?_
        rw [if_neg hrev]
        exact bind_run_ok (liftCtx_ok habort)

theorem prepareMessage_sim {m : Machine} {parent : Frame} {pcont : Cont}
    {rest : List (Frame × Cont)} (msg : Msg) (hs : m.suspended = (parent, pcont) :: rest) :
    (∃ b c, recPrepareMessage w parent msg m.ctx = .ok b c ∧
      prepareMessage w msg m = .ok b { m with ctx := c }) ∨
    ∃ e m', recPrepareMessage w parent msg m.ctx = .error e m'.ctx ∧
      prepareMessage w msg m = .error e m' := by
  unfold recPrepareMessage prepareMessage
  by_cases hzero : msg.depth = 0
  · simp only [if_pos hzero]
    exact prepareFrame_sim msg.reservoir hs
  · simp only [if_neg hzero]
    exact .inl ⟨true, m.ctx, rfl, rfl⟩

theorem processMessage_ends (fuel : Nat) (msg : Msg) (m : Machine) :
    Ends (fun k => processMessage w k msg m) m fuel
      (recProcessMessage w (executeCode w fuel) msg m.ctx) := by
  by_cases hdepth : stackDepthLimit < msg.depth
  · rw [recProcessMessage_deep hdepth]
    refine .of_error fun k => ?_
    rw [processMessage, if_pos hdepth]
    rfl
  generalize hmo : (⟨{ m.ctx with ev := frameNew msg m.ctx.accAddrs.count m.ctx.accKeys.count },
    { (default : Cont) with kind := .transaction, msg := msg },
    (m.ctx.ev, m.cont) :: m.suspended⟩ : Machine) = mo
  have hs : mo.suspended = (m.ctx.ev, m.cont) :: m.suspended := by rw [← hmo]
  have hmach : ∀ k, processMessage w k msg m = (do
      if ← prepareMessage w msg then driveFrame w k else frameClose : MachineM Frame) mo := by
    intro k
    rw [processMessage, if_neg hdepth, ← hmo]
    rfl
  have hrec : recProcessMessage w (executeCode w fuel) msg m.ctx = (do
      let prepared ← recPrepareMessage w m.ctx.ev msg
      preparedBody w (executeCode w fuel) prepared
      let child ← getEv
      setEv m.ctx.ev
      return child : EvmM Frame) mo.ctx := by
    unfold recProcessMessage
    rw [if_neg hdepth, ← hmo]
    rfl
  have hdrive : ∀ c, Ends (fun k => driveFrame w k { mo with ctx := c }) m fuel ((do
      guardedBody w (executeCode w fuel)
      let child ← getEv
      setEv m.ctx.ev
      return child : EvmM Frame) c) := by
    intro c
    have hd : mo.cont.done = false := by rw [← hmo]; rfl
    have hk : mo.cont.kind = .transaction := by rw [← hmo]
    exact driveFrame_ends (m := { mo with ctx := c }) hd hk hs
  have hprep := prepareMessage_sim (w := w) msg hs
  obtain ⟨b, c, hr, hm⟩ | ⟨e, m', hr, hm⟩ := hprep
  · rw [hrec, bind_run_ok hr]
    cases b with
    | true =>
      have hrun : ∀ k, processMessage w k msg m = driveFrame w k { mo with ctx := c } :=
        fun k => (hmach k).trans (bind_run_ok hm)
      simp only [hrun]
      exact hdrive c
    | false =>
      have hclose := frameClose_run (m := { mo with ctx := c }) hs
      exact .ok (k := 0) ((hmach 0).trans ((bind_run_ok hm).trans hclose))
  · rw [hrec, bind_run_error hr]
    exact .of_error fun k => (hmach k).trans (bind_run_error hm)

/-! ## The equivalence -/

/-- A bounded program of the machine and one of the recursion have the same results: the same
values over the same contexts, the suspended frames as they were, and the same errors. -/
def SameEnds {α : Type} (x : Nat → MachineM α) (y : Nat → EvmM α) : Prop :=
  ∀ m : Machine,
    (∀ a m', (∃ n, x n m = .ok a m') ↔
      m' = { m with ctx := m'.ctx } ∧ ∃ n, y n m.ctx = .ok a m'.ctx) ∧
    ∀ e c, e ≠ .outOfFuel →
      ((∃ n m', x n m = .error e m' ∧ m'.ctx = c) ↔ ∃ n, y n m.ctx = .error e c)

omit [Keccak] [Crypto] in
theorem SameEnds.of_ends {α : Type} {x : Nat → MachineM α} {y : Nat → EvmM α}
    (hx : Settles .outOfFuel x) (h : ∀ fuel m, Ends (fun k => x k m) m fuel (y fuel m.ctx)) :
    SameEnds x y := by
  intro m
  refine ⟨fun a m' => ⟨?_, ?_⟩, fun e c he => ⟨?_, ?_⟩⟩
  · rintro ⟨n, hn⟩
    have hend := h n m
    generalize hr : y n m.ctx = r at hend
    cases hend with
    | @ok k a' c hk =>
      have heq := hx m n k (by rw [hn]; intro t ht; cases ht) (by rw [hk]; intro t ht; cases ht)
      rw [hn, hk] at heq
      cases heq
      exact ⟨rfl, n, hr⟩
    | @error k e m'' he hk =>
      have heq := hx m n k (by rw [hn]; intro t ht; cases ht)
        (by rw [hk]; intro t ht; cases ht; exact he rfl)
      rw [hn, hk] at heq
      cases heq
    | starve hs =>
      obtain ⟨t, ht⟩ := hs n le_rfl
      rw [hn] at ht
      cases ht
  · rintro ⟨hm', n, hn⟩
    have hend := h n m
    rw [hn] at hend
    cases hend with
    | @ok k _ _ hk => exact ⟨k, by rw [hk, ← hm']⟩
  · rintro ⟨n, m', hn, rfl⟩
    have hout : ∀ t, x n m ≠ .error .outOfFuel t := by
      rw [hn]
      intro t ht
      cases ht
      exact he rfl
    have hend := h n m
    generalize hr : y n m.ctx = r at hend
    cases hend with
    | @ok k a' c hk =>
      have heq := hx m n k hout (by rw [hk]; intro t ht; cases ht)
      rw [hn, hk] at heq
      cases heq
    | @error k e m'' he' hk =>
      have heq := hx m n k hout (by rw [hk]; intro t ht; cases ht; exact he' rfl)
      rw [hn, hk] at heq
      cases heq
      exact ⟨n, hr⟩
    | starve hs =>
      obtain ⟨t, ht⟩ := hs n le_rfl
      exact absurd ht (hout t)
  · rintro ⟨n, hn⟩
    have hend := h n m
    rw [hn] at hend
    generalize hr : (EStateM.Result.error e c : EStateM.Result Exn Ctx α) = r at hend
    cases hend with
    | ok hk => cases hr
    | @error k e' m'' he' hk =>
      cases hr
      exact ⟨k, m'', hk, rfl⟩
    | starve hs =>
      cases hr
      exact absurd rfl he

/-! ## Sequences around a bounded program -/

section

variable {α β : Type}

omit [Keccak] [Crypto] in
theorem Ends.bind_lift {x : Nat → MachineM α} {y : EvmM α} {fuel : Nat} {m : Machine}
    (hx : Settles .outOfFuel x) (h : Ends (fun k => x k m) m fuel (y m.ctx)) (f : α → EvmM β) :
    Ends (fun k => (x k >>= fun a => liftCtx (f a)) m) m fuel ((y >>= f) m.ctx) := by
  generalize hr : y m.ctx = r at h
  cases h with
  | @ok k a c hk =>
    rw [bind_run_ok hr]
    cases hf : f a c with
    | ok b c' => exact .ok (k := k) ((bind_run_ok hk).trans (liftCtx_ok hf))
    | error e c' =>
      by_cases he : e = .outOfFuel
      · subst he
        -- a bound that lets `x` end lets it end as above, so `f` throws there too
        refine .starve fun j _ => ?_
        by_cases hj : ∃ t, x j m = .error .outOfFuel t
        · obtain ⟨t, ht⟩ := hj
          exact ⟨t, bind_run_error ht⟩
        · have heq := hx m j k (fun t ht => hj ⟨t, ht⟩) (by rw [hk]; intro t ht; cases ht)
          exact ⟨_, (bind_run_ok (heq.trans hk)).trans (liftCtx_error hf)⟩
      · have herr : (x k >>= fun a => liftCtx (f a)) m = .error e { m with ctx := c' } :=
          (bind_run_ok hk).trans (liftCtx_error hf)
        exact .error (k := k) (m := { m with ctx := c' }) he herr
  | @error k e m' he hk =>
    rw [bind_run_error hr]
    exact .error (k := k) he (bind_run_error hk)
  | starve hs =>
    rw [bind_run_error hr]
    refine .starve fun k hk => ?_
    obtain ⟨t, ht⟩ := hs k hk
    exact ⟨t, bind_run_error ht⟩

omit [Keccak] [Crypto] in
theorem Ends.lift_bind {p : EvmM α} {x : α → Nat → MachineM β} {y : α → EvmM β} {fuel : Nat}
    {m : Machine}
    (h : ∀ a c, p m.ctx = .ok a c →
      Ends (fun k => x a k { m with ctx := c }) { m with ctx := c } fuel (y a c)) :
    Ends (fun k => (liftCtx p >>= fun a => x a k) m) m fuel ((p >>= y) m.ctx) := by
  cases hp : p m.ctx with
  | error e c =>
    rw [bind_run_error hp]
    exact .of_error fun k => bind_run_error (liftCtx_error hp)
  | ok a c =>
    have hrun : ∀ k, (liftCtx p >>= fun a => x a k) m = x a k { m with ctx := c } :=
      fun k => bind_run_ok (liftCtx_ok hp)
    have hend := h a c hp
    rw [bind_run_ok hp]
    simp only [hrun]
    generalize y a c = r at hend
    cases hend with
    | @ok k b c' hk => exact .ok (k := k) hk
    | @error k e m' he hk => exact .error (k := k) he hk
    | starve hs => exact .starve hs

end

/-! ## The results of messages -/

theorem processMessage_settles (msg : Msg) :
    Settles .outOfFuel fun k => processMessage w k msg := by
  have hdrive : Settles .outOfFuel fun k => driveFrame w k :=
    .bind (settles_const _) fun _ => .bind (settles_const _) fun _ => settles_loop _
  have hrest : Settles .outOfFuel fun k => (do
      if ← prepareMessage w msg then driveFrame w k else frameClose : MachineM Frame) := by
    refine .bind (settles_const _) fun b => ?_
    cases b with
    | true => exact hdrive
    | false => exact settles_const _
  unfold processMessage
  by_cases hdepth : stackDepthLimit < msg.depth
  · simp only [if_pos hdepth]
    exact .bind (settles_const _) fun _ => .bind (settles_const _) fun _ => hrest
  · simp only [if_neg hdepth]
    exact .bind (settles_const _) fun _ => hrest

theorem processCreateMessage_settles (msg : Msg) :
    Settles .outOfFuel fun k => processCreateMessage w k msg := by
  unfold processCreateMessage
  exact .bind (settles_const _) fun _ =>
    .bind (processMessage_settles msg) fun _ => settles_const _

theorem processCreateMessage_ends (fuel : Nat) (msg : Msg) (m : Machine) :
    Ends (fun k => processCreateMessage w k msg m) m fuel
      (recProcessCreateMessage w (executeCode w fuel) msg m.ctx) := by
  unfold processCreateMessage recProcessCreateMessage
  refine .lift_bind fun snap c _ => ?_
  exact .bind_lift (processMessage_settles msg) (processMessage_ends fuel msg { m with ctx := c }) _

theorem processMessageCall_settles (msg : Msg) :
    Settles .outOfFuel fun k => processMessageCall w k msg := by
  unfold processMessageCall
  by_cases htarget : msg.target = none
  · simp only [if_pos htarget]
    refine .bind (settles_const _) fun deployable => ?_
    cases deployable with
    | true => exact .bind (processCreateMessage_settles msg) fun _ => settles_const _
    | false => exact settles_const _
  · simp only [if_neg htarget]
    exact .bind (processMessage_settles msg) fun _ => settles_const _

theorem processMessageCall_ends (fuel : Nat) (msg : Msg) (m : Machine) :
    Ends (fun k => processMessageCall w k msg m) m fuel
      (recProcessMessageCall w fuel msg m.ctx) := by
  unfold processMessageCall recProcessMessageCall
  by_cases htarget : msg.target = none
  · simp only [if_pos htarget]
    refine .lift_bind fun deployable c _ => ?_
    cases deployable with
    | true =>
      exact .bind_lift (processCreateMessage_settles msg)
        (processCreateMessage_ends fuel msg { m with ctx := c }) fun f => pure (frameOutput f)
    | false => exact .ok (k := 0) rfl
  · simp only [if_neg htarget]
    exact .bind_lift (processMessage_settles msg) (processMessage_ends fuel msg m)
      fun f => pure (frameOutput f)

/-- A message call of the machine has the results of the recursion. -/
theorem processMessageCall_same (msg : Msg) :
    SameEnds (fun n => processMessageCall w n msg) fun n => recProcessMessageCall w n msg :=
  .of_ends (processMessageCall_settles msg) fun fuel m => processMessageCall_ends fuel msg m

/-! ## The theorem -/

variable (w) in
/-- The frame loop ends every message, call or creation, as the recursion does. A child whose
recursion ends is run in a stretch of rounds over its suspended parent, and the last of them
resumes the parent with its own continuation, the tail of its instruction done. -/
theorem frame_loop_refines :
    (∀ msg, SameEnds (fun n => processMessage w n msg)
      fun n => recProcessMessage w (executeCode w n) msg) ∧
    (∀ msg, SameEnds (fun n => processCreateMessage w n msg)
      fun n => recProcessCreateMessage w (executeCode w n) msg) ∧
    ∀ (m : Machine) (op : Nat) (req : ChildReq) (c c' : Ctx) (fuel : Nat), m.At op →
      opDispatch w op m.ctx = .ok (some req) c →
      runChild w (executeCode w fuel) req c = .ok () c' →
      ∃ n m', frameRound w m = .ok none m' ∧
        Goes (frameRound w) (Above ((c.ev, m.cont) :: m.suspended)) n m' { m with ctx := c' } := by
  refine ⟨fun msg => ?_, fun msg => ?_, fun m op req c c' fuel hat hop hrun => ?_⟩
  · exact .of_ends (processMessage_settles msg) fun fuel m => processMessage_ends fuel msg m
  · exact .of_ends (processCreateMessage_settles msg)
      fun fuel m => processCreateMessage_ends fuel msg m
  · have hsim := child_sim (executeCode_sim fuel) hat hop
    generalize hr : runChild w (executeCode w fuel) req c = r at hsim
    rw [hrun] at hr
    subst hr
    cases hsim with
    | ok hround hgo => exact ⟨_, _, hround, hgo⟩

end

end StatelessGuest
