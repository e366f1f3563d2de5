import StatelessGuest.Evm.Refine

/-!
# What a round does

A round of the frame loop that yields nothing runs an instruction, starts a child, or ends one.
`Round` lists the cases, down to the programs of one frame that they run, so an invariant of the
machine is shown by cases on it.

* `round_of_frameRound`: every such round is one of them.
-/

namespace StatelessGuest

open Lib

/-- Below every frame of a child there is its caller's. -/
inductive Stacked : FrameKind → List (Frame × Cont) → Prop where
  | root {below : List (Frame × Cont)} : Stacked .transaction below
  | child {kind : FrameKind} {parent : Frame} {pcont : Cont} {below : List (Frame × Cont)}
      (hkind : kind ≠ .transaction) (hbelow : Stacked pcont.kind below) :
      Stacked kind ((parent, pcont) :: below)

theorem Stacked.caller {kind : FrameKind} {below : List (Frame × Cont)} (h : Stacked kind below)
    (hkind : kind ≠ .transaction) :
    ∃ parent pcont rest, below = (parent, pcont) :: rest ∧ Stacked pcont.kind rest := by
  cases h with
  | root => exact absurd rfl hkind
  | child _ hbelow => exact ⟨_, _, _, rfl, hbelow⟩

def Machine.Stacked (m : Machine) : Prop := StatelessGuest.Stacked m.cont.kind m.suspended

section

variable [Keccak] [Crypto] {w : Witness}

/-- The end of a child in its caller's frame. -/
def resume (r : Cont) (child : Frame) : EvmM Unit := do
  r.tail child
  pcAdd 1

/-- The rounds that yield nothing. -/
inductive Round (w : Witness) (m : Machine) : Machine → Prop where
  | step {op : Nat} {c : Ctx} (hat : m.At op) (hop : opDispatch w op m.ctx = .ok none c) :
      Round w m { m with ctx := c }
  | fail {op : Nat} {err : EvmErr} {c : Ctx} (hat : m.At op)
      (hop : opDispatch w op m.ctx = .error (.evm err) c) : Round w m (m.excepted c err)
  | start {op snap : Nat} {req : ChildReq} {c c' c'' : Ctx} {done : Bool} {child : Machine}
      (hat : m.At op) (hop : opDispatch w op m.ctx = .ok (some req) c)
      (hopen : openChild w req c = .ok snap c')
      (hchild : child = Machine.child { m with ctx := c } req c' snap)
      (hpro : framePrologue w child.ctx = .ok done c'') : Round w m (child.finished c'' done)
  | startFail {op snap : Nat} {req : ChildReq} {c c' c'' : Ctx} {err : EvmErr} {child : Machine}
      (hat : m.At op) (hop : opDispatch w op m.ctx = .ok (some req) c)
      (hopen : openChild w req c = .ok snap c')
      (hchild : child = Machine.child { m with ctx := c } req c' snap)
      (hpro : framePrologue w child.ctx = .error (.evm err) c'') :
      Round w m (child.excepted c'' err)
  | finish {parent : Frame} {pcont : Cont} {below : List (Frame × Cont)} {c c' c'' : Ctx}
      (hover : m.Over) (hkind : m.cont.kind ≠ .transaction)
      (hs : m.suspended = (parent, pcont) :: below)
      (hep : frameEpilogue m.cont.snapshot m.ctx = .ok () c) (hclose : m.cont.close w c = .ok () c')
      (htail : resume m.cont c'.ev { c' with ev := parent } = .ok () c'') :
      Round w m ⟨c'', pcont, below⟩
  | finishFail {parent : Frame} {pcont : Cont} {below : List (Frame × Cont)} {c c' c'' : Ctx}
      {err : EvmErr} (hover : m.Over) (hkind : m.cont.kind ≠ .transaction)
      (hs : m.suspended = (parent, pcont) :: below)
      (hep : frameEpilogue m.cont.snapshot m.ctx = .ok () c) (hclose : m.cont.close w c = .ok () c')
      (htail : resume m.cont c'.ev { c' with ev := parent } = .error (.evm err) c'') :
      Round w m (Machine.excepted ⟨c'', pcont, below⟩ c'' err)

theorem frameStart_ok {m m' : Machine} (hd : m.cont.done = false)
    (h : frameStart w m = .ok () m') :
    (∃ done c, framePrologue w m.ctx = .ok done c ∧ m' = m.finished c done) ∨
      ∃ err c, framePrologue w m.ctx = .error (.evm err) c ∧ m' = m.excepted c err := by
  cases hpro : framePrologue w m.ctx with
  | ok done c =>
    refine .inl ⟨done, c, rfl, ?_⟩
    cases done with
    | true =>
      rw [frameStart_complete hpro] at h
      cases h
      rfl
    | false =>
      rw [frameStart_code hpro] at h
      cases h
      exact (Machine.finished_false hd c).symm
  | error e c =>
    obtain he | ⟨err, rfl⟩ := e.fatal_or
    · rw [frameStart_fatal he hpro] at h
      cases h
    · rw [frameStart_evm hpro] at h
      cases h
      exact .inr ⟨err, c, rfl, rfl⟩

theorem frameStart_error {m m' : Machine} {e : Exn} (h : frameStart w m = .error e m') :
    e.Fatal := by
  cases hpro : framePrologue w m.ctx with
  | ok done c =>
    cases done with
    | true =>
      rw [frameStart_complete hpro] at h
      cases h
    | false =>
      rw [frameStart_code hpro] at h
      cases h
  | error e' c =>
    obtain he | ⟨err, rfl⟩ := e'.fatal_or
    · rw [frameStart_fatal he hpro] at h
      cases h
      exact he
    · rw [frameStart_evm hpro] at h
      cases h

/-- An instruction that requests a child. -/
theorem round_of_start {m m' : Machine} {op : Nat} {req : ChildReq} {c : Ctx} (hat : m.At op)
    (hop : opDispatch w op m.ctx = .ok (some req) c) (h : frameRound w m = .ok none m') :
    Round w m m' := by
  have hrun := runOp_child hop
  cases hopen : openChild w req c with
  | error e c' =>
    rw [startChild_error hopen] at hrun
    rw [frameRound_fatal hat (openChild_fatal hopen) hrun] at h
    cases h
  | ok snap c' =>
    rw [startChild_open hopen (Nat.not_lt.mpr req.depth_le)] at hrun
    cases hstart : frameStart w (Machine.child { m with ctx := c } req c' snap) with
    | error e m₁ =>
      rw [hstart] at hrun
      rw [frameRound_fatal hat (frameStart_error hstart) hrun] at h
      cases h
    | ok _ m₁ =>
      rw [hstart] at hrun
      rw [frameRound_ok hat hrun] at h
      cases h
      obtain ⟨done, c'', hpro, rfl⟩ | ⟨err, c'', hpro, rfl⟩ := frameStart_ok rfl hstart
      · exact .start hat hop hopen rfl hpro
      · exact .startFail hat hop hopen rfl hpro

/-- A round of an instruction. -/
theorem round_of_op {m m' : Machine} {op : Nat} (hat : m.At op)
    (h : frameRound w m = .ok none m') : Round w m m' := by
  cases hop : opDispatch w op m.ctx with
  | error e c =>
    have hrun : runOp w op m = .error e { m with ctx := c } := by
      rw [runOp, bind_run_error (liftCtx_error hop)]
    obtain he | ⟨err, rfl⟩ := e.fatal_or
    · rw [frameRound_fatal hat he hrun] at h
      cases h
    · rw [frameRound_evm hat hrun rfl rfl rfl] at h
      cases h
      exact .fail hat hop
  | ok started c =>
    cases started with
    | some req => exact round_of_start hat hop h
    | none =>
      have hrun : runOp w op m = .ok () { m with ctx := c } := by
        rw [runOp, bind_run_ok (liftCtx_ok hop)]
        rfl
      rw [frameRound_ok hat hrun] at h
      cases h
      exact .step hat hop

theorem round_of_over {m m' : Machine} (hover : m.Over) (hst : m.Stacked)
    (h : frameRound w m = .ok none m') : Round w m m' := by
  obtain ⟨c, hep⟩ := frameEpilogue_ok m.cont.snapshot m.ctx
  rw [frameRound_over hover, bind_run_ok (liftCtx_ok hep)] at h
  by_cases hkind : m.cont.kind = .transaction
  · rw [if_pos hkind] at h
    obtain ⟨e, s, -, hret⟩ := bind_ok.mp h
    cases hret
  rw [if_neg hkind] at h
  obtain ⟨parent, pcont, below, hs, -⟩ := hst.caller hkind
  cases hclose : m.cont.close w c with
  | error e c' =>
    have hfatal : e.Fatal := by
      unfold Cont.close at hclose
      split at hclose
      · exact closeCreate_fatal hclose
      · cases hclose
    have hfin : finishChild w { m with ctx := c } = .error e { m with ctx := c' } := by
      rw [finishChild, bind_run, get_run]
      exact bind_run_error (liftCtx_error hclose)
    rw [bind_run_error (catchEvm_fatal hfatal hfin)] at h
    cases h
  | ok _ c' =>
    have hfin : finishChild w { m with ctx := c } =
        liftCtx (resume m.cont c'.ev) ⟨{ c' with ev := parent }, pcont, below⟩ := by
      have hframe := frameClose_run (m := { m with ctx := c' }) hs
      rw [finishChild, bind_run, get_run]
      dsimp only
      rw [bind_run_ok (liftCtx_ok hclose), bind_run_ok hframe, ← liftCtx_bind]
      rfl
    cases htail : resume m.cont c'.ev { c' with ev := parent } with
    | ok _ c'' =>
      rw [bind_run_ok (catchEvm_ok (hfin.trans (liftCtx_ok htail)))] at h
      cases h
      exact .finish hover hkind hs hep hclose htail
    | error e c'' =>
      have herr := hfin.trans (liftCtx_error htail)
      obtain he | ⟨err, rfl⟩ := e.fatal_or
      · rw [bind_run_error (catchEvm_fatal he herr)] at h
        cases h
      · rw [bind_run_ok ((catchEvm_evm herr).trans (frameException_run err _))] at h
        cases h
        exact .finishFail hover hkind hs hep hclose htail

theorem round_of_frameRound {m m' : Machine} (hst : m.Stacked)
    (h : frameRound w m = .ok none m') : Round w m m' := by
  by_cases hdone : m.cont.done = true
  · exact round_of_over (.inl hdone) hst h
  cases hop : m.ctx.ev.opcode? with
  | none => exact round_of_over (.inr hop) hst h
  | some op =>
    rw [Bool.not_eq_true] at hdone
    exact round_of_op ⟨hdone, hop⟩ h

theorem Round.stacked {m m' : Machine} (h : Round w m m') (hst : m.Stacked) : m'.Stacked := by
  cases h with
  | step => exact hst
  | fail => exact hst
  | @start _ _ req _ _ _ _ _ _ _ _ hchild =>
    subst hchild
    exact .child req.isChild hst
  | @startFail _ _ req _ _ _ _ _ _ _ _ hchild =>
    subst hchild
    exact .child req.isChild hst
  | finish _ hkind hs =>
    obtain ⟨parent, pcont, rest, hs', hbelow⟩ := hst.caller hkind
    rw [hs] at hs'
    cases hs'
    exact hbelow
  | finishFail _ hkind hs =>
    obtain ⟨parent, pcont, rest, hs', hbelow⟩ := hst.caller hkind
    rw [hs] at hs'
    cases hs'
    exact hbelow

omit [Keccak] [Crypto] in
/-- A guarded round throws no error of a frame. -/
theorem catch_exception_fatal {x : MachineM Unit} {m m' : Machine} {e : Exn}
    (h : catchEvm x frameException m = .error e m') : e.Fatal := by
  cases hx : x m with
  | ok _ s =>
    rw [catchEvm_ok hx] at h
    cases h
  | error e' s =>
    obtain he | ⟨err, rfl⟩ := e'.fatal_or
    · rw [catchEvm_fatal he hx] at h
      cases h
      exact he
    · rw [catchEvm_evm hx, frameException_run] at h
      cases h

/-- A round that throws ends the whole run. -/
theorem frameRound_error_fatal {m m' : Machine} {e : Exn} (h : frameRound w m = .error e m') :
    e.Fatal := by
  by_cases hover : m.Over
  · obtain ⟨c, hep⟩ := frameEpilogue_ok m.cont.snapshot m.ctx
    rw [frameRound_over hover, bind_run_ok (liftCtx_ok hep)] at h
    split at h
    · obtain ⟨f, s, hclose⟩ := frameClose_ok { m with ctx := c }
      rw [bind_run_ok hclose] at h
      cases h
    · obtain hx | ⟨_, _, _, hx⟩ := bind_error.mp h
      · exact catch_exception_fatal hx
      · cases hx
  · unfold Machine.Over at hover
    push Not at hover
    obtain ⟨op, hop⟩ := Option.ne_none_iff_exists'.mp hover.2
    rw [frameRound_at ⟨Bool.not_eq_true _ ▸ hover.1, hop⟩] at h
    obtain hx | ⟨_, _, _, hx⟩ := bind_error.mp h
    · exact catch_exception_fatal hx
    · cases hx

end

end StatelessGuest
