import StatelessGuest.Evm.Access
import StatelessGuest.Evm.Refine
import StatelessGuest.Lib.Triple

/-!
# Frames with their own accessed sets

The sets of accessed addresses and slots are shared by all frames, and a frame that fails drops
what it inserted. `Copies` is the machine in which each frame has sets of its own: a child starts
with a copy of its caller's, and the caller merges them only when the child succeeds.

* `Aligned`: the counts of every child mark its caller's sets in its own.
* `accessed_sets_are_copies`: the two machines go through the same states.
-/

namespace StatelessGuest

open Lib

/-! ## The machine with a copy for each frame -/

/-- A machine whose context has the sets of the current frame, and the sets of its callers, the
innermost first. -/
structure Copies where
  machine : Machine
  own : List Sets

abbrev CopiesM := EStateM Exn Copies

/-- Run a program that does not look at the sets of the callers. -/
def liftMachine {α : Type} (x : MachineM α) : CopiesM α := fun c =>
  match x c.machine with
  | .ok a m => .ok a { c with machine := m }
  | .error e m => .error e { c with machine := m }

/-- What a run leaves, without the sets of the callers. -/
def withoutOwn {α : Type} : EStateM.Result Exn Copies α → EStateM.Result Exn Machine α
  | .ok a c => .ok a c.machine
  | .error e c => .error e c.machine

/-- The caller has its sets back, with those of a child that succeeded. -/
def takeBack (child : Frame) : CopiesM Unit :=
  modify fun c =>
    match c.own with
    | [] => c
    | mine :: rest =>
      let sets := if child.error = none then mine.merge c.machine.ctx.sets else mine
      ⟨{ c.machine with ctx := c.machine.ctx.withSets sets }, rest⟩

/-- What the caller of a failed child does, its sets apart. -/
def ownChildFailed (child : Frame) (charged : Bool) : EvmM Unit := do
  incorporateChildOnError child
  creditNewAccount charged
  setRetdata child.output
  stackPush 0

/-- The tail of `generic_call`, the sets apart. -/
def ownCallTail (child : Frame) (charged : Bool) (outStart outSize : Word) : EvmM Unit := do
  if child.error ≠ none then
    ownChildFailed child charged
    copyOutput child outStart outSize
  else
    incorporateChildOnSuccess child
    setRetdata child.output
    stackPush 1
    copyOutput child outStart outSize

/-- The tail of `generic_create`, the sets apart. -/
def ownCreateTail (child : Frame) (charged : Bool) (contract : Address) : EvmM Unit := do
  if child.error ≠ none then
    ownChildFailed child charged
  else
    incorporateChildOnSuccess child
    setRetdata []
    stackPush (addressToU256 contract)

def Cont.ownTail (r : Cont) (child : Frame) : EvmM Unit :=
  if r.kind = .create then ownCreateTail child r.newAccountCharged r.contract
  else ownCallTail child r.newAccountCharged r.outStart r.outSize

instance (child : Frame) : Keeps Grown (incorporateChildOnError child) :=
  grown_modifyEv (fun _ => rfl) fun _ => rfl

instance (child : Frame) : Keeps Grown (incorporateChildOnSuccess child) :=
  Keeps.seq inferInstance fun _ => Keeps.seq (grown_modifyEv (fun _ => rfl) fun _ => rfl)
    fun _ => Keeps.seq (grown_modifyEv (fun _ => rfl) fun _ => rfl)
    fun _ => grown_modifyEv (fun _ => rfl) fun _ => rfl

instance (child : Frame) (outStart outSize : Word) :
    Keeps Grown (copyOutput child outStart outSize) := by
  unfold copyOutput
  infer_instance

instance (child : Frame) (charged : Bool) : Keeps Grown (ownChildFailed child charged) := by
  unfold ownChildFailed
  infer_instance

instance (r : Cont) (child : Frame) : Keeps Grown (r.ownTail child) := by
  unfold Cont.ownTail ownCreateTail ownCallTail
  infer_instance

section

variable [Keccak] [Crypto] (w : Witness)

/-- Start a child over a copy of the sets. -/
def copyStartChild (req : ChildReq) : CopiesM Unit := do
  modify fun c => { c with own := c.machine.ctx.sets :: c.own }
  liftMachine (startChild w req)

def copyRunOp (op : Nat) : CopiesM Unit := do
  match ← liftMachine (liftCtx (opDispatch w op)) with
  | none => return ()
  | some req => copyStartChild w req

def copyFinishChild : CopiesM Unit := do
  let r := (← get).machine.cont
  liftMachine (liftCtx (r.close w))
  let child ← liftMachine frameClose
  takeBack child
  liftMachine (liftCtx (r.ownTail child))
  liftMachine (liftCtx (pcAdd 1))

def copyException (err : EvmErr) : CopiesM Unit := liftMachine (frameException err)

/-- A round of the loop in which each frame has its own sets. -/
def copyRound : CopiesM (Option Frame) := do
  let m := (← get).machine
  match if m.cont.done then none else m.ctx.ev.opcode? with
  | some op => do
    catchEvm (copyRunOp w op) copyException
    return none
  | none => do
    liftMachine (liftCtx (frameEpilogue m.cont.snapshot))
    if m.cont.kind = .transaction then
      return some (← liftMachine frameClose)
    else
      catchEvm (copyFinishChild w) copyException
      return none

/-- `process_message` for a transaction, each frame with its own sets. -/
def copyProcessMessage (fuel : Nat) (msg : Msg) : CopiesM Frame := do
  if stackDepthLimit < msg.depth then throw (.evm .stackDepthLimit)
  liftMachine (frameOpen msg .transaction)
  if ← liftMachine (prepareMessage w msg) then
    liftMachine recordSnapshot
    liftMachine (frameStart w)
    loop .outOfFuel (copyRound w) fuel
  else liftMachine frameClose

end

/-! ## Handlers -/

theorem triple_catchEvm {σ α : Type} {P : σ → Prop} {Q : α → σ → Prop} {E E' : Exn → σ → Prop}
    {x : EStateM Exn σ α} {h : EvmErr → EStateM Exn σ α} (hx : Triple P x Q E)
    (hh : ∀ err, Triple (E (.evm err)) (h err) Q E') (hE : ∀ e s, e.Fatal → E e s → E' e s) :
    Triple P (catchEvm x h) Q E' := by
  constructor
  · intro s s' a hP hrun
    cases hs : x s with
    | ok b t =>
      rw [catchEvm_ok hs] at hrun
      cases hrun
      exact hx.ok hP hs
    | error e t =>
      obtain he | ⟨err, rfl⟩ := e.fatal_or
      · rw [catchEvm_fatal he hs] at hrun
        cases hrun
      · rw [catchEvm_evm hs] at hrun
        exact (hh err).ok (hx.error hP hs) hrun
  · intro s s' e' hP hrun
    cases hs : x s with
    | ok b t =>
      rw [catchEvm_ok hs] at hrun
      cases hrun
    | error e t =>
      obtain he | ⟨err, rfl⟩ := e.fatal_or
      · rw [catchEvm_fatal he hs] at hrun
        cases hrun
        exact hE _ _ he (hx.error hP hs)
      · rw [catchEvm_evm hs] at hrun
        exact (hh err).error (hx.error hP hs) hrun

/-! ## The invariant -/

/-- The counts of every child mark its caller's sets in its own. -/
inductive Aligned : FrameKind → Frame → Sets → List (Frame × Cont) → List Sets → Prop where
  | root {e : Frame} {s : Sets} {below : List (Frame × Cont)} {own : List Sets} :
      Aligned .transaction e s below own
  | child {kind : FrameKind} {e parent : Frame} {s mine : Sets} {pcont : Cont}
      {below : List (Frame × Cont)} {own : List Sets} (hkind : kind ≠ .transaction)
      (haddrs : e.accAddrsN = mine.addrs.count) (hkeys : e.accKeysN = mine.keys.count)
      (hle : mine.Le s) (hbelow : Aligned pcont.kind parent mine below own) :
      Aligned kind e s ((parent, pcont) :: below) (mine :: own)

theorem Aligned.grow {kind : FrameKind} {e e' : Frame} {s s' : Sets} {below : List (Frame × Cont)}
    {own : List Sets} (h : Aligned kind e s below own) (hle : s.Le s')
    (haddrs : e'.accAddrsN = e.accAddrsN) (hkeys : e'.accKeysN = e.accKeysN) :
    Aligned kind e' s' below own := by
  cases h with
  | root => exact .root
  | child hkind ha hk hmine hbelow =>
    exact .child hkind (haddrs.trans ha) (hkeys.trans hk) (hmine.trans hle) hbelow

theorem Aligned.caller {kind : FrameKind} {e : Frame} {s : Sets} {below : List (Frame × Cont)}
    {own : List Sets} (h : Aligned kind e s below own) (hkind : kind ≠ .transaction) :
    ∃ parent pcont below' mine own', below = (parent, pcont) :: below' ∧ own = mine :: own' ∧
      e.accAddrsN = mine.addrs.count ∧ e.accKeysN = mine.keys.count ∧ mine.Le s ∧
      Aligned pcont.kind parent mine below' own' := by
  cases h with
  | root => exact absurd rfl hkind
  | child _ haddrs hkeys hle hbelow =>
    exact ⟨_, _, _, _, _, rfl, rfl, haddrs, hkeys, hle, hbelow⟩

/-- A machine with the sets of the callers of its current frame. -/
def Machine.Aligned (own : List Sets) (m : Machine) : Prop :=
  StatelessGuest.Aligned m.cont.kind m.ctx.ev m.ctx.sets m.suspended own

def Copies.Aligned (c : Copies) : Prop := c.machine.Aligned c.own

/-- A program that runs in the current frame, on whichever sets its callers have. -/
def Steady {α : Type} (x : MachineM α) : Prop :=
  ∀ own, Triple (Machine.Aligned own) x (fun _ => Machine.Aligned own)
    fun _ => Machine.Aligned own

theorem Steady.bind {α β : Type} {x : MachineM α} {f : α → MachineM β} (hx : Steady x)
    (hf : ∀ a, Steady (f a)) : Steady (x >>= f) :=
  fun own => (hx own).bind fun a => hf a own

theorem steady_pure {α : Type} (a : α) : Steady (pure a : MachineM α) := fun _ => .pure fun _ h => h

theorem steady_liftCtx {α : Type} (x : EvmM α) [hx : Keeps Grown x] : Steady (liftCtx x) := by
  intro own
  have hgrown : ∀ (m : Machine) (c : Ctx), m.Aligned own → Grown m.ctx c →
      Machine.Aligned own { m with ctx := c } :=
    fun m c h hg => Aligned.grow h hg.sets hg.addrsN hg.keysN
  constructor
  · intro m m' a h hrun
    cases hc : x m.ctx with
    | ok b c =>
      rw [liftCtx_ok hc] at hrun
      cases hrun
      exact hgrown m c h (hx.ok hc)
    | error e c =>
      rw [liftCtx_error hc] at hrun
      cases hrun
  · intro m m' e h hrun
    cases hc : x m.ctx with
    | ok b c =>
      rw [liftCtx_ok hc] at hrun
      cases hrun
    | error e c =>
      rw [liftCtx_error hc] at hrun
      cases hrun
      exact hgrown m c h (hx.error hc)

theorem keeps_cont_liftCtx {α : Type} (x : EvmM α) :
    Keeps (fun m m' : Machine => m'.cont = m.cont) (liftCtx x) := by
  refine ⟨fun m => ?_⟩
  cases hx : x m.ctx with
  | ok a c => rw [liftCtx_ok hx]; rfl
  | error e c => rw [liftCtx_error hx]; rfl

theorem steady_modifyCont {f : Cont → Cont} (h : ∀ r, (f r).kind = r.kind) :
    Steady (modify fun m => { m with cont := f m.cont }) := by
  intro own
  refine Triple.modify fun m hm => ?_
  change StatelessGuest.Aligned (f m.cont).kind _ _ _ _
  rw [h]
  exact hm

theorem steady_frameException (err : EvmErr) : Steady (frameException err) :=
  (steady_liftCtx _).bind fun _ => steady_modifyCont (f := fun r => { r with done := true })
    fun _ => rfl

theorem steady_recordSnapshot : Steady recordSnapshot :=
  (steady_liftCtx _).bind fun n => steady_modifyCont (f := fun r => { r with snapshot := n })
    fun _ => rfl

section

variable [Keccak] [Crypto] {w : Witness}

theorem steady_frameStart : Steady (frameStart w) := by
  intro own
  have hstart : Triple (Machine.Aligned own) (catchEvm (liftCtx (framePrologue w)) fun err => do
      frameException err
      return false) (fun _ => Machine.Aligned own) fun _ => Machine.Aligned own :=
    triple_catchEvm (steady_liftCtx _ own)
      (fun err => (steady_frameException err own).bind fun _ => steady_pure false own)
      fun _ _ _ h => h
  refine hstart.bind fun complete => ?_
  cases complete with
  | false => exact steady_pure () own
  | true => exact steady_modifyCont (f := fun r => { r with done := true }) (fun _ => rfl) own

end

/-! ## Runs side by side -/

theorem liftMachine_ok {α : Type} {x : MachineM α} {c : Copies} {a : α} {m : Machine}
    (h : x c.machine = .ok a m) : liftMachine x c = .ok a ⟨m, c.own⟩ := by
  unfold liftMachine
  rw [h]

theorem liftMachine_error {α : Type} {x : MachineM α} {c : Copies} {e : Exn} {m : Machine}
    (h : x c.machine = .error e m) : liftMachine x c = .error e ⟨m, c.own⟩ := by
  unfold liftMachine
  rw [h]

/-- From states with `P`, the runs of `x` and `y` agree and those that end without a rejection
are aligned. -/
structure Mirrors {α : Type} (P : Copies → Prop) (x : MachineM α) (y : CopiesM α)
    (Q : α → Copies → Prop) : Prop where
  eq : ∀ {c : Copies}, P c → withoutOwn (y c) = x c.machine
  triple : Triple P y Q fun e c => e.Fatal ∨ c.Aligned

namespace Mirrors

variable {α β : Type} {P : Copies → Prop} {x : MachineM α} {y : CopiesM α}
  {Q : α → Copies → Prop}

theorem pure (a : α) (h : ∀ c, P c → Q a c) :
    Mirrors P (Pure.pure a) (Pure.pure a : CopiesM α) Q :=
  ⟨fun _ => rfl, .pure h⟩

theorem bind {f : α → MachineM β} {g : α → CopiesM β} {R : β → Copies → Prop}
    (hx : Mirrors P x y Q) (hf : ∀ a, Mirrors (Q a) (f a) (g a) R) :
    Mirrors P (x >>= f) (y >>= g) R where
  eq {c} hP := by
    have hrun := hx.eq hP
    cases hy : y c with
    | ok a c' =>
      rw [hy] at hrun
      rw [bind_run_ok hy, bind_run_ok hrun.symm]
      exact (hf a).eq (hx.triple.ok hP hy)
    | error e c' =>
      rw [hy] at hrun
      rw [bind_run_error hy, bind_run_error hrun.symm]
      rfl
  triple := hx.triple.bind fun a => (hf a).triple

theorem handle {h : EvmErr → MachineM α} {k : EvmErr → CopiesM α} (hx : Mirrors P x y Q)
    (hh : ∀ err, Mirrors Copies.Aligned (h err) (k err) Q) :
    Mirrors P (catchEvm x h) (catchEvm y k) Q where
  eq {c} hP := by
    have hrun := hx.eq hP
    cases hy : y c with
    | ok a c' =>
      rw [hy] at hrun
      rw [catchEvm_ok hy, catchEvm_ok hrun.symm]
      rfl
    | error e c' =>
      rw [hy] at hrun
      obtain he | ⟨err, rfl⟩ := e.fatal_or
      · rw [catchEvm_fatal he hy, catchEvm_fatal he hrun.symm]
        rfl
      · rw [catchEvm_evm hy, catchEvm_evm hrun.symm]
        have haligned := hx.triple.error hP hy
        exact (hh err).eq (haligned.resolve_left id)
  triple := triple_catchEvm hx.triple
    (fun err => (hh err).triple.pre fun c hc => hc.resolve_left id) fun _ _ _ h => h

/-- A program of the machine alone. -/
theorem lift (h : ∀ own, Triple (fun m => P ⟨m, own⟩) x (fun a m => Q a ⟨m, own⟩)
    fun e m => e.Fatal ∨ m.Aligned own) : Mirrors P x (liftMachine x) Q where
  eq {c} hP := by
    cases hx : x c.machine with
    | ok a m =>
      rw [liftMachine_ok hx]
      rfl
    | error e m =>
      rw [liftMachine_error hx]
      rfl
  triple := by
    constructor
    · intro c c' a hP hrun
      cases hx : x c.machine with
      | ok b m =>
        rw [liftMachine_ok hx] at hrun
        cases hrun
        exact (h c.own).ok hP hx
      | error e m =>
        rw [liftMachine_error hx] at hrun
        cases hrun
    · intro c c' e hP hrun
      cases hx : x c.machine with
      | ok b m =>
        rw [liftMachine_ok hx] at hrun
        cases hrun
      | error e m =>
        rw [liftMachine_error hx] at hrun
        cases hrun
        exact (h c.own).error hP hx

theorem of_steady (h : Steady x) :
    Mirrors Copies.Aligned x (liftMachine x) fun _ => Copies.Aligned :=
  .lift fun own => (h own).fails fun _ _ => .inr

/-- Both look at the machine first. -/
theorem read {f : Machine → MachineM α} {g : Copies → CopiesM α}
    (h : ∀ c, P c → Mirrors (fun c' => c' = c) (f c.machine) (g c) Q) :
    Mirrors P (get >>= f) (get >>= g) Q where
  eq {c} hP := (h c hP).eq rfl
  triple := by
    constructor
    · intro c c' a hP hrun
      exact (h c hP).triple.ok rfl hrun
    · intro c c' e hP hrun
      exact (h c hP).triple.error rfl hrun

theorem pre {P' : Copies → Prop} (h : Mirrors P x y Q) (hP : ∀ c, P' c → P c) :
    Mirrors P' x y Q :=
  ⟨fun hc => h.eq (hP _ hc), h.triple.pre hP⟩

end Mirrors

/-! ## Starting a child -/

section

variable [Keccak] [Crypto] {w : Witness}

omit [Crypto] in
/-- A child starts with the counts of its caller's sets. -/
theorem child_aligned {own : List Sets} {m : Machine} {req : ChildReq} {c : Ctx} {snap : Nat}
    (h : m.Aligned own) (hopen : openChild w req m.ctx = .ok snap c) :
    (m.child req c snap).Aligned (m.ctx.sets :: own) := by
  obtain ⟨s, rfl⟩ := openChild_ok hopen
  exact .child req.isChild rfl rfl (.refl _) h

/-- A child is about to start over a copy of the sets. -/
def Copied (c : Copies) : Prop :=
  ∃ own, c.own = c.machine.ctx.sets :: own ∧ c.machine.Aligned own

theorem mirrors_startChild (req : ChildReq) :
    Mirrors Copies.Aligned (startChild w req) (copyStartChild w req)
      fun _ => Copies.Aligned := by
  have hdepth : ¬ stackDepthLimit < req.msg.depth := Nat.not_lt.mpr req.depth_le
  have hcopy : Mirrors Copies.Aligned (pure ())
      (modify fun c => { c with own := c.machine.ctx.sets :: c.own }) fun _ => Copied :=
    ⟨fun _ => rfl, .modify fun c h => ⟨c.own, rfl, h⟩⟩
  rw [← pure_bind () fun _ => startChild w req]
  refine hcopy.bind fun _ => .lift fun own => ⟨?_, ?_⟩
  · rintro m m' _ ⟨below, hown, h⟩ heq
    dsimp only at hown
    cases hopen : openChild w req m.ctx with
    | error e c =>
      rw [startChild_error hopen] at heq
      cases heq
    | ok snap c =>
      rw [startChild_open hopen hdepth] at heq
      rw [hown]
      exact (steady_frameStart _).ok (child_aligned h hopen) heq
  · rintro m m' e ⟨below, hown, h⟩ heq
    dsimp only at hown
    cases hopen : openChild w req m.ctx with
    | error e c =>
      rw [startChild_error hopen] at heq
      cases heq
      exact .inl (openChild_fatal hopen)
    | ok snap c =>
      rw [startChild_open hopen hdepth] at heq
      rw [hown]
      exact .inr ((steady_frameStart _).error (child_aligned h hopen) heq)

/-! ## Finishing a child -/

/-- The caller is current again, its sets still those its child left. -/
def Returned (child : Frame) (c : Copies) : Prop :=
  ∃ mine own, c.own = mine :: own ∧ child.accAddrsN = mine.addrs.count ∧
    child.accKeysN = mine.keys.count ∧ mine.Le c.machine.ctx.sets ∧
    Aligned c.machine.cont.kind c.machine.ctx.ev mine c.machine.suspended own

/-- What the caller drops of the sets of a child. -/
def dropSets (child : Frame) : EvmM Unit :=
  if child.error = none then return () else rollbackChildAccess child

omit [Keccak] [Crypto] in
/-- The tail of a child drops sets first. -/
theorem tail_eq (r : Cont) (child : Frame) :
    r.tail child = dropSets child >>= fun _ => r.ownTail child := by
  unfold Cont.tail Cont.ownTail dropSets genericCallTail genericCreateTail ownCallTail
    ownCreateTail childFailed ownChildFailed
  by_cases hkind : r.kind = .create <;> by_cases herr : child.error = none
  all_goals simp only [hkind, herr, if_true, if_false, ne_eq, not_true_eq_false,
    not_false_eq_true, pure_bind, bind_assoc]

omit [Keccak] [Crypto] in
/-- The sets a caller merges are those it keeps. -/
theorem takeBack_run {child : Frame} {c : Copies} (h : Returned child c) :
    ∃ c', takeBack child c = .ok () c' ∧ c'.Aligned ∧
      liftCtx (dropSets child) c.machine = .ok () c'.machine := by
  obtain ⟨⟨ctx, cont, below⟩, own'⟩ := c
  obtain ⟨mine, own, hown, haddrs, hkeys, hle, halign⟩ := h
  dsimp only at hown haddrs hkeys hle halign
  subst hown
  refine ⟨⟨⟨ctx.withSets (if child.error = none then mine.merge ctx.sets else mine), cont, below⟩,
    own⟩, rfl, ?_⟩
  unfold dropSets
  by_cases herr : child.error = none
  · rw [if_pos herr, if_pos herr, Sets.merge_of_le hle]
    exact ⟨halign.grow hle rfl rfl, rfl⟩
  · rw [if_neg herr, if_neg herr]
    refine ⟨halign, ?_⟩
    have ha : ctx.accAddrs.truncate child.accAddrsN = mine.addrs := by
      rw [haddrs]
      exact hle.1.truncate
    have hk : ctx.accKeys.truncate child.accKeysN = mine.keys := by
      rw [hkeys]
      exact hle.2.truncate
    have hset : ctx.withSets mine = { ctx with
        accAddrs := ctx.accAddrs.truncate child.accAddrsN
        accKeys := ctx.accKeys.truncate child.accKeysN } := by
      rw [ha, hk]
      rfl
    rw [hset]
    rfl

omit [Keccak] [Crypto] in
theorem mirrors_frameClose :
    Mirrors (fun c => c.Aligned ∧ c.machine.cont.kind ≠ .transaction) frameClose
      (liftMachine frameClose) Returned := by
  refine .lift fun own => ⟨?_, ?_⟩
  · rintro m m' child ⟨h, hkind⟩ hrun
    obtain ⟨parent, pcont, below, mine, own', hs, hown, hcaller⟩ := h.caller hkind
    rw [frameClose_run hs] at hrun
    cases hrun
    exact ⟨mine, own', hown, hcaller⟩
  · rintro m m' e ⟨h, hkind⟩ hrun
    obtain ⟨parent, pcont, below, mine, own', hs, -⟩ := h.caller hkind
    rw [frameClose_run hs] at hrun
    cases hrun

omit [Keccak] [Crypto] in
theorem mirrors_tail (r : Cont) (child : Frame) :
    Mirrors (Returned child) (liftCtx (r.tail child))
      (takeBack child >>= fun _ => liftMachine (liftCtx (r.ownTail child)))
      fun _ => Copies.Aligned := by
  rw [tail_eq, liftCtx_bind]
  have hdrop : Mirrors (Returned child) (liftCtx (dropSets child)) (takeBack child)
      fun _ => Copies.Aligned := by
    refine ⟨fun h => ?_, ⟨fun h heq => ?_, fun h heq => ?_⟩⟩
    · obtain ⟨c', hrun, -, hdrop⟩ := takeBack_run h
      rw [hrun, hdrop]
      rfl
    · obtain ⟨c', hrun, haligned, -⟩ := takeBack_run h
      rw [hrun] at heq
      cases heq
      exact haligned
    · obtain ⟨c', hrun, -, -⟩ := takeBack_run h
      rw [hrun] at heq
      cases heq
  exact hdrop.bind fun _ => .of_steady (steady_liftCtx _)

omit [Crypto] in
/-- The end of a child keeps the record of its frame until its caller is current again. -/
theorem mirrors_close (r : Cont) :
    Mirrors (fun c => c.Aligned ∧ c.machine.cont.kind ≠ .transaction) (liftCtx (r.close w))
      (liftMachine (liftCtx (r.close w)))
      fun _ c => c.Aligned ∧ c.machine.cont.kind ≠ .transaction :=
  .lift fun own => ((steady_liftCtx _ own).frame (keeps_cont_liftCtx _)
    fun _ _ hkind heq => heq ▸ hkind).fails fun _ _ => .inr

omit [Crypto] in
theorem mirrors_finishChild :
    Mirrors (fun c => c.Aligned ∧ c.machine.cont.kind ≠ .transaction) (finishChild w)
      (copyFinishChild w) fun _ => Copies.Aligned := by
  refine .read fun c hc => ?_
  refine .pre (P := fun c => c.Aligned ∧ c.machine.cont.kind ≠ .transaction) ?_
    fun c' h => h ▸ hc
  refine .bind (mirrors_close c.machine.cont) fun _ => .bind mirrors_frameClose fun child => ?_
  rw [← bind_assoc]
  exact .bind (mirrors_tail c.machine.cont child) fun _ => .of_steady (steady_liftCtx _)

/-! ## A round -/

omit [Keccak] [Crypto] in
theorem mirrors_exception (err : EvmErr) :
    Mirrors Copies.Aligned (frameException err) (copyException err) fun _ => Copies.Aligned :=
  .of_steady (steady_frameException err)

theorem mirrors_runOp (op : Nat) :
    Mirrors Copies.Aligned (runOp w op) (copyRunOp w op) fun _ => Copies.Aligned := by
  refine .bind (.of_steady (steady_liftCtx _)) fun started => ?_
  cases started with
  | none => exact .pure () fun _ h => h
  | some req => exact mirrors_startChild req

omit [Keccak] [Crypto] in
theorem mirrors_last :
    Mirrors Copies.Aligned frameClose (liftMachine frameClose) fun _ _ => True := by
  refine .lift fun own => ⟨fun _ _ => trivial, fun {m m' e} h hrun => ?_⟩
  obtain ⟨f, s, hclose⟩ := frameClose_ok m
  rw [hclose] at hrun
  cases hrun

theorem mirrors_round :
    Mirrors Copies.Aligned (frameRound w) (copyRound w) fun a c => a = none → c.Aligned := by
  have hnone : Mirrors Copies.Aligned (pure none) (pure none : CopiesM (Option Frame))
      fun a c => a = none → c.Aligned := .pure _ fun _ h _ => h
  refine .read fun c hc => ?_
  refine .pre (P := fun c' => c'.Aligned ∧ c'.machine.cont = c.machine.cont) ?_
    fun c' h => ⟨h ▸ hc, h ▸ rfl⟩
  dsimp only
  generalize (if c.machine.cont.done then none else c.machine.ctx.ev.opcode?) = o
  cases o with
  | some op =>
    refine .pre (P := Copies.Aligned) ?_ fun _ h => h.1
    exact .bind (.handle (mirrors_runOp op) mirrors_exception) fun _ => hnone
  | none =>
    refine .bind (Q := fun _ c' => c'.Aligned ∧ c'.machine.cont = c.machine.cont) ?_ fun _ => ?_
    · exact .lift fun own => ((steady_liftCtx _ own).frame (keeps_cont_liftCtx _)
        fun _ _ hcont heq => heq.trans hcont).fails fun _ _ => .inr
    by_cases hkind : c.machine.cont.kind = .transaction
    · simp only [if_pos hkind]
      refine .pre (P := Copies.Aligned) ?_ fun _ h => h.1
      exact .bind mirrors_last fun _ => .pure _ fun _ _ h => nomatch h
    · simp only [if_neg hkind]
      refine .bind (.handle (.pre mirrors_finishChild fun c' h => ⟨h.1, ?_⟩) mirrors_exception)
        fun _ => hnone
      rw [h.2]
      exact hkind

/-! ## The theorem -/

theorem mirrors_loop (n : Nat) :
    Mirrors Copies.Aligned (loop .outOfFuel (frameRound w) n) (loop .outOfFuel (copyRound w) n)
      fun _ _ => True := by
  induction n with
  | zero => exact ⟨fun _ => rfl, .throw fun _ h => .inr h⟩
  | succ n ih =>
    refine .bind mirrors_round fun a => ?_
    cases a with
    | some frame => exact .pure frame fun _ _ => trivial
    | none => exact ih.pre fun _ h => h rfl

omit [Keccak] [Crypto] in
/-- The frame of a transaction has no caller with sets to give back. -/
theorem aligned_transaction {c : Copies} (h : c.machine.cont.kind = .transaction) :
    c.Aligned := by
  change Aligned c.machine.cont.kind _ _ _ _
  rw [h]
  exact .root

/-- Running the prepared frame of a transaction. -/
theorem driveFrame_copies (fuel : Nat) {c : Copies} (h : c.machine.cont.kind = .transaction) :
    withoutOwn ((do
      liftMachine recordSnapshot
      liftMachine (frameStart w)
      loop .outOfFuel (copyRound w) fuel : CopiesM Frame) c) = driveFrame w fuel c.machine := by
  have hdrive := (Mirrors.of_steady steady_recordSnapshot).bind fun _ =>
    (Mirrors.of_steady (steady_frameStart (w := w))).bind fun _ => mirrors_loop (w := w) fuel
  exact hdrive.eq (aligned_transaction h)

/-- `process_message` for a transaction does the same whether the frames share the accessed sets
or have their own: it yields the same, and when the bound cuts it short the machine, the sets of
its current frame included, is the same. -/
theorem accessed_sets_are_copies (w : Witness) (fuel : Nat) (msg : Msg) (m : Machine)
    (own : List Sets) :
    withoutOwn (copyProcessMessage w fuel msg ⟨m, own⟩) = processMessage w fuel msg m := by
  unfold copyProcessMessage processMessage
  by_cases hdepth : stackDepthLimit < msg.depth
  · simp only [if_pos hdepth]
    rfl
  simp only [if_neg hdepth]
  obtain ⟨mo, hopen, hkind, hs⟩ : ∃ mo, frameOpen msg .transaction m = .ok () mo ∧
      mo.cont.kind = .transaction ∧ mo.suspended = (m.ctx.ev, m.cont) :: m.suspended :=
    ⟨_, rfl, rfl, rfl⟩
  rw [bind_run_ok hopen, bind_run_ok (liftMachine_ok hopen)]
  obtain ⟨b, c, -, hprep⟩ | ⟨e, m', -, hprep⟩ := prepareMessage_sim (w := w) msg hs
  · rw [bind_run_ok hprep, bind_run_ok (liftMachine_ok hprep)]
    cases b with
    | true => exact driveFrame_copies fuel hkind
    | false =>
      have hclose := frameClose_run (m := { mo with ctx := c }) hs
      exact congrArg withoutOwn (liftMachine_ok hclose) |>.trans hclose.symm
  · rw [bind_run_error hprep, bind_run_error (liftMachine_error hprep)]
    rfl

end

end StatelessGuest
