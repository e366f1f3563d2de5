import StatelessGuest.Evm.Paying
import StatelessGuest.Evm.Rounds

/-!
# The frame loop terminates

The gas of the live frames, left, used and spilled, never grows, and a caller's share is what its
child was not given. Every round uses gas or takes a frame nearer to its end, so the number of
rounds is bounded by the gas of the message.

* `Machine.used`, `Machine.held`: the regular gas used by the live frames, and all of theirs.
* `round_used`: what one round does to them.
* `run_frames_terminates`: the bound.
-/

namespace StatelessGuest

open Lib

/-! ## Live frames -/

/-- The callers of a frame, up to the frame of the transaction. -/
def callers : FrameKind → List (Frame × Cont) → List Frame
  | .transaction, _ => []
  | _, [] => []
  | _, (parent, pcont) :: below => parent :: callers pcont.kind below

namespace Machine

def callers (m : Machine) : List Frame := StatelessGuest.callers m.cont.kind m.suspended

/-- The frames of the transaction that are not finished. -/
def live (m : Machine) : List Frame := m.ctx.ev :: m.callers

def held (m : Machine) : Nat := (m.live.map Frame.gasTotal).sum

def used (m : Machine) : Nat := (m.live.map fun e => e.regularGasUsed.toNat).sum

/-- A running frame has a stop and an end ahead, a stopped one its end. -/
def pending (m : Machine) : Nat :=
  2 * m.callers.length + if m.cont.done = false ∧ m.ctx.ev.running then 2 else 1

end Machine

theorem callers_transaction (below : List (Frame × Cont)) : callers .transaction below = [] := by
  cases below <;> rfl

theorem callers_child {kind : FrameKind} (hkind : kind ≠ .transaction) (parent : Frame)
    (pcont : Cont) (below : List (Frame × Cont)) :
    callers kind ((parent, pcont) :: below) = parent :: callers pcont.kind below := by
  cases kind with
  | transaction => exact absurd rfl hkind
  | call => rfl
  | create => rfl

theorem Machine.pending_le (m : Machine) : m.pending ≤ 2 * m.callers.length + 2 := by
  unfold Machine.pending
  split <;> omega

theorem Machine.pending_pos (m : Machine) : 2 * m.callers.length + 1 ≤ m.pending := by
  unfold Machine.pending
  split <;> omega

/-- The gas of the callers, and what they used. -/
def heldBelow (m : Machine) : Nat := (m.callers.map Frame.gasTotal).sum

def usedBelow (m : Machine) : Nat := (m.callers.map fun e => e.regularGasUsed.toNat).sum

theorem Machine.held_eq (m : Machine) : m.held = m.ctx.ev.gasTotal + heldBelow m := by
  simp [Machine.held, Machine.live, heldBelow]

theorem Machine.used_eq (m : Machine) :
    m.used = m.ctx.ev.regularGasUsed.toNat + usedBelow m := by
  simp [Machine.used, Machine.live, usedBelow]

section

variable [Keccak] [Crypto] {w : Witness}

/-! ## The end of a child -/

omit [Keccak] [Crypto] in
theorem meter_incorporate {T r : Nat} {child : Frame} {E : Exn → Ctx → Prop}
    (hT : T + child.gasTotal < 2 ^ 64) :
    Triple (Meter T r) (incorporateChildOnError child) (fun _ =>
      Meter (T + child.gasLeft.toNat + child.regularGasUsed.toNat)
        (r + child.regularGasUsed.toNat)) E := by
  refine triple_modifyEv fun c ⟨htotal, hused⟩ => ?_
  unfold Frame.gasTotal at hT htotal
  have hsum : (c.ev.regularGasUsed + child.regularGasUsed).toNat =
      c.ev.regularGasUsed.toNat + child.regularGasUsed.toNat := by
    rw [BitVec.toNat_add, Nat.mod_eq_of_lt (by omega)]
  have hleft : (c.ev.gasLeft + child.gasLeft).toNat ≤ c.ev.gasLeft.toNat + child.gasLeft.toNat := by
    rw [BitVec.toNat_add]
    exact Nat.mod_le _ _
  refine ⟨?_, ?_⟩
  · unfold Frame.gasTotal
    dsimp only
    rw [hsum]
    omega
  · dsimp only
    rw [hsum]
    omega

omit [Keccak] [Crypto] in
theorem metered_repay : Keeps Metered (modifyEv Frame.repayStateGasSpill) := by
  refine Keeps.modify fun c _ => ⟨?_, Nat.le_refl _⟩
  have hmin := minWord_toNat c.ev.stateGasSpilled c.ev.stateGasLeft
  have hspilled : (c.ev.stateGasSpilled - minWord c.ev.stateGasSpilled c.ev.stateGasLeft).toNat =
      c.ev.stateGasSpilled.toNat - min c.ev.stateGasSpilled.toNat c.ev.stateGasLeft.toNat := by
    rw [BitVec.toNat_sub_of_le, hmin]
    rw [BitVec.le_def, hmin]
    omega
  have hleft : (c.ev.gasLeft + minWord c.ev.stateGasSpilled c.ev.stateGasLeft).toNat ≤
      c.ev.gasLeft.toNat + min c.ev.stateGasSpilled.toNat c.ev.stateGasLeft.toNat := by
    rw [BitVec.toNat_add, hmin]
    exact Nat.mod_le _ _
  unfold Frame.gasTotal
  simp only [Frame.repayStateGasSpill]
  rw [hspilled]
  omega

omit [Keccak] [Crypto] in
theorem meter_success {T r : Nat} {child : Frame} (hT : T + child.gasTotal < 2 ^ 64) :
    Triple (Meter T r) (incorporateChildOnSuccess child)
      (fun _ => Meter (T + child.gasTotal) (r + child.regularGasUsed.toNat))
      fun _ => Meter (T + child.gasTotal) (r + child.regularGasUsed.toNat) := by
  unfold incorporateChildOnSuccess
  refine .bind (meter_incorporate hT) fun _ => ?_
  refine .bind (Q := fun _ => Meter (T + child.gasTotal) (r + child.regularGasUsed.toNat))
    (triple_modifyEv fun c ⟨htotal, hused⟩ => ⟨?_, hused⟩) fun _ => ?_
  · unfold Frame.gasTotal at htotal ⊢
    dsimp only
    rw [BitVec.toNat_add]
    omega
  exact .bind (triple_meter metered_repay hT) fun _ => triple_modifyEv fun c h => h

omit [Keccak] [Crypto] in
theorem meter_failed {T r : Nat} {child : Frame} (hT : T + child.gasTotal < 2 ^ 64)
    (charged : Bool) :
    Triple (Meter T r) (childFailed child charged)
      (fun _ => Meter (T + child.gasTotal) (r + child.regularGasUsed.toNat))
      fun _ => Meter (T + child.gasTotal) (r + child.regularGasUsed.toNat) := by
  unfold childFailed
  refine .bind (Q := fun _ => Meter T r) (.modify fun c h => h) fun _ => ?_
  refine .bind (Q := fun _ => Meter (T + child.gasTotal) (r + child.regularGasUsed.toNat))
    ((meter_incorporate hT).post fun _ c h => h.mono ?_ (Nat.le_refl _)) fun _ => ?_
  · unfold Frame.gasTotal
    omega
  · iterate 2 refine .bind (triple_meter inferInstance hT) fun _ => ?_
    exact triple_meter inferInstance hT

instance (child : Frame) (outStart outSize : Word) :
    Keeps Metered (copyOutput child outStart outSize) := by
  unfold copyOutput
  infer_instance

omit [Keccak] [Crypto] in
/-- A caller gets back what its child has left, used and spilled. -/
theorem meter_resume {T r : Nat} {child : Frame} (hT : T + child.gasTotal < 2 ^ 64) (r' : Cont) :
    Triple (Meter T r) (resume r' child)
      (fun _ => Meter (T + child.gasTotal) (r + child.regularGasUsed.toNat))
      fun _ => Meter (T + child.gasTotal) (r + child.regularGasUsed.toNat) := by
  refine .bind (Q := fun _ => Meter (T + child.gasTotal) (r + child.regularGasUsed.toNat)) ?_
    fun _ => triple_meter inferInstance hT
  unfold Cont.tail genericCreateTail genericCallTail
  split
  · split
    · exact meter_failed hT _
    · refine .bind (meter_success hT) fun _ => ?_
      exact .bind (triple_meter inferInstance hT) fun _ => triple_meter inferInstance hT
  · split
    · exact .bind (meter_failed hT _) fun _ => triple_meter inferInstance hT
    · refine .bind (meter_success hT) fun _ => ?_
      iterate 2 refine .bind (triple_meter inferInstance hT) fun _ => ?_
      exact triple_meter inferInstance hT

/-! ## One round -/

omit [Keccak] [Crypto] in
/-- Whatever ends a frame is metered. -/
theorem metered_failed (err : EvmErr) (c : Ctx) :
    Metered c { c with ev := c.ev.failed err } :=
  Keeps.ok (x := frameFail err) inferInstance (frameFail_run err c)

/-- The gas held does not grow, and what is used or pending moves on. -/
def Advance (m m' : Machine) : Prop :=
  m'.held ≤ m.held ∧ m'.pending + 3 * m.used + 1 ≤ m.pending + 3 * m'.used

omit [Keccak] [Crypto] in
theorem Advance.inside {m m' : Machine} {k : Nat} (hcallers : m'.callers = m.callers)
    (hm : Meter m.ctx.ev.gasTotal (m.ctx.ev.regularGasUsed.toNat + k) m'.ctx)
    (hpending : m'.pending + 1 ≤ m.pending + 3 * k) : Advance m m' := by
  have hb : heldBelow m' = heldBelow m := by rw [heldBelow, hcallers, heldBelow]
  have hu : usedBelow m' = usedBelow m := by rw [usedBelow, hcallers, usedBelow]
  obtain ⟨htotal, hused⟩ := hm
  rw [Advance, Machine.held_eq, Machine.held_eq, Machine.used_eq, Machine.used_eq, hb, hu]
  omega

omit [Keccak] [Crypto] in
/-- A child started with the gas its caller lent. -/
theorem Advance.start {m m' : Machine} {parent : Frame} {g : Nat}
    (hcallers : m'.callers = parent :: m.callers) (hchild : m'.ctx.ev.gasTotal ≤ g)
    (hlent : parent.gasTotal + g ≤ m.ctx.ev.gasTotal)
    (hused : m.ctx.ev.regularGasUsed.toNat + 1 ≤ parent.regularGasUsed.toNat)
    (hrunning : m.pending = 2 * m.callers.length + 2) : Advance m m' := by
  have hb : heldBelow m' = parent.gasTotal + heldBelow m := by simp [heldBelow, hcallers]
  have hu : usedBelow m' = parent.regularGasUsed.toNat + usedBelow m := by
    simp [usedBelow, hcallers]
  have hpending := m'.pending_le
  rw [hcallers, List.length_cons] at hpending
  rw [Advance, Machine.held_eq, Machine.held_eq, Machine.used_eq, Machine.used_eq, hb, hu]
  omega

omit [Keccak] [Crypto] in
/-- A child ended and its caller has its gas. -/
theorem Advance.finish {m m' : Machine} {parent : Frame} (hcallers : m.callers = parent :: m'.callers)
    (hheld : m'.ctx.ev.gasTotal ≤ parent.gasTotal + m.ctx.ev.gasTotal)
    (hused : parent.regularGasUsed.toNat + m.ctx.ev.regularGasUsed.toNat ≤
      m'.ctx.ev.regularGasUsed.toNat) : Advance m m' := by
  have hb : heldBelow m = parent.gasTotal + heldBelow m' := by simp [heldBelow, hcallers]
  have hu : usedBelow m = parent.regularGasUsed.toNat + usedBelow m' := by
    simp [usedBelow, hcallers]
  have hpending := m.pending_pos
  have hpending' := m'.pending_le
  rw [hcallers, List.length_cons] at hpending
  rw [Advance, Machine.held_eq, Machine.held_eq, Machine.used_eq, Machine.used_eq, hb, hu]
  omega

omit [Keccak] [Crypto] in
theorem Machine.At.pending_eq {m : Machine} {op : Nat} (h : m.At op) :
    m.pending = 2 * m.callers.length + 2 := by
  have hrunning : m.ctx.ev.running = true := by
    have hop := h.opcode
    unfold Frame.opcode? at hop
    split at hop
    · assumption
    · cases hop
  rw [Machine.pending, if_pos ⟨h.running, hrunning⟩]

omit [Keccak] [Crypto] in
theorem Machine.pending_excepted (m : Machine) (c : Ctx) (err : EvmErr) :
    (m.excepted c err).pending = 2 * m.callers.length + 1 := rfl

omit [Crypto] in
/-- A child that started, whatever its prologue did. -/
theorem advance_start {m m' : Machine} {op snap : Nat} {req : ChildReq} {c c' : Ctx}
    (hT : m.ctx.ev.gasTotal < 2 ^ 64) (hat : m.At op)
    (hop : opDispatch w op m.ctx = .ok (some req) c) (hopen : openChild w req c = .ok snap c')
    (hkind : m'.cont.kind = req.kind) (hs : m'.suspended = (c'.ev, m.cont) :: m.suspended)
    (hm : Metered (Machine.child { m with ctx := c } req c' snap).ctx m'.ctx) : Advance m m' := by
  have hself : Meter m.ctx.ev.gasTotal m.ctx.ev.regularGasUsed.toNat m.ctx :=
    ⟨Nat.le_refl _, Nat.le_refl _⟩
  obtain ⟨T, hlent, htotal, hused⟩ := (moved_opDispatch w hT op).ok hself hop
  have hcallers : m'.callers = c'.ev :: m.callers := by
    rw [Machine.callers, hkind, hs, callers_child req.isChild]
    rfl
  have hnew : (Machine.child { m with ctx := c } req c' snap).ctx.ev.gasTotal =
      req.msg.gas.toNat := rfl
  have hgas := hm (hnew ▸ req.msg.gas.isLt)
  rw [hnew] at hgas
  rw [openChild_ev hopen] at hcallers
  exact .start hcallers hgas.1 (by omega) hused hat.pending_eq

omit [Crypto] in
/-- What a caller has after its child, however the resumption ends. -/
theorem advance_finish {m m' : Machine} {parent : Frame} {pcont : Cont}
    {below : List (Frame × Cont)} {c c' : Ctx} (hheld : m.held < 2 ^ 64)
    (hkind : m.cont.kind ≠ .transaction) (hs : m.suspended = (parent, pcont) :: below)
    (hep : frameEpilogue m.cont.snapshot m.ctx = .ok () c)
    (hclose : m.cont.close w c = .ok () c') (hkind' : m'.cont.kind = pcont.kind)
    (hs' : m'.suspended = below)
    (hm : ∀ {T r : Nat}, T + c'.ev.gasTotal < 2 ^ 64 → Meter T r { c' with ev := parent } →
      Meter (T + c'.ev.gasTotal) (r + c'.ev.regularGasUsed.toNat) m'.ctx) : Advance m m' := by
  have hcallers : m.callers = parent :: m'.callers := by
    rw [Machine.callers, hs, callers_child hkind, Machine.callers, hkind', hs']
  have hmetered : Metered m.ctx c' :=
    trans_of Metered (Keeps.ok (x := frameEpilogue m.cont.snapshot) inferInstance hep)
      (Keeps.ok (x := m.cont.close w) inferInstance hclose)
  have hbelow : heldBelow m = parent.gasTotal + heldBelow m' := by simp [heldBelow, hcallers]
  rw [Machine.held_eq, hbelow] at hheld
  obtain ⟨htotal, hused⟩ := hmetered (by omega)
  obtain ⟨htotal', hused'⟩ := hm (by omega) ⟨Nat.le_refl parent.gasTotal, Nat.le_refl _⟩
  dsimp only at hused'
  exact .finish hcallers (by omega) (by omega)

/-- One round: the gas held does not grow, and what is used or pending moves on. -/
theorem round_used {m m' : Machine} (hheld : m.held < 2 ^ 64) (h : Round w m m') :
    Advance m m' := by
  have hT : m.ctx.ev.gasTotal < 2 ^ 64 := by
    rw [Machine.held_eq] at hheld
    omega
  have hself : Meter m.ctx.ev.gasTotal m.ctx.ev.regularGasUsed.toNat m.ctx :=
    ⟨Nat.le_refl _, Nat.le_refl _⟩
  cases h with
  | @step op c hat hop =>
    have hpending := hat.pending_eq
    obtain hm | ⟨hm, hstop⟩ := (moved_opDispatch w hT op).ok hself hop
    · refine .inside (k := 1) rfl hm ?_
      have hle := Machine.pending_le { m with ctx := c }
      have hcallers : Machine.callers { m with ctx := c } = m.callers := rfl
      rw [hcallers] at hle
      omega
    · refine .inside (k := 0) rfl hm ?_
      have hle : Machine.pending { m with ctx := c } = 2 * m.callers.length + 1 := by
        unfold Machine.pending
        rw [if_neg fun h => by simp [hstop] at h]
        rfl
      omega
  | @fail op err c hat hop =>
    have hm := ((moved_opDispatch w hT op).error hself hop).step hT (metered_failed err c)
    refine .inside (k := 0) rfl hm ?_
    rw [Machine.pending_excepted, hat.pending_eq]
  | start hat hop hopen hchild hpro =>
    subst hchild
    exact advance_start hT hat hop hopen rfl rfl (Keeps.ok inferInstance hpro)
  | startFail hat hop hopen hchild hpro =>
    subst hchild
    exact advance_start hT hat hop hopen rfl rfl
      (trans_of Metered (Keeps.error inferInstance hpro) (metered_failed _ _))
  | finish hover hkind hs hep hclose htail =>
    exact advance_finish hheld hkind hs hep hclose rfl rfl
      fun hlt hm => (meter_resume hlt _).ok hm htail
  | finishFail hover hkind hs hep hclose htail =>
    exact advance_finish hheld hkind hs hep hclose rfl rfl
      fun hlt hm => ((meter_resume hlt _).error hm htail).step hlt (metered_failed _ _)

/-! ## The run of a message -/

/-- Rounds from `m` to `m'`, each of which yields nothing. -/
abbrev Rounds (w : Witness) (n : Nat) (m m' : Machine) : Prop :=
  Goes (frameRound w) (fun _ => True) n m m'

/-- What every number of rounds does. -/
theorem rounds_used {n : Nat} {m m' : Machine} (hst : m.Stacked) (hheld : m.held < 2 ^ 64)
    (h : Rounds w n m m') :
    m'.held ≤ m.held ∧ m'.pending + 3 * m.used + n ≤ m.pending + 3 * m'.used := by
  induction h with
  | refl m => exact ⟨Nat.le_refl _, Nat.le_refl _⟩
  | step _ hround _ ih =>
    have hr := round_of_frameRound hst hround
    obtain ⟨hh, hp⟩ := round_used hheld hr
    obtain ⟨hh', hp'⟩ := ih (hr.stacked hst) (Nat.lt_of_le_of_lt hh hheld)
    exact ⟨hh'.trans hh, by omega⟩

omit [Keccak] [Crypto] in
theorem Machine.used_le_held (m : Machine) : m.used ≤ m.held := by
  unfold Machine.used Machine.held
  induction m.live with
  | nil => exact Nat.le_refl _
  | cons e es ih =>
    simp only [List.map_cons, List.sum_cons]
    unfold Frame.gasTotal at ih ⊢
    omega

/-- A prepared frame has run its preparation to the end. -/
theorem prepareFrame_true {reservoir : Word} {m m' : Machine}
    (h : prepareFrame w reservoir m = .ok true m') :
    ∃ c, depth0Prepare w m.ctx = .ok () c ∧ m' = { m with ctx := c } := by
  cases hprep : depth0Prepare w m.ctx with
  | ok _ c =>
    have hrun : prepareFrame w reservoir m = .ok true { m with ctx := c } :=
      catchEvm_ok (bind_run_ok (liftCtx_ok hprep))
    rw [hrun] at h
    cases h
    exact ⟨c, rfl, rfl⟩
  | error e c =>
    have herror := bind_run_error (f := fun _ => (pure true : MachineM Bool))
      (liftCtx_error (m := m) hprep)
    obtain he | ⟨err, rfl⟩ := e.fatal_or
    · have hrun : prepareFrame w reservoir m = .error e { m with ctx := c } :=
        catchEvm_fatal he herror
      rw [hrun] at h
      cases h
    · have hrun := (catchEvm_evm herror).symm.trans h
      split at hrun
      · obtain ⟨f, s, hclose⟩ := frameClose_ok { m with ctx := c }
        rw [bind_run_ok hclose] at hrun
        cases hrun
      · obtain ⟨_, s, -, hret⟩ := bind_ok.mp hrun
        cases hret

/-- What `process_message` does before the loop; false when the preparation failed. -/
def startMessage (w : Witness) (msg : Msg) : MachineM Bool := do
  if stackDepthLimit < msg.depth then throw (.evm .stackDepthLimit)
  frameOpen msg .transaction
  if ← prepareMessage w msg then
    recordSnapshot
    frameStart w
    return true
  else return false

theorem processMessage_eq (fuel : Nat) (msg : Msg) : processMessage w fuel msg = (do
    if ← startMessage w msg then runFrames w fuel else frameClose : MachineM Frame) := by
  unfold processMessage startMessage driveFrame
  by_cases hdepth : stackDepthLimit < msg.depth
  · simp only [if_pos hdepth]
    rfl
  · simp only [if_neg hdepth, bind_assoc]
    refine bind_congr fun _ => bind_congr fun prepared => ?_
    cases prepared with
    | true => simp only [if_true, bind_assoc, pure_bind]
    | false => rfl

section

variable {R : Ctx → Ctx → Prop} [Tends R] [Emits R] [∀ code, Keeps R (setFrameCode code)]
  [Keeps R rebaseReservoir]

omit [Emits R] in
theorem prepareMessage_true {msg : Msg} {m m' : Machine}
    (h : prepareMessage w msg m = .ok true m') : m'.cont = m.cont ∧ R m.ctx m'.ctx := by
  unfold prepareMessage at h
  split at h
  · obtain ⟨c, hc, rfl⟩ := prepareFrame_true h
    exact ⟨rfl, Keeps.ok (x := depth0Prepare w) inferInstance hc⟩
  · cases h
    exact ⟨rfl, refl_of R _⟩

omit [∀ code, Keeps R (setFrameCode code)] [Keeps R rebaseReservoir] in
theorem frameStart_keeps {m m' : Machine} (hd : m.cont.done = false)
    (h : frameStart w m = .ok () m') : m'.cont.kind = m.cont.kind ∧ R m.ctx m'.ctx := by
  obtain ⟨done, c, hpro, rfl⟩ | ⟨err, c, hpro, rfl⟩ := frameStart_ok hd h
  · exact ⟨rfl, Keeps.ok (x := framePrologue w) inferInstance hpro⟩
  · have hm : R m.ctx c := Keeps.error (x := framePrologue w) inferInstance hpro
    have hfail : R c { c with ev := c.ev.failed err } :=
      Keeps.ok (x := frameFail err) inferInstance (frameFail_run err c)
    exact ⟨rfl, trans_of R hm hfail⟩

/-- The loop starts in the frame of the transaction, which its preparation has kept up. -/
theorem startMessage_keeps {msg : Msg} {m m₀ : Machine}
    (h : startMessage w msg m = .ok true m₀) :
    m₀.cont.kind = .transaction ∧ R { m.ctx with
      ev := frameNew msg m.ctx.accAddrs.count m.ctx.accKeys.count } m₀.ctx := by
  unfold startMessage at h
  by_cases hdepth : stackDepthLimit < msg.depth
  · simp only [if_pos hdepth] at h
    cases h
  simp only [if_neg hdepth] at h
  obtain ⟨_, mo, hopen, h⟩ := bind_ok.mp h
  obtain ⟨prepared, m₁, hprep, h⟩ := bind_ok.mp h
  cases prepared with
  | false => cases h
  | true =>
    obtain ⟨_, m₂, hsnap, h⟩ := bind_ok.mp h
    obtain ⟨_, m₃, hstart, hret⟩ := bind_ok.mp h
    obtain ⟨hcont, hm₁⟩ := prepareMessage_true (R := R) hprep
    have hm₂ : m₂.ctx = m₁.ctx ∧ m₂.cont.kind = m₁.cont.kind ∧
        m₂.cont.done = m₁.cont.done := by
      cases hsnap
      exact ⟨rfl, rfl, rfl⟩
    have hmo : mo.cont.kind = .transaction ∧ mo.cont.done = false ∧ mo.ctx = { m.ctx with
        ev := frameNew msg m.ctx.accAddrs.count m.ctx.accKeys.count } := by
      cases hopen
      exact ⟨rfl, rfl, rfl⟩
    obtain ⟨hctx, hkind, hdone⟩ := hm₂
    obtain ⟨hkind₀, hdone₀, hfresh⟩ := hmo
    rw [hcont] at hkind hdone
    obtain ⟨hkind₃, hm₃⟩ := frameStart_keeps (R := R) (hdone.trans hdone₀) hstart
    cases hret
    rw [hctx] at hm₃
    rw [hfresh] at hm₁
    exact ⟨hkind₃.trans (hkind.trans hkind₀), trans_of R hm₁ hm₃⟩

end

/-- The frame of the transaction starts with at most the gas of the message. -/
theorem startMessage_held {msg : Msg} {m m₀ : Machine}
    (h : startMessage w msg m = .ok true m₀) :
    m₀.cont.kind = .transaction ∧ m₀.held ≤ msg.gas.toNat := by
  obtain ⟨hkind, hm⟩ := startMessage_keeps (R := Metered) h
  have hcallers : m₀.callers = [] := by
    rw [Machine.callers, hkind, callers_transaction]
  have htotal := (hm msg.gas.isLt).1
  rw [Machine.held_eq, heldBelow, hcallers]
  exact ⟨hkind, htotal⟩

omit [Keccak] [Crypto] in
theorem stacked_transaction {m : Machine} (h : m.cont.kind = .transaction) : m.Stacked := by
  unfold Machine.Stacked
  rw [h]
  exact .root

/-- The machine of a message after some rounds. -/
def afterRounds (w : Witness) (msg : Msg) (m : Machine) : Nat → Option Machine
  | 0 => match startMessage w msg m with
    | .ok true m₀ => some m₀
    | _ => none
  | n + 1 => (afterRounds w msg m n).bind fun m' => match frameRound w m' with
    | .ok none m'' => some m''
    | _ => none

theorem afterRounds_some {msg : Msg} {n : Nat} {m m' : Machine}
    (h : afterRounds w msg m n = some m') :
    ∃ m₀, startMessage w msg m = .ok true m₀ ∧ Rounds w n m₀ m' := by
  induction n generalizing m' with
  | zero =>
    unfold afterRounds at h
    split at h
    · next hrun =>
      cases h
      exact ⟨m', hrun, .refl m'⟩
    · cases h
  | succ n ih =>
    obtain ⟨m₁, h₁, hround⟩ := Option.bind_eq_some_iff.mp h
    obtain ⟨m₀, hstart, hgo⟩ := ih h₁
    split at hround
    · next hrun =>
      cases hround
      exact ⟨m₀, hstart, hgo.trans (.single trivial hrun)⟩
    · cases hround

/-! ## The theorem -/

/-- The net regular gas the live frames used, each counter read as a signed word. -/
def Machine.netUsed (m : Machine) : Int := (m.live.map fun e => e.regularGasUsed.toInt).sum

omit [Keccak] [Crypto] in
theorem Machine.netUsed_le_used (m : Machine) : m.netUsed ≤ m.used := by
  unfold Machine.netUsed Machine.used
  induction m.live with
  | nil => exact le_refl _
  | cons e es ih =>
    have hle : e.regularGasUsed.toInt ≤ e.regularGasUsed.toNat := by
      rw [BitVec.toInt_eq_toNat_cond]
      split <;> omega
    simp only [List.map_cons, List.sum_cons]
    omega

/-- The loop of a message ends after at most three rounds for each unit of its regular gas and
two more, with the frame of the transaction or with a trap or a rejection; and in every state on
the way the live frames have not used more regular gas than the message had. -/
theorem run_frames_terminates {w : Witness} {msg : Msg} {m m₀ : Machine}
    (h : startMessage w msg m = .ok true m₀) :
    (∃ n ≤ 3 * msg.gas.toNat + 1, ∃ m', Rounds w n m₀ m' ∧
      ((∃ e m'', frameRound w m' = .ok (some e) m'') ∨
        ∃ e m'', e.Fatal ∧ frameRound w m' = .error e m'')) ∧
    ∀ n m', Rounds w n m₀ m' → m'.netUsed ≤ msg.gas.toNat := by
  obtain ⟨hkind, hheld⟩ := startMessage_held h
  have hcallers : m₀.callers = [] := by
    rw [Machine.callers, hkind, callers_transaction]
  have hst := stacked_transaction hkind
  have hlt : m₀.held < 2 ^ 64 := Nat.lt_of_le_of_lt hheld msg.gas.isLt
  have hbound : ∀ n m', Rounds w n m₀ m' → m'.used ≤ msg.gas.toNat ∧
      n ≤ 3 * msg.gas.toNat + 1 := by
    intro n m' hgo
    obtain ⟨hh, hp⟩ := rounds_used hst hlt hgo
    have hused := m'.used_le_held
    have hfirst := m₀.pending_le
    have hlast := m'.pending_pos
    rw [hcallers, List.length_nil] at hfirst
    exact ⟨by omega, by omega⟩
  refine ⟨?_, fun n m' hgo => ?_⟩
  · obtain ⟨n, hn, m', hgo, hend⟩ := ends_of_bounded fun n m' hgo => (hbound n m' hgo).2
    refine ⟨n, hn, m', hgo, ?_⟩
    cases hround : frameRound w m' with
    | error e m'' => exact .inr ⟨e, m'', frameRound_error_fatal hround, rfl⟩
    | ok a m'' =>
      cases a with
      | none => exact absurd hround (hend m'')
      | some e => exact .inl ⟨e, m'', rfl⟩
  · have hnet := m'.netUsed_le_used
    have hused := (hbound n m' hgo).1
    omega

end

section

attribute [local instance] numKeccak stubCrypto

/-- A call of an account without code. -/
private def idleCall : Msg :=
  { (default : Msg) with
    caller := 0x10
    target := some 0x2000
    currentTarget := 0x2000
    codeAddress := some 0x2000
    gas := 50000 }

private def startResult : EStateM.Result Exn Machine Bool → Bool
  | .ok started _ => started
  | .error _ _ => false

set_option maxRecDepth 20000 in
private theorem idleCall_starts :
    startResult (startMessage emptyWitness idleCall default) = true := by
  decide +kernel

theorem run_frames_terminates_idle :
    ∃ m₀, startMessage emptyWitness idleCall default = .ok true m₀ ∧
      (∃ n ≤ 3 * 50000 + 1, ∃ m', Rounds emptyWitness n m₀ m' ∧
        ((∃ e m'', frameRound emptyWitness m' = .ok (some e) m'') ∨
          ∃ e m'', e.Fatal ∧ frameRound emptyWitness m' = .error e m'')) ∧
      ∀ n m', Rounds emptyWitness n m₀ m' → m'.netUsed ≤ 50000 := by
  have hstart := idleCall_starts
  cases hrun : startMessage emptyWitness idleCall default with
  | ok started m₀ =>
    rw [hrun] at hstart
    cases started with
    | true => exact ⟨m₀, rfl, run_frames_terminates hrun⟩
    | false => cases hstart
  | error e m' =>
    rw [hrun] at hstart
    cases hstart

end

end StatelessGuest
