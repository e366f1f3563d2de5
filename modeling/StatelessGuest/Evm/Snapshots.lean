import StatelessGuest.Evm.Tracked
import StatelessGuest.Evm.Termination
import StatelessGuest.State.Scopes

/-!
# The snapshots of the machine

Every frame of the machine holds the snapshot it was opened at, and the frame of a creation also
the one taken before its account was made. They are taken, restored and dropped last in, first
out, so what the machine does to the tracker is a run of a scope.

* `Cont.handles`: the snapshots of a frame, the later one first.
* `Allows T`: on the current frame the machine does to the tracker what `T` allows, rollbacks apart.
* `round_scope`, `rounds_scope`: a round is a run of the scope.
* `reached_rounds`: every state of the machine is one of the block.
-/

namespace StatelessGuest

open Lib

/-! ## The snapshots of the frames -/

def Cont.handles (r : Cont) : List Nat :=
  if r.kind = .create then [r.snapshot, r.csnapshot] else [r.snapshot]

theorem Cont.handles_create {r : Cont} (h : r.kind = .create) :
    r.handles = [r.snapshot, r.csnapshot] :=
  if_pos h

theorem Cont.handles_call {r : Cont} (h : r.kind ≠ .create) : r.handles = [r.snapshot] := if_neg h

/-- The live snapshots of some frames, the innermost first, with the states they were taken in. -/
def Taken (rs : List Cont) (live : List (Nat × Tracker)) : Prop :=
  live.map Prod.fst = rs.flatMap Cont.handles

theorem taken_cons {r : Cont} {rs : List Cont} {live : List (Nat × Tracker)} :
    Taken (r :: rs) live ↔ ∃ es rest, live = es ++ rest ∧ Taken [r] es ∧ Taken rs rest := by
  unfold Taken
  rw [List.flatMap_cons, List.map_eq_append_iff]
  simp only [List.flatMap_cons, List.flatMap_nil, List.append_nil]

theorem taken_single {r : Cont} {es : List (Nat × Tracker)} :
    Taken [r] es ↔ es.map Prod.fst = r.handles := by
  unfold Taken
  rw [List.flatMap_cons, List.flatMap_nil, List.append_nil]

/-- The frames above the transaction's are children, and the last one is the transaction's. -/
inductive Standing : FrameKind → List (Frame × Cont) → Prop where
  | root : Standing .transaction []
  | child {kind : FrameKind} {parent : Frame} {pcont : Cont} {up : List (Frame × Cont)}
      (hkind : kind ≠ .transaction) (h : Standing pcont.kind up) :
      Standing kind ((parent, pcont) :: up)

theorem Standing.caller {kind : FrameKind} {up : List (Frame × Cont)} (h : Standing kind up)
    (hkind : kind ≠ .transaction) :
    ∃ parent pcont rest, up = (parent, pcont) :: rest ∧ Standing pcont.kind rest := by
  cases h with
  | root => exact absurd rfl hkind
  | child _ h => exact ⟨_, _, _, rfl, h⟩

theorem Standing.stacked {kind : FrameKind} {up : List (Frame × Cont)} (h : Standing kind up)
    (below : List (Frame × Cont)) : Stacked kind (up ++ below) := by
  induction h with
  | root => exact .root
  | child hkind _ ih => exact .child hkind ih

/-- The caller of a frame is above `below` when its own callers have `below` among them. -/
theorem caller_above {x : Frame × Cont} {rest up below : List (Frame × Cont)}
    (h : x :: rest = up ++ below) (hbelow : below <:+ rest) :
    ∃ up', up = x :: up' ∧ rest = up' ++ below := by
  cases up with
  | nil =>
    have hlen := hbelow.length_le
    rw [List.nil_append] at h
    rw [← h, List.length_cons] at hlen
    omega
  | cons y up =>
    rw [List.cons_append, List.cons.injEq] at h
    obtain ⟨rfl, rfl⟩ := h
    exact ⟨up, rfl, rfl⟩

section

variable [Keccak] [Crypto] {w : Witness} {T : Tracker → Tracker → Prop}

/-- What the machine does on the current frame is allowed: its instruction, the account of a
creation it requests, the start of its child, and the end of a creation. -/
structure Allows (w : Witness) (T : Tracker → Tracker → Prop) (m : Machine) : Prop where
  op : ∀ op, m.At op → T m.ctx.tk (final (opDispatch w op m.ctx)).tk
  create : ∀ op req c, m.At op → opDispatch w op m.ctx = .ok (some req) c → req.kind = .create →
    T c.tk (final (createAccount w req.msg.currentTarget c.tk))
  start : ∀ op req c snap c', m.At op → opDispatch w op m.ctx = .ok (some req) c →
    openChild w req c = .ok snap c' → ∀ child : Machine,
      child = Machine.child { m with ctx := c } req c' snap →
      (∀ e c'', framePrologue w child.ctx = .error e c'' → ¬e.Fatal) →
      T c'.tk (final (framePrologue w child.ctx)).tk
  close : m.cont.kind = .create → ∀ c : Ctx, c.ev = m.ctx.ev →
    T c.tk (final (createFinish w m.cont.msg c)).tk

/-- A relation that every write keeps allows what the machine does. -/
theorem allows_writing [Writing w T] (m : Machine) : Allows w T m where
  op op _ := (keeps_opDispatch (T := T) (w := w) op).rel m.ctx
  create _ req c _ _ _ := Keeps.rel (R := T) (x := createAccount w req.msg.currentTarget) c.tk
  start _ _ _ _ _ _ _ _ child hchild _ := by
    have h : OnTracker T child.ctx (final (framePrologue w child.ctx)) := Keeps.rel child.ctx
    rw [hchild] at h ⊢
    exact h
  close _ c _ := Keeps.rel (R := OnTracker T) (x := createFinish w _) c

/-! ## Rounds -/

omit [Crypto] in
theorem openChild_create {req : ChildReq} {c c' : Ctx} {snap : Nat} (hkind : req.kind = .create)
    (h : openChild w req c = .ok snap c') : snap = c.tk.journal.length ∧
      c'.tk = final (createAccount w req.msg.currentTarget c.tk) := by
  unfold openChild at h
  rw [if_pos hkind, openCreate_eq] at h
  obtain ⟨s, hs, rfl⟩ := of_liftState_ok h
  obtain ⟨n, s₁, hsnap, hs⟩ := bind_ok.mp hs
  cases hsnap
  obtain ⟨u, s₂, hcreate, hret⟩ := bind_ok.mp hs
  cases hret
  exact ⟨rfl, by rw [hcreate]; rfl⟩

omit [Crypto] in
theorem openChild_call {req : ChildReq} {c c' : Ctx} {snap : Nat} (hkind : req.kind ≠ .create)
    (h : openChild w req c = .ok snap c') : c' = c := by
  unfold openChild at h
  rw [if_neg hkind] at h
  cases h
  rfl

/-- The start of a child takes its snapshots. -/
theorem start_scope {m child : Machine} {op snap : Nat} {req : ChildReq} {c c' : Ctx}
    (ha : Allows w T m) (hat : m.At op) (hop : opDispatch w op m.ctx = .ok (some req) c)
    (hopen : openChild w req c = .ok snap c')
    (hchild : child = Machine.child { m with ctx := c } req c' snap)
    (hpro : ∀ e c'', framePrologue w child.ctx = .error e c'' → ¬e.Fatal)
    (live : List (Nat × Tracker)) :
    ∃ es, Taken [child.cont] es ∧ Scope.Run T ⟨m.ctx.tk, live⟩
      ⟨(final (framePrologue w child.ctx)).tk, es ++ live⟩ := by
  have hinstr : Scope.Moves T ⟨m.ctx.tk, live⟩ ⟨c.tk, live⟩ := by
    have hact := ha.op op hat
    rw [hop] at hact
    exact .act hact
  have hstart := ha.start op req c snap c' hat hop hopen child hchild hpro
  subst hchild
  by_cases hkind : req.kind = .create
  · obtain ⟨hsnap, htk⟩ := openChild_create hkind hopen
    have hcreate := ha.create op req c hat hop hkind
    rw [← htk] at hcreate
    refine ⟨[(c'.tk.journal.length, c'.tk), (c.tk.journal.length, c.tk)], ?_, ?_⟩
    · rw [taken_single, Cont.handles_create hkind, hsnap]
      rfl
    · exact .tail (.tail (.tail (.tail (.single hinstr) .snapshot) (.act hcreate)) .snapshot)
        (.act hstart)
  · obtain rfl := openChild_call hkind hopen
    refine ⟨[(c'.tk.journal.length, c'.tk)], ?_, ?_⟩
    · rw [taken_single, Cont.handles_call hkind]
      rfl
    · exact .tail (.tail (.single hinstr) .snapshot) (.act hstart)

omit [Crypto] [Keccak] in
/-- The end of a frame: when it failed, its snapshot is restored. -/
theorem epilogue_scope {c c' : Ctx} {e : Nat × Tracker} {rest : List (Nat × Tracker)}
    (hep : frameEpilogue e.1 c = .ok () c') :
    c'.ev = c.ev ∧ Scope.Run T ⟨c.tk, e :: rest⟩ ⟨c'.tk, rest⟩ := by
  change (if c.ev.error ≠ none then liftState (stateRestore e.1) else pure () : EvmM Unit) c = _
    at hep
  split at hep
  · cases hep
    exact ⟨rfl, .tail (.single (.restore rfl)) (.commit rfl)⟩
  · cases hep
    exact ⟨rfl, .single (.commit rfl)⟩

omit [Crypto] in
/-- The end of a creation: its code is stored, or its snapshot is restored. -/
theorem close_scope {r : Cont} {c c' : Ctx} {e : Nat × Tracker} {rest : List (Nat × Tracker)}
    (hfinish : T c.tk (final (createFinish w r.msg c)).tk)
    (hclose : closeCreate w r.msg e.1 c = .ok () c') :
    Scope.Run T ⟨c.tk, e :: rest⟩ ⟨c'.tk, rest⟩ := by
  unfold closeCreate at hclose
  rw [bind_run_ok (show getEv c = .ok c.ev c from rfl)] at hclose
  split at hclose
  · cases hrun : createFinish w r.msg c with
    | ok u c₁ =>
      rw [catchEvm_ok hrun] at hclose
      cases hclose
      rw [hrun, final_ok] at hfinish
      exact .tail (.single (.act hfinish)) (.commit rfl)
    | error err c₁ =>
      rw [hrun, final_error] at hfinish
      obtain he | ⟨err, rfl⟩ := err.fatal_or
      · rw [catchEvm_fatal he hrun] at hclose
        cases hclose
      · rw [catchEvm_evm hrun] at hclose
        cases hclose
        exact .tail (.tail (.single (.act hfinish)) (.restore rfl)) (.commit rfl)
  · cases hclose
    exact .tail (.single (.restore rfl)) (.commit rfl)

variable [Reading T]

omit [Keccak] [Crypto] in
/-- What the caller does after its child leaves the tracker alone. -/
theorem keeps_resume (r : Cont) (child : Frame) : Keeps (OnTracker T) (resume r child) := by
  unfold resume
  infer_instance

/-- The end of a child drops its snapshots. -/
theorem finish_scope {m : Machine} {parent : Frame} {c c' : Ctx} {es live : List (Nat × Tracker)}
    (ha : Allows w T m) (hes : Taken [m.cont] es)
    (hep : frameEpilogue m.cont.snapshot m.ctx = .ok () c)
    (hclose : m.cont.close w c = .ok () c') :
    Scope.Run T ⟨m.ctx.tk, es ++ live⟩
      ⟨(final (resume m.cont c'.ev { c' with ev := parent })).tk, live⟩ := by
  have htail : T c'.tk (final (resume m.cont c'.ev { c' with ev := parent })).tk :=
    (keeps_resume m.cont c'.ev).rel { c' with ev := parent }
  rw [taken_single] at hes
  unfold Cont.close at hclose
  by_cases hkind : m.cont.kind = .create
  · rw [if_pos hkind] at hclose
    rw [Cont.handles_create hkind] at hes
    obtain ⟨e, es, rfl, he, hes⟩ := List.map_eq_cons_iff.mp hes
    obtain ⟨e', es, rfl, he', hes⟩ := List.map_eq_cons_iff.mp hes
    obtain rfl := List.map_eq_nil_iff.mp hes
    rw [← he] at hep
    rw [← he'] at hclose
    obtain ⟨hev, hrun⟩ : c.ev = m.ctx.ev ∧ Scope.Run T ⟨m.ctx.tk, e :: e' :: live⟩
        ⟨c.tk, e' :: live⟩ := epilogue_scope hep
    exact .tail (hrun.trans (close_scope (ha.close hkind c hev) hclose)) (.act htail)
  · rw [if_neg hkind] at hclose
    rw [Cont.handles_call hkind] at hes
    obtain ⟨e, es, rfl, he, hes⟩ := List.map_eq_cons_iff.mp hes
    obtain rfl := List.map_eq_nil_iff.mp hes
    rw [← he] at hep
    cases hclose
    exact .tail (epilogue_scope hep).2 (.act htail)

/-- A round, on the frames above `below`. -/
theorem round_scope {m m' : Machine} {up below : List (Frame × Cont)} (h : Round w m m')
    (ha : Allows w T m) (hm : m.suspended = up ++ below) (hm' : below <:+ m'.suspended)
    {live : List (Nat × Tracker)} (ht : Taken (m.cont :: up.map Prod.snd) live)
    (base : List (Nat × Tracker)) :
    ∃ up' live', m'.suspended = up' ++ below ∧ Taken (m'.cont :: up'.map Prod.snd) live' ∧
      Scope.Run T ⟨m.ctx.tk, live ++ base⟩ ⟨m'.ctx.tk, live' ++ base⟩ := by
  have hsame : ∀ {c : Ctx} {op : Nat}, m.At op → (final (opDispatch w op m.ctx)).tk = c.tk →
      Scope.Run T ⟨m.ctx.tk, live ++ base⟩ ⟨c.tk, live ++ base⟩ := by
    intro c op hat hop
    have hact := ha.op op hat
    rw [hop] at hact
    exact .single (.act hact)
  have hend : ∀ {parent : Frame} {pcont : Cont} {rest : List (Frame × Cont)},
      m.suspended = (parent, pcont) :: rest → below <:+ rest →
      ∃ up' es live', rest = up' ++ below ∧ live = es ++ live' ∧ Taken [m.cont] es ∧
        Taken (pcont :: up'.map Prod.snd) live' := by
    intro parent pcont rest hs hbelow
    obtain ⟨up', rfl, hrest⟩ := caller_above (hs.symm.trans hm) hbelow
    obtain ⟨es, live', rfl, hes, hlive⟩ := taken_cons.mp ht
    exact ⟨up', es, live', hrest, rfl, hes, hlive⟩
  cases h with
  | step hat hop => exact ⟨up, live, hm, ht, hsame hat (by rw [hop]; rfl)⟩
  | fail hat hop => exact ⟨up, live, hm, ht, hsame hat (by rw [hop]; rfl)⟩
  | @start _ _ _ _ c' _ _ _ hat hop hopen hchild hpro =>
    obtain ⟨es, hes, hrun⟩ := start_scope ha hat hop hopen hchild
      (fun e c h => by rw [hpro] at h; cases h) (live ++ base)
    rw [hpro, final_ok, ← List.append_assoc] at hrun
    subst hchild
    exact ⟨(c'.ev, m.cont) :: up, es ++ live, congrArg _ hm,
      taken_cons.mpr ⟨es, live, rfl, hes, ht⟩, hrun⟩
  | @startFail _ _ _ _ c' _ _ _ hat hop hopen hchild hpro =>
    obtain ⟨es, hes, hrun⟩ := start_scope ha hat hop hopen hchild
      (fun e c h => by rw [hpro] at h; cases h; exact id) (live ++ base)
    rw [hpro, final_error, ← List.append_assoc] at hrun
    subst hchild
    exact ⟨(c'.ev, m.cont) :: up, es ++ live, congrArg _ hm,
      taken_cons.mpr ⟨es, live, rfl, hes, ht⟩, hrun⟩
  | @finish parent _ _ c c' _ hover hkind hs hep hclose htail =>
    obtain ⟨up', es, live', hup, rfl, hes, hlive⟩ := hend hs hm'
    have hrun : Scope.Run T ⟨m.ctx.tk, es ++ (live' ++ base)⟩
        ⟨(final (resume m.cont c'.ev { c' with ev := parent })).tk, live' ++ base⟩ :=
      finish_scope ha hes hep hclose
    rw [htail, final_ok, ← List.append_assoc] at hrun
    exact ⟨up', live', hup, hlive, hrun⟩
  | @finishFail parent _ _ c c' _ _ hover hkind hs hep hclose htail =>
    obtain ⟨up', es, live', hup, rfl, hes, hlive⟩ := hend hs hm'
    have hrun : Scope.Run T ⟨m.ctx.tk, es ++ (live' ++ base)⟩
        ⟨(final (resume m.cont c'.ev { c' with ev := parent })).tk, live' ++ base⟩ :=
      finish_scope ha hes hep hclose
    rw [htail, final_error, ← List.append_assoc] at hrun
    exact ⟨up', live', hup, hlive, hrun⟩

omit [Reading T] in
theorem Round.standing {m m' : Machine} {up below : List (Frame × Cont)} (h : Round w m m')
    (hm : m.suspended = up ++ below) (hst : Standing m.cont.kind up) :
    ∃ up', m'.suspended = up' ++ below ∧ Standing m'.cont.kind up' := by
  have hend : ∀ {parent : Frame} {pcont : Cont} {rest : List (Frame × Cont)},
      m.cont.kind ≠ .transaction → m.suspended = (parent, pcont) :: rest →
      ∃ up', rest = up' ++ below ∧ Standing pcont.kind up' := by
    intro parent pcont rest hkind hs
    obtain ⟨parent', pcont', up', rfl, hst'⟩ := hst.caller hkind
    rw [hs, List.cons_append, List.cons.injEq] at hm
    obtain ⟨hhead, rfl⟩ := hm
    cases hhead
    exact ⟨up', rfl, hst'⟩
  cases h with
  | step => exact ⟨up, hm, hst⟩
  | fail => exact ⟨up, hm, hst⟩
  | @start _ _ req _ c' _ _ _ _ _ _ hchild =>
    subst hchild
    exact ⟨(c'.ev, m.cont) :: up, congrArg _ hm, .child req.isChild hst⟩
  | @startFail _ _ req _ c' _ _ _ _ _ _ hchild =>
    subst hchild
    exact ⟨(c'.ev, m.cont) :: up, congrArg _ hm, .child req.isChild hst⟩
  | finish _ hkind hs => exact hend hkind hs
  | finishFail _ hkind hs =>
    obtain ⟨up', hup, hst'⟩ := hend hkind hs
    exact ⟨up', hup, hst'⟩

end

/-! ## Messages -/

section

variable [Keccak] [Crypto] {w : Witness} {T : Tracker → Tracker → Prop} [Writing w T]

/-- Rounds of the loop of a message are a run of the scope. -/
theorem rounds_scope {n : Nat} {m m' : Machine} {up below : List (Frame × Cont)}
    (h : Rounds w n m m') (hm : m.suspended = up ++ below) (hst : Standing m.cont.kind up)
    {live : List (Nat × Tracker)} (ht : Taken (m.cont :: up.map Prod.snd) live)
    (base : List (Nat × Tracker)) :
    ∃ up' live', m'.suspended = up' ++ below ∧ Standing m'.cont.kind up' ∧
      Taken (m'.cont :: up'.map Prod.snd) live' ∧
      Scope.Run T ⟨m.ctx.tk, live ++ base⟩ ⟨m'.ctx.tk, live' ++ base⟩ := by
  induction h generalizing up live with
  | refl m => exact ⟨up, live, hm, hst, ht, .refl⟩
  | @step _ m m₁ _ _ hround _ ih =>
    have hstacked : m.Stacked := by
      unfold Machine.Stacked
      rw [hm]
      exact hst.stacked below
    have hr := round_of_frameRound hstacked hround
    obtain ⟨up₁, hm₁, hst₁⟩ := hr.standing hm hst
    obtain ⟨up₂, live₁, hm₂, ht₁, hrun⟩ := round_scope hr (allows_writing (T := T) m) hm
      (hm₁ ▸ List.suffix_append up₁ below) ht base
    obtain rfl := List.append_cancel_right (hm₁.symm.trans hm₂)
    obtain ⟨up', live', hm', hst', ht', hrun'⟩ := ih hm₁ hst₁ ht₁
    exact ⟨up', live', hm', hst', ht', hrun.trans hrun'⟩

/-- The frame of a message starts with its snapshot. -/
theorem startMessage_scope {msg : Msg} {m m₀ : Machine} (h : startMessage w msg m = .ok true m₀)
    (base : List (Nat × Tracker)) :
    m₀.suspended = (m.ctx.ev, m.cont) :: m.suspended ∧ m₀.cont.kind = .transaction ∧
      ∃ live, Taken [m₀.cont] live ∧
        Scope.Run T ⟨m.ctx.tk, base⟩ ⟨m₀.ctx.tk, live ++ base⟩ := by
  unfold startMessage at h
  by_cases hdepth : stackDepthLimit < msg.depth
  · simp only [if_pos hdepth] at h
    cases h
  simp only [if_neg hdepth] at h
  obtain ⟨_, mo, hopen, h⟩ := bind_ok.mp h
  cases hopen
  obtain ⟨prepared, m₁, hprep, h⟩ := bind_ok.mp h
  cases prepared with
  | false => cases h
  | true =>
    obtain ⟨_, m₂, hsnap, h⟩ := bind_ok.mp h
    obtain ⟨_, m₃, hstart, hret⟩ := bind_ok.mp h
    cases hret
    have hprepared : m₁.suspended = (m.ctx.ev, m.cont) :: m.suspended ∧
        m₁.cont = { (default : Cont) with kind := .transaction, msg := msg } ∧
        T m.ctx.tk m₁.ctx.tk := by
      unfold prepareMessage at hprep
      split at hprep
      · obtain ⟨c, hc, rfl⟩ := prepareFrame_true hprep
        have hact : OnTracker T _ c := Keeps.ok (x := depth0Prepare w) inferInstance hc
        exact ⟨rfl, rfl, hact⟩
      · cases hprep
        exact ⟨rfl, rfl, refl_of T _⟩
    obtain ⟨hsusp, hcont, hact⟩ := hprepared
    have hm₂ : m₂ = { m₁ with
        cont := { m₁.cont with snapshot := m₁.ctx.tk.journal.length } } := by
      cases hsnap
      rfl
    have hpro : m₀.suspended = m₁.suspended ∧ m₀.cont.kind = m₁.cont.kind ∧
        m₀.cont.handles = [m₁.ctx.tk.journal.length] ∧ T m₁.ctx.tk m₀.ctx.tk := by
      have hdone : m₂.cont.done = false := by
        rw [hm₂]
        change m₁.cont.done = false
        rw [hcont]
        rfl
      have hkind : m₁.cont.kind ≠ .create := by rw [hcont]; exact FrameKind.noConfusion
      have hresult := frameStart_ok hdone hstart
      rw [hm₂] at hresult
      obtain ⟨done, c, hpro, rfl⟩ | ⟨err, c, hpro, rfl⟩ := hresult
      · have hact : OnTracker T m₁.ctx c := Keeps.ok (x := framePrologue w) inferInstance hpro
        exact ⟨rfl, rfl, Cont.handles_call hkind, hact⟩
      · have hact : OnTracker T m₁.ctx c := Keeps.error (x := framePrologue w) inferInstance hpro
        exact ⟨rfl, rfl, Cont.handles_call hkind, hact⟩
    obtain ⟨hs, hk, hh, hact'⟩ := hpro
    refine ⟨hs.trans hsusp, hk.trans (by rw [hcont]), [(m₁.ctx.tk.journal.length, m₁.ctx.tk)], ?_,
      ?_⟩
    · rw [taken_single, hh]
      rfl
    · exact .tail (.tail (.single (.act hact)) .snapshot) (.act hact')

end

/-! ## The states of the machine -/

section

variable [Keccak] [Crypto] {w : Witness}

/-- Every state of the machine that a message runs on is a state of the block, with the snapshots
of the frames alive. -/
theorem reached_rounds {msg : Msg} {m m₀ m' : Machine} {n : Nat} {base : List (Nat × Tracker)}
    (hm : Reached w ⟨m.ctx.tk, base⟩) (hstart : startMessage w msg m = .ok true m₀)
    (hgo : Rounds w n m₀ m') :
    ∃ up live, m'.suspended = up ++ (m.ctx.ev, m.cont) :: m.suspended ∧
      Standing m'.cont.kind up ∧ Taken (m'.cont :: up.map Prod.snd) live ∧
      Reached w ⟨m'.ctx.tk, live ++ base⟩ := by
  obtain ⟨hsusp, hkind, live₀, ht₀, hrun₀⟩ := startMessage_scope (T := Onward w) hstart base
  have hst : Standing m₀.cont.kind [] := by
    rw [hkind]
    exact .root
  obtain ⟨up, live, hs, hst', ht, hrun⟩ :=
    rounds_scope (T := Onward w) hgo (show _ = [] ++ _ from hsusp) hst ht₀ base
  exact ⟨up, live, hs, hst', ht, hm.run (hrun₀.trans hrun)⟩

end

end StatelessGuest
