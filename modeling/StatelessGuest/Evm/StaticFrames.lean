import StatelessGuest.Evm.Static

/-!
# What a static frame leaves

A static frame changes nothing that can be read, and neither do the frames it opens: an invariant
of the frames of a message, kept by every round.

* `static_round`: a round of a static frame.
* `barred_rounds`: the frames of a message are as they should be.
* `static_frame_frame`: from the start of a static frame until its caller goes on, all reads agree.
-/

namespace StatelessGuest

open Lib

section

variable [Keccak] {w : Witness} {v : View} {e : Frame} {r : Cont} {fs : List (Frame × Cont)}
  {live : List (Nat × Tracker)}

/-! ## Rounds -/

/-- A child without logs and deletions leaves its caller none. -/
theorem muted_incorporateChildOnSuccess {child : Frame} (hlogs : child.logs = [])
    (hdelete : child.delete = .empty) : Keeps (Muted w) (incorporateChildOnSuccess child) := by
  have hunion : ∀ d : OrdMap Address Unit, htabUnionInto d .empty = d := fun _ => rfl
  have hlast : Keeps (Muted w) (modifyEv fun e => { e with
      logs := e.logs ++ child.logs
      refund := e.refund + child.refund
      delete := htabUnionInto e.delete child.delete
      slotWrites := e.slotWrites ++ child.slotWrites }) := by
    refine Keeps.modify fun c => ⟨rfl, rfl, ?_, ?_, refl_of (Same w) c.tk⟩
    · change c.ev.logs ++ child.logs = c.ev.logs
      rw [hlogs, List.append_nil]
    · change htabUnionInto c.ev.delete child.delete = c.ev.delete
      rw [hdelete, hunion]
  unfold incorporateChildOnSuccess
  refine Keeps.seq inferInstance fun _ => Keeps.seq ?_ fun _ => Keeps.seq ?_ fun _ => hlast
  · exact keeps_free (fun _ => rfl) fun _ => rfl
  · exact keeps_free (fun _ => rfl) fun _ => rfl

/-- The end of such a child changes nothing in its caller that matters here. -/
theorem muted_resume {child : Frame} (hkind : r.kind = .call) (hlogs : child.logs = [])
    (hdelete : child.delete = .empty) : Keeps (Muted w) (resume r child) := by
  have hsuccess := muted_incorporateChildOnSuccess (w := w) hlogs hdelete
  have htail : r.tail child =
      genericCallTail child r.newAccountCharged r.outStart r.outSize := by
    rw [Cont.tail, hkind]
    rfl
  unfold resume
  rw [htail]
  unfold genericCallTail
  infer_instance

/-- The frames of the machine down to `below` are as they should be, for its state. -/
structure Machine.Guarded (w : Witness) (m : Machine) (up : List (Frame × Cont))
    (live : List (Nat × Tracker)) : Prop where
  scope : Scope.Sound ⟨m.ctx.tk, live⟩
  frames : Closed w (m.ctx.tk.view w) ((m.ctx.ev, m.cont) :: up) live

variable [Crypto] {m m' : Machine} {up below : List (Frame × Cont)}

omit [Keccak] [Crypto] in
/-- A frame at an instruction has code. -/
theorem Machine.At.code_ne {op : Nat} (h : m.At op) : m.ctx.ev.code ≠ [] := by
  intro hnil
  have hop := h.2
  unfold Frame.opcode? at hop
  rw [hnil] at hop
  split at hop <;> cases hop

/-- A static frame is opened by a call; its caller's frames and its own are as they should be. -/
theorem Machine.Guarded.start {op snap : Nat} {req : ChildReq} {c c' : Ctx} {child : Machine}
    (hg : m.Guarded w up live) (hat : m.At op) (hop : opDispatch w op m.ctx = .ok (some req) c)
    (hopen : openChild w req c = .ok snap c')
    (hchild : child = Machine.child { m with ctx := c } req c' snap)
    (hst : req.msg.isStatic = true)
    (hpro : ∀ e c'', framePrologue w child.ctx = .error e c'' → ¬e.Fatal) {c'' : Ctx}
    (hend : final (framePrologue w child.ctx) = c'') :
    c'.ev.msg = m.ctx.ev.msg ∧ Muted w child.ctx c'' ∧ c''.tk.view w = m.ctx.tk.view w ∧
      ∀ done, ∃ live', (child.finished c'' done).Guarded w ((c'.ev, m.cont) :: up) live' := by
  have hseen : Seen w (m.ctx.tk.view w) m.ctx.ev.msg m.ctx := ⟨hg.scope.sound, rfl, rfl⟩
  have hsought := (sought_opDispatch (w := w) op).ok hseen hop req rfl
  rcases hsought with ⟨hplaced, hsound, hview, hmsg⟩ | ⟨-, -, hfalse⟩
  swap
  · rw [hst] at hfalse
    cases hfalse
  have hkind : req.kind ≠ .create := by rw [hplaced.kind]; exact FrameKind.noConfusion
  obtain rfl := openChild_call hkind hopen
  -- the code that a static caller runs is that of its own account
  have hself : m.ctx.ev.msg.isStatic = true →
      (m.ctx.tk.view w).HasCode m.ctx.ev.msg.currentTarget :=
    fun hpm => (hg.frames.of_static hpm).1.code hat.code_ne
  have hharmless : Harmless (m.ctx.tk.view w) req.msg := by
    intro htransfer hvalue
    obtain ⟨hcaller, -, hown⟩ := hplaced.transfer htransfer hvalue
    obtain ⟨hpm, htarget⟩ := hown hst
    rw [htarget]
    exact ⟨hcaller, hself hpm⟩
  have hmuted : Muted w child.ctx c'' := by
    rw [← hend]
    refine muted_framePrologue ?_ ?_ hpro
    · subst hchild
      exact hsound
    · subst hchild
      change Harmless (c'.tk.view w) req.msg
      rw [hview]
      exact hharmless
  have hview' : c''.tk.view w = m.ctx.tk.view w := by
    subst hchild
    exact (hmuted.same.view hsound).trans hview
  have hshut : c''.ev.Shut (m.ctx.tk.view w) := by
    have hnew : child.ctx.ev.Shut (m.ctx.tk.view w) := by
      subst hchild
      refine ⟨hst, rfl, rfl, fun hne => ?_⟩
      rcases hplaced.code hne with hcode | ⟨htarget, hpm⟩
      · exact hcode
      · change (m.ctx.tk.view w).HasCode req.msg.currentTarget
        rw [htarget]
        exact hself (hpm ▸ hst)
    exact hnew.muted hmuted
  have hop' : Muted w m.ctx c' ∨ m.ctx.ev.msg.isStatic = false := by
    by_cases hpm : m.ctx.ev.msg.isStatic = true
    · exact .inl ((mutes_opDispatch op).ok hop hpm)
    · exact .inr (Bool.not_eq_true _ ▸ hpm)
  have hcaller : Closed w (m.ctx.tk.view w) ((c'.ev, m.cont) :: up) live := by
    refine hg.frames.head (congrArg Msg.isStatic hmsg) (fun h => ?_) rfl rfl rfl
    rcases hop' with hop' | hfalse
    · exact h.muted hop'
    · rw [h.isStatic] at hfalse
      cases hfalse
  have hlay : Layered m.ctx.tk c'.tk := Keeps.ok (keeps_opDispatch (T := Layered) (w := w) op) hop
  refine ⟨hmsg, hmuted, hview', fun done => ⟨(c'.tk.journal.length, c'.tk) :: live, ?_, ?_⟩⟩
  · subst hchild
    exact (hg.scope.act hlay).snapshot.act hmuted.same.layered
  · subst hchild
    change Closed w (c''.tk.view w) _ _
    rw [hview']
    exact .shut hshut hplaced.kind hview hcaller

omit [Crypto] in
/-- The end of a static frame: its caller goes on with what it had. -/
theorem Machine.Guarded.finish {parent : Frame} {pcont : Cont} {c c' c'' : Ctx}
    (hg : m.Guarded w ((parent, pcont) :: up) live) (hst : m.ctx.ev.msg.isStatic = true)
    (hep : frameEpilogue m.cont.snapshot m.ctx = .ok () c) (hclose : m.cont.close w c = .ok () c')
    (htail : final (resume m.cont c'.ev { c' with ev := parent }) = c'') :
    Muted w { c' with ev := parent } c'' ∧ c''.tk.view w = m.ctx.tk.view w ∧
      ∃ live', Scope.Sound ⟨c''.tk, live'⟩ ∧
        Closed w (m.ctx.tk.view w) ((parent, pcont) :: up) live' := by
  obtain ⟨hshut, hkind, s, rest, rfl, hview, hrest⟩ := hg.frames.of_static hst
  obtain ⟨hx, hs, hlen⟩ := hg.scope.ext _ List.mem_cons_self
  -- the snapshot that an error restores reads like the state it undoes
  have hc : c.ev = m.ctx.ev ∧ c.tk.view w = m.ctx.tk.view w ∧ Scope.Sound ⟨c.tk, rest⟩ := by
    change (if m.ctx.ev.error ≠ none then liftState (stateRestore m.cont.snapshot)
      else pure () : EvmM Unit) m.ctx = _ at hep
    split at hep
    · cases hep
      refine ⟨rfl, ?_, (hg.scope.restore rfl).commit rfl⟩
      refine Eq.trans ?_ hview
      dsimp only at hlen
      rw [hlen]
      exact view_of_agree w hs (hx.restore le_rfl) hx.restored.1
    · cases hep
      exact ⟨rfl, rfl, hg.scope.commit rfl⟩
  obtain ⟨hev, hview', hscope⟩ := hc
  have hclosed : c' = c := by
    unfold Cont.close at hclose
    rw [if_neg (by rw [hkind]; exact FrameKind.noConfusion)] at hclose
    cases hclose
    rfl
  subst hclosed
  have hmuted : Muted w { c' with ev := parent } c'' := by
    rw [← htail]
    exact (muted_resume hkind (hev ▸ hshut.logs) (hev ▸ hshut.delete)).rel _
  exact ⟨hmuted, (hmuted.same.view hscope.sound).trans hview', rest,
    hscope.act hmuted.same.layered, hrest⟩

/-- What a round of a static frame does: the frame goes on, it calls, or its caller goes on. -/
inductive Onwards (m m' : Machine) : Prop where
  | same (hst : m'.ctx.ev.msg.isStatic = true) (hs : m'.suspended = m.suspended)
  | call {e : Frame} (hst : m'.ctx.ev.msg.isStatic = true) (he : e.msg.isStatic = true)
      (hs : m'.suspended = (e, m.cont) :: m.suspended)
  | back {parent : Frame} {pcont : Cont} (hs : m.suspended = (parent, pcont) :: m'.suspended)
      (hmsg : m'.ctx.ev.msg = parent.msg) (hlogs : m'.ctx.ev.logs = parent.logs)
      (hdelete : m'.ctx.ev.delete = parent.delete)

omit [Keccak] [Crypto] in
/-- A frame that ends with an error keeps what a caller sees of it. -/
theorem failed_same (e : Frame) (err : EvmErr) : (e.failed err).msg = e.msg ∧
    (e.failed err).code = e.code ∧ (e.failed err).logs = e.logs ∧
      (e.failed err).delete = e.delete := by
  unfold Frame.failed
  split <;> exact ⟨rfl, rfl, rfl, rfl⟩

omit [Crypto] in
theorem Frame.Shut.failed (h : e.Shut v) (err : EvmErr) : (e.failed err).Shut v :=
  have hsame := failed_same e err
  h.congr hsame.1 hsame.2.1 hsame.2.2.1 hsame.2.2.2

omit [Crypto] in
theorem Machine.Guarded.failed (hg : m.Guarded w up live) (err : EvmErr) :
    (m.excepted m.ctx err).Guarded w up live :=
  ⟨hg.scope, hg.frames.head (congrArg Msg.isStatic (failed_same _ err).1) (fun h => h.failed err)
    rfl rfl rfl⟩

omit [Crypto] in
/-- An instruction of a static frame. -/
theorem Machine.Guarded.muted {c : Ctx} (hg : m.Guarded w up live) (hm : Muted w m.ctx c) :
    Machine.Guarded w { m with ctx := c } up live := by
  refine ⟨hg.scope.act hm.same.layered, ?_⟩
  change Closed w (c.tk.view w) _ _
  rw [hm.same.view hg.scope.sound]
  exact hg.frames.head (congrArg Msg.isStatic hm.msg) (fun h => h.muted hm) rfl rfl rfl

omit [Crypto] in
/-- The caller of a static frame that has ended. -/
theorem Machine.Guarded.resumed {parent : Frame} {pcont : Cont} {c c' : Ctx}
    (hmuted : Muted w { c with ev := parent } c') (hview : c'.tk.view w = v)
    (hscope : Scope.Sound ⟨c'.tk, live⟩) (h : Closed w v ((parent, pcont) :: up) live) :
    Machine.Guarded w ⟨c', pcont, below⟩ up live := by
  refine ⟨hscope, ?_⟩
  change Closed w (c'.tk.view w) _ _
  rw [hview]
  exact h.head (congrArg Msg.isStatic hmuted.msg)
    (Frame.Shut.muted (c := { c with ev := parent }) · hmuted) rfl rfl rfl

omit [Crypto] in
/-- The children of a static frame are static calls. -/
theorem Machine.Guarded.placed {op : Nat} {req : ChildReq} {c : Ctx} (hg : m.Guarded w up live)
    (hop : opDispatch w op m.ctx = .ok (some req) c) (hst : m.ctx.ev.msg.isStatic = true) :
    req.msg.isStatic = true := by
  have hseen : Seen w (m.ctx.tk.view w) m.ctx.ev.msg m.ctx := ⟨hg.scope.sound, rfl, rfl⟩
  rcases (sought_opDispatch (w := w) op).ok hseen hop req rfl with ⟨hplaced, -⟩ | ⟨-, hfalse, -⟩
  · exact hplaced.isStatic hst
  · rw [hst] at hfalse
    cases hfalse

/-- A round of a static frame. -/
theorem static_round (h : Round w m m') (hg : m.Guarded w up live)
    (hm : m.suspended = up ++ below) (hbelow : below <:+ m'.suspended)
    (hst : m.ctx.ev.msg.isStatic = true) :
    m'.ctx.tk.view w = m.ctx.tk.view w ∧ Onwards m m' ∧
      ∃ up' live', m'.suspended = up' ++ below ∧ m'.Guarded w up' live' := by
  have hop : ∀ {op : Nat} {c : Ctx}, final (opDispatch w op m.ctx) = c → Muted w m.ctx c := by
    rintro op c rfl
    exact (mutes_opDispatch op).rel m.ctx hst
  cases h with
  | @step op c hat hrun =>
    have hmuted : Muted w m.ctx c := hop (by rw [hrun]; rfl)
    exact ⟨hmuted.same.view hg.scope.sound,
      .same ((congrArg Msg.isStatic hmuted.msg).trans hst) rfl, up, live, hm, hg.muted hmuted⟩
  | @fail op err c hat hrun =>
    have hmuted : Muted w m.ctx c := hop (by rw [hrun]; rfl)
    have hmsg : (c.ev.failed err).msg = m.ctx.ev.msg := (failed_same _ err).1.trans hmuted.msg
    exact ⟨hmuted.same.view hg.scope.sound, .same ((congrArg Msg.isStatic hmsg).trans hst) rfl, up,
      live, hm, (hg.muted hmuted).failed err⟩
  | @start op snap req c c' c'' done child hat hrun hopen hchild hpro =>
    have hreq := hg.placed hrun hst
    obtain ⟨hmsg, hmuted, hview, hguard⟩ := hg.start hat hrun hopen hchild hreq
      (fun e c h => by rw [hpro] at h; cases h) (show _ = c'' by rw [hpro]; rfl)
    obtain ⟨live', hguard⟩ := hguard done
    have hnew : child.ctx.ev.msg = req.msg ∧ child.suspended = (c'.ev, m.cont) :: m.suspended := by
      subst hchild
      exact ⟨rfl, rfl⟩
    refine ⟨hview, .call ?_ ((congrArg Msg.isStatic hmsg).trans hst) hnew.2, _, live', ?_, hguard⟩
    · change c''.ev.msg.isStatic = true
      rw [hmuted.msg, hnew.1, hreq]
    · exact hnew.2.trans (congrArg _ hm)
  | @startFail op snap req c c' c'' err child hat hrun hopen hchild hpro =>
    have hreq := hg.placed hrun hst
    obtain ⟨hmsg, hmuted, hview, hguard⟩ := hg.start hat hrun hopen hchild hreq
      (fun e c h => by rw [hpro] at h; cases h; exact id) (show _ = c'' by rw [hpro]; rfl)
    obtain ⟨live', hguard⟩ := hguard true
    have hnew : child.ctx.ev.msg = req.msg ∧ child.suspended = (c'.ev, m.cont) :: m.suspended := by
      subst hchild
      exact ⟨rfl, rfl⟩
    refine ⟨hview, .call ?_ ((congrArg Msg.isStatic hmsg).trans hst) hnew.2, _, live', ?_,
      hguard.failed err⟩
    · change (c''.ev.failed err).msg.isStatic = true
      rw [(failed_same _ err).1, hmuted.msg, hnew.1, hreq]
    · exact hnew.2.trans (congrArg _ hm)
  | @finish parent pcont rest c c' c'' hover hkind hs hep hclose htail =>
    obtain ⟨up, rfl, hrest⟩ := caller_above (hs.symm.trans hm) hbelow
    obtain ⟨hmuted, hview, live', hscope, hclosed⟩ :=
      hg.finish hst hep hclose (show _ = c'' by rw [htail]; rfl)
    exact ⟨hview, .back hs hmuted.msg hmuted.logs hmuted.delete, up, live', hrest,
      .resumed hmuted hview hscope hclosed⟩
  | @finishFail parent pcont rest c c' c'' err hover hkind hs hep hclose htail =>
    obtain ⟨up, rfl, hrest⟩ := caller_above (hs.symm.trans hm) hbelow
    obtain ⟨hmuted, hview, live', hscope, hclosed⟩ :=
      hg.finish hst hep hclose (show _ = c'' by rw [htail]; rfl)
    obtain ⟨hmsg, -, hlogs, hdelete⟩ := failed_same c''.ev err
    exact ⟨hview, .back hs (hmsg.trans hmuted.msg) (hlogs.trans hmuted.logs)
      (hdelete.trans hmuted.delete), up, live', hrest,
      (Machine.Guarded.resumed hmuted hview hscope hclosed).failed err⟩

/-- The frames of a machine none of whose frames is static. -/
theorem Machine.Guarded.of_free {up' : List (Frame × Cont)} (h : Round w m m')
    (hg : m.Guarded w up live) (hm : m.suspended = up ++ below) (hm' : m'.suspended = up' ++ below)
    (hfree : ∀ f ∈ (m'.ctx.ev, m'.cont) :: up', f.1.msg.isStatic = false) :
    ∃ live', m'.Guarded w up' live' := by
  obtain ⟨up'', live', hm'', ht, hrun⟩ := round_scope h (allows_writing (T := Layered) m) hm
    (hm' ▸ List.suffix_append up' below) hg.frames.taken []
  obtain rfl := List.append_cancel_right (hm'.symm.trans hm'')
  rw [List.append_nil, List.append_nil] at hrun
  exact ⟨live', hg.scope.run (fun _ _ h => h) hrun, .free hfree ht⟩

/-- A round of a frame that is not static. -/
theorem free_round (h : Round w m m') (hg : m.Guarded w up live)
    (hm : m.suspended = up ++ below) (hbelow : below <:+ m'.suspended)
    (hst : m.ctx.ev.msg.isStatic = false) :
    ∃ up' live', m'.suspended = up' ++ below ∧ m'.Guarded w up' live' := by
  have hfree := hg.frames.of_free hst
  have hrest : ∀ f ∈ up, f.1.msg.isStatic = false := fun f hf => hfree f (List.mem_cons_of_mem _ hf)
  have hop : ∀ {op : Nat} {c : Ctx}, final (opDispatch w op m.ctx) = c →
      c.ev.msg.isStatic = false := by
    rintro op c rfl
    exact ((sameStatic_opDispatch op).rel m.ctx).trans hst
  have hopened : ∀ {op snap : Nat} {req : ChildReq} {c c' : Ctx},
      opDispatch w op m.ctx = .ok (some req) c → openChild w req c = .ok snap c' →
      c'.ev.msg.isStatic = false := by
    intro op snap req c c' hrun hopen
    have hsame : SameStatic c c' := sameStatic_of_msg (openChild_ev hopen ▸ rfl)
    exact hsame.trans (hop (by rw [hrun]; rfl))
  have hcons : ∀ {e : Frame} {r : Cont} {up' : List (Frame × Cont)}, e.msg.isStatic = false →
      (∀ f ∈ up', f.1.msg.isStatic = false) → ∀ f ∈ (e, r) :: up', f.1.msg.isStatic = false := by
    intro e r up' he hup f hf
    rcases List.mem_cons.mp hf with rfl | hf
    · exact he
    · exact hup f hf
  have hresume : ∀ {parent : Frame} {c c'' : Ctx} {child : Frame}, parent.msg.isStatic = false →
      final (resume m.cont child { c with ev := parent }) = c'' → c''.ev.msg.isStatic = false := by
    rintro parent c c'' child hparent rfl
    exact ((sameStatic_resume m.cont child).rel { c with ev := parent }).trans hparent
  have hfailed : ∀ (e : Frame) (err : EvmErr), (e.failed err).msg.isStatic = e.msg.isStatic :=
    fun e err => congrArg Msg.isStatic (failed_same e err).1
  have hround := h
  cases h with
  | @step op c hat hrun =>
    have hnew : c.ev.msg.isStatic = false := hop (by rw [hrun]; rfl)
    exact ⟨up, (hg.of_free hround hm hm (hcons hnew hrest)).imp fun _ h => ⟨hm, h⟩⟩
  | @fail op err c hat hrun =>
    have hnew := (hfailed c.ev err).trans (hop (by rw [hrun]; rfl))
    exact ⟨up, (hg.of_free hround hm hm (hcons hnew hrest)).imp fun _ h => ⟨hm, h⟩⟩
  | @start op snap req c c' c'' done child hat hrun hopen hchild hpro =>
    have hsusp : child.suspended = ((c'.ev, m.cont) :: up) ++ below := by
      subst hchild
      exact congrArg _ hm
    cases hreq : req.msg.isStatic with
    | true =>
      obtain ⟨-, -, -, hguard⟩ := hg.start hat hrun hopen hchild hreq
        (fun e c h => by rw [hpro] at h; cases h) (show _ = c'' by rw [hpro]; rfl)
      exact ⟨_, (hguard done).imp fun _ h => ⟨hsusp, h⟩⟩
    | false =>
      have hnew : c''.ev.msg.isStatic = false := by
        have hkeep : SameStatic child.ctx c'' := Keeps.ok (x := framePrologue w) inferInstance hpro
        subst hchild
        exact hkeep.trans hreq
      have hcallers := hcons (r := m.cont) (hopened hrun hopen) hrest
      exact ⟨_, (hg.of_free hround hm hsusp (hcons hnew hcallers)).imp fun _ h => ⟨hsusp, h⟩⟩
  | @startFail op snap req c c' c'' err child hat hrun hopen hchild hpro =>
    have hsusp : child.suspended = ((c'.ev, m.cont) :: up) ++ below := by
      subst hchild
      exact congrArg _ hm
    cases hreq : req.msg.isStatic with
    | true =>
      obtain ⟨-, -, -, hguard⟩ := hg.start hat hrun hopen hchild hreq
        (fun e c h => by rw [hpro] at h; cases h; exact id) (show _ = c'' by rw [hpro]; rfl)
      exact ⟨_, (hguard true).imp fun _ h => ⟨hsusp, h.failed err⟩⟩
    | false =>
      have hnew : (c''.ev.failed err).msg.isStatic = false := by
        have hkeep : SameStatic child.ctx c'' :=
          Keeps.error (x := framePrologue w) inferInstance hpro
        subst hchild
        exact (hfailed c''.ev err).trans (hkeep.trans hreq)
      have hcallers := hcons (r := m.cont) (hopened hrun hopen) hrest
      exact ⟨_, (hg.of_free hround hm hsusp (hcons hnew hcallers)).imp fun _ h => ⟨hsusp, h⟩⟩
  | @finish parent pcont rest c c' c'' hover hkind hs hep hclose htail =>
    obtain ⟨up, rfl, hsusp⟩ := caller_above (hs.symm.trans hm) hbelow
    have hparent := hresume (hrest _ List.mem_cons_self) (show _ = c'' by rw [htail]; rfl)
    have hcallers : ∀ f ∈ up, f.1.msg.isStatic = false := fun f hf =>
      hrest f (List.mem_cons_of_mem _ hf)
    exact ⟨up, (hg.of_free hround hm hsusp (hcons hparent hcallers)).imp fun _ h => ⟨hsusp, h⟩⟩
  | @finishFail parent pcont rest c c' c'' err hover hkind hs hep hclose htail =>
    obtain ⟨up, rfl, hsusp⟩ := caller_above (hs.symm.trans hm) hbelow
    have hparent := hresume (hrest _ List.mem_cons_self) (show _ = c'' by rw [htail]; rfl)
    have hcallers : ∀ f ∈ up, f.1.msg.isStatic = false := fun f hf =>
      hrest f (List.mem_cons_of_mem _ hf)
    have hnew := (hfailed c''.ev err).trans hparent
    exact ⟨up, (hg.of_free hround hm hsusp (hcons hnew hcallers)).imp fun _ h => ⟨hsusp, h⟩⟩

/-! ## Runs -/

/-- The frames of the message above `below`, as they should be. -/
def Machine.Barred (w : Witness) (below : List (Frame × Cont)) (m : Machine) : Prop :=
  ∃ up live, m.suspended = up ++ below ∧ Standing m.cont.kind up ∧ m.Guarded w up live

theorem Machine.Barred.round_of (hb : m.Barred w below) (h : frameRound w m = .ok none m') :
    Round w m m' := by
  obtain ⟨up, live, hm, hstand, -⟩ := hb
  refine round_of_frameRound ?_ h
  unfold Machine.Stacked
  rw [hm]
  exact hstand.stacked below

theorem barred_round (hb : m.Barred w below) (h : frameRound w m = .ok none m') :
    m'.Barred w below := by
  have hround := hb.round_of h
  obtain ⟨up, live, hm, hstand, hg⟩ := hb
  obtain ⟨up₁, hm₁, hstand₁⟩ := hround.standing hm hstand
  have hbelow : below <:+ m'.suspended := hm₁ ▸ List.suffix_append up₁ below
  obtain ⟨up', live', hm', hg'⟩ : ∃ up' live', m'.suspended = up' ++ below ∧
      m'.Guarded w up' live' := by
    cases hst : m.ctx.ev.msg.isStatic with
    | true => exact (static_round hround hg hm hbelow hst).2.2
    | false => exact free_round hround hg hm hbelow hst
  obtain rfl := List.append_cancel_right (hm₁.symm.trans hm')
  exact ⟨up₁, live', hm₁, hstand₁, hg'⟩

/-- Every state of the machine that a message runs on is as it should be, when the message is not
static. -/
theorem barred_rounds {msg : Msg} {m₀ : Machine} {n : Nat} {base : List (Nat × Tracker)}
    (hm : Reached w ⟨m.ctx.tk, base⟩) (hmsg : msg.isStatic = false)
    (hstart : startMessage w msg m = .ok true m₀) (hgo : Rounds w n m₀ m') :
    m'.Barred w ((m.ctx.ev, m.cont) :: m.suspended) := by
  refine hgo.keeps (fun _ _ => barred_round) ?_
  obtain ⟨hsusp, hkind, live, ht, hrun⟩ := startMessage_scope (T := Layered) hstart []
  rw [List.append_nil] at hrun
  have hscope := (Scope.Sound.of_sound (reached_sound hm).sound).run (fun _ _ h => h) hrun
  have hfree : m₀.ctx.ev.msg.isStatic = false :=
    (startMessage_keeps (R := SameStatic) hstart).2.trans hmsg
  refine ⟨[], live, hsusp, hkind ▸ .root, hscope, .free (fun f hf => ?_) ht⟩
  rw [List.mem_singleton.mp hf]
  exact hfree

/-- The round that opens a frame suspends the current one. -/
theorem Round.opened (h : Round w m m') (hlen : m.suspended.length < m'.suspended.length) :
    ∃ parent, m'.suspended = (parent, m.cont) :: m.suspended := by
  cases h with
  | step => exact absurd hlen (lt_irrefl _)
  | fail => exact absurd hlen (lt_irrefl _)
  | start _ _ _ hchild =>
    subst hchild
    exact ⟨_, rfl⟩
  | startFail _ _ _ hchild =>
    subst hchild
    exact ⟨_, rfl⟩
  | finish _ _ hs =>
    rw [hs, List.length_cons] at hlen
    exact absurd hlen (by dsimp only; omega)
  | finishFail _ _ hs =>
    rw [hs, List.length_cons] at hlen
    exact absurd hlen (by dsimp only [Machine.excepted, Machine.finished]; omega)

/-- The start of a static frame. -/
theorem static_start {parent : Frame} (h : Round w m m') (hg : m.Guarded w up live)
    (hs : m'.suspended = (parent, m.cont) :: m.suspended) (hst : m'.ctx.ev.msg.isStatic = true) :
    m'.ctx.tk.view w = m.ctx.tk.view w := by
  have hlonger : ∀ {fs : List (Frame × Cont)} {f : Frame × Cont}, fs ≠ f :: fs := by
    intro fs f h
    have hlen := congrArg List.length h
    rw [List.length_cons] at hlen
    omega
  have hshorter : ∀ {fs : List (Frame × Cont)} {f g : Frame × Cont}, fs ≠ f :: g :: fs := by
    intro fs f g h
    have hlen := congrArg List.length h
    rw [List.length_cons, List.length_cons] at hlen
    omega
  cases h with
  | step => exact absurd hs hlonger
  | fail => exact absurd hs hlonger
  | @start op snap req c c' c'' done child hat hrun hopen hchild hpro =>
    have hkeep : SameStatic child.ctx c'' := Keeps.ok (x := framePrologue w) inferInstance hpro
    have hreq : req.msg.isStatic = true := by
      subst hchild
      exact hkeep.symm.trans hst
    exact (hg.start hat hrun hopen hchild hreq (fun e c h => by rw [hpro] at h; cases h)
      (show _ = c'' by rw [hpro]; rfl)).2.2.1
  | @startFail op snap req c c' c'' err child hat hrun hopen hchild hpro =>
    have hkeep : SameStatic child.ctx c'' := Keeps.error (x := framePrologue w) inferInstance hpro
    have hreq : req.msg.isStatic = true := by
      have hfail : (c''.ev.failed err).msg.isStatic = true := hst
      rw [(failed_same _ err).1] at hfail
      subst hchild
      exact hkeep.symm.trans hfail
    exact (hg.start hat hrun hopen hchild hreq (fun e c h => by rw [hpro] at h; cases h; exact id)
      (show _ = c'' by rw [hpro]; rfl)).2.2.1
  | finish hover hkind hs' =>
    rw [hs'] at hs
    exact absurd hs hshorter
  | finishFail hover hkind hs' =>
    rw [hs'] at hs
    exact absurd hs hshorter

/-- While a static frame runs, above its caller: all frames down to it are static. At its end its
caller is back with what it had. -/
def Machine.Hushed (parent : Frame) (pcont : Cont) (rest : List (Frame × Cont)) (m : Machine) :
    Prop :=
  (m.ctx.ev.msg.isStatic = true ∧ ∃ ups, m.suspended = ups ++ (parent, pcont) :: rest ∧
    ∀ f ∈ ups, f.1.msg.isStatic = true) ∨
  (m.suspended = rest ∧ m.ctx.ev.msg = parent.msg ∧ m.ctx.ev.logs = parent.logs ∧
    m.ctx.ev.delete = parent.delete)

omit [Keccak] [Crypto] in
theorem hushed_round {parent : Frame} {pcont : Cont} {rest : List (Frame × Cont)}
    (hm : m.Hushed parent pcont rest) (habove : Above ((parent, pcont) :: rest) m)
    (h : m.ctx.ev.msg.isStatic = true → Onwards m m') : m'.Hushed parent pcont rest := by
  rcases hm with ⟨hst, ups, hs, hups⟩ | ⟨hs, -⟩
  · cases h hst with
    | same hst' hs' => exact .inl ⟨hst', ups, hs'.trans hs, hups⟩
    | @call e hst' he hs' =>
      refine .inl ⟨hst', (e, m.cont) :: ups, ?_, fun f hf => ?_⟩
      · rw [hs', hs]
        rfl
      · rcases List.mem_cons.mp hf with rfl | hf
        · exact he
        · exact hups f hf
    | @back parent' pcont' hs' hmsg hlogs hdelete =>
      rw [hs] at hs'
      cases ups with
      | nil =>
        cases hs'
        exact .inr ⟨rfl, hmsg, hlogs, hdelete⟩
      | cons f ups =>
        rw [List.cons_append, List.cons.injEq] at hs'
        obtain ⟨rfl, hs'⟩ := hs'
        refine .inl ⟨?_, ups, hs'.symm, fun f hf => hups f (List.mem_cons_of_mem _ hf)⟩
        exact (congrArg Msg.isStatic hmsg).trans (hups _ List.mem_cons_self)
  · have hlen := habove.length_le
    rw [hs, List.length_cons] at hlen
    omega

/-- What is read of the accounts, the slots and the transient slots is the same. -/
structure SameReads (w : Witness) (s s' : Tracker) : Prop where
  accountExists : ∀ addr, result (accountExists w addr s') = result (accountExists w addr s)
  account : ∀ addr, result ((getAccount w addr >>= ldAcct) s') =
    result ((getAccount w addr >>= ldAcct) s)
  storage : ∀ addr key, result (getStorage w addr key s') = result (getStorage w addr key s)
  transient : ∀ addr key, result (getTransientStorage addr key s') =
    result (getTransientStorage addr key s)

omit [Crypto] in
theorem sameReads_of_view {s s' : Tracker} (h : s'.view w = s.view w) : SameReads w s s' := by
  have haccount : ∀ addr, s'.account w addr = s.account w addr := congrFun (congrArg View.account h)
  have hslot : ∀ addr key, s'.slot w addr key = s.slot w addr key := fun addr =>
    congrFun (congrFun (congrArg View.slot h) addr)
  have htransient : ∀ k, s'.transientAt k = s.transientAt k := congrFun (congrArg View.transient h)
  refine ⟨fun addr => ?_, fun addr => ?_, fun addr key => ?_, fun addr key => ?_⟩
  · rw [result_accountExists, result_accountExists, haccount]
  · rw [result_getAccount, result_getAccount, haccount]
  · rw [result_getStorage, result_getStorage, hslot]
  · rw [result_getTransientStorage, result_getTransientStorage, htransient]

/-- A static frame changes nothing that can be read, whatever it and the frames it opens do and
however they end. The caller that opened it from `p` goes on with the logs and the deletions it
had. -/
theorem static_frame_frame {msg : Msg} {m m₀ p q r : Machine} {n k : Nat}
    {base : List (Nat × Tracker)} {parent : Frame} (hm : Reached w ⟨m.ctx.tk, base⟩)
    (hmsg : msg.isStatic = false) (hstart : startMessage w msg m = .ok true m₀)
    (hp : Rounds w n m₀ p) (hopen : frameRound w p = .ok none q)
    (hq : q.suspended = (parent, p.cont) :: p.suspended) (hst : q.ctx.ev.msg.isStatic = true)
    (hgo : Goes (frameRound w) (Above q.suspended) k q r) :
    SameReads w p.ctx.tk r.ctx.tk ∧ (r.suspended = p.suspended → r.ctx.ev.msg = parent.msg ∧
      r.ctx.ev.logs = parent.logs ∧ r.ctx.ev.delete = parent.delete) := by
  have hbp := barred_rounds hm hmsg hstart hp
  have hview : q.ctx.tk.view w = p.ctx.tk.view w := by
    obtain ⟨up, live, -, -, hg⟩ := id hbp
    exact static_start (hbp.round_of hopen) hg hq hst
  suffices h : r.ctx.tk.view w = q.ctx.tk.view w ∧ r.Hushed parent p.cont p.suspended by
    refine ⟨sameReads_of_view (h.1.trans hview), fun hs => ?_⟩
    rcases h.2 with ⟨-, ups, hs', -⟩ | ⟨-, hback⟩
    · have hlen := congrArg List.length (hs.symm.trans hs')
      rw [List.length_append, List.length_cons] at hlen
      omega
    · exact hback
  have hbq := barred_round hbp hopen
  have hquiet : q.Hushed parent p.cont p.suspended :=
    .inl ⟨hst, [], hq, fun f hf => absurd hf List.not_mem_nil⟩
  rw [hq] at hgo
  clear hopen hq hst hview
  -- every round keeps the view, and its frame is static until the caller is back
  induction hgo with
  | refl => exact ⟨rfl, hquiet⟩
  | @step _ t t' _ habove hround _ ih =>
    have hr := hbq.round_of hround
    have hbt := barred_round hbq hround
    obtain ⟨up, live, hs, hstand, hg⟩ := hbq
    obtain ⟨up₁, hs₁, -⟩ := hr.standing hs hstand
    have hstep := static_round hr hg hs (hs₁ ▸ List.suffix_append up₁ _)
    have hst : t.ctx.ev.msg.isStatic = true := by
      rcases hquiet with ⟨hst, -⟩ | ⟨hback, -⟩
      · exact hst
      · have hlen := habove.length_le
        rw [hback, List.length_cons] at hlen
        omega
    obtain ⟨hview, hquiet'⟩ := ih hbt (hushed_round hquiet habove fun hst => (hstep hst).2.1)
    exact ⟨hview.trans (hstep hst).1, hquiet'⟩

end

section

attribute [local instance] numKeccak stubCrypto

/-- An account whose code tries to write a slot. -/
private def slotWriter : Witness :=
  { emptyWitness with
    account := fun a => .ok (if a = 0x3000 then some ⟨1, 5, emptyTrieRoot, 7⟩ else none)
    code := fun h => if h = 7 then some [0x55] else none
    account_fatal := fun _ _ h => by cases h }

/-- A creation that calls it by STATICCALL. -/
private def staticCaller : Msg :=
  { (default : Msg) with
    caller := 0x10
    currentTarget := 0x2000
    code := [0x5f, 0x5f, 0x5f, 0x5f, 0x61, 0x30, 0x00, 0x61, 0xff, 0xff, 0xfa]
    gas := 1000000 }

private def refusedIn (m m' m'' : Machine) : Bool :=
  m.suspended.length < m'.suspended.length ∧ m'.ctx.ev.msg.isStatic = true ∧
    m''.ctx.ev.error = some .writeInStatic

set_option maxRecDepth 20000 in
private theorem staticCaller_runs :
    ((afterRounds slotWriter staticCaller default 6).any fun p =>
      (afterRounds slotWriter staticCaller default 7).any fun q =>
        (afterRounds slotWriter staticCaller default 8).any fun r => refusedIn p q r) = true := by
  decide +kernel

private theorem afterRounds_step {w : Witness} {msg : Msg} {n : Nat} {m m' : Machine}
    (h : afterRounds w msg m (n + 1) = some m') :
    ∃ p, afterRounds w msg m n = some p ∧ frameRound w p = .ok none m' := by
  unfold afterRounds at h
  obtain ⟨p, hp, h⟩ := Option.bind_eq_some_iff.mp h
  refine ⟨p, hp, ?_⟩
  split at h
  · next hrun =>
    cases h
    exact hrun
  · cases h

/-- The account's write fails, and nothing has changed. -/
theorem static_frame_frame_refused : ∃ m₀ p q r : Machine,
    startMessage slotWriter staticCaller default = .ok true m₀ ∧ Rounds slotWriter 6 m₀ p ∧
      frameRound slotWriter p = .ok none q ∧ q.ctx.ev.msg.isStatic = true ∧
        r.ctx.ev.error = some .writeInStatic ∧ SameReads slotWriter p.ctx.tk r.ctx.tk := by
  obtain ⟨p, hp, hany⟩ := (Option.any_eq_true _ _).mp staticCaller_runs
  obtain ⟨q, hq, hany⟩ := (Option.any_eq_true _ _).mp hany
  obtain ⟨r, hr, hend⟩ := (Option.any_eq_true _ _).mp hany
  obtain ⟨hlen, hst, herror⟩ := of_decide_eq_true hend
  obtain ⟨m₀, hstart, hgo⟩ := afterRounds_some hp
  obtain ⟨p', hp', hopen⟩ := afterRounds_step hq
  obtain ⟨q', hq', hround⟩ := afterRounds_step hr
  obtain rfl := Option.some.inj (hp.symm.trans hp')
  obtain rfl := Option.some.inj (hq.symm.trans hq')
  have hb := barred_rounds Reached.init rfl hstart hgo
  obtain ⟨parent, hsusp⟩ := (hb.round_of hopen).opened hlen
  refine ⟨m₀, p, q, r, hstart, hgo, hopen, hst, herror, ?_⟩
  exact (static_frame_frame Reached.init rfl hstart hgo hopen hsusp hst
    (.single (List.suffix_refl _) hround)).1

end

end StatelessGuest
