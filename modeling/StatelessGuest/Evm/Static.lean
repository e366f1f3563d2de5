import StatelessGuest.Evm.Requests
import StatelessGuest.Evm.Snapshots

/-!
# Static frames

Every instruction that writes throws in a static frame, its children are static too, and the one
write that is not checked, the transfer of a CALLCODE, is from an account to itself.

* `mutes_opDispatch`: an instruction of a static frame changes no account, no slot and no log.
* `muted_framePrologue`: the start of a static frame neither.
* `Closed`: the frames from a static one on are static, and the state their snapshots were taken
  in reads like the current one.
-/

namespace StatelessGuest

open Lib

-- a call of fifteen steps needs more instances than the default allows
set_option synthInstance.maxSize 1000

section

variable [Keccak] {w : Witness}

/-! ## Instructions -/

/-- A program changes nothing that can be read when the frame is static. -/
def Mutes (w : Witness) (c c' : Ctx) : Prop := c.ev.msg.isStatic = true → Muted w c c'

instance : Std.Refl (Mutes w) := ⟨fun c _ => refl_of (Muted w) c⟩

instance : IsTrans Ctx (Mutes w) := ⟨fun _ _ _ h h' hst =>
  trans_of (Muted w) (h hst) (h' ((congrArg Msg.isStatic (h hst).msg).trans hst))⟩

theorem mutes_of_muted {α : Type} {x : EvmM α} (hx : Keeps (Muted w) x) : Keeps (Mutes w) x :=
  hx.mono fun _ _ h _ => h

/-- What follows the check is not run in a static frame. -/
theorem mutes_requireNotStatic {α : Type} (f : Unit → EvmM α) :
    Keeps (Mutes w) (requireNotStatic >>= f) := by
  refine ⟨fun c hst => ?_⟩
  rw [bind_run, requireNotStatic_run, if_pos hst]
  exact refl_of (Muted w) c

theorem mutes_plain {x : EvmM Unit} (hx : Keeps (Mutes w) x) : Keeps (Mutes w) (plain x) :=
  Keeps.seq hx fun _ => Keeps.pure _

theorem mutes_opLog (n : Nat) : Keeps (Mutes w) (opLog n) := by
  have hseq : ∀ {α β : Type} {x : EvmM α} {f : α → EvmM β}, Keeps (Muted w) x →
      (∀ a, Keeps (Mutes w) (f a)) → Keeps (Mutes w) (x >>= f) :=
    fun hx hf => Keeps.seq (mutes_of_muted hx) hf
  unfold opLog
  refine hseq inferInstance fun start => hseq inferInstance fun size => ?_
  refine hseq inferInstance fun e => ?_
  dsimp only
  split
  case' isTrue => refine hseq inferInstance fun _ => ?_
  all_goals
    iterate 4 refine hseq inferInstance fun _ => ?_
    exact mutes_requireNotStatic _

/-- No instruction of a static frame changes anything that can be read. -/
theorem mutes_opDispatch (op : Nat) : Keeps (Mutes w) (opDispatch w op) := by
  have hsilent : ∀ x, IsSilent x → Keeps (Mutes w) (plain x) := fun x hx =>
    mutes_plain (mutes_of_muted hx.keeps)
  refine opDispatch_cases w (fun n => hsilent _ fun _ _ _ => inferInstance)
    (fun n => hsilent _ fun _ _ _ => inferInstance) (fun n => hsilent _ fun _ _ _ => inferInstance)
    (fun n _ => mutes_plain (mutes_opLog n)) (opTable_forall w (P := fun x => Keeps (Mutes w) (plain x))
      hsilent ?_ ?_ ?_) (callTable_forall w ?_ ?_ ?_ ?_ ?_ ?_) (mutes_of_muted inferInstance) op
  · exact mutes_plain (mutes_requireNotStatic _)
  · exact mutes_plain (mutes_requireNotStatic _)
  · exact mutes_plain (mutes_requireNotStatic _)
  · exact mutes_requireNotStatic _
  · exact mutes_of_muted inferInstance
  · exact mutes_of_muted inferInstance
  · exact mutes_of_muted inferInstance
  · exact mutes_requireNotStatic _
  · exact mutes_of_muted inferInstance

/-! ## The start of a frame -/

/-- A transfer of an account to itself leaves the account as it is, when it has code. -/
theorem View.moveEther_self {v : View} {addr : Address} (h : v.HasCode addr) (amount : U256) :
    v.moveEther addr addr amount = v := by
  obtain ⟨a, ha, hcode⟩ := h
  have hpaid : (v.update addr fun b => { b with balance := b.balance - amount }) =
      v.setAccount addr (some { a with balance := a.balance - amount }) := by
    rw [View.update, View.acct_of_account ha]
    exact View.commit_of_code hcode
  rw [View.moveEther, hpaid, View.update, View.acct_setAccount]
  dsimp only
  rw [BitVec.sub_add_cancel, View.commit_of_code hcode]
  unfold View.setAccount
  rw [Function.update_idem, ← ha, Function.update_eq_self]

/-- The transfer that a static frame may start with is one of an account with code to itself. -/
def Harmless (v : View) (msg : Msg) : Prop :=
  msg.transferValue = true → msg.value ≠ 0 →
    msg.caller = msg.currentTarget ∧ v.HasCode msg.currentTarget

theorem muted_transferMsgValue {c c' : Ctx} {msg : Msg} (hs : Sound c.tk)
    (hmsg : Harmless (c.tk.view w) msg) (hrun : transferMsgValue w msg c = .ok () c') :
    Muted w c c' := by
  unfold transferMsgValue at hrun
  split at hrun
  · next hpays =>
    obtain ⟨hself, hcode⟩ := hmsg hpays.1 hpays.2
    obtain ⟨_, c₁, hmove, hlog⟩ := bind_ok.mp hrun
    obtain ⟨s, hs', rfl⟩ := of_liftState_ok hmove
    unfold logTransfer at hlog
    rw [if_pos hself] at hlog
    cases hlog
    rw [hself] at hs'
    have hlay : Layered c.tk s := Keeps.ok (x := moveEther w _ _ _) inferInstance hs'
    exact ⟨rfl, rfl, rfl, rfl, hlay, fun _ => (view_moveEther hs hs').2.trans
      (View.moveEther_self hcode _)⟩
  · cases hrun
    exact refl_of (Muted w) c

theorem transferMsgValue_fatal {c c' : Ctx} {msg : Msg} {e : Exn}
    (h : transferMsgValue w msg c = .error e c') : e.Fatal := by
  unfold transferMsgValue at h
  split at h
  · obtain hmove | ⟨_, c₁, -, hlog⟩ := bind_error.mp h
    · obtain ⟨s, hs, -⟩ := of_liftState_error hmove
      exact Throws.error hs
    · exfalso
      unfold logTransfer emitTransferLog at hlog
      split at hlog
      · cases hlog
      · split at hlog <;> cases hlog
  · cases h

/-- The start of a frame changes nothing that can be read, when it transfers no value to another
account. -/
theorem muted_framePrologue [Crypto] {c : Ctx} (hs : Sound c.tk)
    (hmsg : Harmless (c.tk.view w) c.ev.msg)
    (hfatal : ∀ e c', framePrologue w c = .error e c' → ¬e.Fatal) :
    Muted w c (final (framePrologue w c)) := by
  have hrest : ∀ c', transferMsgValue w c.ev.msg c = .ok () c' →
      Muted w c' (final (framePrologue w c)) := by
    intro c' htransfer
    unfold framePrologue
    rw [bind_run_ok (show getEv c = .ok c.ev c from rfl), bind_run_ok htransfer]
    refine @Keeps.rel _ _ _ (Muted w) _ ?_ c'
    split
    · infer_instance
    · dsimp only
      split <;> infer_instance
  cases htransfer : transferMsgValue w c.ev.msg c with
  | ok _ c' => exact trans_of (Muted w) (muted_transferMsgValue hs hmsg htransfer) (hrest c' htransfer)
  | error e c' =>
    refine absurd (transferMsgValue_fatal htransfer) (hfatal e c' ?_)
    unfold framePrologue
    rw [bind_run_ok (show getEv c = .ok c.ev c from rfl), bind_run_error htransfer]

/-! ## Frames -/

/-- A static frame, which has left no logs and deletions, and runs the code of an account. -/
structure Frame.Shut (v : View) (e : Frame) : Prop where
  isStatic : e.msg.isStatic = true
  logs : e.logs = []
  delete : e.delete = .empty
  code : e.code ≠ [] → v.HasCode e.msg.currentTarget

theorem Frame.Shut.congr {v : View} {e e' : Frame} (h : e.Shut v) (hmsg : e'.msg = e.msg)
    (hcode : e'.code = e.code) (hlogs : e'.logs = e.logs) (hdelete : e'.delete = e.delete) :
    e'.Shut v :=
  ⟨hmsg ▸ h.isStatic, hlogs.trans h.logs, hdelete.trans h.delete, by
    rw [hcode, hmsg]
    exact h.code⟩

theorem Frame.Shut.muted {v : View} {c c' : Ctx} (h : c.ev.Shut v) (hm : Muted w c c') :
    c'.ev.Shut v :=
  h.congr hm.msg hm.code hm.logs hm.delete

/-- From the innermost frame on, the frames are static down to one that is not, with only such
below it. What the reads find is what they found when the static ones started. -/
inductive Closed (w : Witness) (v : View) : List (Frame × Cont) → List (Nat × Tracker) → Prop where
  | free {fs : List (Frame × Cont)} {live : List (Nat × Tracker)}
      (hfree : ∀ f ∈ fs, f.1.msg.isStatic = false) (ht : Taken (fs.map Prod.snd) live) :
      Closed w v fs live
  | shut {e : Frame} {r : Cont} {fs : List (Frame × Cont)} {s : Tracker}
      {live : List (Nat × Tracker)} (hframe : e.Shut v) (hkind : r.kind = .call)
      (hview : s.view w = v) (h : Closed w v fs live) :
      Closed w v ((e, r) :: fs) ((r.snapshot, s) :: live)

variable {v : View} {e e' : Frame} {r r' : Cont} {fs : List (Frame × Cont)}
  {live : List (Nat × Tracker)}

theorem Closed.taken (h : Closed w v fs live) : Taken (fs.map Prod.snd) live := by
  induction h with
  | free _ ht => exact ht
  | shut _ hkind _ _ ih =>
    refine taken_cons.mpr ⟨[_], _, rfl, ?_, ih⟩
    rw [taken_single, Cont.handles_call (by rw [hkind]; exact FrameKind.noConfusion)]
    rfl

/-- The innermost frame, when it is static. -/
theorem Closed.of_static (h : Closed w v ((e, r) :: fs) live) (hst : e.msg.isStatic = true) :
    e.Shut v ∧ r.kind = .call ∧ ∃ s rest, live = (r.snapshot, s) :: rest ∧ s.view w = v ∧
      Closed w v fs rest := by
  cases h with
  | free hfree _ =>
    have hfalse := hfree _ List.mem_cons_self
    rw [hst] at hfalse
    cases hfalse
  | shut hframe hkind hview h => exact ⟨hframe, hkind, _, _, rfl, hview, h⟩

/-- All frames, when the innermost one is not static. -/
theorem Closed.of_free (h : Closed w v ((e, r) :: fs) live) (hst : e.msg.isStatic = false) :
    ∀ f ∈ (e, r) :: fs, f.1.msg.isStatic = false := by
  cases h with
  | free hfree _ => exact hfree
  | shut hframe _ _ _ =>
    rw [hframe.isStatic] at hst
    cases hst

/-- The innermost frame goes on. -/
theorem Closed.head (h : Closed w v ((e, r) :: fs) live)
    (hstatic : e'.msg.isStatic = e.msg.isStatic) (hshut : e.Shut v → e'.Shut v) (hkind : r'.kind = r.kind) (hhandles : r'.handles = r.handles)
    (hsnap : r'.snapshot = r.snapshot) : Closed w v ((e', r') :: fs) live := by
  cases h with
  | free hfree ht =>
    refine .free (fun f hf => ?_) ?_
    · rcases List.mem_cons.mp hf with rfl | hf
      · exact hstatic.trans (hfree _ List.mem_cons_self)
      · exact hfree f (List.mem_cons_of_mem _ hf)
    · unfold Taken at ht ⊢
      rw [ht, List.map_cons, List.map_cons, List.flatMap_cons, List.flatMap_cons]
      dsimp only
      rw [hhandles]
  | shut hframe hk hview h =>
    rw [← hsnap]
    exact .shut (hshut hframe) (hkind.trans hk) hview h

/-! ## What is static stays static -/

/-- The frame is static when it was. -/
def SameStatic (c c' : Ctx) : Prop := c'.ev.msg.isStatic = c.ev.msg.isStatic

omit [Keccak] in
theorem sameStatic_of_msg {c c' : Ctx} (h : c'.ev.msg = c.ev.msg) : SameStatic c c' :=
  congrArg Msg.isStatic h

instance : Tracks SameStatic where
  refl _ := rfl
  trans _ _ _ h h' := h'.trans h
  free _ _ _ hmsg := sameStatic_of_msg hmsg
  read _ _ _ := rfl
  sets _ _ _ := rfl
  tracker _ _ := rfl

instance : Moves SameStatic where
  move _ _ := rfl

instance : Stores SameStatic where
  store _ _ := rfl

instance : Emits SameStatic where
  emit _ _ _ := rfl

instance : Tends SameStatic where
  tracker _ _ := rfl
  chargeStateGas _ := inferInstance
  creditStateGas _ := inferInstance
  refund _ _ := rfl
  slotWrites _ _ := rfl
  takeStateGas _ := rfl
  refill _ := rfl
  halt _ := inferInstance
  error _ _ := rfl
  msg _ _ h := h

instance : Keeps SameStatic rebaseReservoir := Keeps.modify fun _ => rfl

instance (code : Bytes) : Keeps SameStatic (setFrameCode code) := Keeps.modify fun _ => rfl

theorem sameStatic_opDispatch (op : Nat) : Keeps SameStatic (opDispatch w op) := by
  have hplain : ∀ {x : EvmM Unit}, Keeps SameStatic x → Keeps SameStatic (plain x) :=
    fun hx => Keeps.seq hx fun _ => Keeps.pure _
  refine opDispatch_cases w (fun n => hplain inferInstance) (fun n => hplain inferInstance)
    (fun n => hplain inferInstance) (fun n _ => hplain inferInstance) (opTable_forall w
      (P := fun x => Keeps SameStatic (plain x)) (fun x hx => hplain hx.keeps) ?_ ?_ ?_)
    (callTable_forall w ?_ ?_ ?_ ?_ ?_ ?_) inferInstance op
  · exact hplain inferInstance
  · exact hplain inferInstance
  · exact hplain inferInstance
  all_goals infer_instance

omit [Keccak] in
theorem sameStatic_resume (r : Cont) (child : Frame) : Keeps SameStatic (resume r child) := by
  unfold resume
  infer_instance

end

end StatelessGuest
