import StatelessGuest.Evm.Tracked
import StatelessGuest.Lib.Triple
import StatelessGuest.State.Effects

/-!
# What the instructions that call ask for

A call changes nothing that the reads of the state see before its child starts. The message of
the child is for an account that has the code it runs, or for the caller's own, and a value it
transfers is the caller's and covered by its balance.

* `Muted`: the message, the code, the logs and the deletions of the frame stay, and so does the
  view of the state.
* `Placed`: what the message of a call's child says.
* `sought_opDispatch`: the requests of the instructions.
-/

namespace StatelessGuest

open Lib

/-! ## Changes that no read sees -/

/-- The view of the state stays. -/
structure Same [Keccak] (w : Witness) (s s' : Tracker) : Prop where
  layered : Layered s s'
  view : Sound s → s'.view w = s.view w

section

variable [Keccak] {w : Witness}

theorem Same.of_readOnly {s s' : Tracker} (h : ReadOnly s s') : Same w s s' :=
  ⟨Reading.readOnly h, fun hs => view_readOnly hs h⟩

instance : Reading (Same w) where
  refl s := ⟨refl_of Layered s, fun _ => rfl⟩
  trans _ _ _ h h' := ⟨h.layered.trans h'.layered, fun hs =>
    (h'.view (h.layered.sound hs)).trans (h.view hs)⟩
  read h := .of_readOnly (Reading.read h)
  alloc s a := .of_readOnly (Reading.alloc s a)

/-- The message, the code, the logs and the deletions of the frame stay, and the state's view. -/
structure Muted (w : Witness) (c c' : Ctx) : Prop where
  msg : c'.ev.msg = c.ev.msg
  code : c'.ev.code = c.ev.code
  logs : c'.ev.logs = c.ev.logs
  delete : c'.ev.delete = c.ev.delete
  same : Same w c.tk c'.tk

instance : Lenient (Muted w) where
  refl c := ⟨rfl, rfl, rfl, rfl, refl_of (Same w) c.tk⟩
  trans _ _ _ h h' := ⟨h'.msg.trans h.msg, h'.code.trans h.code, h'.logs.trans h.logs,
    h'.delete.trans h.delete, trans_of (Same w) h.same h'.same⟩
  free c _ hrest hmsg := ⟨hmsg, congrArg FrameRest.code hrest, congrArg FrameRest.logs hrest,
    congrArg FrameRest.delete hrest, refl_of (Same w) c.tk⟩
  read _ _ h := ⟨rfl, rfl, rfl, rfl, .of_readOnly h⟩
  sets c _ _ := ⟨rfl, rfl, rfl, rfl, refl_of (Same w) c.tk⟩

instance : Moves (Muted w) where
  move c _ := ⟨rfl, rfl, rfl, rfl, refl_of (Same w) c.tk⟩

instance : Stores (Muted w) where
  store c _ := ⟨rfl, rfl, rfl, rfl, refl_of (Same w) c.tk⟩

/-! ## Accounts with code -/

/-- An account with a code hash other than the empty one. -/
def View.HasCode (v : View) (addr : Address) : Prop :=
  ∃ a, v.account addr = .ok (some a) ∧ a.codeHash ≠ emptyCodeHash

theorem loadAccount_ok {addr : Address} {a : Acct} {s s' : Tracker}
    (h : loadAccount w addr s = .ok a s') :
    a = (s.view w).acct addr ∧ ReadOnly s s' ∧ ∃ r, s.account w addr = .ok r := by
  obtain ⟨p, s₁, hget, hload⟩ := bind_ok.mp h
  cases hload
  obtain ⟨hro, hacct, hr⟩ := getAccount_ok hget
  exact ⟨hacct, hro, hr⟩

/-- Code that is not empty is that of an account with code. -/
theorem hasCode_of_extCodeOf {addr : Address} {code : Bytes} {s s' : Tracker}
    (h : extCodeOf w addr s = .ok code s') (hne : code ≠ []) : (s.view w).HasCode addr := by
  obtain ⟨a, s₁, hload, hcode⟩ := bind_ok.mp h
  obtain ⟨rfl, -, r, hr⟩ := loadAccount_ok hload
  have hhash : ((s.view w).acct addr).codeHash ≠ emptyCodeHash := by
    intro hempty
    rw [hempty] at hcode
    have hres := result_getCode w emptyCodeHash addr s₁
    rw [hcode, if_pos rfl] at hres
    cases hres
    exact hne rfl
  have hacct : (s.view w).acct addr = r.getD emptyAcct := by
    unfold View.acct
    rw [show (s.view w).account addr = .ok r from hr]
    rfl
  cases r with
  | none =>
    rw [hacct] at hhash
    exact absurd rfl hhash
  | some a =>
    rw [hacct] at hhash
    exact ⟨a, hr, hhash⟩

/-! ## Along a call -/

/-- The frame's message and what the reads see. -/
def Seen (w : Witness) (v : View) (pm : Msg) (c : Ctx) : Prop :=
  Sound c.tk ∧ c.tk.view w = v ∧ c.ev.msg = pm

variable {v : View} {pm : Msg} {α β : Type}

theorem Seen.muted {c c' : Ctx} (h : Seen w v pm c) (hm : Muted w c c') : Seen w v pm c' :=
  ⟨hm.same.layered.sound h.1, (hm.same.view h.1).trans h.2.1, hm.msg.trans h.2.2⟩

theorem seen_step (x : EvmM α) [hx : Keeps (Muted w) x] :
    Triple (Seen w v pm) x (fun _ => Seen w v pm) fun _ _ => True :=
  .of_keeps hx (fun _ _ => Seen.muted) fun _ _ _ => trivial

/-- A step that only keeps what is seen, before others. -/
theorem seen_seq {x : EvmM α} {f : α → EvmM β} {Q : β → Ctx → Prop} (hx : Keeps (Muted w) x)
    (hf : ∀ a, Triple (Seen w v pm) (f a) Q fun _ _ => True) :
    Triple (Seen w v pm) (x >>= f) Q fun _ _ => True :=
  .bind (seen_step x) hf

theorem seen_getEv :
    Triple (Seen w v pm) getEv (fun e c => e.msg = pm ∧ Seen w v pm c) fun _ _ => True := by
  refine ⟨fun hc hrun => ?_, fun _ _ => trivial⟩
  cases hrun
  exact ⟨hc.2.2, hc⟩

theorem seen_extCodeOf (addr : Address) :
    Triple (Seen w v pm) (liftState (extCodeOf w addr))
      (fun code c => (code ≠ [] → v.HasCode addr) ∧ Seen w v pm c) fun _ _ => True := by
  refine ⟨fun {c c' code} hc hrun => ?_, fun _ _ => trivial⟩
  have hkeep : Keeps (Muted w) (liftState (extCodeOf w addr)) := inferInstance
  refine ⟨fun hne => ?_, hc.muted (hkeep.ok hrun)⟩
  obtain ⟨s, hs, -⟩ := of_liftState_ok hrun
  rw [← hc.2.1]
  exact hasCode_of_extCodeOf hs hne

/-- The code of a callee is its own or that of the account it delegates to. -/
theorem seen_calculateDelegationCost (addr : Address) :
    Triple (Seen w v pm) (calculateDelegationCost w addr)
      (fun dl c => ((dl.1 = true → v.HasCode addr) ∧ (dl.1 = false → dl.2.1 = addr)) ∧
        Seen w v pm c) fun _ _ => True := by
  unfold calculateDelegationCost
  refine .bind (seen_extCodeOf addr) fun code => .of_fact fun hcode => ?_
  split
  · next hvalid =>
    have hne : code ≠ [] := by
      rintro rfl
      cases hvalid
    refine seen_seq inferInstance fun warm => ?_
    split
    · exact .pure fun c h => ⟨⟨fun _ => hcode hne, fun h => (nomatch h)⟩, h⟩
    · exact .pure fun c h => ⟨⟨fun _ => hcode hne, fun h => (nomatch h)⟩, h⟩
  · exact .pure fun c h => ⟨⟨fun h => (nomatch h), fun _ => rfl⟩, h⟩

/-- A callee runs the code of an account with code, unless it runs none. -/
theorem seen_accessCallee (addr : Address) (value : U256) (r : CallRanges) :
    Triple (Seen w v pm) (accessCallee w addr value r)
      (fun callee c => (callee.code ≠ [] → v.HasCode addr) ∧ Seen w v pm c) fun _ _ => True := by
  unfold accessCallee
  dsimp only
  refine seen_seq inferInstance fun x => seen_seq inferInstance fun warm => ?_
  refine seen_seq inferInstance fun _ => seen_seq inferInstance fun _ => ?_
  refine .bind (seen_calculateDelegationCost addr) fun dl => .of_fact fun ⟨hdel, hown⟩ => ?_
  refine seen_seq inferInstance fun _ => ?_
  refine .bind (seen_extCodeOf dl.2.1) fun code => .of_fact fun hcode => ?_
  refine .pure fun c h => ⟨fun hne => ?_, h⟩
  cases hd : dl.1 with
  | true => exact hdel hd
  | false => exact hown hd ▸ hcode hne

/-- The balance of an account. -/
theorem seen_loadAccount (addr : Address) :
    Triple (Seen w v pm) (liftState (loadAccount w addr))
      (fun a c => a = v.acct addr ∧ Seen w v pm c) fun _ _ => True := by
  refine ⟨fun {c c' a} hc hrun => ?_, fun _ _ => trivial⟩
  have hkeep : Keeps (Muted w) (liftState (loadAccount w addr)) := by
    unfold loadAccount
    infer_instance
  refine ⟨?_, hc.muted (hkeep.ok hrun)⟩
  obtain ⟨s, hs, -⟩ := of_liftState_ok hrun
  rw [← hc.2.1]
  exact (loadAccount_ok hs).1

/-! ## The requests -/

/-- The message of a call's child, for the state that the reads of its caller see. -/
structure Placed [Keccak] (v : View) (pm : Msg) (req : ChildReq) : Prop where
  kind : req.kind = .call
  isStatic : pm.isStatic = true → req.msg.isStatic = true
  code : req.msg.code ≠ [] → v.HasCode req.msg.currentTarget ∨
    (req.msg.currentTarget = pm.currentTarget ∧ req.msg.isStatic = pm.isStatic)
  transfer : req.msg.transferValue = true → req.msg.value ≠ 0 →
    req.msg.caller = pm.currentTarget ∧ req.msg.value ≤ (v.acct pm.currentTarget).balance ∧
      (req.msg.isStatic = true → pm.isStatic = true ∧ req.msg.currentTarget = pm.currentTarget)

/-- What a call leaves: when it requests a child, its message is as it should be. -/
def Asked (w : Witness) (v : View) (pm : Msg) (started : Option ChildReq) (c : Ctx) : Prop :=
  (∀ req, started = some req → Placed v pm req) ∧ Seen w v pm c

theorem asked_pcAddIfDone (started : Option ChildReq) :
    Triple (Asked w v pm started) (pcAddIfDone started) (Asked w v pm) fun _ _ => True := by
  refine .of_fact fun hreq => ?_
  unfold pcAddIfDone
  split
  · exact seen_seq inferInstance fun _ => .pure fun _ h => ⟨hreq, h⟩
  · exact .pure fun _ h => ⟨hreq, h⟩

theorem asked_callUnpaid (gas reservoir : Word) (charged : Bool) :
    Triple (Seen w v pm) (callUnpaid gas reservoir charged) (Asked w v pm) fun _ _ => True := by
  unfold callUnpaid
  refine seen_seq inferInstance fun _ => seen_seq inferInstance fun _ => ?_
  refine seen_seq inferInstance fun _ => seen_seq inferInstance fun _ => ?_
  exact .pure fun _ h => ⟨fun _ h => (nomatch h), h⟩

theorem asked_genericCall {gas reservoir : Word} {value : U256} {caller dst codeAddress : Address}
    {transfer isStatic : Bool} {r : CallRanges} {code : Bytes} {disablePre charged : Bool}
    (hcode : code ≠ [] → v.HasCode dst ∨ (dst = pm.currentTarget ∧ isStatic = false))
    (htransfer : transfer = true → value ≠ 0 →
      caller = pm.currentTarget ∧ value ≤ (v.acct pm.currentTarget).balance ∧
        ((isStatic || pm.isStatic) = true → pm.isStatic = true ∧ dst = pm.currentTarget)) :
    Triple (Seen w v pm) (genericCall gas reservoir value caller dst codeAddress transfer isStatic r
      code disablePre charged) (Asked w v pm) fun _ _ => True := by
  unfold genericCall
  refine seen_seq inferInstance fun _ => ?_
  refine .bind seen_getEv fun e => .of_fact fun hmsg => ?_
  subst hmsg
  split
  · refine seen_seq inferInstance fun _ => seen_seq inferInstance fun _ => ?_
    refine seen_seq inferInstance fun _ => ?_
    exact .pure fun _ h => ⟨fun _ h => (nomatch h), h⟩
  · refine .pure fun _ h => ⟨fun req hreq => ?_, h⟩
    cases hreq
    refine ⟨rfl, fun hst => ?_, fun hne => (hcode hne).imp_right fun h => ⟨h.1, ?_⟩, htransfer⟩
    · change (isStatic || e.msg.isStatic) = true
      rw [hst, Bool.or_true]
    · change (isStatic || e.msg.isStatic) = e.msg.isStatic
      rw [h.2, Bool.false_or]

/-- A child that starts unless its caller cannot pay the value. -/
theorem asked_started {value : U256} {dst codeAddress : Address} {r : CallRanges} {code : Bytes}
    {disablePre charged : Bool} (g : Word × Word)
    (hcode : code ≠ [] → v.HasCode dst ∨ dst = pm.currentTarget)
    (hstatic : pm.isStatic = true → value ≠ 0 → dst = pm.currentTarget) :
    Triple (Seen w v pm)
      (liftState (loadAccount w pm.currentTarget) >>= fun sender =>
        if sender.balance < value then callUnpaid g.1 g.2 charged >>= pcAddIfDone
        else genericCall g.1 g.2 value pm.currentTarget dst codeAddress true false r code
          disablePre charged >>= pcAddIfDone) (Asked w v pm) fun _ _ => True := by
  refine .bind (seen_loadAccount pm.currentTarget) fun sender => .of_fact fun hsender => ?_
  split
  · exact .bind (asked_callUnpaid _ _ _) asked_pcAddIfDone
  · next hle =>
    refine .bind (asked_genericCall (fun hne => (hcode hne).imp_right fun h => ⟨h, rfl⟩)
      fun _ hv => ⟨rfl, ?_, fun hst => ?_⟩) asked_pcAddIfDone
    · rw [hsender] at hle
      exact BitVec.not_lt.mp hle
    · rw [Bool.false_or] at hst
      exact ⟨hst, hstatic hst hv⟩

theorem asked_opCall : Triple (Seen w v pm) (opCall w) (Asked w v pm) fun _ _ => True := by
  unfold opCall
  iterate 4 refine seen_seq inferInstance fun _ => ?_
  refine .bind seen_getEv fun e => .of_fact fun hmsg => ?_
  subst hmsg
  dsimp only
  split
  case' isTrue hthrow =>
    refine .bind (Q := fun _ _ => False) ⟨fun _ hrun => (by cases hrun), fun _ _ => trivial⟩
      fun _ => ?_
    exact ⟨fun h _ => h.elim, fun _ _ => trivial⟩
  case isFalse hpays =>
    refine .bind (seen_accessCallee _ _ _) fun callee => .of_fact fun hcode => ?_
    refine seen_seq inferInstance fun charged => seen_seq inferInstance fun g => ?_
    refine asked_started g (fun hne => .inl (hcode hne)) fun hst hv => absurd ⟨hst, hv⟩ hpays

theorem asked_opCallcode : Triple (Seen w v pm) (opCallcode w) (Asked w v pm) fun _ _ => True := by
  unfold opCallcode
  iterate 4 refine seen_seq inferInstance fun _ => ?_
  refine .bind seen_getEv fun e => .of_fact fun hmsg => ?_
  subst hmsg
  refine .bind (seen_accessCallee _ _ _) fun callee => .of_fact fun _ => ?_
  refine seen_seq inferInstance fun g => ?_
  exact asked_started g (fun _ => .inr rfl) fun _ _ => rfl

theorem asked_opDelegatecall :
    Triple (Seen w v pm) (opDelegatecall w) (Asked w v pm) fun _ _ => True := by
  unfold opDelegatecall
  iterate 3 refine seen_seq inferInstance fun _ => ?_
  refine .bind seen_getEv fun e => .of_fact fun hmsg => ?_
  subst hmsg
  refine .bind (seen_accessCallee _ _ _) fun callee => .of_fact fun _ => ?_
  refine seen_seq inferInstance fun g => ?_
  exact .bind (asked_genericCall (fun _ => .inr ⟨rfl, rfl⟩) fun h => (nomatch h))
    asked_pcAddIfDone

theorem asked_opStaticcall :
    Triple (Seen w v pm) (opStaticcall w) (Asked w v pm) fun _ _ => True := by
  unfold opStaticcall
  iterate 3 refine seen_seq inferInstance fun _ => ?_
  refine .bind seen_getEv fun e => .of_fact fun hmsg => ?_
  subst hmsg
  refine .bind (seen_accessCallee _ _ _) fun callee => .of_fact fun hcode => ?_
  refine seen_seq inferInstance fun g => ?_
  exact .bind (asked_genericCall (fun hne => .inl (hcode hne)) fun _ h => absurd rfl h)
    asked_pcAddIfDone

/-! ## Creations -/

omit [Keccak] in
theorem requireNotStatic_run (c : Ctx) : requireNotStatic c =
    if c.ev.msg.isStatic = true then .error (.evm .writeInStatic) c else .ok () c := by
  unfold requireNotStatic
  rw [bind_run_ok (show getEv c = .ok c.ev c from rfl)]
  split <;> rfl

theorem seen_requireNotStatic :
    Triple (Seen w v pm) requireNotStatic (fun _ c => pm.isStatic = false ∧ Seen w v pm c)
      fun _ _ => True := by
  refine ⟨fun {c c' _} hc hrun => ?_, fun _ _ => trivial⟩
  rw [requireNotStatic_run] at hrun
  split at hrun
  · cases hrun
  · next hst =>
    cases hrun
    exact ⟨by rw [← hc.2.2]; exact Bool.not_eq_true _ ▸ hst, hc⟩

/-- What the message of a creation says. -/
def Creates (pm : Msg) (started : Option ChildReq) : Prop :=
  ∀ req, started = some req → req.kind = .create ∧ req.msg.isStatic = pm.isStatic

omit [Keccak] in
/-- A program that ends with a pure fact about its value. -/
theorem any_seq {x : EvmM α} {f : α → EvmM β} {Q : β → Prop}
    (hf : ∀ a, Triple (fun _ => True) (f a) (fun b _ => Q b) fun _ _ => True) :
    Triple (fun _ => True) (x >>= f) (fun b _ => Q b) fun _ _ => True :=
  .bind (Q := fun _ _ => True) ⟨fun _ _ => trivial, fun _ _ => trivial⟩ hf

theorem creates_genericCreate (endowment : U256) (contract : Address) (mstart msize : Word) :
    Triple (Seen w v pm) (genericCreate w endowment contract mstart msize)
      (fun started _ => Creates pm started) fun _ _ => True := by
  have hnone : Creates pm none := fun _ h => (nomatch h)
  unfold genericCreate
  dsimp only
  split
  case' isTrue => refine seen_seq inferInstance fun _ => ?_
  all_goals
    refine seen_seq inferInstance fun _ => seen_seq inferInstance fun _ => ?_
    refine .bind seen_getEv fun e => .of_fact fun hmsg => ?_
    refine seen_seq inferInstance fun sender => ?_
    split
    · exact seen_seq inferInstance fun _ => .pure fun _ _ => hnone
    refine Triple.pre ?_ fun _ _ => trivial
    iterate 4 refine any_seq fun _ => ?_
    split
    · refine any_seq fun _ => any_seq fun _ => .pure fun _ _ req hreq => ?_
      cases hreq
      refine ⟨rfl, ?_⟩
      rw [← hmsg]
      rfl
    · exact any_seq fun _ => .pure fun _ _ => hnone

omit [Keccak] in
theorem creates_pcAddIfDone (started : Option ChildReq) :
    Triple (fun _ => Creates pm started) (pcAddIfDone started) (fun started _ => Creates pm started)
      fun _ _ => True := by
  unfold pcAddIfDone
  refine ⟨fun hc hrun => ?_, fun _ _ => trivial⟩
  split at hrun
  · obtain ⟨_, _, -, hret⟩ := bind_ok.mp hrun
    cases hret
    exact hc
  · cases hrun
    exact hc

/-- A creation is requested by no static frame, and its frame is none. -/
def Made (pm : Msg) (started : Option ChildReq) : Prop :=
  pm.isStatic = false ∧ Creates pm started

theorem made_opCreate :
    Triple (Seen w v pm) (opCreate w) (fun started _ => Made pm started) fun _ _ => True := by
  unfold opCreate
  refine .bind seen_requireNotStatic fun _ => .of_fact fun hst => ?_
  iterate 8 refine seen_seq inferInstance fun _ => ?_
  exact (Triple.bind (creates_genericCreate _ _ _ _) creates_pcAddIfDone).post fun _ _ h => ⟨hst, h⟩

theorem made_opCreate2 :
    Triple (Seen w v pm) (opCreate2 w) (fun started _ => Made pm started) fun _ _ => True := by
  unfold opCreate2
  refine .bind seen_requireNotStatic fun _ => .of_fact fun hst => ?_
  iterate 8 refine seen_seq inferInstance fun _ => ?_
  exact (Triple.bind (creates_genericCreate _ _ _ _) creates_pcAddIfDone).post fun _ _ h => ⟨hst, h⟩

/-! ## Every instruction -/

/-- What an instruction leaves that may request a child. -/
def Sought (w : Witness) (v : View) (pm : Msg) (started : Option ChildReq) (c : Ctx) : Prop :=
  ∀ req, started = some req → (Placed v pm req ∧ Seen w v pm c) ∨
    (req.kind = .create ∧ pm.isStatic = false ∧ req.msg.isStatic = false)

theorem Asked.sought {started : Option ChildReq} {c : Ctx} (h : Asked w v pm started c) :
    Sought w v pm started c :=
  fun req hreq => .inl ⟨h.1 req hreq, h.2⟩

theorem Made.sought {started : Option ChildReq} {c : Ctx} (h : Made pm started) :
    Sought w v pm started c := by
  intro req hreq
  obtain ⟨hkind, hstatic⟩ := h.2 req hreq
  exact .inr ⟨hkind, h.1, hstatic.trans h.1⟩

/-- The requests of the instructions. -/
theorem sought_opDispatch (op : Nat) :
    Triple (Seen w v pm) (opDispatch w op) (Sought w v pm) fun _ _ => True := by
  have hplain : ∀ x : EvmM Unit, Triple (Seen w v pm) (plain x) (Sought w v pm) fun _ _ => True := by
    refine fun x => ⟨fun _ hrun req hreq => ?_, fun _ _ => trivial⟩
    obtain ⟨_, _, -, hret⟩ := bind_ok.mp hrun
    cases hret
    cases hreq
  have hthrow : Triple (Seen w v pm) (throwEvm .invalidOpcode : EvmM (Option ChildReq))
      (Sought w v pm) fun _ _ => True :=
    ⟨fun _ hrun => (by cases hrun), fun _ _ => trivial⟩
  refine opDispatch_forall w (P := fun x => Triple (Seen w v pm) x (Sought w v pm) fun _ _ => True)
    (fun x _ => hplain x) (hplain _) (hplain _) (hplain _) ?_ ?_ ?_ ?_ ?_ ?_ hthrow op
  · exact made_opCreate.post fun _ _ => Made.sought
  · exact asked_opCall.post fun _ _ => Asked.sought
  · exact asked_opCallcode.post fun _ _ => Asked.sought
  · exact asked_opDelegatecall.post fun _ _ => Asked.sought
  · exact made_opCreate2.post fun _ _ => Made.sought
  · exact asked_opStaticcall.post fun _ _ => Asked.sought

end

end StatelessGuest
