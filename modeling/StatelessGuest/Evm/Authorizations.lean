import StatelessGuest.Evm.Delegation
import StatelessGuest.State.Scopes

/-!
# All authorizations or none

A transaction's frame is prepared by its authorizations and its dispatch. When one of these fails
the message is given up: nothing it wrote stays, and all its gas is used. When they succeed every
authorization that was accepted is in force, and paid for.

* `Abandoned`: a message that was given up.
* `Authorized`: the state with the authorizations applied.
* `AllOrNothing`: what the preparation of a message should come to.
-/

namespace StatelessGuest

open Lib Tracker

/-! ## A preparation does not revert -/

/-- It is not a revert of the frame. -/
def Exn.Other (e : Exn) : Prop := e ≠ .evm .revert

section

variable {α : Type}

theorem Exn.Fatal.other {e : Exn} (h : e.Fatal) : e.Other := by
  rintro rfl
  exact h

theorem other_liftState {x : StateM α} (hx : Throws Exn.Fatal x) :
    Throws Exn.Other (liftState x) := by
  refine ⟨fun {c e c'} h => ?_⟩
  obtain ⟨s, hs, -⟩ := of_liftState_error h
  exact (hx.error hs).other

instance (x : StateM α) [hx : Throws Exn.Fatal x] : Throws Exn.Other (liftState x) :=
  other_liftState hx

instance : Throws Exn.Other getEv := by
  unfold getEv
  infer_instance

instance (f : Frame → Frame) : Throws Exn.Other (modifyEv f) := by
  unfold modifyEv
  infer_instance

instance (amount : Word) : Throws Exn.Other (chargeGas amount) := by
  refine ⟨fun {c e c'} h => ?_⟩
  rw [chargeGas_run] at h
  split at h
  · cases h
    intro hrevert
    cases hrevert
  · cases h

instance (amount : Word) : Throws Exn.Other (chargeStateGas amount) := by
  refine ⟨fun {c e c'} h => ?_⟩
  rw [chargeStateGas_run] at h
  split at h
  · cases h
  split at h
  · cases h
  · cases h
    intro hrevert
    cases hrevert

instance : Throws Exn.Other rebaseReservoir := by
  unfold rebaseReservoir
  infer_instance

instance (addr : Address) : Throws Exn.Other (warmAddress addr) := by
  unfold warmAddress
  infer_instance

instance (addr : Address) : Throws Exn.Other (chargeAccountAccess addr 0) := by
  unfold chargeAccountAccess accessGasCost isWarmAddress warmAfterCharge
  infer_instance

instance (code : Bytes) : Throws Exn.Other (setFrameCode code) := by
  unfold setFrameCode
  infer_instance

instance (d : Delegating) (authority : Address) :
    Throws Exn.Other (chargeAccountWrite d authority) := by
  unfold chargeAccountWrite
  infer_instance

variable [Keccak] {w : Witness}

instance (auth : Auth) (authority : Address) :
    Throws Exn.Fatal (validateAuthorizationChecks w auth authority) := by
  unfold validateAuthorizationChecks
  infer_instance

instance (authority : Address) : Throws Exn.Fatal (delegatedBefore w authority) := by
  unfold delegatedBefore
  infer_instance

instance (addr : Address) : Throws Exn.Fatal (preStateIsEmpty w addr) := by
  unfold preStateIsEmpty
  infer_instance

instance (addr : Address) : Throws Exn.Fatal (extCodeOf w addr) := by
  unfold extCodeOf
  infer_instance

instance (d : Delegating) (auth : Auth) (authority : Address) (before : Bool) :
    Throws Exn.Other (writeDelegation w d auth authority before) := by
  unfold writeDelegation
  infer_instance

instance (d : Delegating) (auth : Auth) (authority : Address) :
    Throws Exn.Other (applyAuthorization w d auth authority) := by
  unfold applyAuthorization
  infer_instance

instance (addr : Address) (value : U256) : Throws Exn.Other (chargeIfDead w addr value) := by
  unfold chargeIfDead
  infer_instance

instance (code : Bytes) : Throws Exn.Other (followDelegation w code) := by
  unfold followDelegation
  split <;> infer_instance

instance : Throws Exn.Other (prepareDispatch w) := by
  unfold prepareDispatch
  infer_instance

variable [Crypto]

instance (auth : Auth) : Throws Exn.Other (authorityOf w auth) := by
  unfold authorityOf
  refine Throws.seq inferInstance fun e => ?_
  split
  · infer_instance
  · split <;> infer_instance

instance (auths : List Auth) (d : Delegating) :
    Throws Exn.Other (setDelegationLoop w auths d) := by
  induction auths generalizing d with
  | nil => exact Throws.pure _
  | cons auth rest ih =>
    unfold setDelegationLoop
    refine Throws.seq inferInstance fun authority => ?_
    cases authority with
    | none => exact ih d
    | some authority => exact Throws.seq inferInstance fun d => ih d

/-- No step of the preparation fails with a revert. -/
instance : Throws Exn.Other (depth0Prepare w) := by
  unfold depth0Prepare setDelegation
  infer_instance

end

/-! ## The gas of a preparation -/

/-- Regular gas left, used and spilled, as a word. -/
def Frame.purse (e : Frame) : Word := e.gasLeft + e.regularGasUsed + e.stateGasSpilled

/-- The purse stays. -/
def Pursed (c c' : Ctx) : Prop := c'.ev.purse = c.ev.purse

theorem Pursed.of_eq {c c' : Ctx} (hl : c'.ev.gasLeft = c.ev.gasLeft)
    (hu : c'.ev.regularGasUsed = c.ev.regularGasUsed)
    (hs : c'.ev.stateGasSpilled = c.ev.stateGasSpilled) : Pursed c c' := by
  unfold Pursed Frame.purse
  rw [hl, hu, hs]

theorem Pursed.of_local {c c' : Ctx} (h : FrameLocal c.ev c'.ev) : Pursed c c' := by
  have hcore := h.core
  simp only [Frame.core, FrameCore.mk.injEq] at hcore
  unfold Pursed Frame.purse
  rw [h.gas, hcore.2.2.1]

theorem pursed_chargeStateGas (amount : Word) : Keeps Pursed (chargeStateGas amount) := by
  refine ⟨fun c => ?_⟩
  rw [chargeStateGas_run]
  split
  · exact .of_eq rfl rfl rfl
  split
  · unfold Pursed Frame.purse
    dsimp only [final]
    abel
  · exact .of_eq rfl rfl rfl

instance : Ordinary Pursed where
  refl c := .of_eq rfl rfl rfl
  trans _ _ _ h h' := Eq.trans h' h
  frame _ _ h := .of_local h
  read _ _ _ := .of_eq rfl rfl rfl
  warmAddress _ _ := .of_eq rfl rfl rfl
  warmStorageKey _ _ := .of_eq rfl rfl rfl

instance : Upkeep Pursed where
  tracker _ _ := .of_eq rfl rfl rfl
  chargeStateGas := pursed_chargeStateGas
  creditStateGas amount := Keeps.modify fun c => by
    unfold Pursed Frame.purse Frame.creditStateGasRefund
    dsimp only
    abel
  refund _ _ := .of_eq rfl rfl rfl
  slotWrites _ _ := .of_eq rfl rfl rfl
  takeStateGas _ := .of_eq rfl rfl rfl
  refill _ := by
    unfold Pursed Frame.purse Frame.refillFrameStateGas
    dsimp only
    rw [add_zero]
    abel
  halt err := Keeps.modify fun c => by
    unfold Pursed Frame.purse
    dsimp only
    rw [zero_add]
    abel
  error _ _ := .of_eq rfl rfl rfl
  msg _ _ := .of_eq rfl rfl rfl

section

variable [Keccak] [Crypto] {w : Witness} {msg : Msg} {m : Machine} {c c' : Ctx} {err : EvmErr}

/-- A preparation that fails has the purse it started with, unless it forgot a spill. -/
theorem purse_depth0Prepare (h : depth0Prepare w c = .error (.evm err) c') :
    c'.ev.purse = c.ev.purse ↔ ¬SpillForgotten w c := by
  rw [depth0Prepare_run] at h
  split at h
  · next hauths =>
    obtain hset | ⟨_, c₁, hset, hrest⟩ := bind_error.mp h
    · refine iff_of_true (Keeps.error (R := Pursed) (x := setDelegation w) inferInstance hset) ?_
      rintro ⟨-, c₁, c₂, err', hset', -, -⟩
      rw [hset] at hset'
      cases hset'
    · have hpaid : c₁.ev.purse = c.ev.purse :=
        Keeps.ok (R := Pursed) (x := setDelegation w) inferInstance hset
      obtain hreb | ⟨_, c₂, hreb, hdispatch⟩ := bind_error.mp hrest
      · cases hreb
      have hkept : c'.ev.purse = c₂.ev.purse :=
        Keeps.error (R := Pursed) (x := prepareDispatch w) inferInstance hdispatch
      have hrebased : c₂.ev.purse = c₁.ev.purse - c₁.ev.stateGasSpilled := by
        cases hreb
        unfold Frame.purse
        rw [add_sub_cancel_right]
        exact add_zero _
      rw [hkept, hrebased, hpaid, sub_eq_self]
      refine ⟨fun hzero hsf => ?_, fun hsf => ?_⟩
      · obtain ⟨-, c₁', c₂', err', hset', hne, -⟩ := hsf
        rw [hset] at hset'
        cases hset'
        exact hne hzero
      · by_contra hne
        exact hsf ⟨hauths, c₁, c', err, hset, hne, hrest⟩
  · next hauths =>
    refine iff_of_true (Keeps.error (R := Pursed) (x := prepareDispatch w) inferInstance h) ?_
    exact fun hsf => hauths hsf.1

/-- A preparation that forgets a spill fails. -/
theorem SpillForgotten.fails (h : SpillForgotten w c) :
    ∃ err c', depth0Prepare w c = .error (.evm err) c' := by
  obtain ⟨hauths, c₁, c₂, err, hset, -, hrest⟩ := h
  refine ⟨err, c₂, ?_⟩
  rw [depth0Prepare_run, if_pos hauths, bind_run_ok hset, hrest]

/-! ## A message that is given up -/

/-- The context that the frame of a message is opened in. -/
def opened (msg : Msg) (c : Ctx) : Ctx :=
  { c with ev := frameNew msg c.accAddrs.count c.accKeys.count }

/-- The message was given up: the write maps are as they were, its frame has its reservoir back
and used no state gas, and all its gas is used. -/
structure Abandoned (msg : Msg) (m : Machine) (err : EvmErr) (child : Frame) (m' : Machine) :
    Prop where
  writeMaps : m'.ctx.tk.writeMaps = m.ctx.tk.writeMaps
  reservoir : child.msg.reservoir = msg.reservoir
  stateGasLeft : child.stateGasLeft = msg.reservoir
  stateGasUsed : child.frameStateGasUsed + child.authStateGasUsed = 0
  gasLeft : child.gasLeft = 0
  error : child.error = some err
  regularGasUsed : child.regularGasUsed = msg.gas

/-- The frame that a failed preparation ends with. -/
def Frame.abandoned (e : Frame) (reservoir : Word) (err : EvmErr) : Frame :=
  let e := { e with
    msg := { e.msg with reservoir := reservoir }
    authStateGasUsed := 0 }.refillFrameStateGas
  { e with
    regularGasUsed := e.regularGasUsed + e.gasLeft
    gasLeft := 0
    error := some err }

theorem prepareFrame_evm {reservoir : Word} (h : depth0Prepare w m.ctx = .error (.evm err) c) :
    prepareFrame w reservoir m = .ok false { m with ctx := { c with
      tk := c.tk.restore m.ctx.tk.journal.length
      ev := c.ev.abandoned reservoir err } } := by
  have hne : err ≠ .revert := fun hrevert =>
    Throws.error (p := Exn.Other) (x := depth0Prepare w) h (congrArg Exn.evm hrevert)
  unfold prepareFrame
  rw [bind_run_ok (show liftCtx (liftState stateSnapshot) m = .ok m.ctx.tk.journal.length m from
    rfl), catchEvm_evm (bind_run_error (liftCtx_error h)), if_neg hne]
  rfl

/-- The message of a failed preparation returns its frame, given up. -/
theorem processMessage_evm (hdepth : msg.depth = 0)
    (h : depth0Prepare w (opened msg m.ctx) = .error (.evm err) c) (fuel : Nat) :
    processMessage w fuel msg m = .ok (c.ev.abandoned msg.reservoir err) { m with ctx := { c with
      tk := c.tk.restore m.ctx.tk.journal.length
      ev := m.ctx.ev } } := by
  have hshallow : ¬stackDepthLimit < msg.depth := by
    rw [hdepth]
    exact Nat.not_lt_zero _
  unfold processMessage
  rw [if_neg hshallow]
  obtain ⟨m₁, hm₁⟩ : ∃ t, t = ({
      ctx := opened msg m.ctx
      cont := { (default : Cont) with kind := .transaction, msg := msg }
      suspended := (m.ctx.ev, m.cont) :: m.suspended } : Machine) := ⟨_, rfl⟩
  have hopen : frameOpen msg .transaction m = .ok () m₁ := by
    rw [hm₁]
    rfl
  have hprep : prepareMessage w msg m₁ = .ok false { m₁ with ctx := { c with
      tk := c.tk.restore m.ctx.tk.journal.length
      ev := c.ev.abandoned msg.reservoir err } } := by
    unfold prepareMessage
    rw [if_pos hdepth]
    subst hm₁
    exact prepareFrame_evm h
  dsimp only
  rw [bind_run_ok hopen, bind_run_ok hprep, hm₁]
  rfl

omit [Keccak] [Crypto] in
theorem regularGasUsed_abandoned (e : Frame) (reservoir : Word) (err : EvmErr) :
    (e.abandoned reservoir err).regularGasUsed = e.purse := by
  unfold Frame.abandoned Frame.refillFrameStateGas Frame.purse
  dsimp only
  abel

/-- All of the message's gas is used exactly when the preparation forgot no spill. -/
theorem abandoned_iff (hdepth : msg.depth = 0) (hs : Sound m.ctx.tk)
    (h : depth0Prepare w (opened msg m.ctx) = .error (.evm err) c) (fuel : Nat) :
    ∃ child m', processMessage w fuel msg m = .ok child m' ∧
      (Abandoned msg m err child m' ↔ ¬SpillForgotten w (opened msg m.ctx)) := by
  have hkept : OnTracker Kept (opened msg m.ctx) c :=
    Keeps.error (x := depth0Prepare w) inferInstance h
  change Kept m.ctx.tk c.tk at hkept
  have hstart : (opened msg m.ctx).ev.purse = msg.gas := by
    unfold opened Frame.purse frameNew
    dsimp only
    rw [add_zero, add_zero]
  refine ⟨_, _, processMessage_evm hdepth h fuel, ?_⟩
  rw [← purse_depth0Prepare h, hstart, ← regularGasUsed_abandoned c.ev msg.reservoir err]
  refine ⟨fun hab => hab.regularGasUsed, fun hgas => ⟨?_, rfl, rfl, ?_, rfl, rfl, hgas⟩⟩
  · exact writeMaps_congr hs.toWf (hkept.1.restore le_rfl) hkept.1.restored.1
  · unfold Frame.abandoned Frame.refillFrameStateGas Frame.frameStateGasUsed
    dsimp only
    rw [sub_self, add_zero, add_zero]

end

/-! ## What the authorizations cost -/

/-- So much regular gas and state gas is used. -/
structure Charged (regular stateGas : Word) (c c' : Ctx) : Prop where
  msg : c'.ev.msg = c.ev.msg
  regular : c'.ev.regularGasUsed = c.ev.regularGasUsed + regular
  stateGas : c'.ev.frameStateGasUsed = c.ev.frameStateGasUsed + stateGas

/-- The frame stays. -/
def Framed (c c' : Ctx) : Prop := c'.ev = c.ev

instance : Std.Refl Framed := ⟨fun _ => rfl⟩

instance : IsTrans Ctx Framed := ⟨fun _ _ _ h h' => Eq.trans h' h⟩

section

variable {r r' g g' amount : Word} {c c₁ c' : Ctx}

theorem Charged.of_framed (h : Framed c c') : Charged 0 0 c c' := by
  unfold Framed at h
  exact ⟨by rw [h], by rw [h, add_zero], by rw [h, add_zero]⟩

theorem Charged.trans (h : Charged r g c c₁) (h' : Charged r' g' c₁ c') :
    Charged (r + r') (g + g') c c' := by
  refine ⟨h'.msg.trans h.msg, ?_, ?_⟩
  · rw [h'.regular, h.regular, add_assoc]
  · rw [h'.stateGas, h.stateGas, add_assoc]

theorem charged_chargeGas (h : chargeGas amount c = .ok () c') : Charged amount 0 c c' := by
  rw [chargeGas_run] at h
  split at h
  · cases h
  · cases h
    exact ⟨rfl, rfl, (add_zero _).symm⟩

theorem charged_chargeStateGas (h : chargeStateGas amount c = .ok () c') :
    Charged 0 amount c c' := by
  rw [chargeStateGas_run] at h
  split at h
  · cases h
    refine ⟨rfl, (add_zero _).symm, ?_⟩
    unfold Frame.frameStateGasUsed
    dsimp only
    abel
  split at h
  · cases h
    refine ⟨rfl, (add_zero _).symm, ?_⟩
    unfold Frame.frameStateGasUsed
    dsimp only
    abel
  · cases h

theorem framed_liftState {α : Type} {x : StateM α} {a : α} (h : liftState x c = .ok a c') :
    Framed c c' := by
  obtain ⟨s, -, rfl⟩ := of_liftState_ok h
  rfl

instance {α : Type} (x : StateM α) : Keeps Framed (liftState x) := by
  refine ⟨fun c => ?_⟩
  unfold liftState
  cases x c.tk <;> rfl

instance : Keeps Framed getEv := ⟨fun _ => rfl⟩

instance (addr : Address) : Keeps Framed (warmAddress addr) := ⟨fun _ => rfl⟩

/-- The write of an account is charged once. -/
theorem charged_chargeAccountWrite {d d' : Delegating} {authority : Address}
    (h : chargeAccountWrite d authority c = .ok d' c') :
    Charged (if d.written.has authority then 0 else gAccountWrite) 0 c c' := by
  unfold chargeAccountWrite at h
  split at h
  · next hhas =>
    cases h
    rw [if_pos hhas]
    exact .of_framed rfl
  · next hnot =>
    obtain ⟨_, c₁, hcharge, h⟩ := bind_ok.mp h
    cases h
    rw [if_neg hnot]
    exact charged_chargeGas hcharge

variable [Keccak] {w : Witness}

/-- A delegation is charged for its code the first time. -/
theorem charged_writeDelegation {d d' : Delegating} {auth : Auth} {authority : Address}
    {before : Bool} (h : writeDelegation w d auth authority before c = .ok d' c') :
    Charged 0 (if auth.addr = 0 then 0 else authBaseGas before (d.setFor.has authority)) c c' := by
  unfold writeDelegation at h
  split at h
  · next hnull =>
    obtain ⟨_, c₁, hset, h⟩ := bind_ok.mp h
    cases h
    rw [if_pos hnull]
    exact .of_framed (framed_liftState hset)
  · next hcode =>
    obtain ⟨_, c₁, hcharge, h⟩ := bind_ok.mp h
    obtain ⟨_, c₂, hset, h⟩ := bind_ok.mp h
    cases h
    rw [if_neg hcode]
    have hsum := (charged_chargeStateGas hcharge).trans (.of_framed (framed_liftState hset))
    rwa [add_zero, add_zero] at hsum

/-- An accepted authorization uses what it was charged. -/
theorem charged_applyCharged {d : Delegating} {auth : Auth} {authority : Address}
    {applied : Delegating × Accepted} (h : applyCharged w d auth authority c = .ok applied c') :
    Charged applied.2.write (applied.2.newAccount + applied.2.base) c c' := by
  obtain ⟨ex, c₁, hexists, h⟩ := bind_ok.mp h
  obtain ⟨_, c₂, hnew, h⟩ := bind_ok.mp h
  obtain ⟨d₁, c₃, hwrite, h⟩ := bind_ok.mp h
  obtain ⟨before, c₄, hbefore, h⟩ := bind_ok.mp h
  obtain ⟨d₂, c₅, hcode, h⟩ := bind_ok.mp h
  obtain ⟨_, c₆, hnonce, h⟩ := bind_ok.mp h
  cases h
  have hnew' := (Charged.of_framed (framed_liftState hexists)).trans (charged_chargeStateGas hnew)
  have hwrite' := hnew'.trans (charged_chargeAccountWrite hwrite)
  have hcode' := (hwrite'.trans (.of_framed (framed_liftState hbefore))).trans
    (charged_writeDelegation hcode)
  have hall := hcode'.trans (.of_framed (framed_liftState hnonce))
  simpa only [zero_add, add_zero] using hall

variable [Crypto]

theorem framed_authorityOf (auth : Auth) : Keeps Framed (authorityOf w auth) := by
  unfold authorityOf
  refine Keeps.seq inferInstance fun e => ?_
  split
  · infer_instance
  · split
    · infer_instance
    · infer_instance

/-- The loop uses what the accepted authorizations were charged. -/
theorem charged_chargedLoop {auths : List Auth} {d : Delegating} {l : List Accepted}
    (h : chargedLoop w auths d c = .ok l c') :
    Charged (l.map Accepted.write).sum (l.map fun e => e.newAccount + e.base).sum c c' := by
  induction auths generalizing d c l with
  | nil =>
    cases h
    exact .of_framed rfl
  | cons auth rest ih =>
    obtain ⟨authority, c₁, hauth, h⟩ := bind_ok.mp h
    have hread : Charged 0 0 c c₁ := .of_framed ((framed_authorityOf auth).ok hauth)
    cases authority with
    | none =>
      have hrest := hread.trans (ih h)
      rwa [zero_add, zero_add] at hrest
    | some authority =>
      obtain ⟨applied, c₂, happly, h⟩ := bind_ok.mp h
      obtain ⟨later, c₃, hlater, h⟩ := bind_ok.mp h
      cases h
      have hrest := (hread.trans (charged_applyCharged happly)).trans (ih hlater)
      rwa [zero_add, zero_add] at hrest

/-- Those accepted are some of the authorizations, in their order, each signed by its authority. -/
theorem signed_chargedLoop {auths : List Auth} {d : Delegating} {l : List Accepted}
    (hs : Sound c.tk) (h : chargedLoop w auths d c = .ok l c') :
    (l.map Accepted.auth).Sublist auths ∧
      ∀ e ∈ l, recoverAuthority e.auth = some e.authority := by
  induction auths generalizing d c l with
  | nil =>
    cases h
    exact ⟨.slnil, fun e he => absurd he List.not_mem_nil⟩
  | cons auth rest ih =>
    obtain ⟨authority, c₁, hauth, h⟩ := bind_ok.mp h
    have hro := authorityOf_readOnly hauth
    have hs₁ : Sound c₁.tk := hs.of_agree hro.ext hro.agree
    cases authority with
    | none =>
      obtain ⟨hsub, hsigned⟩ := ih hs₁ h
      exact ⟨hsub.cons _, hsigned⟩
    | some authority =>
      obtain ⟨hrecover, -, -⟩ := authorityOf_some hauth
      obtain ⟨applied, c₂, happly, h⟩ := bind_ok.mp h
      obtain ⟨later, c₃, hlater, h⟩ := bind_ok.mp h
      cases h
      obtain ⟨ha, hauthority, happlied⟩ := applyCharged_ok hs₁ happly
      obtain ⟨hsub, hsigned⟩ := ih (happlied.layered.sound hs₁) hlater
      refine ⟨?_, fun e he => ?_⟩
      · rw [List.map_cons, ha]
        exact hsub.cons_cons _
      · rcases List.mem_cons.mp he with rfl | he
        · rw [ha, hauthority, hrecover]
        · exact hsigned e he

end

/-! ## The preparation that succeeds -/

section

variable [Keccak] [Crypto] {w : Witness} {msg : Msg} {m : Machine} {c c' : Ctx}

/-- Whose account the transaction writes anyway: its origin, and the recipient of its value. -/
def Msg.Writes (msg : Msg) (a : Address) : Prop :=
  a = msg.te.origin ∨ msg.te.value ≠ 0 ∧ a = msg.currentTarget

instance (msg : Msg) (a : Address) : Decidable (msg.Writes a) := by
  unfold Msg.Writes
  infer_instance

/-- The books that the authorizations of a message start with. -/
def Msg.books (msg : Msg) : Delegating :=
  let origin : OrdMap Address Unit := OrdMap.empty.set msg.te.origin ()
  ⟨if msg.te.value = 0 then origin else origin.set msg.currentTarget (), .empty⟩

omit [Keccak] [Crypto] in
theorem has_books (msg : Msg) (a : Address) : msg.books.written.has a = true ↔ msg.Writes a := by
  unfold Msg.books Msg.Writes
  dsimp only
  by_cases hvalue : msg.te.value = 0
  · rw [if_pos hvalue, OrdMap.has_set, OrdMap.has_empty, Bool.or_false, decide_eq_true_iff]
    exact ⟨.inl, fun h => h.resolve_right fun h => h.1 hvalue⟩
  · rw [if_neg hvalue, OrdMap.has_set, OrdMap.has_set, OrdMap.has_empty, Bool.or_false,
      Bool.or_eq_true, decide_eq_true_iff, decide_eq_true_iff]
    exact or_comm.trans (or_congr_right (and_iff_right hvalue).symm)

/-- The accepted authorizations `l` are in force in `s'` and were paid for: each is signed by its
authority, whose nonce counts them and whose code is that of its last one. -/
structure Authorized (w : Witness) (msg : Msg) (s : Tracker) (l : List Accepted) (s' : Tracker) :
    Prop where
  listed : (l.map Accepted.auth).Sublist msg.te.auths
  signed : ∀ e ∈ l, recoverAuthority e.auth = some e.authority
  nonce : ∀ a, ((s'.view w).acct a).nonce.toNat =
    ((s.view w).acct a).nonce.toNat + (Accepted.of a l).length
  code : ∀ a e, (Accepted.of a l).getLast? = some e →
    result (getCode w ((s'.view w).acct a).codeHash a s') = .ok e.auth.code
  newAccount : ∀ a, AtMostOnce sgNewAccount (Accepted.paid Accepted.newAccount a l)
  write : ∀ a, Accepted.of a l ≠ [] →
    Accepted.paid Accepted.write a l = if msg.Writes a then [] else [gAccountWrite]
  base : ∀ a, AtMostOnce sgAuthBase (Accepted.paid Accepted.base a l)
  delegated : ∀ a, s.DelegatedBefore w a → Accepted.paid Accepted.base a l = []

theorem depth0Prepare_charged (h : depth0Prepare w c = .ok () c') :
    ∃ l c₁, chargedLoop w c.ev.msg.te.auths c.ev.msg.books c = .ok l c₁ ∧
      ReadOnly c₁.tk c'.tk := by
  have hdispatch : ∀ {c₁ : Ctx}, prepareDispatch w c₁ = .ok () c' → ReadOnly c₁.tk c'.tk :=
    fun hrun => Keeps.ok (R := OnTracker ReadOnly) inferInstance hrun
  rw [depth0Prepare_run] at h
  split at h
  · obtain ⟨_, c₁, hset, h⟩ := bind_ok.mp h
    obtain ⟨_, c₂, hreb, h⟩ := bind_ok.mp h
    have htk : c₂.tk = c₁.tk := by
      cases hreb
      rfl
    change setDelegationLoop w c.ev.msg.te.auths c.ev.msg.books c = .ok () c₁ at hset
    rw [← chargedLoop_erase] at hset
    obtain ⟨l, c₃, hloop, hret⟩ := bind_ok.mp hset
    cases hret
    exact ⟨l, c₁, hloop, htk ▸ hdispatch h⟩
  · next hnone =>
    rw [not_not.mp hnone]
    exact ⟨[], c, rfl, hdispatch h⟩

/-- A preparation that succeeds has applied the authorizations it accepted. -/
theorem authorized_depth0Prepare (hk : DelegationsApart) (hs : Sound c.tk)
    (h : depth0Prepare w c = .ok () c') :
    ∃ l c₁, chargedLoop w c.ev.msg.te.auths c.ev.msg.books c = .ok l c₁ ∧
      Charged (l.map Accepted.write).sum (l.map fun e => e.newAccount + e.base).sum c c₁ ∧
      Authorized w c.ev.msg c.tk l c'.tk := by
  obtain ⟨l, c₁, hloop, hro⟩ := depth0Prepare_charged h
  obtain ⟨hlisted, hsigned⟩ := signed_chargedLoop hs hloop
  have hset := settled_chargedLoop hs hloop
  have hs₁ : Sound c₁.tk := hset.layered.sound hs
  have hview : c'.tk.view w = c₁.tk.view w := view_readOnly hs₁ hro
  refine ⟨l, c₁, hloop, charged_chargedLoop hloop, hlisted, hsigned, fun a => ?_, fun a e he => ?_,
    hset.newAccount, fun a ha => ?_, hset.base, fun a ha => hset.based a (.inr ha)⟩
  · rw [hview]
    exact hset.nonce a
  · have hmem : e ∈ l := (List.mem_filter.mp (List.mem_of_getLast? he)).1
    have hhash := hset.codeHash a
    rw [he] at hhash
    change _ = keccak256 e.auth.code at hhash
    rw [result_getCode, hview, hhash]
    unfold Auth.code
    by_cases hnull : e.auth.addr = 0
    · rw [if_pos hnull]
      exact if_pos rfl
    · rw [if_neg hnull, if_neg (hk.ne _), codeAt_of_agree w hs₁ hro.ext hro.agree]
      exact codeAt_chargedLoop hk hs hloop (.inr ⟨⟨e, hmem, rfl⟩, hnull⟩)
  · rw [hset.write a]
    by_cases hwrites : c.ev.msg.Writes a
    · rw [if_pos hwrites, if_pos (.inl ((has_books _ a).mpr hwrites))]
    · rw [if_neg hwrites, if_neg]
      rintro (hhas | hnil)
      · exact hwrites ((has_books _ a).mp hhas)
      · exact ha hnil

/-! ## All or nothing -/

/-- A message whose preparation fails is given up, and one whose preparation succeeds has applied
its authorizations. -/
def AllOrNothing (w : Witness) (msg : Msg) (m : Machine) : Prop :=
  (∀ err c, depth0Prepare w (opened msg m.ctx) = .error (.evm err) c →
    ∀ fuel, ∃ child m', processMessage w fuel msg m = .ok child m' ∧
      Abandoned msg m err child m') ∧
  ∀ c, depth0Prepare w (opened msg m.ctx) = .ok () c →
    ∃ l c₁, chargedLoop w msg.te.auths msg.books (opened msg m.ctx) = .ok l c₁ ∧
      Charged (l.map Accepted.write).sum (l.map fun e => e.newAccount + e.base).sum
        (opened msg m.ctx) c₁ ∧
      Authorized w msg m.ctx.tk l c.tk

/-- Authorizations are all applied or none is, with all the gas used, unless the authorizations
spilled state gas into regular gas and the dispatch failed after them. -/
theorem all_or_nothing_iff (hdepth : msg.depth = 0) (hs : Sound m.ctx.tk)
    (hk : DelegationsApart) :
    AllOrNothing w msg m ↔ ¬SpillForgotten w (opened msg m.ctx) := by
  constructor
  · rintro ⟨hfails, -⟩ hsf
    obtain ⟨err, c, hrun⟩ := hsf.fails
    obtain ⟨child, m', hmsg, hab⟩ := hfails err c hrun 0
    obtain ⟨child', m'', hmsg', hiff⟩ := abandoned_iff hdepth hs hrun 0
    rw [hmsg] at hmsg'
    cases hmsg'
    exact hiff.mp hab hsf
  · intro hsf
    refine ⟨fun err c hrun fuel => ?_, fun c hrun => ?_⟩
    · obtain ⟨child, m', hmsg, hiff⟩ := abandoned_iff hdepth hs hrun fuel
      exact ⟨child, m', hmsg, hiff.mpr hsf⟩
    · exact authorized_depth0Prepare hk (show Sound (opened msg m.ctx).tk from hs) hrun

end

/-! ## A spill that is forgotten -/

section

attribute [local instance] numKeccak stubCrypto

private theorem toNat_hash_delegationCode (a : Address) :
    (keccak256 (delegationCode a)).toNat = 239 * 256 ^ 22 + 256 ^ 21 + a.toNat := by
  have ha := a.isLt
  have hlen : (addrBytes a).length = 20 := length_beBytes _ _
  have hnat : beNat (delegationCode a) = 239 * 256 ^ 22 + 256 ^ 21 + a.toNat := by
    unfold delegationCode
    rw [List.cons_append, List.cons_append, List.cons_append, List.nil_append, beNat_cons,
      beNat_cons, beNat_cons, beNat_addrBytes, List.length_cons, List.length_cons, hlen]
    change 239 * _ + (1 * _ + (0 * _ + _)) = _
    omega
  change (BitVec.ofNat 256 (beNat (delegationCode a))).toNat = _
  rw [hnat, BitVec.toNat_ofNat]
  omega

private theorem delegationsApart_num : DelegationsApart where
  inj a b h := by
    have hnat := congrArg BitVec.toNat h
    rw [toNat_hash_delegationCode, toNat_hash_delegationCode] at hnat
    exact BitVec.eq_of_toNat_eq (Nat.add_left_cancel hnat)
  ne a h := by
    have hnat := congrArg BitVec.toNat h
    rw [toNat_hash_delegationCode] at hnat
    exact absurd hnat (by
      change _ ≠ 0
      omega)

private def signerAt (a : Address) : Option Acct :=
  if a = 0x30 then some ⟨0, 5, emptyTrieRoot, emptyCodeHash⟩
  else if a = 0x10 then some ⟨1, 5, emptyTrieRoot, emptyCodeHash⟩
  else none

/-- A sender and an account that signs an authorization. -/
private def signers : Witness :=
  { emptyWitness with
    account := fun a => .ok (signerAt a)
    account_fatal := fun _ _ h => by cases h }

/-- A value sent to a dead account, with an authorization and 50000 gas. -/
private def spilling : Msg :=
  { (default : Msg) with
    caller := 0x10
    target := some 0x2000
    currentTarget := 0x2000
    codeAddress := some 0x2000
    gas := 50000
    value := 1
    te := { (default : TxEnv) with
      origin := 0x10
      value := 1
      auths := [⟨0, 0x44, 0, 0, 1, 1⟩] } }

private def failedPurse : EStateM.Result Exn Ctx Unit → Option Word
  | .error (.evm _) c => some c.ev.purse
  | _ => none

set_option maxRecDepth 20000 in
private theorem spilling_purse :
    failedPurse (depth0Prepare signers (opened spilling (default : Machine).ctx)) = some 14810 := by
  decide +kernel

/-- The authorization spilled 35190 gas, the dispatch fails, and the frame reports the other
14810 as used. -/
theorem spilling_not_all_or_nothing :
    (∃ child m', processMessage signers 0 spilling default = .ok child m' ∧
      child.regularGasUsed = 14810 ∧ spilling.gas = 50000) ∧
    ¬AllOrNothing signers spilling default := by
  have hpurse := spilling_purse
  cases hrun : depth0Prepare signers (opened spilling (default : Machine).ctx) with
  | ok u c =>
    rw [hrun] at hpurse
    cases hpurse
  | error e c =>
    rw [hrun] at hpurse
    cases e with
    | evm err =>
      have hused : c.ev.purse = 14810 := Option.some.inj hpurse
      have hreport : (c.ev.abandoned spilling.reservoir err).regularGasUsed = 14810 := by
        rw [regularGasUsed_abandoned, hused]
      have hmsg := processMessage_evm (m := default) rfl hrun 0
      refine ⟨⟨_, _, hmsg, hreport, rfl⟩, fun hall => ?_⟩
      obtain ⟨child, m', hmsg', hab⟩ := hall.1 err c hrun 0
      rw [hmsg] at hmsg'
      cases hmsg'
      have hgas := hab.regularGasUsed.symm.trans hreport
      exact absurd hgas (by decide)
    | _ => cases hpurse

theorem all_or_nothing_iff_spilling :
    AllOrNothing signers spilling default ↔
      ¬SpillForgotten signers (opened spilling (default : Machine).ctx) :=
  all_or_nothing_iff rfl sound_default delegationsApart_num

end

end StatelessGuest
