import StatelessGuest.Evm.GasRun
import StatelessGuest.State.Rollback
import Mathlib.Data.BitVec
import Mathlib.Tactic.Abel

/-!
# Gas conservation

The two kinds of gas of a message come back in its result: gas left, state gas left, regular gas
used and state gas used add up to what the message brought. The one run that loses gas is a
preparation that fails after the authorizations spilled: the spill is forgotten when the
reservoir is rebased, so the failed frame does not get it back.
-/

namespace StatelessGuest

open Lib

section

variable {G K : Nat} {R : Int} {m : Msg} {a : Word}

/-! ## The sums of a finished frame -/

/-- A finished frame whose reservoir and authorizations account for `K` state gas. -/
def Accounted (G K : Nat) (e : Frame) : Prop :=
  ∃ (R : Int) (m : Msg) (a : Word), R + 981 * G < 2 ^ 61 ∧ m.reservoir.toNat < 2 ^ 61 ∧
    m.reservoir + a = BitVec.ofNat 64 K ∧ Ended G R m a e

/-- Everything the result of a message reports. -/
def Frame.reported (e : Frame) : Int :=
  e.gasLeft.toNat + e.stateGasLeft.toNat + e.regularGasUsed.toNat +
    (e.frameStateGasUsed + e.authStateGasUsed).toInt

theorem toInt_of_add {K s p : Nat} {x : Word} (hK : K < 2 ^ 61) (hs : s < 2 ^ 62)
    (hp : p < 2 ^ 52) (h : x + BitVec.ofNat 64 s = BitVec.ofNat 64 (K + p)) :
    x.toInt = K + p - s := by
  have hnat := congrArg BitVec.toNat h
  rw [BitVec.toNat_add, BitVec.toNat_ofNat, BitVec.toNat_ofNat] at hnat
  have hx := x.isLt
  rw [BitVec.toInt_eq_toNat_cond]
  split <;> omega

theorem Accounted.sum {e : Frame} (h : Accounted G K e) (hG : G < 2 ^ 52) (hK : K < 2 ^ 61) :
    e.reported = G + K := by
  obtain ⟨R, m, a, hR, hlt, hres, hend⟩ := h
  have hword : e.frameStateGasUsed + e.authStateGasUsed + e.stateGasLeft =
      BitVec.ofNat 64 K + e.stateGasSpilled := by
    rw [Frame.frameStateGasUsed, hend.msg, hend.auth, ← hres]
    abel
  have hint (hs : e.stateGasLeft.toNat < 2 ^ 62) (hp : e.stateGasSpilled.toNat < 2 ^ 52) :
      (e.frameStateGasUsed + e.authStateGasUsed).toInt =
        K + e.stateGasSpilled.toNat - e.stateGasLeft.toNat := by
    refine toInt_of_add hK hs hp ?_
    rw [BitVec.ofNat_toNat, BitVec.setWidth_eq, hword, BitVec.ofNat_add, BitVec.ofNat_toNat,
      BitVec.setWidth_eq]
  unfold Frame.reported
  by_cases he : e.error = none
  · have hgas := hend.gas he
    have htotal := hgas.total
    have hsgl := hgas.stateGasLeft_le
    unfold Frame.gasTotal at htotal
    rw [hint (by omega) (by omega)]
    omega
  · have htotal := hend.total he
    have hsp : e.stateGasSpilled.toNat = 0 := by rw [hend.spilled he]; rfl
    rw [hint (by rw [hend.reservoir he]; omega) (by omega), hsp]
    omega

/-! ## Authorizations -/

variable [Keccak] [Crypto] (w : Witness)

theorem triple_authorityOf (hG : G < 2 ^ 52) (auth : Auth) :
    Triple (InFrame G R m a) (authorityOf w auth) (fun _ => InFrame G R m a) (Failing G m a) := by
  unfold authorityOf
  refine .bind (triple_local hG inferInstance) fun e => ?_
  split
  · exact .pure fun _ h => h
  split
  · exact .pure fun _ h => h
  refine .bind (triple_local hG inferInstance) fun _ => .bind (triple_lift _) fun valid => ?_
  split
  · exact .pure fun _ h => h
  · exact .pure fun _ h => h

omit [Crypto] in
theorem triple_applyAuthorization (hG : G < 2 ^ 52) (hR : R + 981 * G < 2 ^ 61) (d : Delegating)
    (auth : Auth) (authority : Address) :
    Triple (InFrame G R m a) (applyAuthorization w d auth authority)
      (fun _ => InFrame G R m a) (Failing G m a) := by
  have hwrite (d : Delegating) : Triple (InFrame G R m a) (chargeAccountWrite d authority)
      (fun _ => InFrame G R m a) (Failing G m a) := by
    unfold chargeAccountWrite
    split
    · exact .pure fun _ h => h
    · exact .bind (triple_local hG inferInstance) fun _ => .pure fun _ h => h
  have hcode (d : Delegating) (before : Bool) : Triple (InFrame G R m a)
      (writeDelegation w d auth authority before) (fun _ => InFrame G R m a)
      (Failing G m a) := by
    unfold writeDelegation
    split
    · exact .bind (triple_lift _) fun _ => .pure fun _ h => h
    · refine .bind (triple_chargeStateGas_le hG (by omega) _) fun _ => ?_
      exact .bind (triple_lift _) fun _ => .pure fun _ h => h
  unfold applyAuthorization
  refine .bind (triple_lift _) fun ex => ?_
  refine .bind (triple_chargeStateGas_le hG (by omega) _) fun _ => ?_
  refine .bind (hwrite d) fun d => .bind (triple_lift _) fun before => ?_
  exact .bind (hcode d before) fun d => .bind (triple_lift _) fun _ => .pure fun _ h => h

theorem triple_setDelegationLoop (hG : G < 2 ^ 52) (hR : R + 981 * G < 2 ^ 61)
    (auths : List Auth) (d : Delegating) :
    Triple (InFrame G R m a) (setDelegationLoop w auths d) (fun _ => InFrame G R m a)
      (Failing G m a) := by
  induction auths generalizing d with
  | nil => exact .pure fun _ h => h
  | cons auth rest ih =>
    unfold setDelegationLoop
    refine .bind (triple_authorityOf w hG auth) fun authority => ?_
    cases authority with
    | none => exact ih d
    | some authority =>
      exact .bind (triple_applyAuthorization w hG hR d auth authority) fun d => ih d

theorem triple_setDelegation (hG : G < 2 ^ 52) (hR : R + 981 * G < 2 ^ 61) :
    Triple (InFrame G R m a) (setDelegation w) (fun _ => InFrame G R m a) (Failing G m a) := by
  unfold setDelegation
  exact .bind (triple_local hG inferInstance) fun e => triple_setDelegationLoop w hG hR _ _

/-! ## Dispatch -/

/-- A frame whose message may have been given other code. -/
def Dispatched (G : Nat) (R : Int) (reservoir a : Word) (c : Ctx) : Prop :=
  ∃ m : Msg, m.reservoir = reservoir ∧ InFrame G R m a c

/-- What is left of it when it fails. -/
def Undispatched (G : Nat) (e : Exn) (c : Ctx) : Prop := ¬ e.Fatal → c.ev.gasTotal = G

variable {r : Word}

omit [Keccak] [Crypto] in
theorem triple_dispatched {α : Type} {x : EvmM α}
    (h : ∀ m, Triple (InFrame G R m a) x (fun _ => InFrame G R m a) (Failing G m a)) :
    Triple (Dispatched G R r a) x (fun _ => Dispatched G R r a) (Undispatched G) where
  ok hc hrun := by
    obtain ⟨m, hm, hc⟩ := hc
    exact ⟨m, hm, (h m).ok hc hrun⟩
  error hc hrun hne := by
    obtain ⟨m, -, hc⟩ := hc
    exact ((h m).error hc hrun hne).1

omit [Keccak] [Crypto] in
theorem triple_setFrameCode (code : Bytes) {E : Exn → Ctx → Prop} :
    Triple (Dispatched G R r a) (setFrameCode code) (fun _ => Dispatched G R r a) E := by
  refine triple_modifyEv fun c hc => ?_
  obtain ⟨m, hm, hg, hmsg, ha, herr, hs⟩ := hc
  exact ⟨{ c.ev.msg with code := code }, (congrArg Msg.reservoir hmsg).trans hm,
    ⟨hg.total, hg.state, hg.writes⟩, rfl, ha, herr, hs⟩

omit [Crypto] in
theorem triple_followDelegation (hG : G < 2 ^ 52) (code : Bytes) :
    Triple (Dispatched G R r a) (followDelegation w code) (fun _ => Dispatched G R r a)
      (Undispatched G) := by
  unfold followDelegation
  split
  · exact .pure fun _ h => h
  · next da _ =>
    refine .bind (triple_dispatched fun m => triple_local hG inferInstance) fun _ => ?_
    refine .bind (triple_dispatched fun m => triple_lift _) fun dcode => ?_
    refine .bind (triple_modifyEv (Q := Dispatched G R r a) fun c hc => ?_) fun _ =>
      .pure fun _ h => h
    obtain ⟨m, hm, hg, hmsg, ha, herr, hs⟩ := hc
    exact ⟨{ c.ev.msg with disablePrecompiles := true, codeAddress := some da },
      (congrArg Msg.reservoir hmsg).trans hm, ⟨hg.total, hg.state, hg.writes⟩, rfl, ha, herr, hs⟩

omit [Crypto] in
theorem triple_prepareDispatch (hG : G < 2 ^ 52) (hR : R + 981 * G < 2 ^ 61) :
    Triple (Dispatched G R r a) (prepareDispatch w) (fun _ => Dispatched G R r a)
      (Undispatched G) := by
  have hcharge (amount : Word) : Triple (Dispatched G R r a) (chargeStateGas amount)
      (fun _ => Dispatched G R r a) (Undispatched G) :=
    triple_dispatched fun m => triple_chargeStateGas_le hG (by omega) amount
  have hdead (addr : Address) (value : U256) : Triple (Dispatched G R r a)
      (chargeIfDead w addr value) (fun _ => Dispatched G R r a) (Undispatched G) := by
    unfold chargeIfDead
    split
    · exact .pure fun _ h => h
    refine .bind (triple_dispatched fun m => triple_lift _) fun alive => ?_
    split
    · exact .pure fun _ h => h
    · exact .bind (hcharge _) fun _ => .pure fun _ h => h
  unfold prepareDispatch
  refine .bind (triple_dispatched fun m => triple_local hG inferInstance) fun e => ?_
  dsimp only
  split
  · exact .bind (triple_dispatched fun m => triple_lift _) fun _ => hcharge _
  refine .bind (hdead _ _) fun _ => ?_
  refine .bind (triple_dispatched fun m => triple_lift _) fun rcode => ?_
  exact .bind (triple_followDelegation w hG rcode) fun code => triple_setFrameCode code

/-! ## The preparation of a transaction's frame -/

/-- A frame that is prepared, `s` of its gas spilled into authorizations. -/
def Ready (G R : Nat) (c : Ctx) : Prop :=
  ∃ (s : Nat) (R' : Int) (m : Msg) (a : Word), s ≤ G ∧ R' + 981 * (G - s : Nat) ≤ R + 981 * G ∧
    m.reservoir.toNat ≤ R + 981 * G ∧ m.reservoir + a = BitVec.ofNat 64 (R + s) ∧
    InFrame (G - s) R' m a c

/-- The authorizations spill state gas into regular gas, and then the dispatch fails. -/
def SpillForgotten (c : Ctx) : Prop :=
  c.ev.msg.te.auths ≠ [] ∧ ∃ (c₁ c₂ : Ctx) (err : EvmErr), setDelegation w c = .ok () c₁ ∧
    c₁.ev.stateGasSpilled ≠ 0 ∧
    (rebaseReservoir >>= fun _ => prepareDispatch w) c₁ = .error (.evm err) c₂

omit [Keccak] [Crypto] in
/-- The frame with the authorizations paid, before it is dispatched. -/
theorem InFrame.rebase {R : Nat} {c : Ctx} (h : InFrame G R m 0 c) :
    ∃ (R' : Int), R' + 981 * (G - c.ev.stateGasSpilled.toNat : Nat) ≤ R + 981 * G ∧
      InFrame (G - c.ev.stateGasSpilled.toNat) R' { m with reservoir := c.ev.stateGasLeft }
        (c.ev.frameStateGasUsed) { c with ev := { c.ev with
          authStateGasUsed := c.ev.frameStateGasUsed
          msg := { c.ev.msg with reservoir := c.ev.stateGasLeft }
          stateGasSpilled := 0 } } := by
  obtain ⟨hg, hmsg, -, herr, hs⟩ := h
  have htotal := hg.total
  have hstate := hg.state
  have hwrites := hg.writes
  unfold Frame.gasTotal at htotal
  unfold Frame.stateBalance at hstate
  refine ⟨c.ev.stateGasLeft.toNat + stateNet c.ev.slotWrites, by omega, ⟨?_, ?_, hwrites⟩,
    by rw [hmsg], rfl, herr, hs⟩
  · change c.ev.gasLeft.toNat + c.ev.regularGasUsed.toNat + 0 = _
    omega
  · rw [Frame.stateBalance]
    exact le_of_eq (by simp)


variable {w}

omit [Crypto] in
theorem depth0Prepare_run [Crypto] (c : Ctx) :
    depth0Prepare w c =
      if c.ev.msg.te.auths ≠ [] then
        (setDelegation w >>= fun _ => rebaseReservoir >>= fun _ => prepareDispatch w) c
      else prepareDispatch w c := by
  unfold depth0Prepare
  rw [bind_run_ok (show getEv c = .ok c.ev c from rfl)]
  by_cases h : c.ev.msg.te.auths ≠ []
  · simp only [if_pos h]
  · simp only [if_neg h]

omit [Crypto] in
/-- The frame with its authorizations paid, dispatched. -/
theorem rebased_dispatch {msg : Msg} {c : Ctx}
    (h : InFrame msg.gas.toNat msg.reservoir.toNat msg 0 c)
    (hG : msg.gas.toNat < 2 ^ 52) (hR : msg.reservoir.toNat + 981 * msg.gas.toNat < 2 ^ 61) :
    c.ev.stateGasSpilled.toNat ≤ msg.gas.toNat ∧
    (∀ c', (rebaseReservoir >>= fun _ => prepareDispatch w) c = .ok () c' →
      Ready msg.gas.toNat msg.reservoir.toNat c') ∧
    ∀ err c', (rebaseReservoir >>= fun _ => prepareDispatch w) c = .error (.evm err) c' →
      c'.ev.gasTotal = msg.gas.toNat - c.ev.stateGasSpilled.toNat := by
  obtain ⟨R', hR', hrebased⟩ := h.rebase
  have hspilled : c.ev.stateGasSpilled.toNat ≤ msg.gas.toNat := by
    have htotal := h.gas.total
    unfold Frame.gasTotal at htotal
    omega
  have hsgl := h.gas.stateGasLeft_le
  have hres : c.ev.stateGasLeft + c.ev.frameStateGasUsed =
      BitVec.ofNat 64 (msg.reservoir.toNat + c.ev.stateGasSpilled.toNat) := by
    rw [Frame.frameStateGasUsed, h.msg, BitVec.ofNat_add, BitVec.ofNat_toNat, BitVec.ofNat_toNat,
      BitVec.setWidth_eq, BitVec.setWidth_eq]
    abel
  have hdispatch := triple_prepareDispatch (r := c.ev.stateGasLeft)
    (a := c.ev.frameStateGasUsed) w (show msg.gas.toNat - c.ev.stateGasSpilled.toNat < 2 ^ 52 by
      omega) (show R' + 981 * (msg.gas.toNat - c.ev.stateGasSpilled.toNat : Nat) < 2 ^ 61 by omega)
  refine ⟨hspilled, fun c' hrun => ?_, fun err c' hrun => ?_⟩
  · obtain ⟨_, c₁, hreb, hrun⟩ := bind_ok.mp hrun
    cases hreb
    obtain ⟨m, hm, hc'⟩ := hdispatch.ok ⟨_, rfl, hrebased⟩ hrun
    refine ⟨_, R', m, _, hspilled, hR', ?_, ?_, hc'⟩
    · rw [hm]
      exact_mod_cast hsgl
    · rw [hm, hres]
  · obtain hreb | ⟨_, c₁, hreb, hrun⟩ := bind_error.mp hrun
    · cases hreb
    · cases hreb
      exact hdispatch.error ⟨_, rfl, hrebased⟩ hrun id

/-- A frame that is prepared accounts for the gas of its message. -/
theorem depth0Prepare_ok {msg : Msg} {c c' : Ctx}
    (h : InFrame msg.gas.toNat msg.reservoir.toNat msg 0 c)
    (hG : msg.gas.toNat < 2 ^ 52) (hR : msg.reservoir.toNat + 981 * msg.gas.toNat < 2 ^ 61)
    (hrun : depth0Prepare w c = .ok () c') :
    Ready msg.gas.toNat msg.reservoir.toNat c' ∧ ¬ SpillForgotten w c := by
  rw [depth0Prepare_run] at hrun
  split at hrun
  · obtain ⟨_, c₁, hset, hrest⟩ := bind_ok.mp hrun
    have h₁ := (triple_setDelegation w hG (by exact_mod_cast hR)).ok h hset
    refine ⟨(rebased_dispatch h₁ hG hR).2.1 c' hrest, fun hsf => ?_⟩
    obtain ⟨-, c₁', c₂, err, hset', -, hfail⟩ := hsf
    rw [hset] at hset'
    cases hset'
    rw [hrest] at hfail
    cases hfail
  · next hauths =>
    obtain ⟨m, hm, hc'⟩ := (triple_prepareDispatch w hG (by exact_mod_cast hR)).ok
      ⟨msg, rfl, h⟩ hrun
    refine ⟨⟨0, msg.reservoir.toNat, m, 0, Nat.zero_le _, le_rfl, ?_, ?_, hc'⟩,
      fun hsf => hauths hsf.1⟩
    · rw [hm]
      omega
    · rw [hm]
      simp

/-- A preparation that fails has the gas of its message, unless a spill was forgotten. -/
theorem depth0Prepare_evm {msg : Msg} {c c' : Ctx} {err : EvmErr}
    (h : InFrame msg.gas.toNat msg.reservoir.toNat msg 0 c)
    (hG : msg.gas.toNat < 2 ^ 52) (hR : msg.reservoir.toNat + 981 * msg.gas.toNat < 2 ^ 61)
    (hrun : depth0Prepare w c = .error (.evm err) c') :
    (c'.ev.gasTotal = msg.gas.toNat ∧ ¬ SpillForgotten w c) ∨
      (c'.ev.gasTotal < msg.gas.toNat ∧ SpillForgotten w c) := by
  rw [depth0Prepare_run] at hrun
  split at hrun
  · next hauths =>
    have hdelegation := triple_setDelegation (R := msg.reservoir.toNat) (m := msg) (a := 0) w hG
      (by exact_mod_cast hR)
    obtain hset | ⟨_, c₁, hset, hrest⟩ := bind_error.mp hrun
    · refine .inl ⟨(hdelegation.error h hset id).1, fun hsf => ?_⟩
      obtain ⟨-, c₁', c₂, err', hset', -, -⟩ := hsf
      rw [hset] at hset'
      cases hset'
    · have h₁ := hdelegation.ok h hset
      obtain ⟨hle, -, hfailed⟩ := rebased_dispatch h₁ hG hR
      have htotal := hfailed err c' hrest
      by_cases hs : c₁.ev.stateGasSpilled = 0
      · refine .inl ⟨by rw [htotal, hs]; rfl, fun hsf => ?_⟩
        obtain ⟨-, c₁', c₂, err', hset', hne, -⟩ := hsf
        rw [hset] at hset'
        cases hset'
        exact hne hs
      · refine .inr ⟨?_, hauths, c₁, c', err, hset, hs, hrest⟩
        have hpos : 0 < c₁.ev.stateGasSpilled.toNat :=
          Nat.pos_of_ne_zero fun h0 => hs (BitVec.eq_of_toNat_eq h0)
        omega
  · next hauths =>
    have hdispatch := triple_prepareDispatch (R := msg.reservoir.toNat) (r := msg.reservoir)
      (a := 0) w hG (by exact_mod_cast hR)
    exact .inl ⟨hdispatch.error ⟨msg, rfl, h⟩ hrun id, fun hsf => hauths hsf.1⟩

omit [Keccak] [Crypto] in
theorem abortPrepare_accounted {snap : Nat} {reservoir : Word} {err : EvmErr} {c c' : Ctx}
    (hG : c.ev.gasTotal < 2 ^ 52) (hR : reservoir.toNat + 981 * c.ev.gasTotal < 2 ^ 61)
    (hrun : abortPrepare snap reservoir err c = .ok () c') :
    Accounted c.ev.gasTotal reservoir.toNat c'.ev := by
  cases hrun
  refine ⟨reservoir.toNat, { c.ev.msg with reservoir := reservoir }, 0, by exact_mod_cast hR,
    by dsimp only; omega, by simp, ?_⟩
  exact ended_halted (o := c.ev.output) hG (e := { c.ev with
    msg := { c.ev.msg with reservoir := reservoir }
    authStateGasUsed := 0 }) rfl rfl rfl

/-- What the preparation of a fresh frame ends with. -/
theorem recPrepareFrame_ok {parent : Frame} {msg : Msg} {c c' : Ctx} {prepared : Bool}
    (h : InFrame msg.gas.toNat msg.reservoir.toNat msg 0 c)
    (hG : msg.gas.toNat < 2 ^ 52) (hR : msg.reservoir.toNat + 981 * msg.gas.toNat < 2 ^ 61)
    (hrun : recPrepareFrame w parent msg.reservoir c = .ok prepared c') :
    (prepared = true ∧ Ready msg.gas.toNat msg.reservoir.toNat c' ∧ ¬ SpillForgotten w c) ∨
      (prepared = false ∧ ∃ G ≤ msg.gas.toNat, Accounted G msg.reservoir.toNat c'.ev ∧
        (G < msg.gas.toNat ↔ SpillForgotten w c)) := by
  rw [recPrepareFrame, bind_run_ok (show liftState stateSnapshot c = .ok _ c from rfl)] at hrun
  cases hx : depth0Prepare w c with
  | ok u c₁ =>
    have hbody : (do depth0Prepare w; return true : EvmM Bool) c = .ok true c₁ := bind_run_ok hx
    rw [catchEvm_ok hbody] at hrun
    cases hrun
    exact .inl ⟨rfl, depth0Prepare_ok h hG hR hx⟩
  | error e c₁ =>
    have hbody : (do depth0Prepare w; return true : EvmM Bool) c = .error e c₁ :=
      bind_run_error hx
    obtain he | ⟨err, rfl⟩ := e.fatal_or
    · rw [catchEvm_fatal he hbody] at hrun
      cases hrun
    rw [catchEvm_evm hbody] at hrun
    split at hrun
    · cases hrun
    obtain ⟨_, c₂, habort, hpure⟩ := bind_ok.mp hrun
    cases hpure
    have hcases := depth0Prepare_evm h hG hR hx
    have hle : c₁.ev.gasTotal ≤ msg.gas.toNat := by
      obtain ⟨htotal, -⟩ | ⟨hlt, -⟩ := hcases <;> omega
    refine .inr ⟨rfl, c₁.ev.gasTotal, hle, abortPrepare_accounted (by omega) (by omega) habort, ?_⟩
    obtain ⟨htotal, hsf⟩ | ⟨hlt, hsf⟩ := hcases
    · exact iff_of_false (by omega) hsf
    · exact iff_of_true hlt hsf

/-! ## Messages -/

theorem Ready.body {G R : Nat} {run : EvmM Unit} {c c' : Ctx} (h : Ready G R c)
    (hG : G < 2 ^ 52) (hR : R + 981 * G < 2 ^ 61) (hrun : RunGas run)
    (hbody : guardedBody w run c = .ok () c') : ∃ s ≤ G, Accounted (G - s) (R + s) c'.ev := by
  obtain ⟨s, R', m, a, hs, hbound, hlt, hres, hframe⟩ := h
  have hended := (triple_guardedBody w (show G - s < 2 ^ 52 by omega)
    (show R' + 981 * (G - s : Nat) < 2 ^ 61 by omega) hrun).ok hframe hbody
  exact ⟨s, hs, R', m, a, by omega, by omega, hres, hended⟩

/-- The stages of a message's frame. -/
theorem recProcessMessage_parts {run : EvmM Unit} {msg : Msg} {c c' : Ctx} {child : Frame}
    (h : recProcessMessage w run msg c = .ok child c') :
    ∃ prepared c₁ c₂, recPrepareMessage w c.ev msg
        { c with ev := frameNew msg c.accAddrs.count c.accKeys.count } = .ok prepared c₁ ∧
      preparedBody w run prepared c₁ = .ok () c₂ ∧ child = c₂.ev := by
  by_cases hdeep : stackDepthLimit < msg.depth
  · rw [recProcessMessage_deep hdeep] at h
    cases h
  unfold recProcessMessage at h
  rw [if_neg hdeep] at h
  obtain ⟨prepared, c₁, hprep, h⟩ := bind_ok.mp (show (recPrepareMessage w c.ev msg >>=
    fun prepared => do
      preparedBody w run prepared
      let child ← getEv
      setEv c.ev
      return child) { c with ev := frameNew msg c.accAddrs.count c.accKeys.count } =
        .ok child c' from h)
  obtain ⟨_, c₂, hbody, h⟩ := bind_ok.mp h
  cases h
  exact ⟨prepared, c₁, c₂, hprep, hbody, rfl⟩

/-- The frame of a message accounts for the gas of the message, unless a spill was forgotten. -/
theorem recProcessMessage_gas {run : EvmM Unit} {msg : Msg} {c c' : Ctx} {child : Frame}
    (hG : msg.gas.toNat < 2 ^ 52) (hR : msg.reservoir.toNat + 981 * msg.gas.toNat < 2 ^ 61)
    (hrun : RunGas run) (h : recProcessMessage w run msg c = .ok child c') :
    ∃ G K, G ≤ msg.gas.toNat ∧ G + K ≤ msg.gas.toNat + msg.reservoir.toNat ∧
      Accounted G K child ∧
      (G + K < msg.gas.toNat + msg.reservoir.toNat ↔ msg.depth = 0 ∧
        SpillForgotten w { c with ev := frameNew msg c.accAddrs.count c.accKeys.count }) := by
  have hfresh := inFrame_frameNew (c := c) msg c.accAddrs.count c.accKeys.count
  obtain ⟨prepared, c₁, c₂, hprep, hbody, rfl⟩ := recProcessMessage_parts h
  have hready (hr : Ready msg.gas.toNat msg.reservoir.toNat c₁) (hp : prepared = true) :
      ∃ G K, G ≤ msg.gas.toNat ∧ G + K = msg.gas.toNat + msg.reservoir.toNat ∧
        Accounted G K c₂.ev := by
    subst hp
    obtain ⟨s, hs, hacc⟩ := hr.body hG hR hrun hbody
    exact ⟨_, _, Nat.sub_le _ s, by omega, hacc⟩
  unfold recPrepareMessage at hprep
  split at hprep
  · next hdepth =>
    obtain ⟨hp, hr, hsf⟩ | ⟨hp, G, hle, hacc, hiff⟩ := recPrepareFrame_ok hfresh hG hR hprep
    · obtain ⟨G, K, hle, hsum, hacc⟩ := hready hr hp
      exact ⟨G, K, hle, by omega, hacc, iff_of_false (by omega) fun h => hsf h.2⟩
    · subst hp
      cases hbody
      refine ⟨G, msg.reservoir.toNat, hle, by omega, hacc, ?_⟩
      rw [← hiff]
      omega
  · next hdepth =>
    cases hprep
    have hr : Ready msg.gas.toNat msg.reservoir.toNat
        { c with ev := frameNew msg c.accAddrs.count c.accKeys.count } :=
      ⟨0, _, msg, 0, Nat.zero_le _, le_rfl, by omega, by simp, hfresh⟩
    obtain ⟨G, K, hle, hsum, hacc⟩ := hready hr rfl
    exact ⟨G, K, hle, by omega, hacc, iff_of_false (by omega) fun h => hdepth h.1⟩

omit [Crypto] in
theorem Accounted.closeCreateOf {msg : Msg} {snap : Nat} {child e : Frame} {c c' : Ctx}
    (h : Accounted G K child) (hG : G < 2 ^ 52)
    (hrun : closeCreateOf w msg snap child c = .ok e c') : Accounted G K e := by
  obtain ⟨R, m, a, hR, hlt, hres, hend⟩ := h
  obtain ⟨_, c₁, hclose, hrest⟩ := bind_ok.mp (show (closeCreate w msg snap >>= fun _ => do
      let child ← getEv
      setEv c.ev
      return child) { c with ev := child } = .ok e c' from hrun)
  cases hrest
  exact ⟨R, m, a, hR, hlt, hres, (triple_closeCreate w hG hR msg snap).ok hend hclose⟩

variable (w) in
/-- Enter the frame of a message; false when its new contract has an address in use. -/
def enterMessage (msg : Msg) : EvmM Bool := do
  if msg.target = none then
    if ← liftState (accountDeployable w msg.currentTarget) then
      let _ ← liftState (openCreate w msg.currentTarget)
      setEv (← frameFor msg)
      return true
    else return false
  else
    setEv (← frameFor msg)
    return true

variable (w) in
/-- The preparation of the message's frame fails after its authorizations spilled state gas. -/
def LosesSpill (msg : Msg) (c : Ctx) : Prop :=
  msg.depth = 0 ∧ ∃ c', enterMessage w msg c = .ok true c' ∧ SpillForgotten w c'

/-- The frame that a message is entered with decides whether its gas is accounted for. -/
theorem recProcessMessageCall_frame {fuel : Nat} {msg : Msg} {c c' : Ctx}
    {out : MessageCallOutput} (hG : msg.gas.toNat < 2 ^ 52)
    (hR : msg.reservoir.toNat + 981 * msg.gas.toNat < 2 ^ 61)
    (h : recProcessMessageCall w fuel msg c = .ok out c') :
    (∃ c₁, enterMessage w msg c = .ok false c₁ ∧ out = collisionOutput msg) ∨
      ∃ c₁ G K child, enterMessage w msg c = .ok true c₁ ∧ out = frameOutput child ∧
        G ≤ msg.gas.toNat ∧ G + K ≤ msg.gas.toNat + msg.reservoir.toNat ∧
        Accounted G K child ∧
        (G + K < msg.gas.toNat + msg.reservoir.toNat ↔ msg.depth = 0 ∧ SpillForgotten w c₁) := by
  have hrun := runGas_executeCode w fuel
  unfold recProcessMessageCall at h
  unfold enterMessage
  by_cases htarget : msg.target = none
  · rw [if_pos htarget] at h ⊢
    obtain ⟨deployable, c₁, hdep, h⟩ := bind_ok.mp h
    rw [bind_run_ok hdep]
    cases deployable with
    | false =>
      cases h
      exact .inl ⟨_, rfl, rfl⟩
    | true =>
      obtain ⟨child, c₂, hcreate, h⟩ := bind_ok.mp h
      cases h
      obtain ⟨snap, c₃, hopen, hcreate⟩ := bind_ok.mp hcreate
      obtain ⟨child', c₄, hmsg, hclose⟩ := bind_ok.mp hcreate
      obtain ⟨G, K, hG', hle, hacc, hiff⟩ := recProcessMessage_gas hG hR hrun hmsg
      refine .inr ⟨_, G, K, child, ?_, rfl, hG', hle, hacc.closeCreateOf (by omega) hclose, hiff⟩
      simp only [if_true]
      rw [bind_run_ok hopen]
      rfl
  · rw [if_neg htarget] at h ⊢
    obtain ⟨child, c₁, hmsg, h⟩ := bind_ok.mp h
    cases h
    obtain ⟨G, K, hG', hle, hacc, hiff⟩ := recProcessMessage_gas hG hR hrun hmsg
    exact .inr ⟨_, G, K, child, rfl, rfl, hG', hle, hacc, hiff⟩

/-- The gas of a message is in its result, unless its preparation forgets a spill. -/
theorem message_gas_conserved_iff {fuel : Nat} {msg : Msg} {m m' : Machine}
    {out : MessageCallOutput} (hgas : msg.gas.toNat + msg.reservoir.toNat < 2 ^ 51)
    (hrun : processMessageCall w fuel msg m = .ok out m') :
    (out.gasLeft.toNat + out.stateGasLeft.toNat + out.regularGasUsed.toNat +
      out.stateGasUsed.toInt : Int) = msg.gas.toNat + msg.reservoir.toNat ↔
      ¬ LosesSpill w msg m.ctx := by
  obtain ⟨-, n, hrec⟩ := ((processMessageCall_same msg m).1 out m').mp ⟨fuel, hrun⟩
  obtain ⟨c₁, henter, rfl⟩ | ⟨c₁, G, K, child, henter, rfl, hG', hle, hacc, hiff⟩ :=
    recProcessMessageCall_frame (by omega) (by omega) hrec
  · refine iff_of_true ?_ fun ⟨_, c₂, henter', _⟩ => ?_
    · simp only [collisionOutput]
      change ((0 : Nat) + msg.reservoir.toNat + msg.gas.toNat + (0 : Int) : Int) = _
      omega
    · rw [henter] at henter'
      cases henter'
  · have hsum : (child.reported : Int) = G + K := hacc.sum (by omega) (by omega)
    have hloses : LosesSpill w msg m.ctx ↔ msg.depth = 0 ∧ SpillForgotten w c₁ := by
      refine ⟨fun ⟨hd, c₂, henter', hsf⟩ => ?_, fun ⟨hd, hsf⟩ => ⟨hd, c₁, henter, hsf⟩⟩
      rw [henter] at henter'
      cases henter'
      exact ⟨hd, hsf⟩
    rw [hloses, ← hiff]
    change (child.reported : Int) = _ ↔ _
    omega

end

/-! ## A run that loses gas -/

section

attribute [local instance] numKeccak stubCrypto

private def twoAccountsAt (a : Address) : Option Acct :=
  if a = 0x30 then some ⟨0, 5, emptyTrieRoot, emptyCodeHash⟩
  else if a = 0x10 then some ⟨1, 5, emptyTrieRoot, emptyCodeHash⟩
  else none

/-- A sender and an account that signs an authorization. -/
private def twoAccounts : Witness :=
  { emptyWitness with
    account := fun a => .ok (twoAccountsAt a)
    account_fatal := fun _ _ h => by cases h }

/-- A value sent to a dead account, with an authorization and 50000 gas. -/
private def authorizing : Msg :=
  { (default : Msg) with
    caller := 0x10
    target := some 0x2000
    currentTarget := 0x2000
    codeAddress := some 0x2000
    gas := 50000
    value := 1
    te := { (default : TxEnv) with
      origin := 0x10
      value := 1
      auths := [⟨0, 0x44, 0, 0, 1, 1⟩] } }

private def resultSum : EStateM.Result Exn Machine MessageCallOutput → Option Int
  | .ok out _ => some (out.gasLeft.toNat + out.stateGasLeft.toNat + out.regularGasUsed.toNat +
      out.stateGasUsed.toInt)
  | .error _ _ => none

set_option maxRecDepth 20000 in
private theorem authorizing_sum :
    resultSum (processMessageCall twoAccounts 0 authorizing default) = some 14810 := by
  decide +kernel

/-- The authorization spilled 35190 gas, and it is in no part of the result. -/
theorem authorizing_loses_gas :
    ∃ out m', processMessageCall twoAccounts 0 authorizing default = .ok out m' ∧
      (out.gasLeft.toNat + out.stateGasLeft.toNat + out.regularGasUsed.toNat +
        out.stateGasUsed.toInt : Int) = 14810 ∧
      authorizing.gas.toNat + authorizing.reservoir.toNat = 50000 := by
  have hsum := authorizing_sum
  cases hrun : processMessageCall twoAccounts 0 authorizing default with
  | ok out m' =>
    rw [hrun] at hsum
    exact ⟨out, m', rfl, Option.some.inj hsum, rfl⟩
  | error e m' =>
    rw [hrun] at hsum
    cases hsum

theorem message_gas_conserved_iff_authorizing :
    ∃ out m', processMessageCall twoAccounts 0 authorizing default = .ok out m' ∧
      ((out.gasLeft.toNat + out.stateGasLeft.toNat + out.regularGasUsed.toNat +
        out.stateGasUsed.toInt : Int) = authorizing.gas.toNat + authorizing.reservoir.toNat ↔
        ¬ LosesSpill twoAccounts authorizing (default : Machine).ctx) := by
  have hsum := authorizing_sum
  cases hrun : processMessageCall twoAccounts 0 authorizing default with
  | ok out m' => exact ⟨out, m', rfl, message_gas_conserved_iff (by decide) hrun⟩
  | error e m' =>
    rw [hrun] at hsum
    cases hsum

end

end StatelessGuest
