import StatelessGuest.Evm.Gas
import StatelessGuest.State.Fatal

/-!
# The gas of the other instructions

SSTORE and SELFDESTRUCT keep the invariant of their frame. A creation or a call either keeps it
too or yields a request whose gas and state gas are missing from it.
-/

namespace StatelessGuest

open Lib

section

variable {G : Nat} {R : Int} {m : Msg} {a : Word} {n : Nat}

/-! ## SSTORE -/

/-- The frame has used `n` more gas than its storage writes account for. -/
def Funded (n : Nat) (c : Ctx) : Prop :=
  100 * c.ev.slotWrites.length + n ≤ c.ev.regularGasUsed.toNat

/-- The gas used does not shrink in an ordinary step. -/
theorem InFrame.regular_le {c c' : Ctx} (h : InFrame G R m a c) (hG : G < 2 ^ 52)
    (hl : Local c c') : c.ev.regularGasUsed.toNat ≤ c'.ev.regularGasUsed.toNat := by
  have htotal := h.gas.total
  have htotal' := (h.of_local hG hl).gas.total
  have hcore := hl.ev.core
  simp only [Frame.core, FrameCore.mk.injEq] at hcore
  obtain ⟨-, -, hp, -⟩ := hcore
  have hle : c'.ev.gasLeft.toNat ≤ c.ev.gasLeft.toNat := hl.ev.le
  unfold Frame.gasTotal at htotal htotal'
  rw [hp] at htotal'
  omega

theorem triple_funded_local (hG : G < 2 ^ 52) {α : Type} {x : EvmM α} (hx : Keeps Local x) :
    Triple (fun c => InFrame G R m a c ∧ Funded n c) x (fun _ c => InFrame G R m a c ∧ Funded n c)
      (Failing G m a) := by
  refine .of_keeps hx (fun c c' h hl => ⟨h.1.of_local hG hl, ?_⟩) fun e _ h => h.1.failing e
  have hreg := h.1.regular_le hG hl
  have hcore := hl.ev.core
  simp only [Frame.core, FrameCore.mk.injEq] at hcore
  obtain ⟨-, -, -, -, -, -, -, -, hw⟩ := hcore
  have hpaid := h.2
  unfold Funded at hpaid ⊢
  rw [hw]
  omega

theorem triple_chargeGas_funded (hG : G < 2 ^ 52) {amount : Word} (hamount : n ≤ amount.toNat) :
    Triple (InFrame G R m a) (chargeGas amount) (fun _ c => InFrame G R m a c ∧ Funded n c)
      (Failing G m a) where
  ok {c c' _} h hrun := by
    have hl : Local c c' := Keeps.ok inferInstance hrun
    refine ⟨h.of_local hG hl, ?_⟩
    have htotal := h.gas.total
    have hwrites := h.gas.writes
    rw [chargeGas_run] at hrun
    split at hrun
    · cases hrun
    · next hlt =>
      cases hrun
      have hle : amount.toNat ≤ c.ev.gasLeft.toNat := BitVec.not_lt.mp hlt
      unfold Frame.gasTotal at htotal
      unfold Funded
      dsimp only
      rw [BitVec.toNat_add]
      omega
  error {c c' e} h hrun := by
    have hl : Local c c' := Keeps.error inferInstance hrun
    exact (h.of_local hG hl).failing e

theorem triple_chargeStorageAccess (hG : G < 2 ^ 52) (target : Address) (key : Hash) :
    Triple (InFrame G R m a) (chargeStorageAccess target key)
      (fun _ c => InFrame G R m a c ∧ Funded 100 c) (Failing G m a) := by
  unfold chargeStorageAccess
  refine .bind (triple_local hG inferInstance) fun warm => ?_
  split
  · exact triple_chargeGas_funded hG (by decide)
  · exact .bind (triple_chargeGas_funded hG (by decide)) fun _ =>
      triple_funded_local hG inferInstance

/-- The state gas operations change neither what was used nor the storage writes. -/
def SameFunds (c c' : Ctx) : Prop :=
  c'.ev.regularGasUsed = c.ev.regularGasUsed ∧ c'.ev.slotWrites = c.ev.slotWrites

theorem Funded.of_same {c c' : Ctx} (h : Funded n c) (hs : SameFunds c c') : Funded n c' := by
  unfold Funded at h ⊢
  rw [hs.1, hs.2]
  exact h

theorem keeps_chargeStateGas (amount : Word) : Keeps SameFunds (chargeStateGas amount) := by
  refine ⟨fun c => ?_⟩
  rw [chargeStateGas_run]
  split
  · exact ⟨rfl, rfl⟩
  · split <;> exact ⟨rfl, rfl⟩

theorem keeps_credit (amount : Word) : Keeps SameFunds (creditStateGasRefund amount) :=
  ⟨fun _ => ⟨rfl, rfl⟩⟩

variable [Keccak] (w : Witness)

theorem triple_opSstore (hG : G < 2 ^ 52) (hR : R + 981 * G < 2 ^ 61) :
    Triple (InFrame G R m a) (opSstore w) (fun _ => InFrame G R m a) (Failing G m a) := by
  have hlift : ∀ {R : Int} {α : Type} (x : StateM α),
      Triple (fun c => InFrame G R m a c ∧ Funded 100 c) (liftState x)
        (fun _ c => InFrame G R m a c ∧ Funded 100 c) (Failing G m a) := by
    intro R α x
    exact (triple_lift x).frame (keeps_ev_liftState x) fun c c' h he =>
      h.of_same ⟨by rw [he], by rw [he]⟩
  unfold opSstore
  refine .bind (triple_local hG inferInstance) fun _ => ?_
  refine .bind (triple_local hG inferInstance) fun key => ?_
  refine .bind (triple_local hG inferInstance) fun newValue => ?_
  refine .bind (triple_local hG inferInstance) fun e => ?_
  refine .bind (triple_local hG inferInstance) fun warm => ?_
  refine .bind (triple_local hG inferInstance) fun _ => ?_
  refine .bind (triple_chargeStorageAccess hG _ _) fun _ => ?_
  refine .bind (hlift _) fun original => .bind (hlift _) fun current => ?_
  dsimp only
  generalize (⟨e.msg.currentTarget, key, original, current, newValue⟩ : SlotWrite) = x
  have hcredit := x.stateCredit_le
  have hgas := x.stateGas_le
  -- the refund counter is outside the invariant
  refine .bind (Q := fun _ c => InFrame G (R + x.stateCredit.toNat - x.stateCredit.toNat) m a c ∧
      Funded 100 c) (triple_modifyEv fun c h => ⟨⟨?_, h.1.msg, h.1.auth, h.1.error, h.1.stack⟩, h.2⟩)
    fun _ => ?_
  · rw [Int.add_sub_cancel]
    exact ⟨h.1.gas.total, h.1.gas.state, h.1.gas.writes⟩
  refine .bind ((triple_credit hG (by omega) x.stateCredit).frame (keeps_credit _)
    fun _ _ h hs => h.of_same hs) fun _ => ?_
  refine .bind (triple_funded_local hG inferInstance) fun _ => ?_
  refine .bind ((triple_chargeStateGas hG (by omega) x.stateGas).frame (keeps_chargeStateGas _)
    fun _ _ h hs => h.of_same hs) fun _ => ?_
  refine .bind (hlift _) fun _ => ?_
  refine .bind (Q := fun _ => InFrame G R m a) (triple_modifyEv fun c h => ?_) fun _ =>
    triple_local hG inferInstance
  obtain ⟨⟨hg, hm, ha, herr, hs⟩, hpaid⟩ := h
  refine ⟨⟨hg.total, ?_, ?_⟩, hm, ha, herr, hs⟩
  · have hstate := hg.state
    have hbal : Frame.stateBalance { c.ev with slotWrites := c.ev.slotWrites ++ [x] } =
        c.ev.stateBalance := rfl
    dsimp only
    rw [hbal, stateNet_append, stateNet_singleton, SlotWrite.stateNet]
    omega
  · unfold Funded at hpaid
    dsimp only
    rw [List.length_append, List.length_singleton]
    omega

/-! ## SELFDESTRUCT -/

theorem triple_opSelfdestruct (hG : G < 2 ^ 52) (hR : R + 981 * G < 2 ^ 61) :
    Triple (InFrame G R m a) (opSelfdestruct w) (fun _ => InFrame G R m a) (Failing G m a) := by
  unfold opSelfdestruct
  refine .bind (triple_local hG inferInstance) fun _ => ?_
  refine .bind (triple_local hG inferInstance) fun bv => ?_
  refine .bind (triple_local hG inferInstance) fun warm => ?_
  refine .bind (triple_local hG inferInstance) fun _ => ?_
  refine .bind (triple_local hG inferInstance) fun _ => ?_
  refine .bind (triple_local hG inferInstance) fun e => ?_
  refine .bind (triple_lift _) fun alive => .bind (triple_lift _) fun oa => ?_
  refine .bind (triple_local hG inferInstance) fun _ => ?_
  refine .bind (triple_chargeStateGas_le hG (by omega) _) fun _ => ?_
  refine .bind (triple_lift _) fun oa' => .bind (triple_lift _) fun _ => ?_
  refine .bind (triple_local hG inferInstance) fun _ => ?_
  exact .bind (triple_local hG inferInstance) fun _ => triple_local hG inferInstance

/-! ## Gas set aside for a child -/

/-- The invariant of a frame that has set gas aside. -/
def Aside (G : Nat) (g : Word) (R : Int) (m : Msg) (a : Word) (c : Ctx) : Prop :=
  ∃ G', G' + g.toNat = G ∧ InFrame G' R m a c

def newAccountGas (charged : Bool) : Word := if charged then sgNewAccount else 0

/-- A frame after an instruction: as before, or short of what a requested child is given and of
the new account it was charged for. -/
def Requested (G : Nat) (R : Int) (m : Msg) (a : Word) : Option ChildReq → Ctx → Prop
  | none => InFrame G R m a
  | some req => Aside G req.msg.gas
      (R - req.msg.reservoir.toNat - (newAccountGas req.newAccountCharged).toNat) m a

omit [Keccak] in
/-- A tracker operation that no frame can fail in. -/
theorem triple_lift_throws {α : Type} {P : Ctx → Prop} {x : StateM α} (hx : Throws Exn.Fatal x)
    (hP : ∀ c c' : Ctx, c'.ev = c.ev → P c → P c') :
    Triple P (liftState x) (fun _ => P) fun e _ => e.Fatal where
  ok {c _ _} h hrun := hP _ _ ((keeps_ev_liftState x).ok hrun) h
  error h hrun := by
    obtain ⟨s, hs, -⟩ := of_liftState_error hrun
    exact hx.error hs

omit [Keccak] in
theorem triple_lift_fatal {α : Type} {P : Ctx → Prop} {x : StateM α} (hx : Throws Exn.Fatal x)
    (hP : ∀ c c' : Ctx, c'.ev = c.ev → P c → P c') :
    Triple P (liftState x) (fun _ => P) (Failing G m a) :=
  (triple_lift_throws hx hP).fails fun _ _ he hne => absurd he hne

omit [Keccak] in
theorem Aside.of_ev {g : Word} {c c' : Ctx} (he : c'.ev = c.ev) (h : Aside G g R m a c) :
    Aside G g R m a c' := by
  obtain ⟨G', hG', hf⟩ := h
  exact ⟨G', hG', hf.of_ev he⟩

omit [Keccak] in
theorem triple_takeCreateGas {E : Exn → Ctx → Prop} :
    Triple (InFrame G R m a) takeCreateGas (fun g => Aside G g R m a) E where
  ok {c c' g} h hrun := by
    cases hrun
    have htotal := h.gas.total
    unfold Frame.gasTotal at htotal
    have hle : c.ev.gasLeft - (c.ev.gasLeft >>> 6) ≤ c.ev.gasLeft := by
      rw [BitVec.le_def, BitVec.toNat_sub_of_le]
      · exact Nat.sub_le _ _
      · rw [BitVec.le_def, BitVec.toNat_ushiftRight]
        exact Nat.shiftRight_le _ _
    have hsub := BitVec.toNat_sub_of_le hle
    have hnat : (c.ev.gasLeft - (c.ev.gasLeft >>> 6)).toNat ≤ c.ev.gasLeft.toNat := hle
    refine ⟨G - (c.ev.gasLeft - (c.ev.gasLeft >>> 6)).toNat, by omega,
      ⟨?_, h.gas.state, h.gas.writes⟩, h.msg, h.auth, h.error, h.stack⟩
    rw [Frame.gasTotal]
    dsimp only
    omega
  error h hrun := by cases hrun

omit [Keccak] in
theorem triple_takeReservoir {g : Word} {E : Exn → Ctx → Prop} :
    Triple (Aside G g R m a) takeReservoir (fun r => Aside G g (R - r.toNat) m a) E where
  ok {c c' r} h hrun := by
    cases hrun
    obtain ⟨G', hG', hg, hm, ha, herr, hs⟩ := h
    have hstate := hg.state
    have hzero : (0 : Word).toNat = 0 := rfl
    refine ⟨G', hG', ⟨hg.total, ?_, hg.writes⟩, hm, ha, herr, hs⟩
    unfold Frame.stateBalance at hstate ⊢
    dsimp only
    omega
  error h hrun := by cases hrun

theorem triple_chargeNewContract (hG : G < 2 ^ 52) (hR : R + 981 * G < 2 ^ 62) (addr : Address) :
    Triple (InFrame G R m a) (chargeNewContract w addr)
      (fun charged => InFrame G (R - (newAccountGas charged).toNat) m a) (Failing G m a) := by
  unfold chargeNewContract
  refine .bind (triple_lift _) fun alive => ?_
  cases alive with
  | true => exact .bind (triple_chargeStateGas hG hR 0) fun _ => .pure fun _ h => h
  | false => exact .bind (triple_chargeStateGas hG hR sgNewAccount) fun _ => .pure fun _ h => h

omit [Keccak] in
theorem triple_creditNewAccount (hG : G < 2 ^ 52) (hR : R + 981 * G < 2 ^ 62) (charged : Bool)
    {E : Exn → Ctx → Prop} :
    Triple (InFrame G (R - (newAccountGas charged).toNat) m a) (creditNewAccount charged)
      (fun _ => InFrame G R m a) E :=
  triple_credit hG hR _

theorem triple_createCollision (hG : G < 2 ^ 52) (hR : R + 981 * G < 2 ^ 62) (sender : Address) (g : Word)
    (charged : Bool) :
    Triple (Aside G g (R - (newAccountGas charged).toNat) m a)
      (createCollision w sender g charged) (fun _ => InFrame G R m a) (Failing G m a) := by
  unfold createCollision
  refine .bind (triple_lift_fatal inferInstance fun _ _ he => .of_ev he) fun _ => ?_
  refine .bind (triple_modifyEv (Q := InFrame G (R - (newAccountGas charged).toNat) m a)
    fun c h => ?_) fun _ => ?_
  · obtain ⟨G', hG', hg, hm, ha, herr, hs⟩ := h
    have htotal := hg.total
    have hwrites := hg.writes
    unfold Frame.gasTotal at htotal
    have hsum : (c.ev.regularGasUsed + g).toNat = c.ev.regularGasUsed.toNat + g.toNat := by
      rw [BitVec.toNat_add]
      omega
    refine ⟨⟨?_, hg.state, ?_⟩, hm, ha, herr, hs⟩
    · rw [Frame.gasTotal, hsum]
      dsimp only
      omega
    · rw [hsum]
      dsimp only
      omega
  · exact .bind (triple_creditNewAccount hG hR charged) fun _ => triple_local hG inferInstance

theorem triple_genericCreate (hG : G < 2 ^ 52) (hR : R + 981 * G < 2 ^ 61) (endowment : U256)
    (contract : Address) (mstart msize : Word) :
    Triple (InFrame G R m a) (genericCreate w endowment contract mstart msize)
      (Requested G R m a) (Failing G m a) := by
  unfold genericCreate
  dsimp only
  split
  · exact triple_throwEvm
  refine .bind (triple_local hG inferInstance) fun e => ?_
  refine .bind (triple_local hG inferInstance) fun _ => ?_
  refine .bind (triple_local hG inferInstance) fun e' => .bind (triple_lift _) fun sender => ?_
  split
  · exact .bind (triple_local hG inferInstance) fun _ => .pure fun _ h => h
  refine .bind (triple_local hG inferInstance) fun _ => ?_
  refine .bind (triple_chargeNewContract w hG (by omega) contract) fun charged => ?_
  refine .bind triple_takeCreateGas fun g => ?_
  refine .bind (triple_lift_fatal inferInstance fun _ _ he => .of_ev he) fun deployable => ?_
  split
  · refine .bind triple_takeReservoir fun reservoir => ?_
    refine .bind (triple_lift_fatal inferInstance fun _ _ he => .of_ev he) fun _ => ?_
    refine .pure fun c h => ?_
    obtain ⟨G', hG', hf⟩ := h
    exact ⟨G', hG', hf.mono (by dsimp only [childMessage]; omega)⟩
  · exact .bind (triple_createCollision w hG (by omega) _ g charged) fun _ =>
      .pure fun _ h => h

omit [Keccak] in
theorem triple_pcAddIfDone (hG : G < 2 ^ 52) (started : Option ChildReq) :
    Triple (Requested G R m a started) (pcAddIfDone started) (Requested G R m a)
      (Failing G m a) := by
  cases started with
  | none =>
    exact .bind (triple_local hG (inferInstanceAs (Keeps Local (pcAdd 1)))) fun _ =>
      .pure fun _ h => h
  | some req => exact .pure fun _ h => h

theorem triple_opCreate (hG : G < 2 ^ 52) (hR : R + 981 * G < 2 ^ 61) :
    Triple (InFrame G R m a) (opCreate w) (Requested G R m a) (Failing G m a) := by
  unfold opCreate
  refine .bind (triple_local hG inferInstance) fun _ => ?_
  refine .bind (triple_local hG inferInstance) fun endowment => ?_
  refine .bind (triple_local hG inferInstance) fun mstart => ?_
  refine .bind (triple_local hG inferInstance) fun msize => ?_
  refine .bind (triple_local hG inferInstance) fun x => ?_
  refine .bind (triple_local hG inferInstance) fun _ => ?_
  refine .bind (triple_local hG inferInstance) fun _ => ?_
  refine .bind (triple_local hG inferInstance) fun e => .bind (triple_lift _) fun acct => ?_
  exact .bind (triple_genericCreate w hG hR _ _ _ _) fun started => triple_pcAddIfDone hG started

theorem triple_opCreate2 (hG : G < 2 ^ 52) (hR : R + 981 * G < 2 ^ 61) :
    Triple (InFrame G R m a) (opCreate2 w) (Requested G R m a) (Failing G m a) := by
  unfold opCreate2
  refine .bind (triple_local hG inferInstance) fun _ => ?_
  refine .bind (triple_local hG inferInstance) fun endowment => ?_
  refine .bind (triple_local hG inferInstance) fun mstart => ?_
  refine .bind (triple_local hG inferInstance) fun msize => ?_
  refine .bind (triple_local hG inferInstance) fun salt => ?_
  refine .bind (triple_local hG inferInstance) fun x => ?_
  refine .bind (triple_local hG inferInstance) fun _ => ?_
  refine .bind (triple_local hG inferInstance) fun _ => ?_
  refine .bind (triple_local hG inferInstance) fun e => ?_
  exact .bind (triple_genericCreate w hG hR _ _ _ _) fun started => triple_pcAddIfDone hG started

/-! ## Room on the stack -/

/-- A push will not overflow the stack. -/
def Room (c : Ctx) : Prop := c.ev.stack.length < stackDepthLimit

/-- The stack does not grow. -/
def NoPush (c c' : Ctx) : Prop := c'.ev.stack.length ≤ c.ev.stack.length

instance : Std.Refl NoPush := ⟨fun _ => Nat.le_refl _⟩

instance : IsTrans Ctx NoPush := ⟨fun _ _ _ h h' => Nat.le_trans h' h⟩

section

omit [Keccak]

instance : Keeps NoPush getEv := by unfold getEv; infer_instance

instance {α : Type} (e : EvmErr) : Keeps NoPush (throwEvm e : EvmM α) := by
  unfold throwEvm
  infer_instance

instance {α : Type} (x : StateM α) : Keeps NoPush (liftState x) :=
  (keeps_ev_liftState x).mono fun _ _ h => by rw [NoPush, h]

instance : Keeps NoPush stackPop := by
  refine ⟨fun c => ?_⟩
  rw [stackPop_run]
  split
  · exact Nat.le_refl _
  · exact (List.length_tail (l := c.ev.stack)).trans_le (Nat.sub_le _ 1)

instance : Keeps NoPush popRanges := by
  unfold popRanges
  infer_instance

instance (amount : Word) : Keeps NoPush (chargeGas amount) := by
  refine ⟨fun c => ?_⟩
  rw [chargeGas_run]
  split <;> exact Nat.le_refl _

instance (amount : Word) : Keeps NoPush (chargeStateGas amount) := by
  refine ⟨fun c => ?_⟩
  rw [chargeStateGas_run]
  split
  · exact Nat.le_refl _
  · split <;> exact Nat.le_refl _

instance (addr : Address) : Keeps NoPush (isWarmAddress addr) := by
  unfold isWarmAddress
  infer_instance

instance (addr : Address) : Keeps NoPush (warmAddress addr) := ⟨fun _ => Nat.le_refl _⟩

instance (warm : Bool) (addr : Address) : Keeps NoPush (warmUnless warm addr) := by
  unfold warmUnless
  infer_instance

instance (s k t l : U256) : Keeps NoPush (extendMemoryCost2 s k t l) := by
  unfold extendMemoryCost2
  infer_instance

instance (k : Word) : Keeps NoPush (extendMemory k) := ⟨fun _ => Nat.le_refl _⟩

instance : Keeps NoPush takeReservoir := ⟨fun _ => Nat.le_refl _⟩

instance (delegates : Bool) (addr : Address) (cost : Word) :
    Keeps NoPush (accessDelegate delegates addr cost) := by
  unfold accessDelegate
  infer_instance

end

instance (addr : Address) : Keeps NoPush (calculateDelegationCost w addr) := by
  unfold calculateDelegationCost
  infer_instance

instance (addr : Address) (value : U256) (r : CallRanges) :
    Keeps NoPush (accessCallee w addr value r) := by
  unfold accessCallee
  infer_instance

instance (addr : Address) (value : U256) : Keeps NoPush (chargeIfDead w addr value) := by
  unfold chargeIfDead
  infer_instance

end

/-! ## Calls -/

section

variable {G : Nat} {R : Int} {m : Msg} {a : Word} {n : Nat}

/-- What a call adds to the gas of its child. -/
def stipend (value : U256) : Word := if value = 0 then 0 else gCallStipend

/-- A frame inside a call instruction. -/
structure Calling (n : Nat) (G : Nat) (R : Int) (m : Msg) (a : Word) (c : Ctx) : Prop where
  frame : InFrame G R m a c
  funded : Funded n c
  room : Room c

theorem Room.of_noPush {c c' : Ctx} (h : Room c) (hs : NoPush c c') : Room c' :=
  Nat.lt_of_le_of_lt hs h

theorem triple_calling (hG : G < 2 ^ 52) {α : Type} {x : EvmM α} (hx : Keeps Local x)
    (hn : Keeps NoPush x) :
    Triple (Calling n G R m a) x (fun _ => Calling n G R m a) (Failing G m a) :=
  (((triple_funded_local hG hx).frame hn fun _ _ h hs => h.of_noPush hs).pre
    fun _ h => ⟨⟨h.frame, h.funded⟩, h.room⟩).post fun _ _ h => ⟨h.1.1, h.1.2, h.2⟩

theorem triple_stackPop (hG : G < 2 ^ 52) :
    Triple (InFrame G R m a) stackPop (fun _ => Calling 0 G R m a) (Failing G m a) where
  ok {c c' _} h hrun := by
    have hl : Local c c' := Keeps.ok inferInstance hrun
    have hf := h.of_local hG hl
    refine ⟨hf, hf.gas.writes, ?_⟩
    have hstack := h.stack
    rw [stackPop_run] at hrun
    unfold Room
    cases hs : c.ev.stack with
    | nil => simp [hs] at hrun
    | cons v rest =>
      rw [hs] at hrun hstack
      cases hrun
      exact hstack
  error h hrun := (triple_local hG inferInstance).error h hrun

theorem triple_chargeGas_calling (hG : G < 2 ^ 52) {amount : Word} (hamount : n ≤ amount.toNat) :
    Triple (Calling 0 G R m a) (chargeGas amount) (fun _ => Calling n G R m a)
      (Failing G m a) :=
  (((triple_chargeGas_funded hG hamount).frame inferInstance
    fun _ _ h hs => Room.of_noPush h hs).pre fun _ h => ⟨h.frame, h.room⟩).post
    fun _ _ h => ⟨h.1.1, h.1.2, h.2⟩

theorem toNat_le_addSat (x y : Word) : x.toNat ≤ (addSat x y).toNat := by
  unfold addSat
  dsimp only
  split
  · exact BitVec.toNat_lt_twoPow_of_le (Nat.le_refl 64) |> Nat.le_pred_of_lt
  · next h => exact BitVec.not_lt.mp h

/-- A call that sends a value pays more than the stipend. -/
theorem stipend_le (value : U256) (warm : Bool) (x : Word) :
    (stipend value).toNat ≤ (addSat ((if warm then gWarmAccess else gColdAccountAccess) +
      (if value = 0 then 0 else gCallValue)) x).toNat := by
  refine le_trans ?_ (toNat_le_addSat _ x)
  unfold stipend
  split
  · exact Nat.zero_le _
  · cases warm <;> decide

variable [Keccak] (w : Witness)

theorem triple_accessCallee (hG : G < 2 ^ 52) (addr : Address) (value : U256) (r : CallRanges) :
    Triple (Calling 0 G R m a) (accessCallee w addr value r)
      (fun _ => Calling (stipend value).toNat G R m a) (Failing G m a) := by
  unfold accessCallee
  refine .bind (triple_calling hG inferInstance inferInstance) fun x => ?_
  refine .bind (triple_calling hG inferInstance inferInstance) fun warm => ?_
  refine .bind (triple_chargeGas_calling hG (stipend_le value warm x.1)) fun _ => ?_
  refine .bind (triple_calling hG inferInstance inferInstance) fun _ => ?_
  refine .bind (triple_calling hG inferInstance inferInstance) fun dl => ?_
  refine .bind (triple_calling hG inferInstance inferInstance) fun _ => ?_
  refine .bind (triple_calling hG inferInstance inferInstance) fun code => ?_
  exact .pure fun _ h => h

omit [Keccak] in
theorem Calling.of_ev {c c' : Ctx} (he : c'.ev = c.ev) (h : Calling n G R m a c) :
    Calling n G R m a c' :=
  ⟨h.frame.of_ev he, h.funded.of_same ⟨by rw [he], by rw [he]⟩, by
    rw [Room, he]
    exact h.room⟩

theorem triple_chargeIfDead (hG : G < 2 ^ 52) (hR : R + 981 * G < 2 ^ 62) (addr : Address) (value : U256) :
    Triple (Calling n G R m a) (chargeIfDead w addr value)
      (fun charged => Calling n G (R - (newAccountGas charged).toNat) m a) (Failing G m a) := by
  have hzero : R - (newAccountGas false).toNat = R := Int.sub_zero R
  have hkeep : Triple (Calling n G R m a) (chargeStateGas sgNewAccount)
      (fun _ => Calling n G (R - (newAccountGas true).toNat) m a) (Failing G m a) :=
    ((((triple_chargeStateGas hG hR sgNewAccount).frame (keeps_chargeStateGas _)
      fun _ _ h hs => Funded.of_same h hs).frame (S := NoPush) inferInstance
      fun _ _ h hs => Room.of_noPush h hs).pre fun _ h => ⟨⟨h.frame, h.funded⟩, h.room⟩).post
      fun _ _ h => ⟨h.1.1, h.1.2, h.2⟩
  unfold chargeIfDead
  split
  · exact .pure fun _ h => by rwa [hzero]
  refine .bind (triple_calling hG inferInstance inferInstance) fun alive => ?_
  cases alive with
  | true => exact .pure fun _ h => by rwa [hzero]
  | false => exact .bind hkeep fun _ => .pure fun _ h => h

omit [Keccak] in
/-- With nothing else to pay, the gas of a child is at most what is left and the stipend. -/
theorem calculateMessageCallGas_zero (value : U256) (gas gasLeft : Word) :
    ∃ g : Word, g ≤ gasLeft ∧
      calculateMessageCallGas value gas gasLeft 0 0 = (g, g + stipend value) := by
  have hzero : ∀ x : Word, x - 0 - 0 = x := fun x => by simp
  refine ⟨minWord gas (gasLeft - (gasLeft >>> 6)), ?_, ?_⟩
  · have hshift : gasLeft >>> 6 ≤ gasLeft := by
      rw [BitVec.le_def, BitVec.toNat_ushiftRight]
      exact Nat.shiftRight_le _ _
    have hmx : gasLeft - (gasLeft >>> 6) ≤ gasLeft := by
      rw [BitVec.le_def, BitVec.toNat_sub_of_le hshift]
      exact Nat.sub_le _ _
    unfold minWord
    split
    · next hlt => exact BitVec.le_trans (BitVec.le_of_lt hlt) hmx
    · exact hmx
  · unfold calculateMessageCallGas
    dsimp only
    have hneed : addSat 0 0 ≤ gasLeft := Nat.zero_le gasLeft.toNat
    rw [if_neg (BitVec.not_lt.mpr hneed), hzero]
    exact congrArg₂ Prod.mk (BitVec.add_zero _) rfl

/-- A frame that has set aside the gas of a call. -/
structure Split (G : Nat) (g : Word) (R : Int) (m : Msg) (a : Word) (c : Ctx) : Prop where
  aside : Aside G g R m a c
  room : Room c

omit [Keccak] in
theorem Split.of_ev {g : Word} {c c' : Ctx} (he : c'.ev = c.ev) (h : Split G g R m a c) :
    Split G g R m a c' :=
  ⟨h.aside.of_ev he, by
    rw [Room, he]
    exact h.room⟩

/-- The gas a child is given counts as used when it was charged, and is not used yet. -/
def Frame.giveGas (e : Frame) (charged given : Word) : Frame :=
  { e with
    gasLeft := e.gasLeft - charged
    regularGasUsed := e.regularGasUsed + charged - given }

omit [Keccak] in
theorem Calling.split {value : U256} {c : Ctx} {g : Word}
    (h : Calling (stipend value).toNat G R m a c) (hG : G < 2 ^ 52) (hg : g ≤ c.ev.gasLeft) :
    Split G (g + stipend value) R m a { c with ev := c.ev.giveGas g (g + stipend value) } := by
  obtain ⟨⟨hgas, hm, ha, herr, hs⟩, hpaid, hroom⟩ := h
  have htotal := hgas.total
  have hnat : g.toNat ≤ c.ev.gasLeft.toNat := hg
  have hstip : (stipend value).toNat ≤ 2300 := by
    unfold stipend
    split <;> decide
  unfold Funded at hpaid
  unfold Frame.gasTotal at htotal
  have hleft : (c.ev.gasLeft - g).toNat = c.ev.gasLeft.toNat - g.toNat :=
    BitVec.toNat_sub_of_le hg
  have hgiven : (g + stipend value).toNat = g.toNat + (stipend value).toNat := by
    rw [BitVec.toNat_add]
    omega
  have hused : (c.ev.regularGasUsed + g).toNat = c.ev.regularGasUsed.toNat + g.toNat := by
    rw [BitVec.toNat_add]
    omega
  have hrest : (c.ev.regularGasUsed + g - (g + stipend value)).toNat =
      c.ev.regularGasUsed.toNat - (stipend value).toNat := by
    rw [BitVec.toNat_sub_of_le, hused, hgiven]
    · omega
    · rw [BitVec.le_def, hused, hgiven]
      omega
  refine ⟨⟨G - (g + stipend value).toNat, by omega, ⟨?_, hgas.state, ?_⟩, hm, ha, herr, hs⟩, hroom⟩
  · rw [Frame.gasTotal]
    simp only [Frame.giveGas]
    rw [hleft, hrest]
    omega
  · simp only [Frame.giveGas]
    rw [hrest]
    omega

omit [Keccak] in
theorem triple_getEv {P : Ctx → Prop} {E : Exn → Ctx → Prop} :
    Triple P getEv (fun e c => e = c.ev ∧ P c) E where
  ok h hrun := by
    cases hrun
    exact ⟨rfl, h⟩
  error h hrun := by cases hrun

omit [Keccak] in
theorem triple_splitCallGas (hG : G < 2 ^ 52) (value gas : U256) (expandBy : Word) :
    Triple (Calling (stipend value).toNat G R m a) (splitCallGas value gas expandBy)
      (fun g => Split G g.1 (R - g.2.toNat) m a) (Failing G m a) := by
  unfold splitCallGas
  refine .bind triple_getEv fun e => ?_
  obtain ⟨g, hg, hmcg⟩ := calculateMessageCallGas_zero value (satWord gas) e.gasLeft
  dsimp only
  rw [hmcg]
  refine .bind (Q := fun _ c => Split G (g + stipend value) R m a { c with
    ev := { c.ev with regularGasUsed := c.ev.regularGasUsed - (g + stipend value) } }) ?_ fun _ => ?_
  · refine ⟨fun {c c' u} h hrun => ?_, fun {c c' u} h hrun => ?_⟩ <;>
      obtain ⟨rfl, h⟩ := h <;>
      rw [chargeGas_run, if_neg (BitVec.not_lt.mpr hg)] at hrun <;>
      cases hrun
    exact h.split hG hg
  refine .bind (triple_modifyEv fun c h => h) fun _ => ?_
  refine .bind (triple_modifyEv (Q := Split G (g + stipend value) R m a) fun c h => ?_) fun _ => ?_
  · obtain ⟨⟨G', hG', hf⟩, hroom⟩ := h
    have hl := Keeps.ok (R := Local) (x := extendMemory expandBy) (s := c) inferInstance rfl
    exact ⟨⟨G', hG', hf.of_local (by omega) hl⟩, hroom⟩
  refine .bind (((triple_takeReservoir (E := Failing G m a)).frame (S := NoPush) inferInstance
    fun _ _ h hs => Room.of_noPush h hs).pre fun _ h => ⟨h.aside, h.room⟩) fun reservoir => ?_
  exact .pure fun _ h => ⟨h.1, h.2⟩

omit [Keccak] in
/-- Gas given back: the frame has its own sums again. -/
theorem triple_returnCallGas (hG : G < 2 ^ 52) (hR : R + 981 * G < 2 ^ 62) {g reservoir : Word}
    {E : Exn → Ctx → Prop} :
    Triple (Aside G g (R - reservoir.toNat) m a) (returnCallGas g reservoir)
      (fun _ => InFrame G R m a) E := by
  refine triple_modifyEv fun c h => ?_
  obtain ⟨G', hG', hgas, hm, ha, herr, hs⟩ := h
  have htotal := hgas.total
  have hstate := hgas.state
  have hwrites := hgas.writes
  have hnet := neg_le_stateNet c.ev.slotWrites
  unfold Frame.gasTotal at htotal
  unfold Frame.stateBalance at hstate
  have hleft : (c.ev.gasLeft + g).toNat = c.ev.gasLeft.toNat + g.toNat := by
    rw [BitVec.toNat_add]
    omega
  have hsum : (c.ev.stateGasLeft + reservoir).toNat =
      c.ev.stateGasLeft.toNat + reservoir.toNat := by
    rw [BitVec.toNat_add]
    omega
  refine ⟨⟨?_, ?_, hwrites⟩, hm, ha, herr, hs⟩
  · rw [Frame.gasTotal]
    dsimp only
    omega
  · rw [Frame.stateBalance]
    dsimp only
    omega

omit [Keccak] in
/-- A push on a stack with room. -/
theorem triple_stackPush_room {g : Word} (v : U256) {E : Exn → Ctx → Prop} :
    Triple (Split G g R m a) (stackPush v) (fun _ => Aside G g R m a) E where
  ok {c c' _} h hrun := by
    rw [stackPush_run, if_neg (Nat.not_le.mpr h.room)] at hrun
    cases hrun
    obtain ⟨⟨G', hG', hgas, hm, ha, herr, -⟩, hroom⟩ := h
    exact ⟨G', hG', ⟨hgas.total, hgas.state, hgas.writes⟩, hm, ha, herr, hroom⟩
  error {c c' _} h hrun := by
    rw [stackPush_run, if_neg (Nat.not_le.mpr h.room)] at hrun
    cases hrun

omit [Keccak] in
theorem triple_setRetdata {g : Word} (b : Bytes) {E : Exn → Ctx → Prop} :
    Triple (Aside G g R m a) (setRetdata b) (fun _ => Aside G g R m a) E :=
  triple_modifyEv fun _ h => by
    obtain ⟨G', hG', hgas, hm, ha, herr, hs⟩ := h
    exact ⟨G', hG', ⟨hgas.total, hgas.state, hgas.writes⟩, hm, ha, herr, hs⟩

omit [Keccak] in
theorem triple_callUnpaid (hG : G < 2 ^ 52) (hR : R + 981 * G < 2 ^ 61) {g k : Word}
    (charged : Bool) :
    Triple (Split G g (R - (newAccountGas charged).toNat - k.toNat) m a)
      (callUnpaid g k charged) (Requested G R m a) (Failing G m a) := by
  unfold callUnpaid
  refine .bind (triple_stackPush_room 0) fun _ => ?_
  refine .bind (triple_setRetdata []) fun _ => ?_
  refine .bind (triple_returnCallGas hG (by omega)) fun _ => ?_
  exact .bind (triple_creditNewAccount hG (by omega) charged) fun _ => .pure fun _ h => h

omit [Keccak] in
theorem triple_genericCall (hG : G < 2 ^ 52) (hR : R + 981 * G < 2 ^ 61) {g k : Word}
    (value : U256) (caller dst codeAddress : Address) (transfer isStatic : Bool) (r : CallRanges)
    (code : Bytes) (disablePre charged : Bool) :
    Triple (Split G g (R - (newAccountGas charged).toNat - k.toNat) m a)
      (genericCall g k value caller dst codeAddress transfer isStatic r code disablePre
        charged) (Requested G R m a) (Failing G m a) := by
  unfold genericCall
  refine .bind ((triple_setRetdata []).pre fun _ h => h.aside) fun _ => ?_
  refine .bind (triple_getEv.post fun _ _ h => h.2) fun e => ?_
  split
  · refine .bind (triple_returnCallGas hG (by omega)) fun _ => ?_
    refine .bind (triple_creditNewAccount hG (by omega) charged) fun _ => ?_
    exact .bind (triple_local hG inferInstance) fun _ => .pure fun _ h => h
  · refine .pure fun c h => ?_
    obtain ⟨G', hG', hf⟩ := h
    exact ⟨G', hG', hf.mono (by dsimp only [childMessage]; omega)⟩

instance (addr : Address) : Throws Exn.Fatal (loadAccount w addr) := by
  unfold loadAccount
  infer_instance

/-- The end of a call instruction that sends a value: check the balance, request the child. -/
theorem triple_startCall (hG : G < 2 ^ 52) {g : Word × Word} {R' : Int} (addr : Address)
    (value : U256) {call unpaid : EvmM (Option ChildReq)}
    (hcall : Triple (Split G g.1 R' m a) call (Requested G R m a) (Failing G m a))
    (hunpaid : Triple (Split G g.1 R' m a) unpaid (Requested G R m a) (Failing G m a)) :
    Triple (Split G g.1 R' m a)
      (do let sender ← liftState (loadAccount w addr)
          let started ← if sender.balance < value then unpaid else call
          pcAddIfDone started) (Requested G R m a) (Failing G m a) := by
  refine .bind (triple_lift_fatal inferInstance fun _ _ he => .of_ev he) fun sender => ?_
  dsimp only
  split
  · exact .bind hunpaid fun started => triple_pcAddIfDone hG started
  · exact .bind hcall fun started => triple_pcAddIfDone hG started

theorem triple_opCall (hG : G < 2 ^ 52) (hR : R + 981 * G < 2 ^ 61) :
    Triple (InFrame G R m a) (opCall w) (Requested G R m a) (Failing G m a) := by
  unfold opCall
  refine .bind (triple_stackPop hG) fun gas => ?_
  refine .bind (triple_calling hG inferInstance inferInstance) fun tov => ?_
  dsimp only
  refine .bind (triple_calling hG inferInstance inferInstance) fun value => ?_
  refine .bind (triple_calling hG inferInstance inferInstance) fun r => ?_
  refine .bind (triple_calling hG inferInstance inferInstance) fun e => ?_
  split
  · exact triple_throwEvm.pre fun _ h => h.frame
  refine .bind (triple_accessCallee w hG _ value r) fun callee => ?_
  refine .bind (triple_chargeIfDead w hG (by omega) _ value) fun charged => ?_
  refine .bind (triple_splitCallGas hG value gas _) fun g => ?_
  exact triple_startCall w hG _ value (triple_genericCall hG hR _ _ _ _ _ _ _ _ _ charged)
    (triple_callUnpaid hG hR charged)

theorem triple_opCallcode (hG : G < 2 ^ 52) (hR : R + 981 * G < 2 ^ 61) :
    Triple (InFrame G R m a) (opCallcode w) (Requested G R m a) (Failing G m a) := by
  have hzero : R - (newAccountGas false).toNat = R := Int.sub_zero R
  unfold opCallcode
  refine .bind (triple_stackPop hG) fun gas => ?_
  refine .bind (triple_calling hG inferInstance inferInstance) fun cav => ?_
  refine .bind (triple_calling hG inferInstance inferInstance) fun value => ?_
  refine .bind (triple_calling hG inferInstance inferInstance) fun r => ?_
  refine .bind (triple_calling hG inferInstance inferInstance) fun e => ?_
  refine .bind (triple_accessCallee w hG _ value r) fun callee => ?_
  refine .bind (triple_splitCallGas hG value gas _) fun g => ?_
  have hcall := triple_genericCall (m := m) (a := a) hG hR (g := g.1) (k := g.2) value
    e.msg.currentTarget e.msg.currentTarget callee.codeAddress true false r callee.code
    callee.delegates false
  have hunpaid := triple_callUnpaid (m := m) (a := a) hG hR (g := g.1) (k := g.2) false
  rw [hzero] at hcall hunpaid
  exact triple_startCall w hG _ value hcall hunpaid

theorem triple_opDelegatecall (hG : G < 2 ^ 52) (hR : R + 981 * G < 2 ^ 61) :
    Triple (InFrame G R m a) (opDelegatecall w) (Requested G R m a) (Failing G m a) := by
  have hzero : R - (newAccountGas false).toNat = R := Int.sub_zero R
  unfold opDelegatecall
  refine .bind (triple_stackPop hG) fun gas => ?_
  refine .bind (triple_calling hG inferInstance inferInstance) fun cav => ?_
  refine .bind (triple_calling hG inferInstance inferInstance) fun r => ?_
  refine .bind (triple_calling hG inferInstance inferInstance) fun e => ?_
  refine .bind (triple_accessCallee w hG _ 0 r) fun callee => ?_
  refine .bind (triple_splitCallGas hG 0 gas _) fun g => ?_
  have hcall := triple_genericCall (m := m) (a := a) hG hR (g := g.1) (k := g.2)
    e.msg.value e.msg.caller e.msg.currentTarget callee.codeAddress false false r callee.code
    callee.delegates false
  rw [hzero] at hcall
  exact .bind hcall fun started => triple_pcAddIfDone hG started

theorem triple_opStaticcall (hG : G < 2 ^ 52) (hR : R + 981 * G < 2 ^ 61) :
    Triple (InFrame G R m a) (opStaticcall w) (Requested G R m a) (Failing G m a) := by
  have hzero : R - (newAccountGas false).toNat = R := Int.sub_zero R
  unfold opStaticcall
  refine .bind (triple_stackPop hG) fun gas => ?_
  refine .bind (triple_calling hG inferInstance inferInstance) fun tov => ?_
  dsimp only
  refine .bind (triple_calling hG inferInstance inferInstance) fun r => ?_
  refine .bind (triple_calling hG inferInstance inferInstance) fun e => ?_
  refine .bind (triple_accessCallee w hG _ 0 r) fun callee => ?_
  refine .bind (triple_splitCallGas hG 0 gas _) fun g => ?_
  have hcall := triple_genericCall (m := m) (a := a) hG hR (g := g.1) (k := g.2) 0
    e.msg.currentTarget (toAddressMasked tov) callee.codeAddress true true r callee.code
    callee.delegates false
  rw [hzero] at hcall
  exact .bind hcall fun started => triple_pcAddIfDone hG started

/-! ## Dispatch -/

omit [Keccak] in
theorem triple_plain {x : EvmM Unit}
    (h : Triple (InFrame G R m a) x (fun _ => InFrame G R m a) (Failing G m a)) :
    Triple (InFrame G R m a) (plain x) (Requested G R m a) (Failing G m a) :=
  .bind h fun _ => .pure fun _ h => h

theorem triple_opDispatch (hG : G < 2 ^ 52) (hR : R + 981 * G < 2 ^ 61) (op : Nat) :
    Triple (InFrame G R m a) (opDispatch w op) (Requested G R m a) (Failing G m a) :=
  opDispatch_forall w (P := fun x => Triple (InFrame G R m a) x (Requested G R m a) (Failing G m a))
    (fun _ hx => triple_plain (triple_local hG hx.keeps))
    (triple_plain (triple_local hG inferInstance)) (triple_plain (triple_opSstore w hG hR))
    (triple_plain (triple_opSelfdestruct w hG hR))
    (triple_opCreate w hG hR) (triple_opCall w hG hR) (triple_opCallcode w hG hR)
    (triple_opDelegatecall w hG hR) (triple_opCreate2 w hG hR) (triple_opStaticcall w hG hR)
    (Triple.throw fun _ h => h.failing _) op

end

end StatelessGuest
