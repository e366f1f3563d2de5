import StatelessGuest.Evm.GasOps
import StatelessGuest.Evm.Upkeep
import StatelessGuest.Evm.Saturation

/-!
# Metering

The regular gas of a frame, left, used and spilled, only ever shrinks, and what is used only
ever grows. This needs no bound on the gas but that it is a word's, and none on the state gas.

* `Metered`: what every step inside a frame keeps.
* `Meters k x`: `x` uses at least `k` gas.
-/

namespace StatelessGuest

open Lib

/-- The gas of the frame shrinks and the gas used grows. -/
def Metered (c c' : Ctx) : Prop :=
  c.ev.gasTotal < 2 ^ 64 → c'.ev.gasTotal ≤ c.ev.gasTotal ∧
    c.ev.regularGasUsed.toNat ≤ c'.ev.regularGasUsed.toNat

theorem Metered.of_eq {c c' : Ctx} (hl : c'.ev.gasLeft = c.ev.gasLeft)
    (hu : c'.ev.regularGasUsed = c.ev.regularGasUsed)
    (hs : c'.ev.stateGasSpilled = c.ev.stateGasSpilled) : Metered c c' := by
  intro _
  unfold Frame.gasTotal
  rw [hl, hu, hs]
  exact ⟨Nat.le_refl _, Nat.le_refl _⟩

theorem Metered.of_local {c c' : Ctx} (h : FrameLocal c.ev c'.ev) : Metered c c' := by
  intro htotal
  have hcore := h.core
  simp only [Frame.core, FrameCore.mk.injEq] at hcore
  obtain ⟨-, -, hp, -⟩ := hcore
  have hle : c'.ev.gasLeft.toNat ≤ c.ev.gasLeft.toNat := h.le
  have hmod := congrArg BitVec.toNat h.gas
  rw [BitVec.toNat_add, BitVec.toNat_add] at hmod
  have hlt := c'.ev.regularGasUsed.isLt
  unfold Frame.gasTotal at htotal ⊢
  rw [hp]
  omega

theorem metered_chargeStateGas (amount : Word) : Keeps Metered (chargeStateGas amount) := by
  refine ⟨fun c => ?_⟩
  rw [chargeStateGas_run]
  split
  · exact .of_eq rfl rfl rfl
  split
  · next hgt hle =>
    intro htotal
    have hgt' : c.ev.stateGasLeft.toNat < amount.toNat := BitVec.not_le.mp hgt
    have hle' : amount.toNat ≤ (addSat c.ev.stateGasLeft c.ev.gasLeft).toNat := hle
    rw [addSat_toNat] at hle'
    have hrem : (amount - c.ev.stateGasLeft).toNat = amount.toNat - c.ev.stateGasLeft.toNat :=
      BitVec.toNat_sub_of_le (Nat.le_of_lt hgt')
    have hleft : (c.ev.gasLeft - (amount - c.ev.stateGasLeft)).toNat =
        c.ev.gasLeft.toNat - (amount.toNat - c.ev.stateGasLeft.toNat) := by
      rw [BitVec.toNat_sub_of_le, hrem]
      rw [BitVec.le_def, hrem]
      omega
    have hspilled : (c.ev.stateGasSpilled + (amount - c.ev.stateGasLeft)).toNat ≤
        c.ev.stateGasSpilled.toNat + (amount.toNat - c.ev.stateGasLeft.toNat) := by
      rw [BitVec.toNat_add, hrem]
      exact Nat.mod_le _ _
    unfold Frame.gasTotal at htotal ⊢
    dsimp only [final]
    rw [hleft]
    omega
  · exact .of_eq rfl rfl rfl

theorem metered_credit (amount : Word) : Keeps Metered (creditStateGasRefund amount) := by
  refine Keeps.modify fun c htotal => ?_
  have hmin := minWord_toNat amount c.ev.stateGasSpilled
  have hspilled : (c.ev.stateGasSpilled - minWord amount c.ev.stateGasSpilled).toNat =
      c.ev.stateGasSpilled.toNat - min amount.toNat c.ev.stateGasSpilled.toNat := by
    rw [BitVec.toNat_sub_of_le, hmin]
    rw [BitVec.le_def, hmin]
    omega
  have hleft : (c.ev.gasLeft + minWord amount c.ev.stateGasSpilled).toNat ≤
      c.ev.gasLeft.toNat + min amount.toNat c.ev.stateGasSpilled.toNat := by
    rw [BitVec.toNat_add, hmin]
    exact Nat.mod_le _ _
  refine ⟨?_, Nat.le_refl _⟩
  unfold Frame.gasTotal
  simp only [Frame.creditStateGasRefund]
  rw [hspilled]
  omega

theorem gasTotal_refill_le (e : Frame) : e.refillFrameStateGas.gasTotal ≤ e.gasTotal := by
  unfold Frame.gasTotal
  simp only [Frame.refillFrameStateGas]
  rw [BitVec.toNat_add]
  have hzero : (0 : Word).toNat = 0 := rfl
  omega

theorem metered_halt (err : EvmErr) : Keeps Metered (frameHalt err) := by
  refine Keeps.modify fun c htotal => ?_
  unfold Frame.gasTotal at htotal
  have hzero : (0 : Word).toNat = 0 := rfl
  have hsum : (c.ev.regularGasUsed + c.ev.gasLeft).toNat =
      c.ev.regularGasUsed.toNat + c.ev.gasLeft.toNat := by
    rw [BitVec.toNat_add, Nat.mod_eq_of_lt (by omega)]
  unfold Frame.gasTotal
  dsimp only
  rw [hsum, hzero]
  omega

instance : Ordinary Metered where
  refl c := .of_eq rfl rfl rfl
  trans _ _ _ h h' := fun ht => by
    have h₁ := h ht
    have h₂ := h' (Nat.lt_of_le_of_lt h₁.1 ht)
    exact ⟨h₂.1.trans h₁.1, h₁.2.trans h₂.2⟩
  frame c _ h := .of_local h
  read _ _ _ := .of_eq rfl rfl rfl
  warmAddress _ _ := .of_eq rfl rfl rfl
  warmStorageKey _ _ := .of_eq rfl rfl rfl

instance : Upkeep Metered where
  tracker _ _ := .of_eq rfl rfl rfl
  chargeStateGas := metered_chargeStateGas
  creditStateGas := metered_credit
  refund _ _ := .of_eq rfl rfl rfl
  slotWrites _ _ := .of_eq rfl rfl rfl
  takeStateGas _ := .of_eq rfl rfl rfl
  refill c _ := ⟨gasTotal_refill_le c.ev, Nat.le_refl _⟩
  halt := metered_halt
  error _ _ := .of_eq rfl rfl rfl
  msg _ _ := .of_eq rfl rfl rfl

instance : Keeps Metered rebaseReservoir := Keeps.modify fun c _ => ⟨by
    unfold Frame.gasTotal
    exact Nat.add_le_add_left (Nat.zero_le _) _, Nat.le_refl _⟩

/-! ## What is used at least -/

/-- The gas of the frame is at most `T`, and at least `r` is used. -/
def Meter (T r : Nat) (c : Ctx) : Prop :=
  c.ev.gasTotal ≤ T ∧ r ≤ c.ev.regularGasUsed.toNat

theorem Meter.mono {T T' r r' : Nat} {c : Ctx} (h : Meter T r c) (hT : T ≤ T') (hr : r' ≤ r) :
    Meter T' r' c := ⟨h.1.trans hT, hr.trans h.2⟩

theorem Meter.step {T r : Nat} {c c' : Ctx} (h : Meter T r c) (hT : T < 2 ^ 64)
    (hm : Metered c c') : Meter T r c' := by
  have hstep := hm (Nat.lt_of_le_of_lt h.1 hT)
  exact ⟨hstep.1.trans h.1, h.2.trans hstep.2⟩

theorem Meter.of_ev {T r : Nat} {c c' : Ctx} (h : Meter T r c) (he : c'.ev = c.ev) :
    Meter T r c' := by
  unfold Meter
  rw [he]
  exact h

/-- A program that uses at least `k` gas when it returns. -/
structure Meters {α : Type} (k : Nat) (x : EvmM α) : Prop where
  triple : ∀ {T r : Nat}, T < 2 ^ 64 →
    Triple (Meter T r) x (fun _ => Meter T (r + k)) fun _ => Meter T r

section

variable {α β : Type} {k : Nat} {x : EvmM α} {f : α → EvmM β}

theorem Meters.of_keeps (h : Keeps Metered x) : Meters 0 x :=
  ⟨fun hT => .of_keeps h (fun _ _ hm hs => hm.step hT hs) fun _ _ hm => hm⟩

theorem Meters.mono (h : Meters k x) {j : Nat} (hj : j ≤ k) : Meters j x :=
  ⟨fun hT => (h.triple hT).post fun _ _ hm =>
    hm.mono (Nat.le_refl _) (Nat.add_le_add_left hj _)⟩

theorem Meters.bind {j : Nat} (hx : Meters j x) (hf : ∀ a, Meters k (f a)) :
    Meters (j + k) (x >>= f) := by
  refine ⟨fun {T r} hT => .bind (hx.triple hT) fun a => ?_⟩
  rw [← Nat.add_assoc]
  exact ((hf a).triple hT).fails fun _ _ hm => hm.mono (Nat.le_refl _) (Nat.le_add_right _ _)

theorem Meters.left (hx : Meters k x) (hf : ∀ a, Keeps Metered (f a)) : Meters k (x >>= f) :=
  hx.bind fun a => .of_keeps (hf a)

theorem Meters.right (hx : Keeps Metered x) (hf : ∀ a, Meters k (f a)) : Meters k (x >>= f) := by
  have h := (Meters.of_keeps hx).bind hf
  rwa [Nat.zero_add] at h

theorem Meters.ite {c : Prop} [Decidable c] {y : EvmM α} (hx : Meters k x) (hy : Meters k y) :
    Meters k (if c then x else y) := by
  split
  · exact hx
  · exact hy

end

theorem meters_chargeGas (amount : Word) : Meters amount.toNat (chargeGas amount) := by
  refine ⟨fun {T r} hT => ⟨?_, ?_⟩⟩
  · intro c c' _ h hrun
    have hstep := h.step hT ((inferInstance : Keeps Metered (chargeGas amount)).ok hrun)
    refine ⟨hstep.1, ?_⟩
    rw [chargeGas_run] at hrun
    split at hrun
    · cases hrun
    · next hge =>
      cases hrun
      have hle : amount.toNat ≤ c.ev.gasLeft.toNat := BitVec.not_lt.mp hge
      have htotal := h.1
      have hused := h.2
      unfold Frame.gasTotal at htotal
      dsimp only
      rw [BitVec.toNat_add, Nat.mod_eq_of_lt (by omega)]
      omega
  · intro c c' e h hrun
    exact h.step hT ((inferInstance : Keeps Metered (chargeGas amount)).error hrun)

theorem meters_charge {k : Nat} {amount : Word} (h : k ≤ amount.toNat) :
    Meters k (chargeGas amount) := (meters_chargeGas amount).mono h

theorem meters_chargeStorageAccess (target : Address) (key : Hash) :
    Meters 100 (chargeStorageAccess target key) := by
  unfold chargeStorageAccess
  refine .right inferInstance fun warm => .ite ?_ ?_
  · exact meters_chargeGas gWarmAccess
  · exact (meters_charge (by decide)).left fun _ => inferInstance

set_option synthInstance.maxSize 1000

section

variable [Keccak] (w : Witness)

theorem meters_opSstore : Meters 100 (opSstore w) := by
  have hrefund : ∀ x : SlotWrite,
      Keeps Metered (modifyEv fun e => { e with refund := e.refund + x.refund }) :=
    fun _ => Keeps.modify fun c => Upkeep.refund c _
  have hwrite : ∀ x : SlotWrite,
      Keeps Metered (modifyEv fun e => { e with slotWrites := e.slotWrites ++ [x] }) :=
    fun _ => Keeps.modify fun c => Upkeep.slotWrites c _
  unfold opSstore
  dsimp only
  iterate 6 refine .right inferInstance fun _ => ?_
  refine (meters_chargeStorageAccess _ _).left fun _ => ?_
  iterate 6 refine Keeps.seq inferInstance fun _ => ?_
  infer_instance

omit [Keccak] in
theorem meters_opTstore : Meters 100 opTstore := by
  unfold opTstore
  iterate 3 refine .right inferInstance fun _ => ?_
  exact (meters_chargeGas 100).left fun _ => inferInstance

theorem meters_opSelfdestruct : Meters 5000 (opSelfdestruct w) := by
  unfold opSelfdestruct
  dsimp only
  iterate 3 refine .right inferInstance fun _ => ?_
  refine (meters_charge ?_).left fun _ => ?_
  · split <;> decide
  · iterate 6 refine Keeps.seq inferInstance fun _ => ?_
    infer_instance

end

/-! ## Gas lent to a child -/

/-- The frame has given `g` gas away. -/
def Lent (g : Word) (T r : Nat) (c : Ctx) : Prop := ∃ T', T' + g.toNat ≤ T ∧ Meter T' r c

/-- A frame after an instruction: what a requested child gets is gone. -/
def Issued (T r : Nat) : Option ChildReq → Ctx → Prop
  | none => Meter T r
  | some req => Lent req.msg.gas T r

section

variable {T r : Nat} {g : Word}

theorem Lent.step {c c' : Ctx} (h : Lent g T r c) (hT : T < 2 ^ 64) (hm : Metered c c') :
    Lent g T r c' := by
  obtain ⟨T', hT', h⟩ := h
  exact ⟨T', hT', h.step (by omega) hm⟩

theorem Lent.meter {c : Ctx} (h : Lent g T r c) : Meter T r c := by
  obtain ⟨T', hT', h⟩ := h
  exact h.mono (by omega) (Nat.le_refl _)

theorem triple_lent {α : Type} {x : EvmM α} (hx : Keeps Metered x) (hT : T < 2 ^ 64) :
    Triple (Lent g T r) x (fun _ => Lent g T r) fun _ => Meter T r :=
  .of_keeps hx (fun _ _ h hm => h.step hT hm) fun _ _ h => h.meter

theorem triple_meter {α : Type} {x : EvmM α} (hx : Keeps Metered x) (hT : T < 2 ^ 64) :
    Triple (Meter T r) x (fun _ => Meter T r) fun _ => Meter T r :=
  .of_keeps hx (fun _ _ h hm => h.step hT hm) fun _ _ h => h

theorem lent_takeCreateGas {E : Exn → Ctx → Prop} :
    Triple (Meter T r) takeCreateGas (fun g => Lent g T r) E where
  ok {c c' g} h hrun := by
    cases hrun
    have hshift : (c.ev.gasLeft >>> 6).toNat = c.ev.gasLeft.toNat / 2 ^ 6 := by
      rw [BitVec.toNat_ushiftRight, Nat.shiftRight_eq_div_pow]
    have hgas : (c.ev.gasLeft - (c.ev.gasLeft >>> 6)).toNat =
        c.ev.gasLeft.toNat - c.ev.gasLeft.toNat / 2 ^ 6 := by
      rw [BitVec.toNat_sub_of_le, hshift]
      rw [BitVec.le_def, hshift]
      omega
    have hleft : (c.ev.gasLeft - (c.ev.gasLeft - (c.ev.gasLeft >>> 6))).toNat =
        c.ev.gasLeft.toNat / 2 ^ 6 := by
      rw [BitVec.toNat_sub_of_le, hgas]
      · omega
      · rw [BitVec.le_def, hgas]
        omega
    obtain ⟨htotal, hused⟩ := h
    unfold Frame.gasTotal at htotal
    refine ⟨T - (c.ev.gasLeft.toNat - c.ev.gasLeft.toNat / 2 ^ 6), ?_, ?_, hused⟩
    · rw [hgas]
      omega
    · unfold Frame.gasTotal
      dsimp only
      rw [hleft]
      omega
  error h hrun := by cases hrun

/-- A collision uses up the gas lent. -/
theorem lent_used (hT : T < 2 ^ 64) {E : Exn → Ctx → Prop} :
    Triple (Lent g T r) (modifyEv fun e => { e with regularGasUsed := e.regularGasUsed + g })
      (fun _ => Meter T r) E := by
  refine triple_modifyEv fun c h => ?_
  obtain ⟨T', hT', htotal, hused⟩ := h
  unfold Frame.gasTotal at htotal
  have hsum : (c.ev.regularGasUsed + g).toNat = c.ev.regularGasUsed.toNat + g.toNat := by
    rw [BitVec.toNat_add, Nat.mod_eq_of_lt (by omega)]
  refine ⟨?_, ?_⟩
  · unfold Frame.gasTotal
    dsimp only
    rw [hsum]
    omega
  · dsimp only
    rw [hsum]
    omega

/-- A child that does not start gives the gas back. -/
theorem lent_returned (hT : T < 2 ^ 64) (reservoir : Word) {E : Exn → Ctx → Prop} :
    Triple (Lent g T r) (returnCallGas g reservoir) (fun _ => Meter T r) E := by
  refine triple_modifyEv fun c h => ?_
  obtain ⟨T', hT', htotal, hused⟩ := h
  unfold Frame.gasTotal at htotal
  refine ⟨?_, hused⟩
  unfold Frame.gasTotal
  dsimp only
  rw [BitVec.toNat_add, Nat.mod_eq_of_lt (by omega)]
  omega

theorem triple_issued {x : EvmM Unit} (hx : Keeps Metered x) (hT : T < 2 ^ 64)
    (started : Option ChildReq) :
    Triple (Issued T r started) x (fun _ => Issued T r started) fun _ => Meter T r := by
  cases started with
  | none => exact triple_meter hx hT
  | some req => exact triple_lent hx hT

/-- An instruction that uses at least `k` gas besides what it lends. -/
structure Issues (k : Nat) (x : EvmM (Option ChildReq)) : Prop where
  triple : ∀ {T r : Nat}, T < 2 ^ 64 → Triple (Meter T r) x (Issued T (r + k)) fun _ => Meter T r

namespace Issues

variable {α : Type} {k : Nat}

theorem right {x : EvmM α} {f : α → EvmM (Option ChildReq)} (hx : Keeps Metered x)
    (hf : ∀ a, Issues k (f a)) : Issues k (x >>= f) :=
  ⟨fun hT => .bind (triple_meter hx hT) fun a => (hf a).triple hT⟩

theorem bind {j : Nat} {x : EvmM α} {f : α → EvmM (Option ChildReq)} (hx : Meters j x)
    (hf : ∀ a, Issues k (f a)) : Issues (j + k) (x >>= f) := by
  refine ⟨fun {T r} hT => .bind (hx.triple hT) fun a => ?_⟩
  rw [← Nat.add_assoc]
  exact ((hf a).triple hT).fails fun _ _ hm => hm.mono (Nat.le_refl _) (Nat.le_add_right _ _)

end Issues

theorem issued_pcAddIfDone (hT : T < 2 ^ 64) (started : Option ChildReq) :
    Triple (Issued T r started) (pcAddIfDone started) (Issued T r) fun _ => Meter T r := by
  unfold pcAddIfDone
  split
  · exact .bind (triple_issued inferInstance hT started) fun _ => .pure fun _ h => h
  · exact .pure fun _ h => h

/-- The program counter advances last. -/
theorem Issues.advance {k : Nat} {x : EvmM (Option ChildReq)} (h : Issues k x) :
    Issues k (x >>= pcAddIfDone) :=
  ⟨fun hT => .bind (h.triple hT) fun started => (issued_pcAddIfDone hT started).fails
    fun _ _ hm => hm.mono (Nat.le_refl _) (Nat.le_add_right _ _)⟩

/-! ## Creations -/

variable [Keccak] (w : Witness)

theorem issues_genericCreate (endowment : U256) (contract : Address) (mstart msize : Word) :
    Issues 0 (genericCreate w endowment contract mstart msize) := by
  refine ⟨fun {T r} hT => ?_⟩
  unfold genericCreate
  dsimp only
  split
  case' isTrue => refine .bind (triple_meter inferInstance hT) fun _ => ?_
  all_goals
    iterate 4 refine .bind (triple_meter inferInstance hT) fun _ => ?_
    split
    · refine .bind (triple_meter inferInstance hT) fun _ => .pure fun _ h => h
    iterate 2 refine .bind (triple_meter inferInstance hT) fun _ => ?_
    refine .bind lent_takeCreateGas fun g => .bind (triple_lent inferInstance hT) fun _ => ?_
    split
    · iterate 2 refine .bind (triple_lent inferInstance hT) fun _ => ?_
      exact .pure fun _ h => h
    · refine .bind (.bind (triple_lent inferInstance hT) fun _ =>
        .bind (lent_used hT) fun _ => triple_meter inferInstance hT) fun _ => .pure fun _ h => h

omit [Keccak] in
/-- A cost with a fixed part that does not overflow. -/
theorem le_addSat {k : Nat} {a : Word} (h : k ≤ a.toNat) (b : Word) : k ≤ (addSat a b).toNat := by
  have ha := a.isLt
  rw [addSat_toNat]
  omega

theorem issues_opCreate : Issues 12000 (opCreate w) := by
  unfold opCreate
  dsimp only
  iterate 5 refine .right inferInstance fun _ => ?_
  refine .bind (k := 0) (meters_charge (le_addSat ?_ _)) fun _ => ?_
  · rw [wordCost_toNat (by decide)]
    exact Nat.le_add_right _ _
  iterate 3 refine .right inferInstance fun _ => ?_
  exact (issues_genericCreate w _ _ _ _).advance

theorem issues_opCreate2 : Issues 12000 (opCreate2 w) := by
  unfold opCreate2
  dsimp only
  iterate 6 refine .right inferInstance fun _ => ?_
  refine .bind (k := 0) (meters_charge (le_addSat ?_ _)) fun _ => ?_
  · have hhash : ∀ n, (gCreateAccess + gKeccak256PerWord * wordsOf n).toNat =
        12000 + 6 * (wordsOf n).toNat := wordCost_toNat (by decide)
    generalize satWord _ = n
    have hlt := wordsOf_lt n
    have hper : gCodeInitPerWord.toNat = 2 := rfl
    rw [wordCost_toNat, hhash]
    · omega
    · rw [hhash, hper]
      omega
  iterate 2 refine .right inferInstance fun _ => ?_
  exact (issues_genericCreate w _ _ _ _).advance

/-! ## Calls -/

/-- A program that uses `n` gas of what its caller has charged. -/
structure Needs (n : Nat) (x : EvmM (Option ChildReq)) : Prop where
  triple : ∀ {T r : Nat}, T < 2 ^ 64 → Triple (Meter T (r + n)) x (Issued T r) fun _ => Meter T r

namespace Needs

variable {α : Type} {n : Nat}

omit [Keccak] in
theorem right {x : EvmM α} {f : α → EvmM (Option ChildReq)} (hx : Keeps Metered x)
    (hf : ∀ a, Needs n (f a)) : Needs n (x >>= f) :=
  ⟨fun hT => .bind ((triple_meter hx hT).fails fun _ _ hm => hm.mono (Nat.le_refl _)
    (Nat.le_add_right _ _)) fun a => (hf a).triple hT⟩

omit [Keccak] in
/-- What was charged pays what is needed and the rest. -/
theorem bind {k : Nat} {x : EvmM α} {f : α → EvmM (Option ChildReq)} (hx : Meters (k + n) x)
    (hf : ∀ a, Needs n (f a)) : Issues k (x >>= f) := by
  refine ⟨fun {T r} hT => .bind (hx.triple hT) fun a => ?_⟩
  rw [← Nat.add_assoc]
  exact ((hf a).triple hT).fails fun _ _ hm => hm.mono (Nat.le_refl _) (Nat.le_add_right _ _)

end Needs

omit [Keccak] in
theorem Meter.lend {value : U256} {c : Ctx} (h : Meter T (r + (stipend value).toNat) c)
    (hT : T < 2 ^ 64) (hg : g ≤ c.ev.gasLeft) :
    Lent (g + stipend value) T r { c with ev := c.ev.giveGas g (g + stipend value) } := by
  obtain ⟨htotal, hused⟩ := h
  unfold Frame.gasTotal at htotal
  have hle : g.toNat ≤ c.ev.gasLeft.toNat := hg
  have hgiven : (g + stipend value).toNat = g.toNat + (stipend value).toNat := by
    rw [BitVec.toNat_add, Nat.mod_eq_of_lt (by omega)]
  have hcharged : (c.ev.regularGasUsed + g).toNat = c.ev.regularGasUsed.toNat + g.toNat := by
    rw [BitVec.toNat_add, Nat.mod_eq_of_lt (by omega)]
  have hrest : (c.ev.regularGasUsed + g - (g + stipend value)).toNat =
      c.ev.regularGasUsed.toNat - (stipend value).toNat := by
    rw [BitVec.toNat_sub_of_le, hcharged, hgiven]
    · omega
    · rw [BitVec.le_def, hcharged, hgiven]
      omega
  have hleft : (c.ev.gasLeft - g).toNat = c.ev.gasLeft.toNat - g.toNat :=
    BitVec.toNat_sub_of_le hg
  refine ⟨T - (g + stipend value).toNat, by omega, ?_, ?_⟩
  · simp only [Frame.gasTotal, Frame.giveGas]
    rw [hrest, hleft]
    omega
  · simp only [Frame.giveGas]
    rw [hrest]
    omega

omit [Keccak] in
/-- The gas of a child is lent, its stipend from what the call has charged. -/
theorem lent_splitCallGas (hT : T < 2 ^ 64) (value gas : U256) (expandBy : Word) :
    Triple (Meter T (r + (stipend value).toNat)) (splitCallGas value gas expandBy)
      (fun g => Lent g.1 T r) fun _ => Meter T r := by
  unfold splitCallGas
  refine .bind triple_getEv fun e => ?_
  obtain ⟨g, hg, hmcg⟩ := calculateMessageCallGas_zero value (satWord gas) e.gasLeft
  dsimp only
  rw [hmcg]
  refine .bind (Q := fun _ c => Lent (g + stipend value) T r { c with
    ev := { c.ev with regularGasUsed := c.ev.regularGasUsed - (g + stipend value) } }) ?_
    fun _ => .bind (triple_modifyEv fun c h => h) fun _ => ?_
  · refine ⟨fun {c c' _} h hrun => ?_, fun {c c' _} h hrun => ?_⟩ <;>
      obtain ⟨rfl, h⟩ := h <;>
      rw [chargeGas_run, if_neg (BitVec.not_lt.mpr hg)] at hrun <;>
      cases hrun
    exact h.lend hT hg
  · iterate 2 refine .bind (triple_lent inferInstance hT) fun _ => ?_
    exact .pure fun _ h => h

theorem meters_accessCallee (addr : Address) (value : U256) (ranges : CallRanges) :
    Meters (100 + (stipend value).toNat) (accessCallee w addr value ranges) := by
  unfold accessCallee
  dsimp only
  iterate 2 refine .right inferInstance fun _ => ?_
  refine (meters_charge (le_addSat ?_ _)).left fun _ => inferInstance
  unfold stipend
  split <;> split <;> decide

omit [Keccak] in
theorem issued_genericCall (hT : T < 2 ^ 64) (reservoir : Word) (value : U256)
    (caller dst codeAddress : Address) (transfer isStatic : Bool) (ranges : CallRanges)
    (code : Bytes) (disablePre charged : Bool) :
    Triple (Lent g T r) (genericCall g reservoir value caller dst codeAddress transfer isStatic
      ranges code disablePre charged) (Issued T r) fun _ => Meter T r := by
  unfold genericCall
  iterate 2 refine .bind (triple_lent inferInstance hT) fun _ => ?_
  split
  · refine .bind (lent_returned hT reservoir) fun _ => ?_
    iterate 2 refine .bind (triple_meter inferInstance hT) fun _ => ?_
    exact .pure fun _ h => h
  · exact .pure fun _ h => h

omit [Keccak] in
theorem issued_callUnpaid (hT : T < 2 ^ 64) (reservoir : Word) (charged : Bool) :
    Triple (Lent g T r) (callUnpaid g reservoir charged) (Issued T r) fun _ => Meter T r := by
  unfold callUnpaid
  iterate 2 refine .bind (triple_lent inferInstance hT) fun _ => ?_
  refine .bind (lent_returned hT reservoir) fun _ => ?_
  exact .bind (triple_meter inferInstance hT) fun _ => .pure fun _ h => h

omit [Keccak] in
/-- The part of a call behind the split. -/
theorem needs_split (value gas : U256) (expandBy : Word)
    {f : Word × Word → EvmM (Option ChildReq)} (hf : ∀ (g : Word × Word) {T r : Nat},
      T < 2 ^ 64 → Triple (Lent g.1 T r) (f g) (Issued T r) fun _ => Meter T r) :
    Needs (stipend value).toNat (splitCallGas value gas expandBy >>= fun g => f g) :=
  ⟨fun hT => .bind (lent_splitCallGas hT value gas expandBy) fun g => hf g hT⟩

theorem issues_opCall : Issues 100 (opCall w) := by
  unfold opCall
  dsimp only
  iterate 5 refine .right inferInstance fun _ => ?_
  split
  case' isTrue => refine .right inferInstance fun _ => ?_
  all_goals
    refine Needs.bind (meters_accessCallee w _ _ _) fun callee => ?_
    refine .right inferInstance fun charged => needs_split _ _ _ fun g {T r} hT => ?_
    refine .bind (triple_lent inferInstance hT) fun sender => ?_
    split
    · exact .bind (issued_callUnpaid hT _ _) fun started => issued_pcAddIfDone hT started
    · exact .bind (issued_genericCall hT _ _ _ _ _ _ _ _ _ _ _) fun started =>
        issued_pcAddIfDone hT started

theorem issues_opCallcode : Issues 100 (opCallcode w) := by
  unfold opCallcode
  dsimp only
  iterate 5 refine .right inferInstance fun _ => ?_
  refine Needs.bind (meters_accessCallee w _ _ _) fun callee => ?_
  refine needs_split _ _ _ fun g {T r} hT => ?_
  refine .bind (triple_lent inferInstance hT) fun sender => ?_
  split
  · exact .bind (issued_callUnpaid hT _ _) fun started => issued_pcAddIfDone hT started
  · exact .bind (issued_genericCall hT _ _ _ _ _ _ _ _ _ _ _) fun started =>
      issued_pcAddIfDone hT started

theorem issues_opDelegatecall : Issues 100 (opDelegatecall w) := by
  unfold opDelegatecall
  dsimp only
  iterate 4 refine .right inferInstance fun _ => ?_
  refine Needs.bind (meters_accessCallee w _ _ _) fun callee => ?_
  refine needs_split _ _ _ fun g {T r} hT => ?_
  exact .bind (issued_genericCall hT _ _ _ _ _ _ _ _ _ _ _) fun started =>
    issued_pcAddIfDone hT started

theorem issues_opStaticcall : Issues 100 (opStaticcall w) := by
  unfold opStaticcall
  dsimp only
  iterate 4 refine .right inferInstance fun _ => ?_
  refine Needs.bind (meters_accessCallee w _ _ _) fun callee => ?_
  refine needs_split _ _ _ fun g {T r} hT => ?_
  exact .bind (issued_genericCall hT _ _ _ _ _ _ _ _ _ _ _) fun started =>
    issued_pcAddIfDone hT started

end

end StatelessGuest
