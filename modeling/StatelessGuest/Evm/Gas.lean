import StatelessGuest.Evm.Local
import StatelessGuest.Evm.Recursive
import StatelessGuest.Lib.Triple
import Mathlib.Algebra.BigOperators.Group.List.Basic

/-!
# The gas of a frame

A frame that got `G` regular gas and `R` state gas keeps three facts: what is left, used and
spilled adds up to `G`; the state gas left, less what spilled, never exceeds what the storage
writes leave of `R`; and every storage write was paid with regular gas, which bounds how much
state gas the writes can have credited. A failure keeps the first one only, and giving the
state gas back restores the rest.
-/

namespace StatelessGuest

open Lib

/-! ## The state gas of storage writes -/

/-- State gas charged less state gas credited. -/
def SlotWrite.stateNet (x : SlotWrite) : Int := x.stateGas.toNat - x.stateCredit.toNat

def stateNet (es : List SlotWrite) : Int := (es.map SlotWrite.stateNet).sum

theorem SlotWrite.stateCredit_le (x : SlotWrite) : x.stateCredit.toNat ≤ 97920 := by
  unfold SlotWrite.stateCredit
  split
  · exact le_of_eq rfl
  · exact Nat.zero_le _

theorem SlotWrite.stateGas_le (x : SlotWrite) : x.stateGas.toNat ≤ 97920 := by
  unfold SlotWrite.stateGas
  split
  · exact le_of_eq rfl
  · exact Nat.zero_le _

@[simp] theorem stateNet_nil : stateNet [] = 0 := rfl

theorem stateNet_append (es fs : List SlotWrite) :
    stateNet (es ++ fs) = stateNet es + stateNet fs := by
  rw [stateNet, List.map_append, List.sum_append]
  rfl

theorem stateNet_singleton (x : SlotWrite) : stateNet [x] = x.stateNet := by
  simp [stateNet]

theorem neg_le_stateNet (es : List SlotWrite) : -(97920 * es.length : Int) ≤ stateNet es := by
  induction es with
  | nil => simp
  | cons x es ih =>
    have hx := x.stateCredit_le
    have hcons : stateNet (x :: es) = x.stateNet + stateNet es := by simp [stateNet]
    rw [hcons, SlotWrite.stateNet, List.length_cons]
    omega

/-! ## The invariant -/

/-- Regular gas left, used and spilled. -/
def Frame.gasTotal (e : Frame) : Nat :=
  e.gasLeft.toNat + e.regularGasUsed.toNat + e.stateGasSpilled.toNat

/-- State gas left, less what spilled. -/
def Frame.stateBalance (e : Frame) : Int := e.stateGasLeft.toNat - e.stateGasSpilled.toNat

structure Gas (G : Nat) (R : Int) (e : Frame) : Prop where
  total : e.gasTotal = G
  state : e.stateBalance + stateNet e.slotWrites ≤ R
  writes : 100 * e.slotWrites.length ≤ e.regularGasUsed.toNat

namespace Gas

variable {G : Nat} {R : Int} {e e' : Frame}

theorem mono (h : Gas G R e) {R' : Int} (hR : R ≤ R') : Gas G R' e :=
  ⟨h.total, h.state.trans hR, h.writes⟩

/-- What bounds the gas of a message bounds the state gas left of its frame. -/
theorem stateGasLeft_le (h : Gas G R e) : (e.stateGasLeft.toNat : Int) ≤ R + 981 * G := by
  have hstate := h.state
  have htotal := h.total
  have hwrites := h.writes
  have hnet := neg_le_stateNet e.slotWrites
  unfold Frame.stateBalance at hstate
  unfold Frame.gasTotal at htotal
  omega

theorem stateGasLeft_lt (h : Gas G R e) (hR : R + 981 * G < 2 ^ 62) :
    e.stateGasLeft.toNat < 2 ^ 63 := by
  have hle := h.stateGasLeft_le
  omega

theorem of_local (h : Gas G R e) (hG : G < 2 ^ 52) (hl : FrameLocal e e') : Gas G R e' := by
  obtain ⟨htotal, hstate, hwrites⟩ := h
  have hcore := hl.core
  simp only [Frame.core, FrameCore.mk.injEq] at hcore
  obtain ⟨-, hs, hp, -, -, -, -, -, hw⟩ := hcore
  have hgas := hl.gas
  have hle := hl.le
  unfold Frame.gasTotal at htotal
  have hsum : e'.gasLeft.toNat + e'.regularGasUsed.toNat =
      e.gasLeft.toNat + e.regularGasUsed.toNat := by
    have hlt : e'.gasLeft.toNat ≤ e.gasLeft.toNat := hle
    have hmod := congrArg BitVec.toNat hgas
    rw [BitVec.toNat_add, BitVec.toNat_add] at hmod
    have := e'.regularGasUsed.isLt
    omega
  refine ⟨?_, ?_, ?_⟩
  · rw [Frame.gasTotal, hp]
    omega
  · rw [Frame.stateBalance, hs, hp, hw]
    exact hstate
  · have hlt : e'.gasLeft.toNat ≤ e.gasLeft.toNat := hle
    rw [hw]
    omega

theorem charge (h : Gas G R e) {amount : Word} (hle : amount ≤ e.stateGasLeft) :
    Gas G (R - amount.toNat) { e with stateGasLeft := e.stateGasLeft - amount } := by
  obtain ⟨htotal, hstate, hwrites⟩ := h
  refine ⟨htotal, ?_, hwrites⟩
  unfold Frame.stateBalance at hstate ⊢
  dsimp only
  rw [BitVec.toNat_sub_of_le hle]
  have hnat : amount.toNat ≤ e.stateGasLeft.toNat := hle
  omega

/-- State gas that spills into the gas left. -/
theorem spill (h : Gas G R e) (hG : G < 2 ^ 52) (hR : R + 981 * G < 2 ^ 62) {amount : Word}
    (hgt : ¬ amount ≤ e.stateGasLeft) (hle : amount ≤ addSat e.stateGasLeft e.gasLeft) :
    Gas G (R - amount.toNat) { e with
      stateGasLeft := 0
      gasLeft := e.gasLeft - (amount - e.stateGasLeft)
      stateGasSpilled := e.stateGasSpilled + (amount - e.stateGasLeft) } := by
  have hsgl := h.stateGasLeft_lt hR
  obtain ⟨htotal, hstate, hwrites⟩ := h
  unfold Frame.gasTotal at htotal
  unfold Frame.stateBalance at hstate
  have hgt' : e.stateGasLeft.toNat < amount.toNat := by
    rw [BitVec.not_le] at hgt
    exact hgt
  have hrem : (amount - e.stateGasLeft).toNat = amount.toNat - e.stateGasLeft.toNat :=
    BitVec.toNat_sub_of_le (Nat.le_of_lt hgt')
  have hsum : (e.stateGasLeft + e.gasLeft).toNat = e.stateGasLeft.toNat + e.gasLeft.toNat := by
    rw [BitVec.toNat_add]
    omega
  have hsat : amount.toNat ≤ e.stateGasLeft.toNat + e.gasLeft.toNat := by
    have hexact : addSat e.stateGasLeft e.gasLeft = e.stateGasLeft + e.gasLeft := by
      unfold addSat
      rw [if_neg]
      rw [BitVec.not_lt, BitVec.le_def, hsum]
      omega
    rw [hexact] at hle
    rw [← hsum]
    exact hle
  have hgl : (e.gasLeft - (amount - e.stateGasLeft)).toNat =
      e.gasLeft.toNat - (amount.toNat - e.stateGasLeft.toNat) := by
    rw [BitVec.toNat_sub_of_le, hrem]
    rw [BitVec.le_def, hrem]
    omega
  have hsp : (e.stateGasSpilled + (amount - e.stateGasLeft)).toNat =
      e.stateGasSpilled.toNat + (amount.toNat - e.stateGasLeft.toNat) := by
    rw [BitVec.toNat_add, hrem]
    omega
  refine ⟨?_, ?_, hwrites⟩
  · rw [Frame.gasTotal, hgl, hsp]
    dsimp only
    omega
  · rw [Frame.stateBalance, hsp]
    have hzero : (0 : Word).toNat = 0 := rfl
    dsimp only
    omega

theorem credit {amount : Word} (h : Gas G (R - amount.toNat) e) (hG : G < 2 ^ 52)
    (hR : R + 981 * G < 2 ^ 62) : Gas G R (e.creditStateGasRefund amount) := by
  have hsgl := h.stateGasLeft_lt (by omega)
  obtain ⟨htotal, hstate, hwrites⟩ := h
  have hnet := neg_le_stateNet e.slotWrites
  unfold Frame.gasTotal at htotal
  unfold Frame.stateBalance at hstate
  have hfrom : (minWord amount e.stateGasSpilled).toNat =
      min amount.toNat e.stateGasSpilled.toNat := by
    unfold minWord
    split
    · next hlt => exact (Nat.min_eq_left (Nat.le_of_lt hlt)).symm
    · next hge => exact (Nat.min_eq_right (BitVec.not_lt.mp hge)).symm
  have hrem : (amount - minWord amount e.stateGasSpilled).toNat =
      amount.toNat - min amount.toNat e.stateGasSpilled.toNat := by
    rw [BitVec.toNat_sub_of_le, hfrom]
    rw [BitVec.le_def, hfrom]
    omega
  have hsp : (e.stateGasSpilled - minWord amount e.stateGasSpilled).toNat =
      e.stateGasSpilled.toNat - min amount.toNat e.stateGasSpilled.toNat := by
    rw [BitVec.toNat_sub_of_le, hfrom]
    rw [BitVec.le_def, hfrom]
    omega
  have hgl : (e.gasLeft + minWord amount e.stateGasSpilled).toNat =
      e.gasLeft.toNat + min amount.toNat e.stateGasSpilled.toNat := by
    rw [BitVec.toNat_add, hfrom]
    omega
  have hleft : (e.stateGasLeft + (amount - minWord amount e.stateGasSpilled)).toNat =
      e.stateGasLeft.toNat + (amount.toNat - min amount.toNat e.stateGasSpilled.toNat) := by
    rw [BitVec.toNat_add, hrem]
    omega
  refine ⟨?_, ?_, hwrites⟩
  · rw [Frame.gasTotal]
    simp only [Frame.creditStateGasRefund]
    rw [hgl, hsp]
    omega
  · rw [Frame.stateBalance]
    simp only [Frame.creditStateGasRefund]
    rw [hleft, hsp]
    omega

end Gas

/-! ## The invariant of a running frame -/

/-- A frame that runs on message `m`, with `a` state gas used by authorizations. -/
structure InFrame (G : Nat) (R : Int) (m : Msg) (a : Word) (c : Ctx) : Prop where
  gas : Gas G R c.ev
  msg : c.ev.msg = m
  auth : c.ev.authStateGasUsed = a
  error : c.ev.error = none
  stack : c.ev.stack.length ≤ stackDepthLimit

/-- What is left of it when the frame fails. -/
def Failing (G : Nat) (m : Msg) (a : Word) (e : Exn) (c : Ctx) : Prop :=
  ¬ e.Fatal → c.ev.gasTotal = G ∧ c.ev.msg = m ∧ c.ev.authStateGasUsed = a

section

variable {G : Nat} {R : Int} {m : Msg} {a : Word} {α : Type}

theorem InFrame.failing {c : Ctx} (h : InFrame G R m a c) (e : Exn) : Failing G m a e c :=
  fun _ => ⟨h.gas.total, h.msg, h.auth⟩

theorem InFrame.mono {c : Ctx} (h : InFrame G R m a c) {R' : Int} (hR : R ≤ R') :
    InFrame G R' m a c :=
  ⟨h.gas.mono hR, h.msg, h.auth, h.error, h.stack⟩

theorem InFrame.of_local {c c' : Ctx} (h : InFrame G R m a c) (hG : G < 2 ^ 52)
    (hl : Local c c') : InFrame G R m a c' := by
  have hcore := hl.ev.core
  simp only [Frame.core, FrameCore.mk.injEq] at hcore
  obtain ⟨hm, -, -, ha, -, he, -⟩ := hcore
  exact ⟨h.gas.of_local hG hl.ev, hm.trans h.msg, ha.trans h.auth, he.trans h.error,
    hl.ev.stack h.stack⟩

/-- A fact about the frame alone is kept by tracker operations. -/
theorem InFrame.of_ev {c c' : Ctx} (h : InFrame G R m a c) (he : c'.ev = c.ev) :
    InFrame G R m a c' := by
  obtain ⟨hg, hm, ha, herr, hs⟩ := h
  exact ⟨he ▸ hg, he ▸ hm, he ▸ ha, he ▸ herr, he ▸ hs⟩

theorem triple_local (hG : G < 2 ^ 52) {x : EvmM α} (hx : Keeps Local x) :
    Triple (InFrame G R m a) x (fun _ => InFrame G R m a) (Failing G m a) :=
  .of_keeps hx (fun _ _ h hl => h.of_local hG hl) fun e _ h => h.failing e

theorem keeps_ev_liftState (x : StateM α) : Keeps (fun c c' : Ctx => c'.ev = c.ev) (liftState x) := by
  refine ⟨fun c => ?_⟩
  cases hx : x c.tk with
  | ok a s => rw [liftState_ok hx]; rfl
  | error e s => rw [liftState_error hx]; rfl

theorem triple_lift (x : StateM α) :
    Triple (InFrame G R m a) (liftState x) (fun _ => InFrame G R m a) (Failing G m a) :=
  .of_keeps (keeps_ev_liftState x) (fun _ _ h he => h.of_ev he) fun e _ h => h.failing e

/-- A change of the frame that throws nothing. -/
theorem triple_modifyEv {P Q : Ctx → Prop} {E : Exn → Ctx → Prop} {f : Frame → Frame}
    (h : ∀ c, P c → Q { c with ev := f c.ev }) :
    Triple P (modifyEv f) (fun _ => Q) E := by
  unfold modifyEv
  exact .modify h

/-- A frame that fails at once. -/
theorem triple_throwEvm {β : Type} {err : EvmErr} {f : α → EvmM β} {Q : β → Ctx → Prop} :
    Triple (InFrame G R m a) (throwEvm err >>= f) Q (Failing G m a) where
  ok _ hrun := by
    obtain ⟨_, _, h, -⟩ := bind_ok.mp hrun
    cases h
  error h hrun := by
    obtain ht | ⟨_, _, ht, -⟩ := bind_error.mp hrun
    · cases ht
      exact h.failing _
    · cases ht

theorem triple_chargeStateGas (hG : G < 2 ^ 52) (hR : R + 981 * G < 2 ^ 62) (amount : Word) :
    Triple (InFrame G R m a) (chargeStateGas amount)
      (fun _ => InFrame G (R - amount.toNat) m a) (Failing G m a) where
  ok {c c' _} h hrun := by
    rw [chargeStateGas_run] at hrun
    split at hrun
    · next hle =>
      cases hrun
      exact ⟨h.gas.charge hle, h.msg, h.auth, h.error, h.stack⟩
    split at hrun
    · next hgt hle =>
      cases hrun
      exact ⟨h.gas.spill hG hR hgt hle, h.msg, h.auth, h.error, h.stack⟩
    · cases hrun
  error {c c' e} h hrun := by
    rw [chargeStateGas_run] at hrun
    split at hrun
    · cases hrun
    split at hrun
    · cases hrun
    · cases hrun
      exact h.failing _

/-- A charge whose effect on the state gas is forgotten. -/
theorem triple_chargeStateGas_le (hG : G < 2 ^ 52) (hR : R + 981 * G < 2 ^ 62) (amount : Word) :
    Triple (InFrame G R m a) (chargeStateGas amount) (fun _ => InFrame G R m a)
      (Failing G m a) :=
  (triple_chargeStateGas hG hR amount).post fun _ _ h => h.mono (by omega)

theorem triple_credit (hG : G < 2 ^ 52) (hR : R + 981 * G < 2 ^ 62) (amount : Word) {E : Exn → Ctx → Prop} :
    Triple (InFrame G (R - amount.toNat) m a) (creditStateGasRefund amount)
      (fun _ => InFrame G R m a) E :=
  triple_modifyEv fun _ h => ⟨h.gas.credit hG hR, h.msg, h.auth, h.error, h.stack⟩

end

end StatelessGuest
