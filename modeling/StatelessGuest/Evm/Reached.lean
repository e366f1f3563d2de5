import StatelessGuest.Evm.Exact
import StatelessGuest.Evm.Termination

/-!
# Memory that is paid for

A frame has used at least what its memory costs: every instruction on the memory keeps this, and
one that starts a child leaves its frame with a memory that covers the output range of the child.

* `Paid`: the memory of a frame is paid for.
* `Covered`: what an instruction leaves.
* `readies_ideal`: what the instructions over unbounded integers leave.
-/

namespace StatelessGuest

open Lib

/-! ## A memory that is paid for -/

/-- The length of the memory stays. -/
def SameLen (c c' : Ctx) : Prop := c'.ev.mem.length = c.ev.mem.length

instance : Std.Refl SameLen := ⟨fun _ => rfl⟩

instance : IsTrans Ctx SameLen := ⟨fun _ _ _ h h' => Eq.trans h' h⟩

theorem sameLen {α : Type} {x : EvmM α} (h : Keeps SameMem x) : Keeps SameLen x :=
  h.mono fun _ _ hmem => congrArg List.length hmem

/-- The memory has `len` bytes, the gas of the frame is at most `T` and at least `r` is used. -/
def Holding (T len r : Nat) (c : Ctx) : Prop := HasLen len c ∧ Meter T r c

/-- The memory is whole words, and what it costs is used. -/
def Paid (T : Nat) (c : Ctx) : Prop := ∃ len, 32 ∣ len ∧ Holding T len (memCost len) c

section

variable {α β : Type} {T len r : Nat}

theorem Holding.paid {c : Ctx} (hlen : 32 ∣ len) (hr : memCost len ≤ r) (h : Holding T len r c) :
    Paid T c :=
  ⟨len, hlen, h.1, h.2.mono (Nat.le_refl _) hr⟩

theorem triple_holding (hT : T < 2 ^ 64) {x : EvmM α} (hl : Keeps SameLen x)
    (hm : Keeps Metered x) :
    Triple (Holding T len r) x (fun _ => Holding T len r) fun _ _ => True where
  ok h hrun := ⟨Eq.trans (hl.ok hrun) h.1, h.2.step hT (hm.ok hrun)⟩
  error _ _ := trivial

theorem triple_paid (hT : T < 2 ^ 64) {x : EvmM α} (hl : Keeps SameLen x) (hm : Keeps Metered x) :
    Triple (Paid T) x (fun _ => Paid T) fun _ _ => True where
  ok h hrun := by
    obtain ⟨len, hlen, h⟩ := h
    exact ((triple_holding hT hl hm).ok h hrun).paid hlen (Nat.le_refl _)
  error _ _ := trivial

/-- The charge pays for the memory to come. -/
theorem triple_charge (hT : T < 2 ^ 64) (own : Nat) (rs : List MemRange) :
    Triple (Holding T len (memCost len)) (Ideal.chargeRanges own rs) (fun new c =>
      new = coverLen len rs ∧ Holding T len (memCost new + own) c) fun _ _ => True := by
  refine ⟨fun {c c' new} h hrun => ?_, fun _ _ => trivial⟩
  obtain ⟨hlen, htotal, hused⟩ := h
  have hlen' : c.ev.mem.length = len := hlen
  unfold Ideal.chargeRanges at hrun
  rw [bind_run_ok (show getEv c = .ok c.ev c from rfl)] at hrun
  by_cases hgas : c.ev.gasLeft.toNat < own + extensionCost c.ev.mem.length rs
  · rw [if_pos hgas] at hrun
    cases hrun
  · rw [if_neg hgas] at hrun
    cases hrun
    have hmono : memCost len ≤ memCost (coverLen len rs) := memCost_mono (le_coverLen len rs)
    rw [hlen'] at hgas ⊢
    unfold Frame.gasTotal at htotal
    unfold extensionCost at hgas ⊢
    refine ⟨rfl, hlen', ?_, ?_⟩
    · unfold Frame.gasTotal
      dsimp only
      rw [BitVec.toNat_add, BitVec.toNat_ofNat, BitVec.toNat_ofNat,
        Nat.mod_eq_of_lt (a := own + _) (by omega), Nat.mod_eq_of_lt (by omega),
        Nat.mod_eq_of_lt (by omega)]
      omega
    · dsimp only
      rw [BitVec.toNat_add, BitVec.toNat_ofNat, Nat.mod_eq_of_lt (a := own + _) (by omega),
        Nat.mod_eq_of_lt (by omega)]
      omega

theorem triple_growTo {new : Nat} (hle : len ≤ new) :
    Triple (Holding T len r) (Ideal.growTo new) (fun _ => Holding T new r) fun _ _ => True := by
  refine .modify fun c h => ⟨?_, h.2⟩
  have hlen : c.ev.mem.length = len := h.1
  change (c.ev.mem ++ List.replicate (new - c.ev.mem.length) 0).length = new
  rw [List.length_append, List.length_replicate, hlen]
  omega

/-- What follows the charge on a frame that had `len` bytes of memory. -/
theorem paid_charge {Q : α → Ctx → Prop} (hT : T < 2 ^ 64) {own : Nat} {rs : List MemRange}
    {k : Nat → EvmM α} (hk : ∀ len, 32 ∣ len →
      Triple (Holding T len (memCost (coverLen len rs) + own)) (k (coverLen len rs)) Q
        fun _ _ => True) :
    Triple (Paid T) (Ideal.chargeRanges own rs >>= k) Q fun _ _ => True := by
  refine .of_exists fun len => .of_fact fun hlen => .bind (triple_charge hT own rs) fun new => ?_
  refine .of_fact fun hnew => ?_
  rw [hnew]
  exact hk len hlen

/-- The charge, the growth and a rest that leaves the length of the memory. -/
theorem paid_charge_grow (hT : T < 2 ^ 64) {own : Nat} {rs : List MemRange} {k : EvmM α}
    (hl : Keeps SameLen k) (hm : Keeps Metered k) :
    Triple (Paid T) (Ideal.chargeRanges own rs >>= fun len => Ideal.growTo len >>= fun _ => k)
      (fun _ => Paid T) fun _ _ => True :=
  paid_charge hT fun len hlen => .bind (triple_growTo (le_coverLen len rs)) fun _ =>
    (triple_holding hT hl hm).post fun _ _ h =>
      h.paid (dvd_coverLen hlen rs) (Nat.le_add_right _ _)

end

/-! ## Accesses -/

section

variable [Stray] {R : Ctx → Ctx → Prop} [Inert R]

instance (r : MemRange) : Keeps R (Ideal.checkRange r) := by
  unfold Ideal.checkRange
  infer_instance

instance (r : MemRange) : Keeps R (Ideal.readRange r) := by
  unfold Ideal.readRange
  infer_instance

end

section

variable [Stray]

theorem metered_writeRange (r : MemRange) (bs : Bytes) : Keeps Metered (Ideal.writeRange r bs) := by
  unfold Ideal.writeRange
  have hwrite : Keeps Metered (modifyEv fun e => { e with
      mem := e.mem.take r.start.toNat ++ bs ++ e.mem.drop (r.start.toNat + bs.length) }) :=
    Keeps.modify fun c => Stores.store c _
  infer_instance

/-- A write that passes its check leaves the length of the memory. -/
theorem sameLen_writeRange {r : MemRange} {bs : Bytes} (h : bs.length ≤ r.size.toNat) :
    Keeps SameLen (Ideal.writeRange r bs) := by
  refine ⟨fun c => ?_⟩
  unfold Ideal.writeRange Ideal.checkRange
  rw [bind_assoc, bind_run_ok (show getEv c = .ok c.ev c from rfl)]
  by_cases hout : r.size ≠ 0 ∧ c.ev.mem.length < r.start.toNat + r.size.toNat
  · rw [if_pos hout]
    exact rfl
  rw [if_neg hout, bind_run_ok (show (pure () : EvmM Unit) c = .ok () c from rfl)]
  by_cases hsize : r.size = 0
  · rw [if_pos hsize]
    exact rfl
  rw [if_neg hsize]
  have hin : r.start.toNat + r.size.toNat ≤ c.ev.mem.length :=
    Nat.not_lt.mp fun hlt => hout ⟨hsize, hlt⟩
  change (c.ev.mem.take r.start.toNat ++ bs ++
    c.ev.mem.drop (r.start.toNat + bs.length)).length = c.ev.mem.length
  simp only [List.length_append, List.length_take, List.length_drop]
  omega

omit [Stray] in
theorem length_bufferRead (buf : Bytes) (start size : Word) :
    (bufferRead buf start size).length = size.toNat := by
  unfold bufferRead
  dsimp only
  rw [List.length_append, List.length_replicate, List.length_take]
  omega

omit [Stray] in
theorem satWord_le (v : U256) : (satWord v).toNat ≤ v.toNat := by
  rw [satWord_toNat]
  exact Nat.min_le_left _ _

theorem sameLen_copy (start size : U256) (buf : Bytes) (off : Word) :
    Keeps SameLen
      (Ideal.writeRange ⟨start, size⟩ (bufferRead buf off (satWord size)) >>= fun _ => pcAdd 1) :=
  Keeps.seq (sameLen_writeRange (by
    rw [length_bufferRead]
    exact satWord_le size)) fun _ => sameLen inferInstance

theorem metered_write (r : MemRange) (bs : Bytes) :
    Keeps Metered (Ideal.writeRange r bs >>= fun _ => pcAdd 1) :=
  Keeps.seq (metered_writeRange r bs) fun _ => inferInstance

end

/-! ## Instructions inside a frame -/

section

variable [Stray] {T : Nat}

/-- An instruction keeps the memory paid for. -/
def Keeping (T : Nat) (x : EvmM Unit) : Prop :=
  Triple (Paid T) x (fun _ => Paid T) fun _ _ => True

omit [Stray] in
theorem keeping_before {α : Type} (hT : T < 2 ^ 64) {x : EvmM α} {f : α → EvmM Unit}
    (hl : Keeps SameMem x) (hm : Keeps Metered x) (hf : ∀ a, Keeping T (f a)) :
    Keeping T (x >>= f) :=
  .bind (triple_paid hT (sameLen hl) hm) hf

theorem keeping_opKeccak [Keccak] (hT : T < 2 ^ 64) : Keeping T Ideal.opKeccak := by
  unfold Ideal.opKeccak
  iterate 2 refine keeping_before hT inferInstance inferInstance fun _ => ?_
  exact paid_charge_grow hT (sameLen inferInstance) inferInstance

theorem keeping_opMload (hT : T < 2 ^ 64) : Keeping T Ideal.opMload := by
  unfold Ideal.opMload
  refine keeping_before hT inferInstance inferInstance fun _ => ?_
  exact paid_charge_grow hT (sameLen inferInstance) inferInstance

theorem keeping_opMstore (hT : T < 2 ^ 64) : Keeping T Ideal.opMstore := by
  unfold Ideal.opMstore
  iterate 2 refine keeping_before hT inferInstance inferInstance fun _ => ?_
  refine paid_charge_grow hT ?_ (metered_write _ _)
  refine Keeps.seq (sameLen_writeRange ?_) fun _ => sameLen inferInstance
  exact (length_beBytes 32 _).le

theorem keeping_opMstore8 (hT : T < 2 ^ 64) : Keeping T Ideal.opMstore8 := by
  unfold Ideal.opMstore8
  iterate 2 refine keeping_before hT inferInstance inferInstance fun _ => ?_
  refine paid_charge_grow hT ?_ (metered_write _ _)
  exact Keeps.seq (sameLen_writeRange (Nat.le_refl 1)) fun _ => sameLen inferInstance

/-- What is read is at most as long as its range. -/
theorem length_readRange {r : MemRange} {c c' : Ctx} {bs : Bytes}
    (h : Ideal.readRange r c = .ok bs c') : bs.length ≤ r.size.toNat := by
  unfold Ideal.readRange at h
  obtain ⟨_, c₁, -, h⟩ := bind_ok.mp h
  cases h
  exact List.length_take_le _ _

theorem keeping_opMcopy (hT : T < 2 ^ 64) : Keeping T Ideal.opMcopy := by
  unfold Ideal.opMcopy
  refine keeping_before hT inferInstance inferInstance fun dst => ?_
  refine keeping_before hT inferInstance inferInstance fun src => ?_
  refine keeping_before hT inferInstance inferInstance fun n => ?_
  refine paid_charge_grow hT ⟨fun c => ?_⟩ (Keeps.seq inferInstance fun _ => metered_write _ _)
  rw [bind_run]
  cases hread : Ideal.readRange ⟨src, n⟩ c with
  | ok bs c' =>
    have hlen : bs.length ≤ n.toNat := length_readRange hread
    have hcopy : Keeps SameLen (Ideal.writeRange ⟨dst, n⟩ bs >>= fun _ => pcAdd 1) :=
      Keeps.seq (sameLen_writeRange hlen) fun _ => sameLen inferInstance
    exact trans_of SameLen ((sameLen inferInstance).ok hread) (hcopy.rel c')
  | error e c' => exact (sameLen inferInstance).error hread

theorem keeping_opLog (hT : T < 2 ^ 64) (ntopics : Nat) : Keeping T (Ideal.opLog ntopics) := by
  unfold Ideal.opLog
  iterate 3 refine keeping_before hT inferInstance inferInstance fun _ => ?_
  split
  case' isTrue => refine keeping_before hT inferInstance inferInstance fun _ => ?_
  all_goals
    refine paid_charge hT fun len hlen => ?_
    refine .bind (triple_holding hT (sameLen inferInstance) inferInstance) fun _ => ?_
    refine .bind (triple_growTo (le_coverLen len _)) fun _ => ?_
    refine (triple_holding hT (sameLen inferInstance) inferInstance).post fun _ _ h => ?_
    exact h.paid (dvd_coverLen hlen _) (Nat.le_add_right _ _)

theorem paid_popOutput (hT : T < 2 ^ 64) :
    Triple (Paid T) Ideal.popOutput (fun _ => Paid T) fun _ _ => True := by
  unfold Ideal.popOutput
  iterate 2 refine .bind (triple_paid hT (sameLen inferInstance) inferInstance) fun _ => ?_
  exact paid_charge_grow hT (sameLen inferInstance) inferInstance

theorem keeping_opReturn (hT : T < 2 ^ 64) : Keeping T Ideal.opReturn :=
  .bind (paid_popOutput hT) fun _ => triple_paid hT (sameLen inferInstance) inferInstance

theorem keeping_opRevert (hT : T < 2 ^ 64) : Keeping T Ideal.opRevert :=
  .bind (paid_popOutput hT) fun _ => triple_paid hT (sameLen inferInstance) inferInstance

theorem keeping_copyFromBuffer (hT : T < 2 ^ 64) (buf : Bytes) :
    Keeping T (Ideal.copyFromBuffer buf) := by
  unfold Ideal.copyFromBuffer
  iterate 3 refine keeping_before hT inferInstance inferInstance fun _ => ?_
  exact paid_charge_grow hT (sameLen_copy _ _ _ _) (metered_write _ _)

theorem keeping_opCalldatacopy (hT : T < 2 ^ 64) : Keeping T Ideal.opCalldatacopy :=
  keeping_before hT inferInstance inferInstance fun _ => keeping_copyFromBuffer hT _

theorem keeping_opCodecopy (hT : T < 2 ^ 64) : Keeping T Ideal.opCodecopy :=
  keeping_before hT inferInstance inferInstance fun _ => keeping_copyFromBuffer hT _

theorem keeping_opReturndatacopy (hT : T < 2 ^ 64) : Keeping T Ideal.opReturndatacopy := by
  unfold Ideal.opReturndatacopy
  iterate 3 refine keeping_before hT inferInstance inferInstance fun _ => ?_
  refine paid_charge hT fun len hlen => ?_
  refine .bind (triple_holding hT (sameLen inferInstance) inferInstance) fun _ => ?_
  dsimp only
  split
  case' isTrue =>
    refine .bind (triple_holding hT (sameLen inferInstance) inferInstance) fun _ => ?_
  all_goals
    refine .bind (triple_growTo (le_coverLen len _)) fun _ => ?_
    refine (triple_holding hT (sameLen_copy _ _ _ _) (metered_write _ _)).post fun _ _ h => ?_
    exact h.paid (dvd_coverLen hlen _) (Nat.le_add_right _ _)

theorem keeping_opExtcodecopy [Keccak] (hT : T < 2 ^ 64) (w : Witness) :
    Keeping T (Ideal.opExtcodecopy w) := by
  unfold Ideal.opExtcodecopy
  iterate 5 refine keeping_before hT inferInstance inferInstance fun _ => ?_
  refine paid_charge hT fun len hlen => ?_
  refine .bind (triple_holding hT (sameLen inferInstance) inferInstance) fun _ => ?_
  refine .bind (triple_growTo (le_coverLen len _)) fun _ => ?_
  refine .bind (triple_holding hT (sameLen inferInstance) inferInstance) fun _ => ?_
  refine (triple_holding hT (sameLen_copy _ _ _ _) (metered_write _ _)).post fun _ _ h => ?_
  exact h.paid (dvd_coverLen hlen _) (Nat.le_add_right _ _)

end

/-! ## Creations -/

/-- The output range of a child lies in its caller's memory of `len` bytes. -/
def OutInside (outStart outSize : Word) (len : Nat) : Prop :=
  outSize ≠ 0 → outStart.toNat + outSize.toNat ≤ len

/-- A frame after an instruction: its memory is paid for besides what it has given its child, whose
output range it covers. -/
def Covered (T : Nat) : Option ChildReq → Ctx → Prop
  | none, c => Paid T c
  | some req, c => ∃ len, 32 ∣ len ∧ HasLen len c ∧ Lent req.msg.gas T (memCost len) c ∧
      OutInside req.outStart req.outSize len

/-- What an instruction that may start a child leaves on a memory of `len` bytes. -/
def Left (T len r : Nat) (started : Option ChildReq) (c : Ctx) : Prop :=
  HasLen len c ∧ Issued T r started c ∧ ∀ req, started = some req → OutInside req.outStart req.outSize len

section

variable {T len r : Nat}

theorem Left.covered {started : Option ChildReq} {c : Ctx} (hlen : 32 ∣ len) (hr : memCost len ≤ r)
    (h : Left T len r started c) : Covered T started c := by
  obtain ⟨hhas, hissued, hout⟩ := h
  cases started with
  | none => exact ⟨len, hlen, hhas, Meter.mono hissued (Nat.le_refl _) hr⟩
  | some req =>
    obtain ⟨T', hT', hm⟩ := hissued
    exact ⟨len, hlen, hhas, ⟨T', hT', hm.mono (Nat.le_refl _) hr⟩, hout req rfl⟩

theorem left_pcAddIfDone (hT : T < 2 ^ 64) (started : Option ChildReq) :
    Triple (Left T len r started) (pcAddIfDone started) (Left T len r) fun _ _ => True := by
  have hsame : Keeps SameLen (pcAddIfDone started) := sameLen inferInstance
  refine ⟨fun {c c' s} h hrun => ?_, fun _ _ => trivial⟩
  have hs : s = started := by
    unfold pcAddIfDone at hrun
    split at hrun
    · obtain ⟨_, c₁, -, hret⟩ := bind_ok.mp hrun
      cases hret
      rfl
    · cases hrun
      rfl
  refine ⟨Eq.trans (hsame.ok hrun) h.1, (issued_pcAddIfDone hT started).ok h.2.1 hrun, ?_⟩
  rw [hs]
  exact h.2.2

variable {w : Witness}

/-- The output range of a creation is empty. -/
theorem outSize_genericCreate [Keccak] (endowment : U256) (contract : Address)
    (mstart msize : Word) :
    Triple (fun _ => True) (genericCreate w endowment contract mstart msize)
      (fun started _ => ∀ req, started = some req → req.outSize = 0) fun _ _ => True := by
  have hany : ∀ {α : Type} (x : EvmM α),
      Triple (fun _ => True) x (fun _ _ => True) fun _ _ => True :=
    fun _ => ⟨fun _ _ => trivial, fun _ _ => trivial⟩
  unfold genericCreate
  dsimp only
  split
  case' isTrue => refine .bind (hany _) fun _ => ?_
  all_goals
    iterate 4 refine .bind (hany _) fun _ => ?_
    split
    · exact .bind (hany _) fun _ => .pure fun _ _ _ h => by cases h
    iterate 4 refine .bind (hany _) fun _ => ?_
    split
    · iterate 2 refine .bind (hany _) fun _ => ?_
      exact .pure fun _ _ req h => by
        cases h
        rfl
    · exact .bind (hany _) fun _ => .pure fun _ _ _ h => by cases h

/-! ## Programs that leave the memory alone -/

section

variable [Keccak]

instance : Keeps SameMem takeCreateGas :=
  Keeps.seq inferInstance fun _ => Keeps.seq (sameMem_modifyEv fun _ => rfl) fun _ => inferInstance

instance (sender : Address) (createGas : Word) (charged : Bool) :
    Keeps SameMem (createCollision w sender createGas charged) :=
  Keeps.seq inferInstance fun _ => Keeps.seq (sameMem_modifyEv fun _ => rfl) fun _ => inferInstance

instance (endowment : U256) (contract : Address) (mstart msize : Word) :
    Keeps SameMem (genericCreate w endowment contract mstart msize) := by
  unfold genericCreate
  dsimp only
  split
  case' isTrue => refine Keeps.seq inferInstance fun _ => ?_
  all_goals
    iterate 4 refine Keeps.seq inferInstance fun _ => ?_
    split
    · infer_instance
    iterate 4 refine Keeps.seq inferInstance fun _ => ?_
    split
    · infer_instance
    · infer_instance

instance (gas reservoir : Word) : Keeps SameMem (returnCallGas gas reservoir) :=
  sameMem_modifyEv fun _ => rfl

-- five steps, each an instance that goes through `Still`
set_option synthInstance.maxSize 1000 in
instance (gas reservoir : Word) (charged : Bool) :
    Keeps SameMem (callUnpaid gas reservoir charged) := by
  unfold callUnpaid
  infer_instance

instance (gas reservoir : Word) (value : U256) (caller dst codeAddress : Address)
    (transfer isStatic : Bool) (ranges : CallRanges) (code : Bytes) (disablePre charged : Bool) :
    Keeps SameMem (genericCall gas reservoir value caller dst codeAddress transfer isStatic ranges
      code disablePre charged) := by
  unfold genericCall
  iterate 2 refine Keeps.seq inferInstance fun _ => ?_
  split
  · infer_instance
  · infer_instance

end

/-! ## Creations -/

section

variable [Stray] [Keccak]

omit [Stray] in
theorem left_genericCreate (hT : T < 2 ^ 64) (endowment : U256) (contract : Address)
    (mstart msize : Word) :
    Triple (Holding T len r) (genericCreate w endowment contract mstart msize) (Left T len r)
      fun _ _ => True := by
  refine ⟨fun {c c' started} h hrun => ⟨?_, ?_, fun req hreq hne => ?_⟩, fun _ _ => trivial⟩
  · exact Eq.trans ((sameLen inferInstance).ok hrun) h.1
  · exact ((issues_genericCreate w _ _ _ _).triple hT).ok h.2 hrun
  · exact absurd ((outSize_genericCreate _ _ _ _).ok trivial hrun req hreq) hne

/-- An instruction that may start a child. -/
def Readies (T : Nat) (x : EvmM (Option ChildReq)) : Prop :=
  Triple (Paid T) x (Covered T) fun _ _ => True

omit [Stray] [Keccak] in
theorem readies_before {α : Type} (hT : T < 2 ^ 64) {x : EvmM α}
    {f : α → EvmM (Option ChildReq)} (hl : Keeps SameMem x) (hm : Keeps Metered x)
    (hf : ∀ a, Readies T (f a)) : Readies T (x >>= f) :=
  .bind (triple_paid hT (sameLen hl) hm) hf

omit [Stray] [Keccak] in
theorem readies_plain {x : EvmM Unit} (h : Keeping T x) : Readies T (plain x) :=
  .bind h fun _ => .pure fun _ h => h

theorem readies_opCreate (hT : T < 2 ^ 64) : Readies T (Ideal.opCreate w) := by
  unfold Ideal.opCreate
  iterate 4 refine readies_before hT inferInstance inferInstance fun _ => ?_
  refine paid_charge hT fun len hlen => .bind (triple_growTo (le_coverLen len _)) fun _ => ?_
  iterate 3 refine .bind (triple_holding hT (sameLen inferInstance) inferInstance) fun _ => ?_
  refine .bind (left_genericCreate hT _ _ _ _) fun started => ?_
  exact (left_pcAddIfDone hT started).post fun _ _ h =>
    h.covered (dvd_coverLen hlen _) (Nat.le_add_right _ _)

theorem readies_opCreate2 (hT : T < 2 ^ 64) : Readies T (Ideal.opCreate2 w) := by
  unfold Ideal.opCreate2
  iterate 5 refine readies_before hT inferInstance inferInstance fun _ => ?_
  refine paid_charge hT fun len hlen => .bind (triple_growTo (le_coverLen len _)) fun _ => ?_
  iterate 2 refine .bind (triple_holding hT (sameLen inferInstance) inferInstance) fun _ => ?_
  refine .bind (left_genericCreate hT _ _ _ _) fun started => ?_
  exact (left_pcAddIfDone hT started).post fun _ _ h =>
    h.covered (dvd_coverLen hlen _) (Nat.le_add_right _ _)

/-! ## Calls -/

omit [Stray] in
theorem paid_accessCallee (hT : T < 2 ^ 64) (addr : Address) (value : U256) (ranges : CallRanges)
    {k : Ideal.Callee → EvmM (Option ChildReq)} (hk : ∀ len delegates codeAddress code, 32 ∣ len →
      Triple (Holding T len (memCost (coverLen len (Ideal.callRanges ranges)) +
          (stipend value).toNat))
        (k ⟨coverLen len (Ideal.callRanges ranges), delegates, codeAddress, code⟩) (Covered T)
        fun _ _ => True) :
    Readies T (Ideal.accessCallee w addr value ranges >>= k) := by
  unfold Ideal.accessCallee
  simp only [bind_assoc, pure_bind]
  refine readies_before hT inferInstance inferInstance fun warm => ?_
  refine paid_charge hT fun len hlen => ?_
  have hown : (stipend value).toNat ≤
      (if warm = true then 100 else 3000) + if value = 0 then 0 else 11300 := by
    unfold stipend
    split <;> split <;> decide
  refine Triple.pre (P := Holding T len (memCost (coverLen len (Ideal.callRanges ranges)) +
    (stipend value).toNat)) ?_ fun _ h =>
      ⟨h.1, h.2.mono (Nat.le_refl _) (Nat.add_le_add_left hown _)⟩
  iterate 4 refine .bind (triple_holding hT (sameLen inferInstance) inferInstance) fun _ => ?_
  exact hk _ _ _ _ hlen

omit [Stray] [Keccak] in
theorem hasLen_idealSplit {new : Nat} (hle : len ≤ new) (value gas : U256) :
    Triple (HasLen len) (Ideal.splitCallGas value gas new) (fun _ => HasLen new)
      fun _ _ => True := by
  have hstep : ∀ {α : Type} {n : Nat} {x : EvmM α}, Keeps SameMem x →
      Triple (HasLen n) x (fun _ => HasLen n) fun _ _ => True :=
    fun hx => .of_keeps hx (fun _ _ h hs => h.step hs) fun _ _ _ => trivial
  unfold Ideal.splitCallGas
  iterate 2 refine .bind (hstep inferInstance) fun _ => ?_
  refine .bind (hstep (sameMem_modifyEv fun _ => rfl)) fun _ => ?_
  refine .bind (Q := fun _ => HasLen new) (.modify fun c h => ?_) fun _ => ?_
  · have hlen : c.ev.mem.length = len := h
    change (c.ev.mem ++ List.replicate (new - c.ev.mem.length) 0).length = new
    rw [List.length_append, List.length_replicate, hlen]
    omega
  · exact .bind (hstep inferInstance) fun _ => hstep inferInstance

omit [Stray] [Keccak] in
theorem Meter.le {c : Ctx} (h : Meter T r c) : r ≤ T := by
  obtain ⟨htotal, hused⟩ := h
  unfold Frame.gasTotal at htotal
  omega

omit [Stray] [Keccak] in
theorem lt_memBound {n : Nat} (h : memCost n < costBound) : n < memBound := by
  by_contra hge
  have hcost : costBound ≤ memCost n := memCost_mono (Nat.not_lt.mp hge)
  omega

omit [Stray] [Keccak] in
/-- The child's gas is lent from what is used besides the memory, which grows. -/
theorem lent_idealSplit (hT : T < costBound) {new : Nat} (hle : len ≤ new) (value gas : U256) :
    Triple (Holding T len (memCost new + (stipend value).toNat))
      (Ideal.splitCallGas value gas new) (fun g c => HasLen new c ∧ Lent g.1 T (memCost new) c)
      fun _ _ => True := by
  refine ⟨fun {c c' g} h hrun => ⟨(hasLen_idealSplit hle value gas).ok h.1 hrun, ?_⟩,
    fun _ _ => trivial⟩
  have hT' : T < 2 ^ 64 := Nat.lt_trans hT (by decide)
  have hlt : new < memBound := by
    have hr := h.2.le
    exact lt_memBound (by omega)
  have hagree : Agree (HasLen len) (splitCallGas value gas (BitVec.ofNat 64 (new - len)))
      (Ideal.splitCallGas value gas new) := by
    simpa only [bind_pure] using
      agree_splitCallGas value gas hle hlt fun g => Agree.refl (pure g : EvmM (Word × Word))
  rw [← hagree.eq c h.1] at hrun
  exact (lent_splitCallGas hT' value gas _).ok h.2 hrun

omit [Keccak] in
theorem checkRange_ok {s : MemRange} {c c' : Ctx} (h : Ideal.checkRange s c = .ok () c') :
    c' = c ∧ (s.size ≠ 0 → s.start.toNat + s.size.toNat ≤ c.ev.mem.length) := by
  unfold Ideal.checkRange at h
  rw [bind_run_ok (show getEv c = .ok c.ev c from rfl)] at h
  by_cases hout : s.size ≠ 0 ∧ c.ev.mem.length < s.start.toNat + s.size.toNat
  · rw [if_pos hout] at h
    cases h
  · rw [if_neg hout] at h
    cases h
    exact ⟨rfl, fun hsize => Nat.not_lt.mp fun hlt => hout ⟨hsize, hlt⟩⟩

omit [Stray] [Keccak] in
/-- The words of a range that lies in the memory. -/
theorem outInside_of_range {req : ChildReq} {s : MemRange} (hstart : req.outStart = satWord s.start)
    (hsize : req.outSize = satWord s.size)
    (hin : s.size ≠ 0 → s.start.toNat + s.size.toNat ≤ len) : OutInside req.outStart req.outSize len := by
  intro hne
  rw [hstart, hsize]
  have hle := satWord_le s.start
  have hle' := satWord_le s.size
  have hpos : s.size ≠ 0 := by
    intro hzero
    rw [hsize, hzero] at hne
    exact hne rfl
  have := hin hpos
  omega

omit [Stray] [Keccak] in
theorem genericCall_out {gas reservoir : Word} {value : U256} {caller dst codeAddress : Address}
    {transfer isStatic : Bool} {ranges : CallRanges} {code : Bytes} {disablePre charged : Bool}
    {c c' : Ctx} {req : ChildReq} (h : genericCall gas reservoir value caller dst codeAddress
      transfer isStatic ranges code disablePre charged c = .ok (some req) c') :
    req.outStart = satWord ranges.outStart ∧ req.outSize = satWord ranges.outSize := by
  unfold genericCall at h
  obtain ⟨_, c₁, -, h⟩ := bind_ok.mp h
  obtain ⟨e, c₂, -, h⟩ := bind_ok.mp h
  split at h
  · obtain ⟨_, c₃, -, h⟩ := bind_ok.mp h
    obtain ⟨_, c₄, -, h⟩ := bind_ok.mp h
    obtain ⟨_, c₅, -, h⟩ := bind_ok.mp h
    cases h
  · cases h
    exact ⟨rfl, rfl⟩

omit [Keccak] in
theorem left_genericCall (hT : T < 2 ^ 64) (g reservoir : Word) (value : U256)
    (caller dst codeAddress : Address) (transfer isStatic : Bool) (ranges : CallRanges)
    (code : Bytes) (disablePre charged : Bool) :
    Triple (fun c => HasLen len c ∧ Lent g T r c)
      (Ideal.genericCall g reservoir value caller dst codeAddress transfer isStatic ranges code
        disablePre charged) (Left T len r) fun _ _ => True := by
  refine ⟨fun {c c' started} h hrun => ?_, fun _ _ => trivial⟩
  unfold Ideal.genericCall at hrun
  obtain ⟨_, c₁, hin, hrest⟩ := bind_ok.mp hrun
  obtain ⟨_, c₂, hout, hcall⟩ := bind_ok.mp hrest
  obtain ⟨rfl, -⟩ := checkRange_ok hin
  obtain ⟨rfl, hrange⟩ := checkRange_ok hout
  refine ⟨Eq.trans ((sameLen inferInstance).ok hcall) h.1, ?_, fun req hreq => ?_⟩
  · exact (issued_genericCall hT _ _ _ _ _ _ _ _ _ _ _).ok h.2 hcall
  · subst hreq
    obtain ⟨hstart, hsize⟩ := genericCall_out hcall
    have hlen : c₂.ev.mem.length = len := h.1
    rw [hlen] at hrange
    exact outInside_of_range (s := ⟨ranges.outStart, ranges.outSize⟩) hstart hsize hrange

omit [Stray] [Keccak] in
theorem left_callUnpaid (hT : T < 2 ^ 64) (g reservoir : Word) (charged : Bool) :
    Triple (fun c => HasLen len c ∧ Lent g T r c) (callUnpaid g reservoir charged) (Left T len r)
      fun _ _ => True := by
  refine ⟨fun {c c' started} h hrun => ?_, fun _ _ => trivial⟩
  refine ⟨Eq.trans ((sameLen inferInstance).ok hrun) h.1, ?_, fun req hreq => ?_⟩
  · exact (issued_callUnpaid hT _ _).ok h.2 hrun
  · unfold callUnpaid at hrun
    iterate 4 obtain ⟨_, _, -, hrun⟩ := bind_ok.mp hrun
    cases hrun
    cases hreq

omit [Stray] [Keccak] in
/-- What follows the split of the gas. -/
theorem covered_split (hT : T < costBound) (hlen : 32 ∣ len) {rs : List MemRange} (value gas : U256)
    {f : Word × Word → EvmM (Option ChildReq)} (hf : ∀ (g : Word × Word) {n r : Nat},
      Triple (fun c => HasLen n c ∧ Lent g.1 T r c) (f g) (Left T n r) fun _ _ => True) :
    Triple (Holding T len (memCost (coverLen len rs) + (stipend value).toNat))
      (Ideal.splitCallGas value gas (coverLen len rs) >>= f) (Covered T) fun _ _ => True :=
  .bind (lent_idealSplit hT (le_coverLen len rs) value gas) fun g => (hf g).post fun _ _ h =>
    h.covered (dvd_coverLen hlen rs) (Nat.le_refl _)

/-- A child that starts unless its caller cannot pay the value. -/
theorem left_started (hT : T < 2 ^ 64) (self caller dst codeAddress : Address) (value : U256)
    (ranges : CallRanges) (code : Bytes) (disablePre charged : Bool) (g : Word × Word) :
    Triple (fun c => HasLen len c ∧ Lent g.1 T r c)
      (liftState (loadAccount w self) >>= fun sender =>
        if sender.balance < value then callUnpaid g.1 g.2 charged >>= pcAddIfDone
        else Ideal.genericCall g.1 g.2 value caller dst codeAddress true false ranges code
          disablePre charged >>= pcAddIfDone) (Left T len r) fun _ _ => True := by
  have hload : Triple (fun c => HasLen len c ∧ Lent g.1 T r c) (liftState (loadAccount w self))
      (fun _ c => HasLen len c ∧ Lent g.1 T r c) fun _ _ => True :=
    ⟨fun h hrun => ⟨Eq.trans ((sameLen inferInstance).ok hrun) h.1,
      h.2.step hT (Keeps.ok (R := Metered) inferInstance hrun)⟩, fun _ _ => trivial⟩
  refine .bind hload fun sender => ?_
  split
  · exact .bind (left_callUnpaid hT _ _ _) fun started => left_pcAddIfDone hT started
  · exact .bind (left_genericCall hT _ _ _ _ _ _ _ _ _ _ _ _) fun started =>
      left_pcAddIfDone hT started

theorem readies_opCall (hT : T < costBound) : Readies T (Ideal.opCall w) := by
  have hT' : T < 2 ^ 64 := Nat.lt_trans hT (by decide)
  unfold Ideal.opCall
  iterate 5 refine readies_before hT' inferInstance inferInstance fun _ => ?_
  dsimp only
  split
  case' isTrue => refine readies_before hT' inferInstance inferInstance fun _ => ?_
  all_goals
    refine paid_accessCallee hT' _ _ _ fun len delegates codeAddress code hlen => ?_
    refine .bind (triple_holding hT' (sameLen inferInstance) inferInstance) fun charged => ?_
    exact covered_split hT hlen _ _ fun g {n r} => left_started hT' _ _ _ _ _ _ _ _ _ g

theorem readies_opCallcode (hT : T < costBound) : Readies T (Ideal.opCallcode w) := by
  have hT' : T < 2 ^ 64 := Nat.lt_trans hT (by decide)
  unfold Ideal.opCallcode
  iterate 5 refine readies_before hT' inferInstance inferInstance fun _ => ?_
  refine paid_accessCallee hT' _ _ _ fun len delegates codeAddress code hlen => ?_
  exact covered_split hT hlen _ _ fun g {n r} => left_started hT' _ _ _ _ _ _ _ _ _ g

theorem readies_opDelegatecall (hT : T < costBound) : Readies T (Ideal.opDelegatecall w) := by
  have hT' : T < 2 ^ 64 := Nat.lt_trans hT (by decide)
  unfold Ideal.opDelegatecall
  iterate 4 refine readies_before hT' inferInstance inferInstance fun _ => ?_
  refine paid_accessCallee hT' _ _ _ fun len delegates codeAddress code hlen => ?_
  exact covered_split hT hlen _ _ fun g {n r} => .bind (left_genericCall hT' _ _ _ _ _ _ _ _ _ _ _ _)
    fun started => left_pcAddIfDone hT' started

theorem readies_opStaticcall (hT : T < costBound) : Readies T (Ideal.opStaticcall w) := by
  have hT' : T < 2 ^ 64 := Nat.lt_trans hT (by decide)
  unfold Ideal.opStaticcall
  iterate 4 refine readies_before hT' inferInstance inferInstance fun _ => ?_
  refine paid_accessCallee hT' _ _ _ fun len delegates codeAddress code hlen => ?_
  exact covered_split hT hlen _ _ fun g {n r} => .bind (left_genericCall hT' _ _ _ _ _ _ _ _ _ _ _ _)
    fun started => left_pcAddIfDone hT' started

theorem readies_ideal (hT : T < costBound) (op : MemOp) : Readies T (op.ideal w) := by
  have hT' : T < 2 ^ 64 := Nat.lt_trans hT (by decide)
  cases op with
  | keccak => exact readies_plain (keeping_opKeccak hT')
  | calldatacopy => exact readies_plain (keeping_opCalldatacopy hT')
  | codecopy => exact readies_plain (keeping_opCodecopy hT')
  | extcodecopy => exact readies_plain (keeping_opExtcodecopy hT' w)
  | returndatacopy => exact readies_plain (keeping_opReturndatacopy hT')
  | mload => exact readies_plain (keeping_opMload hT')
  | mstore => exact readies_plain (keeping_opMstore hT')
  | mstore8 => exact readies_plain (keeping_opMstore8 hT')
  | mcopy => exact readies_plain (keeping_opMcopy hT')
  | log ntopics => exact readies_plain (keeping_opLog hT' ntopics)
  | create => exact readies_opCreate hT'
  | call => exact readies_opCall hT
  | callcode => exact readies_opCallcode hT
  | ret => exact readies_plain (keeping_opReturn hT')
  | delegatecall => exact readies_opDelegatecall hT
  | create2 => exact readies_opCreate2 hT'
  | staticcall => exact readies_opStaticcall hT
  | revert => exact readies_plain (keeping_opRevert hT')

end

end

end StatelessGuest
