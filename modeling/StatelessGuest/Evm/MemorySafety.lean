import StatelessGuest.Evm.Reached

/-!
# The memory on a run

On a run of a message with less gas than `costBound` the memory of every live frame is paid for,
so it is sound and every instruction on it is exact; and a caller's memory covers the range that
the output of its child is copied to.

* `readies_opDispatch`: what an instruction leaves of a memory that is paid for.
* `round_safe`, `rounds_safe`: what rounds leave.
* `memory_charging_exact`: the instructions of every frame on a run.
-/

namespace StatelessGuest

open Lib

section

/-- No instruction makes an access outside of the memory, so this is never thrown. -/
private abbrev anyStray : Stray := ⟨.outOfFuel⟩

attribute [local instance] anyStray

variable {T : Nat}

/-! ## Instructions -/

theorem Paid.sound {c : Ctx} (hT : T < costBound) (h : Paid T c) : SoundMem c := by
  obtain ⟨len, hlen, hhas, htotal, hused⟩ := h
  have hlen' : c.ev.mem.length = len := hhas
  unfold Frame.gasTotal at htotal
  refine ⟨hlen' ▸ hlen, ?_⟩
  rw [hlen']
  omega

theorem readies_agree {x y : EvmM (Option ChildReq)} (hT : T < costBound)
    (h : Agree SoundMem x y) (hy : Readies T y) : Readies T x :=
  ⟨fun hc hrun => hy.ok hc ((h.eq _ (hc.sound hT)).symm.trans hrun), fun _ _ => trivial⟩

/-- An instruction that leaves the memory alone. -/
theorem readies_inert (hT : T < costBound) {x : EvmM Unit} (hl : Keeps SameMem x)
    (hm : Keeps Metered x) : Readies T (plain x) :=
  readies_plain (triple_paid (Nat.lt_trans hT (by decide)) (sameLen hl) hm)

variable [Keccak] (w : Witness)

omit [Keccak] in
/-- An instruction on the memory that starts no child. -/
theorem readies_plain_agree (hT : T < costBound) {x y : EvmM Unit} (h : Agree SoundMem x y)
    (hy : Keeping T y) : Readies T (plain x) :=
  readies_agree hT (agree_plain h) (readies_plain hy)

theorem readies_opTable (hT : T < costBound) : ∀ e ∈ opTable w, Readies T (plain e.2) := by
  have hT' : T < 2 ^ 64 := Nat.lt_trans hT (by decide)
  unfold opTable
  simp only [List.forall_mem_cons]
  repeat' apply And.intro
  all_goals try exact readies_inert hT inferInstance inferInstance
  · exact readies_plain_agree hT agree_opKeccak (keeping_opKeccak hT')
  · exact readies_plain_agree hT agree_opCalldatacopy (keeping_opCalldatacopy hT')
  · exact readies_plain_agree hT agree_opCodecopy (keeping_opCodecopy hT')
  · exact readies_plain_agree hT (agree_opExtcodecopy w) (keeping_opExtcodecopy hT' w)
  · exact readies_plain_agree hT agree_opReturndatacopy (keeping_opReturndatacopy hT')
  · exact readies_plain_agree hT agree_opMload (keeping_opMload hT')
  · exact readies_plain_agree hT agree_opMstore (keeping_opMstore hT')
  · exact readies_plain_agree hT agree_opMstore8 (keeping_opMstore8 hT')
  · exact readies_plain_agree hT agree_opMcopy (keeping_opMcopy hT')
  · exact readies_plain_agree hT agree_opReturn (keeping_opReturn hT')
  · exact readies_plain_agree hT agree_opRevert (keeping_opRevert hT')
  · exact fun _ h => nomatch h

theorem readies_opDispatch (hT : T < costBound) (op : Nat) : Readies T (opDispatch w op) := by
  have hT' : T < 2 ^ 64 := Nat.lt_trans hT (by decide)
  refine opDispatch_cases w (P := Readies T) (fun _ => readies_inert hT inferInstance inferInstance)
    (fun _ => readies_inert hT inferInstance inferInstance)
    (fun _ => readies_inert hT inferInstance inferInstance)
    (fun n hn => readies_plain_agree hT (agree_opLog ⟨n, hn⟩) (keeping_opLog hT' n))
    (readies_opTable w hT) ?_ (.throw fun _ _ => trivial) op
  exact callTable_forall w (P := Readies T)
    (readies_agree hT (agree_opCreate w) (readies_opCreate hT'))
    (readies_agree hT (agree_opCall w) (readies_opCall hT))
    (readies_agree hT (agree_opCallcode w) (readies_opCallcode hT))
    (readies_agree hT (agree_opDelegatecall w) (readies_opDelegatecall hT))
    (readies_agree hT (agree_opCreate2 w) (readies_opCreate2 hT'))
    (readies_agree hT (agree_opStaticcall w) (readies_opStaticcall hT))

end

/-! ## The end of a child -/

instance (child : Frame) : Keeps SameMem (incorporateChildOnError child) :=
  sameMem_modifyEv fun _ => rfl

instance (child : Frame) : Keeps SameMem (incorporateChildOnSuccess child) := by
  unfold incorporateChildOnSuccess
  refine Keeps.seq inferInstance fun _ => ?_
  iterate 2 refine Keeps.seq (sameMem_modifyEv fun _ => rfl) fun _ => ?_
  exact sameMem_modifyEv fun _ => rfl

instance (child : Frame) (charged : Bool) : Keeps SameMem (childFailed child charged) := by
  unfold childFailed rollbackChildAccess
  refine Keeps.seq (Keeps.modify fun _ => rfl) fun _ => ?_
  infer_instance

section

variable {outStart outSize : Word} {len : Nat}

/-- What is copied to the caller lies in the range it named. -/
theorem hasLen_copyOutput (child : Frame) (hout : OutInside outStart outSize len) :
    Triple (HasLen len) (copyOutput child outStart outSize) (fun _ => HasLen len)
      fun _ _ => True := by
  refine ⟨fun {c c' _} h hrun => ?_, fun _ _ => trivial⟩
  unfold copyOutput at hrun
  rw [bind_run_ok (show getEv c = .ok c.ev c from rfl)] at hrun
  have hlen : c.ev.mem.length = len := h
  split at hrun
  · next hactual =>
    cases hrun
    have hle : (minWord outSize (lenWord child.output)).toNat ≤ outSize.toNat := by
      rw [minWord_toNat]
      exact Nat.min_le_left _ _
    have hne : outSize ≠ 0 := by
      rintro rfl
      exact hactual (BitVec.eq_of_toNat_eq (Nat.le_zero.mp hle))
    have hin := hout hne
    have htake := List.length_take_le (minWord outSize (lenWord child.output)).toNat c.ev.retdata
    change (c.ev.mem.take outStart.toNat ++ _ ++ c.ev.mem.drop (outStart.toNat + _)).length = len
    simp only [List.length_append, List.length_take, List.length_drop] at htake ⊢
    omega
  · cases hrun
    exact h

theorem hasLen_same {α : Type} {x : EvmM α} (hx : Keeps SameMem x) :
    Triple (HasLen len) x (fun _ => HasLen len) fun _ _ => True :=
  .of_keeps hx (fun _ _ h hs => h.step hs) fun _ _ _ => trivial

theorem hasLen_resume (r : Cont) (child : Frame) (hout : OutInside r.outStart r.outSize len) :
    Triple (HasLen len) (resume r child) (fun _ => HasLen len) fun _ _ => True := by
  refine .bind (Q := fun _ => HasLen len) ?_ fun _ => hasLen_same inferInstance
  unfold Cont.tail genericCreateTail genericCallTail
  split
  · refine hasLen_same ?_
    infer_instance
  split
  · exact .bind (hasLen_same inferInstance) fun _ => hasLen_copyOutput child hout
  · iterate 3 refine .bind (hasLen_same inferInstance) fun _ => ?_
    exact hasLen_copyOutput child hout

end

/-! ## The machine -/

/-- A frame whose memory is whole words, and paid for. -/
structure Frame.Funded (e : Frame) : Prop where
  aligned : 32 ∣ e.mem.length
  paid : memCost e.mem.length ≤ e.regularGasUsed.toNat

theorem Frame.Funded.at {c : Ctx} (h : c.ev.Funded) : Paid c.ev.gasTotal c :=
  ⟨c.ev.mem.length, h.aligned, rfl, Nat.le_refl _, h.paid⟩

theorem Paid.funded {T : Nat} {c : Ctx} (h : Paid T c) : c.ev.Funded := by
  obtain ⟨len, hdvd, hlen, -, hused⟩ := h
  have hlen' : c.ev.mem.length = len := hlen
  exact ⟨hlen' ▸ hdvd, hlen' ▸ hused⟩

/-- The callers of a frame: what each memory costs is used, and it covers the range that the output
of the frame above is copied to. -/
def Waiting : FrameKind → Word → Word → List (Frame × Cont) → Prop
  | .transaction, _, _, _ => True
  | _, _, _, [] => True
  | _, outStart, outSize, (parent, pcont) :: below =>
    parent.Funded ∧ OutInside outStart outSize parent.mem.length ∧
      Waiting pcont.kind pcont.outStart pcont.outSize below

theorem waiting_transaction (outStart outSize : Word) (below : List (Frame × Cont)) :
    Waiting .transaction outStart outSize below := by
  cases below <;> exact trivial

theorem waiting_child {kind : FrameKind} (hkind : kind ≠ .transaction) {outStart outSize : Word}
    {parent : Frame} {pcont : Cont} {below : List (Frame × Cont)} :
    Waiting kind outStart outSize ((parent, pcont) :: below) ↔
      parent.Funded ∧ OutInside outStart outSize parent.mem.length ∧
        Waiting pcont.kind pcont.outStart pcont.outSize below := by
  cases kind with
  | transaction => exact absurd rfl hkind
  | call => exact Iff.rfl
  | create => exact Iff.rfl

/-- The memories of the machine: that of the current frame until the frame is finished, and those
of its callers. -/
structure Machine.Funded (m : Machine) : Prop where
  current : m.cont.done = false → m.ctx.ev.Funded
  callers : Waiting m.cont.kind m.cont.outStart m.cont.outSize m.suspended

section

variable [Keccak] [Crypto] {w : Witness}

omit [Keccak] [Crypto] in
theorem funded_fresh {e : Frame} (h : e.mem = []) : e.Funded := by
  refine ⟨?_, ?_⟩
  · rw [h]
    exact Nat.dvd_zero 32
  · rw [h]
    exact Nat.zero_le _

omit [Crypto] in
/-- A child that starts, whatever its prologue does to it. -/
theorem funded_start {m m' : Machine} {op snap : Nat} {req : ChildReq} {c c' : Ctx}
    (hgas : m.ctx.ev.gasTotal < costBound) (hm : m.Funded) (hat : m.At op)
    (hop : opDispatch w op m.ctx = .ok (some req) c) (hopen : openChild w req c = .ok snap c')
    (hmem : m'.cont.done = false → m'.ctx.ev.mem = []) (hkind : m'.cont.kind = req.kind)
    (hstart : m'.cont.outStart = req.outStart) (hsize : m'.cont.outSize = req.outSize)
    (hs : m'.suspended = (c'.ev, m.cont) :: m.suspended) : m'.Funded := by
  obtain ⟨len, hdvd, hlen, hlent, hout⟩ :=
    (readies_opDispatch w hgas op).ok (hm.current hat.running).at hop
  have hparent : c.ev.Funded := Paid.funded ⟨len, hdvd, hlen, hlent.meter⟩
  have hlen' : c.ev.mem.length = len := hlen
  refine ⟨fun hdone => funded_fresh (hmem hdone), ?_⟩
  rw [hkind, hstart, hsize, hs, waiting_child req.isChild, openChild_ev hopen, hlen']
  exact ⟨hparent, hout, hm.callers⟩

omit [Crypto] in
/-- A caller that goes on after its child. -/
theorem funded_finish {m : Machine} {parent : Frame} {pcont : Cont}
    {below : List (Frame × Cont)} {c c' c'' : Ctx} (hheld : m.held < costBound) (hm : m.Funded)
    (hkind : m.cont.kind ≠ .transaction) (hs : m.suspended = (parent, pcont) :: below)
    (hep : frameEpilogue m.cont.snapshot m.ctx = .ok () c) (hclose : m.cont.close w c = .ok () c')
    (htail : resume m.cont c'.ev { c' with ev := parent } = .ok () c'') :
    Machine.Funded ⟨c'', pcont, below⟩ := by
  have hcallers := hm.callers
  rw [hs, waiting_child hkind] at hcallers
  obtain ⟨hparent, hout, hbelow⟩ := hcallers
  have hlive : m.callers = parent :: callers pcont.kind below := by
    rw [Machine.callers, hs, callers_child hkind]
  have hmetered : Metered m.ctx c' :=
    trans_of Metered (Keeps.ok (x := frameEpilogue m.cont.snapshot) inferInstance hep)
      (Keeps.ok (x := m.cont.close w) inferInstance hclose)
  have hbound : costBound < 2 ^ 64 := by decide
  have hroom : parent.gasTotal + m.ctx.ev.gasTotal < costBound := by
    rw [Machine.held_eq, heldBelow, hlive, List.map_cons, List.sum_cons] at hheld
    omega
  have hchild := (hmetered (by omega)).1
  have hbefore : HasLen parent.mem.length { c' with ev := parent } := rfl
  have hlen := (hasLen_resume m.cont c'.ev hout).ok hbefore htail
  have hlt : parent.gasTotal + c'.ev.gasTotal < 2 ^ 64 := by omega
  have hmeter : Meter parent.gasTotal (memCost parent.mem.length) { c' with ev := parent } :=
    ⟨Nat.le_refl _, hparent.paid⟩
  have hused := ((meter_resume hlt m.cont).ok hmeter htail).2
  refine ⟨fun _ => Paid.funded (T := c''.ev.gasTotal)
    ⟨parent.mem.length, hparent.aligned, hlen, Nat.le_refl _, ?_⟩, hbelow⟩
  exact (Nat.le_add_right _ _).trans hused

theorem round_funded {m m' : Machine} (hheld : m.held < costBound) (hm : m.Funded)
    (h : Round w m m') : m'.Funded := by
  have hgas : m.ctx.ev.gasTotal < costBound := by
    rw [Machine.held_eq] at hheld
    omega
  cases h with
  | @step op c hat hop =>
    have hpaid := (readies_opDispatch w hgas op).ok (hm.current hat.running).at hop
    exact ⟨fun _ => Paid.funded hpaid, hm.callers⟩
  | fail => exact ⟨fun hdone => (nomatch hdone), hm.callers⟩
  | @start op snap req c c' c'' done child hat hop hopen hchild hpro =>
    subst hchild
    have hmem : SameMem _ c'' := Keeps.ok (x := framePrologue w) inferInstance hpro
    exact funded_start hgas hm hat hop hopen (fun _ => hmem) rfl rfl rfl rfl
  | @startFail op snap req c c' c'' err child hat hop hopen hchild hpro =>
    subst hchild
    exact funded_start hgas hm hat hop hopen (fun hdone => (nomatch hdone)) rfl rfl rfl rfl
  | finish hover hkind hs hep hclose htail =>
    exact funded_finish hheld hm hkind hs hep hclose htail
  | finishFail hover hkind hs hep hclose htail =>
    have hcallers := hm.callers
    rw [hs, waiting_child hkind] at hcallers
    exact ⟨fun hdone => (nomatch hdone), hcallers.2.2⟩

theorem rounds_funded {n : Nat} {m m' : Machine} (hst : m.Stacked) (hheld : m.held < costBound)
    (hm : m.Funded) (h : Rounds w n m m') : m'.Funded ∧ m'.held < costBound := by
  induction h with
  | refl m => exact ⟨hm, hheld⟩
  | step _ hround _ ih =>
    have hr := round_of_frameRound hst hround
    have hle := (round_used (Nat.lt_trans hheld (by decide)) hr).1
    exact ih (hr.stacked hst) (Nat.lt_of_le_of_lt hle hheld) (round_funded hheld hm hr)

/-- What a state of a run shows of the memories: whatever instruction on the memory the current
frame is at does what it is meant to do, and the output of a finished child is copied to a range
that lies in the memory of its caller. -/
structure Machine.MemorySafe (w : Witness) (m : Machine) : Prop where
  exact : m.cont.done = false → ∀ [Stray] (op : MemOp), opDispatch w op.opcode m.ctx = op.ideal w m.ctx
  output : m.cont.kind ≠ .transaction → ∀ parent pcont below,
    m.suspended = (parent, pcont) :: below →
      OutInside m.cont.outStart m.cont.outSize parent.mem.length

omit [Crypto] in
theorem Machine.Funded.safe {m : Machine} (hm : m.Funded) (hheld : m.held < costBound) :
    m.MemorySafe w := by
  refine ⟨fun hdone => fun op => ?_, fun hkind parent pcont below hs => ?_⟩
  · rw [Machine.held_eq] at hheld
    have hpaid := (hm.current hdone).at
    exact (agree_memOp w op).eq _ (hpaid.sound (by omega))
  · have hcallers := hm.callers
    rw [hs, waiting_child hkind] at hcallers
    exact hcallers.2.1

end

/-! ## Where the charge saturates -/

section

attribute [local instance] numKeccak stubCrypto

/-- A creation that writes a word to the end of the first `memBound` bytes. -/
private def farStore (gas : Word) : Msg :=
  { (default : Msg) with
    caller := 0x10
    currentTarget := 0x2000
    code := [0x5f, 0x64, 0x1f, 0xff, 0xff, 0xff, 0xe0, 0x52]
    gas := gas }

/-- The current frame is at a store that it has the gas for. -/
def AtFarStore (m : Machine) : Prop :=
  m.cont.done = false ∧ m.ctx.ev.opcode? = some MemOp.mstore.opcode ∧
    m.ctx.ev.stack = [BitVec.ofNat 256 (memBound - 32), 0] ∧ m.ctx.ev.gasLeft.toNat < 2 ^ 63 ∧
    3 + extensionCost m.ctx.ev.mem.length [⟨BitVec.ofNat 256 (memBound - 32), 32⟩] ≤
      m.ctx.ev.gasLeft.toNat

instance (m : Machine) : Decidable (AtFarStore m) := inferInstanceAs (Decidable (_ ∧ _))

private def isOutOfGas : EStateM.Result Exn Ctx (Option ChildReq) → Bool
  | .error e _ => e = .evm .outOfGas
  | .ok _ _ => false

set_option maxRecDepth 20000 in
private theorem farStore_saturates : (afterRounds emptyWitness (farStore (2 ^ 62)) default 2).any (fun m =>
    decide (AtFarStore m) && isOutOfGas (opDispatch emptyWitness MemOp.mstore.opcode m.ctx)) =
      true := by
  decide +kernel

set_option maxRecDepth 20000 in
private theorem farStore_starts : (afterRounds emptyWitness (farStore (2 ^ 24)) default 2).isSome = true := by
  decide +kernel

end

end StatelessGuest
