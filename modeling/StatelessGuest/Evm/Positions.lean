import StatelessGuest.Evm.CodeReads
import StatelessGuest.Evm.Lenient
import StatelessGuest.Evm.Termination

/-!
# Code positions

Every instruction that a frame runs starts where the scan of its code has an instruction start:
an instruction advances the program counter by the length that the scan gives it, or jumps to a
destination that the scan has found.

* `Lands`: what an instruction does to the program counter.
* `opDispatch_lands`: every instruction does that.
* `round_onInstr`: what a round keeps.
* `code_positions_agree`: the theorem.
-/

namespace StatelessGuest

open Lib

/-! ## Advances -/

/-- The frame is at the same place of the same code. -/
structure SamePlace (c c' : Ctx) : Prop where
  pc : c'.ev.pc = c.ev.pc
  code : c'.ev.code = c.ev.code
  jumpdests : c'.ev.jumpdests = c.ev.jumpdests

instance : Tracks SamePlace where
  refl _ := ⟨rfl, rfl, rfl⟩
  trans _ _ _ h h' := ⟨h'.pc.trans h.pc, h'.code.trans h.code, h'.jumpdests.trans h.jumpdests⟩
  free _ _ hrest _ := ⟨congrArg FrameRest.pc hrest, congrArg FrameRest.code hrest,
    congrArg FrameRest.jumpdests hrest⟩
  read _ _ _ := ⟨rfl, rfl, rfl⟩
  sets _ _ _ := ⟨rfl, rfl, rfl⟩
  tracker _ _ := ⟨rfl, rfl, rfl⟩

instance : Stores SamePlace where
  store _ _ := ⟨rfl, rfl, rfl⟩

instance : Emits SamePlace where
  emit _ _ _ := ⟨rfl, rfl, rfl⟩

instance : Tends SamePlace where
  tracker _ _ := ⟨rfl, rfl, rfl⟩
  chargeStateGas _ := inferInstance
  creditStateGas _ := inferInstance
  refund _ _ := ⟨rfl, rfl, rfl⟩
  slotWrites _ _ := ⟨rfl, rfl, rfl⟩
  takeStateGas _ := ⟨rfl, rfl, rfl⟩
  refill _ := ⟨rfl, rfl, rfl⟩
  halt _ := inferInstance
  error _ _ := ⟨rfl, rfl, rfl⟩
  msg _ _ _ := ⟨rfl, rfl, rfl⟩

instance : Keeps SamePlace rebaseReservoir := Keeps.modify fun _ => ⟨rfl, rfl, rfl⟩

/-- The frame has advanced by `n` in the same code. -/
structure Advanced (n : Nat) (c c' : Ctx) : Prop where
  pc : c'.ev.pc = c.ev.pc + BitVec.ofNat 64 n
  code : c'.ev.code = c.ev.code
  jumpdests : c'.ev.jumpdests = c.ev.jumpdests

theorem Advanced.after {n : Nat} {c c' c'' : Ctx} (h : SamePlace c c') (h' : Advanced n c' c'') :
    Advanced n c c'' :=
  ⟨h'.pc.trans (by rw [h.pc]), h'.code.trans h.code, h'.jumpdests.trans h.jumpdests⟩

/-- A program that advances by `n` unless it throws. -/
class Advances (n : Nat) (x : EvmM Unit) : Prop where
  ok : ∀ {c c' : Ctx}, x c = .ok () c' → Advanced n c c'

/-- A program that advances by one unless it throws or requests a child. -/
class AdvancesIfDone (x : EvmM (Option ChildReq)) : Prop where
  none : ∀ {c c' : Ctx}, x c = .ok none c' → Advanced 1 c c'
  some : ∀ {c c' : Ctx} {req : ChildReq}, x c = .ok (some req) c' → SamePlace c c'

instance (n : Nat) : Advances n (pcAdd (BitVec.ofNat 64 n)) := by
  refine ⟨fun h => ?_⟩
  cases h
  exact ⟨rfl, rfl, rfl⟩

instance : Advances 1 (pcAdd 1) := inferInstanceAs (Advances 1 (pcAdd (BitVec.ofNat 64 1)))

instance {α : Type} (n : Nat) (x : EvmM α) (f : α → EvmM Unit) [Keeps SamePlace x]
    [∀ a, Advances n (f a)] : Advances n (x >>= f) := by
  refine ⟨fun h => ?_⟩
  obtain ⟨a, s, hx, hf⟩ := bind_ok.mp h
  exact .after (Keeps.ok (x := x) inferInstance hx) (Advances.ok hf)

/-- A sequence, its second part by cases on the first one's result. -/
theorem advances_seq {α : Type} {n : Nat} {x : EvmM α} {f : α → EvmM Unit}
    (hx : Keeps SamePlace x) (hf : ∀ a, Advances n (f a)) : Advances n (x >>= f) := inferInstance

instance (n : Nat) (p : Prop) [Decidable p] (x y : EvmM Unit) [Advances n x] [Advances n y] :
    Advances n (if p then x else y) := by
  split <;> infer_instance

instance (started : Option ChildReq) : AdvancesIfDone (pcAddIfDone started) := by
  cases started with
  | none =>
    refine ⟨fun h => ?_, fun h => ?_⟩
    · cases h
      exact ⟨rfl, rfl, rfl⟩
    · cases h
  | some req =>
    refine ⟨fun h => ?_, fun h => ?_⟩
    · cases h
    · cases h
      exact refl_of SamePlace _

instance {α : Type} (x : EvmM α) (f : α → EvmM (Option ChildReq)) [Keeps SamePlace x]
    [∀ a, AdvancesIfDone (f a)] : AdvancesIfDone (x >>= f) := by
  refine ⟨fun h => ?_, fun h => ?_⟩
  · obtain ⟨a, s, hx, hf⟩ := bind_ok.mp h
    exact .after (Keeps.ok (x := x) inferInstance hx) (AdvancesIfDone.none hf)
  · obtain ⟨a, s, hx, hf⟩ := bind_ok.mp h
    exact trans_of SamePlace (Keeps.ok (x := x) inferInstance hx) (AdvancesIfDone.some hf)

instance (p : Prop) [Decidable p] (x y : EvmM (Option ChildReq)) [AdvancesIfDone x]
    [AdvancesIfDone y] : AdvancesIfDone (if p then x else y) := by
  split <;> infer_instance

/-! ## What an instruction does -/

/-- What an instruction that starts no child does to the program counter: it advances over the
immediates, or it has none and leaves it, as a halt does, or jumps to a destination. -/
structure Lands (op : Nat) (c c' : Ctx) : Prop where
  code : c'.ev.code = c.ev.code
  jumpdests : c'.ev.jumpdests = c.ev.jumpdests
  pc : c'.ev.pc = c.ev.pc + BitVec.ofNat 64 (1 + immediates op c.ev.codeImm) ∨
    immediates op c.ev.codeImm = 0 ∧ (c'.ev.pc = c.ev.pc ∨
      ∃ dest : U256, c.ev.isValidJumpdest dest = true ∧ c'.ev.pc = dest.setWidth 64)

theorem Advanced.lands {op : Nat} {c c' : Ctx}
    (h : Advanced (1 + immediates op c.ev.codeImm) c c') : Lands op c c' :=
  ⟨h.code, h.jumpdests, .inl h.pc⟩

/-- The instruction `x` of the opcode `op` does that. -/
structure Steps (op : Nat) (x : EvmM Unit) : Prop where
  lands : ∀ {c c' : Ctx}, x c = .ok () c' → Lands op c c'

theorem steps_advance {op : Nat} (h : ∀ imm, immediates op imm = 0) {x : EvmM Unit}
    [Advances 1 x] : Steps op x := by
  refine ⟨fun hrun => Advanced.lands ?_⟩
  rw [h]
  exact Advances.ok hrun

theorem steps_halt {op : Nat} (h : ∀ imm, immediates op imm = 0) {x : EvmM Unit}
    [Keeps SamePlace x] : Steps op x := by
  refine ⟨fun hrun => ?_⟩
  have hplace := Keeps.ok (R := SamePlace) (x := x) inferInstance hrun
  exact ⟨hplace.code, hplace.jumpdests, .inr ⟨h _, .inl hplace.pc⟩⟩

theorem advances_opPush (n : Word) : Advances (1 + n.toNat) (opPush n) := by
  have hpc : Advances (1 + n.toNat) (pcAdd (1 + n)) := by
    have hadv := (inferInstance : Advances (1 + n.toNat) (pcAdd (BitVec.ofNat 64 (1 + n.toNat))))
    rwa [BitVec.ofNat_add, BitVec.ofNat_toNat, BitVec.setWidth_eq] at hadv
  unfold opPush
  infer_instance

instance : Advances 1 (opPush 0) := advances_opPush 0

theorem steps_push {op : Nat} (h : 96 ≤ op ∧ op < 128) :
    Steps op (opPush (BitVec.ofNat 64 (op - 95))) := by
  have himm : ∀ imm, immediates op imm = op - 95 :=
    fun imm => if_pos ⟨h.1, Nat.le_of_lt_succ h.2⟩
  have hn : (BitVec.ofNat 64 (op - 95)).toNat = op - 95 := by
    rw [BitVec.toNat_ofNat, Nat.mod_eq_of_lt (by omega)]
  have hadv : Advances (1 + (op - 95)) (opPush (BitVec.ofNat 64 (op - 95))) := by
    have := advances_opPush (BitVec.ofNat 64 (op - 95))
    rwa [hn] at this
  refine ⟨fun hrun => Advanced.lands ?_⟩
  rw [himm]
  exact hadv.ok hrun

theorem decodeSingle_ok {x n : Nat} {c c' : Ctx} (h : decodeSingle x c = .ok n c') :
    (x ≤ 90 ∨ 128 ≤ x) ∧ c' = c := by
  unfold decodeSingle at h
  split at h
  · next hvalid =>
    cases h
    exact ⟨hvalid, rfl⟩
  · cases h

theorem chargeGas_codeImm {amount : Word} {c c' : Ctx} (h : chargeGas amount c = .ok () c') :
    c'.ev.codeImm = c.ev.codeImm := by
  have hplace : SamePlace c c' := Keeps.ok (x := chargeGas amount) inferInstance h
  unfold Frame.codeImm
  rw [hplace.pc, hplace.code]

/-- The instructions with one immediate, once it is found valid. -/
theorem steps_imm {op : Nat} {V : Nat → Prop} (hop : ∀ imm, V imm → immediates op imm = 1)
    {x : Nat → EvmM Unit} (hvalid : ∀ {imm c c'}, x imm c = .ok () c' → V imm)
    (hadv : ∀ imm, Advances 2 (x imm)) :
    Steps op (chargeGas 3 >>= fun _ => getEv >>= fun e => x e.codeImm) := by
  refine ⟨fun {c c'} hrun => ?_⟩
  obtain ⟨_, s, hcharge, hrun⟩ := bind_ok.mp hrun
  rw [bind_run_ok (show getEv s = .ok s.ev s from rfl)] at hrun
  have himm := hop _ (hvalid hrun)
  rw [chargeGas_codeImm hcharge] at himm
  have hplace : SamePlace c s := Keeps.ok (x := chargeGas 3) inferInstance hcharge
  refine Advanced.lands ?_
  rw [himm]
  exact .after hplace ((hadv _).ok hrun)

instance : Advances 2 (pcAdd 2) := inferInstanceAs (Advances 2 (pcAdd (BitVec.ofNat 64 2)))

theorem immediates_single {op imm : Nat} (hop : op = 230 ∨ op = 231)
    (h : imm ≤ 90 ∨ 128 ≤ imm) : immediates op imm = 1 := by
  unfold immediates
  rw [if_neg (by omega), if_pos ⟨hop, h⟩]

theorem steps_dupn : Steps 230 opDupn := by
  refine steps_imm (fun imm => immediates_single (.inl rfl)) (x := fun imm => do
    let n ← decodeSingle imm
    pushItem (n - 1)
    pcAdd 2) (fun h => ?_) fun imm => inferInstance
  obtain ⟨n, s, hdecode, -⟩ := bind_ok.mp h
  exact (decodeSingle_ok hdecode).1

theorem steps_swapn : Steps 231 opSwapn := by
  refine steps_imm (fun imm => immediates_single (.inr rfl)) (x := fun imm => do
    let n ← decodeSingle imm
    swapIfDeep (n + 1) 0 n
    pcAdd 2) (fun h => ?_) fun imm => inferInstance
  obtain ⟨n, s, hdecode, -⟩ := bind_ok.mp h
  exact (decodeSingle_ok hdecode).1

theorem steps_exchange : Steps 232 opExchange := by
  refine steps_imm (V := fun imm => imm ≤ 81 ∨ 128 ≤ imm) (fun imm h => ?_) (x := fun imm => do
    if 81 < imm ∧ imm < 128 then throwEvm .invalidParameter
    let k := imm ^^^ 143
    let q := k >>> 4
    let r := k % 16
    let n := if q < r then q + 1 else r + 1
    let m := if q < r then r + 1 else 29 - q
    swapIfDeep (max n m + 1) n m
    pcAdd 2) (fun {imm c c'} h => ?_) fun imm => ?_
  · unfold immediates
    rw [if_neg (by omega), if_neg (by omega), if_pos ⟨rfl, h⟩]
  · by_contra hbad
    have hthrow : 81 < imm ∧ imm < 128 := by omega
    simp only [if_pos hthrow] at h
    cases h
  · dsimp only
    infer_instance

theorem steps_setPc {op : Nat} (hzero : ∀ imm, immediates op imm = 0) {c : Ctx} {dest : U256}
    {c' c'' : Ctx} (hplace : SamePlace c c')
    (hvalid : c'.ev.isValidJumpdest dest = true) (h : setPc dest c' = .ok () c'') :
    Lands op c c'' := by
  cases h
  refine ⟨hplace.code, hplace.jumpdests, .inr ⟨hzero _, .inr ⟨dest, ?_, rfl⟩⟩⟩
  unfold Frame.isValidJumpdest at hvalid ⊢
  rwa [hplace.code, hplace.jumpdests] at hvalid

theorem steps_jump : Steps 86 opJump := by
  refine ⟨fun {c c'} hrun => ?_⟩
  unfold opJump at hrun
  obtain ⟨dest, s, hpop, hrun⟩ := bind_ok.mp hrun
  obtain ⟨_, t, hcharge, hrun⟩ := bind_ok.mp hrun
  rw [bind_run_ok (show getEv t = .ok t.ev t from rfl)] at hrun
  have hplace : SamePlace c t := trans_of SamePlace (Keeps.ok (x := stackPop) inferInstance hpop)
    (Keeps.ok (x := chargeGas 8) inferInstance hcharge)
  split at hrun
  · next hvalid => exact steps_setPc (fun _ => rfl) hplace hvalid hrun
  · cases hrun

theorem steps_jumpi : Steps 87 opJumpi := by
  refine ⟨fun {c c'} hrun => ?_⟩
  unfold opJumpi at hrun
  obtain ⟨dest, s, hpop, hrun⟩ := bind_ok.mp hrun
  obtain ⟨cond, t, hpop', hrun⟩ := bind_ok.mp hrun
  obtain ⟨_, u, hcharge, hrun⟩ := bind_ok.mp hrun
  have hplace : SamePlace c u := trans_of SamePlace (Keeps.ok (x := stackPop) inferInstance hpop)
    (trans_of SamePlace (Keeps.ok (x := stackPop) inferInstance hpop')
      (Keeps.ok (x := chargeGas 10) inferInstance hcharge))
  split at hrun
  · exact Advanced.lands (.after hplace (Advances.ok (n := 1) hrun))
  · rw [bind_run_ok (show getEv u = .ok u.ev u from rfl)] at hrun
    split at hrun
    · next hvalid => exact steps_setPc (fun _ => rfl) hplace hvalid hrun
    · cases hrun

/-! ## The tables -/

-- an instruction of ten steps needs more instances than the default allows
set_option synthInstance.maxSize 1000

section

instance (gas : Word) (f : U256 → U256) : Advances 1 (opUnary gas f) := by
  unfold opUnary
  infer_instance

instance (gas : Word) (f : U256 → U256 → U256) : Advances 1 (opBinary gas f) := by
  unfold opBinary
  infer_instance

instance (gas : Word) (f : U256 → U256 → U256 → U256) : Advances 1 (opTernary gas f) := by
  unfold opTernary
  infer_instance

instance (gas : Word) (f : Frame → U256) : Advances 1 (opPushOf gas f) := by
  unfold opPushOf
  infer_instance

instance (base : Word) (buf : Bytes) : Advances 1 (copyFromBuffer base buf) := by
  unfold copyFromBuffer
  infer_instance

instance (item : Nat) : Advances 1 (opDup item) := by
  unfold opDup
  infer_instance

instance (item : Nat) : Advances 1 (opSwap item) := by
  unfold opSwap
  infer_instance

instance (n : Nat) : Advances 1 (opLog n) := by
  unfold opLog
  dsimp only
  iterate 3 refine advances_seq inferInstance fun _ => ?_
  split
  · exact advances_seq inferInstance fun _ => inferInstance
  · infer_instance

instance : Advances 1 opExp := by
  unfold opExp
  infer_instance

instance : Advances 1 opStop := by
  unfold opStop
  infer_instance

instance : Advances 1 opJumpdest := by
  unfold opJumpdest
  infer_instance

instance : Advances 1 opPop := by
  unfold opPop
  infer_instance

instance : Advances 1 opMstore := by
  unfold opMstore
  infer_instance

instance : Advances 1 opMstore8 := by
  unfold opMstore8
  infer_instance

instance : Advances 1 opMload := by
  unfold opMload
  infer_instance

instance : Advances 1 opMcopy := by
  unfold opMcopy
  infer_instance

instance : Advances 1 opCalldataload := by
  unfold opCalldataload
  infer_instance

instance : Advances 1 opBlobhash := by
  unfold opBlobhash
  infer_instance

instance : Advances 1 opCalldatacopy := by
  unfold opCalldatacopy
  infer_instance

instance : Advances 1 opCodecopy := by
  unfold opCodecopy
  infer_instance

instance : Advances 1 opReturndatacopy := by
  unfold opReturndatacopy
  dsimp only
  iterate 3 refine advances_seq inferInstance fun _ => ?_
  infer_instance

instance : Advances 1 opTload := by
  unfold opTload
  infer_instance

instance : Advances 1 opTstore := by
  unfold opTstore
  infer_instance

instance : Advances 1 opBlockhash := by
  unfold opBlockhash
  infer_instance

instance : Advances 1 opBlobbasefee := by
  unfold opBlobbasefee
  infer_instance

variable [Keccak] {w : Witness}

instance : Advances 1 opKeccak := by
  unfold opKeccak
  infer_instance

instance : Advances 1 (opSload w) := by
  unfold opSload
  infer_instance

instance : Advances 1 (opSstore w) := by
  unfold opSstore
  dsimp only
  iterate 9 refine advances_seq inferInstance fun _ => ?_
  refine advances_seq (keeps_free (fun _ => rfl) fun _ => rfl) fun _ => ?_
  iterate 4 refine advances_seq inferInstance fun _ => ?_
  exact advances_seq (keeps_free (fun _ => rfl) fun _ => rfl) fun _ => inferInstance

instance : Advances 1 (opBalance w) := by
  unfold opBalance
  infer_instance

instance : Advances 1 (opExtcodesize w) := by
  unfold opExtcodesize
  infer_instance

instance : Advances 1 (opExtcodecopy w) := by
  unfold opExtcodecopy
  dsimp only
  iterate 4 refine advances_seq inferInstance fun _ => ?_
  infer_instance

instance : Advances 1 (opExtcodehash w) := by
  unfold opExtcodehash
  infer_instance

instance : Advances 1 (opSelfbalance w) := by
  unfold opSelfbalance
  infer_instance

instance : AdvancesIfDone (opCreate w) := by
  unfold opCreate
  dsimp only
  infer_instance

instance : AdvancesIfDone (opCall w) := by
  unfold opCall
  dsimp only
  infer_instance

instance : AdvancesIfDone (opCallcode w) := by
  unfold opCallcode
  dsimp only
  infer_instance

instance : AdvancesIfDone (opDelegatecall w) := by
  unfold opDelegatecall
  dsimp only
  infer_instance

instance : AdvancesIfDone (opCreate2 w) := by
  unfold opCreate2
  dsimp only
  infer_instance

instance : AdvancesIfDone (opStaticcall w) := by
  unfold opStaticcall
  dsimp only
  infer_instance

theorem steps_opTable : ∀ e ∈ opTable w, Steps e.1 e.2 := by
  unfold opTable
  simp only [List.forall_mem_cons]
  repeat' apply And.intro
  all_goals first
    | exact steps_advance fun _ => rfl
    | exact steps_jump
    | exact steps_jumpi
    | exact steps_dupn
    | exact steps_swapn
    | exact steps_exchange
    | exact steps_halt fun _ => rfl
    | exact fun _ h => absurd h List.not_mem_nil

theorem advances_callTable : ∀ e ∈ callTable w, AdvancesIfDone e.2 := by
  unfold callTable
  simp only [List.forall_mem_cons]
  repeat' apply And.intro
  all_goals first
    | infer_instance
    | exact fun _ h => absurd h List.not_mem_nil

theorem immediates_callTable : ∀ e ∈ callTable w, ∀ imm, immediates e.1 imm = 0 := by
  unfold callTable
  simp only [List.forall_mem_cons]
  repeat' apply And.intro
  all_goals first
    | exact fun _ => rfl
    | exact fun _ h => absurd h List.not_mem_nil

omit [Keccak] in
theorem immediates_between {op : Nat} (h : 128 ≤ op ∧ op < 230) (imm : Nat) :
    immediates op imm = 0 := by
  unfold immediates
  rw [if_neg (by omega), if_neg (by omega), if_neg (by omega)]

/-- What dispatching an opcode does: the instruction lands at a position of the scan, and one that
starts a child has no immediates and stays. -/
structure Dispatches (op : Nat) (x : EvmM (Option ChildReq)) : Prop where
  none : ∀ {c c' : Ctx}, x c = .ok none c' → Lands op c c'
  some : ∀ {c c' : Ctx} {req : ChildReq}, x c = .ok (some req) c' → SamePlace c c'
  single : ∀ {c c' : Ctx} {req : ChildReq}, x c = .ok (.some req) c' →
    ∀ imm, immediates op imm = 0

omit [Keccak] in
theorem dispatches_plain {op : Nat} {x : EvmM Unit} (h : Steps op x) : Dispatches op (plain x) := by
  refine ⟨fun hrun => ?_, fun hrun => ?_, fun hrun => ?_⟩
  · obtain ⟨_, s, hx, hret⟩ := bind_ok.mp hrun
    cases hret
    exact h.lands hx
  · obtain ⟨_, s, hx, hret⟩ := bind_ok.mp hrun
    cases hret
  · obtain ⟨_, s, hx, hret⟩ := bind_ok.mp hrun
    cases hret

omit [Keccak] in
theorem dispatches_call {op : Nat} {x : EvmM (Option ChildReq)} [AdvancesIfDone x]
    (h : ∀ imm, immediates op imm = 0) : Dispatches op x := by
  refine ⟨fun hrun => Advanced.lands ?_, AdvancesIfDone.some, fun _ => h⟩
  rw [h]
  exact AdvancesIfDone.none hrun

theorem opDispatch_dispatches (op : Nat) : Dispatches op (opDispatch w op) := by
  unfold opDispatch
  split
  · next hop => exact dispatches_plain (steps_push hop)
  split
  · exact dispatches_plain (steps_advance (immediates_between (by omega)))
  split
  · exact dispatches_plain (steps_advance (immediates_between (by omega)))
  split
  · exact dispatches_plain (steps_advance (immediates_between (by omega)))
  split
  · next hx =>
    have hmem := mem_of_lookup hx
    have := advances_callTable _ hmem
    exact dispatches_call (immediates_callTable _ hmem)
  split
  · next hx => exact dispatches_plain (steps_opTable _ (mem_of_lookup hx))
  · refine ⟨fun h => ?_, fun h => ?_, fun h => ?_⟩ <;> cases h

end

/-! ## The frames of a run -/

/-- The destinations of a frame are those of its code, and its program counter is at the start of
an instruction. -/
structure Frame.OnInstr (e : Frame) : Prop where
  jumpdests : e.jumpdests = computeJumpdests e.code
  start : e.code.length ≤ memoryEnd → InstrStart e.code e.pc.toNat

/-- A frame that waits for its child goes on with the next byte. -/
structure Frame.Parked (e : Frame) : Prop extends e.OnInstr where
  inside : e.pc.toNat < e.code.length
  single : instrLen e.code e.pc.toNat = 1

theorem Frame.OnInstr.same {c c' : Ctx} (h : c.ev.OnInstr) (hs : SamePlace c c') :
    c'.ev.OnInstr := by
  refine ⟨?_, ?_⟩
  · rw [hs.jumpdests, hs.code]
    exact h.jumpdests
  · rw [hs.pc, hs.code]
    exact h.start

/-- The byte a frame is at. -/
theorem opcode?_some {e : Frame} {op : Nat} (h : e.opcode? = some op) :
    e.pc.toNat < e.code.length ∧ (e.code.getD e.pc.toNat 0).toNat = op := by
  unfold Frame.opcode? at h
  split at h
  · rw [getElem?_map_toNat] at h
    split at h
    · next hlt => exact ⟨hlt, Option.some.inj h⟩
    · cases h
  · cases h

theorem instrLen_at {e : Frame} {op : Nat} (h : e.opcode? = some op) :
    instrLen e.code e.pc.toNat = 1 + immediates op e.codeImm := by
  rw [instrLen, (opcode?_some h).2]
  rfl

/-- The program counter after an instruction does not wrap. -/
theorem toNat_pc_next {e : Frame} (hlt : e.pc.toNat < e.code.length)
    (hfits : e.code.length ≤ memoryEnd) :
    (e.pc + BitVec.ofNat 64 (instrLen e.code e.pc.toNat)).toNat =
      e.pc.toNat + instrLen e.code e.pc.toNat := by
  have hle := instrLen_le e.code e.pc.toNat
  have hend : memoryEnd + 33 < 2 ^ 64 := by decide
  rw [BitVec.toNat_add, BitVec.toNat_ofNat]
  omega

theorem Frame.OnInstr.lands {c c' : Ctx} {op : Nat} (h : c.ev.OnInstr) (hop : c.ev.opcode? = some op)
    (hl : Lands op c c') : c'.ev.OnInstr := by
  refine ⟨?_, fun hfits => ?_⟩
  · rw [hl.jumpdests, hl.code]
    exact h.jumpdests
  rw [hl.code] at hfits ⊢
  have hlt := (opcode?_some hop).1
  obtain hpc | ⟨-, hpc | ⟨dest, hvalid, hpc⟩⟩ := hl.pc
  · rw [hpc, ← instrLen_at hop, toNat_pc_next hlt hfits]
    exact (h.start hfits).next hlt
  · rw [hpc]
    exact h.start hfits
  · have hfound := (isValidJumpdest_iff h.jumpdests hfits dest).mp hvalid
    have hend : memoryEnd < 2 ^ 64 := by decide
    rw [hpc, BitVec.toNat_setWidth, Nat.mod_eq_of_lt (by omega)]
    exact hfound.2.2

theorem Frame.OnInstr.parked {c c' : Ctx} {op : Nat} (h : c.ev.OnInstr)
    (hop : c.ev.opcode? = some op) (hs : SamePlace c c') (hzero : ∀ imm, immediates op imm = 0) :
    c'.ev.Parked := by
  refine ⟨h.same hs, ?_, ?_⟩
  · rw [hs.pc, hs.code]
    exact (opcode?_some hop).1
  · rw [hs.pc, hs.code, instrLen_at hop, hzero]

/-- A frame that goes on after its child. -/
theorem Frame.Parked.advanced {c c' : Ctx} (h : c.ev.Parked) (ha : Advanced 1 c c') :
    c'.ev.OnInstr := by
  refine ⟨?_, fun hfits => ?_⟩
  · rw [ha.jumpdests, ha.code]
    exact h.jumpdests
  rw [ha.code] at hfits ⊢
  have hnext := toNat_pc_next h.inside hfits
  have hstart := (h.start hfits).next h.inside
  rw [h.single] at hnext hstart
  rw [ha.pc, hnext]
  exact hstart

/-- The frame that runs is on an instruction, and its callers wait for their children. -/
structure Machine.OnInstr (m : Machine) : Prop where
  current : m.cont.done = false → m.ctx.ev.OnInstr
  callers : ∀ e ∈ m.callers, e.Parked

theorem callers_cons {m : Machine} {kind : FrameKind} {parent : Frame} {pcont : Cont}
    {below : List (Frame × Cont)} (hkind : m.cont.kind = kind) (hne : kind ≠ .transaction)
    (hs : m.suspended = (parent, pcont) :: below) :
    m.callers = parent :: callers pcont.kind below := by
  subst hkind
  rw [Machine.callers, hs, callers_child hne]

section

variable [Keccak] [Crypto] {w : Witness}

omit [Crypto] in
/-- A child that starts, whatever its prologue does to it. -/
theorem aligned_start {m m' : Machine} {op snap : Nat} {req : ChildReq} {c c' : Ctx}
    (hm : m.OnInstr) (hat : m.At op) (hop : opDispatch w op m.ctx = .ok (some req) c)
    (hopen : openChild w req c = .ok snap c')
    (hcurrent : m'.cont.done = false → m'.ctx.ev.OnInstr) (hkind : m'.cont.kind = req.kind)
    (hs : m'.suspended = (c'.ev, m.cont) :: m.suspended) : m'.OnInstr := by
  have hd := opDispatch_dispatches (w := w) op
  have hparked : c.ev.Parked :=
    (hm.current hat.running).parked hat.opcode (hd.some hop) (hd.single hop)
  refine ⟨hcurrent, ?_⟩
  rw [callers_cons hkind req.isChild hs, openChild_ev hopen]
  intro e he
  obtain rfl | he := List.mem_cons.mp he
  · exact hparked
  · exact hm.callers e he

omit [Keccak] [Crypto] in
theorem aligned_fresh (msg : Msg) (accAddrsN accKeysN : Nat) :
    (frameNew msg accAddrsN accKeysN).OnInstr := ⟨rfl, fun _ => .zero _⟩

omit [Keccak] [Crypto] in
theorem advanced_resume {r : Cont} {child : Frame} {c c' : Ctx} (h : resume r child c = .ok () c') :
    Advanced 1 c c' := by
  obtain ⟨_, s, htail, hpc⟩ := bind_ok.mp h
  exact .after (Keeps.ok (x := r.tail child) inferInstance htail) (Advances.ok hpc)

theorem round_onInstr {m m' : Machine} (hm : m.OnInstr) (h : Round w m m') : m'.OnInstr := by
  cases h with
  | @step op c hat hop =>
    have hlands := (opDispatch_dispatches (w := w) op).none hop
    exact ⟨fun _ => (hm.current hat.running).lands hat.opcode hlands, hm.callers⟩
  | fail => exact ⟨fun hdone => (nomatch hdone), hm.callers⟩
  | @start op snap req c c' c'' done child hat hop hopen hchild hpro =>
    subst hchild
    have hplace : SamePlace _ c'' := Keeps.ok (x := framePrologue w) inferInstance hpro
    exact aligned_start hm hat hop hopen (fun _ => (aligned_fresh _ _ _).same hplace) rfl rfl
  | @startFail op snap req c c' c'' err child hat hop hopen hchild hpro =>
    subst hchild
    exact aligned_start hm hat hop hopen (fun hdone => (nomatch hdone)) rfl rfl
  | @finish parent pcont below c c' c'' hover hkind hs hep hclose htail =>
    have hcallers := hm.callers
    rw [callers_cons rfl hkind hs] at hcallers
    have hparked : Frame.Parked { c' with ev := parent }.ev := hcallers _ List.mem_cons_self
    exact ⟨fun _ => hparked.advanced (advanced_resume htail),
      fun e he => hcallers e (List.mem_cons_of_mem _ he)⟩
  | finishFail hover hkind hs hep hclose htail =>
    have hcallers := hm.callers
    rw [callers_cons rfl hkind hs] at hcallers
    exact ⟨fun hdone => (nomatch hdone), fun e he => hcallers e (List.mem_cons_of_mem _ he)⟩

theorem rounds_onInstr {n : Nat} {m m' : Machine} (hst : m.Stacked) (hm : m.OnInstr)
    (h : Rounds w n m m') : m'.OnInstr := by
  induction h with
  | refl m => exact hm
  | step _ hround _ ih =>
    have hr := round_of_frameRound hst hround
    exact ih (hr.stacked hst) (round_onInstr hm hr)

/-! ## The first frame -/

/-- What the preparation does: the program counter stays, and a frame with the destinations of its
code has those of the code it is given. -/
structure Prepared (c c' : Ctx) : Prop where
  pc : c'.ev.pc = c.ev.pc
  scan : c.ev.jumpdests = computeJumpdests c.ev.code →
    c'.ev.jumpdests = computeJumpdests c'.ev.code

omit [Keccak] [Crypto] in
theorem Prepared.of_samePlace {c c' : Ctx} (h : SamePlace c c') : Prepared c c' :=
  ⟨h.pc, fun hscan => by rw [h.jumpdests, h.code, hscan]⟩

instance : Tends Prepared where
  refl _ := .of_samePlace (refl_of SamePlace _)
  trans _ _ _ h h' := ⟨h'.pc.trans h.pc, h'.scan ∘ h.scan⟩
  still c _ h hrest := .of_samePlace (Still.still c h hrest)
  read c _ h := .of_samePlace (Still.read c h)
  warmAddress c addr := .of_samePlace (Still.warmAddress c addr)
  warmStorageKey c k := .of_samePlace (Still.warmStorageKey c k)
  tracker c s := .of_samePlace (Tends.tracker c s)
  chargeStateGas _ := Keeps.mono inferInstance fun _ _ => Prepared.of_samePlace
  creditStateGas _ := Keeps.mono inferInstance fun _ _ => Prepared.of_samePlace
  refund c v := .of_samePlace (Tends.refund c v)
  slotWrites c v := .of_samePlace (Tends.slotWrites c v)
  takeStateGas c := .of_samePlace (Tends.takeStateGas c)
  refill c := .of_samePlace (Tends.refill c)
  halt _ := Keeps.mono inferInstance fun _ _ => Prepared.of_samePlace
  error c err := .of_samePlace (Tends.error c err)
  msg c msg h := .of_samePlace (Tends.msg c msg h)

instance : Keeps Prepared rebaseReservoir := Keeps.modify fun _ => ⟨rfl, id⟩

instance : Emits Prepared where
  emit c logs delete := .of_samePlace (Emits.emit c logs delete)

instance (code : Bytes) : Keeps Prepared (setFrameCode code) :=
  Keeps.modify fun _ => ⟨rfl, fun _ => rfl⟩

theorem startMessage_onInstr {msg : Msg} {m m₀ : Machine}
    (h : startMessage w msg m = .ok true m₀) : m₀.Stacked ∧ m₀.OnInstr := by
  obtain ⟨hkind, hprep⟩ := startMessage_keeps (R := Prepared) h
  refine ⟨stacked_transaction hkind, fun _ => ⟨hprep.scan rfl, fun _ => ?_⟩, ?_⟩
  · rw [hprep.pc]
    exact .zero _
  · rw [Machine.callers, hkind, callers_transaction]
    intro e he
    cases he

/-! ## The theorem -/

/-- The reads of its code that a frame makes, with the code at `p` of the buffer `b`, give the
opcode, the immediates with zeros after the code, and a bitmap that has the destinations; all of
them are inside of the code. -/
structure Frame.ReadsInside [Stray] (e : Frame) (b : Buffer) (p : Word) : Prop where
  fetch : fetchAt b p (lenWord e.code) e.pc =
    pure (some (BitVec.ofNat 64 (e.code.getD e.pc.toNat 0).toNat))
  imm : codeImmAt b p (lenWord e.code) e.pc = pure (BitVec.ofNat 64 e.codeImm)
  push : ∀ size, bufferReadAt b p (lenWord e.code) (e.pc + 1) size =
    pure (bufferRead e.code (e.pc + 1) size)
  scan : ∀ s, computeJumpdestsAt b p (lenWord e.code) s = .error (.trap 7) s ∨
    ∃ bm s', computeJumpdestsAt b p (lenWord e.code) s = .ok bm s' ∧
      ∀ d, isValidJumpdestAt (lenWord e.code) bm d s' =
        .ok (if e.isValidJumpdest d then 1 else 0) s'

omit [Keccak] [Crypto] in
theorem readsInside [Stray] {e : Frame} {b : Buffer} {p : Word} (he : e.OnInstr)
    (hfits : e.code.length ≤ memoryEnd) (hlt : e.pc.toNat < e.code.length)
    (hw : b.Within p (lenWord e.code)) (hbytes : b.bytes p (lenWord e.code) = e.code) :
    e.ReadsInside b p := by
  have hend : memoryEnd < 2 ^ 64 := by decide
  have hlen : (lenWord e.code).toNat = e.code.length := by
    rw [lenWord, BitVec.toNat_ofNat, Nat.mod_eq_of_lt (by omega)]
  have hin : e.pc < lenWord e.code := by
    rw [BitVec.lt_def, hlen]
    exact hlt
  have hn : (lenWord e.code).toNat ≤ memoryEnd := by
    rw [hlen]
    exact hfits
  refine ⟨?_, ?_, fun size => ?_, fun s => ?_⟩
  · rw [fetchAt_eq hw, hbytes, List.getD_eq_getElem?_getD, List.getElem?_eq_getElem hlt]
    rfl
  · rw [codeImmAt_eq hw hn hin, hbytes]
    rfl
  · rw [bufferReadAt_eq hw, hbytes]
  · obtain hfull | ⟨bm, s', hrun, hbits⟩ := computeJumpdestsAt_spec hw hn s
    · exact .inl hfull
    · refine .inr ⟨bm, s', hrun, fun d => ?_⟩
      have hiff : u256FitsWord d = true ∧ d.toNat ∈ computeJumpdests e.code ↔
          e.isValidJumpdest d = true := by
        rw [isValidJumpdest_iff he.jumpdests hfits, mem_computeJumpdests]
        exact and_iff_right_of_imp fun hfound => fitsWord_of_lt (by omega)
      rw [hbits, hbytes]
      simp only [hiff]

/-- What a frame about to run an instruction shows of the positions of its code. -/
structure Machine.Positioned (w : Witness) (m : Machine) (op : Nat) : Prop where
  start : InstrStart m.ctx.ev.code m.ctx.ev.pc.toNat
  inside : m.ctx.ev.pc.toNat < m.ctx.ev.code.length
  dest : ∀ d : U256, m.ctx.ev.isValidJumpdest d = true ↔ d.toNat < m.ctx.ev.code.length ∧
    (m.ctx.ev.code.getD d.toNat 0).toNat = 0x5b ∧ InstrStart m.ctx.ev.code d.toNat
  truncated : m.ctx.ev.code.length < m.ctx.ev.pc.toNat + instrLen m.ctx.ev.code m.ctx.ev.pc.toNat →
    ∀ c, opDispatch w op m.ctx = .ok none c → c.ev.opcode? = none
  reads : ∀ [Stray] (b : Buffer) (p : Word), b.Within p (lenWord m.ctx.ev.code) →
    b.bytes p (lenWord m.ctx.ev.code) = m.ctx.ev.code → m.ctx.ev.ReadsInside b p

omit [Crypto] in
/-- An instruction that the code cuts off leaves nothing to run. -/
theorem truncated_last {c c' : Ctx} {op : Nat} (hfits : c.ev.code.length ≤ memoryEnd)
    (hop : c.ev.opcode? = some op)
    (htrunc : c.ev.code.length < c.ev.pc.toNat + instrLen c.ev.code c.ev.pc.toNat)
    (hrun : opDispatch w op c = .ok none c') : c'.ev.opcode? = none := by
  have hlands := (opDispatch_dispatches (w := w) op).none hrun
  have hlt := (opcode?_some hop).1
  have hnext := toNat_pc_next hlt hfits
  rw [instrLen_at hop] at htrunc hnext
  obtain hpc | ⟨hzero, -⟩ := hlands.pc
  · unfold Frame.opcode?
    rw [hpc, hlands.code, List.getElem?_eq_none (by omega), Option.map_none, ite_self]
  · omega

/-- Every instruction that a run dispatches, of a code that fits in the memory, is at the start of
an instruction, jumps to the JUMPDESTs that are at such a start and to nothing else, and reads
nothing outside of the code; an instruction that the code cuts off is the last one. -/
theorem code_positions_agree {w : Witness} {msg : Msg} {m m₀ m' : Machine} {n op : Nat}
    (hstart : startMessage w msg m = .ok true m₀) (hgo : Rounds w n m₀ m') (hat : m'.At op)
    (hfits : m'.ctx.ev.code.length ≤ memoryEnd) : m'.Positioned w op := by
  obtain ⟨hst, hm₀⟩ := startMessage_onInstr hstart
  have he := (rounds_onInstr hst hm₀ hgo).current hat.running
  have hlt := (opcode?_some hat.opcode).1
  exact {
    start := he.start hfits
    inside := hlt
    dest := isValidJumpdest_iff he.jumpdests hfits
    truncated := fun htrunc c hrun => truncated_last hfits hat.opcode htrunc hrun
    reads := fun b p hw hbytes => readsInside he hfits hlt hw hbytes }

end

section

attribute [local instance] numKeccak stubCrypto

/-- A creation that jumps to the byte after a DUPN, which is not a valid immediate, and is cut off in
a PUSH3. -/
private def cutPush : Msg :=
  { (default : Msg) with
    caller := 0x10
    currentTarget := 0x2000
    code := [0x60, 0x04, 0x56, 0xe6, 0x5b, 0x62, 0x5b]
    gas := 1000000 }

private def atPush (m : Machine) : Bool :=
  m.cont.done = false ∧ m.ctx.ev.opcode? = some 0x62 ∧ m.ctx.ev.pc = 5 ∧
    m.ctx.ev.code.length = 7

set_option maxRecDepth 20000 in
private theorem cutPush_runs :
    (afterRounds emptyWitness cutPush default 3).any atPush = true := by
  decide +kernel

theorem code_positions_agree_cut : ∃ m₀ m,
    startMessage emptyWitness cutPush default = .ok true m₀ ∧ Rounds emptyWitness 3 m₀ m ∧
      m.ctx.ev.pc = 5 ∧ m.Positioned emptyWitness 0x62 := by
  obtain ⟨m, hm, hat⟩ := (Option.any_eq_true _ _).mp cutPush_runs
  obtain ⟨hdone, hop, hpc, hlen⟩ := of_decide_eq_true hat
  obtain ⟨m₀, hstart, hgo⟩ := afterRounds_some hm
  refine ⟨m₀, m, hstart, hgo, hpc, code_positions_agree hstart hgo ⟨hdone, hop⟩ ?_⟩
  rw [hlen]
  decide

end

end StatelessGuest
