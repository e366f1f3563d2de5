import StatelessGuest.Evm.Meter

/-!
# Every instruction pays

An instruction that returns has used gas, stopped its frame, or both.

* `Pays x`: `x` uses gas when it returns.
* `Moves`: what an instruction that starts no child does to its frame.
-/

namespace StatelessGuest

open Lib

/-- A cost that is not zero. -/
class Positive (g : Word) : Prop where
  pos : 1 ≤ g.toNat

instance : Positive 1 := ⟨by decide⟩
instance : Positive 2 := ⟨by decide⟩
instance : Positive 3 := ⟨by decide⟩
instance : Positive 5 := ⟨by decide⟩
instance : Positive 8 := ⟨by decide⟩
instance : Positive 10 := ⟨by decide⟩
instance : Positive 100 := ⟨by decide⟩
instance : Positive gFastStep := ⟨by decide⟩
instance : Positive gBlockhash := ⟨by decide⟩

instance (a b : Word) [Positive a] : Positive (addSat a b) := ⟨le_addSat Positive.pos b⟩

instance (c : Prop) [Decidable c] (a b : Word) [Positive a] [Positive b] :
    Positive (if c then a else b) := by
  split <;> assumption

theorem positive_wordCost {base per : Word} (hbase : 1 ≤ base.toNat)
    (h : base.toNat + per.toNat * 2 ^ 59 ≤ 2 ^ 64) (n : Word) :
    Positive (base + per * wordsOf n) := by
  constructor
  rw [wordCost_toNat h]
  exact hbase.trans (Nat.le_add_right _ _)

/-- A program that uses gas when it returns. -/
class Pays {α : Type} (x : EvmM α) : Prop where
  meters : Meters 1 x

section

variable {α β : Type}

instance (g : Word) [Positive g] : Pays (chargeGas g) := ⟨meters_charge Positive.pos⟩

/-- What does not return has nothing to pay. -/
instance (e : EvmErr) : Pays (throwEvm e : EvmM α) :=
  ⟨⟨fun _ => .throw fun _ h => h⟩⟩

instance (x : EvmM α) (f : α → EvmM β) [Keeps Metered x] [∀ a, Pays (f a)] : Pays (x >>= f) :=
  ⟨.right inferInstance fun _ => Pays.meters⟩

instance (priority := high) (x : EvmM α) (f : α → EvmM β) [Pays x] [∀ a, Keeps Metered (f a)] :
    Pays (x >>= f) :=
  ⟨.left Pays.meters fun _ => inferInstance⟩

instance (c : Prop) [Decidable c] (x y : EvmM α) [Pays x] [Pays y] :
    Pays (if c then x else y) :=
  ⟨.ite Pays.meters Pays.meters⟩

theorem Pays.right {x : EvmM α} {f : α → EvmM β} (hx : Keeps Metered x) (hf : ∀ a, Pays (f a)) :
    Pays (x >>= f) := ⟨.right hx fun a => (hf a).meters⟩

theorem Pays.left {x : EvmM α} {f : α → EvmM β} (hx : Pays x) (hf : ∀ a, Keeps Metered (f a)) :
    Pays (x >>= f) := ⟨.left hx.meters hf⟩

end

/-! ## Instructions inside a frame -/

set_option synthInstance.maxSize 1000

theorem u256ByteLength_le (a : U256) : u256ByteLength a ≤ 32 := by
  have hbits : u256BitLength a ≤ 256 := by
    unfold u256BitLength
    split
    · exact Nat.zero_le _
    · next hne =>
      have hpos : a.toNat ≠ 0 := fun h => hne (BitVec.eq_of_toNat_eq h)
      exact Nat.log2_lt hpos |>.mpr a.isLt
  unfold u256ByteLength
  rw [Nat.shiftRight_eq_div_pow]
  omega

theorem positive_expCost (e : U256) :
    Positive (gExpBase + gExpPerByte * BitVec.ofNat 64 (u256ByteLength e)) := by
  have hall : ∀ n < 33, 1 ≤ (gExpBase + gExpPerByte * BitVec.ofNat 64 n).toNat := by decide
  exact ⟨hall _ (Nat.lt_succ_of_le (u256ByteLength_le e))⟩

instance (g : Word) (f : U256 → U256) [Positive g] : Pays (opUnary g f) := by
  unfold opUnary
  infer_instance

instance (g : Word) (f : U256 → U256 → U256) [Positive g] : Pays (opBinary g f) := by
  unfold opBinary
  infer_instance

instance (g : Word) (f : U256 → U256 → U256 → U256) [Positive g] : Pays (opTernary g f) := by
  unfold opTernary
  infer_instance

instance (g : Word) (f : Frame → U256) [Positive g] : Pays (opPushOf g f) := by
  unfold opPushOf
  infer_instance

instance : Pays opExp := by
  have hcost := positive_expCost
  unfold opExp
  infer_instance

instance (size : Word) : Positive (gKeccak256Base + gKeccak256PerWord * wordsOf size) :=
  positive_wordCost (by decide) (by decide) size

instance (size : Word) : Positive (3 + gCopyPerWord * wordsOf size) :=
  positive_wordCost (by decide) (by decide) size

instance [Keccak] : Pays opKeccak := by
  unfold opKeccak
  infer_instance

instance : Pays opJump := by
  unfold opJump
  infer_instance

instance : Pays opJumpi := by
  unfold opJumpi
  infer_instance

instance : Pays opJumpdest := by
  unfold opJumpdest
  infer_instance

instance (base : Word) [Positive base] (start size : U256) :
    Pays (chargeWithMemory base start size) := by
  unfold chargeWithMemory
  infer_instance

instance : Pays opMstore := by
  unfold opMstore
  infer_instance

instance : Pays opMstore8 := by
  unfold opMstore8
  infer_instance

instance : Pays opMload := by
  unfold opMload
  infer_instance

instance : Pays opMcopy := by
  unfold opMcopy
  infer_instance

instance : Pays opPop := by
  unfold opPop
  infer_instance

instance (nbytes : Word) : Pays (opPush nbytes) := by
  unfold opPush
  infer_instance

instance (item : Nat) : Pays (opDup item) := by
  unfold opDup
  infer_instance

instance (item : Nat) : Pays (opSwap item) := by
  unfold opSwap
  infer_instance

instance : Pays opDupn := by
  unfold opDupn
  infer_instance

instance : Pays opSwapn := by
  unfold opSwapn
  infer_instance

instance : Pays opExchange := by
  unfold opExchange
  exact .left inferInstance fun _ => by
    dsimp only
    infer_instance

/-- The fixed part of the charge of a log does not overflow for the topics a log can have. -/
theorem positive_logCost {ntopics : Nat} (h : ntopics < 5) (n memCost : Word) :
    Positive (logCost ntopics n memCost) := by
  have hbase : Positive (gLogBase + gLogTopic * BitVec.ofNat 64 ntopics) := by
    have hall : ∀ n < 5, 1 ≤ (gLogBase + gLogTopic * BitVec.ofNat 64 n).toNat := by decide
    exact ⟨hall ntopics h⟩
  unfold logCost
  dsimp only
  split
  · exact ⟨by decide⟩
  · infer_instance

theorem pays_opLog {ntopics : Nat} (h : ntopics < 5) : Pays (opLog ntopics) := by
  have hcost := positive_logCost h
  unfold opLog
  refine .right inferInstance fun start => .right inferInstance fun size => ?_
  refine .right inferInstance fun e => ?_
  dsimp only
  split
  · exact .left inferInstance fun _ => inferInstance
  · infer_instance

instance : Pays opRevert := by
  unfold opRevert
  infer_instance

instance (base : Word) (buf : Bytes) [h : ∀ n, Positive (base + gCopyPerWord * wordsOf n)] :
    Pays (copyFromBuffer base buf) := by
  unfold copyFromBuffer
  infer_instance

instance : Pays opCalldatacopy := by
  unfold opCalldatacopy
  infer_instance

instance : Pays opCodecopy := by
  unfold opCodecopy
  infer_instance

instance : Pays opReturndatacopy := by
  unfold opReturndatacopy
  dsimp only
  infer_instance

instance : Pays opCalldataload := by
  unfold opCalldataload
  infer_instance

instance : Pays opBlobhash := by
  unfold opBlobhash
  infer_instance

instance : Pays opBlobbasefee := by
  unfold opBlobbasefee
  infer_instance

instance : Pays opBlockhash := by
  unfold opBlockhash
  infer_instance

instance : Pays opTload := by
  unfold opTload
  infer_instance

instance : Pays opTstore := ⟨meters_opTstore.mono (by decide)⟩

/-! ## Accounts and storage -/

/-- The access cost of an account is one of two. -/
theorem pays_accessGasCost {α : Type} (addr : Address) {f : Word → EvmM α}
    (hwarm : Pays (f gWarmAccess)) (hcold : Pays (f gColdAccountAccess)) :
    Pays (accessGasCost addr >>= f) := by
  unfold accessGasCost
  rw [bind_assoc]
  refine .right inferInstance fun warm => ?_
  split
  · rwa [pure_bind]
  · rwa [pure_bind]

theorem pays_chargeAccountAccess (addr : Address) {extra : Word}
    (hwarm : Positive (gWarmAccess + extra)) (hcold : Positive (gColdAccountAccess + extra)) :
    Pays (chargeAccountAccess addr extra) := by
  unfold chargeAccountAccess
  exact pays_accessGasCost addr inferInstance inferInstance

instance (addr : Address) : Pays (chargeAccountAccess addr 0) :=
  pays_chargeAccountAccess addr ⟨by decide⟩ ⟨by decide⟩

instance (addr : Address) : Pays (chargeAccountAccess addr gWarmAccess) :=
  pays_chargeAccountAccess addr ⟨by decide⟩ ⟨by decide⟩

instance (target : Address) (key : Hash) : Pays (chargeStorageAccess target key) :=
  ⟨(meters_chargeStorageAccess target key).mono (by decide)⟩

section

variable [Keccak] (w : Witness)

instance : Pays (opSload w) := by
  unfold opSload
  infer_instance

instance : Pays (opSstore w) := ⟨(meters_opSstore w).mono (by decide)⟩

instance : Pays (opSelfdestruct w) := ⟨(meters_opSelfdestruct w).mono (by decide)⟩

instance : Pays (opBalance w) := by
  unfold opBalance
  infer_instance

instance : Pays (opExtcodesize w) := by
  unfold opExtcodesize
  infer_instance

instance : Pays (opExtcodehash w) := by
  unfold opExtcodehash
  infer_instance

instance : Pays (opSelfbalance w) := by
  unfold opSelfbalance
  infer_instance

instance : Pays (opExtcodecopy w) := by
  have hwarm : ∀ n, Positive (gWarmAccess + gWarmAccess + gCopyPerWord * wordsOf n) :=
    fun n => positive_wordCost (by decide) (by decide) n
  have hcold : ∀ n, Positive (gColdAccountAccess + gWarmAccess + gCopyPerWord * wordsOf n) :=
    fun n => positive_wordCost (by decide) (by decide) n
  unfold opExtcodecopy
  dsimp only
  iterate 5 refine .right inferInstance fun _ => ?_
  exact pays_accessGasCost _ (.left inferInstance fun _ => inferInstance)
    (.left inferInstance fun _ => inferInstance)

/-! ## Dispatch -/

/-- A frame after an instruction: it has paid or stopped, and what a requested child gets is
gone. -/
def Moved (T r : Nat) : Option ChildReq → Ctx → Prop
  | none, c => Meter T (r + 1) c ∨ (Meter T r c ∧ c.ev.running = false)
  | some req, c => Lent req.msg.gas T (r + 1) c

variable {T r : Nat}

omit [Keccak] in
theorem moved_of_pays (hT : T < 2 ^ 64) {x : EvmM Unit} (h : Pays x) :
    Triple (Meter T r) (plain x) (Moved T r) fun _ => Meter T r :=
  .bind (h.meters.triple hT) fun _ => (Triple.pure fun _ hm => .inl hm)

omit [Keccak] in
theorem moved_opStop :
    Triple (Meter T r) (plain opStop) (Moved T r) fun _ => Meter T r := by
  have hstop : Triple (Meter T r) opStop (fun _ c => Meter T r c ∧ c.ev.running = false)
      fun _ => Meter T r :=
    .bind (triple_modifyEv (Q := fun c => Meter T r c ∧ c.ev.running = false)
      fun c h => ⟨h, rfl⟩) fun _ => triple_modifyEv fun c h => h
  exact .bind hstop fun _ => (Triple.pure fun _ h => .inr h)

omit [Keccak] in
theorem moved_opReturn (hT : T < 2 ^ 64) :
    Triple (Meter T r) (plain opReturn) (Moved T r) fun _ => Meter T r := by
  have hreturn : Triple (Meter T r) opReturn (fun _ c => Meter T r c ∧ c.ev.running = false)
      fun _ => Meter T r := by
    unfold opReturn
    iterate 2 refine .bind (triple_meter inferInstance hT) fun _ => ?_
    exact triple_modifyEv fun c h => ⟨h, rfl⟩
  exact .bind hreturn fun _ => (Triple.pure fun _ h => .inr h)

omit [Keccak] in
theorem moved_of_issues (hT : T < 2 ^ 64) {k : Nat} (hk : 1 ≤ k) {x : EvmM (Option ChildReq)}
    (h : Issues k x) : Triple (Meter T r) x (Moved T r) fun _ => Meter T r := by
  refine (h.triple hT).post fun started c hi => ?_
  cases started with
  | none => exact .inl (Meter.mono hi (Nat.le_refl _) (by omega))
  | some req =>
    obtain ⟨T', hT', hm⟩ := hi
    exact ⟨T', hT', hm.mono (Nat.le_refl _) (by omega)⟩

theorem opTable_moved (hT : T < 2 ^ 64) : ∀ e ∈ opTable w,
    Triple (Meter T r) (plain e.2) (Moved T r) fun _ => Meter T r := by
  unfold opTable
  simp only [List.forall_mem_cons]
  repeat' apply And.intro
  all_goals first
    | exact moved_of_pays hT inferInstance
    | exact moved_opStop
    | exact moved_opReturn hT
    | exact fun _ h => nomatch h

/-- Every instruction pays, stops its frame or fails. -/
theorem moved_opDispatch (hT : T < 2 ^ 64) (op : Nat) :
    Triple (Meter T r) (opDispatch w op) (Moved T r) fun _ => Meter T r :=
  opDispatch_cases w (P := fun x => Triple (Meter T r) x (Moved T r) fun _ => Meter T r)
    (fun _ => moved_of_pays hT inferInstance) (fun _ => moved_of_pays hT inferInstance)
    (fun _ => moved_of_pays hT inferInstance) (fun _ hn => moved_of_pays hT (pays_opLog hn))
    (opTable_moved w hT)
    (callTable_forall w (P := fun x => Triple (Meter T r) x (Moved T r) fun _ => Meter T r)
      (moved_of_issues hT (by decide) (issues_opCreate w))
      (moved_of_issues hT (by decide) (issues_opCall w))
      (moved_of_issues hT (by decide) (issues_opCallcode w))
      (moved_of_issues hT (by decide) (issues_opDelegatecall w))
      (moved_of_issues hT (by decide) (issues_opCreate2 w))
      (moved_of_issues hT (by decide) (issues_opStaticcall w)))
    (.throw fun _ h => h) op

end

end StatelessGuest
