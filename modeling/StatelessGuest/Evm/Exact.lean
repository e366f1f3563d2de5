import StatelessGuest.Evm.Ideal
import StatelessGuest.Evm.Upkeep
import StatelessGuest.Lib.Triple

/-!
# The memory instructions are exact

On a frame whose memory is sound every instruction on the memory runs as it does over unbounded
integers: the charge succeeds exactly when the unbounded cost is covered, the memory grows exactly
to the length of its ranges, and no access is outside of it.

* `agree_charge`: a charge for ranges of the memory.
* `agree_memOp`: the instructions.
-/

namespace StatelessGuest

open Lib

/-! ## Steps that leave the memory alone -/

/-- The memory stays, and the gas left does not grow. -/
structure Spends (c c' : Ctx) : Prop where
  mem : c'.ev.mem = c.ev.mem
  gas : c'.ev.gasLeft ≤ c.ev.gasLeft

instance : Inert Spends where
  refl _ := ⟨rfl, BitVec.le_refl _⟩
  trans _ _ _ h h' := ⟨h'.mem.trans h.mem, BitVec.le_trans h'.gas h.gas⟩
  inert _ _ h hmem := ⟨hmem, h.le⟩
  read _ _ _ := ⟨rfl, BitVec.le_refl _⟩
  warmAddress _ _ := ⟨rfl, BitVec.le_refl _⟩
  warmStorageKey _ _ := ⟨rfl, BitVec.le_refl _⟩

/-- The memory stays. -/
def SameMem (c c' : Ctx) : Prop := c'.ev.mem = c.ev.mem

instance : Inert SameMem where
  refl _ := rfl
  trans _ _ _ h h' := Eq.trans h' h
  inert _ _ _ hmem := hmem
  read _ _ _ := rfl
  warmAddress _ _ := rfl
  warmStorageKey _ _ := rfl

theorem sameMem_modifyEv {f : Frame → Frame} (h : ∀ e, (f e).mem = e.mem) :
    Keeps SameMem (modifyEv f) :=
  Keeps.modify fun c => h c.ev

instance : Upkeep SameMem where
  tracker _ _ := rfl
  chargeStateGas amount := by
    refine ⟨fun c => ?_⟩
    rw [chargeStateGas_run]
    split
    · rfl
    · split <;> rfl
  creditStateGas _ := sameMem_modifyEv fun _ => rfl
  refund _ _ := rfl
  slotWrites _ _ := rfl
  takeStateGas _ := rfl
  refill _ := rfl
  halt _ := sameMem_modifyEv fun _ => rfl
  error _ _ := rfl
  msg _ _ := rfl

instance : Keeps SameMem rebaseReservoir := sameMem_modifyEv fun _ => rfl

/-- The frame's memory is sound. -/
def SoundMem (c : Ctx) : Prop := c.ev.Sound

/-- The frame's memory has `len` bytes. -/
def HasLen (len : Nat) (c : Ctx) : Prop := c.ev.mem.length = len

theorem SoundMem.step {c c' : Ctx} (h : SoundMem c) (hs : Spends c c') : SoundMem c' := by
  have hgas := BitVec.le_def.mp hs.gas
  have hpaid := h.paid
  refine ⟨?_, ?_⟩
  · rw [hs.mem]
    exact h.aligned
  · rw [hs.mem]
    omega

theorem HasLen.step {len : Nat} {c c' : Ctx} (h : HasLen len c) (hs : SameMem c c') :
    HasLen len c' := by
  unfold HasLen
  rw [hs]
  exact h

section

variable {α β : Type} {len : Nat}

/-- A step before the charge. -/
theorem agree_before {x : EvmM α} {f g : α → EvmM β} (hx : Keeps Spends x)
    (hf : ∀ a, Agree SoundMem (f a) (g a)) : Agree SoundMem (x >>= f) (x >>= g) :=
  .seq hx (fun _ _ h hs => h.step hs) hf

/-- A step behind the charge. -/
theorem agree_behind {x : EvmM α} {f g : α → EvmM β} (hx : Keeps SameMem x)
    (hf : ∀ a, Agree (HasLen len) (f a) (g a)) : Agree (HasLen len) (x >>= f) (x >>= g) :=
  .seq hx (fun _ _ h hs => h.step hs) hf

end

/-! ## The charge -/

/-- The words of a charge: exact for small ranges, saturated at `wordMax`. -/
structure ExactCost (rs : List MemRange) (cost : Word → Word) (own : Nat) : Prop where
  exact : (∀ r ∈ rs, r.size.toNat < memBound) → ∀ m : Word, m.toNat < 2 ^ 56 →
    (cost m).toNat = own + m.toNat
  max : cost wordMax = wordMax

theorem size_lt_of_cover {rs : List MemRange} {len : Nat} (h : coverLen len rs < memBound) :
    ∀ r ∈ rs, r.size.toNat < memBound := by
  intro r hr
  by_cases hsize : r.size = 0
  · rw [hsize]
    decide
  · have hend := end_le_coverLen hr len hsize
    omega

/-- Both charge, and go on when they can pay. -/
theorem agree_charge {α : Type} {rs : List MemRange} {x : EvmM (Word × Word)} {cost : Word → Word}
    {own : Nat} {k : Word → EvmM α} {k' : Nat → EvmM α}
    (hx : ∀ c, SoundMem c →
      x c = .ok (growth c.ev.mem.length (coverLen c.ev.mem.length rs)) c)
    (hcost : ExactCost rs cost own)
    (hk : ∀ len, coverLen len rs < memBound →
      Agree (HasLen len) (k (BitVec.ofNat 64 (coverLen len rs - len))) (k' (coverLen len rs))) :
    Agree SoundMem (x >>= fun x => chargeGas (cost x.1) >>= fun _ => k x.2)
      (Ideal.chargeRanges own rs >>= k') := by
  refine ⟨fun c hc => ?_⟩
  rw [bind_run_ok (hx c hc)]
  have hmono : memCost c.ev.mem.length ≤ memCost (coverLen c.ev.mem.length rs) :=
    memCost_mono (le_coverLen _ rs)
  have hpaid := hc.paid
  have hideal : Ideal.chargeRanges own rs c =
      if c.ev.gasLeft.toNat < own + extensionCost c.ev.mem.length rs then
        .error (.evm .outOfGas) c
      else .ok (coverLen c.ev.mem.length rs) { c with ev := { c.ev with
        gasLeft := BitVec.ofNat 64 (c.ev.gasLeft.toNat - (own + extensionCost c.ev.mem.length rs))
        regularGasUsed := c.ev.regularGasUsed +
          BitVec.ofNat 64 (own + extensionCost c.ev.mem.length rs) } } := by
    unfold Ideal.chargeRanges
    rw [bind_run_ok (show getEv c = .ok c.ev c from rfl)]
    dsimp only
    split <;> rfl
  by_cases hnew : coverLen c.ev.mem.length rs < memBound
  · have htotal : (cost (growth c.ev.mem.length (coverLen c.ev.mem.length rs)).1).toNat =
        own + extensionCost c.ev.mem.length rs := by
      have hm := growth_cost_toNat c.ev.mem.length hnew
      have hlt := memCost_lt hnew
      rw [hcost.exact (size_lt_of_cover hnew) _ (by omega), hm]
      rfl
    by_cases hgas : c.ev.gasLeft.toNat < own + extensionCost c.ev.mem.length rs
    · rw [if_pos hgas] at hideal
      have hcharge := chargeGas_run (cost (growth c.ev.mem.length (coverLen c.ev.mem.length rs)).1) c
      rw [if_pos (by rwa [BitVec.lt_def, htotal])] at hcharge
      rw [bind_run_error hcharge, bind_run_error hideal]
    · rw [if_neg hgas] at hideal
      have hcharge := chargeGas_run (cost (growth c.ev.mem.length (coverLen c.ev.mem.length rs)).1) c
      rw [if_neg (by rwa [BitVec.lt_def, htotal])] at hcharge
      have hsub : c.ev.gasLeft - cost (growth c.ev.mem.length (coverLen c.ev.mem.length rs)).1 =
          BitVec.ofNat 64 (c.ev.gasLeft.toNat - (own + extensionCost c.ev.mem.length rs)) := by
        have hlt := c.ev.gasLeft.isLt
        refine BitVec.eq_of_toNat_eq ?_
        rw [BitVec.toNat_sub_of_le, htotal, BitVec.toNat_ofNat, Nat.mod_eq_of_lt (by omega)]
        rw [BitVec.le_def, htotal]
        exact Nat.not_lt.mp hgas
      have hadd : cost (growth c.ev.mem.length (coverLen c.ev.mem.length rs)).1 =
          BitVec.ofNat 64 (own + extensionCost c.ev.mem.length rs) := by
        rw [← htotal, BitVec.ofNat_toNat, BitVec.setWidth_eq]
      rw [bind_run_ok hcharge, bind_run_ok hideal, hsub, hadd, growth_lt hnew]
      exact (hk _ hnew).eq _ rfl
  · have hmax : growth c.ev.mem.length (coverLen c.ev.mem.length rs) = (wordMax, 0) :=
      growth_max (Nat.not_lt.mp hnew)
    have hbound : costBound ≤ memCost (coverLen c.ev.mem.length rs) :=
      memCost_mono (Nat.not_lt.mp hnew)
    have hgas : c.ev.gasLeft.toNat < own + extensionCost c.ev.mem.length rs := by
      unfold extensionCost
      omega
    have hover : c.ev.gasLeft < wordMax := by
      rw [BitVec.lt_def, wordMax_toNat]
      have hlt : costBound < 2 ^ 64 - 1 := by decide
      omega
    rw [if_pos hgas] at hideal
    have hcharge := chargeGas_run wordMax c
    rw [if_pos hover] at hcharge
    rw [hmax]
    dsimp only
    rw [hcost.max, bind_run_error hcharge, bind_run_error hideal]

/-- The memory grows to the length of the ranges. -/
theorem agree_grow {α : Type} {len new : Nat} {k k' : EvmM α} (hle : len ≤ new)
    (hnew : new < memBound) (hk : Agree (HasLen new) k k') :
    Agree (HasLen len) (extendMemory (BitVec.ofNat 64 (new - len)) >>= fun _ => k)
      (Ideal.growTo new >>= fun _ => k') := by
  have hsub : (BitVec.ofNat 64 (new - len)).toNat = new - len := by
    unfold memBound at hnew
    rw [BitVec.toNat_ofNat, Nat.mod_eq_of_lt (by omega)]
  refine .bind (Q := fun _ => HasLen new) ⟨fun c hc => ?_⟩ (fun c _ c' hc hrun => ?_) fun _ => hk
  · have hlen : c.ev.mem.length = len := hc
    change EStateM.Result.ok () { c with ev := { c.ev with
      mem := c.ev.mem ++ List.replicate (BitVec.ofNat 64 (new - len)).toNat 0 } } = _
    rw [hsub, ← hlen]
    rfl
  · have hlen : c.ev.mem.length = len := hc
    cases hrun
    change (c.ev.mem ++ List.replicate (BitVec.ofNat 64 (new - len)).toNat 0).length = new
    rw [hsub, List.length_append, List.length_replicate, hlen]
    omega

/-! ## Accesses -/

/-- The range lies in a memory of `len` bytes below the bound. -/
structure Inside (len : Nat) (r : MemRange) : Prop where
  lt : len < memBound
  le : r.size ≠ 0 → r.start.toNat + r.size.toNat ≤ len

theorem inside_cover {len : Nat} {rs : List MemRange} (h : coverLen len rs < memBound)
    {r : MemRange} (hr : r ∈ rs) : Inside (coverLen len rs) r :=
  ⟨h, end_le_coverLen hr len⟩

section

variable [Stray] {len : Nat} {r : MemRange} {c : Ctx}

omit [Stray] in
theorem Inside.start_toNat (h : Inside len r) (hsize : r.size ≠ 0) :
    (satWord r.start).toNat = r.start.toNat := by
  have hlt := h.lt
  have hle := h.le hsize
  unfold memBound at hlt
  rw [satWord_toNat]
  omega

omit [Stray] in
theorem Inside.size_toNat (h : Inside len r) : (satWord r.size).toNat = r.size.toNat := by
  have hlt := h.lt
  unfold memBound at hlt
  rw [satWord_toNat]
  by_cases hsize : r.size = 0
  · rw [hsize]
    rfl
  · have hle := h.le hsize
    omega

omit [Stray] in
theorem Inside.size_eq_zero (h : Inside len r) : satWord r.size = 0 ↔ r.size = 0 := by
  have hsize := h.size_toNat
  rw [← BitVec.toNat_inj, ← BitVec.toNat_inj, hsize]
  rfl

theorem checkRange_run (h : Inside len r) (hc : HasLen len c) :
    Ideal.checkRange r c = .ok () c := by
  unfold Ideal.checkRange
  rw [bind_run_ok (show getEv c = .ok c.ev c from rfl)]
  rw [if_neg fun hout => Nat.not_lt.mpr (h.le hout.1) (hc ▸ hout.2)]
  rfl

theorem readRange_run (h : Inside len r) (hc : HasLen len c) :
    Ideal.readRange r c = .ok (c.ev.memRead (satWord r.start) (satWord r.size)) c := by
  unfold Ideal.readRange Frame.memRead
  rw [bind_run_ok (checkRange_run h hc), bind_run_ok (show getEv c = .ok c.ev c from rfl)]
  rw [h.size_toNat]
  by_cases hsize : r.size = 0
  · have hzero : (0 : U256).toNat = 0 := rfl
    rw [hsize, hzero, List.take_zero, List.take_zero]
    rfl
  · rw [h.start_toNat hsize]
    rfl

theorem writeRange_run (h : Inside len r) (hc : HasLen len c) (bs : Bytes) :
    Ideal.writeRange r bs c = memWriteIf (satWord r.size) (satWord r.start) bs c := by
  unfold Ideal.writeRange memWriteIf
  rw [bind_run_ok (checkRange_run h hc)]
  by_cases hsize : r.size = 0
  · rw [if_pos hsize, if_neg (not_not.mpr (h.size_eq_zero.mpr hsize))]
  · rw [if_neg hsize, if_pos (h.size_eq_zero.not.mpr hsize)]
    unfold memWrite
    rw [h.start_toNat hsize]

end

section

variable [Stray] {α : Type} {len : Nat} {r : MemRange}

/-- A checked read is the guest's read. -/
theorem agree_read {k : Frame → EvmM α} {k' : Bytes → EvmM α} (h : Inside len r)
    (hk : ∀ e, Agree (HasLen len) (k e) (k' (e.memRead (satWord r.start) (satWord r.size)))) :
    Agree (HasLen len) (getEv >>= k) (Ideal.readRange r >>= k') := by
  refine .run Ctx.ev (fun _ _ => rfl) fun c hc => ?_
  rw [bind_run_ok (readRange_run h hc)]
  exact (hk c.ev).eq c hc

theorem agree_write (bs : Bytes) (k : Unit → EvmM α) (h : Inside len r) :
    Agree (HasLen len) (memWriteIf (satWord r.size) (satWord r.start) bs >>= k)
      (Ideal.writeRange r bs >>= k) := by
  refine ⟨fun c hc => ?_⟩
  rw [bind_run, bind_run, ← writeRange_run h hc]

/-- A write to a range of fixed size. -/
theorem agree_store {start size : U256} {bs : Bytes} (k : Unit → EvmM α)
    (h : Inside len ⟨start, size⟩) (hsize : satWord size ≠ 0) :
    Agree (HasLen len) (memWrite (satWord start) bs >>= k)
      (Ideal.writeRange ⟨start, size⟩ bs >>= k) := by
  have hwrite : memWriteIf (satWord size) (satWord start) bs = memWrite (satWord start) bs := by
    unfold memWriteIf
    rw [if_pos hsize]
  have hagree := agree_write (r := ⟨start, size⟩) bs k h
  dsimp only at hagree
  rwa [hwrite] at hagree

/-- A check that succeeds. -/
theorem agree_check {k k' : EvmM α} (h : Inside len r) (hk : Agree (HasLen len) k k') :
    Agree (HasLen len) k (Ideal.checkRange r >>= fun _ => k') := by
  refine ⟨fun c hc => ?_⟩
  rw [bind_run_ok (checkRange_run h hc)]
  exact hk.eq c hc

end

/-! ## Costs of the instructions -/

theorem exactCost_addSat {rs : List MemRange} {base : Word} {own : Nat}
    (h : (∀ r ∈ rs, r.size.toNat < memBound) → base.toNat = own ∧ own < 2 ^ 63) :
    ExactCost rs (addSat base) own where
  exact hsize m hm := by
    obtain ⟨hbase, hlt⟩ := h hsize
    rw [addSat_toNat, hbase]
    omega
  max := by
    refine BitVec.eq_of_toNat_eq ?_
    rw [addSat_toNat, wordMax_toNat]
    omega

theorem words_lt {size : U256} (h : size.toNat < memBound) : Ideal.words size ≤ 2 ^ 32 := by
  unfold memBound at h
  unfold Ideal.words
  omega

theorem wordsOf_satWord {size : U256} (h : size.toNat < memBound) :
    (wordsOf (satWord size)).toNat = Ideal.words size := by
  unfold memBound at h
  unfold Ideal.words
  rw [wordsOf_toNat, satWord_toNat]
  omega

/-- A cost per word of the size. -/
theorem exactCost_words {rs : List MemRange} {start size : U256} (hr : ⟨start, size⟩ ∈ rs)
    {base per : Word} {b p : Nat} (hb : base.toNat = b) (hp : per.toNat = p)
    (hbase : b < 2 ^ 32 := by decide) (hper : p < 2 ^ 4 := by decide) :
    ExactCost rs (addSat (base + per * wordsOf (satWord size))) (b + p * Ideal.words size) := by
  subst hb hp
  refine exactCost_addSat fun hsize => ?_
  have hwords := words_lt (hsize _ hr)
  have hcost : (base + per * wordsOf (satWord size)).toNat =
      base.toNat + per.toNat * (wordsOf (satWord size)).toNat := wordCost_toNat (by omega) _
  rw [wordsOf_satWord (hsize _ hr)] at hcost
  refine ⟨hcost, ?_⟩
  have hmul : per.toNat * Ideal.words size ≤ 2 ^ 4 * 2 ^ 32 :=
    Nat.mul_le_mul (Nat.le_of_lt hper) hwords
  omega

theorem exactCost_id (rs : List MemRange) : ExactCost rs (fun m => m) 0 where
  exact _ _ _ := (Nat.zero_add _).symm
  max := rfl

theorem exactCost_log (ntopics : Fin 5) {start size : U256} :
    ExactCost [⟨start, size⟩] (logCost ntopics (satWord size))
      (375 + 375 * ntopics + 8 * size.toNat) := by
  have hbase : ∀ n : Fin 5, (gLogBase + gLogTopic * BitVec.ofNat 64 n).toNat = 375 + 375 * n := by
    decide
  refine ⟨fun hsize m hm => ?_, ?_⟩
  · have hlt : size.toNat < 2 ^ 37 := hsize _ (List.mem_singleton.mpr rfl)
    have hn : (satWord size).toNat = size.toNat := by
      rw [satWord_toNat]
      omega
    have hper : gLogDataPerByte.toNat = 8 := rfl
    have hhigh : (mul64x64 gLogDataPerByte (satWord size)).2 = 0 := by
      unfold mul64x64
      dsimp only
      rw [hper, hn, Nat.div_eq_of_lt (by omega)]
      rfl
    have hlow : (mul64x64 gLogDataPerByte (satWord size)).1.toNat = 8 * size.toNat := by
      unfold mul64x64
      dsimp only
      rw [BitVec.toNat_mul, hper, hn, Nat.mod_eq_of_lt (by omega)]
    unfold logCost
    dsimp only
    rw [if_neg (not_not.mpr hhigh), addSat_toNat, addSat_toNat, hlow, hbase]
    have hntopics := ntopics.isLt
    omega
  · unfold logCost
    dsimp only
    split
    · rfl
    · refine BitVec.eq_of_toNat_eq ?_
      rw [addSat_toNat, addSat_toNat, wordMax_toNat]
      omega

/-! ## Instructions inside a frame -/

/-- The charge and the growth that follows it at once. -/
theorem agree_charge_grow {α : Type} {rs : List MemRange} {x : EvmM (Word × Word)}
    {cost : Word → Word} {own : Nat} {k k' : EvmM α}
    (hx : ∀ c, SoundMem c →
      x c = .ok (growth c.ev.mem.length (coverLen c.ev.mem.length rs)) c)
    (hcost : ExactCost rs cost own)
    (hk : ∀ len, (∀ r ∈ rs, Inside len r) → Agree (HasLen len) k k') :
    Agree SoundMem
      (x >>= fun x => chargeGas (cost x.1) >>= fun _ => extendMemory x.2 >>= fun _ => k)
      (Ideal.chargeRanges own rs >>= fun len => Ideal.growTo len >>= fun _ => k') :=
  agree_charge (k := fun n => extendMemory n >>= fun _ => k) hx hcost fun len hlt =>
    agree_grow (le_coverLen len rs) hlt (hk _ fun _ hr => inside_cover hlt hr)

theorem extend1 (start size : U256) (c : Ctx) (h : SoundMem c) :
    extendMemoryCost1 start size c =
      .ok (growth c.ev.mem.length (coverLen c.ev.mem.length [⟨start, size⟩])) c :=
  extendMemoryCost1_run h ⟨start, size⟩

theorem inside_head {len : Nat} {r : MemRange} {rs : List MemRange}
    (h : ∀ s ∈ r :: rs, Inside len s) : Inside len r := h r List.mem_cons_self

section

variable [Stray]

theorem agree_opKeccak [Keccak] : Agree SoundMem opKeccak Ideal.opKeccak := by
  unfold opKeccak Ideal.opKeccak
  refine agree_before inferInstance fun start => agree_before inferInstance fun size => ?_
  refine agree_charge_grow (extend1 start size)
    (exactCost_words (List.mem_singleton.mpr rfl) rfl rfl) fun len hin => ?_
  exact agree_read (inside_head hin) fun e => .refl _

theorem agree_opMstore : Agree SoundMem opMstore Ideal.opMstore := by
  unfold opMstore Ideal.opMstore chargeWithMemory
  refine agree_before inferInstance fun start => agree_before inferInstance fun value => ?_
  simp only [bind_assoc]
  refine agree_charge_grow (extend1 start 32) (exactCost_addSat fun _ => ⟨rfl, by decide⟩)
    fun len hin => ?_
  exact agree_store _ (inside_head hin) (by decide)

theorem agree_opMstore8 : Agree SoundMem opMstore8 Ideal.opMstore8 := by
  unfold opMstore8 Ideal.opMstore8 chargeWithMemory
  refine agree_before inferInstance fun start => agree_before inferInstance fun value => ?_
  simp only [bind_assoc]
  refine agree_charge_grow (extend1 start 1) (exactCost_addSat fun _ => ⟨rfl, by decide⟩)
    fun len hin => ?_
  exact agree_store _ (inside_head hin) (by decide)

theorem agree_opMload : Agree SoundMem opMload Ideal.opMload := by
  have hsize : satWord 32 = 32 := by decide
  unfold opMload Ideal.opMload chargeWithMemory
  refine agree_before inferInstance fun start => ?_
  simp only [bind_assoc]
  refine agree_charge_grow (extend1 start 32) (exactCost_addSat fun _ => ⟨rfl, by decide⟩)
    fun len hin => ?_
  refine agree_read (inside_head hin) fun e => ?_
  rw [hsize]
  exact .refl _

theorem agree_opMcopy : Agree SoundMem opMcopy Ideal.opMcopy := by
  unfold opMcopy Ideal.opMcopy
  refine agree_before inferInstance fun dst => agree_before inferInstance fun src => ?_
  refine agree_before inferInstance fun n => ?_
  have hx : ∀ c, SoundMem c → extendMemoryCost2 src n dst n c = .ok (growth c.ev.mem.length
      (coverLen c.ev.mem.length [⟨src, n⟩, ⟨dst, n⟩])) c :=
    fun c hc => extendMemoryCost2_run hc ⟨src, n⟩ ⟨dst, n⟩
  have hcost : ExactCost [⟨src, n⟩, ⟨dst, n⟩] (addSat (3 + gCopyPerWord * wordsOf (satWord n)))
      (3 + 3 * Ideal.words n) := exactCost_words List.mem_cons_self rfl rfl
  refine agree_charge_grow hx hcost fun len hin => ?_
  refine agree_read (inside_head hin) fun e => ?_
  exact agree_write (r := ⟨dst, n⟩) _ _ (hin _ (List.mem_cons_of_mem _ List.mem_cons_self))

omit [Stray] in
/-- A guard that both have. -/
theorem agree_guard {α : Type} {P : Ctx → Prop} {p : Prop} [Decidable p] {x y x' y' : EvmM α}
    (hx : Agree P x x') (hy : Agree P y y') :
    Agree P (if p then x else y) (if p then x' else y') := by
  split
  · exact hx
  · exact hy

theorem agree_opLog (ntopics : Fin 5) : Agree SoundMem (opLog ntopics) (Ideal.opLog ntopics) := by
  unfold opLog Ideal.opLog
  refine agree_before inferInstance fun start => agree_before inferInstance fun size => ?_
  refine agree_before inferInstance fun e => ?_
  have hrest : Agree SoundMem
      (extendMemoryCost1 start size >>= fun x =>
        chargeGas (logCost ntopics (satWord size) x.1) >>= fun _ =>
        popTopics ntopics >>= fun topics => extendMemory x.2 >>= fun _ =>
        requireNotStatic >>= fun _ => getEv >>= fun e =>
        logAppend ⟨e.msg.currentTarget, topics, e.memRead (satWord start) (satWord size)⟩
          >>= fun _ => pcAdd 1)
      (Ideal.chargeRanges (375 + 375 * ntopics + 8 * size.toNat) [⟨start, size⟩] >>= fun len =>
        popTopics ntopics >>= fun topics => Ideal.growTo len >>= fun _ =>
        requireNotStatic >>= fun _ => Ideal.readRange ⟨start, size⟩ >>= fun data =>
        getEv >>= fun e => logAppend ⟨e.msg.currentTarget, topics, data⟩ >>= fun _ => pcAdd 1) := by
    refine agree_charge (k := fun n => popTopics ntopics >>= fun topics =>
      extendMemory n >>= fun _ => requireNotStatic >>= fun _ => getEv >>= fun e =>
        logAppend ⟨e.msg.currentTarget, topics, e.memRead (satWord start) (satWord size)⟩
          >>= fun _ => pcAdd 1) (extend1 start size) (exactCost_log ntopics) fun len hlt => ?_
    refine agree_behind inferInstance fun topics => ?_
    refine agree_grow (le_coverLen len _) hlt (agree_behind inferInstance fun _ => ?_)
    have hin : Inside (coverLen len [⟨start, size⟩]) ⟨start, size⟩ :=
      inside_cover hlt (List.mem_singleton.mpr rfl)
    refine ⟨fun c hc => ?_⟩
    rw [bind_run_ok (show getEv c = .ok c.ev c from rfl), bind_run_ok (readRange_run hin hc),
      bind_run_ok (show getEv c = .ok c.ev c from rfl)]
  exact agree_guard (agree_before inferInstance fun _ => hrest) hrest

theorem agree_popOutput : Agree SoundMem popOutput Ideal.popOutput := by
  unfold popOutput Ideal.popOutput
  refine agree_before inferInstance fun start => agree_before inferInstance fun size => ?_
  refine agree_charge_grow (extend1 start size) (exactCost_id _) fun len hin => ?_
  refine ⟨fun c hc => ?_⟩
  rw [readRange_run (inside_head hin) hc]
  rfl

theorem agree_opReturn : Agree SoundMem opReturn Ideal.opReturn :=
  .bind (Q := fun _ _ => True) agree_popOutput (fun _ _ _ _ _ => trivial) fun _ => .refl _

theorem agree_opRevert : Agree SoundMem opRevert Ideal.opRevert :=
  .bind (Q := fun _ _ => True) agree_popOutput (fun _ _ _ _ _ => trivial) fun _ => .refl _

theorem agree_copyFromBuffer (buf : Bytes) :
    Agree SoundMem (copyFromBuffer 3 buf) (Ideal.copyFromBuffer buf) := by
  unfold copyFromBuffer Ideal.copyFromBuffer
  refine agree_before inferInstance fun mstart => agree_before inferInstance fun dstart => ?_
  refine agree_before inferInstance fun size => ?_
  have hcost : ExactCost [⟨mstart, size⟩]
      (addSat (3 + gCopyPerWord * wordsOf (satWord size))) (3 + 3 * Ideal.words size) :=
    exactCost_words (List.mem_singleton.mpr rfl) rfl rfl
  refine agree_charge_grow (extend1 mstart size) hcost fun len hin => ?_
  exact agree_write (r := ⟨mstart, size⟩) _ _ (inside_head hin)

theorem agree_opCalldatacopy : Agree SoundMem opCalldatacopy Ideal.opCalldatacopy :=
  agree_before inferInstance fun e => agree_copyFromBuffer e.msg.data

theorem agree_opCodecopy : Agree SoundMem opCodecopy Ideal.opCodecopy :=
  agree_before inferInstance fun e => agree_copyFromBuffer e.code

theorem agree_opReturndatacopy : Agree SoundMem opReturndatacopy Ideal.opReturndatacopy := by
  unfold opReturndatacopy Ideal.opReturndatacopy
  refine agree_before inferInstance fun mstart => agree_before inferInstance fun rstart => ?_
  refine agree_before inferInstance fun size => ?_
  have hcost : ExactCost [⟨mstart, size⟩]
      (addSat (3 + gCopyPerWord * wordsOf (satWord size))) (3 + 3 * Ideal.words size) :=
    exactCost_words (List.mem_singleton.mpr rfl) rfl rfl
  refine agree_charge (k := fun n => getEv >>= fun e =>
    if BitVec.ofNat 64 e.retdata.length < addSat (satWord rstart) (satWord size) then
      throwEvm .outOfBoundsRead >>= fun _ => extendMemory n >>= fun _ =>
        memWriteIf (satWord size) (satWord mstart)
          (bufferRead e.retdata (satWord rstart) (satWord size)) >>= fun _ => pcAdd 1
    else extendMemory n >>= fun _ => memWriteIf (satWord size) (satWord mstart)
      (bufferRead e.retdata (satWord rstart) (satWord size)) >>= fun _ => pcAdd 1)
    (extend1 mstart size) hcost fun len hlt => ?_
  refine agree_behind inferInstance fun e => ?_
  have hrest : Agree (HasLen len)
      (extendMemory (BitVec.ofNat 64 (coverLen len [⟨mstart, size⟩] - len)) >>= fun _ =>
        memWriteIf (satWord size) (satWord mstart)
          (bufferRead e.retdata (satWord rstart) (satWord size)) >>= fun _ => pcAdd 1)
      (Ideal.growTo (coverLen len [⟨mstart, size⟩]) >>= fun _ =>
        Ideal.writeRange ⟨mstart, size⟩ (bufferRead e.retdata (satWord rstart) (satWord size))
          >>= fun _ => pcAdd 1) :=
    agree_grow (le_coverLen len _) hlt
      (agree_write (r := ⟨mstart, size⟩) _ _ (inside_cover hlt (List.mem_singleton.mpr rfl)))
  exact agree_guard (agree_behind inferInstance fun _ => hrest) hrest

end

section

variable [Stray] [Keccak] (w : Witness)

omit [Stray] [Keccak] in
theorem accessGasCost_cases (addr : Address) (c : Ctx) :
    accessGasCost addr c = .ok gWarmAccess c ∨ accessGasCost addr c = .ok gColdAccountAccess c := by
  unfold accessGasCost
  rw [bind_run_ok (show isWarmAddress addr c = .ok (c.accAddrs.has addr) c from rfl)]
  split
  · exact .inl rfl
  · exact .inr rfl

/-- The part of EXTCODECOPY behind the access cost. -/
theorem agree_extcodecopy (addr : Address) (mstart cstart size : U256) (acc : Word) {a : Nat}
    (hacc : (acc + gWarmAccess).toNat = a) (ha : a < 2 ^ 32) :
    Agree SoundMem
      (extendMemoryCost1 mstart size >>= fun x =>
        chargeGas (addSat (acc + gWarmAccess + gCopyPerWord * wordsOf (satWord size)) x.1)
          >>= fun _ => warmAfterCharge addr acc >>= fun _ => extendMemory x.2 >>= fun _ =>
        liftState (extCodeOf w addr) >>= fun code => memWriteIf (satWord size) (satWord mstart)
          (bufferRead code (satWord cstart) (satWord size)) >>= fun _ => pcAdd 1)
      (Ideal.chargeRanges (a + 3 * Ideal.words size) [⟨mstart, size⟩] >>= fun len =>
        warmAfterCharge addr acc >>= fun _ => Ideal.growTo len >>= fun _ =>
        liftState (extCodeOf w addr) >>= fun code => Ideal.writeRange ⟨mstart, size⟩
          (bufferRead code (satWord cstart) (satWord size)) >>= fun _ => pcAdd 1) := by
  have hcost : ExactCost [⟨mstart, size⟩]
      (addSat (acc + gWarmAccess + gCopyPerWord * wordsOf (satWord size)))
      (a + 3 * Ideal.words size) := exactCost_words (List.mem_singleton.mpr rfl) hacc rfl ha
  refine agree_charge (k := fun n => warmAfterCharge addr acc >>= fun _ =>
    extendMemory n >>= fun _ => liftState (extCodeOf w addr) >>= fun code =>
      memWriteIf (satWord size) (satWord mstart)
        (bufferRead code (satWord cstart) (satWord size)) >>= fun _ => pcAdd 1)
    (extend1 mstart size) hcost fun len hlt => ?_
  refine agree_behind inferInstance fun _ => ?_
  refine agree_grow (le_coverLen len _) hlt (agree_behind inferInstance fun code => ?_)
  exact agree_write (r := ⟨mstart, size⟩) _ _ (inside_cover hlt (List.mem_singleton.mpr rfl))

theorem agree_opExtcodecopy : Agree SoundMem (opExtcodecopy w) (Ideal.opExtcodecopy w) := by
  unfold opExtcodecopy Ideal.opExtcodecopy
  refine agree_before inferInstance fun av => agree_before inferInstance fun mstart => ?_
  refine agree_before inferInstance fun cstart => agree_before inferInstance fun size => ?_
  refine ⟨fun c hc => ?_⟩
  rw [bind_run_ok (extend1 mstart size c hc)]
  obtain hacc | hacc := accessGasCost_cases (toAddressMasked av) c
  · have hagree := (agree_extcodecopy w (toAddressMasked av) mstart cstart size
      gWarmAccess rfl (by decide)).eq c hc
    rw [bind_run_ok (extend1 mstart size c hc)] at hagree
    rw [bind_run_ok hacc, bind_run_ok hacc]
    exact hagree
  · have hagree := (agree_extcodecopy w (toAddressMasked av) mstart cstart size
      gColdAccountAccess rfl (by decide)).eq c hc
    rw [bind_run_ok (extend1 mstart size c hc)] at hagree
    rw [bind_run_ok hacc, bind_run_ok hacc]
    exact hagree

/-! ## Creations -/

theorem agree_opCreate : Agree SoundMem (opCreate w) (Ideal.opCreate w) := by
  unfold opCreate Ideal.opCreate
  refine agree_before inferInstance fun _ => agree_before inferInstance fun endowment => ?_
  refine agree_before inferInstance fun mstart => agree_before inferInstance fun msize => ?_
  have hcost : ExactCost [⟨mstart, msize⟩]
      (addSat (gCreateAccess + gCodeInitPerWord * wordsOf (satWord msize)))
      (12000 + 2 * Ideal.words msize) := exactCost_words (List.mem_singleton.mpr rfl) rfl rfl
  refine agree_charge_grow (extend1 mstart msize) hcost fun len hin => ?_
  refine agree_behind inferInstance fun e => agree_behind inferInstance fun a => ?_
  exact agree_check (inside_head hin) (.refl _)

theorem agree_opCreate2 : Agree SoundMem (opCreate2 w) (Ideal.opCreate2 w) := by
  unfold opCreate2 Ideal.opCreate2
  refine agree_before inferInstance fun _ => agree_before inferInstance fun endowment => ?_
  refine agree_before inferInstance fun mstart => agree_before inferInstance fun msize => ?_
  refine agree_before inferInstance fun salt => ?_
  have hcost : ExactCost [⟨mstart, msize⟩]
      (addSat (gCreateAccess + gKeccak256PerWord * wordsOf (satWord msize)
        + gCodeInitPerWord * wordsOf (satWord msize)))
      (12000 + 6 * Ideal.words msize + 2 * Ideal.words msize) := by
    refine exactCost_addSat fun hsize => ?_
    have hlt : msize.toNat < memBound := hsize _ (List.mem_singleton.mpr rfl)
    have hwords := words_lt hlt
    have hhash : (gCreateAccess + gKeccak256PerWord * wordsOf (satWord msize)).toNat =
        12000 + 6 * (wordsOf (satWord msize)).toNat := wordCost_toNat (by decide) _
    have hper : gCodeInitPerWord.toNat = 2 := rfl
    rw [wordsOf_satWord hlt] at hhash
    rw [wordCost_toNat (by rw [hhash, hper]; omega), hhash, hper, wordsOf_satWord hlt]
    exact ⟨rfl, by omega⟩
  refine agree_charge_grow (extend1 mstart msize) hcost fun len hin => ?_
  refine ⟨fun c hc => ?_⟩
  rw [bind_run_ok (show getEv c = .ok c.ev c from rfl), bind_run_ok (readRange_run (inside_head hin) hc),
    bind_run_ok (show getEv c = .ok c.ev c from rfl)]

/-! ## Calls -/

omit [Stray] in
theorem agree_accessCallee {α : Type} (addr : Address) (value : U256) (r : CallRanges)
    {k : Callee → EvmM α} {k' : Ideal.Callee → EvmM α}
    (hk : ∀ len delegates codeAddress code, coverLen len (Ideal.callRanges r) < memBound →
      Agree (HasLen len)
        (k ⟨BitVec.ofNat 64 (coverLen len (Ideal.callRanges r) - len), delegates, codeAddress,
          code⟩)
        (k' ⟨coverLen len (Ideal.callRanges r), delegates, codeAddress, code⟩)) :
    Agree SoundMem (accessCallee w addr value r >>= k)
      (Ideal.accessCallee w addr value r >>= k') := by
  refine ⟨fun c hc => ?_⟩
  have hx : ∀ c, SoundMem c →
      extendMemoryCost2 r.inStart r.inSize r.outStart r.outSize c = .ok (growth c.ev.mem.length
        (coverLen c.ev.mem.length (Ideal.callRanges r))) c :=
    fun c hc => extendMemoryCost2_run hc ⟨r.inStart, r.inSize⟩ ⟨r.outStart, r.outSize⟩
  have hwarm : isWarmAddress addr c = .ok (c.accAddrs.has addr) c := rfl
  unfold accessCallee Ideal.accessCallee
  simp only [bind_assoc, pure_bind]
  rw [bind_run_ok (hx c hc), bind_run_ok hwarm, bind_run_ok hwarm]
  generalize c.accAddrs.has addr = warm
  have hcost : ExactCost (Ideal.callRanges r)
      (addSat ((if warm then gWarmAccess else gColdAccountAccess) +
        if value = 0 then 0 else gCallValue))
      ((if warm then 100 else 3000) + if value = 0 then 0 else 11300) := by
    refine exactCost_addSat fun _ => ?_
    cases warm <;> by_cases hvalue : value = 0 <;> simp only [hvalue, if_true, if_false] <;>
      exact ⟨rfl, by decide⟩
  refine Eq.trans ?_ ((agree_charge (k := fun n => warmUnless warm addr >>= fun _ =>
    calculateDelegationCost w addr >>= fun dl => accessDelegate dl.1 dl.2.1 dl.2.2 >>= fun _ =>
      liftState (extCodeOf w dl.2.1) >>= fun code => k ⟨n, dl.1, dl.2.1, code⟩) hx hcost
    fun len hlt => ?_).eq c hc)
  · rw [bind_run_ok (hx c hc)]
  · refine agree_behind inferInstance fun _ => agree_behind inferInstance fun dl => ?_
    refine agree_behind inferInstance fun _ => agree_behind inferInstance fun code => ?_
    exact hk len dl.1 dl.2.1 code hlt

omit [Stray] [Keccak] in
theorem agree_splitCallGas {α : Type} {len new : Nat} (value gas : U256) (hle : len ≤ new)
    (hnew : new < memBound) {k k' : Word × Word → EvmM α}
    (hk : ∀ g, Agree (HasLen new) (k g) (k' g)) :
    Agree (HasLen len) (splitCallGas value gas (BitVec.ofNat 64 (new - len)) >>= k)
      (Ideal.splitCallGas value gas new >>= k') := by
  unfold splitCallGas Ideal.splitCallGas
  simp only [bind_assoc, pure_bind]
  refine agree_behind inferInstance fun e => agree_behind inferInstance fun _ => ?_
  refine agree_behind (sameMem_modifyEv fun _ => rfl) fun _ => agree_grow hle hnew ?_
  exact agree_behind inferInstance fun reservoir => hk _

omit [Keccak] in
/-- A call whose ranges are covered. -/
theorem agree_genericCall {α : Type} {len : Nat} {r : CallRanges}
    (hin : ∀ s ∈ Ideal.callRanges r, Inside len s) (gas reservoir : Word) (value : U256)
    (caller dst codeAddress : Address) (transfer isStatic : Bool) (code : Bytes)
    (disablePre charged : Bool) (k : Option ChildReq → EvmM α) :
    Agree (HasLen len)
      (genericCall gas reservoir value caller dst codeAddress transfer isStatic r code disablePre
        charged >>= k)
      (Ideal.genericCall gas reservoir value caller dst codeAddress transfer isStatic r code
        disablePre charged >>= k) := by
  unfold Ideal.genericCall
  simp only [bind_assoc]
  refine agree_check (inside_head hin) ?_
  exact agree_check (hin _ (List.mem_cons_of_mem _ List.mem_cons_self)) (.refl _)

/-- The part of CALL and CALLCODE behind the charge for the child. -/
theorem agree_started {len : Nat} {r : CallRanges}
    (hin : ∀ s ∈ Ideal.callRanges r, Inside len s) (self caller dst codeAddress : Address)
    (value : U256) (g : Word × Word) (code : Bytes) (disablePre charged : Bool) :
    Agree (HasLen len)
      (liftState (loadAccount w self) >>= fun sender =>
        if sender.balance < value then callUnpaid g.1 g.2 charged >>= pcAddIfDone
        else genericCall g.1 g.2 value caller dst codeAddress true false r code disablePre charged
          >>= pcAddIfDone)
      (liftState (loadAccount w self) >>= fun sender =>
        if sender.balance < value then callUnpaid g.1 g.2 charged >>= pcAddIfDone
        else Ideal.genericCall g.1 g.2 value caller dst codeAddress true false r code disablePre
          charged >>= pcAddIfDone) :=
  agree_behind inferInstance fun _ =>
    agree_guard (.refl _) (agree_genericCall hin _ _ _ _ _ _ _ _ _ _ _ _)

theorem agree_opCall : Agree SoundMem (opCall w) (Ideal.opCall w) := by
  unfold opCall Ideal.opCall
  refine agree_before inferInstance fun gas => agree_before inferInstance fun tov => ?_
  refine agree_before inferInstance fun value => agree_before inferInstance fun r => ?_
  refine agree_before inferInstance fun e => agree_guard ?_ ?_
  case' refine_1 => refine agree_before inferInstance fun _ => ?_
  all_goals
    refine agree_accessCallee w _ _ _ fun len delegates codeAddress code hlt => ?_
    refine agree_behind inferInstance fun charged => ?_
    refine agree_splitCallGas _ _ (le_coverLen len _) hlt fun g => ?_
    exact agree_started w (fun _ hs => inside_cover hlt hs) _ _ _ _ _ _ _ _ _

theorem agree_opCallcode : Agree SoundMem (opCallcode w) (Ideal.opCallcode w) := by
  unfold opCallcode Ideal.opCallcode
  refine agree_before inferInstance fun gas => agree_before inferInstance fun cav => ?_
  refine agree_before inferInstance fun value => agree_before inferInstance fun r => ?_
  refine agree_before inferInstance fun e => ?_
  refine agree_accessCallee w _ _ _ fun len delegates codeAddress code hlt => ?_
  refine agree_splitCallGas _ _ (le_coverLen len _) hlt fun g => ?_
  exact agree_started w (fun _ hs => inside_cover hlt hs) _ _ _ _ _ _ _ _ _

theorem agree_opDelegatecall : Agree SoundMem (opDelegatecall w) (Ideal.opDelegatecall w) := by
  unfold opDelegatecall Ideal.opDelegatecall
  refine agree_before inferInstance fun gas => agree_before inferInstance fun cav => ?_
  refine agree_before inferInstance fun r => agree_before inferInstance fun e => ?_
  refine agree_accessCallee w _ _ _ fun len delegates codeAddress code hlt => ?_
  refine agree_splitCallGas _ _ (le_coverLen len _) hlt fun g => ?_
  exact agree_genericCall (fun _ hs => inside_cover hlt hs) _ _ _ _ _ _ _ _ _ _ _ _

theorem agree_opStaticcall : Agree SoundMem (opStaticcall w) (Ideal.opStaticcall w) := by
  unfold opStaticcall Ideal.opStaticcall
  refine agree_before inferInstance fun gas => agree_before inferInstance fun tov => ?_
  refine agree_before inferInstance fun r => agree_before inferInstance fun e => ?_
  refine agree_accessCallee w _ _ _ fun len delegates codeAddress code hlt => ?_
  refine agree_splitCallGas _ _ (le_coverLen len _) hlt fun g => ?_
  exact agree_genericCall (fun _ hs => inside_cover hlt hs) _ _ _ _ _ _ _ _ _ _ _ _

/-! ## Dispatch -/

omit [Stray] [Keccak] in
theorem agree_plain {x y : EvmM Unit} (h : Agree SoundMem x y) :
    Agree SoundMem (plain x) (plain y) :=
  .bind (Q := fun _ _ => True) h (fun _ _ _ _ _ => trivial) fun _ => .refl _

omit [Stray] in
theorem opDispatch_log : ∀ ntopics : Fin 5,
    opDispatch w (MemOp.log ntopics).opcode = plain (opLog ntopics)
  | 0 => rfl
  | 1 => rfl
  | 2 => rfl
  | 3 => rfl
  | 4 => rfl

/-- Every instruction on the memory does what it is meant to do. -/
theorem agree_memOp (op : MemOp) : Agree SoundMem (opDispatch w op.opcode) (op.ideal w) := by
  cases op with
  | keccak => exact agree_plain agree_opKeccak
  | calldatacopy => exact agree_plain agree_opCalldatacopy
  | codecopy => exact agree_plain agree_opCodecopy
  | extcodecopy => exact agree_plain (agree_opExtcodecopy w)
  | returndatacopy => exact agree_plain agree_opReturndatacopy
  | mload => exact agree_plain agree_opMload
  | mstore => exact agree_plain agree_opMstore
  | mstore8 => exact agree_plain agree_opMstore8
  | mcopy => exact agree_plain agree_opMcopy
  | log ntopics =>
    rw [opDispatch_log]
    exact agree_plain (agree_opLog ntopics)
  | create => exact agree_opCreate w
  | call => exact agree_opCall w
  | callcode => exact agree_opCallcode w
  | ret => exact agree_plain agree_opReturn
  | delegatecall => exact agree_opDelegatecall w
  | create2 => exact agree_opCreate2 w
  | staticcall => exact agree_opStaticcall w
  | revert => exact agree_plain agree_opRevert

end

end StatelessGuest
