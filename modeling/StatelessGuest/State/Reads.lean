import StatelessGuest.State.Journal

/-!
# Programs that only read

A read changes the read sets and may allocate the account record it decodes. `Reading R` says
that `R` allows these changes, so every read keeps every such relation.
-/

namespace StatelessGuest

open Lib Tracker

/-- A change of the read sets. -/
structure ReadStep (s s' : Tracker) : Prop where
  accts : s'.accts = s.accts
  words : s'.words = s.words
  slices : s'.slices = s.slices
  inners : s'.inners = s.inners
  reads : ReadsGrow s s'
  created : s'.ts.created = s.ts.created
  bs : s'.bs = { s.bs with preReads := s'.bs.preReads, ancOff := s'.bs.ancOff }
  journal : s'.journal = s.journal
  table : ∀ t, s'.table t = s.table t

/-- A relation that allows what a read does. -/
class Reading (R : Tracker → Tracker → Prop) : Prop extends Std.Refl R, IsTrans Tracker R where
  read : ∀ {s s' : Tracker}, ReadStep s s' → R s s'
  alloc : ∀ (s : Tracker) (a : Acct), R s { s with accts := s.accts.alloc a }

section

variable {R : Tracker → Tracker → Prop} [Reading R]

instance (addr : Address) :
    Keeps R (modifyTs fun t => { t with acctReads := t.acctReads.set addr () }) :=
  Keeps.modify fun _ => Reading.read ⟨rfl, rfl, rfl, rfl,
    ⟨sub_set _ _, fun _ h => h, fun _ h => h, fun _ h => h, fun _ h => h⟩, rfl, rfl, rfl,
    fun t => by cases t <;> rfl⟩

instance (addr : Address) (key : Hash) : Keeps R (recordStorageRead addr key) :=
  Keeps.modify fun _ => Reading.read ⟨rfl, rfl, rfl, rfl,
    ⟨fun _ h => h, sub_set _ _, fun _ h => h, fun _ h => h, fun _ h => h⟩, rfl, rfl, rfl,
    fun t => by cases t <;> rfl⟩

instance (k : Address × Hash) :
    Keeps R (modifyTs fun t => { t with codeReads := t.codeReads.set k () }) :=
  Keeps.modify fun _ => Reading.read ⟨rfl, rfl, rfl, rfl,
    ⟨fun _ h => h, fun _ h => h, sub_set _ _, fun _ h => h, fun _ h => h⟩, rfl, rfl, rfl,
    fun t => by cases t <;> rfl⟩

instance (addr : Address) : Keeps R (recordPreStateRead addr) :=
  Keeps.modify fun _ => Reading.read ⟨rfl, rfl, rfl, rfl,
    ⟨fun _ h => h, fun _ h => h, fun _ h => h, fun _ h => h, sub_set _ _⟩, rfl, rfl, rfl,
    fun t => by cases t <;> rfl⟩

instance (offset : Word) : Keeps R (trackAncestorAccess offset) :=
  Keeps.modify fun _ => Reading.read ⟨rfl, rfl, rfl, rfl, .of_eq rfl, rfl, rfl, rfl,
    fun t => by cases t <;> rfl⟩

instance (a : Acct) : Keeps R (acctAlloc a) := ⟨fun s => Reading.alloc s a⟩

instance (p : Nat) : Keeps R (ldAcct p) := by unfold ldAcct; infer_instance

instance (p : Nat) : Keeps R (ldWord p) := by unfold ldWord; infer_instance

instance (p : Nat) : Keeps R (ldSlice p) := by unfold ldSlice; infer_instance

instance (p : Nat) : Keeps R (acctCopy p) := by unfold acctCopy; infer_instance

instance : Keeps R stateSnapshot := by unfold stateSnapshot; infer_instance

end

section

variable {R : Tracker → Tracker → Prop} [Reading R] [Keccak] (w : Witness)

instance {α : Type} (x : Except Exn α) : Keeps R (liftExcept x) := by
  cases x <;> unfold liftExcept <;> infer_instance

instance (addr : Address) : Keeps R (wsGetAccountOptional w addr) := by
  unfold wsGetAccountOptional
  refine Keeps.seq inferInstance fun r => ?_
  split <;> infer_instance

instance (addr : Address) : Keeps R (wsStorageRootOf w addr) := by
  unfold wsStorageRootOf
  refine Keeps.seq inferInstance fun r => ?_
  split <;> infer_instance

instance (addr : Address) (key : Hash) : Keeps R (wsGetStorage w addr key) := by
  unfold wsGetStorage
  infer_instance

instance (h : Hash) : Keeps R (wsGetCode w h) := by
  unfold wsGetCode
  split
  · infer_instance
  · split <;> infer_instance

instance (addr : Address) : Keeps R (wsAccountHasStorage w addr) := by
  unfold wsAccountHasStorage
  infer_instance

instance : Keeps R acctEmpty := by
  unfold acctEmpty acctNew
  infer_instance

instance (addr : Address) : Keeps R (getPreStateAccountOptional w addr) := by
  unfold getPreStateAccountOptional
  refine Keeps.seq inferInstance fun _ => Keeps.seq inferInstance fun s => ?_
  split <;> infer_instance

instance (addr : Address) : Keeps R (getPreStateAccount w addr) := by
  unfold getPreStateAccount
  refine Keeps.seq inferInstance fun r => ?_
  split <;> infer_instance

instance (addr : Address) : Keeps R (getAccountOptional w addr) := by
  unfold getAccountOptional
  refine Keeps.seq inferInstance fun _ => Keeps.seq inferInstance fun s => ?_
  split <;> infer_instance

instance (addr : Address) : Keeps R (getAccount w addr) := by
  unfold getAccount
  refine Keeps.seq inferInstance fun r => ?_
  split <;> infer_instance

instance (h : Hash) (addr : Address) : Keeps R (getCode w h addr) := by
  unfold getCode
  split
  · infer_instance
  refine Keeps.seq inferInstance fun s => ?_
  split
  · infer_instance
  refine Keeps.seq inferInstance fun s => ?_
  split <;> infer_instance

instance (addr : Address) (key : Hash) : Keeps R (getStorageBelow w addr key) := by
  unfold getStorageBelow
  refine Keeps.seq inferInstance fun s => ?_
  split <;> infer_instance

instance (addr : Address) (key : Hash) : Keeps R (getStorage w addr key) := by
  unfold getStorage
  refine Keeps.seq inferInstance fun _ => Keeps.seq inferInstance fun s => ?_
  split <;> infer_instance

instance (addr : Address) (key : Hash) : Keeps R (getStorageOriginal w addr key) := by
  unfold getStorageOriginal
  infer_instance

instance (addr : Address) (key : Hash) : Keeps R (getTransientStorage addr key) := by
  unfold getTransientStorage
  refine Keeps.seq inferInstance fun s => ?_
  split <;> infer_instance

instance (addr : Address) : Keeps R (accountExists w addr) := by
  unfold accountExists
  infer_instance

instance (addr : Address) : Keeps R (accountHasStorage w addr) := by
  unfold accountHasStorage
  infer_instance

instance (addr : Address) : Keeps R (accountDeployable w addr) := by
  unfold accountDeployable
  infer_instance

instance (addr : Address) : Keeps R (accountExistsAndIsEmpty w addr) := by
  unfold accountExistsAndIsEmpty
  refine Keeps.seq inferInstance fun r => ?_
  split <;> infer_instance

instance (addr : Address) : Keeps R (isAccountAlive w addr) := by
  unfold isAccountAlive
  refine Keeps.seq inferInstance fun r => ?_
  split <;> infer_instance

end

/-! ## What every read does -/

/-- Account records may be allocated and the read sets may grow; nothing else changes. -/
structure ReadOnly (s s' : Tracker) : Prop where
  accts : s.accts.Grows s'.accts
  words : s'.words = s.words
  slices : s'.slices = s.slices
  inners : s'.inners = s.inners
  reads : ReadsGrow s s'
  created : s'.ts.created = s.ts.created
  bs : s'.bs = { s.bs with preReads := s'.bs.preReads, ancOff := s'.bs.ancOff }
  journal : s'.journal = s.journal
  table : ∀ t, s'.table t = s.table t

instance : Reading ReadOnly where
  refl s := ⟨.refl _, rfl, rfl, rfl, .refl s, rfl, rfl, rfl, fun _ => rfl⟩
  trans s₁ s₂ s₃ h h' := ⟨h.accts.trans h'.accts, h'.words.trans h.words,
    h'.slices.trans h.slices, h'.inners.trans h.inners, h.reads.trans h'.reads,
    h'.created.trans h.created, by rw [h'.bs, h.bs], h'.journal.trans h.journal,
    fun t => (h'.table t).trans (h.table t)⟩
  read h := ⟨by rw [h.accts]; exact .refl _, h.words, h.slices, h.inners, h.reads, h.created, h.bs,
    h.journal, h.table⟩
  alloc s a := ⟨Arena.grows_alloc _ _, rfl, rfl, rfl, .of_eq rfl, rfl, rfl, rfl, fun _ => rfl⟩

/-- A relation that allows a read allows any number of them. -/
theorem Reading.readOnly {R : Tracker → Tracker → Prop} [Reading R] {s s' : Tracker}
    (h : ReadOnly s s') : R s s' := by
  obtain ⟨cells, hcells⟩ := h.accts
  have hgrow : ∀ (as bs : List Acct) (u : Tracker), u.accts.cells = as →
      R u { u with accts := ⟨as ++ bs⟩ } := by
    intro as bs
    induction bs generalizing as with
    | nil =>
      rintro u rfl
      rw [List.append_nil]
      exact refl_of R u
    | cons b bs ih =>
      rintro u rfl
      have halloc : R u { u with accts := u.accts.alloc b } := Reading.alloc u b
      have hrest := ih (u.accts.cells ++ [b]) { u with accts := u.accts.alloc b } rfl
      rw [List.append_assoc] at hrest
      exact trans_of R halloc hrest
  have haccts : s'.accts = ⟨s.accts.cells ++ cells⟩ := by rw [hcells]
  refine trans_of R (hgrow s.accts.cells cells s rfl) (Reading.read ?_)
  exact ⟨haccts, h.words, h.slices, h.inners, ⟨h.reads.acctReads, h.reads.storReads,
    h.reads.codeReads, h.reads.created, h.reads.preReads⟩, h.created, h.bs, h.journal,
    fun t => (h.table t).trans (by cases t <;> rfl)⟩

end StatelessGuest
