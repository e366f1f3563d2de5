import StatelessGuest.State.Ops
import Mathlib.Logic.Relation

/-!
# Rolling a transaction back

Inside one transaction scope, operations run between snapshots that are committed or restored
in LIFO order. A restored state has the four write maps of the state the snapshot was taken
in, record contents included; the read sets and the created accounts stay as they are.

* `Scope`: the tracker with the live snapshots and, as ghosts, the states they were taken in.
* `Scope.Inv`: every live snapshot's state is extended by the current one, and deeper
  snapshots have shorter journals.
* `restore_exact`: the theorem.
-/

namespace StatelessGuest

open Lib Tracker

/-! ## The write maps with their contents -/

/-- The write maps of a transaction, every pointer followed. -/
structure WriteMaps where
  accounts : Address → Option (Option Acct)
  storage : Address → Option (Hash → Option U256)
  code : Hash → Option Bytes
  transient : Address × Hash → Option U256

/-- The write maps of a state. -/
def Tracker.writeMaps (s : Tracker) : WriteMaps where
  accounts addr := (s.ts.acctWrites.get addr).map fun r => r.map s.accts.load
  storage addr := (s.ts.storWrites.get addr).map fun m key =>
    ((s.inners.load m).get key).map s.words.load
  code h := (s.ts.codeWrites.get h).map s.slices.load
  transient k := (s.ts.transient.get k).map s.words.load

/-- States with the same bindings of valid pointers have the same write maps. -/
theorem writeMaps_congr {s s' : Tracker} (hwf : Wf s) (hx : Ext s s') (hag : Agree s.Has s s') :
    s'.writeMaps = s.writeMaps := by
  have hacct : s'.lookup .acctWrites = s.lookup .acctWrites :=
    funext fun k => ((hag .acctWrites trivial).2.2 k).symm
  have hstor : s'.lookup .storWrites = s.lookup .storWrites :=
    funext fun k => ((hag .storWrites trivial).2.2 k).symm
  have hcode : s'.lookup .codeWrites = s.lookup .codeWrites :=
    funext fun k => ((hag .codeWrites trivial).2.2 k).symm
  have htrans : s'.lookup .transient = s.lookup .transient :=
    funext fun k => ((hag .transient trivial).2.2 k).symm
  unfold writeMaps
  congr 1
  · funext addr
    change (s'.lookup .acctWrites addr).map _ = (s.lookup .acctWrites addr).map _
    rw [hacct]
    refine Option.map_congr fun r hr => Option.map_congr fun p hp => ?_
    exact hx.accts.load (hwf.vals .acctWrites trivial addr r hr p hp)
  · funext addr
    change (s'.lookup .storWrites addr).map _ = (s.lookup .storWrites addr).map _
    rw [hstor]
    refine Option.map_congr fun m hm => funext fun key => ?_
    have hlive : s.Live (.inner m) := ⟨addr, hm⟩
    obtain ⟨_, _, hk⟩ := hag (.inner m) (hwf.has_of_live hlive)
    change (s'.lookup (.inner m) key).map _ = (s.lookup (.inner m) key).map _
    rw [← hk]
    exact Option.map_congr fun v hv => hx.words.load (hwf.vals (.inner m) hlive key v hv)
  · funext h
    change (s'.lookup .codeWrites h).map _ = (s.lookup .codeWrites h).map _
    rw [hcode]
    exact Option.map_congr fun p hp => hx.slices.load (hwf.vals .codeWrites trivial h p hp)
  · funext k
    change (s'.lookup .transient k).map _ = (s.lookup .transient k).map _
    rw [htrans]
    exact Option.map_congr fun p hp => hx.words.load (hwf.vals .transient trivial k p hp)

/-! ## Operations -/

/-- The tracker operations a transaction can run. -/
inductive Op where
  | acctNew (nonce : Word) (balance : U256) (codeHash : Hash)
  | setAccount (addr : Address) (r : AcctRef)
  | destroyStorage (addr : Address)
  | destroyAccount (addr : Address)
  | setStorage (addr : Address) (key : Hash) (value : U256)
  | setTransientStorage (addr : Address) (key : Hash) (value : U256)
  | setCode (addr : Address) (code : Bytes)
  | moveEther (sender recipient : Address) (amount : U256)
  | createEther (addr : Address) (amount : U256)
  | setAccountBalance (addr : Address) (amount : U256)
  | incrementNonce (addr : Address)
  | clearAccountPreservingBalance (addr : Address)
  | markAccountCreated (addr : Address)
  | trackAncestorAccess (offset : Word)
  | getPreStateAccountOptional (addr : Address)
  | getPreStateAccount (addr : Address)
  | getAccountOptional (addr : Address)
  | getAccount (addr : Address)
  | getCode (codeHash : Hash) (addr : Address)
  | getStorage (addr : Address) (key : Hash)
  | getStorageOriginal (addr : Address) (key : Hash)
  | getTransientStorage (addr : Address) (key : Hash)
  | accountExists (addr : Address)
  | accountHasStorage (addr : Address)
  | accountDeployable (addr : Address)
  | accountExistsAndIsEmpty (addr : Address)
  | isAccountAlive (addr : Address)

section

variable [Keccak] (w : Witness)

/-- Run an operation, its result dropped. -/
def Op.run : Op → StateM Unit
  | .acctNew n b h => discard (StatelessGuest.acctNew n b h)
  | .setAccount a r => StatelessGuest.setAccount a r
  | .destroyStorage a => StatelessGuest.destroyStorage a
  | .destroyAccount a => StatelessGuest.destroyAccount a
  | .setStorage a k v => StatelessGuest.setStorage w a k v
  | .setTransientStorage a k v => StatelessGuest.setTransientStorage a k v
  | .setCode a c => StatelessGuest.setCode w a c
  | .moveEther a b n => StatelessGuest.moveEther w a b n
  | .createEther a n => StatelessGuest.createEther w a n
  | .setAccountBalance a n => StatelessGuest.setAccountBalance w a n
  | .incrementNonce a => StatelessGuest.incrementNonce w a
  | .clearAccountPreservingBalance a => StatelessGuest.clearAccountPreservingBalance w a
  | .markAccountCreated a => StatelessGuest.markAccountCreated a
  | .trackAncestorAccess n => StatelessGuest.trackAncestorAccess n
  | .getPreStateAccountOptional a => discard (StatelessGuest.getPreStateAccountOptional w a)
  | .getPreStateAccount a => discard (StatelessGuest.getPreStateAccount w a)
  | .getAccountOptional a => discard (StatelessGuest.getAccountOptional w a)
  | .getAccount a => discard (StatelessGuest.getAccount w a)
  | .getCode h a => discard (StatelessGuest.getCode w h a)
  | .getStorage a k => discard (StatelessGuest.getStorage w a k)
  | .getStorageOriginal a k => discard (StatelessGuest.getStorageOriginal w a k)
  | .getTransientStorage a k => discard (StatelessGuest.getTransientStorage a k)
  | .accountExists a => discard (StatelessGuest.accountExists w a)
  | .accountHasStorage a => discard (StatelessGuest.accountHasStorage w a)
  | .accountDeployable a => discard (StatelessGuest.accountDeployable w a)
  | .accountExistsAndIsEmpty a => discard (StatelessGuest.accountExistsAndIsEmpty w a)
  | .isAccountAlive a => discard (StatelessGuest.isAccountAlive w a)

/-- `set_account` is handed a record that was allocated, or `ACCT_NONE`. -/
def Op.Admissible (s : Tracker) : Op → Prop
  | .setAccount _ (some p) => s.accts.Valid p
  | _ => True

/-- One operation, returning or throwing, keeps the relation. -/
theorem Op.kept {s : Tracker} {o : Op} (h : o.Admissible s) : Kept s (final (o.run w s)) := by
  cases o with
  | setAccount addr r => exact kept_setAccount fun p hp => by subst hp; exact h
  | acctNew n b c =>
    have : Keeps Kept (Op.run w (.acctNew n b c)) := by
      unfold Op.run StatelessGuest.acctNew
      infer_instance
    exact this.rel s
  | _ => unfold Op.run; exact Keeps.rel s

/-! ## Runs of a transaction scope -/

/-- The tracker with its live snapshots, the latest first: each handle with the state the
snapshot was taken in. -/
structure Scope where
  state : Tracker
  live : List (Nat × Tracker)

/-- One step of a scope. Restoring a snapshot drops those taken after it. -/
inductive Scope.Step : Scope → Scope → Prop where
  | op {c : Scope} (o : Op) (h : o.Admissible c.state) :
      Step c { c with state := final (o.run w c.state) }
  | snapshot {c : Scope} {handle : Nat} {s : Tracker} (h : stateSnapshot c.state = .ok handle s) :
      Step c ⟨s, (handle, c.state) :: c.live⟩
  | commit {c : Scope} {e : Nat × Tracker} {rest : List (Nat × Tracker)} (h : c.live = e :: rest) :
      Step c { c with live := rest }
  | restore {c : Scope} {later rest : List (Nat × Tracker)} {e : Nat × Tracker}
      (h : c.live = later ++ e :: rest) :
      Step c ⟨final (stateRestore e.1 c.state), e :: rest⟩

/-- The scope a fresh transaction state opens. -/
def Scope.fresh (s : Tracker) : Scope := ⟨final (stateFreshTx s), []⟩

/-- The invariant of a scope. -/
structure Scope.Inv (c : Scope) : Prop where
  wf : Wf c.state
  ext : ∀ e ∈ c.live, Ext e.2 c.state ∧ Wf e.2 ∧ e.1 = e.2.journal.length
  nested : c.live.Pairwise fun later earlier => earlier.1 ≤ later.1

omit [Keccak] in
theorem wf_fresh (s : Tracker) : Wf (final (stateFreshTx s)) := by
  refine ⟨fun t ht k v hv => ?_, fun a b p ha _ => nomatch ha⟩
  cases t with
  | inner p =>
    obtain ⟨addr, haddr⟩ := ht
    exact nomatch haddr
  | _ => exact nomatch hv

omit [Keccak] in
theorem Scope.inv_fresh (s : Tracker) : (Scope.fresh s).Inv where
  wf := wf_fresh s
  ext := fun _ he => nomatch he
  nested := .nil

variable {w}

theorem Scope.Inv.step {c c' : Scope} (hi : c.Inv) (h : Step w c c') : c'.Inv := by
  cases h with
  | op o hadm =>
    have hk := Op.kept w hadm
    refine ⟨hk.2 hi.wf, fun e he => ?_, hi.nested⟩
    obtain ⟨hx, hwf, hlen⟩ := hi.ext e he
    exact ⟨hx.trans hk.1, hwf, hlen⟩
  | @snapshot handle s hrun =>
    cases hrun
    refine ⟨hi.wf, fun e he => ?_, List.pairwise_cons.mpr ⟨fun e he => ?_, hi.nested⟩⟩
    · rcases List.mem_cons.mp he with rfl | hmem
      · exact ⟨.refl _, hi.wf, rfl⟩
      · exact hi.ext e hmem
    · obtain ⟨hx, _, hlen⟩ := hi.ext e he
      obtain ⟨js, hj, _⟩ := hx.journal
      rw [hlen, hj, List.length_append]
      exact Nat.le_add_left _ _
  | commit hl =>
    have hn := hi.nested
    rw [hl] at hn
    exact ⟨hi.wf, fun e he => hi.ext e (hl ▸ List.mem_cons_of_mem _ he),
      (List.pairwise_cons.mp hn).2⟩
  | @restore later rest e hl =>
    obtain ⟨hx, hwf, hlen⟩ := hi.ext e (by rw [hl]; simp)
    have hn := hi.nested
    rw [hl] at hn
    have hn' : (e :: rest).Pairwise fun later earlier => earlier.1 ≤ later.1 :=
      (List.pairwise_append.mp hn).2.1
    change Inv ⟨c.state.restore e.1, e :: rest⟩
    refine ⟨hlen ▸ hwf.restored hx, fun e' he' => ?_, hn'⟩
    obtain ⟨hx', hwf', hlen'⟩ := hi.ext e' (by rw [hl]; exact List.mem_append_right _ he')
    refine ⟨hx'.restore ?_, hwf', hlen'⟩
    rcases List.mem_cons.mp he' with rfl | hmem
    · exact hlen'.ge
    · exact hlen' ▸ (List.pairwise_cons.mp hn').1 e' hmem

theorem Scope.inv_run {s : Tracker} {c : Scope}
    (h : Relation.ReflTransGen (Step w) (Scope.fresh s) c) : c.Inv := by
  induction h with
  | refl => exact Scope.inv_fresh s
  | tail _ hstep ih => exact ih.step hstep

/-! ## The theorem -/

/-- In every run of a scope, restoring a live snapshot gives the write maps their values from
when it was taken, and neither drops nor adds a read or a created account. -/
theorem restore_exact {s : Tracker} {c : Scope}
    (hrun : Relation.ReflTransGen (Scope.Step w) (Scope.fresh s) c) {handle : Nat} {taken : Tracker}
    (hlive : (handle, taken) ∈ c.live) :
    (final (stateRestore handle c.state)).writeMaps = taken.writeMaps ∧
      (final (stateRestore handle c.state)).readSets = c.state.readSets ∧
      ReadsGrow taken (final (stateRestore handle c.state)) := by
  obtain ⟨hx, hwf, hlen⟩ := (Scope.inv_run hrun).ext _ hlive
  dsimp only at hx hwf hlen
  subst hlen
  have hr : Ext taken (c.state.restore taken.journal.length) := hx.restore le_rfl
  obtain ⟨-, -, -, -, -, hsets⟩ := restore_frame c.state taken.journal.length
  exact ⟨writeMaps_congr hwf hr hx.restored.1, hsets, hr.reads⟩

end

/-! ## A run with a nested failure -/

section

attribute [local instance] numKeccak

private def run (o : Op) (s : Tracker) : Tracker := final (o.run emptyWitness s)

/-- Account 1 has received 100. -/
private def funded : Tracker := run (.createEther 1 100) (final (stateFreshTx default))

/-- Below a snapshot, account 1 writes a slot, pays account 2 and is destroyed. -/
private def failed : Tracker :=
  run (.destroyAccount 1) (run (.moveEther 1 2 40) (run (.setStorage 1 7 9) funded))

theorem restore_exact_nested :
    (final (stateRestore funded.journal.length failed)).writeMaps = funded.writeMaps ∧
      (final (stateRestore funded.journal.length failed)).readSets = failed.readSets ∧
      ReadsGrow funded (final (stateRestore funded.journal.length failed)) := by
  have h₀ : Relation.ReflTransGen (Scope.Step emptyWitness) (Scope.fresh default)
      ⟨funded, [(funded.journal.length, funded)]⟩ :=
    .tail (.tail .refl (.op (.createEther 1 100) trivial)) (.snapshot rfl)
  have h₁ := ((h₀.tail (.op (.setStorage 1 7 9) trivial)).tail
    (.op (.moveEther 1 2 40) trivial)).tail (.op (.destroyAccount 1) trivial)
  exact restore_exact h₁ (List.mem_singleton_self _)

end

end StatelessGuest
