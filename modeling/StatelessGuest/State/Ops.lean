import StatelessGuest.State.Reads

/-!
# Every tracker operation keeps the relation

`Kept s s'` is `Ext` together with the invariant of the transaction's tables: every pointer
bound in a write map, or in a slot table the storage map holds, points to an allocated
record, and no two addresses share a slot table. The operations keep it whether they return
or throw.

* `jset_run`, `jdel_run`: the two journaled writes as one state change.
* `commitCopy_eq`: a copy that is changed before it is committed is an allocation of the
  changed record, so no record a table may point to is ever written.
-/

namespace StatelessGuest

open Lib Tracker

/-! ## The invariant of the write maps -/

/-- A value of a table points to an allocated record. -/
def Tracker.ValidVal (s : Tracker) : (t : Tab) → t.Val → Prop
  | .acctWrites, r => ∀ p, r = some p → s.accts.Valid p
  | .storWrites, p => s.inners.Valid p
  | .inner _, p => s.words.Valid p
  | .codeWrites, p => s.slices.Valid p
  | .transient, p => s.words.Valid p

/-- A table that the transaction's write maps reach. -/
def Tracker.Live (s : Tracker) : Tab → Prop
  | .inner p => ∃ addr, s.lookup .storWrites addr = some p
  | .acctWrites | .storWrites | .codeWrites | .transient => True

/-- The invariant of the transaction's write maps. -/
structure Wf (s : Tracker) : Prop where
  vals : ∀ t, s.Live t → ∀ k v, s.lookup t k = some v → s.ValidVal t v
  inj : ∀ a b p, s.lookup .storWrites a = some p → s.lookup .storWrites b = some p → a = b

namespace Wf

variable {s s' : Tracker}

theorem has_of_live (h : Wf s) {t : Tab} (ht : s.Live t) : s.Has t := by
  cases t with
  | inner p =>
    obtain ⟨addr, haddr⟩ := ht
    exact h.vals .storWrites trivial addr p haddr
  | _ => trivial

theorem validVal_mono (ha : s.accts.next ≤ s'.accts.next) (hw : s.words.next ≤ s'.words.next)
    (hs : s.slices.next ≤ s'.slices.next) (hi : s.inners.next ≤ s'.inners.next) {t : Tab}
    {v : t.Val} (hv : s.ValidVal t v) : s'.ValidVal t v := by
  cases t with
  | acctWrites => exact fun p hp => Nat.lt_of_lt_of_le (hv p hp) ha
  | storWrites => exact Nat.lt_of_lt_of_le hv hi
  | inner _ => exact Nat.lt_of_lt_of_le hv hw
  | codeWrites => exact Nat.lt_of_lt_of_le hv hs
  | transient => exact Nat.lt_of_lt_of_le hv hw

theorem validVal_ext (h : Ext s s') {t : Tab} {v : t.Val} (hv : s.ValidVal t v) :
    s'.ValidVal t v :=
  validVal_mono h.accts.next_le h.words.next_le h.slices.next_le h.inners hv

/-- The invariant holds again once the tables have their bindings back. -/
theorem of_agree (h : Wf s) (hx : Ext s s') (hag : Agree s.Has s s') : Wf s' := by
  have hstor : ∀ a, s'.lookup .storWrites a = s.lookup .storWrites a :=
    fun a => ((hag .storWrites trivial).2.2 a).symm
  have hlive : ∀ {t}, s'.Live t → s.Live t := by
    intro t ht
    cases t with
    | inner p =>
      obtain ⟨addr, haddr⟩ := ht
      exact ⟨addr, hstor addr ▸ haddr⟩
    | _ => trivial
  refine ⟨fun t ht k v hv => ?_, fun a b p ha hb => ?_⟩
  · obtain ⟨_, _, hk⟩ := hag t (h.has_of_live (hlive ht))
    exact validVal_ext hx (h.vals t (hlive ht) k v (hk k ▸ hv))
  · exact h.inj a b p (hstor a ▸ ha) (hstor b ▸ hb)

/-- A restored state meets the invariant its snapshot met. -/
theorem restored (h : Wf s) (hx : Ext s s') : Wf (s'.restore s.journal.length) :=
  h.of_agree (hx.restore le_rfl) hx.restored.1

end Wf

/-- What an operation keeps. -/
def Kept (s s' : Tracker) : Prop := Ext s s' ∧ (Wf s → Wf s')

instance : Std.Refl Kept := ⟨fun s => ⟨.refl s, id⟩⟩

instance : IsTrans Tracker Kept := ⟨fun _ _ _ h h' => ⟨h.1.trans h'.1, h'.2 ∘ h.2⟩⟩

/-- A change that touches no journaled table. -/
theorem Kept.of_agree {s s' : Tracker} (hx : Ext s s') (hag : Agree s.Has s s') : Kept s s' :=
  ⟨hx, fun h => h.of_agree hx hag⟩

/-! ## Reads and allocations -/

/-- A change of the read sets. -/
theorem kept_reads {s s' : Tracker} (ha : s'.accts = s.accts) (hw : s'.words = s.words)
    (hs : s'.slices = s.slices) (hi : s'.inners = s.inners) (hr : ReadsGrow s s')
    (hb : s'.bs = { s.bs with preReads := s'.bs.preReads, ancOff := s'.bs.ancOff })
    (hj : s'.journal = s.journal) (ht : ∀ t, s'.table t = s.table t) : Kept s s' := by
  have hag : Agree s.Has s s' := fun t h =>
    ⟨h, has_congr (by rw [hi]) h, fun k => by rw [lookup, lookup, ht]⟩
  refine .of_agree (.of_agree ?_ ?_ ?_ ?_ hr hb hj hag) hag
  · rw [ha]; exact .refl _
  · rw [hw]; exact .refl _
  · rw [hs]; exact .refl _
  · rw [hi]

instance (addr : Address) : Keeps Kept (markAccountCreated addr) :=
  Keeps.modify fun _ => kept_reads rfl rfl rfl rfl
    ⟨fun _ h => h, fun _ h => h, fun _ h => h, sub_set _ _, fun _ h => h⟩ rfl rfl
    fun t => by cases t <;> rfl

/-- An allocation changes no table of the state before it. -/
theorem kept_alloc {s s' : Tracker} (ha : s.accts.Grows s'.accts) (hw : s.words.Grows s'.words)
    (hs : s.slices.Grows s'.slices) (hi : s.inners.Grows s'.inners) (hts : s'.ts = s.ts)
    (hbs : s'.bs = s.bs) (hj : s'.journal = s.journal) : Kept s s' := by
  have hag : Agree s.Has s s' := by
    intro t ht
    refine ⟨ht, has_congr hi.next_le ht, fun k => ?_⟩
    rw [lookup, lookup]
    cases t with
    | inner p => exact congrArg (fun m => OrdMap.get m k) (hi.load ht).symm
    | _ => simp only [table, hts]
  refine .of_agree (.of_agree ha hw hs hi.next_le (.of_eq ?_) ?_ hj hag) hag
  · rw [readSets, readSets, hts, hbs]
  · rw [hbs]

theorem kept_acctAlloc (s : Tracker) (a : Acct) : Kept s { s with accts := s.accts.alloc a } :=
  kept_alloc (Arena.grows_alloc _ _) (.refl _) (.refl _) (.refl _) rfl rfl rfl

theorem kept_wordAlloc (s : Tracker) (v : U256) : Kept s { s with words := s.words.alloc v } :=
  kept_alloc (.refl _) (Arena.grows_alloc _ _) (.refl _) (.refl _) rfl rfl rfl

theorem kept_sliceAlloc (s : Tracker) (c : Bytes) : Kept s { s with slices := s.slices.alloc c } :=
  kept_alloc (.refl _) (.refl _) (Arena.grows_alloc _ _) (.refl _) rfl rfl rfl

theorem kept_innerNew (s : Tracker) : Kept s { s with inners := s.inners.alloc .empty } :=
  kept_alloc (.refl _) (.refl _) (.refl _) (Arena.grows_alloc _ _) rfl rfl rfl

theorem ReadOnly.agree {s s' : Tracker} (h : ReadOnly s s') : Agree s.Has s s' := fun t ht =>
  ⟨ht, has_congr (by rw [h.inners]) ht, fun k => by rw [lookup, lookup, h.table]⟩

theorem ReadOnly.ext {s s' : Tracker} (h : ReadOnly s s') : Ext s s' := by
  refine .of_agree h.accts ?_ ?_ ?_ h.reads h.bs h.journal h.agree
  · rw [h.words]
    exact .refl _
  · rw [h.slices]
    exact .refl _
  · rw [h.inners]

instance : Reading Kept where
  read h := kept_reads h.accts h.words h.slices h.inners h.reads h.bs h.journal h.table
  alloc := kept_acctAlloc

instance (v : U256) : Keeps Kept (wordAlloc v) := ⟨fun s => kept_wordAlloc s v⟩

instance (c : Bytes) : Keeps Kept (sliceAlloc c) := ⟨fun s => kept_sliceAlloc s c⟩

instance : Keeps Kept innerNew := ⟨kept_innerNew⟩

/-! ## Journaled writes -/

/-- The state after a journaled write. -/
def Tracker.push (s : Tracker) (t : Tab) (key : t.Key) (m : OrdMap t.Key t.Val) : Tracker :=
  { s.setTable t m with journal := ⟨t, key, s.lookup t key⟩ :: s.journal }

theorem jset_run (t : Tab) (key : t.Key) (value : t.Val) (s : Tracker) :
    jset t key value s =
      if journalCap ≤ s.journal.length then .error (.trap 4) s
      else .ok () (s.push t key ((s.table t).set key value)) := by
  by_cases h : journalCap ≤ s.journal.length
  · rw [if_pos h]
    simp only [jset, journalPush, bind_run, get_run, h, if_true, throw_run]
  · rw [if_neg h]
    simp only [jset, journalPush, bind_run, get_run, h, if_false, set_run, modify_run]
    cases t <;> rfl

theorem jdel_run (t : Tab) (key : t.Key) (s : Tracker) :
    jdel t key s =
      if s.lookup t key = none then .ok () s
      else if journalCap ≤ s.journal.length then .error (.trap 5) s
      else .ok () (s.push t key ((s.table t).del key)) := by
  rw [jdel, bind_run, get_run, lookup]
  dsimp only
  cases hold : (s.table t).get key with
  | none => rfl
  | some old =>
    simp only [reduceCtorEq, if_false]
    by_cases h : journalCap ≤ s.journal.length
    · rw [if_pos h]
      simp only [journalPush, bind_run, get_run, h, if_true, throw_run]
    · rw [if_neg h]
      simp only [journalPush, bind_run, get_run, h, if_false, set_run, modify_run, push, lookup,
        hold]
      cases t <;> rfl

theorem lookup_push_of_ne {s : Tracker} {t t' : Tab} (h : t' ≠ t) (key : t.Key)
    (m : OrdMap t.Key t.Val) (k : t'.Key) : (s.push t key m).lookup t' k = s.lookup t' k := by
  rw [push, lookup_journal, lookup_setTable_of_ne h]

theorem lookup_push_self {s : Tracker} {t : Tab} (h : s.Has t) (key : t.Key)
    (m : OrdMap t.Key t.Val) (k : t.Key) : (s.push t key m).lookup t k = m.get k := by
  rw [push, lookup_journal, lookup, table_setTable_self h]

/-- A journaled write of one key is undone by its record. -/
theorem ext_push (s : Tracker) (t : Tab) (key : t.Key) (m : OrdMap t.Key t.Val)
    (hm : ∀ k, k ≠ key → m.get k = s.lookup t k) : Ext s (s.push t key m) := by
  refine ⟨?_, ?_, ?_, ?_, .of_eq ?_, ?_, [⟨t, key, s.lookup t key⟩], rfl, ?_⟩
  · exact (accts_setTable t m).symm ▸ .refl _
  · exact (words_setTable t m).symm ▸ .refl _
  · exact (slices_setTable t m).symm ▸ .refl _
  · exact (inners_next_setTable t m).ge
  · exact readSets_setTable t m
  · exact (bs_setTable t m).trans (by rw [push]; simp)
  · intro t' ht'
    have hpush : (s.push t key m).Has t' := has_congr (inners_next_setTable t m).ge ht'
    refine ⟨ht', has_undo hpush, fun k => ?_⟩
    change _ = ((s.push t key m).undo ⟨t, key, s.lookup t key⟩).lookup t' k
    by_cases h : t' = t
    · subst h
      rw [lookup_undo_self hpush]
      split
      · next hk => rw [hk]
      · next hk => rw [lookup_push_self ht', hm k hk]
    · rw [lookup_undo_of_ne h, lookup_push_of_ne h]

theorem validVal_push {s : Tracker} {t t' : Tab} {key : t.Key} {m : OrdMap t.Key t.Val}
    {v : t'.Val} (h : s.ValidVal t' v) : (s.push t key m).ValidVal t' v := by
  refine Wf.validVal_mono ?_ ?_ ?_ ?_ h
  · exact (congrArg Arena.next (accts_setTable t m)).ge
  · exact (congrArg Arena.next (words_setTable t m)).ge
  · exact (congrArg Arena.next (slices_setTable t m)).ge
  · exact (inners_next_setTable t m).ge

/-- A write outside the storage map keeps the invariant when the new bindings are valid. -/
theorem wf_push {s : Tracker} (h : Wf s) {t : Tab} (hs : t ≠ .storWrites) (ht : s.Has t)
    (key : t.Key) (m : OrdMap t.Key t.Val)
    (hm : s.Live t → ∀ k v, m.get k = some v → s.ValidVal t v) : Wf (s.push t key m) := by
  have hstor : ∀ a, (s.push t key m).lookup .storWrites a = s.lookup .storWrites a :=
    fun a => lookup_push_of_ne (Ne.symm hs) key m a
  have hlive : ∀ {t'}, (s.push t key m).Live t' → s.Live t' := by
    intro t' ht'
    cases t' with
    | inner p =>
      obtain ⟨addr, haddr⟩ := ht'
      exact ⟨addr, hstor addr ▸ haddr⟩
    | _ => trivial
  refine ⟨fun t' ht' k v hv => validVal_push ?_, fun a b p ha hb => ?_⟩
  · by_cases heq : t' = t
    · subst heq
      rw [lookup_push_self ht] at hv
      exact hm (hlive ht') k v hv
    · rw [lookup_push_of_ne heq] at hv
      exact h.vals t' (hlive ht') k v hv
  · exact h.inj a b p (hstor a ▸ ha) (hstor b ▸ hb)

/-- Binding an address of the storage map to a table no address has yet. -/
theorem wf_push_storWrites {s : Tracker} (h : Wf s) (addr : Address) {p : Nat}
    (hp : s.inners.Valid p) (hfresh : ∀ a, s.lookup .storWrites a ≠ some p)
    (hvals : ∀ k v, (s.inners.load p).get k = some v → s.words.Valid v) :
    Wf (s.push .storWrites addr ((s.table .storWrites).set addr p)) := by
  have hstor : ∀ a, (s.push .storWrites addr ((s.table .storWrites).set addr p)).lookup
      .storWrites a = if a = addr then some p else s.lookup .storWrites a := by
    intro a
    rw [lookup_push_self (show s.Has .storWrites from trivial)]
    exact OrdMap.get_set _ _ _ _
  refine ⟨fun t ht k v hv => validVal_push ?_, fun a b q ha hb => ?_⟩
  · cases t with
    | storWrites =>
      rw [hstor] at hv
      split at hv
      · cases hv; exact hp
      · exact h.vals .storWrites trivial k v hv
    | inner q =>
      obtain ⟨a, ha⟩ := ht
      rw [hstor] at ha
      rw [lookup_push_of_ne (by simp)] at hv
      split at ha
      · cases ha; exact hvals k v hv
      · exact h.vals (.inner q) ⟨a, ha⟩ k v hv
    | acctWrites =>
      rw [lookup_push_of_ne (by simp)] at hv
      exact h.vals .acctWrites trivial k v hv
    | codeWrites =>
      rw [lookup_push_of_ne (by simp)] at hv
      exact h.vals .codeWrites trivial k v hv
    | transient =>
      rw [lookup_push_of_ne (by simp)] at hv
      exact h.vals .transient trivial k v hv
  · rw [hstor] at ha hb
    split at ha <;> split at hb
    · next h1 h2 => rw [h1, h2]
    · cases ha; exact absurd hb (hfresh b)
    · cases hb; exact absurd ha (hfresh a)
    · exact h.inj a b q ha hb

/-- Dropping an address's table. -/
theorem wf_push_storWrites_del {s : Tracker} (h : Wf s) (addr : Address) :
    Wf (s.push .storWrites addr ((s.table .storWrites).del addr)) := by
  have hstor : ∀ a q, (s.push .storWrites addr ((s.table .storWrites).del addr)).lookup
      .storWrites a = some q → s.lookup .storWrites a = some q := by
    intro a q ha
    rw [lookup_push_self (show s.Has .storWrites from trivial)] at ha
    have := ha.symm.trans (OrdMap.get_del _ _ _)
    split at this
    · cases this
    · exact this.symm
  refine ⟨fun t ht k v hv => validVal_push ?_, fun a b q ha hb =>
    h.inj a b q (hstor a q ha) (hstor b q hb)⟩
  cases t with
  | storWrites => exact h.vals .storWrites trivial k v (hstor k v hv)
  | inner q =>
    obtain ⟨a, ha⟩ := ht
    rw [lookup_push_of_ne (by simp)] at hv
    exact h.vals (.inner q) ⟨a, hstor a q ha⟩ k v hv
  | acctWrites =>
    rw [lookup_push_of_ne (by simp)] at hv
    exact h.vals .acctWrites trivial k v hv
  | codeWrites =>
    rw [lookup_push_of_ne (by simp)] at hv
    exact h.vals .codeWrites trivial k v hv
  | transient =>
    rw [lookup_push_of_ne (by simp)] at hv
    exact h.vals .transient trivial k v hv

theorem final_jset {s : Tracker} {t : Tab} {key : t.Key} {value : t.Val}
    (h : Kept s (s.push t key ((s.table t).set key value))) : Kept s (final (jset t key value s)) := by
  rw [jset_run]
  split
  · exact refl_of Kept s
  · exact h

theorem ext_push_set (s : Tracker) (t : Tab) (key : t.Key) (value : t.Val) :
    Ext s (s.push t key ((s.table t).set key value)) :=
  ext_push s t key _ fun _ hk => OrdMap.get_set_of_ne hk

/-- A journaled write outside the storage map of a valid pointer. -/
theorem kept_jset {s : Tracker} {t : Tab} {key : t.Key} {value : t.Val} (hs : t ≠ .storWrites)
    (ht : s.Has t) (hv : s.ValidVal t value) : Kept s (final (jset t key value s)) := by
  refine final_jset ⟨ext_push_set s t key value, fun h => wf_push h hs ht key _ ?_⟩
  intro hlive k v hk
  rw [OrdMap.get_set] at hk
  split at hk
  · cases hk; exact hv
  · exact h.vals t hlive k v hk

/-- Deleting a binding outside the storage map. -/
theorem kept_jdel (s : Tracker) {t : Tab} {key : t.Key} 
    (hwf : Wf s → Wf (s.push t key ((s.table t).del key))) : Kept s (final (jdel t key s)) := by
  rw [jdel_run]
  split
  · exact refl_of Kept s
  split
  · exact refl_of Kept s
  · refine ⟨ext_push s t key _ fun k hk => ?_, hwf⟩
    rw [OrdMap.get_del, if_neg hk, lookup]

instance (addr : Address) : Keeps Kept (jdel .storWrites addr) :=
  ⟨fun s => kept_jdel s fun h => wf_push_storWrites_del h addr⟩

instance (k : Address × Hash) : Keeps Kept (jdel .transient k) := by
  refine ⟨fun s => kept_jdel s fun h => ?_⟩
  refine wf_push h (by simp) (show s.Has .transient from trivial) _ _ fun hlive k' v hk => ?_
  rw [OrdMap.get_del] at hk
  split at hk
  · cases hk
  · exact h.vals .transient hlive k' v hk

section

variable [Keccak] (w : Witness)

/-! ## Writes -/

omit [Keccak] in
theorem kept_setAccount {s : Tracker} {addr : Address} {r : AcctRef}
    (hr : ∀ p, r = some p → s.accts.Valid p) : Kept s (final (setAccount addr r s)) :=
  kept_jset (by simp) trivial hr

instance (addr : Address) : Keeps Kept (setAccount addr none) :=
  ⟨fun _ => kept_setAccount fun _ hp => nomatch hp⟩

instance (addr : Address) : Keeps Kept (destroyStorage addr) := by
  unfold destroyStorage
  refine Keeps.seq inferInstance fun s => ?_
  split
  · infer_instance
  · have (keys : List Hash) : Keeps Kept (forM keys fun key => recordStorageRead addr key) :=
      Keeps.forM _ _ inferInstance
    infer_instance

instance (addr : Address) : Keeps Kept (destroyAccount addr) := by
  unfold destroyAccount
  infer_instance

theorem kept_modifyStateCommit {s : Tracker} {addr : Address} {p : Nat} (hp : s.accts.Valid p) :
    Kept s (final (modifyStateCommit addr p s)) := by
  have hset : Kept s (final (setAccount addr (some p) s)) :=
    kept_setAccount fun q hq => by cases hq; exact hp
  unfold modifyStateCommit
  rw [bind_run]
  cases hrun : setAccount addr (some p) s with
  | error e s' => rwa [hrun] at hset
  | ok u s' =>
    rw [hrun] at hset
    have hrest : Keeps Kept (ldAcct p >>= fun a =>
        if acctIsEmpty a then destroyAccount addr else pure ()) := inferInstance
    exact trans_of Kept hset (hrest.rel s')

/-- A copy changed before it is committed is an allocation of the changed record. -/
theorem commitCopy_eq (addr : Address) (p : Nat) (f : Acct → Acct) :
    commitCopy addr p f =
      ldAcct p >>= fun a => acctAlloc (f a) >>= fun q => modifyStateCommit addr q := by
  funext s
  simp only [commitCopy, acctCopy, acctAlloc, ldAcct, stAcct, bind_run, get_run, pure_run, set_run,
    modify_run, Arena.load_alloc_self, Arena.alloc_store]

instance (addr : Address) (p : Nat) (f : Acct → Acct) : Keeps Kept (commitCopy addr p f) := by
  refine ⟨fun s => ?_⟩
  rw [commitCopy_eq]
  change Kept s (final (modifyStateCommit addr s.accts.next
    { s with accts := s.accts.alloc (f (s.accts.load p)) }))
  exact trans_of Kept (kept_acctAlloc s _) (kept_modifyStateCommit (Arena.valid_alloc_self _ _))

instance (addr : Address) : Keeps Kept (clearAccountPreservingBalance w addr) := by
  unfold clearAccountPreservingBalance
  infer_instance

omit [Keccak] in
/-- The slot table of an address is allocated, and in the storage map afterwards. -/
theorem storInner_spec (addr : Address) (s : Tracker) :
    Kept s (final (storInner addr s)) ∧
      ∀ p s', storInner addr s = .ok p s' → s'.lookup .storWrites addr = some p ∧
        (Wf s → s'.Has (.inner p)) := by
  rw [storInner, bind_run, get_run]
  dsimp only
  cases hold : s.ts.storWrites.get addr with
  | some m =>
    refine ⟨refl_of Kept s, fun p s' h => ?_⟩
    cases h
    exact ⟨hold, fun hwf => hwf.has_of_live ⟨addr, hold⟩⟩
  | none =>
    set s₁ : Tracker := { s with inners := s.inners.alloc .empty } with hs₁
    have hhas : s₁.Has (.inner s.inners.next) := Arena.valid_alloc_self _ _
    have hkept₁ : Kept s s₁ := kept_innerNew s
    have hrun : (innerNew >>= fun inner => jset .storWrites addr inner >>= fun _ => pure inner) s =
        (jset .storWrites addr s.inners.next >>= fun _ => pure s.inners.next) s₁ := rfl
    have hpush : Wf s → Wf (s₁.push .storWrites addr
        ((s₁.table .storWrites).set addr s.inners.next)) := by
      intro hwf
      refine wf_push_storWrites (hkept₁.2 hwf) addr (Arena.valid_alloc_self _ _) ?_ ?_
      · intro a ha
        exact absurd (hwf.vals .storWrites trivial a _ ha) (Nat.lt_irrefl _)
      · intro k v hk
        rw [hs₁, Arena.load_alloc_self] at hk
        cases hk
    change Kept s (final ((innerNew >>= fun inner => jset .storWrites addr inner >>=
      fun _ => pure inner) s)) ∧ ∀ p s', (innerNew >>= fun inner => jset .storWrites addr inner >>=
      fun _ => pure inner) s = _ → _
    rw [hrun, bind_run, jset_run]
    by_cases hfull : journalCap ≤ s₁.journal.length
    · rw [if_pos hfull]
      exact ⟨hkept₁, fun p s' h => nomatch h⟩
    · rw [if_neg hfull]
      refine ⟨⟨hkept₁.1.trans (ext_push_set _ _ _ _), hpush⟩, fun p s' h => ?_⟩
      cases h
      refine ⟨?_, fun _ => has_congr (inners_next_setTable _ _).ge hhas⟩
      rw [lookup_push_self (show s₁.Has .storWrites from trivial)]
      exact OrdMap.get_set_self _ _ _

omit [Keccak] in
/-- The write of a slot, once the account is known to exist. -/
theorem kept_slotWrite (addr : Address) (key : Hash) (value : U256) (s : Tracker) :
    Kept s (final ((storInner addr >>= fun inner => wordAlloc value >>= fun v =>
      jset (.inner inner) key v) s)) := by
  obtain ⟨hkept, hspec⟩ := storInner_spec addr s
  rw [bind_run]
  cases hrun : storInner addr s with
  | error e s' => rwa [hrun] at hkept
  | ok p s' =>
    rw [hrun] at hkept
    obtain ⟨-, hhas⟩ := hspec p s' hrun
    have halloc := kept_wordAlloc s' value
    change Kept s (final (jset (.inner p) key s'.words.next
      { s' with words := s'.words.alloc value }))
    -- without the invariant only the undo part is asked for
    rw [jset_run]
    split
    · exact trans_of Kept hkept halloc
    refine ⟨(hkept.1.trans halloc.1).trans (ext_push_set _ _ _ _), fun hwf => ?_⟩
    have hwf₁ := halloc.2 (hkept.2 hwf)
    refine wf_push hwf₁ (by simp) (has_congr halloc.1.inners (hhas hwf)) _ _ fun hlive k v hk => ?_
    rw [OrdMap.get_set] at hk
    split at hk
    · cases hk
      exact Arena.valid_alloc_self _ _
    · exact hwf₁.vals (.inner p) hlive k v hk

instance (addr : Address) (key : Hash) (value : U256) :
    Keeps Kept (setStorage w addr key value) := by
  unfold setStorage
  refine Keeps.seq inferInstance fun r => ?_
  split
  · infer_instance
  · exact ⟨kept_slotWrite addr key value⟩

instance (addr : Address) (key : Hash) (value : U256) :
    Keeps Kept (setTransientStorage addr key value) := by
  unfold setTransientStorage
  split
  · infer_instance
  refine ⟨fun s => ?_⟩
  change Kept s (final (jset .transient (addr, key) s.words.next
    { s with words := s.words.alloc value }))
  refine trans_of Kept (kept_wordAlloc s value) (kept_jset (by simp) ?_ ?_)
  · trivial
  · exact Arena.valid_alloc_self _ _

instance (sender recipient : Address) (amount : U256) :
    Keeps Kept (moveEther w sender recipient amount) := by
  unfold moveEther
  infer_instance

instance (addr : Address) (amount : U256) : Keeps Kept (createEther w addr amount) := by
  unfold createEther
  infer_instance

instance (addr : Address) (amount : U256) : Keeps Kept (setAccountBalance w addr amount) := by
  unfold setAccountBalance
  infer_instance

instance (addr : Address) : Keeps Kept (incrementNonce w addr) := by
  unfold incrementNonce
  infer_instance

instance (h : Hash) (code : Bytes) : Keeps Kept (recordCode h code) := by
  refine ⟨fun s => ?_⟩
  change Kept s (final (jset .codeWrites h s.slices.next
    { s with slices := s.slices.alloc code }))
  refine trans_of Kept (kept_sliceAlloc s code) (kept_jset (by simp) ?_ ?_)
  · trivial
  · exact Arena.valid_alloc_self _ _

instance (addr : Address) (code : Bytes) : Keeps Kept (setCode w addr code) := by
  unfold setCode
  infer_instance

end

end StatelessGuest
