import StatelessGuest.State.View

/-!
# Relations that every write keeps

`Writing w R` says that `R` allows what the reads do and what each of the writes does. The
programs of the interpreter change the state through these, so they keep every such relation.

* `Layered`: the writes keep `Sound`, and they leave the slot tables of the block alone.
-/

namespace StatelessGuest

open Lib Tracker

/-- The writes of a transaction; an update reads an account and commits a changed copy. -/
inductive Write where
  | update (addr : Address) (f : Acct → Acct)
  | moveEther (sender recipient : Address) (amount : U256)
  | setStorage (addr : Address) (key : Hash) (value : U256)
  | destroyStorage (addr : Address)
  | setTransientStorage (addr : Address) (key : Hash) (value : U256)
  | recordCode (h : Hash) (code : Bytes)
  | markAccountCreated (addr : Address)

def Write.run [Keccak] (w : Witness) : Write → StateM Unit
  | .update addr f => getAccount w addr >>= fun a => commitCopy addr a f
  | .moveEther sender recipient amount => StatelessGuest.moveEther w sender recipient amount
  | .setStorage addr key value => StatelessGuest.setStorage w addr key value
  | .destroyStorage addr => StatelessGuest.destroyStorage addr
  | .setTransientStorage addr key value => StatelessGuest.setTransientStorage addr key value
  | .recordCode h code => StatelessGuest.recordCode h code
  | .markAccountCreated addr => StatelessGuest.markAccountCreated addr

/-- A relation that allows what the writes of a transaction do. -/
class Writing [Keccak] (w : Witness) (R : Tracker → Tracker → Prop) : Prop extends Reading R where
  write : ∀ x : Write, Keeps R (x.run w)

section

variable {R : Tracker → Tracker → Prop} [Keccak] {w : Witness} [Writing w R]

theorem keeps_update (addr : Address) (f : Acct → Acct) :
    Keeps R (getAccount w addr >>= fun a => commitCopy addr a f) :=
  Writing.write (.update addr f)

theorem keeps_createEther (addr : Address) (amount : U256) : Keeps R (createEther w addr amount) :=
  keeps_update addr _

theorem keeps_setAccountBalance (addr : Address) (amount : U256) :
    Keeps R (setAccountBalance w addr amount) := keeps_update addr _

theorem keeps_incrementNonce (addr : Address) : Keeps R (incrementNonce w addr) :=
  keeps_update addr _

theorem keeps_setCode (addr : Address) (code : Bytes) : Keeps R (setCode w addr code) := by
  have hrecord : Keeps R (recordCode (keccak256 code) code) := Writing.write (w := w) (.recordCode _ _)
  have hupdate : Keeps R (getAccount w addr >>= fun a => commitCopy addr a fun a =>
      { a with codeHash := keccak256 code }) := keeps_update addr _
  unfold setCode
  infer_instance

theorem keeps_clearAccountPreservingBalance (addr : Address) :
    Keeps R (clearAccountPreservingBalance w addr) := by
  have hdestroy : Keeps R (destroyStorage addr) := Writing.write (w := w) (.destroyStorage addr)
  have hupdate : Keeps R (getAccount w addr >>= fun a => commitCopy addr a fun a =>
      { a with nonce := 0, codeHash := emptyCodeHash }) := keeps_update addr _
  unfold clearAccountPreservingBalance
  exact Keeps.seq hdestroy fun _ => hupdate

end

instance [Keccak] (w : Witness) : Writing w Kept where
  write x := by cases x <;> unfold Write.run <;> infer_instance

/-! ## The block's tables -/

/-- An operation keeps the invariant and leaves the block's slot tables alone. -/
structure Layered (s s' : Tracker) : Prop where
  kept : Kept s s'
  sound : Sound s → Sound s'
  below : Sound s → ∀ addr m, s.bs.storWrites.get addr = some m →
    s'.inners.load m = s.inners.load m

variable {s s' : Tracker}

theorem Layered.trans {s'' : Tracker} (h : Layered s s') (h' : Layered s' s'') :
    Layered s s'' := by
  refine ⟨trans_of Kept h.kept h'.kept, h'.sound ∘ h.sound, fun hs addr m hm => ?_⟩
  have hm' : s'.bs.storWrites.get addr = some m := by rwa [h.kept.1.bs_storWrites]
  exact (h'.below (h.sound hs) addr m hm').trans (h.below hs addr m hm)

/-- A change that touches no journaled table. -/
theorem Layered.of_agree (hk : Kept s s') (hag : Agree s.Has s s')
    (hin : ∀ m, s.inners.Valid m → s'.inners.load m = s.inners.load m) : Layered s s' :=
  ⟨hk, fun h => h.of_agree hk.1 hag, fun h addr m hm => hin m (h.blockInners addr m hm)⟩

theorem layered_readStep (h : ReadStep s s') : Layered s s' := by
  refine .of_agree (Reading.read h) (fun t ht => ?_) fun m _ => by rw [h.inners]
  exact ⟨ht, has_congr (by rw [h.inners]) ht, fun k => by rw [lookup, lookup, h.table]⟩

/-- An allocation. -/
theorem layered_alloc (ha : s.accts.Grows s'.accts) (hw : s.words.Grows s'.words)
    (hs : s.slices.Grows s'.slices) (hi : s.inners.Grows s'.inners) (hts : s'.ts = s.ts)
    (hbs : s'.bs = s.bs) (hj : s'.journal = s.journal) : Layered s s' := by
  refine .of_agree (kept_alloc ha hw hs hi hts hbs hj) (fun t ht => ?_) fun m hm => hi.load hm
  refine ⟨ht, has_congr hi.next_le ht, fun k => ?_⟩
  rw [lookup, lookup]
  cases t with
  | inner p => exact congrArg (fun m => OrdMap.get m k) (hi.load ht).symm
  | _ => simp only [table, hts]

theorem layered_acctAlloc (s : Tracker) (a : Acct) :
    Layered s { s with accts := s.accts.alloc a } :=
  layered_alloc (Arena.grows_alloc _ _) (.refl _) (.refl _) (.refl _) rfl rfl rfl

theorem layered_wordAlloc (s : Tracker) (v : U256) :
    Layered s { s with words := s.words.alloc v } :=
  layered_alloc (.refl _) (Arena.grows_alloc _ _) (.refl _) (.refl _) rfl rfl rfl

theorem layered_sliceAlloc (s : Tracker) (c : Bytes) :
    Layered s { s with slices := s.slices.alloc c } :=
  layered_alloc (.refl _) (.refl _) (Arena.grows_alloc _ _) (.refl _) rfl rfl rfl

theorem layered_innerNew (s : Tracker) : Layered s { s with inners := s.inners.alloc .empty } :=
  layered_alloc (.refl _) (.refl _) (.refl _) (Arena.grows_alloc _ _) rfl rfl rfl

instance : Reading Layered where
  refl s := .of_agree (refl_of Kept s) (agree_refl s) fun _ _ => rfl
  trans _ _ _ := Layered.trans
  read := layered_readStep
  alloc := layered_acctAlloc

/-! ## The writes -/

/-- A journaled write to a table that is none of the block's, which puts none of the block's slot
tables in the transaction's storage. -/
theorem layered_push {s₁ : Tracker} {t : Tab} {key : t.Key} {m : OrdMap t.Key t.Val}
    (h₁ : Layered s s₁) (hk : Kept s (s₁.push t key m))
    (hout : Sound s → ∀ p, t = .inner p → ∀ b, s.bs.storWrites.get b ≠ some p)
    (hap : Sound s → ∀ a b p, (s₁.push t key m).lookup .storWrites a = some p →
      s.bs.storWrites.get b ≠ some p) : Layered s (s₁.push t key m) := by
  have hload : Sound s → ∀ addr p, s.bs.storWrites.get addr = some p →
      (s₁.push t key m).inners.load p = s.inners.load p := by
    intro hs addr p hp
    have hne : Tab.inner p ≠ t := fun h => hout hs p h.symm addr hp
    exact (table_setTable_of_ne hne m).trans (h₁.below hs addr p hp)
  refine ⟨hk, fun hs => ?_, hload⟩
  refine ⟨hk.2 hs.toWf, fun addr p hp => ?_, fun addr q hq => ?_, fun addr k p hp => ?_,
    fun c p hp => ?_, fun a b p ha => ?_, by rw [hk.1.bs_storWrites]; exact hs.blockInj⟩
  · rw [hk.1.bs_acctWrites] at hp
    exact hk.1.accts.valid (hs.blockAccts addr p hp)
  · rw [hk.1.bs_storWrites] at hq
    exact Nat.lt_of_lt_of_le (hs.blockInners addr q hq) hk.1.inners
  · refine hk.1.words.valid (hs.blockWords addr k p ?_)
    rw [hk.1.bs_storWrites] at hp
    unfold storLookup at hp ⊢
    split at hp
    · cases hp
    · next q hq =>
      rw [hload hs addr q hq] at hp
      simpa only [hq] using hp
  · rw [hk.1.bs_codeWrites] at hp
    exact hk.1.slices.valid (hs.blockCodes c p hp)
  · rw [hk.1.bs_storWrites]
    exact hap hs a b p ha

/-- A journaled write outside the storage maps. -/
theorem layered_push_of_ne {t : Tab} {key : t.Key} {m : OrdMap t.Key t.Val}
    (hk : Kept s (s.push t key m)) (hinner : ∀ p, t ≠ .inner p) (hne : t ≠ .storWrites) :
    Layered s (s.push t key m) := by
  refine layered_push (refl_of Layered s) hk (fun _ p hp => absurd hp (hinner p))
    fun hs a b p ha => ?_
  rw [lookup_push_of_ne (Ne.symm hne)] at ha
  exact hs.apart a b p ha

theorem layered_jset {t : Tab} {key : t.Key} {value : t.Val} (hne : t ≠ .storWrites)
    (hinner : ∀ p, t ≠ .inner p) (hv : s.ValidVal t value) :
    Layered s (final (jset t key value s)) := by
  have hhas : s.Has t := by
    cases t with
    | inner p => exact absurd rfl (hinner p)
    | _ => trivial
  have hkept : Kept s (final (jset t key value s)) := kept_jset hne hhas hv
  rw [jset_run] at hkept ⊢
  split at hkept
  · next hfull =>
    rw [if_pos hfull]
    exact refl_of Layered s
  · next hfull =>
    rw [if_neg hfull]
    exact layered_push_of_ne hkept hinner hne

/-- A journaled write to a slot table of the transaction. -/
theorem layered_jset_inner {addr : Address} {p v : Nat} {key : Hash} (hs : Sound s)
    (hp : s.ts.storWrites.get addr = some p) (hv : s.words.Valid v) :
    Layered s (final (jset (.inner p) key v s)) := by
  have hkept : Kept s (final (jset (.inner p) key v s)) :=
    kept_jset (by simp) (hs.storInner_valid addr p hp) hv
  rw [jset_run] at hkept ⊢
  split at hkept
  · next hfull =>
    rw [if_pos hfull]
    exact refl_of Layered s
  · next hfull =>
    rw [if_neg hfull]
    refine layered_push (refl_of Layered s) hkept (fun hs q hq b => ?_) fun hs a b q ha => ?_
    · cases hq
      exact hs.apart addr b p hp
    · rw [lookup_push_of_ne (by simp)] at ha
      exact hs.apart a b q ha

theorem layered_jdel_storWrites (s : Tracker) (addr : Address) :
    Layered s (final (jdel .storWrites addr s)) := by
  have hkept := Keeps.rel (R := Kept) (x := jdel .storWrites addr) s
  rw [jdel_run] at hkept ⊢
  split at hkept
  · next hnone =>
    rw [if_pos hnone]
    exact refl_of Layered s
  · next hsome =>
    rw [if_neg hsome]
    split at hkept
    · next hfull =>
      rw [if_pos hfull]
      exact refl_of Layered s
    · next hfull =>
      rw [if_neg hfull]
      refine layered_push (refl_of Layered s) hkept (fun _ p hp => nomatch hp) fun hs a b p ha => ?_
      rw [lookup_push_self (show s.Has .storWrites from trivial)] at ha
      have hdel := ha.symm.trans (OrdMap.get_del _ _ _)
      split at hdel
      · cases hdel
      · exact hs.apart a b p hdel.symm

theorem layered_jdel_transient (s : Tracker) (k : Address × Hash) :
    Layered s (final (jdel .transient k s)) := by
  have hkept := Keeps.rel (R := Kept) (x := jdel .transient k) s
  rw [jdel_run] at hkept ⊢
  split at hkept
  · next hnone =>
    rw [if_pos hnone]
    exact refl_of Layered s
  · next hsome =>
    rw [if_neg hsome]
    split at hkept
    · next hfull =>
      rw [if_pos hfull]
      exact refl_of Layered s
    · next hfull =>
      rw [if_neg hfull]
      exact layered_push_of_ne hkept (by simp) (by simp)

instance (addr : Address) : Keeps Layered (jdel .storWrites addr) :=
  ⟨fun s => layered_jdel_storWrites s addr⟩

instance (k : Address × Hash) : Keeps Layered (jdel .transient k) :=
  ⟨fun s => layered_jdel_transient s k⟩

theorem layered_setAccount {addr : Address} {r : AcctRef}
    (hr : ∀ p, r = some p → s.accts.Valid p) : Layered s (final (setAccount addr r s)) :=
  layered_jset (by simp) (by simp) hr

instance (addr : Address) : Keeps Layered (setAccount addr none) :=
  ⟨fun _ => layered_setAccount fun _ hp => nomatch hp⟩

instance (addr : Address) : Keeps Layered (markAccountCreated addr) :=
  Keeps.modify fun _ => .of_agree (kept_reads rfl rfl rfl rfl
    ⟨fun _ h => h, fun _ h => h, fun _ h => h, sub_set _ _, fun _ h => h⟩ rfl rfl
    fun t => by cases t <;> rfl)
    (fun t ht => ⟨by cases t <;> exact ht, by cases t <;> exact ht, fun k => by cases t <;> rfl⟩)
    fun _ _ => rfl

instance (addr : Address) : Keeps Layered (destroyStorage addr) := by
  unfold destroyStorage
  refine Keeps.seq inferInstance fun s => ?_
  split
  · infer_instance
  · have (keys : List Hash) : Keeps Layered (forM keys fun key => recordStorageRead addr key) :=
      Keeps.forM _ _ inferInstance
    infer_instance

instance (addr : Address) : Keeps Layered (destroyAccount addr) := by
  unfold destroyAccount
  infer_instance

theorem layered_modifyStateCommit {addr : Address} {p : Nat} [Keccak] (hp : s.accts.Valid p) :
    Layered s (final (modifyStateCommit addr p s)) := by
  have hset : Layered s (final (setAccount addr (some p) s)) :=
    layered_setAccount fun q hq => by cases hq; exact hp
  unfold modifyStateCommit
  rw [bind_run]
  cases hrun : setAccount addr (some p) s with
  | error e s' => rwa [hrun] at hset
  | ok u s' =>
    rw [hrun] at hset
    have hrest : Keeps Layered (ldAcct p >>= fun a =>
        if acctIsEmpty a then destroyAccount addr else pure ()) := inferInstance
    exact hset.trans (hrest.rel s')

instance [Keccak] (addr : Address) (p : Nat) (f : Acct → Acct) :
    Keeps Layered (commitCopy addr p f) := by
  refine ⟨fun s => ?_⟩
  rw [commitCopy_eq]
  change Layered s (final (modifyStateCommit addr s.accts.next
    { s with accts := s.accts.alloc (f (s.accts.load p)) }))
  exact (layered_acctAlloc s _).trans (layered_modifyStateCommit (Arena.valid_alloc_self _ _))

/-- The slot table of an address, a fresh one or the transaction's, is none of the block's. -/
theorem layered_storInner (addr : Address) (s : Tracker) :
    Layered s (final (storInner addr s)) ∧ ∀ p s', storInner addr s = .ok p s' →
      Sound s → ∀ b, s.bs.storWrites.get b ≠ some p := by
  have hkept := (storInner_spec addr s).1
  rw [storInner, bind_run, get_run] at hkept ⊢
  dsimp only at hkept ⊢
  cases hold : s.ts.storWrites.get addr with
  | some m =>
    refine ⟨refl_of Layered s, fun p s' h hs => ?_⟩
    cases h
    exact fun b => hs.apart addr b m hold
  | none =>
    have hnew := layered_innerNew s
    have hfresh : Sound s → ∀ b, s.bs.storWrites.get b ≠ some s.inners.next :=
      fun hs b hb => absurd (hs.blockInners b _ hb) (Nat.lt_irrefl _)
    rw [hold] at hkept
    change Kept s (final ((jset .storWrites addr s.inners.next >>= fun _ => pure s.inners.next)
      { s with inners := s.inners.alloc .empty })) at hkept
    change Layered s (final ((jset .storWrites addr s.inners.next >>= fun _ =>
      pure s.inners.next) { s with inners := s.inners.alloc .empty })) ∧ ∀ p s',
      (jset .storWrites addr s.inners.next >>= fun _ => pure s.inners.next)
        { s with inners := s.inners.alloc .empty } = .ok p s' → _
    rw [bind_run, jset_run] at hkept ⊢
    by_cases hfull : journalCap ≤ s.journal.length
    · rw [if_pos hfull]
      exact ⟨hnew, fun p s' h => by cases h⟩
    · rw [if_neg hfull] at hkept ⊢
      refine ⟨layered_push hnew hkept (fun _ p hp => by cases hp) fun hs a b p ha => ?_,
        fun p s' h hs => ?_⟩
      · rw [lookup_push_self (by trivial)] at ha
        have hset := ha.symm.trans (OrdMap.get_set _ _ _ _)
        split at hset
        · cases hset
          exact hfresh hs b
        · exact hs.apart a b p hset.symm
      · cases h
        exact hfresh hs

instance [Keccak] (w : Witness) (addr : Address) (key : Hash) (value : U256) :
    Keeps Layered (setStorage w addr key value) := by
  unfold setStorage
  refine Keeps.seq inferInstance fun r => ?_
  split
  · infer_instance
  refine ⟨fun s => ?_⟩
  have hkept := kept_slotWrite addr key value s
  obtain ⟨hlay, hout⟩ := layered_storInner addr s
  rw [bind_run] at hkept ⊢
  cases hrun : storInner addr s with
  | error e s' => rwa [hrun] at hlay
  | ok p s' =>
    rw [hrun] at hlay hkept
    have halloc := hlay.trans (layered_wordAlloc s' value)
    change Kept s (final (jset (.inner p) key s'.words.next
      { s' with words := s'.words.alloc value })) at hkept
    change Layered s (final (jset (.inner p) key s'.words.next
      { s' with words := s'.words.alloc value }))
    rw [jset_run] at hkept ⊢
    split
    · exact halloc
    · next hfull =>
      rw [if_neg hfull] at hkept
      refine layered_push halloc hkept (fun hs q hq b => ?_) fun hs a b q ha => ?_
      · cases hq
        exact hout p s' hrun hs b
      · rw [lookup_push_of_ne (by simp)] at ha
        have happ := (halloc.sound hs).apart a b q ha
        rwa [halloc.kept.1.bs_storWrites] at happ

instance (addr : Address) (key : Hash) (value : U256) :
    Keeps Layered (setTransientStorage addr key value) := by
  unfold setTransientStorage
  split
  · infer_instance
  refine ⟨fun s => ?_⟩
  change Layered s (final (jset .transient (addr, key) s.words.next
    { s with words := s.words.alloc value }))
  exact (layered_wordAlloc s value).trans (layered_jset (by simp) (by simp)
    (Arena.valid_alloc_self _ _))

instance (h : Hash) (code : Bytes) : Keeps Layered (recordCode h code) := by
  refine ⟨fun s => ?_⟩
  change Layered s (final (jset .codeWrites h s.slices.next
    { s with slices := s.slices.alloc code }))
  exact (layered_sliceAlloc s code).trans (layered_jset (by simp) (by simp)
    (Arena.valid_alloc_self _ _))

instance [Keccak] (w : Witness) (sender recipient : Address) (amount : U256) :
    Keeps Layered (moveEther w sender recipient amount) := by
  unfold moveEther
  infer_instance

instance [Keccak] (w : Witness) : Writing w Layered where
  write x := by cases x <;> unfold Write.run <;> infer_instance

end StatelessGuest
