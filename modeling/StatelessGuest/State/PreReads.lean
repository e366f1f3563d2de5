import StatelessGuest.State.Scopes

/-!
# Every account that is written was read

An account is written only after it has been read, and the first read of an account, which no
table answers, goes to the witness and records the address. So every address that a table of
accounts binds is among the recorded ones.

* `Touches`: an operation binds no other accounts than some.
* `Recorded`: the accounts that are bound are recorded.
* `reached_recorded`: they are in every state of a block.
-/

namespace StatelessGuest

open Lib Tracker

/-! ## The accounts an operation binds -/

/-- The transaction's account writes stay, those of the accounts in `A` apart. -/
def Touches (A : Address → Prop) (s s' : Tracker) : Prop :=
  ∀ a, ¬A a → s'.ts.acctWrites.get a = s.ts.acctWrites.get a

section

variable {A : Address → Prop} {s s' : Tracker}

theorem touches_of_eq (h : s'.ts.acctWrites = s.ts.acctWrites) : Touches A s s' := fun a _ => by rw [h]

instance : Reading (Touches A) where
  refl _ _ _ := rfl
  trans _ _ _ h h' a ha := (h' a ha).trans (h a ha)
  read h := touches_of_eq (h.table .acctWrites)
  alloc _ _ := touches_of_eq rfl

theorem touches_push {t : Tab} (ht : t ≠ .acctWrites) (key : t.Key) (m : OrdMap t.Key t.Val) :
    Touches A s (s.push t key m) := by
  intro a _
  have hne : Tab.acctWrites ≠ t := ht.symm
  exact lookup_push_of_ne hne key m a

theorem touches_jset {t : Tab} (ht : t ≠ .acctWrites) (key : t.Key) (value : t.Val) :
    Keeps (Touches A) (jset t key value) := by
  refine ⟨fun s => ?_⟩
  rw [jset_run]
  split
  · exact refl_of (Touches A) s
  · exact touches_push ht key _

theorem touches_jdel {t : Tab} (ht : t ≠ .acctWrites) (key : t.Key) :
    Keeps (Touches A) (jdel t key) := by
  refine ⟨fun s => ?_⟩
  rw [jdel_run]
  split
  · exact refl_of (Touches A) s
  split
  · exact refl_of (Touches A) s
  · exact touches_push ht key _

instance (v : U256) : Keeps (Touches A) (wordAlloc v) := ⟨fun _ => touches_of_eq rfl⟩

instance (c : Bytes) : Keeps (Touches A) (sliceAlloc c) := ⟨fun _ => touches_of_eq rfl⟩

instance : Keeps (Touches A) innerNew := ⟨fun _ => touches_of_eq rfl⟩

instance (addr : Address) : Keeps (Touches A) (markAccountCreated addr) :=
  Keeps.modify fun _ => touches_of_eq rfl

instance (addr : Address) : Keeps (Touches A) (storInner addr) := by
  have hset : ∀ p, Keeps (Touches A) (jset .storWrites addr p) := fun p =>
    touches_jset (by simp) addr p
  unfold storInner
  refine Keeps.seq inferInstance fun s => ?_
  split <;> infer_instance

instance [Keccak] (w : Witness) (addr : Address) (key : Hash) (value : U256) :
    Keeps (Touches A) (setStorage w addr key value) := by
  have hset : ∀ p v, Keeps (Touches A) (jset (.inner p) key v) := fun p v =>
    touches_jset (by simp) key v
  unfold setStorage
  refine Keeps.seq inferInstance fun r => ?_
  split <;> infer_instance

instance (addr : Address) : Keeps (Touches A) (destroyStorage addr) := by
  have hdel : Keeps (Touches A) (jdel .storWrites addr) :=
    touches_jdel (t := .storWrites) (by simp) addr
  unfold destroyStorage
  refine Keeps.seq inferInstance fun s => ?_
  split
  · infer_instance
  · have (keys : List Hash) : Keeps (Touches A) (forM keys fun key => recordStorageRead addr key) :=
      Keeps.forM _ _ inferInstance
    infer_instance

instance (addr : Address) (key : Hash) (value : U256) :
    Keeps (Touches A) (setTransientStorage addr key value) := by
  have hdel : Keeps (Touches A) (jdel .transient (addr, key)) := touches_jdel (by simp) _
  have hset : ∀ v, Keeps (Touches A) (jset .transient (addr, key) v) := fun v =>
    touches_jset (by simp) _ v
  unfold setTransientStorage
  infer_instance

instance (h : Hash) (code : Bytes) : Keeps (Touches A) (recordCode h code) := by
  have hset : ∀ p, Keeps (Touches A) (jset .codeWrites h p) := fun p => touches_jset (by simp) h p
  unfold recordCode
  infer_instance

theorem touches_setAccount {addr : Address} (ha : A addr) (r : AcctRef) :
    Keeps (Touches A) (setAccount addr r) := by
  refine ⟨fun s a hna => ?_⟩
  have hne : a ≠ addr := by
    rintro rfl
    exact hna ha
  rw [setAccount, jset_run]
  split
  · rfl
  · exact OrdMap.get_set_of_ne hne

/-- A commit binds its account. -/
theorem touches_commitCopy [Keccak] {addr : Address} (ha : A addr) (p : Nat) (f : Acct → Acct) :
    Keeps (Touches A) (commitCopy addr p f) := by
  have hset : ∀ r, Keeps (Touches A) (setAccount addr r) := touches_setAccount ha
  have hdestroy : Keeps (Touches A) (destroyAccount addr) := by
    unfold destroyAccount
    infer_instance
  rw [commitCopy_eq]
  unfold modifyStateCommit
  infer_instance

end

/-! ## The invariant -/

/-- Every account that is bound is recorded. -/
def Recorded (s : Tracker) : Prop :=
  ∀ a, s.ts.acctWrites.has a ∨ s.bs.acctWrites.has a → s.bs.preReads.has a

/-- An operation keeps the invariant. -/
structure Recording (s s' : Tracker) : Prop where
  kept : Kept s s'
  recorded : Recorded s → Recorded s'

section

variable {s s' : Tracker}

/-- Accounts that are recorded may be bound. -/
theorem Recording.of_touches {A : Address → Prop} (hk : Kept s s') (ht : Touches A s s')
    (hA : ∀ a, A a → Recorded s → s.bs.preReads.has a) : Recording s s' := by
  refine ⟨hk, fun hs a ha => hk.1.reads.preReads a ?_⟩
  by_cases hin : A a
  · exact hA a hin hs
  · rw [hk.1.bs_acctWrites, OrdMap.has, ht a hin] at ha
    exact hs a ha

theorem Recording.of_untouched (hk : Kept s s') (ht : Touches (fun _ => False) s s') :
    Recording s s' :=
  .of_touches hk ht fun _ h => h.elim

instance : Reading Recording where
  refl s := ⟨refl_of Kept s, id⟩
  trans _ _ _ h h' := ⟨trans_of Kept h.kept h'.kept, h'.recorded ∘ h.recorded⟩
  read h := .of_untouched (Reading.read h) (Reading.read h)
  alloc s a := .of_untouched (Reading.alloc s a) (Reading.alloc s a)

theorem recording_of_untouched {α : Type} (x : StateM α) [hk : Keeps Kept x]
    [ht : Keeps (Touches fun _ => False) x] : Keeps Recording x :=
  ⟨fun s => .of_untouched (hk.rel s) (ht.rel s)⟩

end

section

variable [Keccak] {w : Witness} {s s' : Tracker}

omit [Keccak] in
/-- An account that was read is recorded, unless a table binds it. -/
theorem getAccountOptional_recorded {addr : Address} {r : AcctRef} (hs : Recorded s)
    (h : getAccountOptional w addr s = .ok r s') : s'.bs.preReads.has addr := by
  rw [getAccountOptional, modifyTs, bind_run, modify_run] at h
  dsimp only at h
  rw [bind_run, get_run] at h
  dsimp only at h
  cases hts : s.ts.acctWrites.get addr with
  | some r' =>
    rw [hts] at h
    cases h
    exact hs addr (.inl (by rw [OrdMap.has, hts]; rfl))
  | none =>
    rw [hts] at h
    change getPreStateAccountOptional w addr
      { s with ts := { s.ts with acctReads := s.ts.acctReads.set addr () } } = _ at h
    rw [getPreStateAccountOptional, modifyTs, bind_run, modify_run] at h
    dsimp only at h
    rw [bind_run, get_run] at h
    dsimp only at h
    cases hbs : s.bs.acctWrites.get addr with
    | some r' =>
      rw [hbs] at h
      cases h
      exact hs addr (.inr (by rw [OrdMap.has, hbs]; rfl))
    | none =>
      rw [hbs] at h
      obtain ⟨_, s₁, hrecord, hread⟩ := bind_ok.mp h
      have hro : ReadOnly s₁ s' := Keeps.ok (x := wsGetAccountOptional w addr) inferInstance hread
      refine hro.reads.preReads addr ?_
      cases hrecord
      exact (OrdMap.has_set _ _ _ _).trans (by simp)

theorem getAccount_recorded {addr : Address} {p : Nat} (hs : Recorded s)
    (h : getAccount w addr s = .ok p s') : s'.bs.preReads.has addr := by
  obtain ⟨r, s₁, hget, h⟩ := bind_ok.mp h
  have hrec := getAccountOptional_recorded hs hget
  cases r with
  | some q =>
    cases h
    exact hrec
  | none =>
    have hro : ReadOnly s₁ s' := Keeps.ok (x := acctEmpty) inferInstance h
    exact hro.reads.preReads addr hrec

/-- What writes an account after reading it. -/
theorem Recording.write {addr : Address} {p : Nat} {s₁ s₂ : Tracker} (hs : Recorded s)
    (hget : getAccount w addr s = .ok p s₁) (hk : Kept s₁ s₂) (ht : Touches (· = addr) s₁ s₂) :
    Recording s s₂ := by
  have hread : Recording s s₁ := Keeps.ok (x := getAccount w addr) inferInstance hget
  refine trans_of Recording hread (.of_touches hk ht ?_)
  rintro a rfl -
  exact getAccount_recorded hs hget

theorem recording_update (addr : Address) (f : Acct → Acct) :
    Keeps Recording (getAccount w addr >>= fun a => commitCopy addr a f) := by
  refine ⟨fun s => ?_⟩
  have hread : Recording s (final (getAccount w addr s)) := Keeps.rel s
  rw [bind_run]
  cases hget : getAccount w addr s with
  | error e s₁ => rwa [hget] at hread
  | ok p s₁ =>
    have hkept : Kept s₁ (final (commitCopy addr p f s₁)) := Keeps.rel s₁
    have htouch : Keeps (Touches (· = addr)) (commitCopy addr p f) :=
      touches_commitCopy (A := (· = addr)) rfl p f
    refine ⟨trans_of Kept (hget ▸ hread).kept hkept, fun hs => ?_⟩
    exact (Recording.write hs hget hkept (htouch.rel s₁)).recorded hs

instance (sender recipient : Address) (amount : U256) :
    Keeps Recording (moveEther w sender recipient amount) := by
  refine ⟨fun s => ?_⟩
  have hread : Recording s (final (getAccount w sender s)) := Keeps.rel s
  unfold moveEther
  rw [bind_run]
  cases hget : getAccount w sender s with
  | error e s₁ => rwa [hget] at hread
  | ok p s₁ =>
    rw [hget, final_ok] at hread
    dsimp only
    rw [bind_run_ok (show ldAcct p s₁ = .ok (s₁.accts.load p) s₁ from rfl)]
    split
    · exact hread
    set f : Acct → Acct := fun a => { a with balance := a.balance - amount }
    have hkept : Kept s₁ (final (commitCopy sender p f s₁)) := Keeps.rel s₁
    have htouch : Keeps (Touches (· = sender)) (commitCopy sender p f) :=
      touches_commitCopy (A := (· = sender)) rfl p f
    have hcommit : Recording s (final (commitCopy sender p f s₁)) := by
      refine ⟨trans_of Kept hread.kept hkept, fun hs => ?_⟩
      exact (Recording.write hs hget hkept (htouch.rel s₁)).recorded hs
    rw [bind_run]
    cases hrun : commitCopy sender p f s₁ with
    | error e s₂ => rwa [hrun] at hcommit
    | ok u s₂ =>
      rw [hrun] at hcommit
      exact trans_of Recording hcommit ((recording_update recipient _).rel s₂)

instance : Writing w Recording where
  write x := by
    cases x with
    | update addr f => exact recording_update addr f
    | moveEther sender recipient amount => exact inferInstanceAs (Keeps Recording (moveEther w _ _ _))
    | setStorage addr key value => exact recording_of_untouched (setStorage w addr key value)
    | destroyStorage addr => exact recording_of_untouched (destroyStorage addr)
    | setTransientStorage addr key value =>
      exact recording_of_untouched (setTransientStorage addr key value)
    | recordCode h code => exact recording_of_untouched (recordCode h code)
    | markAccountCreated addr => exact recording_of_untouched (markAccountCreated addr)

end

/-! ## Blocks -/

section

variable [Keccak] {w : Witness}

theorem recording_acts {s s' : Tracker} (h : Acts w s s') : Recording s s' := by
  rcases h with ⟨x, rfl⟩ | h
  · exact (Writing.write (R := Recording) x).rel s
  · exact Reading.readOnly h

omit [Keccak] in
theorem recorded_merge {s : Tracker} (hsound : Sound s) (hs : Recorded s) :
    Recorded (final (mergeTxIntoBlock s)) := by
  obtain ⟨s', hrun, h⟩ := merge_ok hsound
  rw [hrun]
  have hbs := h.bs
  intro a ha
  change s'.ts.acctWrites.has a ∨ s'.bs.acctWrites.has a at ha
  change s'.bs.preReads.has a
  rw [h.ts, hbs] at ha
  rw [hbs]
  refine hs a ?_
  rcases ha with ha | ha
  · exact .inl ha
  · change ((htabUnionInto s.bs.acctWrites s.ts.acctWrites).get a).isSome at ha
    rw [get_htabUnionInto, Option.isSome_or, Bool.or_eq_true] at ha
    exact ha

/-- In every state of a block the accounts that the tables bind are recorded, those of the live
snapshots included. -/
theorem reached_recorded {c : Scope} (h : Reached w c) :
    Recorded c.state ∧ ∀ e ∈ c.live, Recorded e.2 := by
  induction h with
  | init =>
    refine ⟨fun a ha => ?_, fun e he => absurd he List.not_mem_nil⟩
    rcases ha with ha | ha <;> exact absurd ha Bool.false_ne_true
  | @move c c' hc hm ih =>
    obtain ⟨hnow, hlive⟩ := ih
    cases hm with
    | act ht => exact ⟨(recording_acts ht).recorded hnow, hlive⟩
    | snapshot =>
      refine ⟨hnow, fun e he => ?_⟩
      rcases List.mem_cons.mp he with rfl | he
      · exact hnow
      · exact hlive e he
    | commit hl => exact ⟨hnow, fun e he => hlive e (hl ▸ List.mem_cons_of_mem _ he)⟩
    | @restore e rest hl =>
      refine ⟨fun a ha => ?_, fun e' he' => hlive e' (hl ▸ he')⟩
      have hmem : e ∈ c.live := hl ▸ List.mem_cons_self
      obtain ⟨hx, -, hlen⟩ := (reached_sound hc).ext e hmem
      have hrestored : Ext e.2 (c.state.restore e.1) := hx.restore hlen.ge
      have hsame : (c.state.restore e.1).ts.acctWrites.get a = e.2.ts.acctWrites.get a := by
        rw [hlen]
        exact ((hx.restored.1 .acctWrites trivial).2.2 a).symm
      change (c.state.restore e.1).ts.acctWrites.has a ∨ (c.state.restore e.1).bs.acctWrites.has a at ha
      rw [hrestored.bs_acctWrites, OrdMap.has, hsame] at ha
      exact hrestored.reads.preReads a (hlive e hmem a ha)
  | @merge s hc ih =>
    exact ⟨recorded_merge (reached_sound hc).sound ih.1, fun e he => absurd he List.not_mem_nil⟩
  | @fresh s _ ih =>
    refine ⟨fun a ha => ih.1 a (.inr ?_), fun e he => absurd he List.not_mem_nil⟩
    exact ha.resolve_left fun h => absurd h Bool.false_ne_true
  | @forget s _ ih => exact ⟨ih.1, fun e he => absurd he List.not_mem_nil⟩

end

end StatelessGuest
