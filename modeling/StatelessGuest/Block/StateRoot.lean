import StatelessGuest.Rlp.Encode
import StatelessGuest.State.PreReads

/-!
# The state root after a block

The post-state root takes the storage root of a written account from the trie that its slots were
written to, and of an account without slot writes from a cache. The cache is the set of addresses
recorded by the reads of the witness; an address outside of it gets the empty root.

* `computeStateRoot`: the root, over any implementation of tries.
* `computeStateRoot_eq`: the empty root is never a stand-in, so the cache may be left out.
-/

namespace StatelessGuest

open Lib Tracker

/-- Tries whose values are byte strings; an empty value deletes its key. -/
structure Tries where
  Trie : Type
  fromWitness : Hash → Except Exn Trie
  set : Trie → Bytes → Bytes → Except Exn Trie
  root : Trie → Except Exn Hash

/-- The leaf of an account. -/
def encodeAccount (a : Acct) (root : Hash) : Bytes :=
  rlpEncodeList (rlpEncodeWord a.nonce.toNat ++ rlpPutU256 a.balance ++
    rlpEncodeBytes (beBytes 32 root.toNat) ++ rlpEncodeBytes (beBytes 32 a.codeHash.toNat))

section

variable [Keccak] (w : Witness) (T : Tries)

/-- The cached storage root of an address. -/
def cacheGetRoot (cache : OrdMap Address Unit) (addr : Address) : StateM Hash := do
  if cache.has addr then wsStorageRootOf w addr
  else return emptyTrieRoot

/-- Put the slots with a value into a storage trie, or delete those without one. -/
def setSlots (deleting : Bool) : List (Hash × Nat) → T.Trie → StateM T.Trie
  | [], trie => pure trie
  | (key, p) :: rest, trie => do
    let v ← ldWord p
    if decide (v = 0) = deleting then
      let trie ← liftExcept (T.set trie (beBytes 32 key.toNat) (if deleting then [] else rlpPutU256 v))
      setSlots deleting rest trie
    else setSlots deleting rest trie

/-- The roots of the storage tries that were written. -/
def storageTries : List (Address × Nat) → OrdMap Address Unit → OrdMap Address Hash →
    StateM (OrdMap Address Unit × OrdMap Address Hash)
  | [], cache, newRoots => pure (cache, newRoots)
  | (addr, inner) :: rest, cache, newRoots => do
    let cache := if cache.has addr then cache else cache.set addr ()
    let oldRoot ← wsStorageRootOf w addr
    let trie ← liftExcept (T.fromWitness oldRoot)
    let slots := ((← get).inners.load inner).entries
    let trie ← setSlots T false slots trie
    let trie ← setSlots T true slots trie
    let root ← liftExcept (T.root trie)
    storageTries rest cache (newRoots.set addr root)

/-- Accounts whose slots were written but not they themselves. -/
def storageTouched (aw : OrdMap Address AcctRef) (newRoots : OrdMap Address Hash) :
    List (Address × Nat) → OrdMap Address Unit → T.Trie → StateM (OrdMap Address Unit × T.Trie)
  | [], cache, trie => pure (cache, trie)
  | (addr, _) :: rest, cache, trie => do
    if aw.has addr then storageTouched aw newRoots rest cache trie
    else
      let a ← wsGetAccountOptional w addr
      let cache := cache.set addr ()
      match a with
      | none => storageTouched aw newRoots rest cache trie
      | some p => do
        let root := (newRoots.get addr).getD emptyTrieRoot
        let trie ← liftExcept (T.set trie (beBytes 20 addr.toNat) (encodeAccount (← ldAcct p) root))
        storageTouched aw newRoots rest cache trie

/-- The accounts that were written; `rootOf` is asked where no slot was. -/
def accountChanges (rootOf : Address → StateM Hash) (newRoots : OrdMap Address Hash) :
    List (Address × AcctRef) → T.Trie → StateM T.Trie
  | [], trie => pure trie
  | (addr, none) :: rest, trie => do
    let trie ← liftExcept (T.set trie (beBytes 20 addr.toNat) [])
    accountChanges rootOf newRoots rest trie
  | (addr, some p) :: rest, trie => do
    let root ← match newRoots.get addr with
      | some root => pure root
      | none => rootOf addr
    let trie ← liftExcept (T.set trie (beBytes 20 addr.toNat) (encodeAccount (← ldAcct p) root))
    accountChanges rootOf newRoots rest trie

/-- The root of the state trie; `rootOf` gets the cache. -/
def stateRootWith (rootOf : OrdMap Address Unit → Address → StateM Hash) (preRoot : Hash) :
    StateM Hash := do
  let s ← get
  let sw := s.bs.storWrites.entries
  let aw := s.bs.acctWrites
  let (cache, newRoots) ← storageTries w T sw s.bs.preReads .empty
  let stateTrie ← liftExcept (T.fromWitness preRoot)
  let (cache, stateTrie) ← storageTouched w T aw newRoots sw cache stateTrie
  let stateTrie ← accountChanges T (rootOf cache) newRoots aw.entries stateTrie
  liftExcept (T.root stateTrie)

/-- The post-state root; `preRoot` is the root the witness is for. -/
def computeStateRoot (preRoot : Hash) : StateM Hash := stateRootWith w T (cacheGetRoot w) preRoot

end

/-! ## The cache -/

section

variable [Keccak] {w : Witness} {T : Tries} {s s' : Tracker}

theorem storageTries_cache {es : List (Address × Nat)} {cache : OrdMap Address Unit}
    {newRoots : OrdMap Address Hash} {r : OrdMap Address Unit × OrdMap Address Hash}
    (h : storageTries w T es cache newRoots s = .ok r s') : Sub cache r.1 := by
  induction es generalizing cache newRoots s with
  | nil =>
    cases h
    exact fun _ ha => ha
  | cons e es ih =>
    obtain ⟨addr, inner⟩ := e
    obtain ⟨oldRoot, s₁, -, h⟩ := bind_ok.mp h
    obtain ⟨trie, s₂, -, h⟩ := bind_ok.mp h
    obtain ⟨st, s₃, -, h⟩ := bind_ok.mp h
    obtain ⟨trie', s₄, -, h⟩ := bind_ok.mp h
    obtain ⟨trie'', s₅, -, h⟩ := bind_ok.mp h
    obtain ⟨root, s₆, -, h⟩ := bind_ok.mp h
    intro a ha
    refine ih h a ?_
    split
    · exact ha
    · exact sub_set cache addr a ha

theorem storageTouched_cache {aw : OrdMap Address AcctRef} {newRoots : OrdMap Address Hash}
    {es : List (Address × Nat)} {cache : OrdMap Address Unit} {trie : T.Trie}
    {r : OrdMap Address Unit × T.Trie}
    (h : storageTouched w T aw newRoots es cache trie s = .ok r s') : Sub cache r.1 := by
  induction es generalizing cache trie s with
  | nil =>
    cases h
    exact fun _ ha => ha
  | cons e es ih =>
    obtain ⟨addr, inner⟩ := e
    unfold storageTouched at h
    split at h
    · exact ih h
    obtain ⟨a, s₁, -, h⟩ := bind_ok.mp h
    refine fun k hk => ?_
    have hset := sub_set cache addr k hk
    cases a with
    | none => exact ih h k hset
    | some p =>
      obtain ⟨acct, s₂, -, h⟩ := bind_ok.mp h
      obtain ⟨trie', s₃, -, h⟩ := bind_ok.mp h
      exact ih h k hset

omit [Keccak] in
/-- The accounts' leaves depend on the roots of the accounts alone. -/
theorem accountChanges_congr {rootOf rootOf' : Address → StateM Hash}
    {newRoots : OrdMap Address Hash} {es : List (Address × AcctRef)}
    (h : ∀ e ∈ es, rootOf e.1 = rootOf' e.1) (trie : T.Trie) :
    accountChanges T rootOf newRoots es trie = accountChanges T rootOf' newRoots es trie := by
  induction es generalizing trie with
  | nil => rfl
  | cons e es ih =>
    obtain ⟨addr, acct⟩ := e
    have hrest : accountChanges T rootOf newRoots es = accountChanges T rootOf' newRoots es :=
      funext (ih fun e he => h e (List.mem_cons_of_mem _ he))
    cases acct with
    | none => rw [accountChanges, accountChanges, hrest]
    | some p =>
      rw [accountChanges, accountChanges, hrest, show rootOf addr = rootOf' addr from
        h (addr, some p) List.mem_cons_self]

theorem cacheGetRoot_of_has {cache : OrdMap Address Unit} {addr : Address} (h : cache.has addr) :
    cacheGetRoot w cache addr = wsStorageRootOf w addr := by
  rw [cacheGetRoot, if_pos h]

/-- The empty root is never a stand-in for an account's storage root. -/
theorem computeStateRoot_eq (hs : Recorded s) (preRoot : Hash) :
    computeStateRoot w T preRoot s = stateRootWith w T (fun _ => wsStorageRootOf w) preRoot s := by
  unfold computeStateRoot stateRootWith
  rw [bind_run, bind_run, get_run]
  dsimp only
  rw [bind_run, bind_run]
  cases htries : storageTries w T s.bs.storWrites.entries s.bs.preReads .empty s with
  | error e s₁ => rfl
  | ok r s₁ =>
    obtain ⟨cache, newRoots⟩ := r
    dsimp only
    rw [bind_run, bind_run]
    cases hstate : liftExcept (T.fromWitness preRoot) s₁ with
    | error e s₂ => rfl
    | ok trie s₂ =>
      dsimp only
      rw [bind_run, bind_run]
      cases htouched : storageTouched w T s.bs.acctWrites newRoots s.bs.storWrites.entries cache
          trie s₂ with
      | error e s₃ => rfl
      | ok r s₃ =>
        obtain ⟨cache', trie'⟩ := r
        dsimp only
        rw [accountChanges_congr fun e he => ?_]
        refine cacheGetRoot_of_has (storageTouched_cache htouched _ (storageTries_cache htries _ ?_))
        refine hs e.1 (.inr (OrdMap.has_eq_true.mpr ?_))
        exact List.mem_map_of_mem he

/-- In every state of a block the accounts that the tables bind are recorded, so the cache has the
witness's storage root of every account that is written without its slots, and the post-state root
is the one without the cache. -/
theorem storage_roots_recorded (w : Witness) (T : Tries) {c : Scope} (h : Reached w c) :
    (∀ addr, c.state.ts.acctWrites.has addr ∨ c.state.bs.acctWrites.has addr →
      c.state.bs.preReads.has addr) ∧
    (∀ (cache : OrdMap Address Unit) addr s', Sub c.state.bs.preReads cache →
      c.state.bs.acctWrites.has addr → result (cacheGetRoot w cache addr s') =
        (w.account addr).map fun a => (a.map Acct.storageRoot).getD emptyTrieRoot) ∧
    ∀ preRoot, computeStateRoot w T preRoot c.state =
      stateRootWith w T (fun _ => wsStorageRootOf w) preRoot c.state := by
  have hs := (reached_recorded h).1
  refine ⟨hs, fun cache addr s' hsub hbound => ?_, fun preRoot => computeStateRoot_eq hs preRoot⟩
  rw [cacheGetRoot_of_has (hsub addr (hs addr (.inr hbound)))]
  exact result_wsStorageRootOf w addr s'

end

/-- A witness in which every account has the storage root 99. -/
def storedWitness : Witness :=
  { emptyWitness with
    account := fun _ => .ok (some ⟨1, 0, 99, 7⟩)
    account_fatal := fun _ _ h => by cases h }

section

attribute [local instance] numKeccak

/-- Tries that keep nothing. -/
abbrev emptyTries : Tries := ⟨Unit, fun _ => .ok (), fun _ _ _ => .ok (), fun _ => .ok 0⟩

/-- A payment to an account with storage, after which its root is still found. -/
theorem storage_roots_recorded_paid : ∃ s, s.bs.acctWrites.has 1 = true ∧
    result (cacheGetRoot storedWitness s.bs.preReads 1 s) = .ok 99 := by
  have hpay : Scope.Moves (Acts storedWitness) ⟨default, []⟩ ⟨_, []⟩ :=
    .act (.inl ⟨.update 1 fun a => { a with balance := a.balance + 5 }, rfl⟩)
  have h := storage_roots_recorded storedWitness emptyTries (.merge (.move .init hpay))
  exact ⟨_, rfl, h.2.1 _ 1 _ (fun _ ha => ha) rfl⟩

end

end StatelessGuest
