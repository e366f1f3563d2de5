import StatelessGuest.Block.WitnessReads
import StatelessGuest.Lib.Overlay

/-!
# The post-state

The post-state root is computed over the tries that the witness has nodes of. It is the root of
tries for the state after the block, in which the accounts and the slots that were written have the
values they have at the end of the block.

* `heapTries`: the tries of the program, decoded from the witness.
* `World.after`, `PreState.after`: the state after the block and its tries.
* `after_represents`: those tries have that state.
* `setSlots_halts`, `storageTries_halts`, `storageTouched_halts`, `accountChanges_halts`: the
  passes over the tables.
* `post_state_root`: the root that is computed.
-/

namespace StatelessGuest

open Lib Tracker Mpt

/-! ## The tries of the program -/

/-- Run a program on a heap. -/
def onHeap {α : Type} (x : MptM α) (a : Arena Node) : Except Exn (α × Arena Node) :=
  match x a with
  | .ok r b => .ok (r, b)
  | .error e _ => .error e

theorem onHeap_ok {α : Type} {x : MptM α} {a b : Arena Node} {r : α} (h : x a = .ok r b) :
    onHeap x a = .ok (r, b) := by
  rw [onHeap, h]

theorem onHeap_error {α : Type} {x : MptM α} {a b : Arena Node} {e : Exn} (h : x a = .error e b) :
    onHeap x a = .error e := by
  rw [onHeap, h]

section

variable [Keccak] [Stray]

/-- Tries whose keys are hashed, each with its heap. -/
abbrev heapTries (fuel : Nat) (db : NodeDb) : Tries where
  Trie := Handle × Arena Node
  fromWitness rootHash := onHeap (mptFromWitness fuel db rootHash true) .empty
  set t key val := onHeap (mptSet t.1 key val) t.2
  root t := (onHeap (mptRoot fuel t.1.root) t.2).map Prod.fst

end

section

variable {α : Type} {x : Nat → Except Exn α} {P : α → Tracker → Prop} {F : Exn → Tracker → Prop}
  {n : Nat} {s : Tracker}

theorem halts_lift_ok {r : α} (h : ∀ fuel, x (n + fuel) = .ok r) (hr : P r s) :
    Halts (fun fuel => liftExcept (x fuel)) s P F :=
  ⟨n, .ok r s, fun fuel => by
    dsimp only
    rw [h]
    rfl, hr⟩

theorem halts_lift_error {e : Exn} (h : ∀ fuel, x (n + fuel) = .error e) (he : F e s) :
    Halts (fun fuel => liftExcept (x fuel)) s P F :=
  ⟨n, .error e s, fun fuel => by
    dsimp only
    rw [h]
    rfl, he⟩

end

section

variable [Keccak] {entries : List Bytes} {db : NodeDb} {c : Prop} {t : Handle × Arena Node}
  {u : MptTrie} {M : Contents} {s : Tracker}

/-- A trie with its heap holds a map. -/
structure TrieHolds (c : Prop) (db : NodeDb) (t : Handle × Arena Node) (M : Contents) : Prop where
  secured : t.1.secured = true
  holds : Holds c db t.2 t.1 M

variable [Stray]

/-- The trie that is decoded for a root. -/
theorem fromWitness_halts (h : Committed entries u) (hc : c → Complete entries u) :
    Halts (fun fuel => liftExcept ((heapTries fuel (nodedbBuild entries)).fromWitness (rootOf u))) s
      (fun t s' => s' = s ∧ TrieHolds c (nodedbBuild entries) t u.value)
      (fun e _ => Lacks c e) := by
  rcases decode_holds h hc true .empty with ⟨n, r, b, hrun, -, hholds⟩ | ⟨hrun, hc⟩
  · have hfirst : ∀ fuel, (heapTries (n + fuel) (nodedbBuild entries)).fromWitness (rootOf u) =
        .ok (⟨r, true⟩, b) := fun fuel => by
      refine onHeap_ok ?_
      rw [mptFromWitness, bind_run_ok (hrun fuel)]
      rfl
    exact halts_lift_ok hfirst ⟨rfl, rfl, hholds⟩
  · have hfirst : ∀ fuel, (heapTries (0 + fuel) (nodedbBuild entries)).fromWitness (rootOf u) =
        .error (.mpt 1) := fun fuel => onHeap_error (bind_run_error (hrun _))
    exact halts_lift_error hfirst ⟨.inl rfl, hc⟩

/-- A value is set, or its path is missing. -/
theorem set_halts (h : TrieHolds c db t M) (hM : Small M) (key val : Bytes) :
    Halts (fun fuel => liftExcept ((heapTries fuel db).set t key val)) s
      (fun t' s' => s' = s ∧ TrieHolds c db t' (Function.update M (mptNibbleKey true key) val))
      (fun e _ => Lacks c e) := by
  obtain ⟨m, a⟩ := t
  obtain ⟨root, secured⟩ := m
  obtain ⟨hsec, ⟨S, hpart⟩, hwhole⟩ := h
  obtain rfl : secured = true := hsec
  have hset : ∀ {n : Nat} {r : Handle × Answer} {b : Arena Node},
      perform n ⟨root, true⟩ (.set key val) a = .ok r b →
      ∀ fuel, (heapTries (0 + fuel) db).set (⟨root, true⟩, a) key val = .ok (r.1, b) := by
    intro n r b hrun fuel
    obtain ⟨m', b', hm', hr⟩ := bind_ok.mp hrun
    cases hr
    exact onHeap_ok hm'
  obtain ⟨n, ⟨d, b, T, hrun, hpart', -, -⟩ | ⟨b, hrun⟩⟩ := perform_partly hpart hM (.set key val)
  · refine halts_lift_ok (hset (hrun 0)) ⟨rfl, rfl, ⟨T, hpart'⟩, fun hc => ?_⟩
    obtain ⟨S', hw⟩ := hwhole hc
    obtain ⟨n', d', b', T', hrun', hw', -, -⟩ := perform_run hw hM (.set key val)
    have hsame := (hset (hrun 0) 0).symm.trans (hset (hrun' 0) 0)
    cases hsame
    exact ⟨T', hw'⟩
  · have hfail : ∀ fuel, (heapTries (0 + fuel) db).set (⟨root, true⟩, a) key val =
        .error (.mpt 2) := by
      intro fuel
      rcases bind_error.mp (hrun 0) with hm | ⟨m', b', -, hr⟩
      · exact onHeap_error hm
      · cases hr
    refine halts_lift_error hfail ⟨.inr rfl, fun hc => ?_⟩
    obtain ⟨S', hw⟩ := hwhole hc
    obtain ⟨n', d', b', T', hrun', -, -, -⟩ := perform_run hw hM (.set key val)
    cases (hset (hrun' 0) 0).symm.trans (hfail 0)

/-- The root is that of the map. -/
theorem root_halts (h : TrieHolds c db t M) (hM : Small M) {F : Exn → Tracker → Prop} :
    Halts (fun fuel => liftExcept ((heapTries fuel db).root t)) s
      (fun r s' => s' = s ∧ r = rootOfMap M) F := by
  obtain ⟨S, t', u, hown, hp, hfull, hwf, rfl⟩ := h.holds.partly
  obtain ⟨n, b, hrun, -, -⟩ := mptRoot_run hown (fits_of_prunes hp (fits_of_small hfull hwf hM))
  have hroot : ∀ fuel, (heapTries (n + fuel) db).root t = .ok (rootOf t') := fun fuel => by
    dsimp only [heapTries]
    rw [onHeap_ok (hrun fuel)]
    rfl
  exact halts_lift_ok hroot ⟨rfl, (rootOf_of_prunes hp hfull).trans (rootOfMap_eq hfull hwf).symm⟩

end

/-! ## The state after the block -/

section

/-- The slots of an account that the block wrote. -/
def Tracker.slotKeys (s : Tracker) (addr : Address) : List Hash :=
  match s.bs.storWrites.get addr with
  | none => []
  | some m => (s.inners.load m).keys

/-- The accounts that the block wrote, or a slot of which. -/
def Tracker.written (s : Tracker) : List Address := s.bs.acctWrites.keys ++ s.bs.storWrites.keys

variable (world : World) (s : Tracker)

/-- An account at the end of the block. -/
def Tracker.accountAfter (addr : Address) : Option Acct :=
  match s.bs.acctWrites.get addr with
  | some r => r.map s.accts.load
  | none => world.account addr

/-- A slot at the end of the block. -/
def Tracker.slotAfter (addr : Address) (key : Hash) : U256 :=
  match s.storLookup s.bs.storWrites addr key with
  | some p => s.words.load p
  | none => world.slot addr key

variable [Keccak] (pre : PreState)

/-- What the storage trie of an account holds at the end of the block. -/
def storageAfter (addr : Address) : Contents :=
  overlay (s.slotKeys addr) slotPath (fun key => encodeSlot (s.slotAfter world addr key))
    (pre.storage addr).value

/-- The state after the block. A storage trie is of use only as long as there is its account. -/
noncomputable def World.after : World where
  account addr := (s.accountAfter world addr).map fun a =>
    { a with storageRoot := rootOfMap (storageAfter world s pre addr) }
  slot addr key := if (s.accountAfter world addr).isSome then s.slotAfter world addr key else 0

/-- The leaf of an account at the end of the block. -/
noncomputable def leafAfter (addr : Address) : Bytes := acctLeaf ((world.after s pre).account addr)

/-- What the trie of the accounts holds at the end of the block. -/
noncomputable def accountsAfter : Contents :=
  overlay s.written accountPath (leafAfter world s pre) pre.accounts.value

/-- The tries after the block. -/
noncomputable def PreState.after : PreState where
  accounts := trieOf (accountsAfter world s pre)
  storage addr := if (s.accountAfter world addr).isSome then trieOf (storageAfter world s pre addr)
    else .empty

/-- The witness has the nodes of the tries that the block writes to. -/
def PreState.Covered (entries : List Bytes) : Prop :=
  Mpt.Complete entries pre.accounts ∧
    ∀ addr ∈ s.bs.storWrites.keys, Mpt.Complete entries (pre.storage addr)

/-- The block writes only accounts and slots in question. -/
structure Keys.Cover (keys : Keys) : Prop where
  accounts : ∀ addr ∈ s.written, addr ∈ keys.addrs
  slots : ∀ addr, ∀ key ∈ s.slotKeys addr, key ∈ keys.slots

/-- The block starts in a state whose tries the witness is for, and what is read is that state. -/
structure Begins (entries : List Bytes) (w : Witness) (keys : Keys) : Prop where
  rooted : pre.Committed entries
  represents : pre.Represents keys world
  reads : ∀ addr a, w.account addr = .ok a → a = world.account addr

/-- A read of the witness failed, or a trie has a part that is missing. -/
def RootFails (entries : List Bytes) (w : Witness) (e : Exn) : Prop :=
  (∃ addr, w.account addr = .error e) ∨ Lacks (pre.Covered s entries) e

end

theorem length_acctLeaf_le (a : Option Acct) : (acctLeaf a).length ≤ 150 := by
  cases a with
  | none => exact Nat.zero_le 150
  | some a => exact length_encodeAccount_le a a.storageRoot

theorem length_slot_le (v : U256) : (encodeSlot v).length ≤ 150 :=
  Nat.le_trans (length_encodeSlot_le v) (by decide)

/-- A map of a reasonable size, with short values at the paths of some keys. -/
theorem small_overlays {α : Type} {path : α → Nibbles} {f : α → Bytes} {K : Set α} {M M' : Contents}
    (h : Overlays path f K M M') (hM : Small M) (hpath : ∀ x, (path x).length = 64)
    (hf : ∀ x, (f x).length ≤ 150) : Small M' := by
  have hP := h.forall (P := fun k v => (v ≠ [] → k.length < 2 ^ 60) ∧ v.length < 2 ^ 60)
    (fun k => ⟨hM.key_lt k, hM.val_lt k⟩)
    (fun x _ => ⟨fun _ => by rw [hpath]; decide, Nat.lt_of_le_of_lt (hf x) (by decide)⟩)
  exact ⟨fun k => (hP k).1, fun k => (hP k).2⟩

section

variable [Keccak] {world : World} {s : Tracker} {pre : PreState} {keys : Keys}

omit [Keccak] in
/-- A map with a new value for some keys has a trie. -/
theorem trieOf_overlay {α : Type} {names : List α} {path : α → Nibbles} (f : α → Bytes) (u : MptTrie)
    (hinj : Set.InjOn path {x | x ∈ names}) :
    (trieOf (overlay names path f u.value)).Full ∧ (trieOf (overlay names path f u.value)).Wf ∧
      (trieOf (overlay names path f u.value)).value = overlay names path f u.value :=
  trieOf_spec ((overlays_overlay hinj f _).finite u.finite_value (List.finite_toSet names))

theorem Keys.Cover.accounts_inj (h : keys.Cover s) :
    Set.InjOn accountPath {addr | addr ∈ s.written} :=
  keys.addrs_apart.mono h.accounts

theorem Keys.Cover.slots_inj (h : keys.Cover s) (addr : Address) :
    Set.InjOn slotPath {key | key ∈ s.slotKeys addr} :=
  keys.slots_apart.mono (h.slots addr)

/-- An account without slot writes keeps its storage. -/
theorem storageAfter_of_unwritten {addr : Address} (h : addr ∉ s.bs.storWrites.keys) :
    storageAfter world s pre addr = (pre.storage addr).value := by
  rw [storageAfter, slotKeys, OrdMap.get_eq_none.mpr h]
  rfl

/-- An account that was not written stays as it is. -/
theorem after_of_unwritten {addr : Address} (hsized : Sized (pre.storage addr))
    (hroot : rootOf (pre.storage addr) = world.storageRoot addr) (h : addr ∉ s.written) :
    (world.after s pre).account addr = world.account addr := by
  obtain ⟨hacct, hstor⟩ := not_or.mp (mt List.mem_append.mpr h)
  have hafter : s.accountAfter world addr = world.account addr := by
    rw [accountAfter, OrdMap.get_eq_none.mpr hacct]
  have hstorage : rootOfMap (storageAfter world s pre addr) = world.storageRoot addr := by
    rw [storageAfter_of_unwritten hstor, hsized.rootOfMap, hroot]
  rw [World.after]
  dsimp only
  rw [hafter, hstorage, World.storageRoot]
  cases world.account addr <;> rfl

/-- The tries after the block are of a reasonable size. -/
theorem after_sized (hsized : Sized pre.accounts) (hstorage : ∀ addr, Sized (pre.storage addr))
    (hc : keys.Cover s) :
    Sized (pre.after world s).accounts ∧ ∀ addr, Sized ((pre.after world s).storage addr) := by
  refine ⟨?_, fun addr => ?_⟩
  · obtain ⟨hfull, hwf, hvalue⟩ :=
      trieOf_overlay (leafAfter world s pre) pre.accounts hc.accounts_inj
    refine ⟨hfull, hwf, hvalue ▸ ?_⟩
    exact small_overlays (overlays_overlay hc.accounts_inj _ _) hsized.small
      (fun _ => length_path _) fun _ => length_acctLeaf_le _
  · rw [PreState.after]
    dsimp only
    split
    · obtain ⟨hfull, hwf, hvalue⟩ := trieOf_overlay
        (fun key => encodeSlot (s.slotAfter world addr key)) (pre.storage addr) (hc.slots_inj addr)
      refine ⟨hfull, hwf, hvalue ▸ ?_⟩
      exact small_overlays (overlays_overlay (hc.slots_inj addr) _ _) (hstorage addr).small
        (fun _ => length_path _) fun _ => length_slot_le _
    · exact ⟨trivial, trivial, small_empty⟩

/-- **The tries after the block have the state after the block.** -/
theorem after_represents (hstorage : ∀ addr, Sized (pre.storage addr))
    (hrep : pre.Represents keys world) (hc : keys.Cover s) :
    (pre.after world s).Represents keys (world.after s pre) where
  account addr haddr := by
    have hvalue := (trieOf_overlay (leafAfter world s pre) pre.accounts hc.accounts_inj).2.2
    have hover := overlays_overlay hc.accounts_inj (leafAfter world s pre) pre.accounts.value
    change (trieOf (overlay _ _ _ _)).value _ = _
    rw [hvalue]
    by_cases hw : addr ∈ s.written
    · exact hover.on addr hw
    · rw [hover.off _ fun x hx heq => hw (keys.addrs_apart (hc.accounts x hx) haddr heq ▸ hx),
        after_of_unwritten (hstorage addr) (hrep.root addr haddr) hw]
      exact hrep.account addr haddr
  root addr _ := by
    rw [PreState.after, World.storageRoot, World.after]
    dsimp only
    cases hacct : s.accountAfter world addr <;> rfl
  slot addr haddr key hkey := by
    rw [PreState.after, World.after]
    dsimp only
    split
    · have hvalue := (trieOf_overlay (fun key => encodeSlot (s.slotAfter world addr key))
        (pre.storage addr) (hc.slots_inj addr)).2.2
      have hover := overlays_overlay (hc.slots_inj addr)
        (fun key => encodeSlot (s.slotAfter world addr key)) (pre.storage addr).value
      change (trieOf (overlay _ _ _ _)).value _ = _
      rw [hvalue]
      by_cases hw : key ∈ s.slotKeys addr
      · exact hover.on key hw
      · have hnone : s.storLookup s.bs.storWrites addr key = none := by
          unfold storLookup
          unfold slotKeys at hw
          cases hm : s.bs.storWrites.get addr with
          | none => rfl
          | some m =>
            rw [hm] at hw
            exact OrdMap.get_eq_none.mpr hw
        rw [hover.off _ fun x hx heq => hw (keys.slots_apart (hc.slots addr x hx) hkey heq ▸ hx),
          slotAfter, hnone]
        exact hrep.slot addr haddr key hkey
    · rfl

end

/-! ## The passes -/

/-- The state has more records than another and else is the same. -/
structure MoreAccts (s s' : Tracker) : Prop where
  bs : s'.bs = s.bs
  words : s'.words = s.words
  inners : s'.inners = s.inners
  accts : s.accts.Grows s'.accts

section

variable {w : Witness} {s s₀ : Tracker}

theorem MoreAccts.refl (s : Tracker) : MoreAccts s s := ⟨rfl, rfl, rfl, .refl _⟩

theorem MoreAccts.alloc (h : MoreAccts s₀ s) (a : Acct) :
    MoreAccts s₀ { s with accts := s.accts.alloc a } :=
  ⟨h.bs, h.words, h.inners, h.accts.trans (Arena.grows_alloc _ _)⟩

theorem ldWord_halts {p : Nat} {P : U256 → Tracker → Prop} {F : Exn → Tracker → Prop}
    (h : P (s.words.load p) s) : Halts (fun _ => ldWord p) s P F := halts_ok (fun _ => rfl) h

theorem ldAcct_halts {p : Nat} {P : Acct → Tracker → Prop} {F : Exn → Tracker → Prop}
    (h : P (s.accts.load p) s) : Halts (fun _ => ldAcct p) s P F := halts_ok (fun _ => rfl) h

/-- An account is read from the witness into a new record. -/
theorem wsGetAccountOptional_halts {addr : Address} (h : MoreAccts s₀ s)
    {P : AcctRef → Tracker → Prop} {F : Exn → Tracker → Prop}
    (hok : ∀ a s', w.account addr = .ok a → MoreAccts s₀ s' →
      ∀ r : AcctRef, r.map s'.accts.load = a → P r s')
    (herr : ∀ e s', w.account addr = .error e → F e s') :
    Halts (fun _ => wsGetAccountOptional w addr) s P F := by
  unfold wsGetAccountOptional
  cases hw : w.account addr with
  | error e => exact halts_error (fun _ => rfl) (herr e s hw)
  | ok a =>
    cases a with
    | none => exact halts_ok (fun _ => rfl) (hok none s hw h none rfl)
    | some a =>
      refine halts_ok (fun _ => rfl) (hok (some a) _ hw (h.alloc a) (some s.accts.next) ?_)
      exact congrArg some (Arena.load_alloc_self s.accts a)

theorem wsStorageRootOf_halts [Keccak] {addr : Address} (h : MoreAccts s₀ s)
    {P : Hash → Tracker → Prop} {F : Exn → Tracker → Prop}
    (hok : ∀ a s', w.account addr = .ok a → MoreAccts s₀ s' →
      P ((a.map Acct.storageRoot).getD emptyTrieRoot) s')
    (herr : ∀ e s', w.account addr = .error e → F e s') :
    Halts (fun _ => wsStorageRootOf w addr) s P F := by
  refine (wsGetAccountOptional_halts (P := fun r s' => P
    (((r.map s'.accts.load).map Acct.storageRoot).getD emptyTrieRoot) s') h
    (fun a s' ha hs' r hr => ?_) herr).bind fun r s' hP => ?_
  · rw [hr]
    exact hok a s' ha hs'
  · cases r with
    | none => exact halts_pure hP
    | some p => exact halts_ok (fun _ => rfl) hP

end

section

variable [Keccak] [Stray] {entries : List Bytes} {db : NodeDb} {c : Prop} {t : Handle × Arena Node}
  {M : Contents} {s s₀ : Tracker} {w : Witness} {world : World} {pre : PreState}
  {keys : Keys}

/-- The slots whose value is zero, or those whose value is not. -/
def slotsOf (deleting : Bool) (s : Tracker) (slots : List (Hash × Nat)) : Set Hash :=
  {key | ∃ p, (key, p) ∈ slots ∧ decide (s.words.load p = 0) = deleting}

/-- One pass over the slots of a storage trie. -/
theorem setSlots_halts {deleting : Bool} {slots : List (Hash × Nat)} {f : Hash → Bytes}
    (h : TrieHolds c db t M) (hM : Small M) (hf : ∀ key, (f key).length ≤ 150)
    (hinj : Set.InjOn slotPath {key | key ∈ slots.map Prod.fst})
    (hval : ∀ e ∈ slots, f e.1 = encodeSlot (s.words.load e.2)) :
    Halts (fun fuel => setSlots (heapTries fuel db) deleting slots t) s
      (fun t' s' => s' = s ∧ ∃ M', TrieHolds c db t' M' ∧
        Overlays slotPath f (slotsOf deleting s slots) M M')
      (fun e _ => Lacks c e) := by
  induction slots generalizing t M with
  | nil =>
    refine halts_pure ⟨rfl, M, h, ?_⟩
    have hnone : slotsOf deleting s [] = ∅ := Set.eq_empty_of_forall_notMem fun k ⟨p, hp, _⟩ => by
      cases hp
    rw [hnone]
    exact .refl slotPath f M
  | cons slot slots ih =>
    obtain ⟨key, p⟩ := slot
    have hrest : ∀ {t' M'}, TrieHolds c db t' M' → Small M' → _ := fun ht hM =>
      ih ht hM (hinj.mono fun k hk => List.mem_cons_of_mem key hk)
        (fun e he => hval e (List.mem_cons_of_mem _ he))
    simp only [setSlots]
    refine (ldWord_halts (P := fun v s' => v = s.words.load p ∧ s' = s) ⟨rfl, rfl⟩).bind
      fun v s' hv => ?_
    obtain ⟨rfl, rfl⟩ := hv
    by_cases hdel : decide (s'.words.load p = 0) = deleting
    · simp only [if_pos hdel]
      have hbytes : (if deleting then [] else rlpPutU256 (s'.words.load p)) = f key := by
        rw [hval _ List.mem_cons_self, encodeSlot, ← hdel]
        by_cases h0 : s'.words.load p = 0 <;> simp [h0]
      rw [hbytes]
      refine (set_halts h hM _ _).bind fun t' s'' ht' => ?_
      obtain ⟨rfl, ht'⟩ := ht'
      have hone := overlays_update slotPath f M key
      refine (hrest ht' (small_overlays hone hM (fun _ => length_path _) hf)).mono ?_
        fun e _ he => he
      rintro t'' s'' ⟨rfl, M'', hM'', hover⟩
      refine ⟨rfl, M'', hM'', ?_⟩
      have hkeys : slotsOf deleting s'' ((key, p) :: slots) =
          {key} ∪ slotsOf deleting s'' slots := by
        ext k
        constructor
        · rintro ⟨q, hq, hd⟩
          rcases List.mem_cons.mp hq with heq | hq
          · cases heq
            exact .inl rfl
          · exact .inr ⟨q, hq, hd⟩
        · rintro (rfl | ⟨q, hq, hd⟩)
          · exact ⟨p, List.mem_cons_self, hdel⟩
          · exact ⟨q, List.mem_cons_of_mem _ hq, hd⟩
      rw [hkeys]
      refine hone.trans (hinj.mono ?_) hover
      rintro k (rfl | ⟨q, hq, -⟩)
      · exact List.mem_cons_self
      · exact List.mem_cons_of_mem _ (List.mem_map_of_mem hq)
    · simp only [if_neg hdel]
      have hkeys : slotsOf deleting s' ((key, p) :: slots) = slotsOf deleting s' slots := by
        ext k
        constructor
        · rintro ⟨q, hq, hd⟩
          rcases List.mem_cons.mp hq with heq | hq
          · cases heq
            exact absurd hd hdel
          · exact ⟨q, hq, hd⟩
        · rintro ⟨q, hq, hd⟩
          exact ⟨q, List.mem_cons_of_mem _ hq, hd⟩
      rw [hkeys]
      exact hrest h hM

omit [Keccak] [Stray] in
/-- What the tables have for a slot that was written. -/
theorem slotAfter_of_mem {addr : Address} {m : Nat} (hm : s.bs.storWrites.get addr = some m)
    {key : Hash} {p : Nat} (hp : (key, p) ∈ (s.inners.load m).entries) :
    s.slotAfter world addr key = s.words.load p := by
  have hlook : s.storLookup s.bs.storWrites addr key = some p :=
    (storLookup_of_get hm key).trans (OrdMap.get_eq_some.mpr hp)
  rw [slotAfter, hlook]

omit [Stray] in
/-- The storage root that is read is that of the storage trie. -/
theorem Begins.root {addr : Address} {a : Option Acct} (hb : Begins world pre entries w keys)
    (haddr : addr ∈ keys.addrs) (ha : w.account addr = .ok a) :
    (a.map Acct.storageRoot).getD emptyTrieRoot = rootOf (pre.storage addr) := by
  rw [hb.reads addr a ha]
  exact (hb.represents.root addr haddr).symm

/-- The storage trie of an account after both passes, and what is done with its root. -/
theorem storage_halts {β : Type} {k : Nat → Hash → StateM β} {P : β → Tracker → Prop}
    {F : Exn → Tracker → Prop} {addr : Address} {m : Nat} (hb : Begins world pre entries w keys)
    (hk : keys.Cover s₀) (hm : s₀.bs.storWrites.get addr = some m) (hs : MoreAccts s₀ s)
    (ht : TrieHolds c db t (pre.storage addr).value) (hF : ∀ e s', Lacks c e → F e s')
    (hnext : Halts (fun fuel => k fuel (rootOfMap (storageAfter world s₀ pre addr))) s P F) :
    Halts (fun fuel => do
        let trie ← setSlots (heapTries fuel db) false (s₀.inners.load m).entries t
        let trie ← setSlots (heapTries fuel db) true (s₀.inners.load m).entries trie
        let root ← liftExcept ((heapTries fuel db).root trie)
        k fuel root) s P F := by
  have hslots : s₀.slotKeys addr = (s₀.inners.load m).entries.map Prod.fst := by
    rw [slotKeys, hm]
    rfl
  have hinj := hk.slots_inj addr
  rw [hslots] at hinj
  have hlen : ∀ key, (encodeSlot (s₀.slotAfter world addr key)).length ≤ 150 := fun _ =>
    length_slot_le _
  have hval : ∀ e ∈ (s₀.inners.load m).entries,
      encodeSlot (s₀.slotAfter world addr e.1) = encodeSlot (s.words.load e.2) := fun e he => by
    rw [slotAfter_of_mem hm he, hs.words]
  have hpath : ∀ key, (slotPath key).length = 64 := fun _ => length_path _
  have hsmall := (hb.rooted.storage addr).small
  refine ((setSlots_halts ht hsmall hlen hinj hval).mono (fun _ _ h => h) hF).bind
    fun t₁ s₁ h₁ => ?_
  obtain ⟨rfl, M₁, ht₁, hover₁⟩ := h₁
  have hsmall₁ := small_overlays hover₁ hsmall hpath hlen
  refine ((setSlots_halts ht₁ hsmall₁ hlen hinj hval).mono (fun _ _ h => h) hF).bind
    fun t₂ s₂ h₂ => ?_
  obtain ⟨rfl, M₂, ht₂, hover₂⟩ := h₂
  have hkeys : slotsOf false s₂ (s₀.inners.load m).entries ∪
      slotsOf true s₂ (s₀.inners.load m).entries = {key | key ∈ s₀.slotKeys addr} := by
    rw [hslots]
    ext key
    constructor
    · rintro (⟨p, hp, -⟩ | ⟨p, hp, -⟩) <;> exact List.mem_map_of_mem (f := Prod.fst) hp
    · intro hkey
      obtain ⟨⟨key, p⟩, hp, rfl⟩ := List.mem_map.mp hkey
      cases hdel : decide (s₂.words.load p = 0) with
      | false => exact .inl ⟨p, hp, hdel⟩
      | true => exact .inr ⟨p, hp, hdel⟩
  have hover := hover₁.trans (hkeys ▸ hk.slots_inj addr) hover₂
  rw [hkeys] at hover
  have hafter : M₂ = storageAfter world s₀ pre addr := hover.eq_overlay
  refine (root_halts ht₂ (small_overlays hover₂ hsmall₁ hpath hlen)).bind fun root s₃ h₃ => ?_
  obtain ⟨rfl, rfl⟩ := h₃
  rw [hafter]
  exact hnext

/-- The storage root of every account whose slots were written. -/
theorem storageTries_halts (hb : Begins world pre entries w keys) (hk : keys.Cover s₀)
    {es : List (Address × Nat)} (hes : ∀ e ∈ es, e ∈ s₀.bs.storWrites.entries)
    (hs : MoreAccts s₀ s) (cache : OrdMap Address Unit) (newRoots : OrdMap Address Hash) :
    Halts (fun fuel =>
        storageTries w (heapTries fuel (nodedbBuild entries)) es cache newRoots) s
      (fun r s' => MoreAccts s₀ s' ∧ ∀ addr, r.2.get addr = if addr ∈ es.map Prod.fst then
        some (rootOfMap (storageAfter world s₀ pre addr)) else newRoots.get addr)
      (fun e _ => RootFails s₀ pre entries w e) := by
  induction es generalizing s cache newRoots with
  | nil => exact halts_pure ⟨hs, fun addr => (if_neg List.not_mem_nil).symm⟩
  | cons e es ih =>
    obtain ⟨addr, m⟩ := e
    have hmem := hes _ List.mem_cons_self
    have hm : s₀.bs.storWrites.get addr = some m := OrdMap.get_eq_some.mpr hmem
    have haddr : addr ∈ keys.addrs :=
      hk.accounts addr (List.mem_append_right _ (List.mem_map_of_mem (f := Prod.fst) hmem))
    have hcov : pre.Covered s₀ entries → Complete entries (pre.storage addr) := fun hc =>
      hc.2 addr (List.mem_map_of_mem (f := Prod.fst) hmem)
    simp only [storageTries]
    refine (wsStorageRootOf_halts (P := fun root s' => MoreAccts s₀ s' ∧
      root = rootOf (pre.storage addr)) hs (fun a s' ha hs' => ⟨hs', hb.root haddr ha⟩)
      (fun e _ he => .inl ⟨addr, he⟩)).bind fun root s₁ h₁ => ?_
    obtain ⟨hs₁, rfl⟩ := h₁
    refine ((fromWitness_halts (hb.rooted.storage addr) hcov).mono (fun _ _ h => h)
      (fun e _ he => .inr he)).bind fun t₁ s₂ h₂ => ?_
    obtain ⟨rfl, ht₁⟩ := h₂
    refine (halts_ok (x := fun _ => get) (P := fun s' s'' => s' = s₂ ∧ s'' = s₂)
      (fun _ => rfl) ⟨rfl, rfl⟩).bind fun s' s'' h => ?_
    obtain ⟨rfl, rfl⟩ := h
    rw [hs₁.inners]
    refine storage_halts hb hk hm hs₁ ht₁ (fun _ _ he => .inr he) ?_
    refine (ih (fun e he => hes e (List.mem_cons_of_mem _ he)) hs₁ _ _).mono ?_ fun _ _ he => he
    rintro r s₃ ⟨hs₃, hroots⟩
    refine ⟨hs₃, fun a => ?_⟩
    rw [hroots, OrdMap.get_set, List.map_cons]
    by_cases ha : a ∈ es.map Prod.fst
    · rw [if_pos ha, if_pos (List.mem_cons_of_mem addr ha)]
    · by_cases heq : a = addr
      · rw [if_neg ha, if_pos heq, if_pos (heq ▸ List.mem_cons_self), heq]
      · have hno : a ∉ addr :: es.map Prod.fst := fun h =>
          (List.mem_cons.mp h).elim heq ha
        rw [if_neg ha, if_neg heq, if_neg hno]

omit [Stray] in
theorem leafAfter_of_none {addr : Address} (h : s.bs.acctWrites.get addr = some none) :
    leafAfter world s pre addr = [] := by
  rw [leafAfter, World.after]
  dsimp only
  rw [accountAfter, h]
  rfl

omit [Stray] in
theorem leafAfter_of_some {addr : Address} {p : Nat}
    (h : s.bs.acctWrites.get addr = some (some p)) :
    leafAfter world s pre addr =
      encodeAccount (s.accts.load p) (rootOfMap (storageAfter world s pre addr)) := by
  rw [leafAfter, World.after]
  dsimp only
  rw [accountAfter, h]
  rfl

omit [Stray] in
/-- An account of which at most slots were written. -/
theorem leafAfter_of_unwritten {addr : Address} (h : s.bs.acctWrites.has addr = false) :
    leafAfter world s pre addr = ((world.account addr).map fun a =>
      encodeAccount a (rootOfMap (storageAfter world s pre addr))).getD [] := by
  have hnone : s.bs.acctWrites.get addr = none := by
    rwa [OrdMap.has, Option.isSome_eq_false_iff, Option.isNone_iff_eq_none] at h
  have hafter : s.accountAfter world addr = world.account addr := by
    rw [accountAfter, hnone]
  rw [leafAfter, World.after]
  dsimp only
  rw [hafter, acctLeaf, Option.map_map]
  rfl

/-- The accounts whose slots were written, but not they themselves. -/
theorem storageTouched_halts (hb : Begins world pre entries w keys) (hk : keys.Cover s₀)
    {newRoots : OrdMap Address Hash} {es : List (Address × Nat)}
    (hes : ∀ e ∈ es, e ∈ s₀.bs.storWrites.entries)
    (hroots : ∀ addr ∈ es.map Prod.fst,
      newRoots.get addr = some (rootOfMap (storageAfter world s₀ pre addr)))
    (hs : MoreAccts s₀ s) (ht : TrieHolds (pre.Covered s₀ entries) db t M) (hM : Small M)
    (habsent : ∀ addr ∈ es.map Prod.fst, world.account addr = none → M (accountPath addr) = [])
    (cache : OrdMap Address Unit) :
    @Halts Exn Tracker (OrdMap Address Unit × Handle × Arena Node)
      (fun fuel => storageTouched w (heapTries fuel db) s₀.bs.acctWrites newRoots es cache t) s
      (fun r s' => MoreAccts s₀ s' ∧ ∃ M', TrieHolds (pre.Covered s₀ entries) db r.2 M' ∧
        Overlays accountPath (leafAfter world s₀ pre)
          {addr | addr ∈ es.map Prod.fst ∧ s₀.bs.acctWrites.has addr = false} M M')
      (fun e _ => RootFails s₀ pre entries w e) := by
  induction es generalizing s t M cache with
  | nil =>
    have hnone : {addr | addr ∈ ([] : List (Address × Nat)).map Prod.fst ∧
        s₀.bs.acctWrites.has addr = false} = ∅ :=
      Set.eq_empty_of_forall_notMem fun _ h => List.not_mem_nil h.1
    have hover := Overlays.refl accountPath (leafAfter world s₀ pre) M
    rw [← hnone] at hover
    exact halts_pure (a := (cache, t)) ⟨hs, M, ht, hover⟩
  | cons e es ih =>
    obtain ⟨addr, m⟩ := e
    have hes' : ∀ e ∈ es, e ∈ s₀.bs.storWrites.entries := fun e he =>
      hes e (List.mem_cons_of_mem _ he)
    have hroots' := fun a ha => hroots a (List.mem_cons_of_mem addr ha)
    have habsent' := fun a ha => habsent a (List.mem_cons_of_mem addr ha)
    have hinj : Set.InjOn accountPath {a | a ∈ addr :: es.map Prod.fst} := by
      refine hk.accounts_inj.mono fun a ha => List.mem_append_right _ ?_
      obtain ⟨e, he, rfl⟩ := List.mem_map.mp (show a ∈ ((addr, m) :: es).map Prod.fst from ha)
      exact List.mem_map_of_mem (hes e he)
    simp only [storageTouched]
    cases hhas : s₀.bs.acctWrites.has addr with
    | true =>
      simp only [if_true]
      have hkeys : {a | a ∈ ((addr, m) :: es).map Prod.fst ∧ s₀.bs.acctWrites.has a = false} =
          {a | a ∈ es.map Prod.fst ∧ s₀.bs.acctWrites.has a = false} := by
        ext a
        constructor
        · rintro ⟨ha, hno⟩
          refine ⟨(List.mem_cons.mp ha).resolve_left fun heq => ?_, hno⟩
          rw [heq, hhas] at hno
          cases hno
        · rintro ⟨ha, hno⟩
          exact ⟨List.mem_cons_of_mem _ ha, hno⟩
      rw [hkeys]
      exact ih hes' hroots' hs ht hM habsent' cache
    | false =>
      simp only [Bool.false_eq_true, if_false]
      have hkeys : {a | a ∈ ((addr, m) :: es).map Prod.fst ∧ s₀.bs.acctWrites.has a = false} =
          {addr} ∪ {a | a ∈ es.map Prod.fst ∧ s₀.bs.acctWrites.has a = false} := by
        ext a
        constructor
        · rintro ⟨ha, hno⟩
          exact (List.mem_cons.mp ha).imp id fun ha => ⟨ha, hno⟩
        · rintro (rfl | ⟨ha, hno⟩)
          · exact ⟨List.mem_cons_self, hhas⟩
          · exact ⟨List.mem_cons_of_mem _ ha, hno⟩
      have hunion : Set.InjOn accountPath ({addr} ∪
          {a | a ∈ es.map Prod.fst ∧ s₀.bs.acctWrites.has a = false}) := hinj.mono <| by
        rintro a (rfl | ⟨ha, -⟩)
        · exact List.mem_cons_self
        · exact List.mem_cons_of_mem _ ha
      rw [hkeys]
      refine (wsGetAccountOptional_halts (P := fun r s' => MoreAccts s₀ s' ∧
        world.account addr = r.map s'.accts.load) hs
        (fun a s' ha hs' r hr => ⟨hs', ((hb.reads addr a ha).symm.trans hr.symm)⟩)
        (fun e _ he => .inl ⟨addr, he⟩)).bind
        fun r s₁ h₁ => ?_
      obtain ⟨hs₁, hacct⟩ := h₁
      have hleaf : leafAfter world s₀ pre addr = ((r.map s₁.accts.load).map fun a =>
          encodeAccount a (rootOfMap (storageAfter world s₀ pre addr))).getD [] := by
        rw [leafAfter_of_unwritten hhas, hacct]
      cases r with
      | none =>
        have hone : Overlays accountPath (leafAfter world s₀ pre) {addr} M M :=
          overlays_of_eq ((habsent addr List.mem_cons_self hacct).trans hleaf.symm)
        refine (ih hes' hroots' hs₁ ht hM habsent' _).mono ?_ fun _ _ he => he
        rintro r s₂ ⟨hs₂, M', ht', hover⟩
        exact ⟨hs₂, M', ht', hone.trans hunion hover⟩
      | some p =>
        dsimp only
        rw [hroots addr List.mem_cons_self]
        refine (ldAcct_halts (P := fun a s' => a = s₁.accts.load p ∧ s' = s₁) ⟨rfl, rfl⟩).bind
          fun a s' h => ?_
        obtain ⟨rfl, rfl⟩ := h
        refine ((set_halts ht hM _ _).mono (fun _ _ h => h) fun _ _ he => .inr he).bind
          fun t' s₂ h₂ => ?_
        obtain ⟨rfl, ht'⟩ := h₂
        have hone := overlays_update accountPath (leafAfter world s₀ pre) M addr
        rw [hleaf] at hone
        have hM' := small_overlays hone hM (fun _ => length_path _) fun _ => length_acctLeaf_le _
        refine (ih hes' hroots' hs₁ ht' hM' (fun a ha hnone => ?_) _).mono ?_ fun _ _ he => he
        · have hne : accountPath a ≠ accountPath addr := fun heq => by
            have haddr := hinj (List.mem_cons_of_mem addr ha) List.mem_cons_self heq
            rw [haddr, hacct] at hnone
            cases hnone
          exact (Function.update_of_ne hne _ _).trans (habsent' a ha hnone)
        · rintro r s₃ ⟨hs₃, M', ht'', hover⟩
          exact ⟨hs₃, M', ht'', hone.trans hunion hover⟩

/-- The accounts that were written. -/
theorem accountChanges_halts (hb : Begins world pre entries w keys) (hk : keys.Cover s₀)
    (hsound : Sound s₀)
    {newRoots : OrdMap Address Hash} {es : List (Address × AcctRef)}
    (hes : ∀ e ∈ es, e ∈ s₀.bs.acctWrites.entries)
    (hroots : ∀ addr, newRoots.get addr = if addr ∈ s₀.bs.storWrites.keys then
      some (rootOfMap (storageAfter world s₀ pre addr)) else none)
    (hs : MoreAccts s₀ s) (ht : TrieHolds (pre.Covered s₀ entries) db t M) (hM : Small M) :
    Halts (fun fuel => accountChanges (heapTries fuel db) (wsStorageRootOf w) newRoots es t) s
      (fun t' s' => MoreAccts s₀ s' ∧ ∃ M', TrieHolds (pre.Covered s₀ entries) db t' M' ∧
        Overlays accountPath (leafAfter world s₀ pre) {addr | addr ∈ es.map Prod.fst} M M')
      (fun e _ => RootFails s₀ pre entries w e) := by
  induction es generalizing s t M with
  | nil =>
    have hnone : {addr | addr ∈ ([] : List (Address × AcctRef)).map Prod.fst} = ∅ :=
      Set.eq_empty_of_forall_notMem fun _ h => List.not_mem_nil h
    have hover := Overlays.refl accountPath (leafAfter world s₀ pre) M
    rw [← hnone] at hover
    exact halts_pure ⟨hs, M, ht, hover⟩
  | cons e es ih =>
    obtain ⟨addr, r⟩ := e
    have hget : s₀.bs.acctWrites.get addr = some r := OrdMap.get_eq_some.mpr (hes _ List.mem_cons_self)
    have hinj : Set.InjOn accountPath ({addr} ∪ {a | a ∈ es.map Prod.fst}) := by
      refine hk.accounts_inj.mono fun a ha => List.mem_append_left _ ?_
      rcases ha with rfl | ha
      · exact List.mem_map_of_mem (f := Prod.fst) (hes _ List.mem_cons_self)
      · obtain ⟨e, he, rfl⟩ := List.mem_map.mp ha
        exact List.mem_map_of_mem (hes e (List.mem_cons_of_mem _ he))
    -- what is left after the leaf of the account is set
    have hrest : ∀ {s₁ : Tracker}, MoreAccts s₀ s₁ →
        Halts (fun fuel => do
          let trie ← liftExcept ((heapTries fuel db).set t (beBytes 20 addr.toNat)
            (leafAfter world s₀ pre addr))
          accountChanges (heapTries fuel db) (wsStorageRootOf w) newRoots es trie) s₁
        (fun t' s' => MoreAccts s₀ s' ∧ ∃ M', TrieHolds (pre.Covered s₀ entries) db t' M' ∧
          Overlays accountPath (leafAfter world s₀ pre)
            {a | a ∈ ((addr, r) :: es).map Prod.fst} M M')
        (fun e _ => RootFails s₀ pre entries w e) := fun hs₁ => by
      refine ((set_halts ht hM _ _).mono (fun _ _ h => h) fun _ _ he => .inr he).bind
        fun t' s₂ h₂ => ?_
      obtain ⟨rfl, ht'⟩ := h₂
      have hone := overlays_update accountPath (leafAfter world s₀ pre) M addr
      have hM' := small_overlays hone hM (fun _ => length_path _) fun _ => length_acctLeaf_le _
      refine (ih (fun e he => hes e (List.mem_cons_of_mem _ he)) hs₁ ht' hM').mono ?_
        fun _ _ he => he
      rintro t'' s₃ ⟨hs₃, M', ht'', hover⟩
      refine ⟨hs₃, M', ht'', ?_⟩
      have hkeys : {a | a ∈ ((addr, r) :: es).map Prod.fst} =
          {addr} ∪ {a | a ∈ es.map Prod.fst} := by
        ext a
        exact List.mem_cons
      rw [hkeys]
      exact hone.trans hinj hover
    cases r with
    | none =>
      simp only [accountChanges]
      have hset := hrest hs
      rwa [leafAfter_of_none hget] at hset
    | some p =>
      have hload : ∀ {s₁ : Tracker}, MoreAccts s₀ s₁ → s₁.accts.load p = s₀.accts.load p :=
        fun hs₁ => hs₁.accts.load (hsound.blockAccts addr p hget)
      rw [leafAfter_of_some hget] at hrest
      have hnext : ∀ {s₁ : Tracker}, MoreAccts s₀ s₁ → _ := fun {s₁} hs₁ =>
        (ldAcct_halts (P := fun a s' => a = s₀.accts.load p ∧ s' = s₁) (F := fun e _ =>
          RootFails s₀ pre entries w e) ⟨hload hs₁, rfl⟩).bind (f := fun fuel a => do
            let trie ← liftExcept ((heapTries fuel db).set t (beBytes 20 addr.toNat)
              (encodeAccount a (rootOfMap (storageAfter world s₀ pre addr))))
            accountChanges (heapTries fuel db) (wsStorageRootOf w) newRoots es trie)
          fun a s' h => by
            obtain ⟨rfl, rfl⟩ := h
            exact hrest hs₁
      have haddr : addr ∈ keys.addrs := hk.accounts addr (List.mem_append_left _
        (List.mem_map_of_mem (f := Prod.fst) (hes _ List.mem_cons_self)))
      simp only [accountChanges]
      rw [hroots]
      by_cases hmem : addr ∈ s₀.bs.storWrites.keys
      · simp only [if_pos hmem]
        exact (halts_pure (P := fun root s' => root = rootOfMap (storageAfter world s₀ pre addr) ∧
          MoreAccts s₀ s') ⟨rfl, hs⟩).bind fun root s₁ h₁ => h₁.1 ▸ hnext h₁.2
      · simp only [if_neg hmem]
        refine (wsStorageRootOf_halts (P := fun root s' =>
          root = rootOfMap (storageAfter world s₀ pre addr) ∧ MoreAccts s₀ s') hs
          (fun a s' ha hs' => ⟨?_, hs'⟩) fun e _ he => .inl ⟨addr, he⟩).bind
          fun root s₁ h₁ => h₁.1 ▸ hnext h₁.2
        rw [storageAfter_of_unwritten hmem, (hb.rooted.storage addr).rootOfMap, hb.root haddr ha]

/-- **The post-state root.** The witness may be any list of byte strings. In every state of a block
that began in a state with known tries, the root that is computed, if one is, is the root of the
tries after the block. It is computed unless a read of the witness fails or a node that is needed
is not in the witness. Those tries have the state after the block, so the next block may begin there. -/
theorem post_state_root {c : Scope} (h : Reached w c) (hb : Begins world pre entries w keys)
    (hk : keys.Cover c.state) :
    Halts (fun fuel => computeStateRoot w (heapTries fuel (nodedbBuild entries))
        (rootOf pre.accounts)) c.state
      (fun root _ => root = rootOf (pre.after world c.state).accounts)
      (fun e _ => RootFails c.state pre entries w e) ∧
    (pre.after world c.state).Represents keys (world.after c.state pre) ∧
    Sized (pre.after world c.state).accounts ∧
    ∀ addr, Sized ((pre.after world c.state).storage addr) := by
  have hstorage : ∀ addr, Sized (pre.storage addr) := fun addr =>
    (hb.rooted.storage addr).toSized
  refine ⟨?_, after_represents hstorage hb.represents hk,
    after_sized hb.rooted.accounts.toSized hstorage hk⟩
  refine Halts.congr ?_ fun fuel => computeStateRoot_eq (reached_recorded h).1 _
  have hsound := (reached_sound h).sound
  have hs := MoreAccts.refl c.state
  simp only [stateRootWith]
  refine (halts_ok (x := fun _ => get) (P := fun s s' => s = c.state ∧ s' = c.state)
    (fun _ => rfl) ⟨rfl, rfl⟩).bind fun s s' h₀ => ?_
  obtain ⟨rfl, rfl⟩ := h₀
  refine (storageTries_halts hb hk (fun _ he => he) hs _ _).bind fun r s₁ h₁ => ?_
  obtain ⟨cache, newRoots⟩ := r
  obtain ⟨hs₁, hroots⟩ := h₁
  refine ((fromWitness_halts hb.rooted.accounts fun hc => hc.1).mono (fun _ _ h => h)
    (fun e _ he => .inr he)).bind fun t s₂ h₂ => ?_
  obtain ⟨rfl, ht⟩ := h₂
  have hM := hb.rooted.accounts.small
  refine (storageTouched_halts hb hk (fun _ he => he) (fun addr ha => ?_) hs₁ ht hM
    (fun addr ha hnone => ?_) cache).bind fun r s₃ h₃ => ?_
  · rw [hroots, if_pos ha]
  · rw [hb.represents.account addr (hk.accounts addr (List.mem_append_right _ ha)), hnone]
    rfl
  obtain ⟨cache', t₃⟩ := r
  obtain ⟨hs₃, M₃, ht₃, hover₃⟩ := h₃
  have hM₃ := small_overlays hover₃ hM (fun _ => length_path _) fun _ => length_acctLeaf_le _
  refine (accountChanges_halts hb hk hsound (fun _ he => he) hroots hs₃ ht₃ hM₃).bind
    fun t₄ s₄ h₄ => ?_
  obtain ⟨hs₄, M₄, ht₄, hover₄⟩ := h₄
  have hkeys : {addr | addr ∈ c.state.bs.storWrites.entries.map Prod.fst ∧
      c.state.bs.acctWrites.has addr = false} ∪
      {addr | addr ∈ c.state.bs.acctWrites.entries.map Prod.fst} =
      {addr | addr ∈ c.state.written} := by
    ext addr
    constructor
    · rintro (⟨ha, -⟩ | ha)
      · exact List.mem_append_right _ ha
      · exact List.mem_append_left _ ha
    · intro ha
      rcases List.mem_append.mp ha with ha | ha
      · exact .inr ha
      · cases hhas : c.state.bs.acctWrites.has addr with
        | true => exact .inr (OrdMap.has_eq_true.mp hhas)
        | false => exact .inl ⟨ha, hhas⟩
  have hover := hover₃.trans (hkeys ▸ hk.accounts_inj) hover₄
  rw [hkeys] at hover
  have hM₄ := small_overlays hover₄ hM₃ (fun _ => length_path _) fun _ => length_acctLeaf_le _
  refine (root_halts ht₄ hM₄).mono (fun r _ hr => ?_) fun _ _ he => he
  rw [hr.2, hover.eq_overlay]
  rfl

end

section

attribute [local instance] numKeccak

/-- The reads of the state with one account. -/
def oneWitness : Witness :=
  { emptyWitness with
    account := fun addr => .ok (oneWorld.account addr)
    account_fatal := fun _ _ h => by cases h }

/-- After a payment to a new account and a write to a slot of the old one. -/
theorem post_state_root_one :
    let _ : Stray := ⟨.outOfFuel⟩
    ∃ c : Scope, c.state.written = [2, 1] ∧ c.state.slotKeys 1 = [7] ∧
      Halts (fun fuel => computeStateRoot oneWitness (heapTries fuel (nodedbBuild [oneEntry]))
          (rootOf onePre.accounts)) c.state
        (fun root _ => root = rootOf (onePre.after oneWorld c.state).accounts)
        (fun e _ => RootFails c.state onePre [oneEntry] oneWitness e) ∧
      (onePre.after oneWorld c.state).Represents oneKeys (oneWorld.after c.state onePre) ∧
      Sized (onePre.after oneWorld c.state).accounts ∧
      ∀ addr, Sized ((onePre.after oneWorld c.state).storage addr) := by
  intro _
  have hpay : Scope.Moves (Acts oneWitness) ⟨default, []⟩ ⟨_, []⟩ :=
    .act (.inl ⟨.update 2 fun a => { a with balance := a.balance + 5 }, rfl⟩)
  have hset := Reached.move (.move .init hpay) (.act (.inl ⟨.setStorage 1 7 9, rfl⟩))
  have hreached := Reached.merge hset
  refine ⟨_, rfl, rfl, post_state_root hreached
    ⟨onePre_committed, onePre_represents, fun addr a ha => ?_⟩
    ⟨fun _ _ => trivial, fun addr key hkey => ?_⟩⟩
  · cases ha
    rfl
  · unfold slotKeys at hkey
    split at hkey
    · cases hkey
    · next m hm =>
      have hmem := OrdMap.get_eq_some.mp hm
      cases List.mem_singleton.mp hmem
      exact List.mem_singleton.mp hkey

end

end StatelessGuest
