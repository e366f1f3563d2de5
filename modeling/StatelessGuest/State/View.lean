import StatelessGuest.State.Ops

/-!
# What the reads of a state find

The tracker keeps its state in layers: the transaction's tables, the block's and the witness,
with pointers to records. `View` is the same state without layers and pointers, and every read
returns what the view has.

* `Sound`: every pointer of the tables points to a record, and every slot table belongs to one
  address of the block or of the transaction.
* `view_of_agree`: a state that only has more records and read sets has the same view.
* `result_loadAccount`, `result_getStorage`, ...: what the reads return.
-/

namespace StatelessGuest

open Lib Tracker

/-! ## Views -/

/-- The accounts, the slots and the code of a state, and the slots below the transaction's
writes; a read of the witness may fail. -/
structure View where
  account : Address → Except Exn (Option Acct)
  slot : Address → Hash → Except Exn U256
  below : Address → Hash → Except Exn U256
  code : Hash → Except Exn Bytes
  transient : Address × Hash → U256

/-- A slot in the witness. -/
def Witness.slotOf [Keccak] (w : Witness) (addr : Address) (key : Hash) : Except Exn U256 := do
  let root := ((← w.account addr).map Acct.storageRoot).getD emptyTrieRoot
  if root = emptyTrieRoot then return 0
  w.slot root key

/-- A code in the witness. -/
def Witness.codeOf (w : Witness) (h : Hash) : Except Exn Bytes :=
  ((w.code h).map Except.ok).getD (.error (.state 2))

/-- An account below the transaction's writes. -/
def Tracker.accountBelow (w : Witness) (s : Tracker) (addr : Address) : Except Exn (Option Acct) :=
  match s.bs.acctWrites.get addr with
  | some r => .ok (r.map s.accts.load)
  | none => w.account addr

def Tracker.account (w : Witness) (s : Tracker) (addr : Address) : Except Exn (Option Acct) :=
  match s.ts.acctWrites.get addr with
  | some r => .ok (r.map s.accts.load)
  | none => s.accountBelow w addr

def Tracker.slotBelow [Keccak] (w : Witness) (s : Tracker) (addr : Address) (key : Hash) :
    Except Exn U256 :=
  match s.storLookup s.bs.storWrites addr key with
  | some p => .ok (s.words.load p)
  | none => w.slotOf addr key

def Tracker.slot [Keccak] (w : Witness) (s : Tracker) (addr : Address) (key : Hash) : Except Exn U256 :=
  match s.storLookup s.ts.storWrites addr key with
  | some p => .ok (s.words.load p)
  | none => s.slotBelow w addr key

def Tracker.codeAt (w : Witness) (s : Tracker) (h : Hash) : Except Exn Bytes :=
  match s.ts.codeWrites.get h with
  | some p => .ok (s.slices.load p)
  | none =>
    match s.bs.codeWrites.get h with
    | some p => .ok (s.slices.load p)
    | none => w.codeOf h

def Tracker.transientAt (s : Tracker) (k : Address × Hash) : U256 :=
  ((s.ts.transient.get k).map s.words.load).getD 0

def Tracker.view [Keccak] (w : Witness) (s : Tracker) : View where
  account := s.account w
  slot := s.slot w
  below := s.slotBelow w
  code := s.codeAt w
  transient := s.transientAt

/-! ## The invariant -/

/-- The invariant of the tables of the transaction and of the block. -/
structure Sound (s : Tracker) : Prop extends Wf s where
  blockAccts : ∀ addr p, s.bs.acctWrites.get addr = some (some p) → s.accts.Valid p
  blockInners : ∀ addr m, s.bs.storWrites.get addr = some m → s.inners.Valid m
  blockWords : ∀ addr key p, s.storLookup s.bs.storWrites addr key = some p → s.words.Valid p
  blockCodes : ∀ h p, s.bs.codeWrites.get h = some p → s.slices.Valid p
  apart : ∀ a b m, s.lookup .storWrites a = some m → s.bs.storWrites.get b ≠ some m
  blockInj : ∀ a b m, s.bs.storWrites.get a = some m → s.bs.storWrites.get b = some m → a = b

variable {s s' : Tracker}

theorem Ext.bs_acctWrites (h : Ext s s') : s'.bs.acctWrites = s.bs.acctWrites := by rw [h.bs]

theorem Ext.bs_storWrites (h : Ext s s') : s'.bs.storWrites = s.bs.storWrites := by rw [h.bs]

theorem Ext.bs_codeWrites (h : Ext s s') : s'.bs.codeWrites = s.bs.codeWrites := by rw [h.bs]

theorem storLookup_of_get {outer : OrdMap Address Nat} {addr : Address} {m : Nat}
    (h : outer.get addr = some m) (key : Hash) :
    s.storLookup outer addr key = (s.inners.load m).get key := by
  rw [storLookup, h]

/-- A slot of a table whose bindings stay. -/
theorem storLookup_of_agree {outer : OrdMap Address Nat} (hag : Agree s.Has s s')
    (hin : ∀ addr m, outer.get addr = some m → s.inners.Valid m) (addr : Address) (key : Hash) :
    s'.storLookup outer addr key = s.storLookup outer addr key := by
  unfold storLookup
  split
  · rfl
  · next m hm =>
    obtain ⟨-, -, hk⟩ := hag (.inner m) (hin addr m hm)
    exact (hk key).symm

theorem Wf.storInner_valid (h : Wf s) (addr : Address) (m : Nat)
    (hm : s.ts.storWrites.get addr = some m) : s.inners.Valid m :=
  h.vals .storWrites trivial addr m hm

/-- The invariant holds again once the tables have their bindings back. -/
theorem Sound.of_agree (h : Sound s) (hx : Ext s s') (hag : Agree s.Has s s') : Sound s' := by
  have hstor : ∀ a, s'.lookup .storWrites a = s.lookup .storWrites a :=
    fun a => ((hag .storWrites trivial).2.2 a).symm
  refine ⟨h.toWf.of_agree hx hag, fun addr p hp => ?_, fun addr m hm => ?_, fun addr key p hp => ?_,
    fun c p hp => ?_, fun a b m ha => ?_, by rw [hx.bs_storWrites]; exact h.blockInj⟩
  · rw [hx.bs_acctWrites] at hp
    exact hx.accts.valid (h.blockAccts addr p hp)
  · rw [hx.bs_storWrites] at hm
    exact Nat.lt_of_lt_of_le (h.blockInners addr m hm) hx.inners
  · rw [hx.bs_storWrites, storLookup_of_agree hag h.blockInners] at hp
    exact hx.words.valid (h.blockWords addr key p hp)
  · rw [hx.bs_codeWrites] at hp
    exact hx.slices.valid (h.blockCodes c p hp)
  · rw [hstor] at ha
    rw [hx.bs_storWrites]
    exact h.apart a b m ha

/-! ## States with the same view -/

section

variable (w : Witness)

theorem account_of_agree (h : Sound s) (hx : Ext s s') (hag : Agree s.Has s s')
    (addr : Address) : s'.account w addr = s.account w addr := by
  have hts : s'.ts.acctWrites.get addr = s.ts.acctWrites.get addr :=
    ((hag .acctWrites trivial).2.2 addr).symm
  have hload : ∀ r : AcctRef, (∀ p, r = some p → s.accts.Valid p) →
      r.map s'.accts.load = r.map s.accts.load := by
    intro r hr
    cases r with
    | none => rfl
    | some p => exact congrArg some (hx.accts.load (hr p rfl))
  unfold account accountBelow
  rw [hts, hx.bs_acctWrites]
  split
  · next r hr => rw [hload r (h.vals .acctWrites trivial addr r hr)]
  split
  · next r hr =>
    rw [hload r fun p hp => h.blockAccts addr p (hp ▸ hr)]
  · rfl

theorem codeAt_of_agree (h : Sound s) (hx : Ext s s') (hag : Agree s.Has s s') (c : Hash) :
    s'.codeAt w c = s.codeAt w c := by
  have hts : s'.ts.codeWrites.get c = s.ts.codeWrites.get c :=
    ((hag .codeWrites trivial).2.2 c).symm
  unfold codeAt
  rw [hts, hx.bs_codeWrites]
  split
  · next p hp => rw [hx.slices.load (h.vals .codeWrites trivial c p hp)]
  split
  · next p hp => rw [hx.slices.load (h.blockCodes c p hp)]
  · rfl

theorem transientAt_of_agree (h : Sound s) (hx : Ext s s') (hag : Agree s.Has s s')
    (k : Address × Hash) : s'.transientAt k = s.transientAt k := by
  have hts : s'.ts.transient.get k = s.ts.transient.get k :=
    ((hag .transient trivial).2.2 k).symm
  unfold transientAt
  rw [hts]
  cases hk : s.ts.transient.get k with
  | none => rfl
  | some p => exact hx.words.load (h.vals .transient trivial k p hk)

/-- A slot of the transaction is a word. -/
theorem Sound.word_valid (h : Sound s) {addr : Address} {key : Hash} {p : Nat}
    (hp : s.storLookup s.ts.storWrites addr key = some p) : s.words.Valid p := by
  unfold storLookup at hp
  split at hp
  · cases hp
  · next m hm => exact h.vals (.inner m) ⟨addr, hm⟩ key p hp

variable [Keccak]

theorem slotBelow_of_agree (h : Sound s) (hx : Ext s s') (hag : Agree s.Has s s')
    (addr : Address) (key : Hash) : s'.slotBelow w addr key = s.slotBelow w addr key := by
  unfold slotBelow
  rw [hx.bs_storWrites, storLookup_of_agree hag h.blockInners]
  split
  · next p hp => rw [hx.words.load (h.blockWords addr key p hp)]
  · rfl

theorem slot_of_agree (h : Sound s) (hx : Ext s s') (hag : Agree s.Has s s') (addr : Address)
    (key : Hash) : s'.slot w addr key = s.slot w addr key := by
  have hts : s'.storLookup s'.ts.storWrites addr key = s.storLookup s.ts.storWrites addr key := by
    have hget : s'.ts.storWrites.get addr = s.ts.storWrites.get addr :=
      ((hag .storWrites trivial).2.2 addr).symm
    rw [← storLookup_of_agree hag h.storInner_valid]
    unfold storLookup
    rw [hget]
  unfold slot
  rw [hts, slotBelow_of_agree w h hx hag]
  split
  · next p hp => rw [hx.words.load (h.word_valid hp)]
  · rfl

/-- A state with more records and the same bindings has the same view. -/
theorem view_of_agree (h : Sound s) (hx : Ext s s') (hag : Agree s.Has s s') :
    s'.view w = s.view w := by
  unfold view
  congr 1
  · funext addr
    exact account_of_agree w h hx hag addr
  · funext addr key
    exact slot_of_agree w h hx hag addr key
  · funext addr key
    exact slotBelow_of_agree w h hx hag addr key
  · funext c
    exact codeAt_of_agree w h hx hag c
  · funext k
    exact transientAt_of_agree h hx hag k

end

/-! ## What the reads return -/

/-- A read of an account finds `a`. -/
def Answers (a : Except Exn (Option Acct)) : EStateM.Result Exn Tracker AcctRef → Prop
  | .ok r s => a = .ok (r.map s.accts.load)
  | .error e _ => a = .error e

section

variable (w : Witness)

theorem answers_wsGetAccountOptional (addr : Address) (s : Tracker) :
    Answers (w.account addr) (wsGetAccountOptional w addr s) := by
  unfold wsGetAccountOptional
  cases h : w.account addr with
  | error e => rfl
  | ok a =>
    cases a with
    | none => rfl
    | some a => exact congrArg (fun b => Except.ok (some b)) (Arena.load_alloc_self s.accts a).symm

theorem answers_getPreStateAccountOptional (addr : Address) (s : Tracker) :
    Answers (s.accountBelow w addr) (getPreStateAccountOptional w addr s) := by
  rw [getPreStateAccountOptional, modifyTs, bind_run, modify_run]
  dsimp only
  rw [bind_run, get_run, accountBelow]
  dsimp only
  cases h : s.bs.acctWrites.get addr with
  | some r => rfl
  | none => exact answers_wsGetAccountOptional w addr _

theorem answers_getAccountOptional (addr : Address) (s : Tracker) :
    Answers (s.account w addr) (getAccountOptional w addr s) := by
  rw [getAccountOptional, modifyTs, bind_run, modify_run]
  dsimp only
  rw [bind_run, get_run, account]
  dsimp only
  cases h : s.ts.acctWrites.get addr with
  | some r => rfl
  | none => exact answers_getPreStateAccountOptional w addr _

theorem result_accountExists (addr : Address) (s : Tracker) :
    result (accountExists w addr s) = (s.account w addr).map Option.isSome := by
  have h := answers_getAccountOptional w addr s
  rw [accountExists, bind_run]
  cases hrun : getAccountOptional w addr s with
  | ok r s' =>
    rw [hrun] at h
    rw [show s.account w addr = _ from h, Except.map, Option.isSome_map]
    rfl
  | error e s' =>
    rw [hrun] at h
    rw [show s.account w addr = _ from h]
    rfl

omit w in
theorem result_getTransientStorage (addr : Address) (key : Hash) (s : Tracker) :
    result (getTransientStorage addr key s) = .ok (s.transientAt (addr, key)) := by
  rw [getTransientStorage, bind_run, get_run, transientAt]
  dsimp only
  cases h : s.ts.transient.get (addr, key) <;> rfl

variable [Keccak]

/-- What an account that does not exist reads as. -/
def emptyAcct : Acct := ⟨0, 0, emptyTrieRoot, emptyCodeHash⟩

/-- The record of an account, the empty one when there is none. -/
theorem result_getAccount (addr : Address) (s : Tracker) :
    result ((getAccount w addr >>= ldAcct) s) =
      (s.account w addr).map fun a => a.getD emptyAcct := by
  have h := answers_getAccountOptional w addr s
  rw [getAccount, bind_assoc, bind_run]
  cases hrun : getAccountOptional w addr s with
  | ok r s' =>
    rw [hrun] at h
    rw [show s.account w addr = _ from h]
    cases r with
    | some p => rfl
    | none => exact congrArg Except.ok (Arena.load_alloc_self s'.accts emptyAcct)
  | error e s' =>
    rw [hrun] at h
    rw [show s.account w addr = _ from h]
    rfl

theorem result_wsStorageRootOf (addr : Address) (s : Tracker) :
    result (wsStorageRootOf w addr s) =
      (w.account addr).map fun a => (a.map Acct.storageRoot).getD emptyTrieRoot := by
  have h := answers_wsGetAccountOptional w addr s
  rw [wsStorageRootOf, bind_run]
  cases hrun : wsGetAccountOptional w addr s with
  | ok r s' =>
    rw [hrun] at h
    rw [show w.account addr = _ from h]
    cases r <;> rfl
  | error e s' =>
    rw [hrun] at h
    rw [show w.account addr = _ from h]
    rfl

theorem result_wsGetStorage (addr : Address) (key : Hash) (s : Tracker) :
    result (wsGetStorage w addr key s) = w.slotOf addr key := by
  have h := result_wsStorageRootOf w addr s
  rw [wsGetStorage, bind_run, Witness.slotOf]
  cases hrun : wsStorageRootOf w addr s with
  | error e s' =>
    rw [hrun] at h
    cases ha : w.account addr with
    | error e' =>
      rw [ha] at h
      cases h
      rfl
    | ok a =>
      rw [ha] at h
      cases h
  | ok root s' =>
    rw [hrun] at h
    cases ha : w.account addr with
    | error e' =>
      rw [ha] at h
      cases h
    | ok a =>
      rw [ha] at h
      cases h
      dsimp only
      change _ = if _ then _ else _
      split
      · rfl
      · cases w.slot _ key <;> rfl

theorem result_getStorageBelow (addr : Address) (key : Hash) (s : Tracker) :
    result (getStorageBelow w addr key s) = s.slotBelow w addr key := by
  rw [getStorageBelow, bind_run, get_run, slotBelow]
  dsimp only
  cases h : s.storLookup s.bs.storWrites addr key with
  | some p => rfl
  | none => exact result_wsGetStorage w addr key _

/-- The slot before the transaction; it is zero in an account that the transaction created. -/
theorem result_getStorageOriginal (addr : Address) (key : Hash) (s : Tracker) :
    result (getStorageOriginal w addr key s) =
      if s.ts.created.has addr then .ok 0 else s.slotBelow w addr key := by
  rw [getStorageOriginal, bind_run, get_run]
  dsimp only
  split
  · rfl
  · exact result_getStorageBelow w addr key s

theorem result_getStorage (addr : Address) (key : Hash) (s : Tracker) :
    result (getStorage w addr key s) = s.slot w addr key := by
  rw [getStorage, recordStorageRead, modifyTs, bind_run, modify_run]
  dsimp only
  rw [bind_run, get_run, slot]
  dsimp only
  change result ((match s.storLookup s.ts.storWrites addr key with
    | some p => ldWord p
    | none => getStorageBelow w addr key) _) = _
  cases h : s.storLookup s.ts.storWrites addr key with
  | some p => rfl
  | none => exact result_getStorageBelow w addr key _

/-- The code with a hash; the code with the hash of no bytes is not looked up. -/
theorem result_getCode (h : Hash) (addr : Address) (s : Tracker) :
    result (getCode w h addr s) = if h = emptyCodeHash then .ok [] else s.codeAt w h := by
  unfold getCode
  by_cases he : h = emptyCodeHash
  · rw [if_pos he, if_pos he]
    rfl
  rw [if_neg he, if_neg he, bind_run, get_run, codeAt]
  dsimp only
  cases hts : s.ts.codeWrites.get h with
  | some p => rfl
  | none =>
    dsimp only
    rw [bind_run, get_run]
    dsimp only
    cases hbs : s.bs.codeWrites.get h with
    | some p => rfl
    | none =>
      dsimp only
      rw [modifyTs, bind_run, modify_run]
      dsimp only
      rw [wsGetCode, if_neg he, Witness.codeOf]
      cases w.code h <;> rfl

end

end StatelessGuest
