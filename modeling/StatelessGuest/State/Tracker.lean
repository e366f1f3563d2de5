import StatelessGuest.Base
import StatelessGuest.Lib.OrdMap
import StatelessGuest.Lib.Arena
import StatelessGuest.Lib.Exec

/-!
# The state tracker

The block state, the transaction state above it and the undo log. Tables hold pointers to
records in arenas: account records, 32-byte cells for storage values, code slices and the
inner slot tables of the two-level storage maps. Reads that no write answers go to the
witness.

A write goes through `jset` or `jdel`, which record the previous binding of the one key they
touch; `stateRestore` pops these records and puts the bindings back.
-/

namespace StatelessGuest

open Lib

/-! ## Records and tables -/

/-- An account record. -/
structure Acct where
  nonce : Word
  balance : U256
  storageRoot : Hash
  codeHash : Hash
  deriving DecidableEq, Inhabited

/-- A pointer to an account record, or `none` for `ACCT_NONE`. -/
abbrev AcctRef := Option Nat

/-- What the witness answers: the decoded account leaf of an address, the value of a slot in
the storage trie of a root other than the empty one, and the code with a hash. A read that fails
does so with an error of the trie or of a decoder, never with one of the interpreter. -/
structure Witness where
  account : Address → Except Exn (Option Acct)
  slot : Hash → Hash → Except Exn U256
  code : Hash → Option Bytes
  account_fatal : ∀ addr e, account addr = .error e → e.Fatal
  slot_fatal : ∀ root key e, slot root key = .error e → e.Fatal

/-- The tables of the block state. -/
structure BlockState where
  acctReads : OrdMap Address Unit
  acctWrites : OrdMap Address AcctRef
  storReads : OrdMap (Address × Hash) Unit
  storWrites : OrdMap Address Nat
  codeReads : OrdMap (Address × Hash) Unit
  codeWrites : OrdMap Hash Nat
  ancOff : Option Word
  preReads : OrdMap Address Unit
  deriving DecidableEq, Inhabited

/-- The tables of a transaction state. -/
structure TxState where
  acctReads : OrdMap Address Unit
  acctWrites : OrdMap Address AcctRef
  storReads : OrdMap (Address × Hash) Unit
  storWrites : OrdMap Address Nat
  codeReads : OrdMap (Address × Hash) Unit
  codeWrites : OrdMap Hash Nat
  created : OrdMap Address Unit
  transient : OrdMap (Address × Hash) Nat
  deriving DecidableEq, Inhabited

/-- The journaled tables: the four write maps of the transaction and the slot tables. -/
inductive Tab where
  | acctWrites
  | storWrites
  | inner (p : Nat)
  | codeWrites
  | transient
  deriving DecidableEq

/-- The keys of a journaled table. -/
abbrev Tab.Key : Tab → Type
  | .acctWrites | .storWrites => Address
  | .inner _ | .codeWrites => Hash
  | .transient => Address × Hash

/-- The values of a journaled table. -/
abbrev Tab.Val : Tab → Type
  | .acctWrites => AcctRef
  | .storWrites | .inner _ | .codeWrites | .transient => Nat

instance : (t : Tab) → DecidableEq t.Key
  | .acctWrites | .storWrites => inferInstanceAs (DecidableEq Address)
  | .inner _ | .codeWrites => inferInstanceAs (DecidableEq Hash)
  | .transient => inferInstanceAs (DecidableEq (Address × Hash))

/-- An undo record: a table, a key and the binding the key had. -/
structure Undo where
  tab : Tab
  key : tab.Key
  old : Option tab.Val

/-- The journal's capacity in records. -/
def journalCap : Nat := 524288

/-- The state of the tracker; the head of the journal is its latest record. -/
structure Tracker where
  accts : Arena Acct
  words : Arena U256
  slices : Arena Bytes
  inners : Arena (OrdMap Hash Nat)
  bs : BlockState
  ts : TxState
  journal : List Undo
  deriving Inhabited

/-- A tracker operation: it may throw, and what it changed before stays changed. -/
abbrev StateM := EStateM Exn Tracker

/-- A journaled table of the state. -/
def Tracker.table (s : Tracker) : (t : Tab) → OrdMap t.Key t.Val
  | .acctWrites => s.ts.acctWrites
  | .storWrites => s.ts.storWrites
  | .inner p => s.inners.load p
  | .codeWrites => s.ts.codeWrites
  | .transient => s.ts.transient

/-- Replace a journaled table. -/
def Tracker.setTable (s : Tracker) : (t : Tab) → OrdMap t.Key t.Val → Tracker
  | .acctWrites, m => { s with ts := { s.ts with acctWrites := m } }
  | .storWrites, m => { s with ts := { s.ts with storWrites := m } }
  | .inner p, m => { s with inners := s.inners.store p m }
  | .codeWrites, m => { s with ts := { s.ts with codeWrites := m } }
  | .transient, m => { s with ts := { s.ts with transient := m } }

/-- Change the transaction state. -/
def modifyTs (f : TxState → TxState) : StateM Unit := modify fun s => { s with ts := f s.ts }

/-- Change the block state. -/
def modifyBs (f : BlockState → BlockState) : StateM Unit := modify fun s => { s with bs := f s.bs }

/-- A fresh transaction state; resets the journal. -/
def stateFreshTx : StateM Unit := modify fun s => { s with ts := default, journal := [] }

/-! ## Journal -/

/-- Append an undo record; `code` is the trap of a full journal. -/
def journalPush (code : Nat) (t : Tab) (key : t.Key) (old : Option t.Val) : StateM Unit := do
  let s ← get
  if journalCap ≤ s.journal.length then
    throw (.trap code)
  set { s with journal := ⟨t, key, old⟩ :: s.journal }

/-- Record the previous binding of a key, then set it. -/
def jset (t : Tab) (key : t.Key) (value : t.Val) : StateM Unit := do
  let s ← get
  journalPush 4 t key ((s.table t).get key)
  modify fun s => s.setTable t ((s.table t).set key value)

/-- Record the binding of a present key, then delete it. -/
def jdel (t : Tab) (key : t.Key) : StateM Unit := do
  let s ← get
  match (s.table t).get key with
  | none => pure ()
  | some old => do
    journalPush 5 t key (some old)
    modify fun s => s.setTable t ((s.table t).del key)

/-- The snapshot handle: the number of undo records. -/
def stateSnapshot : StateM Nat := do return (← get).journal.length

/-- Put the binding of an undo record back. -/
def Tracker.undo (s : Tracker) (r : Undo) : Tracker :=
  match r.old with
  | some v => s.setTable r.tab ((s.table r.tab).set r.key v)
  | none => s.setTable r.tab ((s.table r.tab).del r.key)

/-- Pop and undo records while more than `snap` are left. -/
def Tracker.restoreLoop (snap : Nat) : List Undo → Tracker → Tracker
  | [], s => { s with journal := [] }
  | r :: rs, s =>
    if snap < rs.length + 1 then restoreLoop snap rs (s.undo r)
    else { s with journal := r :: rs }

/-- Undo every record above the snapshot. -/
def stateRestore (snap : Nat) : StateM Unit := modify fun s => s.restoreLoop snap s.journal

/-! ## Records -/

/-- Allocate an account record. -/
def acctAlloc (a : Acct) : StateM Nat := do
  let s ← get
  set { s with accts := s.accts.alloc a }
  return s.accts.next

/-- The account record at a pointer. -/
def ldAcct (p : Nat) : StateM Acct := do return (← get).accts.load p

/-- Change fields of the account record at a pointer. -/
def stAcct (p : Nat) (f : Acct → Acct) : StateM Unit :=
  modify fun s => { s with accts := s.accts.store p (f (s.accts.load p)) }

/-- Allocate a 32-byte cell. -/
def wordAlloc (v : U256) : StateM Nat := do
  let s ← get
  set { s with words := s.words.alloc v }
  return s.words.next

/-- The 32-byte cell at a pointer. -/
def ldWord (p : Nat) : StateM U256 := do return (← get).words.load p

/-- Allocate a slice record. -/
def sliceAlloc (code : Bytes) : StateM Nat := do
  let s ← get
  set { s with slices := s.slices.alloc code }
  return s.slices.next

/-- The bytes a slice record describes. -/
def ldSlice (p : Nat) : StateM Bytes := do return (← get).slices.load p

/-- A new slot table. -/
def innerNew : StateM Nat := do
  let s ← get
  set { s with inners := s.inners.alloc .empty }
  return s.inners.next

section

variable [Keccak] (w : Witness)

/-- A record without code whose storage is empty. -/
def acctNew (nonce : Word) (balance : U256) (codeHash : Hash) : StateM Nat :=
  acctAlloc ⟨nonce, balance, emptyTrieRoot, codeHash⟩

def acctEmpty : StateM Nat := acctNew 0 0 emptyCodeHash

/-- A fresh copy of a record. -/
def acctCopy (p : Nat) : StateM Nat := do acctAlloc (← ldAcct p)

/-! ## Witness reads -/

/-- Run a witness read. -/
def liftExcept {α : Type} : Except Exn α → StateM α
  | .ok a => pure a
  | .error e => throw e

def recordPreStateRead (addr : Address) : StateM Unit :=
  modifyBs fun b => { b with preReads := b.preReads.set addr () }

/-- The account of an address in the witness, decoded into a fresh record. -/
def wsGetAccountOptional (addr : Address) : StateM AcctRef := do
  match ← liftExcept (w.account addr) with
  | none => return none
  | some a => return some (← acctAlloc a)

/-- The storage root of an address in the witness. -/
def wsStorageRootOf (addr : Address) : StateM Hash := do
  match ← wsGetAccountOptional w addr with
  | none => return emptyTrieRoot
  | some p => return (← ldAcct p).storageRoot

def wsGetStorage (addr : Address) (key : Hash) : StateM U256 := do
  let root ← wsStorageRootOf w addr
  if root = emptyTrieRoot then return 0
  liftExcept (w.slot root key)

def wsGetCode (codeHash : Hash) : StateM Bytes := do
  if codeHash = emptyCodeHash then return []
  match w.code codeHash with
  | none => throw (.state 2)
  | some c => return c

def wsAccountHasStorage (addr : Address) : StateM Bool := do
  let root ← wsStorageRootOf w addr
  return root ≠ emptyTrieRoot

/-! ## Reads -/

def getPreStateAccountOptional (addr : Address) : StateM AcctRef := do
  modifyTs fun t => { t with acctReads := t.acctReads.set addr () }
  match (← get).bs.acctWrites.get addr with
  | some r => return r
  | none => do
    recordPreStateRead addr
    wsGetAccountOptional w addr

/-- An account of the block state, the empty one when there is none. -/
def getPreStateAccount (addr : Address) : StateM Nat := do
  match ← getPreStateAccountOptional w addr with
  | some p => return p
  | none => acctEmpty

/-- The account of an address, the transaction's writes first. -/
def getAccountOptional (addr : Address) : StateM AcctRef := do
  modifyTs fun t => { t with acctReads := t.acctReads.set addr () }
  match (← get).ts.acctWrites.get addr with
  | some r => return r
  | none => getPreStateAccountOptional w addr

def getAccount (addr : Address) : StateM Nat := do
  match ← getAccountOptional w addr with
  | some p => return p
  | none => acctEmpty

def getCode (codeHash : Hash) (addr : Address) : StateM Bytes := do
  if codeHash = emptyCodeHash then return []
  match (← get).ts.codeWrites.get codeHash with
  | some p => ldSlice p
  | none =>
    match (← get).bs.codeWrites.get codeHash with
    | some p => ldSlice p
    | none => do
      modifyTs fun t => { t with codeReads := t.codeReads.set (addr, codeHash) () }
      wsGetCode w codeHash

/-- Look a slot up in a two-level storage map. -/
def Tracker.storLookup (s : Tracker) (outer : OrdMap Address Nat) (addr : Address) (key : Hash) :
    Option Nat :=
  match outer.get addr with
  | none => none
  | some m => (s.inners.load m).get key

/-- A slot below the transaction's writes: the block's write or the witness's value. -/
def getStorageBelow (addr : Address) (key : Hash) : StateM U256 := do
  let s ← get
  match s.storLookup s.bs.storWrites addr key with
  | some p => ldWord p
  | none => do
    recordPreStateRead addr
    wsGetStorage w addr key

def recordStorageRead (addr : Address) (key : Hash) : StateM Unit :=
  modifyTs fun t => { t with storReads := t.storReads.set (addr, key) () }

def getStorage (addr : Address) (key : Hash) : StateM U256 := do
  recordStorageRead addr key
  let s ← get
  match s.storLookup s.ts.storWrites addr key with
  | some p => ldWord p
  | none => getStorageBelow w addr key

/-- The value of a slot before the transaction; zero in an account it created. -/
def getStorageOriginal (addr : Address) (key : Hash) : StateM U256 := do
  if (← get).ts.created.has addr then return 0
  getStorageBelow w addr key

def getTransientStorage (addr : Address) (key : Hash) : StateM U256 := do
  match (← get).ts.transient.get (addr, key) with
  | none => return 0
  | some p => ldWord p

/-! ## Predicates -/

def accountExists (addr : Address) : StateM Bool := do
  return (← getAccountOptional w addr).isSome

/-- A two-level storage map holds slots of an address. -/
def Tracker.hasSlots (s : Tracker) (outer : OrdMap Address Nat) (addr : Address) : Bool :=
  match outer.get addr with
  | none => false
  | some m => 0 < (s.inners.load m).count

def accountHasStorage (addr : Address) : StateM Bool := do
  let s ← get
  if s.hasSlots s.ts.storWrites addr then return true
  if s.hasSlots s.bs.storWrites addr then return true
  recordPreStateRead addr
  wsAccountHasStorage w addr

def accountDeployable (addr : Address) : StateM Bool := do
  let a ← ldAcct (← getAccount w addr)
  if a.nonce ≠ 0 then return false
  if a.codeHash ≠ emptyCodeHash then return false
  return !(← accountHasStorage w addr)

/-- No nonce, no code and no balance. -/
def acctIsEmpty (a : Acct) : Bool :=
  a.nonce = 0 ∧ a.codeHash = emptyCodeHash ∧ a.balance = 0

def accountExistsAndIsEmpty (addr : Address) : StateM Bool := do
  match ← getAccountOptional w addr with
  | none => return false
  | some p => return acctIsEmpty (← ldAcct p)

def isAccountAlive (addr : Address) : StateM Bool := do
  match ← getAccountOptional w addr with
  | none => return false
  | some p => return !acctIsEmpty (← ldAcct p)

/-! ## Writes -/

def setAccount (addr : Address) (a : AcctRef) : StateM Unit := jset .acctWrites addr a

/-- The transaction's slot table of an address, a new one when it has none. -/
def storInner (addr : Address) : StateM Nat := do
  match (← get).ts.storWrites.get addr with
  | some m => return m
  | none => do
    let inner ← innerNew
    jset .storWrites addr inner
    return inner

def setStorage (addr : Address) (key : Hash) (value : U256) : StateM Unit := do
  match ← getAccountOptional w addr with
  | none => throw (.state 3)
  | some _ => do
    let inner ← storInner addr
    let v ← wordAlloc value
    jset (.inner inner) key v

/-- The slots written become reads, then the address's table goes. -/
def destroyStorage (addr : Address) : StateM Unit := do
  match (← get).ts.storWrites.get addr with
  | none => return ()
  | some m => do
    forM ((← get).inners.load m).keys fun key => recordStorageRead addr key
    jdel .storWrites addr

def destroyAccount (addr : Address) : StateM Unit := do
  destroyStorage addr
  setAccount addr none

/-- Set an account, then destroy it if it is empty (EIP-161). -/
def modifyStateCommit (addr : Address) (p : Nat) : StateM Unit := do
  setAccount addr (some p)
  if acctIsEmpty (← ldAcct p) then
    destroyAccount addr

/-- Commit a changed copy of the record at `p`. -/
def commitCopy (addr : Address) (p : Nat) (f : Acct → Acct) : StateM Unit := do
  let a ← acctCopy p
  stAcct a f
  modifyStateCommit addr a

def clearAccountPreservingBalance (addr : Address) : StateM Unit := do
  destroyStorage addr
  let a ← getAccount w addr
  commitCopy addr a fun a => { a with nonce := 0, codeHash := emptyCodeHash }

def markAccountCreated (addr : Address) : StateM Unit :=
  modifyTs fun t => { t with created := t.created.set addr () }

def setTransientStorage (addr : Address) (key : Hash) (value : U256) : StateM Unit := do
  if value = 0 then
    jdel .transient (addr, key)
  else
    let v ← wordAlloc value
    jset .transient (addr, key) v

def moveEther (sender recipient : Address) (amount : U256) : StateM Unit := do
  let s ← getAccount w sender
  if (← ldAcct s).balance < amount then
    throw (.state 4)
  commitCopy sender s fun a => { a with balance := a.balance - amount }
  let r ← getAccount w recipient
  commitCopy recipient r fun a => { a with balance := a.balance + amount }

def createEther (addr : Address) (amount : U256) : StateM Unit := do
  let a ← getAccount w addr
  commitCopy addr a fun a => { a with balance := a.balance + amount }

def setAccountBalance (addr : Address) (amount : U256) : StateM Unit := do
  let a ← getAccount w addr
  commitCopy addr a fun a => { a with balance := amount }

def incrementNonce (addr : Address) : StateM Unit := do
  let a ← getAccount w addr
  commitCopy addr a fun a => { a with nonce := a.nonce + 1 }

/-- Record code under its hash. -/
def recordCode (h : Hash) (code : Bytes) : StateM Unit := do
  let sl ← sliceAlloc code
  jset .codeWrites h sl

/-- Record the code under its hash and give it to the account. -/
def setCode (addr : Address) (code : Bytes) : StateM Unit := do
  let h := keccak256 code
  if h ≠ emptyCodeHash then
    recordCode h code
  let a ← getAccount w addr
  commitCopy addr a fun a => { a with codeHash := h }

end

/-! ## Lifecycle -/

/-- Merge the bindings of `src` into `dst`. -/
def htabUnionInto {κ ν : Type} [DecidableEq κ] (dst src : OrdMap κ ν) : OrdMap κ ν :=
  src.entries.foldl (fun m e => m.set e.1 e.2) dst

/-- Merge one address's slot table into the block state. -/
def mergeSlots (addr : Address) (inner : Nat) : StateM Unit := do
  let binner ← match (← get).bs.storWrites.get addr with
    | some m => pure m
    | none => do
      let binner ← innerNew
      modifyBs fun b => { b with storWrites := b.storWrites.set addr binner }
      pure binner
  modify fun s => { s with
    inners := s.inners.store binner (htabUnionInto (s.inners.load binner) (s.inners.load inner)) }

/-- Merge the transaction's reads and writes into the block state. -/
def mergeTxIntoBlock : StateM Unit := do
  modify fun s => { s with
    bs := { s.bs with
      storReads := htabUnionInto s.bs.storReads s.ts.storReads
      acctReads := htabUnionInto s.bs.acctReads s.ts.acctReads
      codeReads := htabUnionInto s.bs.codeReads s.ts.codeReads
      acctWrites := htabUnionInto s.bs.acctWrites s.ts.acctWrites
      codeWrites := htabUnionInto s.bs.codeWrites s.ts.codeWrites } }
  forM (← get).ts.storWrites.entries fun e => mergeSlots e.1 e.2

/-- The larger of the largest ancestor offset so far and a new one. -/
def ancMax (old : Option Word) (offset : Word) : Option Word :=
  match old with
  | none => some offset
  | some o => if o < offset then some offset else some o

def trackAncestorAccess (offset : Word) : StateM Unit :=
  modifyBs fun b => { b with ancOff := ancMax b.ancOff offset }

/-- A stand-in hash: the number a string denotes. -/
abbrev numKeccak : Keccak := ⟨fun bs => BitVec.ofNat 256 (beNat bs)⟩

/-- The witness of a state without accounts. -/
def emptyWitness : Witness where
  account _ := .ok none
  slot _ _ := .ok 0
  code _ := none
  account_fatal _ _ h := nomatch h
  slot_fatal _ _ _ h := nomatch h

end StatelessGuest
