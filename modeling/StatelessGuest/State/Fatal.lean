import StatelessGuest.State.Journal

/-!
# Errors of the tracker

No tracker operation raises an error that a frame could end with: what it throws rejects the
block or halts the machine.
-/

namespace StatelessGuest

open Lib

section

variable [Keccak] (w : Witness)

instance (code : Nat) : Throws Exn.Fatal (throw (.state code) : StateM Unit) := Throws.throw trivial


instance (code : Nat) : Throws Exn.Fatal (throw (.trap code) : StateM Unit) := Throws.throw trivial

instance (f : TxState → TxState) : Throws Exn.Fatal (modifyTs f) := by
  unfold modifyTs
  infer_instance

instance (f : BlockState → BlockState) : Throws Exn.Fatal (modifyBs f) := by
  unfold modifyBs
  infer_instance

instance (t : Tab) (key : t.Key) (value : t.Val) : Throws Exn.Fatal (jset t key value) := by
  unfold jset journalPush
  dsimp only
  infer_instance

instance (t : Tab) (key : t.Key) : Throws Exn.Fatal (jdel t key) := by
  unfold jdel journalPush
  refine Throws.seq inferInstance fun s => ?_
  split
  · infer_instance
  · dsimp only
    infer_instance

instance : Throws Exn.Fatal stateSnapshot := by
  unfold stateSnapshot
  infer_instance

instance (snap : Nat) : Throws Exn.Fatal (stateRestore snap) := by
  unfold stateRestore
  infer_instance

instance (a : Acct) : Throws Exn.Fatal (acctAlloc a) := by
  unfold acctAlloc
  infer_instance

instance (p : Nat) : Throws Exn.Fatal (ldAcct p) := by
  unfold ldAcct
  infer_instance

instance (p : Nat) (f : Acct → Acct) : Throws Exn.Fatal (stAcct p f) := by
  unfold stAcct
  infer_instance

instance (v : U256) : Throws Exn.Fatal (wordAlloc v) := by
  unfold wordAlloc
  infer_instance

instance (p : Nat) : Throws Exn.Fatal (ldWord p) := by
  unfold ldWord
  infer_instance

instance (c : Bytes) : Throws Exn.Fatal (sliceAlloc c) := by
  unfold sliceAlloc
  infer_instance

instance (p : Nat) : Throws Exn.Fatal (ldSlice p) := by
  unfold ldSlice
  infer_instance

instance (p : Nat) : Throws Exn.Fatal (acctCopy p) := by
  unfold acctCopy
  infer_instance

instance : Throws Exn.Fatal innerNew := by
  unfold innerNew
  infer_instance

instance : Throws Exn.Fatal acctEmpty := by
  unfold acctEmpty acctNew
  infer_instance

omit [Keccak] in
theorem throws_liftExcept {α : Type} {x : Except Exn α} (h : ∀ e, x = .error e → e.Fatal) :
    Throws Exn.Fatal (liftExcept x) := by
  cases x with
  | ok a => exact Throws.pure a
  | error e => exact Throws.throw (h e rfl)

instance (addr : Address) : Throws Exn.Fatal (wsGetAccountOptional w addr) := by
  have hread := throws_liftExcept (w.account_fatal addr)
  unfold wsGetAccountOptional
  refine Throws.seq hread fun r => ?_
  split <;> infer_instance

instance (addr : Address) : Throws Exn.Fatal (wsStorageRootOf w addr) := by
  unfold wsStorageRootOf
  refine Throws.seq inferInstance fun r => ?_
  split <;> infer_instance

instance (addr : Address) (key : Hash) : Throws Exn.Fatal (wsGetStorage w addr key) := by
  unfold wsGetStorage
  refine Throws.seq inferInstance fun root => ?_
  have hread := throws_liftExcept (w.slot_fatal root key)
  infer_instance

instance (addr : Address) : Throws Exn.Fatal (wsAccountHasStorage w addr) := by
  unfold wsAccountHasStorage
  infer_instance

instance (addr : Address) : Throws Exn.Fatal (recordPreStateRead addr) := by
  unfold recordPreStateRead
  infer_instance

instance (addr : Address) (key : Hash) : Throws Exn.Fatal (recordStorageRead addr key) := by
  unfold recordStorageRead
  infer_instance

instance (addr : Address) : Throws Exn.Fatal (getPreStateAccountOptional w addr) := by
  unfold getPreStateAccountOptional
  refine Throws.seq inferInstance fun _ => Throws.seq inferInstance fun s => ?_
  split <;> infer_instance

instance (addr : Address) : Throws Exn.Fatal (getAccountOptional w addr) := by
  unfold getAccountOptional
  refine Throws.seq inferInstance fun _ => Throws.seq inferInstance fun s => ?_
  split <;> infer_instance

instance (addr : Address) : Throws Exn.Fatal (getAccount w addr) := by
  unfold getAccount
  refine Throws.seq inferInstance fun r => ?_
  split <;> infer_instance

instance (addr : Address) : Throws Exn.Fatal (accountHasStorage w addr) := by
  unfold accountHasStorage
  infer_instance

instance (addr : Address) : Throws Exn.Fatal (accountDeployable w addr) := by
  unfold accountDeployable
  infer_instance

instance (addr : Address) (r : AcctRef) : Throws Exn.Fatal (setAccount addr r) := by
  unfold setAccount
  infer_instance

instance (addr : Address) : Throws Exn.Fatal (destroyStorage addr) := by
  unfold destroyStorage
  refine Throws.seq inferInstance fun s => ?_
  split
  · infer_instance
  · have hloop (keys : List Hash) :
        Throws Exn.Fatal (forM keys fun key => recordStorageRead addr key) :=
      Throws.forM _ _ inferInstance
    infer_instance

instance (addr : Address) : Throws Exn.Fatal (destroyAccount addr) := by
  unfold destroyAccount
  infer_instance

instance (addr : Address) (p : Nat) : Throws Exn.Fatal (modifyStateCommit addr p) := by
  unfold modifyStateCommit
  infer_instance

instance (addr : Address) (p : Nat) (f : Acct → Acct) : Throws Exn.Fatal (commitCopy addr p f) := by
  unfold commitCopy
  infer_instance

instance (addr : Address) : Throws Exn.Fatal (markAccountCreated addr) := by
  unfold markAccountCreated
  infer_instance

instance (addr : Address) : Throws Exn.Fatal (incrementNonce w addr) := by
  unfold incrementNonce
  infer_instance

instance (sender recipient : Address) (amount : U256) :
    Throws Exn.Fatal (moveEther w sender recipient amount) := by
  unfold moveEther
  infer_instance

instance (h : Hash) : Throws Exn.Fatal (wsGetCode w h) := by
  unfold wsGetCode
  split
  · infer_instance
  split
  · exact Throws.throw trivial
  · infer_instance

instance (h : Hash) (addr : Address) : Throws Exn.Fatal (getCode w h addr) := by
  unfold getCode
  split
  · infer_instance
  refine Throws.seq inferInstance fun s => ?_
  split
  · infer_instance
  refine Throws.seq inferInstance fun s' => ?_
  split <;> infer_instance

instance (h : Hash) (code : Bytes) : Throws Exn.Fatal (recordCode h code) := by
  unfold recordCode
  infer_instance

instance (addr : Address) (code : Bytes) : Throws Exn.Fatal (setCode w addr code) := by
  unfold setCode
  infer_instance

instance (addr : Address) : Throws Exn.Fatal (getPreStateAccount w addr) := by
  unfold getPreStateAccount
  refine Throws.seq inferInstance fun r => ?_
  split <;> infer_instance

instance (addr : Address) : Throws Exn.Fatal (accountExists w addr) := by
  unfold accountExists
  infer_instance

instance (addr : Address) : Throws Exn.Fatal (isAccountAlive w addr) := by
  unfold isAccountAlive
  refine Throws.seq inferInstance fun r => ?_
  split <;> infer_instance

end

end StatelessGuest
