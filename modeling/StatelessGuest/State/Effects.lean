import StatelessGuest.State.Writes
import Mathlib.Logic.Function.Basic

/-!
# What the writes do to the view

Each write that returns has one effect on the view of the state, whatever the layers and the
pointers behind it.

* `View.update`: an account is changed, and destroyed when that leaves it empty.
* `view_moveEther`, `view_setStorage`, ...: the effects of the writes.
-/

namespace StatelessGuest

open Lib Tracker

/-! ## Changes of a view -/

namespace View

def setAccount (v : View) (addr : Address) (a : Option Acct) : View :=
  { v with account := Function.update v.account addr (.ok a) }

/-- The transaction's writes to the slots of an address are forgotten. -/
def clearSlots (v : View) (addr : Address) : View :=
  { v with slot := Function.update v.slot addr (v.below addr) }

def setSlot (v : View) (addr : Address) (key : Hash) (value : U256) : View :=
  { v with slot := Function.update v.slot addr (Function.update (v.slot addr) key (.ok value)) }

def setTransient (v : View) (k : Address × Hash) (value : U256) : View :=
  { v with transient := Function.update v.transient k value }

def setCode (v : View) (h : Hash) (code : Bytes) : View :=
  { v with code := Function.update v.code h (.ok code) }

section

variable [Keccak]

/-- The record of an account, the empty one when there is none. -/
def acct (v : View) (addr : Address) : Acct := (v.account addr).toOption.join.getD emptyAcct

/-- An account gets a record, or is destroyed when the record is empty (EIP-161). -/
def commit (v : View) (addr : Address) (a : Acct) : View :=
  if acctIsEmpty a then (v.clearSlots addr).setAccount addr none else v.setAccount addr (some a)

def update (v : View) (addr : Address) (f : Acct → Acct) : View := v.commit addr (f (v.acct addr))

def moveEther (v : View) (sender recipient : Address) (amount : U256) : View :=
  (v.update sender fun a => { a with balance := a.balance - amount }).update recipient fun a =>
    { a with balance := a.balance + amount }

/-! ## Accounts of a changed view -/

variable {v : View} {addr : Address}

theorem acct_of_account {a : Acct} (h : v.account addr = .ok (some a)) : v.acct addr = a := by
  unfold acct
  rw [h]
  rfl

theorem acct_congr {v' : View} (h : v'.account addr = v.account addr) :
    v'.acct addr = v.acct addr := by
  unfold acct
  rw [h]

/-- An account whose record is not the empty one exists. -/
theorem account_of_acct (h : v.acct addr ≠ emptyAcct) : v.account addr = .ok (some (v.acct addr)) := by
  cases ha : v.account addr with
  | error e =>
    refine absurd ?_ h
    rw [acct, ha]
    rfl
  | ok a =>
    cases a with
    | none =>
      refine absurd ?_ h
      rw [acct, ha]
      rfl
    | some a => rw [acct_of_account ha]

theorem acct_setAccount (v : View) (addr : Address) (a : Acct) :
    (v.setAccount addr (some a)).acct addr = a :=
  acct_of_account (Function.update_self _ _ _)

/-- A record with code is not destroyed. -/
theorem commit_of_code {a : Acct} (h : a.codeHash ≠ emptyCodeHash) :
    v.commit addr a = v.setAccount addr (some a) := by
  have hempty : acctIsEmpty a = false := decide_eq_false fun hall => h hall.2.1
  rw [commit, hempty]
  rfl

/-- A record with a nonce is not destroyed. -/
theorem commit_of_nonce {a : Acct} (h : a.nonce ≠ 0) :
    v.commit addr a = v.setAccount addr (some a) := by
  have hempty : acctIsEmpty a = false := decide_eq_false fun hall => h hall.1
  rw [commit, hempty]
  rfl

theorem account_commit_of_ne {a : Address} {b : Acct} (h : a ≠ addr) :
    (v.commit addr b).account a = v.account a := by
  unfold commit
  split <;> exact Function.update_of_ne h _ _

/-- A destroyed account reads like the empty record it had. -/
theorem acct_commit (v : View) (addr : Address) (a : Acct) :
    ((v.commit addr a).acct addr).nonce = a.nonce ∧
      ((v.commit addr a).acct addr).balance = a.balance ∧
        ((v.commit addr a).acct addr).codeHash = a.codeHash := by
  unfold commit
  split
  · next hempty =>
    obtain ⟨hnonce, hcode, hbalance⟩ := of_decide_eq_true hempty
    have hnone : ((v.clearSlots addr).setAccount addr none).acct addr = emptyAcct := by
      have hget : ((v.clearSlots addr).setAccount addr none).account addr = .ok none :=
        Function.update_self _ _ _
      rw [acct, hget]
      rfl
    rw [hnone, hnonce, hcode, hbalance]
    exact ⟨rfl, rfl, rfl⟩
  · rw [acct_setAccount]
    exact ⟨rfl, rfl, rfl⟩

end

end View

/-! ## Accounts -/

variable {s s' : Tracker}

section

variable [Keccak] {w : Witness}

omit [Keccak] in
theorem account_of_get {addr : Address} {r : AcctRef} (h : s.ts.acctWrites.get addr = some r) :
    s.account w addr = .ok (r.map s.accts.load) := by
  rw [account, h]

omit [Keccak] in
theorem account_congr {addr : Address} (hts : s'.ts.acctWrites.get addr = s.ts.acctWrites.get addr)
    (haccts : s'.accts = s.accts) (hbs : s'.bs = s.bs) : s'.account w addr = s.account w addr := by
  unfold account accountBelow
  rw [hts, haccts, hbs]

omit [Keccak] in
theorem codeAt_of_get {c : Hash} {p : Nat} (h : s.ts.codeWrites.get c = some p) :
    s.codeAt w c = .ok (s.slices.load p) := by
  rw [codeAt, h]

omit [Keccak] in
theorem codeAt_of_none {c : Hash} (h : s.ts.codeWrites.get c = none) :
    s.codeAt w c = codeAt w { s with ts := default } c := by
  rw [codeAt, h]
  rfl

omit [Keccak] in
theorem codeAt_congr {c : Hash} (hts : s'.ts.codeWrites.get c = s.ts.codeWrites.get c)
    (hslices : s'.slices = s.slices) (hbs : s'.bs = s.bs) : s'.codeAt w c = s.codeAt w c := by
  unfold codeAt
  rw [hts, hslices, hbs]

theorem view_setAccount {addr : Address} {r : AcctRef} (h : setAccount addr r s = .ok () s') :
    s'.view w = (s.view w).setAccount addr (r.map s.accts.load) := by
  rw [setAccount, jset_run] at h
  split at h
  · cases h
  cases h
  unfold view View.setAccount
  congr 1
  funext a
  have hget : (s.ts.acctWrites.set addr r).get a = if a = addr then some r else
      s.ts.acctWrites.get a := OrdMap.get_set _ _ _ _
  rw [Function.update_apply]
  by_cases ha : a = addr
  · rw [if_pos ha] at hget ⊢
    exact account_of_get hget
  · rw [if_neg ha] at hget ⊢
    exact account_congr hget rfl rfl

/-- A read leaves the view alone. -/
theorem view_readOnly (hs : Sound s) (h : ReadOnly s s') : s'.view w = s.view w :=
  view_of_agree w hs h.ext h.agree

theorem slot_of_lookup {addr : Address} {key : Hash}
    (hlook : s'.storLookup s'.ts.storWrites addr key = s.storLookup s.ts.storWrites addr key)
    (hwords : s'.words = s.words) (hbelow : s'.slotBelow w addr key = s.slotBelow w addr key) :
    s'.slot w addr key = s.slot w addr key := by
  unfold slot
  rw [hlook, hwords, hbelow]

theorem slot_eq_below {addr : Address} (h : s.ts.storWrites.get addr = none) :
    s.slot w addr = s.slotBelow w addr := by
  funext key
  rw [slot, storLookup, h]

theorem view_destroyStorage {addr : Address} (hs : Sound s) (h : destroyStorage addr s = .ok () s') :
    s'.view w = (s.view w).clearSlots addr := by
  rw [destroyStorage, bind_run, get_run] at h
  dsimp only at h
  cases hold : s.ts.storWrites.get addr with
  | none =>
    rw [hold] at h
    cases h
    unfold view View.clearSlots
    congr 1
    exact (Function.update_eq_self_iff.mpr (slot_eq_below hold).symm).symm
  | some m =>
    rw [hold] at h
    dsimp only at h
    rw [bind_run, get_run] at h
    dsimp only at h
    obtain ⟨_, s₁, hreads, hdel⟩ := bind_ok.mp h
    have hro : ReadOnly s s₁ := Keeps.ok (x := forM (s.inners.load m).keys fun key =>
      recordStorageRead addr key) (Keeps.forM _ _ inferInstance) hreads
    rw [← view_readOnly hs hro]
    rw [jdel_run] at hdel
    have hsome : s₁.lookup .storWrites addr = some m := by
      rw [lookup, hro.table]
      exact hold
    rw [if_neg (by rw [hsome]; exact Option.some_ne_none m)] at hdel
    split at hdel
    · cases hdel
    cases hdel
    unfold view View.clearSlots
    congr 1
    funext a
    have hget : (s₁.ts.storWrites.del addr).get a = if a = addr then none else
        s₁.ts.storWrites.get a := OrdMap.get_del _ _ _
    rw [Function.update_apply]
    split
    · next ha =>
      rw [if_pos ha] at hget
      exact (slot_eq_below hget).trans (by rw [ha]; rfl)
    · next ha =>
      rw [if_neg ha] at hget
      funext key
      have hlook : (s₁.push .storWrites addr ((s₁.table .storWrites).del addr)).storLookup
          (s₁.ts.storWrites.del addr) a key = s₁.storLookup s₁.ts.storWrites a key := by
        unfold storLookup
        rw [hget]
        rfl
      exact slot_of_lookup hlook rfl rfl

theorem view_destroyAccount {addr : Address} (hs : Sound s) (h : destroyAccount addr s = .ok () s') :
    s'.view w = ((s.view w).clearSlots addr).setAccount addr none := by
  obtain ⟨_, s₁, hstor, hset⟩ := bind_ok.mp h
  rw [view_setAccount hset, view_destroyStorage hs hstor]
  rfl

omit [Keccak] in
theorem setAccount_clearSlots_setAccount (v : View) (addr : Address) (a b : Option Acct) :
    ((v.setAccount addr a).clearSlots addr).setAccount addr b =
      (v.clearSlots addr).setAccount addr b := by
  unfold View.setAccount View.clearSlots
  simp only [Function.update_idem]

theorem view_modifyStateCommit {addr : Address} {p : Nat} (hs : Sound s) (hp : s.accts.Valid p)
    (h : modifyStateCommit addr p s = .ok () s') :
    s'.view w = (s.view w).commit addr (s.accts.load p) := by
  obtain ⟨_, s₁, hset, h⟩ := bind_ok.mp h
  have hlay : Layered s (final (setAccount addr (some p) s)) :=
    layered_setAccount fun q hq => by cases hq; exact hp
  rw [hset, final_ok] at hlay
  obtain ⟨a, s₂, hload, h⟩ := bind_ok.mp h
  cases hload
  rw [hlay.kept.1.accts.load hp] at h
  unfold View.commit
  split at h
  · next hempty =>
    rw [if_pos hempty, view_destroyAccount (hlay.sound hs) h, view_setAccount hset,
      setAccount_clearSlots_setAccount]
  · next hempty =>
    cases h
    rw [if_neg hempty, view_setAccount hset]
    rfl

theorem view_commitCopy {addr : Address} {p : Nat} {f : Acct → Acct} (hs : Sound s)
    (h : commitCopy addr p f s = .ok () s') :
    s'.view w = (s.view w).commit addr (f (s.accts.load p)) := by
  rw [commitCopy_eq] at h
  change modifyStateCommit addr s.accts.next
    { s with accts := s.accts.alloc (f (s.accts.load p)) } = .ok () s' at h
  have hlay := layered_acctAlloc s (f (s.accts.load p))
  have halloc := view_of_agree w hs hlay.kept.1 fun t ht =>
    ⟨ht, by cases t <;> exact ht, fun k => by cases t <;> rfl⟩
  rw [view_modifyStateCommit (hlay.sound hs) (Arena.valid_alloc_self _ _) h,
    Arena.load_alloc_self, halloc]

/-- The record that is read, a fresh one when there is no account. -/
theorem getAccount_ok {addr : Address} {p : Nat} (h : getAccount w addr s = .ok p s') :
    ReadOnly s s' ∧ s'.accts.load p = (s.view w).acct addr ∧
      ∃ a, s.account w addr = .ok a := by
  have hres := result_getAccount w addr s
  rw [bind_run_ok h] at hres
  have hro : ReadOnly s s' := Keeps.ok (x := getAccount w addr) inferInstance h
  unfold View.acct
  change Except.ok (s'.accts.load p) = _ at hres
  change _ ∧ _ = (s.account w addr).toOption.join.getD emptyAcct ∧ _
  cases ha : s.account w addr with
  | error e =>
    rw [ha] at hres
    cases hres
  | ok a =>
    rw [ha] at hres
    exact ⟨hro, Except.ok.inj hres, a, rfl⟩

theorem view_update {addr : Address} {f : Acct → Acct} (hs : Sound s)
    (h : (getAccount w addr >>= fun a => commitCopy addr a f) s = .ok () s') :
    s'.view w = (s.view w).update addr f := by
  obtain ⟨p, s₁, hget, hcommit⟩ := bind_ok.mp h
  obtain ⟨hro, hload, -⟩ := getAccount_ok hget
  have hs₁ : Sound s₁ := hs.of_agree hro.ext hro.agree
  rw [view_commitCopy hs₁ hcommit, hload, view_readOnly hs hro]
  rfl

theorem view_moveEther {sender recipient : Address} {amount : U256} (hs : Sound s)
    (h : moveEther w sender recipient amount s = .ok () s') :
    amount ≤ ((s.view w).acct sender).balance ∧
      s'.view w = (s.view w).moveEther sender recipient amount := by
  obtain ⟨p, s₁, hget, h⟩ := bind_ok.mp h
  obtain ⟨hro, hload, -⟩ := getAccount_ok hget
  have hs₁ : Sound s₁ := hs.of_agree hro.ext hro.agree
  obtain ⟨a, s₂, hld, h⟩ := bind_ok.mp h
  cases hld
  rw [hload] at h
  split at h
  · cases h
  next hle =>
  obtain ⟨_, s₃, hcommit, hrecipient⟩ := bind_ok.mp h
  have hs₃ : Sound s₃ := (Keeps.ok (R := Layered) inferInstance hcommit).sound hs₁
  refine ⟨BitVec.not_lt.mp hle, ?_⟩
  rw [view_update hs₃ hrecipient, view_commitCopy hs₁ hcommit, hload, view_readOnly hs hro]
  rfl

/-! ## Slots and code -/

/-- A slot that the transaction has not written is the one below. -/
theorem slot_of_none {addr : Address} {key : Hash}
    (h : s.storLookup s.ts.storWrites addr key = none) : s.slot w addr key = s.slotBelow w addr key := by
  rw [slot, h]

theorem slot_of_some {addr : Address} {key : Hash} {p : Nat}
    (h : s.storLookup s.ts.storWrites addr key = some p) :
    s.slot w addr key = .ok (s.words.load p) := by
  rw [slot, h]

/-- No operation changes what is below the transaction's writes. -/
theorem Layered.slotBelow (h : Layered s s') (hs : Sound s) (addr : Address) (key : Hash) :
    s'.slotBelow w addr key = s.slotBelow w addr key := by
  have hlook : s'.storLookup s'.bs.storWrites addr key = s.storLookup s.bs.storWrites addr key := by
    rw [h.kept.1.bs_storWrites]
    unfold storLookup
    split
    · rfl
    · next m hm => rw [h.below hs addr m hm]
  unfold Tracker.slotBelow
  rw [hlook]
  split
  · next p hp => rw [h.kept.1.words.load (hs.blockWords addr key p hp)]
  · rfl

theorem slot_of_storLookup (h : Layered s s') (hs : Sound s) {addr : Address} {key : Hash}
    (hlook : s'.storLookup s'.ts.storWrites addr key = s.storLookup s.ts.storWrites addr key) :
    s'.slot w addr key = s.slot w addr key := by
  cases hp : s.storLookup s.ts.storWrites addr key with
  | none =>
    rw [hp] at hlook
    rw [slot_of_none hlook, slot_of_none hp, h.slotBelow hs]
  | some p =>
    rw [hp] at hlook
    rw [slot_of_some hlook, slot_of_some hp, h.kept.1.words.load (hs.word_valid hp)]

/-- A slot of the transaction stays when its table does. -/
theorem slot_congr (h : Layered s s') (hs : Sound s) {addr : Address}
    (hget : s'.ts.storWrites.get addr = s.ts.storWrites.get addr)
    (hload : ∀ m, s.ts.storWrites.get addr = some m → s'.inners.load m = s.inners.load m)
    (key : Hash) : s'.slot w addr key = s.slot w addr key := by
  refine slot_of_storLookup h hs ?_
  unfold storLookup
  rw [hget]
  split
  · rfl
  · next m hm => rw [hload m hm]

/-- Binding an address to a fresh slot table changes no slot. -/
theorem view_storInner {addr : Address} {p : Nat} (hs : Sound s)
    (h : storInner addr s = .ok p s') : s'.view w = s.view w := by
  have hlay : Layered s (final (storInner addr s)) := (layered_storInner addr s).1
  rw [h, final_ok] at hlay
  rw [storInner, bind_run, get_run] at h
  dsimp only at h
  cases hold : s.ts.storWrites.get addr with
  | some m =>
    rw [hold] at h
    cases h
    rfl
  | none =>
    rw [hold] at h
    change (jset .storWrites addr s.inners.next >>= fun _ => pure s.inners.next)
      { s with inners := s.inners.alloc .empty } = .ok p s' at h
    obtain ⟨_, s₁, hset, hret⟩ := bind_ok.mp h
    cases hret
    rw [jset_run] at hset
    split at hset
    · cases hset
    cases hset
    unfold view
    congr 1
    · funext a key
      have hget : (s.ts.storWrites.set addr s.inners.next).get a =
          if a = addr then some s.inners.next else s.ts.storWrites.get a := OrdMap.get_set _ _ _ _
      by_cases ha : a = addr
      · subst ha
        rw [if_pos rfl] at hget
        have hnone : (s.inners.alloc .empty).load s.inners.next = .empty := Arena.load_alloc_self _ _
        rw [slot_of_none, hlay.slotBelow hs, slot_eq_below hold]
        refine (storLookup_of_get hget key).trans ?_
        change ((s.inners.alloc .empty).load s.inners.next).get key = none
        rw [hnone]
        rfl
      · rw [if_neg ha] at hget
        exact slot_congr hlay hs hget (fun m hm =>
          Arena.load_alloc_of_valid (hs.storInner_valid a m hm) _) key
    · funext a key
      exact hlay.slotBelow hs a key

theorem view_jset_inner {addr : Address} {p v : Nat} {key : Hash} (hs : Sound s)
    (hp : s.ts.storWrites.get addr = some p) (hv : s.words.Valid v)
    (h : jset (.inner p) key v s = .ok () s') :
    s'.view w = (s.view w).setSlot addr key (s.words.load v) := by
  have hlay : Layered s (final (jset (.inner p) key v s)) := layered_jset_inner hs hp hv
  rw [h, final_ok] at hlay
  rw [jset_run] at h
  split at h
  · cases h
  cases h
  unfold view View.setSlot
  congr 1
  · funext a k
    rw [Function.update_apply]
    by_cases ha : a = addr
    · subst ha
      rw [if_pos rfl, Function.update_apply]
      have hget : ((s.inners.store p ((s.inners.load p).set key v)).load p).get k =
          if k = key then some v else (s.inners.load p).get k := by
        rw [Arena.load_store_self (hs.storInner_valid a p hp)]
        exact OrdMap.get_set _ _ _ _
      have hlook : (s.push (.inner p) key ((s.table (.inner p)).set key v)).storLookup
          s.ts.storWrites a k = if k = key then some v else (s.inners.load p).get k := by
        rw [storLookup_of_get hp]
        exact hget
      have hold : s.storLookup s.ts.storWrites a k = (s.inners.load p).get k :=
        storLookup_of_get hp k
      by_cases hk : k = key
      · rw [if_pos hk] at hlook ⊢
        exact slot_of_some hlook
      · rw [if_neg hk, ← hold] at hlook
        rw [if_neg hk]
        exact slot_of_storLookup hlay hs hlook
    · rw [if_neg ha]
      refine slot_congr hlay hs rfl (fun m hm => ?_) k
      refine Arena.load_store_of_ne ?_ _
      rintro rfl
      exact ha (hs.inj a addr m hm hp)
  · funext a k
    exact hlay.slotBelow hs a k

/-- An allocation leaves the view alone. -/
theorem view_wordAlloc (hs : Sound s) (v : U256) :
    ({ s with words := s.words.alloc v } : Tracker).view w = s.view w :=
  view_of_agree w hs (kept_wordAlloc s v).1 fun t ht =>
    ⟨ht, by cases t <;> exact ht, fun k => by cases t <;> rfl⟩

theorem view_setStorage {addr : Address} {key : Hash} {value : U256} (hs : Sound s)
    (h : setStorage w addr key value s = .ok () s') :
    (∃ a, s.account w addr = .ok (some a)) ∧ s'.view w = (s.view w).setSlot addr key value := by
  obtain ⟨r, s₁, hget, h⟩ := bind_ok.mp h
  have hro : ReadOnly s s₁ := Keeps.ok (x := getAccountOptional w addr) inferInstance hget
  have hs₁ : Sound s₁ := hs.of_agree hro.ext hro.agree
  have hans := answers_getAccountOptional w addr s
  rw [hget] at hans
  cases r with
  | none => cases h
  | some q =>
    refine ⟨⟨_, hans⟩, ?_⟩
    obtain ⟨p, s₂, hinner, h⟩ := bind_ok.mp h
    have hlay : Layered s₁ (final (storInner addr s₁)) := (layered_storInner addr s₁).1
    rw [hinner, final_ok] at hlay
    have hlook := ((storInner_spec addr s₁).2 p s₂ hinner).1
    have hs₂ := hlay.sound hs₁
    have hs₃ := (layered_wordAlloc s₂ value).sound hs₂
    have hset := view_jset_inner (w := w) hs₃ hlook (Arena.valid_alloc_self _ _) h
    rw [Arena.load_alloc_self, view_wordAlloc hs₂, view_storInner hs₁ hinner,
      view_readOnly hs hro] at hset
    exact hset

/-- A journaled write of a transient slot. -/
theorem view_jset_transient {k : Address × Hash} {v : Nat} (h : jset .transient k v s = .ok () s') :
    s'.view w = (s.view w).setTransient k (s.words.load v) := by
  rw [jset_run] at h
  split at h
  · cases h
  cases h
  unfold view View.setTransient
  congr 1
  funext k'
  have hget : (s.ts.transient.set k v).get k' = if k' = k then some v else s.ts.transient.get k' :=
    OrdMap.get_set _ _ _ _
  rw [Function.update_apply]
  unfold transientAt
  change ((((s.ts.transient.set k v).get k').map s.words.load).getD 0) = _
  rw [hget]
  split <;> rfl

theorem view_jdel_transient {k : Address × Hash} (h : jdel .transient k s = .ok () s') :
    s'.view w = (s.view w).setTransient k 0 := by
  rw [jdel_run] at h
  unfold view View.setTransient
  split at h
  · next hnone =>
    cases h
    congr 1
    refine (Function.update_eq_self_iff.mpr ?_).symm
    unfold transientAt
    rw [show s.ts.transient.get k = none from hnone]
    rfl
  split at h
  · cases h
  cases h
  congr 1
  funext k'
  have hget : (s.ts.transient.del k).get k' = if k' = k then none else s.ts.transient.get k' :=
    OrdMap.get_del _ _ _
  rw [Function.update_apply]
  unfold transientAt
  change ((((s.ts.transient.del k).get k').map s.words.load).getD 0) = _
  rw [hget]
  split <;> rfl

theorem view_setTransientStorage {addr : Address} {key : Hash} {value : U256} (hs : Sound s)
    (h : setTransientStorage addr key value s = .ok () s') :
    s'.view w = (s.view w).setTransient (addr, key) value := by
  unfold setTransientStorage at h
  split at h
  · next hz =>
    rw [hz]
    exact view_jdel_transient h
  · change jset .transient (addr, key) s.words.next { s with words := s.words.alloc value } =
      .ok () s' at h
    rw [view_jset_transient h, Arena.load_alloc_self, view_wordAlloc hs]

theorem view_recordCode {c : Hash} {code : Bytes} (hs : Sound s)
    (h : recordCode c code s = .ok () s') : s'.view w = (s.view w).setCode c code := by
  have halloc := view_of_agree w hs (kept_sliceAlloc s code).1 fun t ht =>
    ⟨ht, by cases t <;> exact ht, fun k => by cases t <;> rfl⟩
  change jset .codeWrites c s.slices.next { s with slices := s.slices.alloc code } = .ok () s' at h
  rw [jset_run] at h
  split at h
  · cases h
  cases h
  rw [← halloc]
  unfold view View.setCode
  congr 1
  funext c'
  have hget : (s.ts.codeWrites.set c s.slices.next).get c' =
      if c' = c then some s.slices.next else s.ts.codeWrites.get c' := OrdMap.get_set _ _ _ _
  rw [Function.update_apply]
  by_cases hc : c' = c
  · rw [if_pos hc] at hget ⊢
    exact (codeAt_of_get hget).trans (congrArg Except.ok (Arena.load_alloc_self s.slices code))
  · rw [if_neg hc] at hget ⊢
    exact codeAt_congr hget rfl rfl

/-- The effect of a write. -/
def Write.effect : Write → View → View
  | .update addr f, v => v.update addr f
  | .moveEther sender recipient amount, v => v.moveEther sender recipient amount
  | .setStorage addr key value, v => v.setSlot addr key value
  | .destroyStorage addr, v => v.clearSlots addr
  | .setTransientStorage addr key value, v => v.setTransient (addr, key) value
  | .recordCode h code, v => v.setCode h code
  | .markAccountCreated _, v => v

/-- A write that returns has its effect on the view, and no other. -/
theorem view_write {x : Write} (hs : Sound s) (h : x.run w s = .ok () s') :
    s'.view w = x.effect (s.view w) := by
  cases x with
  | update addr f => exact view_update hs h
  | moveEther sender recipient amount => exact (view_moveEther hs h).2
  | setStorage addr key value => exact (view_setStorage hs h).2
  | destroyStorage addr => exact view_destroyStorage hs h
  | setTransientStorage addr key value => exact view_setTransientStorage hs h
  | recordCode c code => exact view_recordCode hs h
  | markAccountCreated addr =>
    cases h
    rfl

end

end StatelessGuest
