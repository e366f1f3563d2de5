import StatelessGuest.Evm.Conservation
import StatelessGuest.Evm.Requests

/-!
# Authorizations

The authorizations of a transaction are applied one after the other. Each that is accepted gives
its authority the code of its delegation and one more nonce, and is charged for what is written
for the first time.

* `Accepted`: an accepted authorization with what it was charged.
* `chargedLoop`: the loop over the authorizations, which yields those accepted.
* `settled_chargedLoop`: what the accounts have and what was paid after it.
-/

namespace StatelessGuest

open Lib Tracker

/-! ## Accepted authorizations -/

/-- The code that an authorization gives its authority. -/
def Auth.code (auth : Auth) : Bytes := if auth.addr = 0 then [] else delegationCode auth.addr

/-- An accepted authorization, its authority and the three amounts it was charged. -/
structure Accepted where
  auth : Auth
  authority : Address
  newAccount : Word
  write : Word
  base : Word

namespace Accepted

/-- The accepted authorizations of an authority, in order. -/
def of (a : Address) (l : List Accepted) : List Accepted := l.filter fun e => e.authority = a

/-- What the authorizations of an authority were charged of one kind, where that was not zero. -/
def paid (f : Accepted → Word) (a : Address) (l : List Accepted) : List Word :=
  ((of a l).map f).filter fun x => x ≠ 0

theorem of_cons_self {e : Accepted} {a : Address} (h : e.authority = a) (l : List Accepted) :
    of a (e :: l) = e :: of a l :=
  List.filter_cons_of_pos (decide_eq_true h)

theorem of_cons_of_ne {e : Accepted} {a : Address} (h : e.authority ≠ a) (l : List Accepted) :
    of a (e :: l) = of a l :=
  List.filter_cons_of_neg fun hdec => h (of_decide_eq_true hdec)

variable {f : Accepted → Word} {e : Accepted} {a : Address}

theorem paid_cons_of_ne (h : e.authority ≠ a) (l : List Accepted) :
    paid f a (e :: l) = paid f a l := by
  rw [paid, of_cons_of_ne h]
  rfl

theorem paid_cons_zero (h : f e = 0) (l : List Accepted) : paid f a (e :: l) = paid f a l := by
  by_cases ha : e.authority = a
  · rw [paid, of_cons_self ha, List.map_cons, List.filter_cons_of_neg (by simp [h])]
    rfl
  · exact paid_cons_of_ne ha l

theorem paid_cons_pos (ha : e.authority = a) (h : f e ≠ 0) (l : List Accepted) :
    paid f a (e :: l) = f e :: paid f a l := by
  rw [paid, of_cons_self ha, List.map_cons, List.filter_cons_of_pos (by simpa using h)]
  rfl

end Accepted

section

variable [Keccak] (w : Witness)

/-- `applyAuthorization`, with what it charges. -/
def applyCharged (d : Delegating) (auth : Auth) (authority : Address) :
    EvmM (Delegating × Accepted) := do
  let ex ← liftState (accountExists w authority)
  chargeStateGas (if ex then 0 else sgNewAccount)
  let write := if d.written.has authority then 0 else gAccountWrite
  let d ← chargeAccountWrite d authority
  let before ← liftState (delegatedBefore w authority)
  let base := if auth.addr = 0 then 0 else authBaseGas before (d.setFor.has authority)
  let d ← writeDelegation w d auth authority before
  liftState (incrementNonce w authority)
  return (d, ⟨auth, authority, if ex then 0 else sgNewAccount, write, base⟩)

/-- `setDelegationLoop`, with the authorizations it accepts. -/
def chargedLoop [Crypto] : List Auth → Delegating → EvmM (List Accepted)
  | [], _ => return []
  | auth :: rest, d => do
    match ← authorityOf w auth with
    | none => chargedLoop rest d
    | some authority => do
      let applied ← applyCharged w d auth authority
      let later ← chargedLoop rest applied.1
      return applied.2 :: later

theorem applyCharged_fst (d : Delegating) (auth : Auth) (authority : Address) :
    (do return (← applyCharged w d auth authority).1 : EvmM Delegating) =
      applyAuthorization w d auth authority := by
  unfold applyCharged applyAuthorization
  simp only [bind_assoc, pure_bind]

/-- The loop yields the authorizations that `setDelegationLoop` accepts, and does the same. -/
theorem chargedLoop_erase [Crypto] (auths : List Auth) (d : Delegating) :
    (do let _ ← chargedLoop w auths d; return () : EvmM Unit) = setDelegationLoop w auths d := by
  induction auths generalizing d with
  | nil => rfl
  | cons auth rest ih =>
    unfold chargedLoop setDelegationLoop
    rw [bind_assoc]
    refine bind_congr fun authority => ?_
    cases authority with
    | none => exact ih d
    | some authority =>
      dsimp only
      rw [← applyCharged_fst]
      simp only [bind_assoc, pure_bind]
      exact bind_congr fun applied => ih applied.1

/-! ## One authorization -/

variable {w} {s s' : Tracker} {c c' : Ctx}

/-- The view once an authorization is applied. -/
def View.delegate (v : View) (authority : Address) (code : Bytes) : View :=
  ((if keccak256 code ≠ emptyCodeHash then v.setCode (keccak256 code) code else v).update authority
    fun a => { a with codeHash := keccak256 code }).update authority fun a =>
      { a with nonce := a.nonce + 1 }

theorem view_setCode {addr : Address} {code : Bytes} (hs : Sound s)
    (h : setCode w addr code s = .ok () s') :
    s'.view w = (if keccak256 code ≠ emptyCodeHash then (s.view w).setCode (keccak256 code) code
      else s.view w).update addr fun a => { a with codeHash := keccak256 code } := by
  unfold setCode at h
  dsimp only at h
  split at h
  · next hne =>
    obtain ⟨_, s₁, hrecord, h⟩ := bind_ok.mp h
    have hs₁ : Sound s₁ := (Keeps.ok (R := Layered) inferInstance hrecord).sound hs
    rw [view_update hs₁ h, view_recordCode hs hrecord, if_pos hne]
  · next heq =>
    rw [view_update hs h, if_neg heq]

/-- What is read of the authority, and of the others, when it is not destroyed in the end. -/
theorem View.delegate_acct (v : View) (authority : Address) (code : Bytes) :
    ((v.delegate authority code).acct authority).nonce = (v.acct authority).nonce + 1 ∧
      ((v.delegate authority code).acct authority).codeHash = keccak256 code := by
  have hcode : ∀ u : View, u.account = v.account →
      ((u.update authority fun a => { a with codeHash := keccak256 code }).acct authority).nonce =
        (v.acct authority).nonce ∧ ((u.update authority fun a =>
          { a with codeHash := keccak256 code }).acct authority).codeHash = keccak256 code := by
    intro u hu
    obtain ⟨hnonce, -, hhash⟩ :=
      acct_commit u authority { u.acct authority with codeHash := keccak256 code }
    refine ⟨hnonce.trans ?_, hhash⟩
    change (u.acct authority).nonce = _
    rw [acct_congr (congrFun hu authority)]
  unfold View.delegate
  generalize hmid : (View.update (if keccak256 code ≠ emptyCodeHash then
    v.setCode (keccak256 code) code else v) authority fun a =>
      { a with codeHash := keccak256 code }) = u
  have hu : (u.acct authority).nonce = (v.acct authority).nonce ∧
      (u.acct authority).codeHash = keccak256 code := by
    rw [← hmid]
    split
    · exact hcode _ rfl
    · exact hcode _ rfl
  obtain ⟨hnonce, -, hhash⟩ :=
    acct_commit u authority { u.acct authority with nonce := (u.acct authority).nonce + 1 }
  exact ⟨hnonce.trans (congrArg (· + 1) hu.1), hhash.trans hu.2⟩

theorem View.delegate_account_of_ne (v : View) {authority a : Address} (code : Bytes)
    (h : a ≠ authority) : (v.delegate authority code).account a = v.account a := by
  have hcode : (if keccak256 code ≠ emptyCodeHash then v.setCode (keccak256 code) code
      else v).account a = v.account a := by
    split <;> rfl
  unfold View.delegate View.update
  rw [account_commit_of_ne h, account_commit_of_ne h, hcode]

/-- An authority exists once its nonce has been counted up. -/
theorem View.delegate_exists (v : View) (authority : Address) (code : Bytes)
    (h : (v.acct authority).nonce + 1 ≠ 0) :
    ∃ a, (v.delegate authority code).account authority = .ok (some a) := by
  refine ⟨_, account_of_acct fun hempty => h ?_⟩
  rw [← (v.delegate_acct authority code).1, hempty]
  rfl

theorem View.delegate_code (v : View) (authority : Address) (code : Bytes) (h : Hash) :
    (v.delegate authority code).code h =
      if h = keccak256 code ∧ keccak256 code ≠ emptyCodeHash then .ok code else v.code h := by
  have hcommit : ∀ (u : View) (a : Address) (b : Acct), (u.commit a b).code = u.code := by
    intro u a b
    unfold View.commit
    split <;> rfl
  unfold View.delegate View.update
  rw [hcommit, hcommit]
  by_cases hne : keccak256 code ≠ emptyCodeHash
  · rw [if_pos hne]
    unfold View.setCode
    dsimp only
    rw [Function.update_apply]
    by_cases hh : h = keccak256 code
    · rw [if_pos hh, if_pos ⟨hh, hne⟩]
    · rw [if_neg hh, if_neg fun hand => hh hand.1]
  · rw [if_neg hne, if_neg fun hand => hne hand.2]

/-! ## Delegated before the transaction -/

/-- The account of the block state has the code of a delegation. -/
def Tracker.DelegatedBefore (w : Witness) (s : Tracker) (addr : Address) : Prop :=
  ∃ r code, s.accountBelow w addr = .ok r ∧ (r.getD emptyAcct).codeHash ≠ emptyCodeHash ∧
    s.codeAt w (r.getD emptyAcct).codeHash = .ok code ∧ isValidDelegation code = true

omit [Keccak] in
theorem accountBelow_of_ext (hs : Sound s) (hx : Ext s s') (addr : Address) :
    s'.accountBelow w addr = s.accountBelow w addr := by
  unfold accountBelow
  rw [hx.bs_acctWrites]
  cases hr : s.bs.acctWrites.get addr with
  | none => rfl
  | some r =>
    cases r with
    | none => rfl
    | some p => exact congrArg (fun a => Except.ok (some a)) (hx.accts.load (hs.blockAccts addr p hr))

theorem getPreStateAccount_ok {addr : Address} {p : Nat}
    (h : getPreStateAccount w addr s = .ok p s') :
    ReadOnly s s' ∧ ∃ r, s.accountBelow w addr = .ok r ∧ s'.accts.load p = r.getD emptyAcct := by
  have hro : ReadOnly s s' := Keeps.ok (x := getPreStateAccount w addr) inferInstance h
  obtain ⟨r, s₁, hget, hrest⟩ := bind_ok.mp h
  have hans := answers_getPreStateAccountOptional w addr s
  rw [hget] at hans
  refine ⟨hro, _, hans, ?_⟩
  cases r with
  | some q =>
    cases hrest
    rfl
  | none =>
    cases hrest
    exact Arena.load_alloc_self s₁.accts emptyAcct

/-- It still has when the codes of delegations are still there. -/
theorem Tracker.DelegatedBefore.mono {addr : Address} (h : s.DelegatedBefore w addr) (hs : Sound s)
    (hx : Ext s s') (hcode : ∀ k code, k ≠ emptyCodeHash → s.codeAt w k = .ok code →
      isValidDelegation code = true →
      ∃ code', s'.codeAt w k = .ok code' ∧ isValidDelegation code' = true) :
    s'.DelegatedBefore w addr := by
  obtain ⟨r, code, hr, hne, hget, hvalid⟩ := h
  obtain ⟨code', hget', hvalid'⟩ := hcode _ code hne hget hvalid
  exact ⟨r, code', (accountBelow_of_ext hs hx addr).trans hr, hne, hget', hvalid'⟩

theorem delegatedBefore_ok {addr : Address} {before : Bool} (hs : Sound s)
    (h : delegatedBefore w addr s = .ok before s') (hb : s.DelegatedBefore w addr) :
    before = true := by
  obtain ⟨r, code, hr, hne, hcode, hvalid⟩ := hb
  obtain ⟨p, s₁, hget, h⟩ := bind_ok.mp h
  obtain ⟨hro, r', hr', hload⟩ := getPreStateAccount_ok hget
  rw [hr] at hr'
  cases hr'
  obtain ⟨pre, s₂, hld, h⟩ := bind_ok.mp h
  cases hld
  obtain ⟨code', s₃, hgot, h⟩ := bind_ok.mp h
  cases h
  have hres := result_getCode w (r.getD emptyAcct).codeHash addr s₁
  rw [← hload, hgot, hload, if_neg hne, codeAt_of_agree w hs hro.ext hro.agree, hcode] at hres
  cases hres
  exact hvalid

/-! ## One authorization applied -/

/-- What applying an authorization does to the state and to the books, and what it charges. -/
structure Applied (w : Witness) (d : Delegating) (c : Ctx) (d' : Delegating) (e : Accepted)
    (c' : Ctx) : Prop where
  layered : Layered c.tk c'.tk
  view : c'.tk.view w = (c.tk.view w).delegate e.authority e.auth.code
  newAccount : ∃ r, c.tk.account w e.authority = .ok r ∧
    e.newAccount = if r.isSome then 0 else sgNewAccount
  write : e.write = if d.written.has e.authority then 0 else gAccountWrite
  base : e.base = 0 ∨ (e.base = sgAuthBase ∧ d.setFor.has e.authority = false ∧
    ¬c.tk.DelegatedBefore w e.authority ∧ e.auth.addr ≠ 0)
  written : ∀ a, d'.written.has a = (decide (a = e.authority) || d.written.has a)
  setFor : ∀ a, d'.setFor.has a =
    (decide (a = e.authority ∧ e.auth.addr ≠ 0) || d.setFor.has a)

omit [Keccak] in
theorem chargeAccountWrite_ok {d d' : Delegating} {authority : Address}
    (h : chargeAccountWrite d authority c = .ok d' c') :
    c'.tk = c.tk ∧ d'.setFor = d.setFor ∧
      ∀ a, d'.written.has a = (decide (a = authority) || d.written.has a) := by
  unfold chargeAccountWrite at h
  split at h
  · next hhas =>
    cases h
    refine ⟨rfl, rfl, fun a => ?_⟩
    by_cases ha : a = authority
    · rw [ha, hhas, Bool.or_true]
    · rw [decide_eq_false ha, Bool.false_or]
  · obtain ⟨_, c₁, hcharge, h⟩ := bind_ok.mp h
    cases h
    rw [chargeGas_run] at hcharge
    split at hcharge
    · cases hcharge
    · cases hcharge
      exact ⟨rfl, rfl, fun a => OrdMap.has_set _ _ _ _⟩

omit [Keccak] in
theorem chargeStateGas_tk {amount : Word} (h : chargeStateGas amount c = .ok () c') :
    c'.tk = c.tk := by
  rw [chargeStateGas_run] at h
  split at h
  · cases h
    rfl
  · split at h <;> cases h
    rfl

/-- The code of the authority is written, and the books of those delegated are kept. -/
theorem writeDelegation_ok {d d' : Delegating} {auth : Auth} {authority : Address} {before : Bool}
    (h : writeDelegation w d auth authority before c = .ok d' c') :
    (∃ s, setCode w authority auth.code c.tk = .ok () s ∧ c'.tk = s) ∧ d'.written = d.written ∧
      ∀ a, d'.setFor.has a = (decide (a = authority ∧ auth.addr ≠ 0) || d.setFor.has a) := by
  unfold writeDelegation at h
  unfold Auth.code
  split at h
  · next hnull =>
    obtain ⟨_, c₁, hset, h⟩ := bind_ok.mp h
    obtain ⟨s, hs, rfl⟩ := of_liftState_ok hset
    cases h
    rw [if_pos hnull]
    refine ⟨⟨s, hs, rfl⟩, rfl, fun a => ?_⟩
    rw [decide_eq_false fun hand => hand.2 hnull, Bool.false_or]
  · next hcode =>
    obtain ⟨_, c₁, hcharge, h⟩ := bind_ok.mp h
    obtain ⟨_, c₂, hset, h⟩ := bind_ok.mp h
    obtain ⟨s, hs, rfl⟩ := of_liftState_ok hset
    cases h
    rw [chargeStateGas_tk hcharge] at hs
    rw [if_neg hcode]
    refine ⟨⟨s, hs, rfl⟩, rfl, fun a => ?_⟩
    rw [OrdMap.has_set, decide_eq_decide.mpr (show a = authority ↔ a = authority ∧ auth.addr ≠ 0 from
      ⟨fun ha => ⟨ha, hcode⟩, fun hand => hand.1⟩)]

theorem applyCharged_ok {d : Delegating} {auth : Auth} {authority : Address}
    {r : Delegating × Accepted} (hs : Sound c.tk)
    (h : applyCharged w d auth authority c = .ok r c') :
    r.2.auth = auth ∧ r.2.authority = authority ∧ Applied w d c r.1 r.2 c' := by
  obtain ⟨ex, c₁, hlift₁, h⟩ := bind_ok.mp h
  obtain ⟨s₁, hex, rfl⟩ := of_liftState_ok hlift₁
  obtain ⟨_, c₂, hnew, h⟩ := bind_ok.mp h
  have htk₂ := chargeStateGas_tk hnew
  obtain ⟨d₁, c₃, hwrite, h⟩ := bind_ok.mp h
  obtain ⟨htk₃, hfor₁, hwritten₁⟩ := chargeAccountWrite_ok hwrite
  obtain ⟨before, c₄, hlift₄, h⟩ := bind_ok.mp h
  obtain ⟨s₄, hbefore, rfl⟩ := of_liftState_ok hlift₄
  obtain ⟨d₂, c₅, hcode, h⟩ := bind_ok.mp h
  obtain ⟨⟨s₅, hset, htk₅⟩, hwritten₂, hfor₂⟩ := writeDelegation_ok hcode
  obtain ⟨_, c₆, hlift₆, h⟩ := bind_ok.mp h
  obtain ⟨s₆, hnonce, rfl⟩ := of_liftState_ok hlift₆
  cases h
  -- up to the code only reads have happened
  have hro₁ : ReadOnly c.tk s₁ := Keeps.ok (x := accountExists w authority) inferInstance hex
  have hs₁ : Sound s₁ := hs.of_agree hro₁.ext hro₁.agree
  rw [htk₃, htk₂] at hbefore
  have hro₄ : ReadOnly s₁ s₄ := Keeps.ok (x := delegatedBefore w authority) inferInstance hbefore
  have hs₄ : Sound s₄ := hs₁.of_agree hro₄.ext hro₄.agree
  have hlay₅ : Layered s₄ s₅ := Keeps.ok (keeps_setCode (R := Layered) (w := w) _ _) hset
  rw [htk₅] at hnonce
  have hlay₆ : Layered s₅ s₆ := Keeps.ok (keeps_incrementNonce (R := Layered) (w := w) _) hnonce
  have hexists := result_accountExists w authority c.tk
  rw [hex] at hexists
  have hbook : c.tk.DelegatedBefore w authority → before = true := by
    intro hdel
    refine delegatedBefore_ok hs₁ hbefore (hdel.mono hs hro₁.ext fun k code _ hget hvalid => ?_)
    exact ⟨code, (codeAt_of_agree w hs hro₁.ext hro₁.agree k).trans hget, hvalid⟩
  refine ⟨rfl, rfl, ?_, ?_, ?_, rfl, ?_, fun a => ?_, fun a => ?_⟩
  · have hread : Layered c.tk s₄ := .trans (Reading.readOnly hro₁) (Reading.readOnly hro₄)
    exact hread.trans (hlay₅.trans hlay₆)
  · change s₆.view w = _
    rw [view_update (hlay₅.sound hs₄) hnonce, view_setCode hs₄ hset, view_readOnly hs₁ hro₄,
      view_readOnly hs hro₁]
    rfl
  · change ∃ r, c.tk.account w authority = .ok r ∧ _
    cases hr : c.tk.account w authority with
    | error e =>
      rw [hr] at hexists
      cases hexists
    | ok r =>
      rw [hr] at hexists
      cases hexists
      exact ⟨r, rfl, rfl⟩
  · dsimp only
    rw [hfor₁]
    by_cases hnull : auth.addr = 0
    · exact .inl (if_pos hnull)
    rw [if_neg hnull]
    unfold authBaseGas
    split
    · next hpays =>
      refine .inr ⟨rfl, ?_, fun hdel => ?_, hnull⟩
      · exact Bool.not_eq_true' _ ▸ hpays.2
      · rw [hbook hdel] at hpays
        cases hpays.1
    · exact .inl rfl
  · change d₂.written.has a = _
    rw [hwritten₂, hwritten₁]
  · change d₂.setFor.has a = _
    rw [hfor₂, hfor₁]

/-! ## The authority of an authorization -/

section

variable [Crypto]

/-- The checks of an authorization only read. -/
theorem authorityOf_readOnly {auth : Auth} {r : Option Address}
    (h : authorityOf w auth c = .ok r c') : ReadOnly c.tk c'.tk := by
  have hkeep : Keeps (OnTracker ReadOnly) (authorityOf w auth) := by
    unfold authorityOf
    refine Keeps.seq inferInstance fun e => ?_
    split
    · infer_instance
    · split
      · infer_instance
      · infer_instance
  exact hkeep.ok h

/-- An accepted authorization is signed by its authority, with the nonce the authority has. -/
theorem authorityOf_some {auth : Auth} {authority : Address}
    (h : authorityOf w auth c = .ok (some authority) c') :
    recoverAuthority auth = some authority ∧ auth.nonce < wordMax ∧
      ((c.tk.view w).acct authority).nonce = auth.nonce := by
  unfold authorityOf at h
  rw [bind_run_ok (show getEv c = .ok c.ev c from rfl)] at h
  split at h
  · cases h
  · next heligible =>
    have hnonce : auth.nonce < wordMax := by
      rw [Bool.not_eq_true', Bool.not_eq_false, Auth.eligible] at heligible
      exact (of_decide_eq_true heligible).2
    cases hrec : recoverAuthority auth with
    | none =>
      rw [hrec] at h
      cases h
    | some rec =>
      rw [hrec] at h
      obtain ⟨_, c₁, hwarm, h⟩ := bind_ok.mp h
      cases hwarm
      obtain ⟨valid, c₂, hlift, h⟩ := bind_ok.mp h
      obtain ⟨s₂, hvalid, rfl⟩ := of_liftState_ok hlift
      split at h
      · next hv =>
        cases h
        obtain ⟨a, s₃, hload, hrest⟩ := bind_ok.mp hvalid
        obtain ⟨code, s₄, hcode, hrest⟩ := bind_ok.mp hrest
        split at hrest
        · cases hrest
          cases hv
        · cases hrest
          have ha := (loadAccount_ok hload).1
          rw [ha] at hv
          exact ⟨rfl, hnonce, of_decide_eq_true hv⟩
      · cases h

/-! ## All authorizations -/

/-- At most one charge, of a given amount. -/
def AtMostOnce (amount : Word) (charges : List Word) : Prop := charges = [] ∨ charges = [amount]

omit [Keccak] [Crypto] in
theorem isValidDelegation_delegationCode (addr : Address) :
    isValidDelegation (delegationCode addr) = true := by
  have hlen : (delegationCode addr).length = 23 := by
    unfold delegationCode addrBytes
    rw [List.length_append, length_beBytes]
    rfl
  exact decide_eq_true ⟨hlen, rfl⟩

omit [Crypto] in
/-- An account that was delegated before the transaction stays so. -/
theorem Applied.delegatedBefore {d d' : Delegating} {e : Accepted} {a : Address}
    (h : Applied w d c d' e c') (hs : Sound c.tk) (ha : c.tk.DelegatedBefore w a) :
    c'.tk.DelegatedBefore w a := by
  refine ha.mono hs h.layered.kept.1 fun k code hk hget hvalid => ?_
  have hcode := View.delegate_code (c.tk.view w) e.authority e.auth.code k
  rw [← h.view] at hcode
  change c'.tk.codeAt w k = if _ then _ else c.tk.codeAt w k at hcode
  rw [hcode]
  split
  · next hwritten =>
    obtain ⟨rfl, hne⟩ := hwritten
    refine ⟨_, rfl, ?_⟩
    by_cases hnull : e.auth.addr = 0
    · refine absurd ?_ hne
      rw [Auth.code, if_pos hnull]
      rfl
    · rw [Auth.code, if_neg hnull]
      exact isValidDelegation_delegationCode _
  · exact ⟨code, hget, hvalid⟩

/-- What the accounts have and what was paid once the authorizations are applied, with the books
`d` of what was paid before. -/
structure Settled (w : Witness) (d : Delegating) (s : Tracker) (l : List Accepted) (s' : Tracker) :
    Prop where
  layered : Layered s s'
  nonce : ∀ a, ((s'.view w).acct a).nonce.toNat =
    ((s.view w).acct a).nonce.toNat + (Accepted.of a l).length
  codeHash : ∀ a, ((s'.view w).acct a).codeHash = (Accepted.of a l).getLast?.elim
    ((s.view w).acct a).codeHash fun e => keccak256 e.auth.code
  newAccount : ∀ a, AtMostOnce sgNewAccount (Accepted.paid Accepted.newAccount a l)
  unpaid : ∀ a b, (s.view w).account a = .ok (some b) → b.nonce ≠ 0 →
    Accepted.paid Accepted.newAccount a l = []
  write : ∀ a, Accepted.paid Accepted.write a l =
    if d.written.has a ∨ Accepted.of a l = [] then [] else [gAccountWrite]
  base : ∀ a, AtMostOnce sgAuthBase (Accepted.paid Accepted.base a l)
  based : ∀ a, d.setFor.has a = true ∨ s.DelegatedBefore w a → Accepted.paid Accepted.base a l = []

omit [Crypto] in
theorem settled_nil (d : Delegating) (h : ReadOnly s s') (hs : Sound s) : Settled w d s [] s' := by
  have hview := view_readOnly (w := w) hs h
  refine ⟨Reading.readOnly h, fun a => ?_, fun a => ?_, fun a => .inl rfl, fun _ _ _ _ => rfl,
    fun a => ?_, fun a => .inl rfl, fun _ _ => rfl⟩
  · rw [hview]
    rfl
  · rw [hview]
    rfl
  · rw [if_pos (.inr rfl)]
    rfl

omit [Crypto] in
/-- The authorizations after one that is accepted, and it. -/
theorem Settled.cons {d d' : Delegating} {e : Accepted} {c₁ : Ctx} {l : List Accepted}
    (hs : Sound c.tk) (he : Applied w d c d' e c₁) (hlt : e.auth.nonce < wordMax)
    (hnonce : ((c.tk.view w).acct e.authority).nonce = e.auth.nonce)
    (h : Settled w d' c₁.tk l s') : Settled w d c.tk (e :: l) s' := by
  have hself := (c.tk.view w).delegate_acct e.authority e.auth.code
  rw [← he.view] at hself
  have hother : ∀ {a}, e.authority ≠ a → (c₁.tk.view w).account a = (c.tk.view w).account a := by
    intro a ha
    rw [he.view]
    exact View.delegate_account_of_ne _ _ (Ne.symm ha)
  have hsucc : (((c₁.tk.view w).acct e.authority).nonce).toNat =
      ((c.tk.view w).acct e.authority).nonce.toNat + 1 := by
    have hmax : e.auth.nonce.toNat < 18446744073709551615 := hlt
    rw [hself.1, hnonce, BitVec.toNat_add]
    change (e.auth.nonce.toNat + 1) % 2 ^ 64 = _
    omega
  -- from now on the authority exists, with a nonce
  have hlater : Accepted.paid Accepted.newAccount e.authority l = [] := by
    obtain ⟨b, hb⟩ := (c.tk.view w).delegate_exists e.authority e.auth.code (by
      intro hzero
      rw [hself.1, hzero] at hsucc
      exact absurd hsucc (by simp))
    rw [← he.view] at hb
    refine h.unpaid _ b hb fun hzero => ?_
    rw [View.acct_of_account hb, hzero] at hsucc
    exact absurd hsucc (by simp)
  refine ⟨he.layered.trans h.layered, fun a => ?_, fun a => ?_, fun a => ?_, fun a b ha hb => ?_,
    fun a => ?_, fun a => ?_, fun a ha => ?_⟩
  · by_cases ha : e.authority = a
    · subst ha
      rw [h.nonce, hsucc, Accepted.of_cons_self rfl, List.length_cons]
      omega
    · rw [h.nonce, Accepted.of_cons_of_ne ha, View.acct_congr (hother ha)]
  · by_cases ha : e.authority = a
    · subst ha
      rw [h.codeHash, hself.2, Accepted.of_cons_self rfl, List.getLast?_cons]
      cases (Accepted.of e.authority l).getLast? <;> rfl
    · rw [h.codeHash, Accepted.of_cons_of_ne ha, View.acct_congr (hother ha)]
  · by_cases ha : e.authority = a
    · subst ha
      obtain ⟨r, hr, hcharge⟩ := he.newAccount
      cases r with
      | some b =>
        rw [Accepted.paid_cons_zero hcharge]
        exact h.newAccount _
      | none =>
        rw [Accepted.paid_cons_pos rfl (by rw [hcharge]; decide), hcharge, hlater]
        exact .inr rfl
    · rw [Accepted.paid_cons_of_ne ha]
      exact h.newAccount a
  · by_cases hea : e.authority = a
    · subst hea
      obtain ⟨r, hr, hcharge⟩ := he.newAccount
      rw [show c.tk.account w e.authority = _ from ha] at hr
      cases hr
      rw [Accepted.paid_cons_zero hcharge, hlater]
    · rw [Accepted.paid_cons_of_ne hea]
      exact h.unpaid a b ((hother hea).trans ha) hb
  · by_cases ha : e.authority = a
    · subst ha
      have hhas : d'.written.has e.authority = true := by
        rw [he.written, decide_eq_true rfl, Bool.true_or]
      have hrest : Accepted.paid Accepted.write e.authority l = [] := by
        rw [h.write, if_pos (.inl hhas)]
      by_cases hpaid : d.written.has e.authority = true
      · rw [Accepted.paid_cons_zero (he.write.trans (if_pos hpaid)), hrest, if_pos (.inl hpaid)]
      · have hcharge : e.write = gAccountWrite := he.write.trans (if_neg hpaid)
        rw [Accepted.paid_cons_pos rfl (by rw [hcharge]; decide), hrest, hcharge, if_neg]
        rintro (hhas | hnil)
        · exact hpaid hhas
        · rw [Accepted.of_cons_self rfl] at hnil
          cases hnil
    · rw [Accepted.paid_cons_of_ne ha, h.write, Accepted.of_cons_of_ne ha, he.written,
        decide_eq_false (Ne.symm ha), Bool.false_or]
  · by_cases ha : e.authority = a
    · subst ha
      rcases he.base with hzero | ⟨hcharge, -, -, haddr⟩
      · rw [Accepted.paid_cons_zero hzero]
        exact h.base _
      · have hhas : d'.setFor.has e.authority = true := by
          rw [he.setFor, decide_eq_true ⟨rfl, haddr⟩, Bool.true_or]
        rw [Accepted.paid_cons_pos rfl (by rw [hcharge]; decide), hcharge, h.based _ (.inl hhas)]
        exact .inr rfl
    · rw [Accepted.paid_cons_of_ne ha]
      exact h.base a
  · have hkept : d'.setFor.has a = true ∨ c₁.tk.DelegatedBefore w a := by
      refine ha.imp (fun hhas => ?_) fun hdel => he.delegatedBefore hs hdel
      rw [he.setFor, hhas, Bool.or_true]
    by_cases hea : e.authority = a
    · subst hea
      rcases he.base with hzero | ⟨-, hfree, hnot, -⟩
      · rw [Accepted.paid_cons_zero hzero]
        exact h.based _ hkept
      · rcases ha with hhas | hdel
        · rw [hfree] at hhas
          cases hhas
        · exact absurd hdel hnot
    · rw [Accepted.paid_cons_of_ne hea]
      exact h.based a hkept

omit [Crypto] in
theorem Settled.after_read {d : Delegating} {s₁ : Tracker} {l : List Accepted} (hs : Sound s)
    (hro : ReadOnly s s₁) (h : Settled w d s₁ l s') : Settled w d s l s' := by
  have hview : s₁.view w = s.view w := view_readOnly hs hro
  have hdel : ∀ a, s.DelegatedBefore w a → s₁.DelegatedBefore w a := fun a ha =>
    ha.mono hs hro.ext fun k code _ hget hvalid =>
      ⟨code, (codeAt_of_agree w hs hro.ext hro.agree k).trans hget, hvalid⟩
  refine ⟨.trans (Reading.readOnly hro) h.layered, ?_, ?_, h.newAccount, ?_, h.write, h.base,
    fun a ha => h.based a (ha.imp_right (hdel a))⟩
  · rw [← hview]
    exact h.nonce
  · rw [← hview]
    exact h.codeHash
  · rw [← hview]
    exact h.unpaid

/-- What the loop over the authorizations leaves, when it returns. -/
theorem settled_chargedLoop {auths : List Auth} {d : Delegating} {l : List Accepted}
    (hs : Sound c.tk) (h : chargedLoop w auths d c = .ok l c') : Settled w d c.tk l c'.tk := by
  induction auths generalizing d c l with
  | nil =>
    cases h
    exact settled_nil d (refl_of ReadOnly _) hs
  | cons auth rest ih =>
    obtain ⟨authority, c₁, hauth, h⟩ := bind_ok.mp h
    have hro := authorityOf_readOnly hauth
    have hs₁ : Sound c₁.tk := hs.of_agree hro.ext hro.agree
    refine .after_read hs hro ?_
    cases authority with
    | none => exact ih hs₁ h
    | some authority =>
      obtain ⟨-, hlt, hnonce⟩ := authorityOf_some hauth
      obtain ⟨applied, c₂, happly, h⟩ := bind_ok.mp h
      obtain ⟨later, c₃, hlater, h⟩ := bind_ok.mp h
      cases h
      obtain ⟨ha, hauthority, happlied⟩ := applyCharged_ok hs₁ happly
      have hrest := ih (happlied.layered.sound hs₁) hlater
      refine .cons hs₁ happlied (ha ▸ hlt) ?_ hrest
      rw [hauthority, ha, view_readOnly hs hro, hnonce]

/-- The codes of delegations have hashes of their own, and none has the empty one. -/
structure DelegationsApart : Prop where
  inj : ∀ a b, keccak256 (delegationCode a) = keccak256 (delegationCode b) → a = b
  ne : ∀ a, keccak256 (delegationCode a) ≠ emptyCodeHash

omit [Crypto] in
/-- The code of a delegation stays where it is. -/
theorem Applied.code {d d' : Delegating} {e : Accepted} (h : Applied w d c d' e c')
    (hk : DelegationsApart) {x : Address}
    (hx : c.tk.codeAt w (keccak256 (delegationCode x)) = .ok (delegationCode x) ∨
      x = e.auth.addr ∧ x ≠ 0) :
    c'.tk.codeAt w (keccak256 (delegationCode x)) = .ok (delegationCode x) := by
  have hcode := View.delegate_code (c.tk.view w) e.authority e.auth.code
    (keccak256 (delegationCode x))
  rw [← h.view] at hcode
  refine Eq.trans hcode ?_
  split
  · next hwritten =>
    obtain ⟨hsame, hne⟩ := hwritten
    by_cases hnull : e.auth.addr = 0
    · rw [Auth.code, if_pos hnull] at hne
      exact absurd rfl hne
    · rw [Auth.code, if_neg hnull] at hsame ⊢
      rw [hk.inj _ _ hsame]
  · next hnot =>
    rcases hx with hget | ⟨rfl, hx⟩
    · exact hget
    · refine absurd ?_ hnot
      rw [Auth.code, if_neg hx]
      exact ⟨rfl, hk.ne _⟩

/-- The code of every delegation that was accepted can be read back. -/
theorem codeAt_chargedLoop {auths : List Auth} {d : Delegating} {l : List Accepted}
    (hk : DelegationsApart) (hs : Sound c.tk) (h : chargedLoop w auths d c = .ok l c')
    {x : Address} (hx : c.tk.codeAt w (keccak256 (delegationCode x)) = .ok (delegationCode x) ∨
      (∃ e ∈ l, x = e.auth.addr) ∧ x ≠ 0) :
    c'.tk.codeAt w (keccak256 (delegationCode x)) = .ok (delegationCode x) := by
  induction auths generalizing d c l with
  | nil =>
    cases h
    rcases hx with hget | ⟨⟨e, he, -⟩, -⟩
    · exact hget
    · exact absurd he List.not_mem_nil
  | cons auth rest ih =>
    obtain ⟨authority, c₁, hauth, h⟩ := bind_ok.mp h
    have hro := authorityOf_readOnly hauth
    have hs₁ : Sound c₁.tk := hs.of_agree hro.ext hro.agree
    rw [← codeAt_of_agree w hs hro.ext hro.agree] at hx
    cases authority with
    | none => exact ih hs₁ h hx
    | some authority =>
      obtain ⟨applied, c₂, happly, h⟩ := bind_ok.mp h
      obtain ⟨later, c₃, hlater, h⟩ := bind_ok.mp h
      cases h
      obtain ⟨-, -, happlied⟩ := applyCharged_ok hs₁ happly
      refine ih (happlied.layered.sound hs₁) hlater ?_
      rcases hx with hget | ⟨⟨e, he, hxe⟩, hne⟩
      · exact .inl (happlied.code hk (.inl hget))
      · rcases List.mem_cons.mp he with rfl | he
        · exact .inl (happlied.code hk (.inr ⟨hxe, hne⟩))
        · exact .inr ⟨⟨e, he, hxe⟩, hne⟩

end

end

end StatelessGuest
