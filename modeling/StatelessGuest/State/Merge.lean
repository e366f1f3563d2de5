import StatelessGuest.State.Effects

/-!
# Merging a transaction into the block

Merging a transaction and starting a fresh one puts the transaction's writes into the block's
tables. No read changes, but the slots below the transaction are now what they were in it, and
the transient slots are zero.

* `get_htabUnionInto`: a union finds the bindings of its second table first.
* `Merged`: what the loop over the slot tables has done so far.
* `view_merge`, `view_fresh_merge`: the view of the merged state and of the fresh transaction.
-/

namespace StatelessGuest

open Lib Tracker

/-! ## Unions -/

section

variable {κ ν : Type} [DecidableEq κ]

theorem get_foldl_set_of_notMem {es : List (κ × ν)} {k : κ} (hk : k ∉ es.map Prod.fst)
    (m : OrdMap κ ν) : (es.foldl (fun m e => m.set e.1 e.2) m).get k = m.get k := by
  induction es generalizing m with
  | nil => rfl
  | cons e es ih =>
    rw [List.map_cons, List.mem_cons, not_or] at hk
    rw [List.foldl_cons, ih hk.2, OrdMap.get_set_of_ne hk.1]

theorem get_foldl_set_of_mem {es : List (κ × ν)} (hnd : (es.map Prod.fst).Nodup) {k : κ} {v : ν}
    (h : (k, v) ∈ es) (m : OrdMap κ ν) :
    (es.foldl (fun m e => m.set e.1 e.2) m).get k = some v := by
  induction es generalizing m with
  | nil => cases h
  | cons e es ih =>
    obtain ⟨hnot, hnd⟩ := List.nodup_cons.mp hnd
    rw [List.foldl_cons]
    obtain rfl | h := List.mem_cons.mp h
    · rw [get_foldl_set_of_notMem hnot, OrdMap.get_set_self]
    · exact ih hnd h _

/-- A union finds the bindings of the second table first. -/
theorem get_htabUnionInto (dst src : OrdMap κ ν) (k : κ) :
    (htabUnionInto dst src).get k = (src.get k).or (dst.get k) := by
  unfold htabUnionInto
  cases h : src.get k with
  | none => exact get_foldl_set_of_notMem (OrdMap.get_eq_none.mp h) dst
  | some v => exact get_foldl_set_of_mem src.nodup (OrdMap.get_eq_some.mp h) dst

end

/-! ## One slot table -/

variable {s s' s₁ : Tracker}

/-- The tables of the transaction in a state with other block tables. -/
theorem wf_of_ts {s : Tracker} (h : Wf s) {i : Arena (OrdMap Hash Nat)} (b : BlockState)
    (hn : s.inners.next ≤ i.next)
    (hi : ∀ a m, s.ts.storWrites.get a = some m → i.load m = s.inners.load m) :
    Wf { s with inners := i, bs := b } := by
  refine ⟨fun t ht k v hv => ?_, h.inj⟩
  cases t with
  | inner p =>
    obtain ⟨a, ha⟩ := ht
    refine h.vals (.inner p) ⟨a, ha⟩ k v ?_
    change (s.inners.load p).get k = some v
    rw [← hi a p ha]
    exact hv
  | storWrites => exact Nat.lt_of_lt_of_le (h.vals .storWrites trivial k v hv) hn
  | acctWrites => exact h.vals .acctWrites trivial k v hv
  | codeWrites => exact h.vals .codeWrites trivial k v hv
  | transient => exact h.vals .transient trivial k v hv

/-- A block table for an address. -/
def Tracker.openSlots (s : Tracker) (addr : Address) : Tracker :=
  { s with
    inners := s.inners.alloc .empty
    bs := { s.bs with storWrites := s.bs.storWrites.set addr s.inners.next } }

theorem storLookup_openSlots (hs : Sound s) {addr : Address}
    (hnone : s.bs.storWrites.get addr = none) (a : Address) (key : Hash) :
    (s.openSlots addr).storLookup (s.openSlots addr).bs.storWrites a key =
      s.storLookup s.bs.storWrites a key := by
  have hget : (s.openSlots addr).bs.storWrites.get a =
      if a = addr then some s.inners.next else s.bs.storWrites.get a := OrdMap.get_set _ _ _ _
  unfold storLookup
  rw [hget]
  by_cases ha : a = addr
  · rw [if_pos ha, ha, hnone]
    change ((s.inners.alloc .empty).load s.inners.next).get key = none
    rw [Arena.load_alloc_self]
    rfl
  · rw [if_neg ha]
    split
    · rfl
    · next m hm =>
      exact congrArg (fun t => OrdMap.get t key) (Arena.load_alloc_of_valid (hs.blockInners a m hm) _)

theorem Sound.openSlots (hs : Sound s) {addr : Address}
    (hnone : s.bs.storWrites.get addr = none) : Sound (s.openSlots addr) := by
  have hget : ∀ a, (s.openSlots addr).bs.storWrites.get a =
      if a = addr then some s.inners.next else s.bs.storWrites.get a :=
    fun a => OrdMap.get_set _ _ _ _
  have hfresh : ∀ a, s.bs.storWrites.get a ≠ some s.inners.next :=
    fun a ha => absurd (hs.blockInners a _ ha) (Nat.lt_irrefl _)
  refine ⟨wf_of_ts hs.toWf _ (by simp) fun a m hm => ?_, hs.blockAccts, fun a m hm => ?_,
    fun a key p hp => ?_, hs.blockCodes, fun a b m ha => ?_, fun a b m ha hb => ?_⟩
  · exact Arena.load_alloc_of_valid (hs.storInner_valid a m hm) _
  · rw [hget] at hm
    split at hm
    · cases hm
      exact Arena.valid_alloc_self _ _
    · exact Nat.lt_of_lt_of_le (hs.blockInners a m hm) (by simp [Tracker.openSlots])
  · rw [storLookup_openSlots hs hnone] at hp
    exact hs.blockWords a key p hp
  · rw [hget]
    split
    · intro h
      cases h
      exact absurd (hs.storInner_valid a _ ha) (Nat.lt_irrefl _)
    · exact hs.apart a b m ha
  · rw [hget] at ha hb
    split at ha <;> split at hb
    · next h h' => rw [h, h']
    · cases ha
      exact absurd hb (hfresh b)
    · cases hb
      exact absurd ha (hfresh a)
    · exact hs.blockInj a b m ha hb

/-- The slots of the block's table of an address. -/
theorem storLookup_store (hs : Sound s) {addr : Address} {b : Nat} {t : OrdMap Hash Nat}
    (hb : s.bs.storWrites.get addr = some b) (a : Address) (key : Hash) :
    ({ s with inners := s.inners.store b t } : Tracker).storLookup s.bs.storWrites a key =
      if a = addr then t.get key else s.storLookup s.bs.storWrites a key := by
  unfold storLookup
  by_cases ha : a = addr
  · rw [if_pos ha, ha, hb]
    exact congrArg (fun t => OrdMap.get t key) (Arena.load_store_self (hs.blockInners addr b hb) t)
  · rw [if_neg ha]
    split
    · rfl
    · next m hm =>
      refine congrArg (fun t => OrdMap.get t key) (Arena.load_store_of_ne ?_ t)
      rintro rfl
      exact ha (hs.blockInj a addr m hm hb)

theorem Sound.store (hs : Sound s) {addr : Address} {b : Nat} {t : OrdMap Hash Nat}
    (hb : s.bs.storWrites.get addr = some b) (ht : ∀ k p, t.get k = some p → s.words.Valid p) :
    Sound { s with inners := s.inners.store b t } := by
  refine ⟨wf_of_ts hs.toWf s.bs (by simp) fun a m hm => ?_, hs.blockAccts, fun a m hm => ?_,
    fun a key p hp => ?_, hs.blockCodes, hs.apart, hs.blockInj⟩
  · refine Arena.load_store_of_ne ?_ t
    rintro rfl
    exact hs.apart a addr m hm hb
  · exact Nat.lt_of_lt_of_le (hs.blockInners a m hm) (by simp)
  · rw [storLookup_store hs hb] at hp
    split at hp
    · exact ht key p hp
    · exact hs.blockWords a key p hp

/-- What merging some of the transaction's slot tables, those that `tab` gives, does to a state. -/
structure Merged (tab : Address → Option Nat) (s s' : Tracker) : Prop where
  sound : Sound s'
  ts : s'.ts = s.ts
  accts : s'.accts = s.accts
  words : s'.words = s.words
  slices : s'.slices = s.slices
  bs : s'.bs = { s.bs with storWrites := s'.bs.storWrites }
  inner : ∀ a m, s.ts.storWrites.get a = some m → s'.inners.load m = s.inners.load m
  slots : ∀ a key, s'.storLookup s'.bs.storWrites a key =
    ((tab a).bind fun m => (s.inners.load m).get key).or (s.storLookup s.bs.storWrites a key)

theorem Merged.refl (hs : Sound s) : Merged (fun _ => none) s s :=
  ⟨hs, rfl, rfl, rfl, rfl, rfl, fun _ _ _ => rfl, fun _ _ => rfl⟩

theorem Merged.openSlots {tab : Address → Option Nat} (h : Merged tab s s₁) {addr : Address}
    (hnone : s₁.bs.storWrites.get addr = none) : Merged tab s (s₁.openSlots addr) := by
  refine ⟨h.sound.openSlots hnone, h.ts, h.accts, h.words, h.slices, ?_, fun a m hm => ?_,
    fun a key => ?_⟩
  · unfold Tracker.openSlots
    rw [h.bs]
  · rw [← h.inner a m hm]
    exact Arena.load_alloc_of_valid (h.sound.storInner_valid a m (h.ts ▸ hm)) _
  · rw [storLookup_openSlots h.sound hnone]
    exact h.slots a key

/-- The union of the transaction's table of an address into the block's. -/
theorem Merged.store {tab : Address → Option Nat} (h : Merged tab s s₁) {addr : Address} {m b : Nat}
    (hm : s.ts.storWrites.get addr = some m) (htab : tab addr = none)
    (hb : s₁.bs.storWrites.get addr = some b) :
    Merged (Function.update tab addr (some m)) s { s₁ with
      inners := s₁.inners.store b (htabUnionInto (s₁.inners.load b) (s₁.inners.load m)) } := by
  have hm₁ : s₁.ts.storWrites.get addr = some m := h.ts ▸ hm
  have hold : ∀ key, (s₁.inners.load b).get key = s.storLookup s.bs.storWrites addr key := by
    intro key
    have hslots := h.slots addr key
    rw [htab, storLookup, hb] at hslots
    exact hslots
  refine ⟨h.sound.store hb fun k p hp => ?_, h.ts, h.accts, h.words, h.slices, h.bs,
    fun a n hn => ?_, fun a key => ?_⟩
  · rw [get_htabUnionInto, Option.or_eq_some_iff] at hp
    rcases hp with hp | ⟨-, hp⟩
    · exact h.sound.vals (.inner m) ⟨addr, hm₁⟩ k p hp
    · refine h.sound.blockWords addr k p ?_
      rw [storLookup, hb]
      exact hp
  · rw [← h.inner a n hn]
    refine Arena.load_store_of_ne ?_ _
    rintro rfl
    exact h.sound.apart a addr n (show s₁.ts.storWrites.get a = some n from h.ts ▸ hn) hb
  · refine (storLookup_store h.sound hb a key).trans ?_
    rw [Function.update_apply]
    split
    · next ha =>
      rw [get_htabUnionInto, h.inner addr m hm, hold, ha]
      rfl
    · exact h.slots a key

theorem merged_mergeSlots {tab : Address → Option Nat} (h : Merged tab s s₁) {addr : Address}
    {m : Nat} (hm : s.ts.storWrites.get addr = some m) (htab : tab addr = none) :
    ∃ s', mergeSlots addr m s₁ = .ok () s' ∧ Merged (Function.update tab addr (some m)) s s' := by
  unfold mergeSlots
  rw [bind_run, get_run]
  dsimp only
  cases hb : s₁.bs.storWrites.get addr with
  | some b => exact ⟨_, rfl, h.store hm htab hb⟩
  | none => exact ⟨_, rfl, (h.openSlots hb).store hm htab (OrdMap.get_set_self _ _ _)⟩

/-! ## All slot tables -/

theorem merged_forM {es : List (Address × Nat)} {tab : Address → Option Nat}
    (hnd : (es.map Prod.fst).Nodup) (hes : ∀ e ∈ es, s.ts.storWrites.get e.1 = some e.2)
    (hnone : ∀ e ∈ es, tab e.1 = none)
    (hdone : ∀ a, a ∉ es.map Prod.fst → tab a = s.ts.storWrites.get a) (h : Merged tab s s₁) :
    ∃ s', (forM es fun e => mergeSlots e.1 e.2) s₁ = .ok () s' ∧
      Merged s.ts.storWrites.get s s' := by
  induction es generalizing tab s₁ with
  | nil =>
    have htab : tab = s.ts.storWrites.get := funext fun a => hdone a List.not_mem_nil
    exact ⟨s₁, rfl, htab ▸ h⟩
  | cons e es ih =>
    obtain ⟨hnot, hnd⟩ := List.nodup_cons.mp hnd
    have he := hes e List.mem_cons_self
    obtain ⟨s₂, hrun, h₂⟩ := merged_mergeSlots h he (hnone e List.mem_cons_self)
    have hne : ∀ e' ∈ es, e'.1 ≠ e.1 := fun e' he' heq => hnot (heq ▸ List.mem_map_of_mem he')
    obtain ⟨s', hrest, h'⟩ := ih hnd (fun e' he' => hes e' (List.mem_cons_of_mem _ he'))
      (fun e' he' => by
        rw [Function.update_of_ne (hne e' he')]
        exact hnone e' (List.mem_cons_of_mem _ he'))
      (fun a ha => by
        rw [Function.update_apply]
        split
        · next hae => rw [hae, he]
        · next hae => exact hdone a (by simpa [hae] using ha)) h₂
    refine ⟨s', ?_, h'⟩
    rw [List.forM_cons, bind_run_ok hrun]
    exact hrest

/-- The block state before the loop over the slot tables. -/
def Tracker.unite (s : Tracker) : Tracker :=
  { s with
    bs := { s.bs with
      storReads := htabUnionInto s.bs.storReads s.ts.storReads
      acctReads := htabUnionInto s.bs.acctReads s.ts.acctReads
      codeReads := htabUnionInto s.bs.codeReads s.ts.codeReads
      acctWrites := htabUnionInto s.bs.acctWrites s.ts.acctWrites
      codeWrites := htabUnionInto s.bs.codeWrites s.ts.codeWrites } }

theorem Sound.unite (hs : Sound s) : Sound s.unite := by
  refine ⟨wf_of_ts hs.toWf _ le_rfl fun _ _ _ => rfl, fun a p hp => ?_, hs.blockInners,
    hs.blockWords, fun c p hp => ?_, hs.apart, hs.blockInj⟩
  · change (htabUnionInto s.bs.acctWrites s.ts.acctWrites).get a = _ at hp
    rw [get_htabUnionInto, Option.or_eq_some_iff] at hp
    rcases hp with hp | ⟨-, hp⟩
    · exact hs.vals .acctWrites trivial a (some p) hp p rfl
    · exact hs.blockAccts a p hp
  · change (htabUnionInto s.bs.codeWrites s.ts.codeWrites).get c = _ at hp
    rw [get_htabUnionInto, Option.or_eq_some_iff] at hp
    rcases hp with hp | ⟨-, hp⟩
    · exact hs.vals .codeWrites trivial c p hp
    · exact hs.blockCodes c p hp

/-- The merge always succeeds. -/
theorem merge_ok (hs : Sound s) : ∃ s', mergeTxIntoBlock s = .ok () s' ∧
    Merged s.ts.storWrites.get s.unite s' := by
  have hnd : (s.ts.storWrites.entries.map Prod.fst).Nodup := s.ts.storWrites.nodup
  exact merged_forM (s := s.unite) hnd (fun e he => OrdMap.get_eq_some.mpr he) (fun _ _ => rfl)
    (fun a ha => (OrdMap.get_eq_none.mpr ha).symm) (.refl hs.unite)

/-! ## The fresh transaction -/

theorem sound_merge (hs : Sound s) : Sound (final (mergeTxIntoBlock s)) := by
  obtain ⟨s', hrun, h⟩ := merge_ok hs
  rw [hrun]
  exact h.sound

theorem sound_fresh (hs : Sound s) : Sound (final (stateFreshTx s)) := by
  refine ⟨⟨fun t ht k v hv => ?_, fun a b p ha => (nomatch ha)⟩, hs.blockAccts, hs.blockInners,
    hs.blockWords, hs.blockCodes, fun a b m ha => (nomatch ha), hs.blockInj⟩
  cases t with
  | inner p =>
    obtain ⟨a, ha⟩ := ht
    cases ha
  | acctWrites => cases hv
  | storWrites => cases hv
  | codeWrites => cases hv
  | transient => cases hv

section

variable [Keccak] (w : Witness)

/-- The view of a fresh transaction. -/
theorem view_fresh (s : Tracker) : (final (stateFreshTx s)).view w =
    { account := s.accountBelow w
      slot := s.slotBelow w
      below := s.slotBelow w
      code := Tracker.codeAt w { s with ts := default }
      transient := fun _ => 0 } :=
  rfl

/-- The block finds what the transaction found. -/
theorem merge_below (hs : Sound s) :
    (∀ a, (final (mergeTxIntoBlock s)).accountBelow w a = s.account w a) ∧
      (∀ a key, (final (mergeTxIntoBlock s)).slotBelow w a key = s.slot w a key) ∧
      ∀ c, ({ final (mergeTxIntoBlock s) with ts := default } : Tracker).codeAt w c =
        s.codeAt w c := by
  obtain ⟨s', hrun, h⟩ := merge_ok hs
  have hbs := h.bs
  rw [hrun]
  refine ⟨fun a => ?_, fun a key => ?_, fun c => ?_⟩
  · have hget : s'.bs.acctWrites.get a = (s.ts.acctWrites.get a).or (s.bs.acctWrites.get a) := by
      rw [hbs]
      exact get_htabUnionInto _ _ a
    unfold Tracker.account accountBelow
    rw [final_ok, hget, h.accts]
    cases s.ts.acctWrites.get a <;> rfl
  · have hslots : s'.storLookup s'.bs.storWrites a key =
        (s.storLookup s.ts.storWrites a key).or (s.storLookup s.bs.storWrites a key) := by
      refine (h.slots a key).trans (congrArg (fun o => Option.or o _) ?_)
      unfold storLookup
      cases s.ts.storWrites.get a <;> rfl
    unfold Tracker.slot slotBelow
    rw [final_ok, hslots, h.words]
    cases s.storLookup s.ts.storWrites a key <;> rfl
  · have hget : s'.bs.codeWrites.get c = (s.ts.codeWrites.get c).or (s.bs.codeWrites.get c) := by
      rw [hbs]
      exact get_htabUnionInto _ _ c
    unfold codeAt
    dsimp only
    rw [final_ok, hget, h.slices]
    cases s.ts.codeWrites.get c <;> rfl

/-- A fresh transaction after a merge finds everything where it was, but no transient slot. -/
theorem view_fresh_merge (hs : Sound s) :
    (final (stateFreshTx (final (mergeTxIntoBlock s)))).view w =
      { s.view w with below := (s.view w).slot, transient := fun _ => 0 } := by
  obtain ⟨hacct, hslot, hcode⟩ := merge_below w hs
  rw [view_fresh, funext hacct, funext hcode, funext fun a => funext (hslot a)]
  rfl

/-- A merge changes no read. -/
theorem view_merge (hs : Sound s) :
    (final (mergeTxIntoBlock s)).view w = { s.view w with below := (s.view w).slot } := by
  obtain ⟨hacct, hslot, hcode⟩ := merge_below w hs
  obtain ⟨s', hrun, h⟩ := merge_ok hs
  rw [hrun] at hacct hslot hcode ⊢
  have hts : s'.ts = s.ts := h.ts
  unfold view
  congr 1
  · funext a
    change s'.account w a = s.account w a
    cases hget : s.ts.acctWrites.get a with
    | some r => rw [account_of_get (hts ▸ hget), account_of_get hget, h.accts]; rfl
    | none =>
      refine Eq.trans ?_ (hacct a)
      rw [account, hts, hget]
      rfl
  · funext a key
    have hlook : s'.storLookup s'.ts.storWrites a key = s.storLookup s.ts.storWrites a key := by
      unfold storLookup
      rw [hts]
      split
      · rfl
      · next m hm => exact congrArg (fun t => OrdMap.get t key) (h.inner a m hm)
    change s'.slot w a key = s.slot w a key
    cases hget : s.storLookup s.ts.storWrites a key with
    | some p => rw [slot_of_some (hlook.trans hget), slot_of_some hget, h.words]; rfl
    | none => exact (slot_of_none (hlook.trans hget)).trans (hslot a key)
  · exact funext fun a => funext (hslot a)
  · funext c
    change s'.codeAt w c = s.codeAt w c
    cases hget : s.ts.codeWrites.get c with
    | some p => rw [codeAt_of_get (hts ▸ hget), codeAt_of_get hget, h.slices]; rfl
    | none => exact (codeAt_of_none (hts ▸ hget)).trans (hcode c)
  · funext k
    change s'.transientAt k = s.transientAt k
    unfold transientAt
    rw [hts, h.words]
    rfl

end

end StatelessGuest
