import StatelessGuest.State.Tracker

/-!
# What an operation can do to the tracker

`Ext s s'` describes every state `s'` reached from `s` by tracker operations: records are
only allocated, read sets only grow, the block's writes stay, and the journal got new records
on top whose undoing gives every table of `s` its bindings back. It is reflexive and
transitive, so an operation keeps it as soon as its steps do, and only `jset`, `jdel` and the
commit of a changed copy need an argument of their own.

* `Ext.restore`: undoing down to a mark that is not below `s` stays in the relation.
* `Ext.restored`: undoing down to the mark of `s` gives all bindings of `s` back.
-/

namespace StatelessGuest

open Lib

/-! ## Tables of a state -/

/-- The journaled tables that exist in a state. -/
def Tracker.Has (s : Tracker) : Tab → Prop
  | .inner p => s.inners.Valid p
  | .acctWrites | .storWrites | .codeWrites | .transient => True

namespace Tracker

variable {s s' : Tracker}

theorem table_setTable_self {t : Tab} (h : s.Has t) (m : OrdMap t.Key t.Val) :
    (s.setTable t m).table t = m := by
  cases t with
  | inner p => exact Arena.load_store_self h m
  | _ => rfl

theorem table_setTable_of_ne {t t' : Tab} (h : t' ≠ t) (m : OrdMap t.Key t.Val) :
    (s.setTable t m).table t' = s.table t' := by
  cases t with
  | inner p =>
    cases t' with
    | inner q => exact Arena.load_store_of_ne (fun hq => h (by rw [hq])) m
    | _ => rfl
  | _ => cases t' <;> first | rfl | exact absurd rfl h

@[simp] theorem accts_setTable (t : Tab) (m : OrdMap t.Key t.Val) :
    (s.setTable t m).accts = s.accts := by
  cases t <;> rfl

@[simp] theorem words_setTable (t : Tab) (m : OrdMap t.Key t.Val) :
    (s.setTable t m).words = s.words := by
  cases t <;> rfl

@[simp] theorem slices_setTable (t : Tab) (m : OrdMap t.Key t.Val) :
    (s.setTable t m).slices = s.slices := by
  cases t <;> rfl

@[simp] theorem bs_setTable (t : Tab) (m : OrdMap t.Key t.Val) :
    (s.setTable t m).bs = s.bs := by
  cases t <;> rfl

@[simp] theorem journal_setTable (t : Tab) (m : OrdMap t.Key t.Val) :
    (s.setTable t m).journal = s.journal := by
  cases t <;> rfl

@[simp] theorem inners_next_setTable (t : Tab) (m : OrdMap t.Key t.Val) :
    (s.setTable t m).inners.next = s.inners.next := by
  cases t <;> first | rfl | exact Arena.next_store _ _ _

/-! ## Read sets -/

/-- Every key of one read set is in the other. -/
def Sub {κ : Type} [DecidableEq κ] (m n : OrdMap κ Unit) : Prop := ∀ k, m.has k → n.has k

theorem sub_set {κ : Type} [DecidableEq κ] (m : OrdMap κ Unit) (k : κ) : Sub m (m.set k ()) := by
  intro k' h
  rw [OrdMap.has_set, h, Bool.or_true]

/-- The read sets and the created accounts of `s` are among those of `s'`. -/
structure ReadsGrow (s s' : Tracker) : Prop where
  acctReads : Sub s.ts.acctReads s'.ts.acctReads
  storReads : Sub s.ts.storReads s'.ts.storReads
  codeReads : Sub s.ts.codeReads s'.ts.codeReads
  created : Sub s.ts.created s'.ts.created
  preReads : Sub s.bs.preReads s'.bs.preReads

/-- The read sets and the created accounts. -/
def readSets (s : Tracker) : OrdMap Address Unit × OrdMap (Address × Hash) Unit ×
    OrdMap (Address × Hash) Unit × OrdMap Address Unit × OrdMap Address Unit :=
  (s.ts.acctReads, s.ts.storReads, s.ts.codeReads, s.ts.created, s.bs.preReads)

theorem ReadsGrow.of_eq (h : s'.readSets = s.readSets) : ReadsGrow s s' := by
  simp only [readSets, Prod.mk.injEq] at h
  obtain ⟨h1, h2, h3, h4, h5⟩ := h
  constructor <;> intro k hk
  · rwa [h1]
  · rwa [h2]
  · rwa [h3]
  · rwa [h4]
  · rwa [h5]

theorem ReadsGrow.refl (s : Tracker) : ReadsGrow s s := .of_eq rfl

theorem ReadsGrow.trans {s₁ s₂ s₃ : Tracker} (h : ReadsGrow s₁ s₂) (h' : ReadsGrow s₂ s₃) :
    ReadsGrow s₁ s₃ where
  acctReads k hk := h'.acctReads k (h.acctReads k hk)
  storReads k hk := h'.storReads k (h.storReads k hk)
  codeReads k hk := h'.codeReads k (h.codeReads k hk)
  created k hk := h'.created k (h.created k hk)
  preReads k hk := h'.preReads k (h.preReads k hk)

@[simp] theorem readSets_setTable (t : Tab) (m : OrdMap t.Key t.Val) :
    (s.setTable t m).readSets = s.readSets := by
  cases t <;> rfl

/-! ## Undoing records -/

/-- Undo a list of records, the latest first. -/
def undoAll (s : Tracker) (js : List Undo) : Tracker := js.foldl undo s

/-- The binding of a key in a table. -/
def lookup (s : Tracker) (t : Tab) (k : t.Key) : Option t.Val := (s.table t).get k

@[simp] theorem accts_undo (r : Undo) : (s.undo r).accts = s.accts := by
  unfold undo; split <;> simp

@[simp] theorem words_undo (r : Undo) : (s.undo r).words = s.words := by
  unfold undo; split <;> simp

@[simp] theorem slices_undo (r : Undo) : (s.undo r).slices = s.slices := by
  unfold undo; split <;> simp

@[simp] theorem bs_undo (r : Undo) : (s.undo r).bs = s.bs := by
  unfold undo; split <;> simp

@[simp] theorem journal_undo (r : Undo) : (s.undo r).journal = s.journal := by
  unfold undo; split <;> simp

@[simp] theorem inners_next_undo (r : Undo) : (s.undo r).inners.next = s.inners.next := by
  unfold undo; split <;> simp

@[simp] theorem readSets_undo (r : Undo) : (s.undo r).readSets = s.readSets := by
  unfold undo; split <;> simp

theorem has_congr (h : s.inners.next ≤ s'.inners.next) {t : Tab} (ht : s.Has t) : s'.Has t := by
  cases t with
  | inner p => exact Nat.lt_of_lt_of_le ht h
  | _ => trivial

theorem has_undo {r : Undo} {t : Tab} (h : s.Has t) : (s.undo r).Has t :=
  has_congr (by simp) h

theorem lookup_setTable_set {t : Tab} (h : s.Has t) (k k' : t.Key) (v : t.Val) :
    (s.setTable t ((s.table t).set k v)).lookup t k' =
      if k' = k then some v else s.lookup t k' := by
  rw [lookup, table_setTable_self h, OrdMap.get_set, lookup]

theorem lookup_setTable_del {t : Tab} (h : s.Has t) (k k' : t.Key) :
    (s.setTable t ((s.table t).del k)).lookup t k' =
      if k' = k then none else s.lookup t k' := by
  rw [lookup, table_setTable_self h, OrdMap.get_del, lookup]

theorem lookup_setTable_of_ne {t t' : Tab} (h : t' ≠ t) (m : OrdMap t.Key t.Val) (k : t'.Key) :
    (s.setTable t m).lookup t' k = s.lookup t' k := by
  rw [lookup, table_setTable_of_ne h, lookup]

theorem lookup_undo_self {r : Undo} (h : s.Has r.tab) (k : r.tab.Key) :
    (s.undo r).lookup r.tab k = if k = r.key then r.old else s.lookup r.tab k := by
  unfold undo
  split
  · next v hv => rw [lookup_setTable_set h, hv]
  · next hv => rw [lookup_setTable_del h, hv]

theorem lookup_undo_of_ne {r : Undo} {t : Tab} (h : t ≠ r.tab) (k : t.Key) :
    (s.undo r).lookup t k = s.lookup t k := by
  unfold undo
  split <;> rw [lookup_setTable_of_ne h]

/-- Two states bind the same in every table of a set. -/
def Agree (T : Tab → Prop) (s s' : Tracker) : Prop :=
  ∀ t, T t → s.Has t ∧ s'.Has t ∧ ∀ k, s.lookup t k = s'.lookup t k

theorem Agree.undo {T : Tab → Prop} (h : Agree T s s') (r : Undo) :
    Agree T (s.undo r) (s'.undo r) := by
  intro t ht
  obtain ⟨hs, hs', hk⟩ := h t ht
  refine ⟨has_undo hs, has_undo hs', fun k => ?_⟩
  by_cases hr : t = r.tab
  · subst hr
    rw [lookup_undo_self hs, lookup_undo_self hs', hk]
  · rw [lookup_undo_of_ne hr, lookup_undo_of_ne hr, hk]

theorem Agree.undoAll {T : Tab → Prop} (h : Agree T s s') (js : List Undo) :
    Agree T (s.undoAll js) (s'.undoAll js) := by
  induction js generalizing s s' with
  | nil => exact h
  | cons r js ih => exact ih (h.undo r)

theorem undoAll_append (js js' : List Undo) :
    s.undoAll (js ++ js') = (s.undoAll js).undoAll js' := by
  simp [Tracker.undoAll]

theorem undoAll_frame (js : List Undo) :
    (s.undoAll js).accts = s.accts ∧ (s.undoAll js).words = s.words ∧
      (s.undoAll js).slices = s.slices ∧ (s.undoAll js).bs = s.bs ∧
      (s.undoAll js).inners.next = s.inners.next ∧ (s.undoAll js).readSets = s.readSets := by
  induction js generalizing s with
  | nil => exact ⟨rfl, rfl, rfl, rfl, rfl, rfl⟩
  | cons r js ih =>
    obtain ⟨h1, h2, h3, h4, h5, h6⟩ := ih (s := s.undo r)
    exact ⟨h1.trans (accts_undo r), h2.trans (words_undo r), h3.trans (slices_undo r),
      h4.trans (bs_undo r), h5.trans (inners_next_undo r), h6.trans (readSets_undo r)⟩

theorem restoreLoop_append (js base : List Undo) (s : Tracker) :
    s.restoreLoop base.length (js ++ base) = { s.undoAll js with journal := base } := by
  induction js generalizing s with
  | nil => cases base <;> simp [restoreLoop, undoAll]
  | cons r js ih =>
    have : base.length < (js ++ base).length + 1 := by rw [List.length_append]; omega
    rw [List.cons_append, restoreLoop, if_pos this, ih]
    rfl

theorem restoreLoop_of_le {snap : Nat} {j : List Undo} (h : j.length ≤ snap) (s : Tracker) :
    s.restoreLoop snap j = { s with journal := j } := by
  cases j with
  | nil => rfl
  | cons r js =>
    rw [List.length_cons] at h
    rw [restoreLoop, if_neg (by omega)]

@[simp] theorem lookup_journal (j : List Undo) (t : Tab) (k : t.Key) :
    ({ s with journal := j } : Tracker).lookup t k = s.lookup t k := by
  cases t <;> rfl

theorem has_journal (j : List Undo) (t : Tab) :
    ({ s with journal := j } : Tracker).Has t ↔ s.Has t := by
  cases t <;> rfl

theorem undo_journal (j : List Undo) (r : Undo) :
    ({ s with journal := j } : Tracker).undo r = { s.undo r with journal := j } := by
  obtain ⟨t, k, old⟩ := r
  cases t <;> cases old <;> rfl

theorem undoAll_journal (j js : List Undo) :
    ({ s with journal := j } : Tracker).undoAll js = { s.undoAll js with journal := j } := by
  induction js generalizing s with
  | nil => rfl
  | cons r js ih =>
    change (({ s with journal := j } : Tracker).undo r).undoAll js = _
    rw [undo_journal, ih]
    rfl

end Tracker

/-! ## The relation -/

open Tracker

/-- What tracker operations can do to a state. -/
structure Ext (s s' : Tracker) : Prop where
  accts : s.accts.Grows s'.accts
  words : s.words.Grows s'.words
  slices : s.slices.Grows s'.slices
  inners : s.inners.next ≤ s'.inners.next
  reads : ReadsGrow s s'
  bs : s'.bs = { s.bs with preReads := s'.bs.preReads, ancOff := s'.bs.ancOff }
  journal : ∃ js, s'.journal = js ++ s.journal ∧ Agree s.Has s (s'.undoAll js)

theorem agree_refl (s : Tracker) : Agree s.Has s s := fun _ ht => ⟨ht, ht, fun _ => rfl⟩

/-- A change that touches no journaled table. -/
theorem Ext.of_agree {s s' : Tracker} (ha : s.accts.Grows s'.accts) (hw : s.words.Grows s'.words)
    (hs : s.slices.Grows s'.slices) (hi : s.inners.next ≤ s'.inners.next) (hr : ReadsGrow s s')
    (hb : s'.bs = { s.bs with preReads := s'.bs.preReads, ancOff := s'.bs.ancOff })
    (hj : s'.journal = s.journal) (hag : Agree s.Has s s') : Ext s s' :=
  ⟨ha, hw, hs, hi, hr, hb, [], hj, hag⟩

theorem Ext.refl (s : Tracker) : Ext s s :=
  .of_agree (.refl _) (.refl _) (.refl _) le_rfl (.refl s) rfl rfl (agree_refl s)

theorem Ext.trans {s₁ s₂ s₃ : Tracker} (h : Ext s₁ s₂) (h' : Ext s₂ s₃) : Ext s₁ s₃ := by
  obtain ⟨js, hj, ha⟩ := h.journal
  obtain ⟨js', hj', ha'⟩ := h'.journal
  refine ⟨h.accts.trans h'.accts, h.words.trans h'.words, h.slices.trans h'.slices,
    h.inners.trans h'.inners, h.reads.trans h'.reads, ?_, js' ++ js, ?_, ?_⟩
  · rw [h'.bs, h.bs]
  · rw [hj', hj, List.append_assoc]
  · intro t ht
    have ht₂ : s₂.Has t := has_congr h.inners ht
    have hund : Agree s₂.Has (s₂.undoAll js) ((s₃.undoAll js').undoAll js) := ha'.undoAll js
    obtain ⟨_, hhas, hk⟩ := hund t ht₂
    obtain ⟨_, _, hk₁⟩ := ha t ht
    rw [undoAll_append]
    exact ⟨ht, hhas, fun k => (hk₁ k).trans (hk k)⟩

instance : Std.Refl Ext := ⟨Ext.refl⟩

instance : IsTrans Tracker Ext := ⟨fun _ _ _ => Ext.trans⟩

/-- The state after undoing down to a mark of the journal. -/
def Tracker.restore (s : Tracker) (snap : Nat) : Tracker := s.restoreLoop snap s.journal

/-- Undoing down to a mark not below that of `s` stays in the relation. -/
theorem Ext.restore {s s' : Tracker} (h : Ext s s') {snap : Nat}
    (hsnap : s.journal.length ≤ snap) : Ext s (s'.restore snap) := by
  obtain ⟨js, hj, ha⟩ := h.journal
  rcases Nat.lt_or_ge snap s'.journal.length with hlt | hge
  · -- split the new records at the mark
    have hlen : s'.journal.length = js.length + s.journal.length := by rw [hj, List.length_append]
    set n := s'.journal.length - snap with hn
    have hsplit : s'.journal = js.take n ++ (js.drop n ++ s.journal) := by
      rw [← List.append_assoc, List.take_append_drop, hj]
    have hbase : (js.drop n ++ s.journal).length = snap := by
      rw [List.length_append, List.length_drop]; omega
    have hrun : s'.restore snap =
        { s'.undoAll (js.take n) with journal := js.drop n ++ s.journal } := by
      rw [Tracker.restore, ← hbase, hsplit]
      exact restoreLoop_append _ _ s'
    obtain ⟨h1, h2, h3, h4, h5, h6⟩ := undoAll_frame (s := s') (js.take n)
    rw [hrun]
    refine ⟨?_, ?_, ?_, ?_, ?_, ?_, js.drop n, rfl, ?_⟩
    · exact h1 ▸ h.accts
    · exact h2 ▸ h.words
    · exact h3 ▸ h.slices
    · exact h5 ▸ h.inners
    · exact h.reads.trans (.of_eq h6)
    · exact h4 ▸ h.bs
    · rw [undoAll_journal, ← undoAll_append, List.take_append_drop]
      intro t ht
      obtain ⟨_, hhas, hk⟩ := ha t ht
      exact ⟨ht, (has_journal _ t).mpr hhas, fun k => by rw [lookup_journal]; exact hk k⟩
  · rw [Tracker.restore, restoreLoop_of_le hge]
    exact h

/-- Undoing down to the mark of `s` gives every table of `s` its bindings back. -/
theorem Ext.restored {s s' : Tracker} (h : Ext s s') :
    Agree s.Has s (s'.restore s.journal.length) ∧
      (s'.restore s.journal.length).journal = s.journal := by
  obtain ⟨js, hj, ha⟩ := h.journal
  have hrun : s'.restore s.journal.length = { s'.undoAll js with journal := s.journal } := by
    rw [Tracker.restore, hj]
    exact restoreLoop_append _ _ s'
  rw [hrun]
  refine ⟨fun t ht => ?_, rfl⟩
  obtain ⟨_, hhas, hk⟩ := ha t ht
  exact ⟨ht, (has_journal _ t).mpr hhas, fun k => by rw [lookup_journal]; exact hk k⟩

/-- Restoring touches no record and no read set. -/
theorem restore_frame (s : Tracker) (snap : Nat) :
    (s.restore snap).accts = s.accts ∧ (s.restore snap).words = s.words ∧
      (s.restore snap).slices = s.slices ∧ (s.restore snap).bs = s.bs ∧
      (s.restore snap).inners.next = s.inners.next ∧
      (s.restore snap).readSets = s.readSets := by
  suffices ∀ j (s : Tracker), (s.restoreLoop snap j).accts = s.accts ∧
      (s.restoreLoop snap j).words = s.words ∧ (s.restoreLoop snap j).slices = s.slices ∧
      (s.restoreLoop snap j).bs = s.bs ∧ (s.restoreLoop snap j).inners.next = s.inners.next ∧
      (s.restoreLoop snap j).readSets = s.readSets from this s.journal s
  intro j
  induction j with
  | nil => exact fun s => ⟨rfl, rfl, rfl, rfl, rfl, rfl⟩
  | cons r js ih =>
    intro s
    unfold restoreLoop
    split
    · obtain ⟨h1, h2, h3, h4, h5, h6⟩ := ih (s.undo r)
      exact ⟨by simp [h1], by simp [h2], by simp [h3], by simp [h4], by simp [h5], by simp [h6]⟩
    · exact ⟨rfl, rfl, rfl, rfl, rfl, rfl⟩

end StatelessGuest
