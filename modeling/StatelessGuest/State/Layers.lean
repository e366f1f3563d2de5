import StatelessGuest.State.Scopes

/-!
# The layers are one flat state

A block is a sequence of transactions and system calls. Each runs in a fresh transaction state,
with snapshots that are committed or restored, and is merged into the block state at its end.
`Ledger` says what the state then is without tables: the witness's state with every committed
write applied in order, then the writes of the current transaction that survive.

* `History`: the runs of a block, with the ledger beside the tracker.
* `history_view`: the tables and the ledger agree.
* `layered_reads`: every read returns what the ledger has.
-/

namespace StatelessGuest

open Lib Tracker

section

variable [Keccak] (w : Witness)

/-! ## The flat state -/

/-- The state of the witness. -/
def Witness.view : View where
  account := w.account
  slot := w.slotOf
  below := w.slotOf
  code := w.codeOf
  transient _ := 0

/-- The flat state when the transaction began, now, and at the live snapshots. -/
structure Ledger where
  start : View
  now : View
  saved : List View

/-- The runs of a block. `running` says that a transaction has begun and is not yet merged. -/
inductive History : (running : Bool) → Scope → Ledger → Prop where
  | init : History false ⟨default, []⟩ ⟨w.view, w.view, []⟩
  | fresh {s : Tracker} {g : Ledger} (h : History false ⟨s, []⟩ g) :
      History true ⟨final (stateFreshTx s), []⟩ ⟨g.now, { g.now with transient := fun _ => 0 }, []⟩
  | write {c : Scope} {g : Ledger} {x : Write} {s : Tracker} (h : History true c g)
      (hrun : x.run w c.state = .ok () s) :
      History true { c with state := s } { g with now := x.effect g.now }
  | read {running : Bool} {c : Scope} {g : Ledger} {s : Tracker} (h : History running c g)
      (hread : ReadOnly c.state s) : History running { c with state := s } g
  | snapshot {c : Scope} {g : Ledger} (h : History true c g) :
      History true ⟨c.state, (c.state.journal.length, c.state) :: c.live⟩
        { g with saved := g.now :: g.saved }
  | commit {c : Scope} {g : Ledger} {e : Nat × Tracker} {rest : List (Nat × Tracker)}
      (h : History true c g) (hlive : c.live = e :: rest) :
      History true { c with live := rest } { g with saved := g.saved.tail }
  | restore {c : Scope} {g : Ledger} {e : Nat × Tracker} {rest : List (Nat × Tracker)}
      (h : History true c g) (hlive : c.live = e :: rest) :
      History true ⟨c.state.restore e.1, e :: rest⟩ { g with now := g.saved.headD g.now }
  | forget {s : Tracker} {g : Ledger} (h : History true ⟨s, []⟩ g) :
      History true ⟨{ s with journal := [] }, []⟩ g
  | merge {c : Scope} {g : Ledger} (h : History true c g) :
      History false ⟨final (mergeTxIntoBlock c.state), []⟩
        ⟨g.now, { g.now with below := g.now.slot }, []⟩

variable {w}

/-! ## The tables and the ledger -/

/-- The tracker shows the ledger's state; a merged one also does to the next transaction. -/
structure Shows (w : Witness) (running : Bool) (c : Scope) (g : Ledger) : Prop where
  sound : c.Sound
  now : c.state.view w = g.now
  saved : List.Forall₂ (fun e v => e.2.view w = v ∧ v.below = g.start.slot) c.live g.saved
  below : g.now.below = g.start.slot
  settled : running = false →
    (final (stateFreshTx c.state)).view w = { g.now with transient := fun _ => 0 } ∧
      g.now.below = g.now.slot

omit [Keccak] in
theorem readOnly_fresh {s s' : Tracker} (h : ReadOnly s s') :
    ReadOnly (final (stateFreshTx s)) (final (stateFreshTx s')) := by
  refine ⟨h.accts, h.words, h.slices, h.inners, ⟨fun _ hk => hk, fun _ hk => hk, fun _ hk => hk,
    fun _ hk => hk, h.reads.preReads⟩, rfl, h.bs, rfl, fun t => ?_⟩
  cases t with
  | inner p => exact congrArg (fun i => Arena.load i p) h.inners
  | _ => rfl

theorem effect_below (x : Write) (v : View) : (x.effect v).below = v.below := by
  have hcommit : ∀ (v : View) addr a, (v.commit addr a).below = v.below := by
    intro v addr a
    unfold View.commit
    split <;> rfl
  cases x with
  | update addr f => exact hcommit _ _ _
  | moveEther sender recipient amount => exact (hcommit _ _ _).trans (hcommit _ _ _)
  | _ => rfl

theorem history_view {running : Bool} {c : Scope} {g : Ledger} (h : History w running c g) :
    Shows w running c g := by
  induction h with
  | init =>
    exact ⟨.of_sound sound_default, rfl, .nil, rfl, fun _ => ⟨rfl, rfl⟩⟩
  | @fresh s g _ ih =>
    obtain ⟨hview, hbelow⟩ := ih.settled rfl
    exact ⟨.of_sound (sound_fresh ih.sound.sound), hview, .nil, hbelow, fun h => (nomatch h)⟩
  | @write c g x s _ hrun ih =>
    have hlay : Layered c.state (final (x.run w c.state)) := (Writing.write x).rel _
    rw [hrun, final_ok] at hlay
    refine ⟨ih.sound.act hlay, ?_, ih.saved, ?_, fun h => (nomatch h)⟩
    · rw [view_write ih.sound.sound hrun, ih.now]
    · rw [effect_below, ih.below]
  | @read running c g s _ hread ih =>
    refine ⟨ih.sound.act (Reading.readOnly hread), ?_, ih.saved, ih.below, fun hidle => ?_⟩
    · rw [view_readOnly ih.sound.sound hread, ih.now]
    · obtain ⟨hview, hbelow⟩ := ih.settled hidle
      refine ⟨?_, hbelow⟩
      rw [view_readOnly (sound_fresh ih.sound.sound) (readOnly_fresh hread), hview]
  | snapshot _ ih =>
    exact ⟨ih.sound.snapshot, ih.now, .cons ⟨ih.now, ih.below⟩ ih.saved, ih.below,
      fun h => (nomatch h)⟩
  | @commit c g e rest _ hlive ih =>
    have hsaved := ih.saved
    rw [hlive] at hsaved
    obtain ⟨v, vs, -, hrest, hvs⟩ := List.forall₂_cons_left_iff.mp hsaved
    refine ⟨ih.sound.commit hlive, ih.now, ?_, ih.below, fun h => (nomatch h)⟩
    rw [hvs]
    exact hrest
  | @restore c g e rest _ hlive ih =>
    have hsaved := ih.saved
    rw [hlive] at hsaved
    obtain ⟨v, vs, ⟨hview, hbelow⟩, -, hvs⟩ := List.forall₂_cons_left_iff.mp hsaved
    obtain ⟨hx, hs, hlen⟩ := ih.sound.ext e (hlive ▸ List.mem_cons_self)
    have hnow : g.saved.headD g.now = v := by rw [hvs]; rfl
    refine ⟨ih.sound.restore hlive, ?_, hsaved, hnow ▸ hbelow, fun h => (nomatch h)⟩
    change (c.state.restore e.1).view w = _
    rw [hlen, view_of_agree w hs (hx.restore le_rfl) hx.restored.1, hview, hnow]
  | @forget s g _ ih =>
    exact ⟨.of_sound (sound_forget ih.sound.sound), ih.now, ih.saved, ih.below,
      fun h => (nomatch h)⟩
  | @merge c g _ ih =>
    refine ⟨.of_sound (sound_merge ih.sound.sound), ?_, .nil, rfl, fun _ => ⟨?_, rfl⟩⟩
    · rw [view_merge w ih.sound.sound, ih.now]
    · rw [view_fresh_merge w ih.sound.sound, ih.now]

/-! ## Reads -/

/-- The account, the slots and the code that the reads return are those of a view. -/
structure ReadsOf (w : Witness) (s : Tracker) (v : View) : Prop where
  account : ∀ addr, result ((getAccount w addr >>= ldAcct) s) =
    (v.account addr).map fun a => a.getD emptyAcct
  accountExists : ∀ addr, result (accountExists w addr s) = (v.account addr).map Option.isSome
  storage : ∀ addr key, result (getStorage w addr key s) = v.slot addr key
  code : ∀ c addr, result (getCode w c addr s) = if c = emptyCodeHash then .ok [] else v.code c

theorem readsOf_view (w : Witness) (s : Tracker) : ReadsOf w s (s.view w) where
  account addr := result_getAccount w addr s
  accountExists addr := result_accountExists w addr s
  storage addr key := result_getStorage w addr key s
  code c addr := result_getCode w c addr s

/-- At any point of a block the reads return what the flat state has, and so they do once the
transaction is merged and the next one has begun. A slot's original value is the one it had when
the transaction began. -/
theorem layered_reads {running : Bool} {c : Scope} {g : Ledger} (h : History w running c g) :
    ReadsOf w c.state g.now ∧
      (∀ addr key, result (getTransientStorage addr key c.state) =
        .ok (g.now.transient (addr, key))) ∧
      ReadsOf w (final (mergeTxIntoBlock c.state)) g.now ∧
      ReadsOf w (final (stateFreshTx (final (mergeTxIntoBlock c.state)))) g.now ∧
      ∀ addr key, c.state.ts.created.has addr = false →
        result (getStorageOriginal w addr key c.state) = g.start.slot addr key := by
  have hshows := history_view h
  have hs := hshows.sound.sound
  refine ⟨?_, fun addr key => ?_, ?_, ?_, fun addr key hnew => ?_⟩
  · rw [← hshows.now]
    exact readsOf_view w c.state
  · rw [← hshows.now]
    exact result_getTransientStorage addr key c.state
  · have hmerge := readsOf_view w (final (mergeTxIntoBlock c.state))
    rw [view_merge w hs, hshows.now] at hmerge
    exact ⟨hmerge.account, hmerge.accountExists, hmerge.storage, hmerge.code⟩
  · have hfresh := readsOf_view w (final (stateFreshTx (final (mergeTxIntoBlock c.state))))
    rw [view_fresh_merge w hs, hshows.now] at hfresh
    exact ⟨hfresh.account, hfresh.accountExists, hfresh.storage, hfresh.code⟩
  · rw [result_getStorageOriginal, if_neg (by rw [hnew]; exact Bool.false_ne_true), ← hshows.below,
      ← hshows.now]
    rfl

end

section

attribute [local instance] numKeccak

/-- The first transaction pays 5 to an account, the second undoes a write to one of its slots. -/
theorem layered_reads_undone : ∃ c g, History emptyWitness true c g ∧
    ReadsOf emptyWitness c.state g.now ∧ c.live.length = 1 ∧
      (g.now.account 1).toOption = some (some { emptyAcct with balance := 5 }) ∧
      (g.now.slot 1 7).toOption = some 0 := by
  have hpay : result ((Write.update 1 fun a => { a with balance := a.balance + 5 }).run emptyWitness
      (final (stateFreshTx default))) = .ok () := by rfl
  have h₁ := History.merge (.write (.fresh (.init (w := emptyWitness))) (eq_ok_final hpay))
  have h₂ := History.snapshot (.fresh h₁)
  have hset : result ((Write.setStorage 1 7 9).run emptyWitness (final (stateFreshTx (final
      (mergeTxIntoBlock (final ((Write.update 1 fun a => { a with balance := a.balance + 5 }).run
        emptyWitness (final (stateFreshTx default))))))))) = .ok () := by rfl
  have h := (h₂.write (eq_ok_final hset)).restore rfl
  exact ⟨_, _, h, (layered_reads h).1, rfl, by rfl, by rfl⟩

end

end StatelessGuest
