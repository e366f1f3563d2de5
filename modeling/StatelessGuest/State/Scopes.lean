import StatelessGuest.State.Rollback
import StatelessGuest.State.Merge

/-!
# The states a block goes through

A block runs its transactions, system calls and withdrawals one after the other, each in a fresh
transaction state whose writes go to the block state at its end. `Reached w c` says that the
block can get to the state of the scope `c` with the snapshots of `c` alive.

* `Scope.Moves`: the steps of a scope whose operations a relation allows.
* `reached_of`: what the steps keep holds of every state of a block.
* `reached_sound`: in every such state the pointers of the tables are valid, and every snapshot
  can be restored.
-/

namespace StatelessGuest

open Lib Tracker

/-! ## Steps -/

/-- One step of a scope: what `T` allows, or a snapshot that is taken, committed or restored. -/
inductive Scope.Moves (T : Tracker → Tracker → Prop) : Scope → Scope → Prop where
  | act {c : Scope} {s : Tracker} (h : T c.state s) : Moves T c { c with state := s }
  | snapshot {c : Scope} : Moves T c ⟨c.state, (c.state.journal.length, c.state) :: c.live⟩
  | commit {c : Scope} {e : Nat × Tracker} {rest : List (Nat × Tracker)} (h : c.live = e :: rest) :
      Moves T c { c with live := rest }
  | restore {c : Scope} {e : Nat × Tracker} {rest : List (Nat × Tracker)} (h : c.live = e :: rest) :
      Moves T c ⟨c.state.restore e.1, e :: rest⟩

abbrev Scope.Run (T : Tracker → Tracker → Prop) : Scope → Scope → Prop :=
  Relation.ReflTransGen (Scope.Moves T)

/-- The state is sound, and every live snapshot can be restored. -/
structure Scope.Sound (c : Scope) : Prop where
  sound : StatelessGuest.Sound c.state
  ext : ∀ e ∈ c.live, Ext e.2 c.state ∧ StatelessGuest.Sound e.2 ∧ e.1 = e.2.journal.length
  nested : c.live.Pairwise fun later earlier => earlier.1 ≤ later.1

/-- A restored state meets the invariant its snapshot met. -/
theorem Sound.restored {s s' : Tracker} (h : Sound s) (hx : Ext s s') :
    Sound (s'.restore s.journal.length) :=
  h.of_agree (hx.restore le_rfl) hx.restored.1

namespace Scope.Sound

variable {c : Scope}

theorem act (h : c.Sound) {s : Tracker} (hlay : Layered c.state s) :
    Scope.Sound { c with state := s } := by
  refine ⟨hlay.sound h.sound, fun e he => ?_, h.nested⟩
  obtain ⟨hx, hs, hlen⟩ := h.ext e he
  exact ⟨hx.trans hlay.kept.1, hs, hlen⟩

theorem snapshot (h : c.Sound) :
    Scope.Sound ⟨c.state, (c.state.journal.length, c.state) :: c.live⟩ := by
  refine ⟨h.sound, fun e he => ?_, List.pairwise_cons.mpr ⟨fun e he => ?_, h.nested⟩⟩
  · rcases List.mem_cons.mp he with rfl | hmem
    · exact ⟨.refl _, h.sound, rfl⟩
    · exact h.ext e hmem
  · obtain ⟨hx, -, hlen⟩ := h.ext e he
    obtain ⟨js, hj, -⟩ := hx.journal
    rw [hlen, hj, List.length_append]
    exact Nat.le_add_left _ _

theorem commit (h : c.Sound) {e : Nat × Tracker} {rest : List (Nat × Tracker)}
    (hl : c.live = e :: rest) : Scope.Sound { c with live := rest } := by
  have hn := h.nested
  rw [hl] at hn
  exact ⟨h.sound, fun e he => h.ext e (hl ▸ List.mem_cons_of_mem _ he),
    (List.pairwise_cons.mp hn).2⟩

theorem restore (h : c.Sound) {e : Nat × Tracker} {rest : List (Nat × Tracker)}
    (hl : c.live = e :: rest) : Scope.Sound ⟨c.state.restore e.1, e :: rest⟩ := by
  have hext := h.ext
  have hn := h.nested
  rw [hl] at hn hext
  obtain ⟨hx, hs, hlen⟩ := hext e List.mem_cons_self
  refine ⟨hlen ▸ hs.restored hx, fun e' he' => ?_, hn⟩
  obtain ⟨hx', hs', hlen'⟩ := hext e' he'
  refine ⟨hx'.restore ?_, hs', hlen'⟩
  rcases List.mem_cons.mp he' with rfl | hmem
  · exact hlen'.ge
  · exact hlen' ▸ (List.pairwise_cons.mp hn).1 e' hmem

theorem moves {T : Tracker → Tracker → Prop} (hT : ∀ s s', T s s' → Layered s s') {c' : Scope}
    (h : c.Sound) (hm : Moves T c c') : c'.Sound := by
  cases hm with
  | act ht => exact h.act (hT _ _ ht)
  | snapshot => exact h.snapshot
  | commit hl => exact h.commit hl
  | restore hl => exact h.restore hl

theorem run {T : Tracker → Tracker → Prop} (hT : ∀ s s', T s s' → Layered s s') {c' : Scope}
    (h : c.Sound) (hr : Run T c c') : c'.Sound := by
  induction hr with
  | refl => exact h
  | tail _ hm ih => exact ih.moves hT hm

end Scope.Sound

/-! ## Blocks -/

section

variable [Keccak] (w : Witness)

/-- What the program does to the tracker between two snapshots: a write or reads. -/
def Acts (s s' : Tracker) : Prop := (∃ x : Write, s' = final (x.run w s)) ∨ ReadOnly s s'

/-- The states of a block, with the live snapshots. A write may also fail. Withdrawals throw their
undo records away. -/
inductive Reached : Scope → Prop where
  | init : Reached ⟨default, []⟩
  | move {c c' : Scope} (hc : Reached c) (h : Scope.Moves (Acts w) c c') : Reached c'
  | merge {s : Tracker} (hc : Reached ⟨s, []⟩) : Reached ⟨final (mergeTxIntoBlock s), []⟩
  | fresh {s : Tracker} (hc : Reached ⟨s, []⟩) : Reached ⟨final (stateFreshTx s), []⟩
  | forget {s : Tracker} (hc : Reached ⟨s, []⟩) : Reached ⟨{ s with journal := [] }, []⟩

variable {w}

theorem layered_acts {s s' : Tracker} (h : Acts w s s') : Layered s s' := by
  rcases h with ⟨x, rfl⟩ | h
  · exact (Writing.write (R := Layered) x).rel s
  · exact Reading.readOnly h

/-- A state that a program may leave behind is reached when the program's start is. -/
def Onward (w : Witness) (s s' : Tracker) : Prop :=
  ∀ live, Reached w ⟨s, live⟩ → Reached w ⟨s', live⟩

theorem onward_acts {s s' : Tracker} (h : Acts w s s') : Onward w s s' := fun _ hc =>
  hc.move (.act h)

instance : Reading (Onward w) where
  refl _ _ h := h
  trans _ _ _ h h' live hc := h' live (h live hc)
  read h := onward_acts (.inr (Reading.read h))
  alloc s a := onward_acts (.inr (Reading.alloc s a))

instance : Writing w (Onward w) where
  write x := ⟨fun _ => onward_acts (.inl ⟨x, rfl⟩)⟩

theorem Reached.run {c c' : Scope} (hc : Reached w c) (h : Scope.Run (Onward w) c c') :
    Reached w c' := by
  induction h with
  | refl => exact hc
  | tail _ hm ih =>
    cases hm with
    | act ht => exact ht _ ih
    | snapshot => exact ih.move .snapshot
    | commit hl => exact ih.move (.commit hl)
    | restore hl => exact ih.move (.restore hl)

/-! ## The invariant -/

omit [Keccak] in
theorem sound_default : Sound (default : Tracker) := by
  refine ⟨⟨fun t ht k v hv => ?_, fun a b p ha => (nomatch ha)⟩, fun _ _ h => (nomatch h),
    fun _ _ h => (nomatch h), fun _ _ _ h => (nomatch h), fun _ _ h => (nomatch h),
    fun _ _ _ h => (nomatch h), fun _ _ _ h => (nomatch h)⟩
  cases t with
  | inner p =>
    obtain ⟨a, ha⟩ := ht
    cases ha
  | acctWrites => cases hv
  | storWrites => cases hv
  | codeWrites => cases hv
  | transient => cases hv

omit [Keccak] in
theorem sound_forget {s : Tracker} (h : StatelessGuest.Sound s) :
    StatelessGuest.Sound { s with journal := [] } :=
  ⟨⟨h.vals, h.inj⟩, h.blockAccts, h.blockInners, h.blockWords, h.blockCodes, h.apart, h.blockInj⟩

omit [Keccak] in
/-- Without live snapshots only the state has to be sound. -/
theorem Scope.Sound.of_sound {s : Tracker} (hs : StatelessGuest.Sound s) : Scope.Sound ⟨s, []⟩ :=
  ⟨hs, fun _ he => absurd he List.not_mem_nil, List.Pairwise.nil⟩

theorem reached_sound {c : Scope} (h : Reached w c) : c.Sound := by
  induction h with
  | init => exact .of_sound sound_default
  | move _ hm ih => exact ih.moves (fun _ _ => layered_acts) hm
  | merge _ ih => exact .of_sound (sound_merge ih.sound)
  | fresh _ ih => exact .of_sound (sound_fresh ih.sound)
  | forget _ ih => exact .of_sound (sound_forget ih.sound)

end

end StatelessGuest
