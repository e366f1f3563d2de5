import StatelessGuest.State.Ops

/-!
# Programs that change no account and no slot

`Quiet s s'` leaves the accounts, the slots and the created accounts of a state alone, records
included. Reads and the transient storage do.
-/

namespace StatelessGuest

open Lib Tracker

/-- The accounts, the slots and the created accounts stay. -/
structure Quiet (s s' : Tracker) : Prop where
  kept : Kept s s'
  inners : s'.inners = s.inners
  acctWrites : s'.ts.acctWrites = s.ts.acctWrites
  storWrites : s'.ts.storWrites = s.ts.storWrites
  created : s'.ts.created = s.ts.created

theorem Quiet.trans {s₁ s₂ s₃ : Tracker} (h : Quiet s₁ s₂) (h' : Quiet s₂ s₃) : Quiet s₁ s₃ where
  kept := trans_of Kept h.kept h'.kept
  inners := h'.inners.trans h.inners
  acctWrites := h'.acctWrites.trans h.acctWrites
  storWrites := h'.storWrites.trans h.storWrites
  created := h'.created.trans h.created

instance : Reading Quiet where
  refl s := ⟨refl_of Kept s, rfl, rfl, rfl, rfl⟩
  trans _ _ _ := Quiet.trans
  read h := ⟨Reading.read h, h.inners, h.table .acctWrites, h.table .storWrites, h.created⟩
  alloc s a := ⟨kept_acctAlloc s a, rfl, rfl, rfl, rfl⟩

theorem Quiet.of_readOnly {s s' : Tracker} (h : ReadOnly s s') : Quiet s s' :=
  ⟨.of_agree h.ext h.agree, h.inners, h.table .acctWrites, h.table .storWrites, h.created⟩

instance (addr : Address) (key : Hash) (value : U256) :
    Keeps Quiet (setTransientStorage addr key value) := by
  refine ⟨fun s => ?_⟩
  have hkept := Keeps.rel (R := Kept) (x := setTransientStorage addr key value) s
  unfold setTransientStorage at hkept ⊢
  split at hkept
  · next h =>
    rw [if_pos h]
    rw [jdel_run] at hkept ⊢
    split at hkept
    · next hnone => rw [if_pos hnone]; exact ⟨hkept, rfl, rfl, rfl, rfl⟩
    split at hkept
    · next hsome hcap =>
      rw [if_neg hsome, if_pos hcap]
      exact ⟨hkept, rfl, rfl, rfl, rfl⟩
    · next hsome hcap =>
      rw [if_neg hsome, if_neg hcap]
      exact ⟨hkept, rfl, rfl, rfl, rfl⟩
  · next h =>
    rw [if_neg h]
    change Kept s (final (jset .transient (addr, key) s.words.next
      { s with words := s.words.alloc value })) at hkept
    change Quiet s (final (jset .transient (addr, key) s.words.next
      { s with words := s.words.alloc value }))
    rw [jset_run] at hkept ⊢
    split at hkept
    · next hcap => rw [if_pos hcap]; exact ⟨hkept, rfl, rfl, rfl, rfl⟩
    · next hcap => rw [if_neg hcap]; exact ⟨hkept, rfl, rfl, rfl, rfl⟩

end StatelessGuest
