import StatelessGuest.Lib.Exec

/-!
# Loops that run until a round yields a result

`loop out round n` runs a round at most `n` times, until one yields a value, and throws `out`
when none of them did.

* `Goes round I n s t`: `n` rounds lead from `s` to `t` without yielding, each of them started
  in a state with `I`.
* `Starves out round n s`: `n` rounds from `s` are not enough.
* `Settles out x`: the runs of a bounded program that are not cut short agree.
-/

namespace StatelessGuest.Lib

variable {ε σ α : Type}

/-- Run rounds until one yields a value. -/
def loop (out : ε) (round : EStateM ε σ (Option α)) : Nat → EStateM ε σ α
  | 0 => throw out
  | n + 1 => do
    match ← round with
    | some a => return a
    | none => loop out round n

section

variable {out : ε} {round : EStateM ε σ (Option α)}

theorem loop_none {s s' : σ} (h : round s = .ok none s') (n : Nat) :
    loop out round (n + 1) s = loop out round n s' := by
  rw [loop, bind_run_ok h]

theorem loop_some {s s' : σ} {a : α} (h : round s = .ok (some a) s') (n : Nat) :
    loop out round (n + 1) s = .ok a s' := by
  rw [loop, bind_run_ok h]
  rfl

theorem loop_error {s s' : σ} {e : ε} (h : round s = .error e s') (n : Nat) :
    loop out round (n + 1) s = .error e s' := by
  rw [loop, bind_run_error h]

/-- A loop that ends for another reason than its bound ends the same with a larger one. -/
theorem loop_add {n : Nat} {s : σ} {r : EStateM.Result ε σ α} (h : loop out round n s = r)
    (hr : ∀ t, r ≠ .error out t) (k : Nat) : loop out round (n + k) s = r := by
  induction n generalizing s with
  | zero => exact absurd h.symm (hr s)
  | succ n ih =>
    rw [Nat.succ_add]
    cases hround : round s with
    | error e s' =>
      rw [loop_error hround] at h ⊢
      exact h
    | ok a s' =>
      cases a with
      | some a =>
        rw [loop_some hround] at h ⊢
        exact h
      | none =>
        rw [loop_none hround] at h ⊢
        exact ih h

/-! ## Stretches of rounds -/

/-- `n` rounds from `s` to `t` that yield nothing, each started in a state with `I`. -/
inductive Goes (round : EStateM ε σ (Option α)) (I : σ → Prop) : Nat → σ → σ → Prop where
  | refl (s : σ) : Goes round I 0 s s
  | step {n : Nat} {s s' t : σ} (hI : I s) (h : round s = .ok none s')
      (hgo : Goes round I n s' t) : Goes round I (n + 1) s t

variable {I J : σ → Prop}

theorem Goes.single {s s' : σ} (hI : I s) (h : round s = .ok none s') : Goes round I 1 s s' :=
  .step hI h (.refl s')

theorem Goes.trans {m n : Nat} {s t u : σ} (h : Goes round I m s t) (h' : Goes round I n t u) :
    Goes round I (m + n) s u := by
  induction h with
  | refl s => rwa [Nat.zero_add]
  | step hI hround _ ih =>
    rw [Nat.succ_add]
    exact .step hI hround (ih h')

theorem Goes.mono (hIJ : ∀ s, I s → J s) {n : Nat} {s t : σ} (h : Goes round I n s t) :
    Goes round J n s t := by
  induction h with
  | refl s => exact .refl s
  | step hI hround _ ih => exact .step (hIJ _ hI) hround ih

/-- The rounds of a stretch can be taken off a loop. -/
theorem Goes.loop_eq {n : Nat} {s t : σ} (h : Goes round I n s t) (k : Nat) :
    loop out round (n + k) s = loop out round k t := by
  induction h with
  | refl s => rw [Nat.zero_add]
  | step _ hround _ ih => rw [Nat.succ_add, loop_none hround, ih]

/-- What every round from a state with `I` keeps, a stretch keeps. -/
theorem Goes.keeps (hround : ∀ s t, I s → round s = .ok none t → I t) {n : Nat} {s t : σ}
    (h : Goes round J n s t) (hs : I s) : I t := by
  induction h with
  | refl s => exact hs
  | step _ hr _ ih => exact ih (hround _ _ hs hr)

/-- When every stretch is short, one ends in a round that yields a value or throws. -/
theorem ends_of_bounded {s : σ} {b : Nat} (h : ∀ n t, Goes round (fun _ => True) n s t → n ≤ b) :
    ∃ n ≤ b, ∃ t, Goes round (fun _ => True) n s t ∧ ∀ t', round t ≠ .ok none t' := by
  induction b generalizing s with
  | zero =>
    refine ⟨0, Nat.le_refl 0, s, .refl s, fun t' hround => ?_⟩
    exact absurd (h 1 t' (.single trivial hround)) (by decide)
  | succ b ih =>
    by_cases hnone : ∃ t', round s = .ok none t'
    · obtain ⟨t', hround⟩ := hnone
      obtain ⟨n, hn, t, hgo, hend⟩ := ih fun n t hgo =>
        Nat.le_of_succ_le_succ (h (n + 1) t (.step trivial hround hgo))
      exact ⟨n + 1, Nat.succ_le_succ hn, t, .step trivial hround hgo, hend⟩
    · exact ⟨0, Nat.zero_le _, s, .refl s, fun t' hround => hnone ⟨t', hround⟩⟩

/-! ## Rounds that are not enough -/

/-- `n` rounds from `s` are not enough for a result. -/
def Starves (out : ε) (round : EStateM ε σ (Option α)) (n : Nat) (s : σ) : Prop :=
  ∀ k ≤ n, ∃ t, loop out round k s = .error out t

theorem starves_zero (s : σ) : Starves out round 0 s := by
  intro k hk
  rw [Nat.le_zero.mp hk]
  exact ⟨s, rfl⟩

theorem Starves.mono {m n : Nat} {s : σ} (h : Starves out round n s) (hmn : m ≤ n) :
    Starves out round m s :=
  fun k hk => h k (Nat.le_trans hk hmn)

theorem Starves.step {n : Nat} {s s' : σ} (hround : round s = .ok none s')
    (h : Starves out round n s') : Starves out round (n + 1) s := by
  intro k hk
  cases k with
  | zero => exact ⟨s, rfl⟩
  | succ k =>
    rw [loop_none hround]
    exact h k (Nat.le_of_succ_le_succ hk)

theorem Starves.of_error {n : Nat} {s s' : σ} (hround : round s = .error out s') :
    Starves out round n s := by
  intro k _
  cases k with
  | zero => exact ⟨s, rfl⟩
  | succ k => exact ⟨s', loop_error hround k⟩

theorem Starves.of_goes {m n : Nat} {s t : σ} (hgo : Goes round I m s t)
    (h : Starves out round n t) : Starves out round (m + n) s := by
  induction hgo with
  | refl s => rwa [Nat.zero_add]
  | step _ hround _ ih =>
    rw [Nat.succ_add]
    exact .step hround (ih h)

end

/-! ## Bounded programs -/

variable {β : Type}

/-- The runs of a bounded program that were not cut short do not depend on the bound. -/
def Settles (out : ε) (x : Nat → EStateM ε σ α) : Prop :=
  ∀ s n k, (∀ t, x n s ≠ .error out t) → (∀ t, x k s ≠ .error out t) → x n s = x k s

variable {out : ε}

theorem settles_const (x : EStateM ε σ α) : Settles out fun _ => x := fun _ _ _ _ _ => rfl

theorem settles_loop (round : EStateM ε σ (Option α)) : Settles out (loop out round) := by
  intro s n k hn hk
  have h₁ := loop_add (n := n) (s := s) rfl hn k
  have h₂ := loop_add (n := k) (s := s) rfl hk n
  rw [Nat.add_comm] at h₂
  exact h₁.symm.trans h₂

theorem Settles.bind {x : Nat → EStateM ε σ α} {f : α → Nat → EStateM ε σ β}
    (hx : Settles out x) (hf : ∀ a, Settles out (f a)) :
    Settles out fun n => x n >>= fun a => f a n := by
  intro s n k hn hk
  change (x n >>= fun a => f a n) s = (x k >>= fun a => f a k) s
  have hne : ∀ j, (∀ t, (x j >>= fun a => f a j) s ≠ .error out t) →
      ∀ t, x j s ≠ .error out t :=
    fun j hj t ht => hj t (bind_run_error ht)
  have heq := hx s n k (hne n hn) (hne k hk)
  cases hxn : x n s with
  | error e t => rw [bind_run_error hxn, bind_run_error (heq.symm.trans hxn)]
  | ok a t =>
    have hxk := heq.symm.trans hxn
    rw [bind_run_ok hxn, bind_run_ok hxk]
    refine hf a t n k (fun u hu => hn u ?_) (fun u hu => hk u ?_)
    · exact (bind_run_ok hxn).trans hu
    · exact (bind_run_ok hxk).trans hu

end StatelessGuest.Lib
