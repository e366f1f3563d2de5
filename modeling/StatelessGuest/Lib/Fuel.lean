import StatelessGuest.Lib.Exec

/-!
# Programs with fuel

A loop without a bound is a program that gets fuel. It ends if it has the same end with every amount
of fuel that is large enough.

* `Ends P F r`: a run returns with `P` or throws with `F`.
* `Halts x s P F`: with enough fuel the program ends so.
* `Halts.bind`: two programs finish one after the other.
-/

namespace StatelessGuest.Lib

variable {ε σ α β : Type} {P : α → σ → Prop} {Q : β → σ → Prop} {F G : ε → σ → Prop} {s : σ}

/-- What holds of the end of a run. -/
def Ends (P : α → σ → Prop) (F : ε → σ → Prop) : EStateM.Result ε σ α → Prop
  | .ok a s => P a s
  | .error e s => F e s

/-- There is an end that the program has with every large enough amount of fuel. -/
def Halts (x : Nat → EStateM ε σ α) (s : σ) (P : α → σ → Prop) (F : ε → σ → Prop) : Prop :=
  ∃ n r, (∀ fuel, x (n + fuel) s = r) ∧ Ends P F r

theorem halts_ok {x : Nat → EStateM ε σ α} {a : α} {s' : σ} (h : ∀ fuel, x fuel s = .ok a s')
    (ha : P a s') : Halts x s P F := by
  refine ⟨0, .ok a s', fun fuel => ?_, ha⟩
  rw [Nat.zero_add]
  exact h fuel

theorem halts_error {x : Nat → EStateM ε σ α} {e : ε} {s' : σ}
    (h : ∀ fuel, x fuel s = .error e s') (he : F e s') : Halts x s P F := by
  refine ⟨0, .error e s', fun fuel => ?_, he⟩
  rw [Nat.zero_add]
  exact h fuel

theorem halts_pure {a : α} (h : P a s) : Halts (fun _ => (pure a : EStateM ε σ α)) s P F :=
  halts_ok (fun _ => rfl) h

theorem Halts.mono {P' : α → σ → Prop} {x : Nat → EStateM ε σ α} (h : Halts x s P F)
    (hP : ∀ a s', P a s' → P' a s') (hF : ∀ e s', F e s' → G e s') : Halts x s P' G := by
  obtain ⟨n, r, hrun, hends⟩ := h
  refine ⟨n, r, hrun, ?_⟩
  cases r with
  | ok a s' => exact hP a s' hends
  | error e s' => exact hF e s' hends

theorem Halts.congr {x y : Nat → EStateM ε σ α} (h : Halts x s P F)
    (heq : ∀ fuel, y fuel s = x fuel s) : Halts y s P F := by
  obtain ⟨n, r, hrun, hends⟩ := h
  exact ⟨n, r, fun fuel => (heq _).trans (hrun fuel), hends⟩

/-- Two programs in a row halt if the second halts from wherever the first ends. -/
theorem Halts.bind {x : Nat → EStateM ε σ α} {f : Nat → α → EStateM ε σ β} (h : Halts x s P F)
    (hf : ∀ a s', P a s' → Halts (fun fuel => f fuel a) s' Q F) :
    Halts (fun fuel => x fuel >>= f fuel) s Q F := by
  obtain ⟨n, r, hrun, hends⟩ := h
  cases r with
  | error e s' => exact ⟨n, .error e s', fun fuel => bind_run_error (hrun fuel), hends⟩
  | ok a s' =>
    obtain ⟨m, r, hrun', hends'⟩ := hf a s' hends
    refine ⟨n + m, r, fun fuel => ?_, hends'⟩
    have hfirst := hrun (m + fuel)
    have hsecond := hrun' (n + fuel)
    rw [← Nat.add_assoc] at hfirst hsecond
    rw [Nat.add_comm m n] at hsecond
    exact (bind_run_ok hfirst).trans hsecond

end StatelessGuest.Lib
