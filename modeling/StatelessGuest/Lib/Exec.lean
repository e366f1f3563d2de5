import Mathlib.Order.Defs.Unbundled

/-!
# Programs with state and exceptions

Rules for programs in `EStateM`, where a thrown exception keeps the state reached so far.

* `Keeps R x`: every run of `x`, returning or throwing, ends in a state `R`-related to the
  one it started from. For a reflexive and transitive `R` this composes along the program
  text, so the rules are instances and a program without loops is proved by inference.
* `Throws p x`: what `x` throws has `p`, by the same kind of rules.
* `bind_ok`, `bind_error`: the runs of a sequence, taken apart.
-/

namespace StatelessGuest.Lib

variable {ε σ α β : Type}

/-- The state a run ends in. -/
def final : EStateM.Result ε σ α → σ
  | .ok _ s => s
  | .error _ s => s

/-- What a run returns or throws. -/
def result : EStateM.Result ε σ α → Except ε α
  | .ok a _ => .ok a
  | .error e _ => .error e

@[simp] theorem final_ok (a : α) (s : σ) : final (.ok a s : EStateM.Result ε σ α) = s := rfl

@[simp] theorem final_error (e : ε) (s : σ) : final (.error e s : EStateM.Result ε σ α) = s := rfl

theorem eq_ok_final {r : EStateM.Result ε σ α} {a : α} (h : result r = .ok a) :
    r = .ok a (final r) := by
  cases r with
  | ok b s =>
    cases h
    rfl
  | error e s => cases h

/-! ## Runs of the basic programs -/

theorem pure_run (a : α) (s : σ) : (pure a : EStateM ε σ α) s = .ok a s := rfl

theorem throw_run (e : ε) (s : σ) : (throw e : EStateM ε σ α) s = .error e s := rfl

theorem get_run (s : σ) : (get : EStateM ε σ σ) s = .ok s s := rfl

theorem set_run (t s : σ) : (set t : EStateM ε σ PUnit) s = .ok ⟨⟩ t := rfl

theorem modify_run (f : σ → σ) (s : σ) :
    (modify f : EStateM ε σ PUnit) s = .ok ⟨⟩ (f s) := rfl

theorem bind_run (x : EStateM ε σ α) (f : α → EStateM ε σ β) (s : σ) :
    (x >>= f) s = match x s with
      | .ok a s' => f a s'
      | .error e s' => .error e s' := rfl

theorem bind_run_ok {x : EStateM ε σ α} {f : α → EStateM ε σ β} {s s' : σ} {a : α}
    (h : x s = .ok a s') : (x >>= f) s = f a s' := by
  rw [bind_run, h]

theorem bind_run_error {x : EStateM ε σ α} {f : α → EStateM ε σ β} {s s' : σ} {e : ε}
    (h : x s = .error e s') : (x >>= f) s = .error e s' := by
  rw [bind_run, h]

theorem bind_ok {x : EStateM ε σ α} {f : α → EStateM ε σ β} {s s'' : σ} {b : β} :
    (x >>= f) s = .ok b s'' ↔ ∃ a s', x s = .ok a s' ∧ f a s' = .ok b s'' := by
  rw [bind_run]
  constructor
  · intro h
    cases hx : x s with
    | ok a s' => rw [hx] at h; exact ⟨a, s', rfl, h⟩
    | error e s' => rw [hx] at h; cases h
  · rintro ⟨a, s', hx, hf⟩
    rw [hx]
    exact hf

theorem bind_error {x : EStateM ε σ α} {f : α → EStateM ε σ β} {s s'' : σ} {e : ε} :
    (x >>= f) s = .error e s'' ↔
      x s = .error e s'' ∨ ∃ a s', x s = .ok a s' ∧ f a s' = .error e s'' := by
  rw [bind_run]
  constructor
  · intro h
    cases hx : x s with
    | ok a s' => rw [hx] at h; exact .inr ⟨a, s', rfl, h⟩
    | error e' s' => rw [hx] at h; cases h; exact .inl rfl
  · rintro (hx | ⟨a, s', hx, hf⟩)
    · rw [hx]
    · rw [hx]
      exact hf

theorem tryCatch_run (x : EStateM ε σ α) (h : ε → EStateM ε σ α) (s : σ) :
    (tryCatch x h) s = match x s with
      | .ok a s' => .ok a s'
      | .error e s' => h e s' := by
  change EStateM.tryCatch x h s = _
  unfold EStateM.tryCatch
  cases x s <;> rfl

/-! ## Relations kept by every run -/

/-- Every run of `x`, returning or throwing, ends in a state related to its first. -/
class Keeps (R : σ → σ → Prop) (x : EStateM ε σ α) : Prop where
  rel : ∀ s, R s (final (x s))

theorem Keeps.ok {R : σ → σ → Prop} {x : EStateM ε σ α} (h : Keeps R x) {s s' : σ} {a : α}
    (hx : x s = .ok a s') : R s s' := by
  have := h.rel s
  rwa [hx] at this

theorem Keeps.error {R : σ → σ → Prop} {x : EStateM ε σ α} (h : Keeps R x) {s s' : σ} {e : ε}
    (hx : x s = .error e s') : R s s' := by
  have := h.rel s
  rwa [hx] at this

section Preorder

variable {R : σ → σ → Prop}

instance Keeps.pure [Std.Refl R] (a : α) : Keeps R (Pure.pure a : EStateM ε σ α) :=
  ⟨fun s => refl_of R s⟩

instance Keeps.throw [Std.Refl R] (e : ε) : Keeps R (MonadExcept.throw e : EStateM ε σ α) :=
  ⟨fun s => refl_of R s⟩

instance Keeps.get [Std.Refl R] : Keeps R (MonadState.get : EStateM ε σ σ) :=
  ⟨fun s => refl_of R s⟩

instance Keeps.bind [IsTrans σ R] (x : EStateM ε σ α) (f : α → EStateM ε σ β) [Keeps R x]
    [∀ a, Keeps R (f a)] : Keeps R (x >>= f) := by
  refine ⟨fun s => ?_⟩
  rw [bind_run]
  cases hx : x s with
  | ok a s' => exact trans_of R (Keeps.ok ‹Keeps R x› hx) (Keeps.rel s')
  | error e s' => exact Keeps.error ‹Keeps R x› hx

/-- A sequence, its second part by cases on the first one's result. -/
theorem Keeps.seq [IsTrans σ R] {x : EStateM ε σ α} {f : α → EStateM ε σ β} (hx : Keeps R x)
    (hf : ∀ a, Keeps R (f a)) : Keeps R (x >>= f) := Keeps.bind x f

instance Keeps.map [IsTrans σ R] (f : α → β) (x : EStateM ε σ α) [Keeps R x] :
    Keeps R (f <$> x) := by
  refine ⟨fun s => ?_⟩
  have := Keeps.rel (R := R) (x := x) s
  change R s (final (EStateM.map f x s))
  unfold EStateM.map
  cases hx : x s <;> rwa [hx] at this

instance Keeps.discard [IsTrans σ R] (x : EStateM ε σ α) [Keeps R x] :
    Keeps R (Functor.discard x) := Keeps.map _ x

instance Keeps.ite (c : Prop) [Decidable c] (x y : EStateM ε σ α) [Keeps R x] [Keeps R y] :
    Keeps R (if c then x else y) := by
  split <;> infer_instance

instance Keeps.tryCatch [IsTrans σ R] (x : EStateM ε σ α) (h : ε → EStateM ε σ α) [Keeps R x]
    [∀ e, Keeps R (h e)] : Keeps R (MonadExcept.tryCatch x h) := by
  refine ⟨fun s => ?_⟩
  rw [tryCatch_run]
  cases hx : x s with
  | ok a s' => exact Keeps.ok ‹Keeps R x› hx
  | error e s' => exact trans_of R (Keeps.error ‹Keeps R x› hx) (Keeps.rel s')

theorem Keeps.modify {f : σ → σ} (h : ∀ s, R s (f s)) :
    Keeps R (MonadStateOf.modifyGet fun s => (PUnit.unit, f s) : EStateM ε σ PUnit) :=
  ⟨h⟩

/-- A loop over a list keeps what every round keeps. -/
theorem Keeps.forM [Std.Refl R] [IsTrans σ R] (xs : List α) (f : α → EStateM ε σ PUnit)
    (hf : ∀ a, Keeps R (f a)) : Keeps R (forM xs f) := by
  induction xs with
  | nil => exact Keeps.pure _
  | cons a as ih =>
    rw [List.forM_cons]
    infer_instance

end Preorder

theorem Keeps.mono {R S : σ → σ → Prop} {x : EStateM ε σ α} (h : Keeps R x)
    (hRS : ∀ s t, R s t → S s t) : Keeps S x :=
  ⟨fun s => hRS _ _ (h.rel s)⟩

/-! ## What a program throws -/

/-- Every error that `x` throws has `p`. -/
class Throws (p : ε → Prop) (x : EStateM ε σ α) : Prop where
  error : ∀ {s : σ} {e : ε} {s' : σ}, x s = .error e s' → p e

section

variable {p : ε → Prop}

instance Throws.pure (a : α) : Throws p (Pure.pure a : EStateM ε σ α) :=
  ⟨fun h => by cases h⟩

theorem Throws.throw {e : ε} (h : p e) : Throws p (MonadExcept.throw e : EStateM ε σ α) :=
  ⟨fun hrun => by cases hrun; exact h⟩

instance Throws.get : Throws p (MonadState.get : EStateM ε σ σ) := ⟨fun h => by cases h⟩

instance Throws.set (t : σ) : Throws p (MonadStateOf.set t : EStateM ε σ PUnit) :=
  ⟨fun h => by cases h⟩

instance Throws.modify (f : σ → σ) : Throws p (modify f : EStateM ε σ PUnit) :=
  ⟨fun h => by cases h⟩

instance Throws.bind (x : EStateM ε σ α) (f : α → EStateM ε σ β) [Throws p x]
    [∀ a, Throws p (f a)] : Throws p (x >>= f) := by
  refine ⟨fun {s e s'} h => ?_⟩
  obtain hx | ⟨a, t, -, hf⟩ := bind_error.mp h
  · exact Throws.error hx
  · exact Throws.error hf

theorem Throws.seq {x : EStateM ε σ α} {f : α → EStateM ε σ β} (hx : Throws p x)
    (hf : ∀ a, Throws p (f a)) : Throws p (x >>= f) := Throws.bind x f

instance Throws.ite (c : Prop) [Decidable c] (x y : EStateM ε σ α) [Throws p x] [Throws p y] :
    Throws p (if c then x else y) := by
  split <;> infer_instance

theorem Throws.forM (xs : List α) (f : α → EStateM ε σ PUnit) (hf : ∀ a, Throws p (f a)) :
    Throws p (forM xs f) := by
  induction xs with
  | nil => exact Throws.pure _
  | cons a as ih =>
    rw [List.forM_cons]
    infer_instance

end

end StatelessGuest.Lib
