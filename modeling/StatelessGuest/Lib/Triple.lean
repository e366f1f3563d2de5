import StatelessGuest.Lib.Exec

/-!
# Pre- and postconditions

`Triple P x Q E`: from a state with `P`, a run of `x` that returns `a` ends with `Q a`, and one
that throws `e` ends with `E e`. `Agree P x y`: from a state with `P`, `x` and `y` run the same.
-/

namespace StatelessGuest.Lib

variable {ε σ α β : Type}

structure Triple (P : σ → Prop) (x : EStateM ε σ α) (Q : α → σ → Prop) (E : ε → σ → Prop) :
    Prop where
  ok : ∀ {s s' : σ} {a : α}, P s → x s = .ok a s' → Q a s'
  error : ∀ {s s' : σ} {e : ε}, P s → x s = .error e s' → E e s'

namespace Triple

variable {P P' : σ → Prop} {x : EStateM ε σ α} {Q Q' : α → σ → Prop} {E E' : ε → σ → Prop}

theorem pure {a : α} (h : ∀ s, P s → Q a s) : Triple P (Pure.pure a : EStateM ε σ α) Q E where
  ok hP hrun := by
    cases hrun
    exact h _ hP
  error _ hrun := by cases hrun

theorem throw {e : ε} (h : ∀ s, P s → E e s) :
    Triple P (MonadExcept.throw e : EStateM ε σ α) Q E where
  ok _ hrun := by cases hrun
  error hP hrun := by
    cases hrun
    exact h _ hP

theorem bind {f : α → EStateM ε σ β} {R : β → σ → Prop} (hx : Triple P x Q E)
    (hf : ∀ a, Triple (Q a) (f a) R E) : Triple P (x >>= f) R E where
  ok hP hrun := by
    obtain ⟨a, s', hxs, hfs⟩ := bind_ok.mp hrun
    exact (hf a).ok (hx.ok hP hxs) hfs
  error hP hrun := by
    obtain hxs | ⟨a, s', hxs, hfs⟩ := bind_error.mp hrun
    · exact hx.error hP hxs
    · exact (hf a).error (hx.ok hP hxs) hfs

theorem pre (h : Triple P x Q E) (hP : ∀ s, P' s → P s) : Triple P' x Q E where
  ok hs hrun := h.ok (hP _ hs) hrun
  error hs hrun := h.error (hP _ hs) hrun

theorem post (h : Triple P x Q E) (hQ : ∀ a s, Q a s → Q' a s) : Triple P x Q' E where
  ok hs hrun := hQ _ _ (h.ok hs hrun)
  error hs hrun := h.error hs hrun

theorem fails (h : Triple P x Q E) (hE : ∀ e s, E e s → E' e s) : Triple P x Q E' where
  ok hs hrun := h.ok hs hrun
  error hs hrun := hE _ _ (h.error hs hrun)

theorem get : Triple P (MonadState.get : EStateM ε σ σ) (fun a s => a = s ∧ P s) E where
  ok hP hrun := by
    cases hrun
    exact ⟨rfl, hP⟩
  error _ hrun := by cases hrun

theorem modify {f : σ → σ} {R : σ → Prop} (h : ∀ s, P s → R (f s)) :
    Triple P (MonadStateOf.modifyGet fun s => (PUnit.unit, f s) : EStateM ε σ PUnit)
      (fun _ => R) E where
  ok hP hrun := by
    cases hrun
    exact h _ hP
  error _ hrun := by cases hrun

/-- What every run keeps. -/
theorem of_keeps {S : σ → σ → Prop} (hx : Keeps S x) {R : σ → Prop}
    (hR : ∀ s s', P s → S s s' → R s') (hE : ∀ e s, R s → E e s) :
    Triple P x (fun _ => R) E where
  ok hP hrun := hR _ _ hP (hx.ok hrun)
  error hP hrun := hE _ _ (hR _ _ hP (hx.error hrun))

/-- A fact that every run keeps can be carried along. -/
theorem frame {S : σ → σ → Prop} {F : σ → Prop} (h : Triple P x Q E) (hx : Keeps S x)
    (hF : ∀ s s', F s → S s s' → F s') :
    Triple (fun s => P s ∧ F s) x (fun a s => Q a s ∧ F s) E where
  ok hs hrun := ⟨h.ok hs.1 hrun, hF _ _ hs.2 (hx.ok hrun)⟩
  error hs hrun := h.error hs.1 hrun

/-- Two facts about one program. -/
theorem and {P' : σ → Prop} (h : Triple P x Q E) (h' : Triple P' x Q' E') :
    Triple (fun s => P s ∧ P' s) x (fun a s => Q a s ∧ Q' a s) fun e s => E e s ∧ E' e s where
  ok hs hrun := ⟨h.ok hs.1 hrun, h'.ok hs.2 hrun⟩
  error hs hrun := ⟨h.error hs.1 hrun, h'.error hs.2 hrun⟩

/-- A precondition that is a pure fact besides. -/
theorem of_fact {p : Prop} (h : p → Triple P x Q E) : Triple (fun s => p ∧ P s) x Q E where
  ok hs hrun := (h hs.1).ok hs.2 hrun
  error hs hrun := (h hs.1).error hs.2 hrun

theorem of_exists {ι : Sort*} {F : ι → σ → Prop} (h : ∀ i, Triple (F i) x Q E) :
    Triple (fun s => ∃ i, F i s) x Q E where
  ok hs hrun := by
    obtain ⟨i, hi⟩ := hs
    exact (h i).ok hi hrun
  error hs hrun := by
    obtain ⟨i, hi⟩ := hs
    exact (h i).error hi hrun

/-- A loop over a list keeps what every round keeps. -/
theorem forM {xs : List α} {f : α → EStateM ε σ PUnit}
    (hf : ∀ a ∈ xs, Triple P (f a) (fun _ => P) E) : Triple P (forM xs f) (fun _ => P) E := by
  induction xs with
  | nil => exact .pure fun _ hs => hs
  | cons a xs ih =>
    rw [List.forM_cons]
    exact .bind (hf a List.mem_cons_self) fun _ => ih fun b hb => hf b (List.mem_cons_of_mem a hb)

end Triple

/-! ## Programs that agree -/

structure Agree (P : σ → Prop) (x y : EStateM ε σ α) : Prop where
  eq : ∀ s, P s → x s = y s

namespace Agree

variable {P P' : σ → Prop} {x y : EStateM ε σ α}

theorem refl (x : EStateM ε σ α) : Agree P x x := ⟨fun _ _ => rfl⟩

theorem pre (h : Agree P x y) (hP : ∀ s, P' s → P s) : Agree P' x y :=
  ⟨fun s hs => h.eq s (hP s hs)⟩

theorem bind {Q : α → σ → Prop} {f g : α → EStateM ε σ β} (hx : Agree P x y)
    (hQ : ∀ s a t, P s → x s = .ok a t → Q a t) (hf : ∀ a, Agree (Q a) (f a) (g a)) :
    Agree P (x >>= f) (y >>= g) := by
  refine ⟨fun s hs => ?_⟩
  rw [bind_run, bind_run, ← hx.eq s hs]
  cases hrun : x s with
  | ok a t => exact (hf a).eq t (hQ s a t hs hrun)
  | error e t => rfl

/-- After a step that keeps `P`. -/
theorem seq {R : σ → σ → Prop} {f g : α → EStateM ε σ β} (hx : Keeps R x)
    (hP : ∀ s t, P s → R s t → P t) (hf : ∀ a, Agree P (f a) (g a)) :
    Agree P (x >>= f) (x >>= g) :=
  .bind (.refl x) (fun s _ t hs hrun => hP s t hs (hx.ok hrun)) hf

/-- The first step is a value in every state with `P`. -/
theorem run {f : α → EStateM ε σ β} {z : EStateM ε σ β} (a : σ → α) (hx : ∀ s, P s → x s = .ok (a s) s)
    (hf : ∀ s, P s → f (a s) s = z s) : Agree P (x >>= f) z := by
  refine ⟨fun s hs => ?_⟩
  rw [bind_run_ok (hx s hs)]
  exact hf s hs

end Agree

end StatelessGuest.Lib
