import Mathlib.Data.Set.Finite.Basic
import Mathlib.Data.Set.Function
import Mathlib.Logic.Function.Basic

/-!
# Maps with other values for some keys

A map is changed in passes, each of which gives some keys their values. The keys are known by names,
and the name has a value whatever the pass is. After all passes every name that was reached has its
value, as if they had been given at once.

* `Overlays`: a map that has the values of some names.
* `Overlays.trans`: one pass after another.
* `overlay`: the map after all passes.
-/

namespace StatelessGuest.Lib

variable {α κ ν : Type} {path : α → κ} {f : α → ν} {K K' : Set α} {M M' M'' : κ → ν}

/-- `M'` has the values `f` for the names in `K` and those of `M` apart from them. -/
structure Overlays (path : α → κ) (f : α → ν) (K : Set α) (M M' : κ → ν) : Prop where
  on : ∀ x ∈ K, M' (path x) = f x
  off : ∀ k, (∀ x ∈ K, path x ≠ k) → M' k = M k

theorem Overlays.refl (path : α → κ) (f : α → ν) (M : κ → ν) : Overlays path f ∅ M M :=
  ⟨fun _ h => h.elim, fun _ _ => rfl⟩

/-- A name that has its value already. -/
theorem overlays_of_eq {x : α} (h : M (path x) = f x) : Overlays path f {x} M M :=
  ⟨fun y hy => by
    obtain rfl : y = x := hy
    exact h, fun _ _ => rfl⟩

theorem overlays_update [DecidableEq κ] (path : α → κ) (f : α → ν) (M : κ → ν) (x : α) :
    Overlays path f {x} M (Function.update M (path x) (f x)) := by
  refine ⟨fun y hy => ?_, fun k hk => Function.update_of_ne (hk x rfl).symm _ _⟩
  obtain rfl : y = x := hy
  exact Function.update_self _ _ _

/-- What one pass has given, another one that names no key twice keeps. -/
theorem Overlays.trans (hinj : Set.InjOn path (K ∪ K')) (h : Overlays path f K M M')
    (h' : Overlays path f K' M' M'') : Overlays path f (K ∪ K') M M'' := by
  refine ⟨fun x hx => ?_, fun k hk => ?_⟩
  · by_cases hx' : x ∈ K'
    · exact h'.on x hx'
    · have hxK : x ∈ K := hx.resolve_right hx'
      rw [h'.off (path x) fun y hy heq => hx' (hinj (.inr hy) (.inl hxK) heq ▸ hy), h.on x hxK]
  · rw [h'.off k fun x hx => hk x (.inr hx), h.off k fun x hx => hk x (.inl hx)]

/-- What holds of the values of a map and of those that are given holds of the map with them. -/
theorem Overlays.forall {P : κ → ν → Prop} (h : Overlays path f K M M') (hM : ∀ k, P k (M k))
    (hf : ∀ x ∈ K, P (path x) (f x)) (k : κ) : P k (M' k) := by
  by_cases hk : ∀ x ∈ K, path x ≠ k
  · rw [h.off k hk]
    exact hM k
  · obtain ⟨x, hnot⟩ := not_forall.mp hk
    obtain ⟨hx, hne⟩ := Classical.not_imp.mp hnot
    rw [← not_not.mp hne, h.on x hx]
    exact hf x hx

/-- Finitely many keys are given finitely many values. -/
theorem Overlays.finite {z : ν} (h : Overlays path f K M M') (hM : {k | M k ≠ z}.Finite)
    (hK : K.Finite) : {k | M' k ≠ z}.Finite := by
  refine (hM.union (hK.image path)).subset fun k hk => ?_
  by_cases hpath : ∀ x ∈ K, path x ≠ k
  · refine .inl fun hz => hk ?_
    rw [h.off k hpath, hz]
  · obtain ⟨x, hnot⟩ := not_forall.mp hpath
    obtain ⟨hx, hne⟩ := Classical.not_imp.mp hnot
    exact .inr ⟨x, hx, not_not.mp hne⟩

/-- The map with the values `f` for the names in a list. -/
def overlay [DecidableEq κ] (names : List α) (path : α → κ) (f : α → ν) (M : κ → ν) : κ → ν :=
  fun k => ((names.find? fun x => path x = k).map f).getD (M k)

theorem overlays_overlay [DecidableEq κ] {names : List α}
    (hinj : Set.InjOn path {x | x ∈ names}) (f : α → ν) (M : κ → ν) :
    Overlays path f {x | x ∈ names} M (overlay names path f M) := by
  refine ⟨fun x hx => ?_, fun k hk => ?_⟩ <;> unfold overlay
  · cases hfind : names.find? fun y => path y = path x with
    | none => exact absurd (decide_eq_true rfl) (List.find?_eq_none.mp hfind x hx)
    | some y =>
      have hy := List.find?_some hfind
      rw [decide_eq_true_eq] at hy
      rw [hinj (List.mem_of_find?_eq_some hfind) hx hy]
      rfl
  · have hfind : (names.find? fun x => path x = k) = none :=
      List.find?_eq_none.mpr fun x hx h => hk x hx (of_decide_eq_true h)
    rw [hfind]
    rfl

/-- There is only one map with the values of some names. -/
theorem Overlays.eq_overlay [DecidableEq κ] {names : List α}
    (h : Overlays path f {x | x ∈ names} M M') : M' = overlay names path f M := by
  funext k
  unfold overlay
  cases hfind : names.find? fun x => path x = k with
  | none =>
    refine h.off k fun x hx hk => ?_
    exact List.find?_eq_none.mp hfind x hx (decide_eq_true hk)
  | some x =>
    have hk := List.find?_some hfind
    rw [decide_eq_true_eq] at hk
    rw [← hk]
    exact h.on x (List.mem_of_find?_eq_some hfind)

end StatelessGuest.Lib
