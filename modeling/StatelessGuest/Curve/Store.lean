import Mathlib.Algebra.Field.Basic
import Mathlib.Logic.Function.Basic
import StatelessGuest.Lib.ShortCurve

/-!
# Field elements in memory

The curve code keeps field elements in memory and passes addresses. A memory of elements has an
element at every address; a point is three of them.

* `Store`, `copyElems`.
* `coordsAt`: the point at an address.
* `MayAlias`: the ways in which a result may lie over an operand.
* `copyElems_at`: the copy does not read what it has written.
-/

namespace StatelessGuest.Curve

open Lib

/-- A memory of field elements; addresses count elements. -/
abbrev Store (K : Type) := Nat → K

section

variable {K : Type}

/-- `memcpy` of `n` elements, from the first to the last. -/
def copyElems (d s : Nat) : Nat → Store K → Store K
  | 0, c => c
  | n + 1, c => Function.update (copyElems d s n c) (d + n) (copyElems d s n c (s + n))

/-- The three elements of the point at `pt`. -/
def coordsAt (c : Store K) (pt : Nat) : Coords K := ⟨c pt, c (pt + 1), c (pt + 2)⟩

/-- Write a point. -/
def setCoords (pt : Nat) (p : Coords K) (c : Store K) : Store K :=
  Function.update (Function.update (Function.update c pt p.x) (pt + 1) p.y) (pt + 2) p.z

/-- `n` elements from `d` on lie over those from `s` on, or apart from them. -/
abbrev MayAlias (n d s : Nat) : Prop := d = s ∨ d + n ≤ s ∨ s + n ≤ d

/-- The memory below `h` is the same but for the `n` elements from `out` on. -/
def Only (n h out : Nat) (c c' : Store K) : Prop := ∀ i < h, i < out ∨ out + n ≤ i → c' i = c i

variable {c c' c'' : Store K} {d h n out pt s : Nat} {p : Coords K}

theorem copyElems_of_not_mem {i : Nat} (hi : i < d ∨ d + n ≤ i) : copyElems d s n c i = c i := by
  induction n with
  | zero => rfl
  | succ n ih => rw [copyElems, Function.update_of_ne (by omega), ih (by omega)]

/-- The element to be copied next has not been overwritten by another one. -/
theorem copyElems_source (hal : MayAlias n d s) {m k : Nat} (hmk : m ≤ k) (hk : k < n) :
    copyElems d s m c (s + k) = c (s + k) := by
  rcases hal with rfl | hal | hal
  · exact copyElems_of_not_mem (by omega)
  · exact copyElems_of_not_mem (by omega)
  · exact copyElems_of_not_mem (by omega)

theorem copyElems_at (hal : MayAlias n d s) {k : Nat} (hk : k < n) :
    copyElems d s n c (d + k) = c (s + k) := by
  have hprefix : ∀ m, k < m → m ≤ n → copyElems d s m c (d + k) = c (s + k) := by
    intro m
    induction m with
    | zero => exact fun h => absurd h (Nat.not_lt_zero k)
    | succ m ih =>
      intro hkm hmn
      rw [copyElems]
      by_cases heq : k = m
      · rw [heq, Function.update_self]
        exact copyElems_source hal (Nat.le_refl m) (by omega)
      · rw [Function.update_of_ne (by omega), ih (by omega) (by omega)]
  exact hprefix n hk (Nat.le_refl n)

theorem coordsAt_copyElems (hal : MayAlias 3 d s) :
    coordsAt (copyElems d s 3 c) d = coordsAt c s := by
  have h0 : copyElems d s 3 c d = c s := @copyElems_at K c d 3 s hal 0 (by decide)
  have h1 := @copyElems_at K c d 3 s hal 1 (by decide)
  have h2 := @copyElems_at K c d 3 s hal 2 (by decide)
  unfold coordsAt
  rw [h0, h1, h2]

@[simp] theorem coordsAt_setCoords (pt : Nat) (p : Coords K) (c : Store K) :
    coordsAt (setCoords pt p c) pt = p := by
  unfold coordsAt setCoords
  rw [Function.update_of_ne (by omega), Function.update_of_ne (by omega), Function.update_self,
    Function.update_of_ne (by omega), Function.update_self, Function.update_self]

theorem coordsAt_congr (h : ∀ i < 3, c' (pt + i) = c (pt + i)) :
    coordsAt c' pt = coordsAt c pt := by
  unfold coordsAt
  rw [h 1 (by decide), h 2 (by decide), ← Nat.add_zero pt, h 0 (by decide)]

theorem Only.refl (n h out : Nat) (c : Store K) : Only n h out c c := fun _ _ _ => rfl

theorem Only.trans (h1 : Only n h out c c') (h2 : Only n h out c' c'') : Only n h out c c'' :=
  fun i hi hout => (h2 i hi hout).trans (h1 i hi hout)

theorem only_setCoords (h pt : Nat) (p : Coords K) (c : Store K) :
    Only 3 h pt c (setCoords pt p c) := by
  intro i _ hi
  unfold setCoords
  rw [Function.update_of_ne (by omega), Function.update_of_ne (by omega),
    Function.update_of_ne (by omega)]

theorem only_copyElems (n h d s : Nat) (c : Store K) : Only n h d c (copyElems d s n c) :=
  fun _ _ hi => copyElems_of_not_mem hi

/-- A point apart from the written elements is kept. -/
theorem Only.coordsAt_eq (h1 : Only n h out c c') (hpt : pt + 3 ≤ h)
    (hapart : pt + 3 ≤ out ∨ out + n ≤ pt) : coordsAt c' pt = coordsAt c pt :=
  coordsAt_congr fun i hi => h1 (pt + i) (by omega) (by omega)

end

end StatelessGuest.Curve
