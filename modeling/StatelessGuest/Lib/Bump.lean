import Mathlib.Data.List.Basic
import Mathlib.Order.Nat

/-!
# Blocks on a stack

An allocator that moves a pointer hands out blocks side by side. Marks and releases in pairs take
the last blocks back.

* `Laid`: blocks within bounds, aligned and apart from each other.
* `Ledger`: the blocks that are live and those that were at each mark.
* `Nested`: what holds at every mark, in a stack of them.
-/

namespace StatelessGuest.Lib

/-- An address and a size. -/
structure Block where
  start : Nat
  size : Nat

namespace Block

/-- Two blocks have no address in common. -/
def Disjoint (b c : Block) : Prop := b.start + b.size ≤ c.start ∨ c.start + c.size ≤ b.start

theorem Disjoint.symm {b c : Block} (h : b.Disjoint c) : c.Disjoint b := Or.symm h

def Within (lo hi : Nat) (b : Block) : Prop := lo ≤ b.start ∧ b.start + b.size ≤ hi

variable {lo hi lo' hi' : Nat} {b c : Block}

theorem Within.mono (h : b.Within lo hi) (hlo : lo' ≤ lo) (hhi : hi ≤ hi') : b.Within lo' hi' :=
  ⟨hlo.trans h.1, h.2.trans hhi⟩

theorem Within.disjoint (hb : b.Within lo hi) (hc : c.Within lo' hi') (h : hi ≤ lo') :
    b.Disjoint c := .inl (hb.2.trans (h.trans hc.1))

end Block

/-- The blocks are within the bounds, start at multiples of `a` and are apart from each other. -/
structure Laid (a lo hi : Nat) (bs : List Block) : Prop where
  within : ∀ b ∈ bs, b.Within lo hi
  aligned : ∀ b ∈ bs, a ∣ b.start
  apart : bs.Pairwise Block.Disjoint

variable {a a' lo hi lo' hi' : Nat} {b : Block} {bs cs : List Block}

theorem laid_nil (a lo hi : Nat) : Laid a lo hi [] :=
  ⟨fun _ h => absurd h List.not_mem_nil, fun _ h => absurd h List.not_mem_nil, .nil⟩

/-- A block above or below the others. -/
theorem Laid.cons (h : Laid a lo hi bs) (hb : b.Within lo' hi') (ha : a ∣ b.start) (hlo : lo' ≤ lo)
    (hhi : hi ≤ hi') (hoff : hi ≤ b.start ∨ b.start + b.size ≤ lo) : Laid a lo' hi' (b :: bs) where
  within := by
    intro c hc
    rcases List.mem_cons.mp hc with rfl | hc
    · exact hb
    · exact (h.within c hc).mono hlo hhi
  aligned := by
    intro c hc
    rcases List.mem_cons.mp hc with rfl | hc
    · exact ha
    · exact h.aligned c hc
  apart := by
    refine List.pairwise_cons.mpr ⟨fun c hc => ?_, h.apart⟩
    have hin := h.within c hc
    rcases hoff with hoff | hoff
    · exact .inr (hin.2.trans hoff)
    · exact .inl (hoff.trans hin.1)

/-- Blocks in two ranges that do not overlap. -/
theorem Laid.append (h : Laid a lo hi bs) (h' : Laid a' lo' hi' cs) (hle : hi ≤ lo') :
    (bs ++ cs).Pairwise Block.Disjoint :=
  List.pairwise_append.mpr ⟨h.apart, h'.apart,
    fun b hb c hc => (h.within b hb).disjoint (h'.within c hc) hle⟩

/-! ## Marks -/

/-- What is live, and the pointer and what was live at each mark, the last one first. -/
structure Ledger (P : Type) where
  live : List Block
  marks : List (P × List Block)

section

variable {P : Type} {holds : P → List Block → Prop} {before : P → P → Prop}

/-- At each mark `holds` did, and the pointer has moved on since. -/
def Nested (holds : P → List Block → Prop) (before : P → P → Prop) :
    P → List (P × List Block) → Prop
  | _, [] => True
  | p, (m, bs) :: marks => before m p ∧ holds m bs ∧ Nested holds before m marks

theorem Nested.moved (htrans : ∀ p q r, before p q → before q r → before p r) {p q : P}
    {marks : List (P × List Block)} (h : Nested holds before p marks) (hpq : before p q) :
    Nested holds before q marks := by
  cases marks with
  | nil => trivial
  | cons m marks => exact ⟨htrans _ _ _ h.1 hpq, h.2.1, h.2.2⟩

end

end StatelessGuest.Lib
