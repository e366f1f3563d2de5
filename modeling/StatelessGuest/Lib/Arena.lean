import Mathlib.Data.List.Basic
import Mathlib.Data.List.Infix

/-!
# Arenas of records

A bump-allocated arena of records of one type. A pointer is the position of its record,
allocation appends, and nothing is freed. A read outside the arena yields the default
record and a write outside it does nothing.

`Grows a b` says that `b` holds every record of `a` unchanged; what a valid pointer of `a`
reads is then the same in `b`.
-/

namespace StatelessGuest.Lib

/-- The records allocated so far. -/
structure Arena (α : Type) where
  cells : List α
  deriving DecidableEq

namespace Arena

variable {α : Type}

/-- The arena without records. -/
def empty : Arena α := ⟨[]⟩

instance : Inhabited (Arena α) := ⟨empty⟩

/-- The pointer the next allocation returns. -/
def next (a : Arena α) : Nat := a.cells.length

/-- `p` points to an allocated record. -/
def Valid (a : Arena α) (p : Nat) : Prop := p < a.next

instance (a : Arena α) (p : Nat) : Decidable (a.Valid p) := inferInstanceAs (Decidable (p < _))

/-- Append a record; it is found at the old `next`. -/
def alloc (a : Arena α) (x : α) : Arena α := ⟨a.cells ++ [x]⟩

/-- Overwrite the record at `p`. -/
def store (a : Arena α) (p : Nat) (x : α) : Arena α := ⟨a.cells.set p x⟩

/-- The record at `p`. -/
def load [Inhabited α] (a : Arena α) (p : Nat) : α := a.cells.getD p default

@[simp] theorem next_alloc (a : Arena α) (x : α) : (a.alloc x).next = a.next + 1 := by
  simp [next, alloc]

@[simp] theorem next_store (a : Arena α) (p : Nat) (x : α) : (a.store p x).next = a.next := by
  simp [next, store]

theorem valid_alloc_self (a : Arena α) (x : α) : (a.alloc x).Valid a.next := by
  simp [Valid]

@[simp] theorem load_alloc_self [Inhabited α] (a : Arena α) (x : α) :
    (a.alloc x).load a.next = x := by
  simp [load, alloc, next]

theorem load_alloc_of_valid [Inhabited α] {a : Arena α} {p : Nat} (h : a.Valid p) (x : α) :
    (a.alloc x).load p = a.load p := by
  simp [load, alloc, List.getElem?_append_left h]

theorem load_store_self [Inhabited α] {a : Arena α} {p : Nat} (h : a.Valid p) (x : α) :
    (a.store p x).load p = x := by
  have : p < a.cells.length := h
  simp [load, store, this]

theorem load_store_of_ne [Inhabited α] {a : Arena α} {p q : Nat} (h : q ≠ p) (x : α) :
    (a.store p x).load q = a.load q := by
  simp [load, store, List.getElem?_set_ne (Ne.symm h)]

theorem alloc_store (a : Arena α) (x y : α) : (a.alloc x).store a.next y = a.alloc y := by
  simp [alloc, store, next]

/-! ## Growth -/

/-- Every record of `a` is still in `b`, unchanged. -/
def Grows (a b : Arena α) : Prop := a.cells <+: b.cells

theorem Grows.refl (a : Arena α) : Grows a a := List.prefix_rfl

theorem Grows.trans {a b c : Arena α} (h : Grows a b) (h' : Grows b c) : Grows a c :=
  List.IsPrefix.trans h h'

theorem grows_alloc (a : Arena α) (x : α) : Grows a (a.alloc x) := List.prefix_append _ _

theorem Grows.next_le {a b : Arena α} (h : Grows a b) : a.next ≤ b.next := h.length_le

theorem Grows.valid {a b : Arena α} (h : Grows a b) {p : Nat} (hp : a.Valid p) : b.Valid p :=
  Nat.lt_of_lt_of_le hp h.next_le

theorem Grows.load [Inhabited α] {a b : Arena α} (h : Grows a b) {p : Nat} (hp : a.Valid p) :
    b.load p = a.load p := by
  obtain ⟨rest, hrest⟩ := h
  have : p < a.cells.length := hp
  simp [Arena.load, ← hrest, List.getElem?_append_left this]

end Arena

end StatelessGuest.Lib
