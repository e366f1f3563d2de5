import Mathlib.Data.List.Basic

/-!
# Memories of bytes

A memory is a byte for every address. Ranges of it are read and written as lists.

* `load`, `store`: a range as a list, and a range replaced by one.
* `load_store_self`, `load_store_of_disjoint`: what is read after a write.
* `store_append`, `store_store`: writes side by side, and a write over another one.
* `SameBelow`: two memories that differ from an address on.
-/

namespace StatelessGuest.Lib

/-- A byte at every address. -/
abbrev ByteMap := Nat → UInt8

namespace ByteMap

/-- The `n` bytes from `p` on. -/
def load (m : ByteMap) (p : Nat) : Nat → List UInt8
  | 0 => []
  | n + 1 => m p :: load m (p + 1) n

/-- The memory with `bs` at `p`. -/
def store (m : ByteMap) (p : Nat) (bs : List UInt8) : ByteMap :=
  fun q => if p ≤ q then bs[q - p]?.getD (m q) else m q

variable {m m' : ByteMap} {p q n k : Nat} {bs cs : List UInt8}

/-! ## Reading -/

@[simp] theorem length_load (m : ByteMap) (p n : Nat) : (m.load p n).length = n := by
  induction n generalizing p with
  | zero => rfl
  | succ n ih => rw [load, List.length_cons, ih]

theorem getElem?_load {i : Nat} (h : i < n) : (m.load p n)[i]? = some (m (p + i)) := by
  induction n generalizing p i with
  | zero => exact absurd h (Nat.not_lt_zero i)
  | succ n ih =>
    cases i with
    | zero => rfl
    | succ i =>
      rw [load, List.getElem?_cons_succ, ih (Nat.lt_of_succ_lt_succ h), Nat.add_right_comm]
      rfl

theorem load_add (m : ByteMap) (p a b : Nat) :
    m.load p (a + b) = m.load p a ++ m.load (p + a) b := by
  induction a generalizing p with
  | zero => rw [Nat.zero_add]; rfl
  | succ a ih =>
    rw [Nat.succ_add, load, ih, load, List.cons_append, Nat.add_assoc, Nat.add_comm 1 a]

theorem load_congr (h : ∀ i < n, m (p + i) = m' (q + i)) : m.load p n = m'.load q n := by
  refine List.ext_getElem? fun i => ?_
  by_cases hi : i < n
  · rw [getElem?_load hi, getElem?_load hi, h i hi]
  · rw [List.getElem?_eq_none (by rw [length_load]; omega),
      List.getElem?_eq_none (by rw [length_load]; omega)]

theorem load_eq_iff : m.load p bs.length = bs ↔ ∀ i < bs.length, bs[i]? = some (m (p + i)) := by
  constructor
  · intro h i hi
    rw [← getElem?_load hi, h]
  · intro h
    refine List.ext_getElem? fun i => ?_
    by_cases hi : i < bs.length
    · rw [getElem?_load hi, h i hi]
    · rw [List.getElem?_eq_none (by rw [length_load]; omega), List.getElem?_eq_none (by omega)]

/-! ## Writing -/

theorem store_below (h : q < p) : m.store p bs q = m q := if_neg (Nat.not_le.mpr h)

theorem store_above (h : p + bs.length ≤ q) : m.store p bs q = m q := by
  unfold store
  rw [if_pos (by omega), List.getElem?_eq_none (by omega)]
  rfl

theorem store_off (h : q < p ∨ p + bs.length ≤ q) : m.store p bs q = m q :=
  h.elim store_below store_above

theorem store_at {i : Nat} (h : i < bs.length) : some (m.store p bs (p + i)) = bs[i]? := by
  unfold store
  rw [if_pos (Nat.le_add_right p i), Nat.add_sub_cancel_left, List.getElem?_eq_getElem h]
  rfl

@[simp] theorem store_nil (m : ByteMap) (p : Nat) : m.store p [] = m := by
  funext q
  refine store_off ?_
  rw [List.length_nil]
  omega

theorem load_store_self (m : ByteMap) (p : Nat) (bs : List UInt8) :
    (m.store p bs).load p bs.length = bs :=
  load_eq_iff.mpr fun _ hi => (store_at hi).symm

theorem load_store_of_disjoint (h : q + n ≤ p ∨ p + bs.length ≤ q) :
    (m.store p bs).load q n = m.load q n := by
  refine load_congr fun i hi => store_off ?_
  omega

/-- A byte of a range that was copied. -/
theorem store_load_at {i : Nat} (h : i < n) : m.store q (m'.load p n) (q + i) = m' (p + i) := by
  have hat : some (m.store q (m'.load p n) (q + i)) = (m'.load p n)[i]? :=
    store_at (by rwa [length_load])
  rw [getElem?_load h] at hat
  exact Option.some.inj hat

/-- What is already there. -/
theorem store_load_self (m : ByteMap) (p n : Nat) : m.store p (m.load p n) = m := by
  funext q
  by_cases h : q < p ∨ p + n ≤ q
  · exact store_off (by rwa [length_load])
  · obtain ⟨i, rfl⟩ := Nat.exists_eq_add_of_le (show p ≤ q by omega)
    exact store_load_at (by omega)

theorem store_append (m : ByteMap) (p : Nat) (bs cs : List UInt8) :
    m.store p (bs ++ cs) = (m.store p bs).store (p + bs.length) cs := by
  funext q
  unfold store
  by_cases hlow : p + bs.length ≤ q
  · rw [if_pos (by omega), if_pos hlow, if_pos (by omega),
      List.getElem?_append_right (by omega), List.getElem?_eq_none (l := bs) (by omega), Nat.sub_sub]
    rfl
  · rw [if_neg hlow]
    by_cases hp : p ≤ q
    · rw [if_pos hp, if_pos hp, List.getElem?_append_left (by omega)]
    · rw [if_neg hp, if_neg hp]

/-- A later write of at least the same range. -/
theorem store_store (h : bs.length ≤ cs.length) : (m.store p bs).store p cs = m.store p cs := by
  funext q
  unfold store
  by_cases hp : p ≤ q
  · rw [if_pos hp, if_pos hp, if_pos hp]
    by_cases hq : q - p < cs.length
    · rw [List.getElem?_eq_getElem hq]
      rfl
    · rw [List.getElem?_eq_none (l := cs) (by omega), List.getElem?_eq_none (l := bs) (by omega)]
      rfl
  · rw [if_neg hp, if_neg hp, if_neg hp]

theorem store_comm (h : p + bs.length ≤ q ∨ q + cs.length ≤ p) :
    (m.store p bs).store q cs = (m.store q cs).store p bs := by
  funext x
  by_cases hq : x < q ∨ q + cs.length ≤ x
  · rw [store_off hq]
    by_cases hp : x < p ∨ p + bs.length ≤ x
    · rw [store_off hp, store_off hp, store_off hq]
    · unfold store
      rw [if_pos (by omega), if_pos (by omega), List.getElem?_eq_getElem (by omega)]
      rfl
  · obtain ⟨i, rfl⟩ := Nat.exists_eq_add_of_le (show q ≤ x by omega)
    have hi : i < cs.length := by omega
    have hp : q + i < p ∨ p + bs.length ≤ q + i := by omega
    rw [store_off hp]
    exact Option.some.inj ((store_at hi).trans (store_at hi).symm)

/-! ## Memories that differ from an address on -/

/-- The memories agree below an address. -/
def SameBelow (lo : Nat) (m m' : ByteMap) : Prop := ∀ q < lo, m' q = m q

variable {lo lo' : Nat} {m'' : ByteMap}

theorem SameBelow.refl (lo : Nat) (m : ByteMap) : SameBelow lo m m := fun _ _ => rfl

theorem SameBelow.trans (h : SameBelow lo m m') (h' : SameBelow lo m' m'') :
    SameBelow lo m m'' :=
  fun q hq => (h' q hq).trans (h q hq)

theorem SameBelow.symm (h : SameBelow lo m m') : SameBelow lo m' m := fun q hq => (h q hq).symm

theorem SameBelow.mono (h : SameBelow lo m m') (hle : lo' ≤ lo) : SameBelow lo' m m' :=
  fun q hq => h q (Nat.lt_of_lt_of_le hq hle)

theorem sameBelow_store (h : lo ≤ p) : SameBelow lo m (m.store p bs) :=
  fun _ hq => store_below (Nat.lt_of_lt_of_le hq h)

theorem SameBelow.load (h : SameBelow lo m m') (hp : p + n ≤ lo) : m'.load p n = m.load p n :=
  load_congr fun i hi => h (p + i) (by omega)

end ByteMap

end StatelessGuest.Lib
