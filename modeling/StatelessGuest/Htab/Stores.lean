import StatelessGuest.Lib.Circle
import StatelessGuest.Htab.Table

/-!
# Tables as finite maps

What a table says, and what its arrays keep: chains without a gap from the home of each entry, and
an order that two arrays have both ways.

* `Htab.Stores`: a table stores a map.
* `Htab.Stores.findSlot`: the search for a key.
-/

namespace StatelessGuest

open Lib

/-! ## Slots -/

/-- The capacity of a table. -/
def IsPow (cap : Word) : Prop := ∃ k, k < 63 ∧ cap.toNat = 2 ^ k

section

variable {cap : Word}

theorem IsPow.pos (h : IsPow cap) : 0 < cap.toNat := by
  obtain ⟨k, -, hk⟩ := h
  exact hk ▸ Nat.two_pow_pos k

theorem IsPow.lt (h : IsPow cap) : cap.toNat < 2 ^ 63 := by
  obtain ⟨k, hlt, hk⟩ := h
  exact hk ▸ Nat.pow_lt_pow_right (by decide) hlt

/-- The mask of a capacity. -/
theorem IsPow.toNat_and (h : IsPow cap) (x : Word) :
    (x &&& (cap - 1)).toNat = x.toNat % cap.toNat := by
  have hpos := h.pos
  have hone : (1 : Word).toNat = 1 := rfl
  obtain ⟨k, -, hk⟩ := h
  rw [BitVec.toNat_and, BitVec.toNat_sub_of_le (by rw [BitVec.le_def, hone]; omega), hone, hk,
    Nat.and_two_pow_sub_one_eq_mod]

theorem IsPow.and_lt (h : IsPow cap) (x : Word) : (x &&& (cap - 1)).toNat < cap.toNat := by
  rw [h.toNat_and]
  exact Nat.mod_lt _ h.pos

/-- The slots of a table. -/
def slotCircle (cap : Word) (h : IsPow cap) : Circle Word where
  size := cap.toNat
  pos := BitVec.toNat
  slot n := BitVec.ofNat 64 n
  next i := (i + 1) &&& (cap - 1)
  injective := fun _ _ => BitVec.eq_of_toNat_eq
  pos_slot n hn := by
    have hlt := cap.isLt
    rw [BitVec.toNat_ofNat, Nat.mod_eq_of_lt (by omega)]
  pos_next a ha := by
    have hlt := h.lt
    have hone : (1 : Word).toNat = 1 := rfl
    rw [h.toNat_and, BitVec.toNat_add, hone, Nat.mod_eq_of_lt (show a.toNat + 1 < 2 ^ 64 by omega)]
    split
    · next heq => rw [heq, Nat.mod_self]
    · next hne => exact Nat.mod_eq_of_lt (by omega)

theorem slotCircle_in {h : IsPow cap} {i : Word} : (slotCircle cap h).In i ↔ i < cap :=
  BitVec.lt_def.symm

end

/-! ## Contents -/

/-- The home of an entry. -/
def homeOf (cap : Word) (e : Bytes × Word) : Word := hashOf e.1 &&& (cap - 1)

namespace Htab

/-- The bytes of a key. -/
def keyOf (t : Htab) (key : KeyAt) : Bytes := key.bytes t.keyLen.toNat

/-- The entry in a slot. -/
def entry (t : Htab) (i : Word) : Option (Bytes × Word) :=
  if i < t.cap ∧ t.used i ≠ 0 then some (t.keyOf (t.keyAt i), t.vals i) else none

/-- The two arrays of the order, on numbers. -/
def orderNat (t : Htab) (n : Nat) : Word := t.order (BitVec.ofNat 64 n)

def posNat (t : Htab) (i : Word) : Nat := (t.orderPos i).toNat

/-- A table stores a map: its entries are those of the map in their order, and each of them is
found from its home on. -/
structure Stores (t : Htab) (m : OrdMap Bytes Word) : Prop where
  pow : IsPow t.cap
  count : t.count.toNat = m.count
  linked : Linked m.entries none t.orderNat t.posNat t.entry
  chained : Chained (slotCircle t.cap pow) (homeOf t.cap) t.entry

/-- A table that is at most half full, with arrays that fit in memory. -/
structure Holds (t : Htab) (m : OrdMap Bytes Word) : Prop extends t.Stores m where
  load : 2 * m.count ≤ t.cap.toNat
  small : t.cap.toNat < 2 ^ 32

variable {t : Htab} {m : OrdMap Bytes Word} {key : KeyAt} {i : Word}

theorem entry_eq_none (h : i < t.cap) : t.entry i = none ↔ t.used i = 0 := by
  simp [entry, h]

theorem entry_of_used (h : i < t.cap) (hused : t.used i ≠ 0) :
    t.entry i = some (t.keyOf (t.keyAt i), t.vals i) := if_pos ⟨h, hused⟩

theorem entry_eq_some {e : Bytes × Word} (h : t.entry i = some e) :
    i < t.cap ∧ t.used i ≠ 0 ∧ e = (t.keyOf (t.keyAt i), t.vals i) := by
  unfold entry at h
  split at h
  · next hi => exact ⟨hi.1, hi.2, (Option.some.inj h).symm⟩
  · cases h

/-- A search for a key starts at the home of the entries with that key. -/
theorem home_eq (t : Htab) (key : KeyAt) (v : Word) : t.home key = homeOf t.cap (t.keyOf key, v) := by
  unfold home homeOf keyOf
  rw [htabHash_eq]

theorem Holds.count_lt (h : t.Holds m) : m.count < t.cap.toNat := by
  have hpos := h.pow.pos
  have hload := h.load
  omega

section

variable (h : t.Stores m)

include h

theorem Stores.home_in (key : KeyAt) : (slotCircle t.cap h.pow).In (t.home key) :=
  h.pow.and_lt _

theorem Stores.homeOf_in (e : Bytes × Word) : (slotCircle t.cap h.pow).In (homeOf t.cap e) :=
  h.pow.and_lt _

theorem Stores.exists_free (hlt : m.count < t.cap.toNat) :
    ∃ e, (slotCircle t.cap h.pow).In e ∧ t.entry e = none :=
  h.linked.exists_free hlt

/-- An entry of the map is in a slot. -/
theorem Stores.exists_slot {k : Bytes} (hk : k ∈ m.keys) : ∃ i v, t.entry i = some (k, v) := by
  obtain ⟨⟨k, v⟩, he, rfl⟩ := List.mem_map.mp hk
  obtain ⟨n, hn, hget⟩ := List.getElem_of_mem he
  obtain ⟨hslot, -⟩ := h.linked.slot n hn
  exact ⟨_, v, hget ▸ hslot⟩

/-- The search finds the slot of a key, or that there is none. -/
theorem Stores.findSlot (hlt : m.count < t.cap.toNat) (key : KeyAt) :
    htabFindSlot t key = .ok t.cap ∧ t.keyOf key ∉ m.keys ∨
      ∃ i v, htabFindSlot t key = .ok i ∧ i < t.cap ∧ t.entry i = some (t.keyOf key, v) := by
  obtain ⟨e, he, hfree⟩ := h.exists_free hlt
  obtain ⟨i, hi, hstop, hfirst, hrun⟩ := Circle.search (c := slotCircle t.cap h.pow)
    (f := htabFindSlotLoop t key)
    (r := fun i => if t.used i = 0 then .ok t.cap else .ok i)
    (P := fun i => t.used i = 0 ∨ memeq (t.keyAt i) key t.keyLen.toNat = true)
    (fun n i hstop => by
      rw [htabFindSlotLoop]
      rcases hstop with hzero | hsame
      · rw [if_neg (not_not.mpr hzero), if_pos hzero]
      · by_cases hzero : t.used i = 0
        · rw [if_neg (not_not.mpr hzero), if_pos hzero]
        · rw [if_pos hzero, if_pos hsame, if_neg hzero])
    (fun n i hgo => by
      push Not at hgo
      rw [htabFindSlotLoop, if_pos hgo.1, if_neg hgo.2]
      rfl)
    (h.home_in key) ⟨e, he, .inl ((entry_eq_none (slotCircle_in.mp he)).mp hfree)⟩
  have hfind : htabFindSlot t key = if t.used i = 0 then .ok t.cap else .ok i := hrun
  have hi' := slotCircle_in.mp hi
  by_cases hzero : t.used i = 0
  · rw [if_pos hzero] at hfind
    refine .inl ⟨hfind, fun hk => ?_⟩
    obtain ⟨p, v, hp⟩ := h.exists_slot hk
    have hbefore := h.chained.gap_lt (h.homeOf_in _) hp hi ((entry_eq_none hi').mpr hzero)
    rw [← home_eq] at hbefore
    apply hfirst p (h.chained.inside hp) hbefore
    obtain ⟨-, -, hsame⟩ := entry_eq_some hp
    exact .inr (memeq_iff.mpr (congrArg Prod.fst hsame).symm)
  · rw [if_neg hzero] at hfind
    have hsame := memeq_iff.mp (hstop.resolve_left hzero)
    refine .inr ⟨i, t.vals i, hfind, hi', ?_⟩
    rw [entry_of_used hi' hzero]
    exact congrArg some (congrArg (·, t.vals i) hsame)

/-- The slot of a key is known to the map. -/
theorem Stores.getElem {k : Bytes} {v : Word} (hi : t.entry i = some (k, v)) :
    m.entries[t.posNat i]? = some (k, v) := h.linked.getElem hi

theorem Stores.get {k : Bytes} {v : Word} (hi : t.entry i = some (k, v)) : m.get k = some v :=
  OrdMap.get_eq_some.mpr (List.mem_of_getElem? (h.getElem hi))

end

/-! ## Lookups -/

/-- The answer of a lookup. -/
def found (o : Option Word) : Word × Word := o.elim (0, 0) (1, ·)

theorem Holds.get (h : t.Holds m) (key : KeyAt) :
    htabGet t key = .ok (found (m.get (t.keyOf key))) := by
  unfold htabGet
  rcases h.findSlot h.count_lt key with ⟨hfind, hnone⟩ | ⟨i, v, hfind, hi, hentry⟩
  · rw [hfind, OrdMap.get_eq_none.mpr hnone]
    exact if_pos rfl
  · rw [hfind, h.toStores.get hentry]
    obtain ⟨-, -, hval⟩ := entry_eq_some hentry
    have hne : i ≠ t.cap := fun heq => (BitVec.lt_irrefl _ (heq ▸ hi))
    change (if i = t.cap then _ else _ : Except Exn _) = _
    rw [if_neg hne, show v = t.vals i from congrArg Prod.snd hval]
    rfl

theorem Holds.has (h : t.Holds m) (key : KeyAt) :
    htabHas t key = .ok (if t.keyOf key ∈ m.keys then 1 else 0) := by
  unfold htabHas
  rcases h.findSlot h.count_lt key with ⟨hfind, hnone⟩ | ⟨i, v, hfind, hi, hentry⟩
  · rw [hfind, if_neg hnone]
    exact if_pos rfl
  · have hmem : t.keyOf key ∈ m.keys := by
      apply OrdMap.get_isSome.mp
      rw [h.toStores.get hentry]
      rfl
    have hne : i ≠ t.cap := fun heq => (BitVec.lt_irrefl _ (heq ▸ hi))
    rw [hfind, if_pos hmem]
    exact if_neg hne

end Htab

end StatelessGuest
