import StatelessGuest.Htab.Stores

/-!
# Insertion into tables

A table with an entry more, in the same arrays or in new ones.

* `Htab.Stores.insertRaw`: an absent key is put at the end of the order.
* `htabGrow_spec`: growing keeps the map.
* `Htab.Holds.set`: the two together, or an update in place.
-/

namespace StatelessGuest

open Lib Heap

/-! ## Allocation -/

/-- The arenas are where they should be. -/
structure Heap.Sound (s : Heap) : Prop where
  heap : s.heapPtr ≤ heapEnd
  scratch : s.frameMem ≤ s.scratchPtr
  small : s.scratchPtr.toNat < 2 ^ 32

/-- An allocation keeps the arenas sound and fits in them, or it traps. -/
def Allocates (alloc : Word → HeapM Word) (code : Nat) : Prop :=
  ∀ n s, s.Sound → (∃ p s', alloc n s = .ok p s' ∧ s'.Sound ∧ n.toNat < 2 ^ 32) ∨
    ∃ s', alloc n s = .error (.trap code) s'

theorem heapAlloc_allocates : Allocates Heap.alloc 1 := by
  intro n s hs
  have hend : heapEnd.toNat < 2 ^ 32 := by decide
  unfold Heap.alloc
  rw [bind_run_ok (get_run s)]
  dsimp only
  split
  · exact .inr ⟨s, rfl⟩
  · next hfits =>
    split
    · exact .inr ⟨s, rfl⟩
    · next hq =>
      have hle := BitVec.le_def.mp (BitVec.not_lt.mp hfits)
      have hsub := BitVec.toNat_sub_of_le hs.heap
      exact .inl ⟨_, _, rfl, ⟨BitVec.not_lt.mp hq, hs.scratch, hs.small⟩, by omega⟩

theorem scratchAlloc_allocates : Allocates Heap.scratchAlloc 7 := by
  intro n s hs
  unfold Heap.scratchAlloc
  rw [bind_run_ok (get_run s)]
  dsimp only
  split
  · exact .inr ⟨s, rfl⟩
  · next hfits =>
    split
    · exact .inr ⟨s, rfl⟩
    · next hq =>
      have hsmall := hs.small
      have hscratch := BitVec.le_def.mp hs.scratch
      have hle := BitVec.le_def.mp (BitVec.not_lt.mp hfits)
      have hsub := BitVec.toNat_sub_of_le hs.scratch
      have hn : n.toNat ≤ s.scratchPtr.toNat := by omega
      have hand : ((s.scratchPtr - n) &&& (0 - 8)).toNat ≤ (s.scratchPtr - n).toNat := by
        rw [BitVec.toNat_and]
        exact Nat.and_le_left
      rw [BitVec.toNat_sub_of_le (BitVec.le_def.mpr hn)] at hand
      refine .inl ⟨_, _, rfl, ⟨hs.heap, BitVec.not_lt.mp hq, ?_⟩, by omega⟩
      change ((s.scratchPtr - n) &&& (0 - 8)).toNat < 2 ^ 32
      omega

/-- A program after an allocation. -/
theorem Allocates.bind {alloc : Word → HeapM Word} {code : Nat} (h : Allocates alloc code)
    {α : Type} {f : Word → HeapM α} {P : EStateM.Result Exn Heap α → Prop} {n : Word} {s : Heap}
    (hs : s.Sound) (hok : ∀ p s', s'.Sound → n.toNat < 2 ^ 32 → P (f p s'))
    (htrap : ∀ s', P (.error (.trap code) s')) : P ((alloc n >>= f) s) := by
  rcases h n s hs with ⟨p, s', hrun, hs', hn⟩ | ⟨s', hrun⟩
  · rw [bind_run_ok hrun]
    exact hok p s' hs' hn
  · rw [bind_run_error hrun]
    exact htrap s'

theorem leftover_run (s : Heap) :
    leftover s = .ok (s.stale 0) { s with stale := fun n => s.stale (n + 1) } := rfl

/-! ## An entry more -/

namespace Htab

variable {t : Htab} {m : OrdMap Bytes Word} {key : KeyAt} {i : Word}

theorem bytes_memcpyKey (p : Word) (row : Nat → UInt8) (key : KeyAt) (n : Word) :
    (KeyAt.mk p (memcpyKey row key n)).bytes n.toNat = key.bytes n.toNat := by
  rw [bytes_eq_iff]
  intro j hj
  exact if_pos hj

/-- The entry of a slot, from the arrays. -/
theorem entry_put (hi : i < t.cap) (row : Nat → UInt8) (value : Word) {flag : UInt8}
    (hflag : flag ≠ 0) (a : Word) :
    Htab.entry { t with
      keys := put t.keys i row, vals := put t.vals i value, used := put t.used i flag } a =
      Function.update t.entry i (some ((KeyAt.mk 0 row).bytes t.keyLen.toNat, value)) a := by
  by_cases ha : a = i
  · subst ha
    simp [entry, keyOf, keyAt, hi, hflag, KeyAt.bytes]
  · simp [entry, keyOf, keyAt, ha]

theorem entry_fill (hi : i < t.cap) (key : KeyAt) (value : Word) :
    (t.fill i key value).entry = Function.update t.entry i (some (t.keyOf key, value)) := by
  funext a
  have hentry := entry_put hi (memcpyKey (t.keys i) key t.keyLen) value
    (show (1 : UInt8) ≠ 0 by decide) a
  rw [bytes_memcpyKey] at hentry
  exact hentry

/-- The order with a slot more at its end. -/
theorem orderNat_put {n : Nat} {c : Word} (hc : c.toNat = n) {a : Word → Word} {k : Nat}
    (hk : k < 2 ^ 64) : put a c i (BitVec.ofNat 64 k) =
      Function.update (fun k => a (BitVec.ofNat 64 k)) n i k := by
  by_cases heq : k = n
  · subst heq
    have hsame : BitVec.ofNat 64 k = c := by
      apply BitVec.eq_of_toNat_eq
      rw [BitVec.toNat_ofNat, Nat.mod_eq_of_lt hk, hc]
    rw [Function.update_self, put, hsame, Function.update_self]
  · have hne : BitVec.ofNat 64 k ≠ c := by
      intro hsame
      apply heq
      rw [← hc, ← hsame, BitVec.toNat_ofNat, Nat.mod_eq_of_lt hk]
    rw [Function.update_of_ne heq, put, Function.update_of_ne hne]

theorem posNat_put {n : Nat} {c : Word} (hc : c.toNat = n) {a : Word → Word} (p : Word) :
    (put a i c p).toNat = Function.update (fun p => (a p).toNat) i n p := by
  by_cases heq : p = i
  · rw [heq, put, Function.update_self, Function.update_self, hc]
  · rw [put, Function.update_of_ne heq, Function.update_of_ne heq]

theorem Stores.fill (h : t.Stores m) (hi : i < t.cap) (hfree : t.entry i = none)
    (hfirst : ∀ q, (slotCircle t.cap h.pow).In q →
      (slotCircle t.cap h.pow).gap (t.home key) q < (slotCircle t.cap h.pow).gap (t.home key) i →
        t.entry q ≠ none)
    (hnew : t.keyOf key ∉ m.keys) (hlt : m.count < t.cap.toNat) (value : Word) :
    (t.fill i key value).Stores (m.set (t.keyOf key) value) := by
  have hpow := h.pow.lt
  have hone : (1 : Word).toNat = 1 := rfl
  have hentries := OrdMap.entries_set_of_notMem value hnew
  have hcount : (m.set (t.keyOf key) value).count = m.count + 1 := by
    rw [OrdMap.count, hentries, List.length_append, List.length_singleton]
    rfl
  have hword : t.count.toNat = m.entries.length := h.count
  refine ⟨h.pow, ?_, ?_, ?_⟩
  · change (t.count + 1).toNat = _
    rw [hcount, BitVec.toNat_add, h.count, hone, Nat.mod_eq_of_lt (by omega)]
  · rw [hentries, entry_fill hi]
    apply (h.linked.append hfree).congr
    · intro k hk
      rw [List.length_append, List.length_singleton] at hk
      have hle : m.entries.length < t.cap.toNat := hlt
      exact orderNat_put hword (by omega)
    · intro p _ _
      exact posNat_put hword p
  · rw [entry_fill hi]
    apply h.chained.place (slotCircle_in.mpr hi)
    rw [← home_eq]
    exact hfirst

/-- An absent key is inserted at the end. -/
theorem Stores.insertRaw (h : t.Stores m) (hnew : t.keyOf key ∉ m.keys)
    (hlt : m.count < t.cap.toNat) (value : Word) :
    ∃ t', htabInsertRaw t key value = .ok t' ∧ t'.Stores (m.set (t.keyOf key) value) ∧
      t'.cap = t.cap ∧ t'.keyLen = t.keyLen := by
  obtain ⟨e, he, hfree⟩ := h.exists_free hlt
  obtain ⟨i, hi, hstop, hfirst, hrun⟩ := Circle.search (c := slotCircle t.cap h.pow)
    (f := htabFreeSlotLoop t) (r := fun i => .ok i) (P := fun i => t.used i = 0)
    (fun n i hstop => by rw [htabFreeSlotLoop, if_neg (not_not.mpr hstop)])
    (fun n i hgo => by
      rw [htabFreeSlotLoop, if_pos hgo]
      rfl)
    (h.home_in key) ⟨e, he, (entry_eq_none (slotCircle_in.mp he)).mp hfree⟩
  have hi' := slotCircle_in.mp hi
  refine ⟨t.fill i key value, ?_, ?_, rfl, rfl⟩
  · unfold htabInsertRaw
    rw [show htabFreeSlotLoop t t.cap.toNat (t.home key) = .ok i from hrun]
    rfl
  · apply h.fill hi' ((entry_eq_none hi').mpr hstop) _ hnew hlt
    intro q hq hbefore hnone
    exact hfirst q hq hbefore ((entry_eq_none (slotCircle_in.mp hq)).mp hnone)

/-! ## Empty tables -/

theorem stores_empty (hpow : IsPow t.cap) (hcount : t.count = 0) (hused : ∀ i < t.cap, t.used i = 0) :
    t.Stores .empty := by
  have hnone : t.entry = fun _ => none := by
    funext i
    by_cases hi : i < t.cap
    · exact (entry_eq_none hi).mpr (hused i hi)
    · exact if_neg fun hin => hi hin.1
  refine ⟨hpow, by rw [hcount]; rfl, ?_, ?_⟩
  · rw [hnone]
    exact .nil
  · rw [hnone]
    exact chained_none

theorem memzero_eq {a : Word → UInt8} {n i : Word} (h : i < n) : Htab.memzero a n i = 0 := if_pos h

/-! ## Growth -/

/-- The map of the first entries. -/
def firstOf (m : OrdMap Bytes Word) (n : Nat) : OrdMap Bytes Word where
  entries := m.entries.take n
  nodup := m.nodup.sublist ((List.take_sublist _ _).map _)

theorem firstOf_notMem {n : Nat} (hn : n < m.entries.length) :
    m.entries[n].1 ∉ (firstOf m n).keys := by
  intro hmem
  obtain ⟨e, he, heq⟩ := List.mem_map.mp hmem
  obtain ⟨j, hj, rfl⟩ := List.getElem_of_mem he
  have hlen : j < n ∧ j < m.entries.length := by
    have hlt : j < (m.entries.take n).length := hj
    rw [List.length_take] at hlt
    omega
  have hsame := (@List.Nodup.getElem_inj_iff _ _ m.nodup j (by simpa using hlen.2) n
    (by simpa using hn)).mp (by simpa [firstOf] using heq)
  omega

theorem firstOf_succ {n : Nat} (hn : n < m.entries.length) :
    (firstOf m n).set m.entries[n].1 m.entries[n].2 = firstOf m (n + 1) := by
  apply OrdMap.ext
  rw [OrdMap.entries_set_of_notMem _ (firstOf_notMem hn)]
  exact (List.take_succ_eq_append_getElem hn).symm

theorem slt_eq {a b : Word} (ha : a.toNat < 2 ^ 63) (hb : b.toNat < 2 ^ 63) :
    a.slt b = decide (a.toNat < b.toNat) := by
  rw [BitVec.slt_eq_decide, BitVec.toInt_eq_toNat_of_lt (by omega),
    BitVec.toInt_eq_toNat_of_lt (by omega)]
  exact decide_eq_decide.mpr Int.ofNat_lt

/-- The entries of a table are inserted one after the other. -/
theorem Stores.growLoop {old : Htab} (hold : old.Stores m) (fuel : Nat) {k : Word}
    (ht : t.Stores (firstOf m k.toNat)) (hk : k.toNat ≤ m.count) (hlen : t.keyLen = old.keyLen)
    (hfuel : m.count - k.toNat < fuel) (hroom : m.count ≤ t.cap.toNat) :
    ∃ t', htabGrowLoop old old.count fuel k t = .ok t' ∧ t'.Stores m ∧ t'.cap = t.cap ∧
      t'.keyLen = t.keyLen := by
  have hcount := hold.count
  have hpow := ht.pow.lt
  have hone : (1 : Word).toNat = 1 := rfl
  induction fuel generalizing k t with
  | zero => exact absurd hfuel (Nat.not_lt_zero _)
  | succ fuel ih =>
    rw [htabGrowLoop, slt_eq (by omega) (by omega), hcount]
    by_cases hlt : k.toNat < m.count
    · have hn : k.toNat < m.entries.length := hlt
      have hnext : (k + 1).toNat = k.toNat + 1 := by
        rw [BitVec.toNat_add, hone, Nat.mod_eq_of_lt (by omega)]
      obtain ⟨hslot, -⟩ := hold.linked.slot _ hn
      have hword : old.orderNat k.toNat = old.order k := by
        unfold orderNat
        rw [BitVec.ofNat_toNat, BitVec.setWidth_eq]
      rw [hword] at hslot
      obtain ⟨-, -, hentry⟩ := entry_eq_some hslot
      have hkey : t.keyOf (old.keyAt (old.order k)) = m.entries[k.toNat].1 := by
        rw [hentry]
        unfold keyOf
        rw [hlen]
      have hval : old.vals (old.order k) = m.entries[k.toNat].2 := by rw [hentry]
      have hsmaller : (firstOf m k.toNat).count = k.toNat := by
        change (m.entries.take k.toNat).length = k.toNat
        rw [List.length_take, Nat.min_eq_left (Nat.le_of_lt hn)]
      have hnew : t.keyOf (old.keyAt (old.order k)) ∉ (firstOf m k.toNat).keys :=
        hkey ▸ firstOf_notMem hn
      obtain ⟨t', hrun, hstores, hcap, hlen'⟩ := ht.insertRaw hnew (by omega)
        (old.vals (old.order k))
      rw [hkey, hval, firstOf_succ hn, ← hnext] at hstores
      obtain ⟨t'', hrun', hstores', hcap', hlen''⟩ := ih hstores (by omega) (hlen'.trans hlen)
        (by omega) (hcap ▸ hroom) (hcap ▸ hpow)
      refine ⟨t'', ?_, hstores', hcap'.trans hcap, hlen''.trans hlen'⟩
      rw [decide_eq_true hlt, if_pos rfl]
      change (htabInsertRaw t (old.keyAt (old.order k)) (old.vals (old.order k)) >>= _) = _
      rw [hrun]
      exact hrun'
    · have hall : firstOf m k.toNat = m := OrdMap.ext (List.take_of_length_le (Nat.not_lt.mp hlt))
      refine ⟨t, ?_, hall ▸ ht, rfl, rfl⟩
      rw [decide_eq_false hlt]
      rfl

/-- What an operation may do: it succeeds, or it allocates and traps. -/
inductive Outcome {α : Type} (P : α → Prop) (allocates : Prop) :
    EStateM.Result Exn Heap α → Prop where
  | ok {a : α} {s : Heap} (hs : s.Sound) (h : P a) : Outcome P allocates (.ok a s)
  | trap {code : Nat} {s : Heap} (hcode : code = 1 ∨ code = 7) (h : allocates) :
      Outcome P allocates (.error (.trap code) s)

theorem Outcome.mono {α : Type} {P Q : α → Prop} {allocates : Prop}
    {r : EStateM.Result Exn Heap α} (h : Outcome P allocates r) (hPQ : ∀ a, P a → Q a) :
    Outcome Q allocates r := by
  cases h with
  | ok hs h => exact .ok hs (hPQ _ h)
  | trap hcode h => exact .trap hcode h

theorem isPow_double (h : IsPow t.cap) (hsmall : t.cap.toNat < 2 ^ 32) :
    IsPow (t.cap * 2) ∧ (t.cap * 2).toNat = 2 * t.cap.toNat := by
  have htwo : (2 : Word).toNat = 2 := rfl
  have hdouble : (t.cap * 2).toNat = 2 * t.cap.toNat := by
    rw [BitVec.toNat_mul, htwo, Nat.mod_eq_of_lt (by omega), Nat.mul_comm]
  obtain ⟨k, -, hk⟩ := h
  have hk32 : k < 32 := (Nat.pow_lt_pow_iff_right (by decide)).mp (hk ▸ hsmall)
  refine ⟨⟨k + 1, by omega, ?_⟩, hdouble⟩
  rw [hdouble, hk, Nat.pow_succ, Nat.mul_comm]

theorem Stores.grow (h : t.Stores m) (hsmall : t.cap.toNat < 2 ^ 32)
    (hlt : m.count ≤ t.cap.toNat) {s : Heap} (hs : s.Sound) :
    Outcome (fun t' => t'.Stores m ∧ t'.cap = t.cap * 2 ∧ t'.keyLen = t.keyLen ∧
      t'.cap.toNat < 2 ^ 32) True (htabGrow t s) := by
  obtain ⟨hpow, hdouble⟩ := isPow_double h.pow hsmall
  unfold htabGrow
  refine heapAlloc_allocates.bind hs (fun _ _ hs _ => ?_) fun _ => .trap (.inl rfl) trivial
  refine heapAlloc_allocates.bind hs (fun _ _ hs _ => ?_) fun _ => .trap (.inl rfl) trivial
  refine heapAlloc_allocates.bind hs (fun _ _ hs hcap => ?_) fun _ => .trap (.inl rfl) trivial
  refine heapAlloc_allocates.bind hs (fun _ _ hs _ => ?_) fun _ => .trap (.inl rfl) trivial
  refine heapAlloc_allocates.bind hs (fun nkeys s hs _ => ?_) fun _ => .trap (.inl rfl) trivial
  rw [bind_run_ok (leftover_run s)]
  dsimp only
  have hcount := h.count
  obtain ⟨t', hrun, hstores, hcap', hlen⟩ := h.growLoop (t.count.toNat + 1) (k := 0)
    (t := { t with
      toTableArrays := { s.stale 0 with used := memzero (s.stale 0).used (t.cap * 2) }
      cap := t.cap * 2, keysPtr := _, count := 0 })
    (stores_empty hpow rfl fun i hi => memzero_eq hi) (Nat.zero_le _) rfl
    (by rw [hcount]; exact Nat.lt_succ_of_le (Nat.sub_le _ _)) (by dsimp only; omega)
  rw [hrun]
  exact .ok ⟨hs.heap, hs.scratch, hs.small⟩ ⟨hstores, hcap', hlen, by rw [hcap']; exact hcap⟩

/-! ## Insertion or update -/

theorem Stores.update (h : t.Stores m) {k : Bytes} {v : Word} (hi : t.entry i = some (k, v))
    (value : Word) : Htab.Stores { t with vals := put t.vals i value } (m.set k value) := by
  obtain ⟨hlt, hused, hkey⟩ := entry_eq_some hi
  have hentry : Htab.entry { t with vals := put t.vals i value } =
      Function.update t.entry i (some (k, value)) := by
    funext a
    have hkeys : put t.keys i (t.keys i) = t.keys := Function.update_eq_self i _
    have hflags : put t.used i (t.used i) = t.used := Function.update_eq_self i _
    have hput := entry_put hlt (t.keys i) value hused a
    rw [hkeys, hflags] at hput
    rw [hput, show k = t.keyOf (t.keyAt i) from congrArg Prod.fst hkey]
    rfl
  have hentries := OrdMap.entries_set_of_getElem (v := value) (h.getElem hi)
  refine ⟨h.pow, ?_, ?_, ?_⟩
  · rw [OrdMap.count, hentries, List.length_set]
    exact h.count
  · rw [hentry, hentries]
    exact h.linked.replace hi
  · rw [hentry]
    exact h.chained.replace hi rfl

/-- A key is bound, in place or at the end of the order. -/
theorem Holds.set (h : t.Holds m) (key : KeyAt) (value : Word) {s : Heap} (hs : s.Sound) :
    Outcome (fun t' => t'.Holds (m.set (t.keyOf key) value) ∧ t'.keyLen = t.keyLen)
      (t.keyOf key ∉ m.keys ∧ t.cap.toNat < 2 * (m.count + 1)) (htabSet t key value s) := by
  have hcount := h.count
  have hload := h.load
  have hsmall := h.small
  have hone : (1 : Word).toNat = 1 := rfl
  have htwo : (2 : Word).toNat = 2 := rfl
  unfold htabSet
  rcases h.findSlot h.count_lt key with ⟨hfind, hnew⟩ | ⟨i, v, hfind, hi, hentry⟩
  · have hlen : (m.set (t.keyOf key) value).count = m.count + 1 := by
      rw [OrdMap.count, OrdMap.entries_set_of_notMem value hnew, List.length_append]
      rfl
    have hword : ((t.count + 1) * 2).toNat = 2 * (m.count + 1) := by
      rw [BitVec.toNat_mul, BitVec.toNat_add, hone, htwo, hcount,
        Nat.mod_eq_of_lt (show m.count + 1 < 2 ^ 64 by omega),
        Nat.mod_eq_of_lt (by omega), Nat.mul_comm]
    have hinsert : ∀ t' : Htab, t'.Stores m → t'.keyLen = t.keyLen →
        2 * (m.count + 1) ≤ t'.cap.toNat → t'.cap.toNat < 2 ^ 32 →
          ∃ t'', htabInsertRaw t' key value = .ok t'' ∧
            t''.Holds (m.set (t.keyOf key) value) ∧ t''.keyLen = t.keyLen := by
      intro t' hstores hlen' hroom hsmall'
      have hkey : t'.keyOf key = t.keyOf key := by
        unfold keyOf
        rw [hlen']
      obtain ⟨t'', hrun, hstores', hcap', hlen''⟩ :=
        hstores.insertRaw (hkey ▸ hnew) (by omega) value
      rw [hkey] at hstores'
      exact ⟨t'', hrun, ⟨hstores', by rw [hlen, hcap']; exact hroom, hcap' ▸ hsmall'⟩,
        hlen''.trans hlen'⟩
    rw [hfind]
    change Outcome _ _ ((if t.cap ≠ t.cap then _ else _ : HeapM Htab) s)
    rw [if_neg (not_not.mpr rfl)]
    by_cases hfull : t.cap < (t.count + 1) * 2
    · rw [if_pos hfull]
      rw [BitVec.lt_def, hword] at hfull
      have hgrown := h.toStores.grow hsmall (by omega) hs
      generalize hrun : htabGrow t s = r at hgrown
      cases hgrown with
      | @ok t' s' hs' hg =>
        obtain ⟨hstores, hcap, hlen', hsmall'⟩ := hg
        rw [bind_run_ok hrun]
        obtain ⟨-, hdouble⟩ := isPow_double h.pow hsmall
        have hpos := h.pow.pos
        have hroom : 2 * (m.count + 1) ≤ t'.cap.toNat := by
          rw [hcap, hdouble]
          omega
        obtain ⟨t'', hrun', hholds⟩ := hinsert t' hstores hlen' hroom hsmall'
        change Outcome _ _ ((ofExcept (htabInsertRaw t' key value) : HeapM Htab) s')
        rw [hrun']
        exact .ok hs' hholds
      | trap hcode _ =>
        rw [bind_run_error hrun]
        exact .trap hcode ⟨hnew, hfull⟩
    · rw [if_neg hfull]
      rw [BitVec.lt_def, hword] at hfull
      obtain ⟨t'', hrun, hholds⟩ := hinsert t h.toStores rfl (by omega) hsmall
      change Outcome _ _ ((ofExcept (htabInsertRaw t key value) : HeapM Htab) s)
      rw [hrun]
      exact .ok hs hholds
  · have hne : i ≠ t.cap := fun heq => (BitVec.lt_irrefl _ (heq ▸ hi))
    have hlen : (m.set (t.keyOf key) value).count = m.count := by
      rw [OrdMap.count, OrdMap.entries_set_of_getElem (h.getElem hentry), List.length_set]
      rfl
    rw [hfind]
    change Outcome _ _ ((if i ≠ t.cap then _ else _ : HeapM Htab) s)
    rw [if_pos hne]
    exact .ok hs ⟨⟨h.toStores.update hentry value, by rw [hlen]; exact hload, hsmall⟩, rfl⟩

end Htab

end StatelessGuest
