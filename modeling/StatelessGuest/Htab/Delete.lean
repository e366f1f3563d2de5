import StatelessGuest.Htab.Insert

/-!
# Deletion from tables

The entries behind a deleted one are shifted back, and the last one takes its position in the
order.

* `Htab.shiftLoop_spec`: the shifts, up to the next free slot.
* `Htab.Holds.del`, `Htab.Holds.truncate`: the operations.
-/

namespace StatelessGuest

open Lib

namespace Htab

variable {t : Htab} {m : OrdMap Bytes Word} {key : KeyAt} {i j : Word}

/-! ## Shifts -/

/-- What can move is what depends on the hole. -/
theorem movable_iff {cap home : Word} (hpow : IsPow cap) (hi : i < cap) (hj : j < cap)
    (hhome : home < cap) (hne : j ≠ i) :
    movable i j home = true ↔
      (slotCircle cap hpow).gap home i < (slotCircle cap hpow).gap home j := by
  have hne' : j.toNat ≠ i.toNat := fun heq => hne (BitVec.eq_of_toNat_eq heq)
  rw [BitVec.lt_def] at hi hj hhome
  unfold movable Circle.gap slotCircle
  simp only [BitVec.le_def, BitVec.lt_def]
  split
  · simp only [Bool.or_eq_true, decide_eq_true_eq]
    split_ifs <;> omega
  · simp only [Bool.and_eq_true, decide_eq_true_eq]
    split_ifs <;> omega

/-- The entries without the one in the hole. -/
def around (t : Htab) (hole : Word) : Word → Option (Bytes × Word) :=
  Function.update t.entry hole none

theorem around_of_ne {hole a : Word} (h : a ≠ hole) : t.around hole a = t.entry a :=
  Function.update_of_ne h _ _

/-- A deletion between two shifts: `d` is the position without a slot, and the slots up to `j` do
not need the hole. -/
structure Opened (t : Htab) (es : List (Bytes × Word)) (d : Nat) (hole j : Word) : Prop where
  pow : IsPow t.cap
  small : es.length < 2 ^ 63
  used : t.used hole ≠ 0
  linked : Linked es (some d) t.orderNat t.posNat (t.around hole)
  shifting : Shifting (slotCircle t.cap pow) (homeOf t.cap) (t.around hole) hole j

/-- What shifts leave alone. -/
structure Same (t t' : Htab) : Prop where
  cap : t'.cap = t.cap
  keyLen : t'.keyLen = t.keyLen
  count : t'.count = t.count
  used : t'.used = t.used

theorem Same.trans {t₁ t₂ t₃ : Htab} (h : Same t₁ t₂) (h' : Same t₂ t₃) : Same t₁ t₃ :=
  ⟨h'.cap.trans h.cap, h'.keyLen.trans h.keyLen, h'.count.trans h.count, h'.used.trans h.used⟩

theorem around_shift {e : Bytes × Word} (hi : i < t.cap) (hused : t.used i ≠ 0)
    (hj : t.entry j = some e) :
    (t.shift i j).around j = Function.update (Function.update (t.around i) i (some e)) j none := by
  obtain ⟨-, -, rfl⟩ := entry_eq_some hj
  unfold around
  have hentry : (t.shift i j).entry =
      Function.update t.entry i (some (t.keyOf (t.keyAt j), t.vals j)) := by
    funext a
    have hflags : put t.used i (t.used i) = t.used := Function.update_eq_self i _
    have hput := entry_put hi (memcpyKey (t.keys i) (t.keyAt j) t.keyLen) (t.vals j) hused a
    rw [hflags, bytes_memcpyKey] at hput
    exact hput
  rw [hentry, Function.update_idem]

theorem Opened.move {es : List (Bytes × Word)} {d : Nat} {hole : Word} {e : Bytes × Word}
    (h : t.Opened es d hole j) (hne : t.next j ≠ hole) (he : t.entry (t.next j) = some e)
    (hmove : (slotCircle t.cap h.pow).gap (homeOf t.cap e) hole <
      (slotCircle t.cap h.pow).gap (homeOf t.cap e) (t.next j)) :
    (t.shift hole (t.next j)).Opened es d (t.next j) (t.next j) := by
  have hin := slotCircle_in.mp h.shifting.hole_in
  have hj : t.around hole (t.next j) = some e := (around_of_ne hne).trans he
  have haround := around_shift hin h.used he
  obtain ⟨hlt, -, -⟩ := h.linked.ord_of _ _ hj
  have hsmall := h.small
  refine ⟨h.pow, h.small, (entry_eq_some he).2.1, ?_, ?_⟩
  · rw [haround]
    apply (h.linked.move hj h.shifting.hole_free).congr
    · intro k hk
      exact orderNat_put (n := t.posNat (t.next j)) rfl (by omega)
    · intro p _ _
      exact posNat_put (n := t.posNat (t.next j)) rfl p
  · rw [haround]
    exact h.shifting.move hj hmove

/-- The shifts end at the next free slot. -/
theorem shiftLoop_spec {es : List (Bytes × Word)} {d : Nat} {e : Word} {fuel : Nat} {hole : Word}
    (h : t.Opened es d hole j) (he : e < t.cap) (hfree : t.used e = 0)
    (hfuel : (slotCircle t.cap h.pow).gap j e < fuel) :
    ∃ t' hole' j', htabShiftLoop fuel t hole j = .ok (t', hole') ∧ t'.Opened es d hole' j' ∧
      Same t t' ∧ t'.used (t'.next j') = 0 := by
  induction fuel generalizing t hole j with
  | zero => exact absurd hfuel (Nat.not_lt_zero _)
  | succ fuel ih =>
    have hein : (slotCircle t.cap h.pow).In e := slotCircle_in.mpr he
    have hehole : e ≠ hole := by
      rintro rfl
      exact h.used hfree
    have hearound : t.around hole e = none :=
      (around_of_ne hehole).trans ((entry_eq_none he).mpr hfree)
    have hne : t.next j ≠ hole := h.shifting.next_ne_hole hein hearound hehole
    have htoward : (slotCircle t.cap h.pow).gap (t.next j) e + 1 =
        (slotCircle t.cap h.pow).gap j e := h.shifting.toward hein hearound hehole
    have hnext : t.next j < t.cap := slotCircle_in.mp (Circle.next_in h.shifting.scan_in)
    rw [htabShiftLoop]
    by_cases hstop : t.used (t.next j) = 0
    · exact ⟨t, hole, j, if_pos hstop, h, ⟨rfl, rfl, rfl, rfl⟩, hstop⟩
    · have hentry := entry_of_used hnext hstop
      have hhome : t.home (t.keyAt (t.next j)) =
          homeOf t.cap (t.keyOf (t.keyAt (t.next j)), t.vals (t.next j)) := home_eq _ _ _
      have hhome_lt : t.home (t.keyAt (t.next j)) < t.cap :=
        BitVec.lt_def.mpr (h.pow.and_lt _)
      have hiff := movable_iff h.pow (slotCircle_in.mp h.shifting.hole_in) hnext hhome_lt hne
      rw [hhome] at hiff
      have hj : t.around hole (t.next j) = some _ := (around_of_ne hne).trans hentry
      by_cases hmove : movable hole (t.next j) (t.home (t.keyAt (t.next j))) = true
      · obtain ⟨t', hole', j', hrun, hopened, hsame, hlast⟩ :=
          ih (h.move hne hentry (hiff.mp (hhome ▸ hmove))) he hfree
            (show (slotCircle t.cap h.pow).gap (t.next j) e < fuel by omega)
        have hshift : Same t (t.shift hole (t.next j)) := ⟨rfl, rfl, rfl, rfl⟩
        refine ⟨t', hole', j', ?_, hopened, hshift.trans hsame, hlast⟩
        rw [if_neg hstop, if_pos hmove]
        exact hrun
      · have hstay := h.shifting.skip hne hj fun hlt => hmove (hhome ▸ hiff.mpr hlt)
        obtain ⟨t', hole', j', hrun, hopened, hsame, hlast⟩ :=
          ih ⟨h.pow, h.small, h.used, h.linked, hstay⟩ he hfree
            (show (slotCircle t.cap h.pow).gap (t.next j) e < fuel by omega)
        refine ⟨t', hole', j', ?_, hopened, hsame, hlast⟩
        rw [if_neg hstop, if_neg hmove]
        exact hrun

/-! ## The order -/

theorem entry_free (t : Htab) (hole d : Word) : (t.free hole d).entry = t.around hole := by
  funext a
  have hkeys : (t.free hole d).entry a =
      if a < t.cap ∧ put t.used hole 0 a ≠ 0 then some (t.keyOf (t.keyAt a), t.vals a) else none := by
    unfold free
    dsimp only
    split <;> rfl
  rw [hkeys]
  by_cases ha : a = hole
  · subst ha
    simp [around]
  · rw [around_of_ne ha]
    simp [entry, ha]

theorem free_cap (t : Htab) (hole d : Word) : (t.free hole d).cap = t.cap := by
  unfold Htab.free
  dsimp only
  split <;> rfl

theorem free_keyLen (t : Htab) (hole d : Word) : (t.free hole d).keyLen = t.keyLen := by
  unfold Htab.free
  dsimp only
  split <;> rfl

theorem Opened.free {es : List (Bytes × Word)} {d hole : Word}
    (h : t.Opened es d.toNat hole j) (hd : d.toNat < es.length) (hcount : t.count.toNat = es.length)
    (hfree : t.used (t.next j) = 0) (hnodup : ((swapRemove es d.toNat).map Prod.fst).Nodup) :
    (t.free hole d).Stores ⟨swapRemove es d.toNat, hnodup⟩ := by
  have hone : (1 : Word).toNat = 1 := rfl
  have hsmall := h.small
  have hlast : (t.count - 1).toNat = es.length - 1 := by
    rw [BitVec.toNat_sub_of_le (by rw [BitVec.le_def, hone]; omega), hone, hcount]
  have hnext : t.next j < t.cap := slotCircle_in.mp (Circle.next_in h.shifting.scan_in)
  have hne : t.next j ≠ hole := by
    intro heq
    exact h.used (heq ▸ hfree)
  have hcap := free_cap t hole d
  have hchained := h.shifting.finish (fun e => slotCircle_in.mpr (BitVec.lt_def.mpr (h.pow.and_lt _)))
    hne ((around_of_ne hne).trans ((entry_eq_none hnext).mpr hfree))
  refine ⟨hcap ▸ h.pow, ?_, ?_, ?_⟩
  · have hword : (t.free hole d).count = t.count - 1 := by
      unfold Htab.free
      dsimp only
      split <;> rfl
    rw [hword, hlast, OrdMap.count, length_swapRemove]
  · rw [entry_free]
    by_cases heq : d = t.count - 1
    · have harrays : (t.free hole d).orderNat = t.orderNat ∧ (t.free hole d).posNat = t.posNat := by
        unfold Htab.free
        dsimp only
        rw [if_neg (not_not.mpr heq)]
        exact ⟨rfl, rfl⟩
      rw [harrays.1, harrays.2]
      exact h.linked.close_last hd (heq ▸ hlast)
    · have hdlast : d.toNat ≠ es.length - 1 := by
        intro hsame
        exact heq (BitVec.eq_of_toNat_eq (hsame.trans hlast.symm))
      have hslot : t.order (t.count - 1) = t.orderNat (es.length - 1) := by
        unfold orderNat
        rw [← hlast, BitVec.ofNat_toNat, BitVec.setWidth_eq]
      have harrays : (t.free hole d).orderNat =
          (fun k => put t.order d (t.orderNat (es.length - 1)) (BitVec.ofNat 64 k)) ∧
          (t.free hole d).posNat =
            fun p => (put t.orderPos (t.orderNat (es.length - 1)) d p).toNat := by
        unfold Htab.free
        dsimp only
        rw [if_pos heq, hslot]
        exact ⟨rfl, rfl⟩
      rw [harrays.1, harrays.2]
      apply (h.linked.close hd hdlast).congr
      · intro k hk
        rw [length_swapRemove] at hk
        exact orderNat_put rfl (by omega)
      · intro p _ _
        exact posNat_put rfl p
  · have hcircle : ∀ {c : Word} (hc : c = t.cap) (hp : IsPow c),
        Chained (slotCircle c hp) (homeOf c) (t.around hole) := by
      rintro c rfl hp
      exact hchained
    rw [entry_free]
    exact hcircle hcap _

/-! ## Deletion -/

/-- A key is unbound, and the last entry moves to its position. -/
theorem Holds.del (h : t.Holds m) (key : KeyAt) :
    ∃ t', htabDel t key = .ok (if t.keyOf key ∈ m.keys then 1 else 0, t') ∧
      t'.Holds (m.del (t.keyOf key)) ∧ t'.keyLen = t.keyLen := by
  unfold htabDel
  rcases h.findSlot h.count_lt key with ⟨hfind, hnone⟩ | ⟨i, v, hfind, hi, hentry⟩
  · refine ⟨t, ?_, ?_, rfl⟩
    · rw [hfind, if_neg hnone]
      exact if_pos rfl
    · rw [OrdMap.del_of_notMem hnone]
      exact h
  · have hmem : t.keyOf key ∈ m.keys := by
      apply OrdMap.get_isSome.mp
      rw [h.toStores.get hentry]
      rfl
    have hne : i ≠ t.cap := fun heq => (BitVec.lt_irrefl _ (heq ▸ hi))
    have hget := h.getElem hentry
    obtain ⟨hd, -⟩ := List.getElem?_eq_some_iff.mp hget
    have hentries := OrdMap.entries_del_of_getElem hget
    have hload := h.load
    have hsmall := h.small
    obtain ⟨e, hein, hfree⟩ := h.exists_free h.count_lt
    have he := slotCircle_in.mp hein
    have hlen : m.entries.length = m.count := rfl
    have hopened : t.Opened m.entries (t.orderPos i).toNat i i :=
      ⟨h.pow, by omega, (entry_eq_some hentry).2.1, h.linked.unlink hentry,
        h.chained.shifting hentry⟩
    obtain ⟨t', hole, j, hrun, hopened', hsame, hlast⟩ := shiftLoop_spec hopened he
      ((entry_eq_none he).mp hfree) (Circle.gap_lt (h.chained.inside hentry) hein)
    have hnodup : ((swapRemove m.entries (t.orderPos i).toNat).map Prod.fst).Nodup :=
      m.entries_swapRemove_nodup hd
    have hstores := hopened'.free hd (by rw [hsame.count, h.count]; rfl) hlast hnodup
    have hmap : m.del (t.keyOf key) = ⟨_, hnodup⟩ := OrdMap.ext hentries
    refine ⟨t'.free hole (t.orderPos i), ?_, ⟨hmap ▸ hstores, ?_, ?_⟩, ?_⟩
    · rw [hfind, if_pos hmem]
      change (if i = t.cap then _ else _ : Except Exn _) = _
      rw [if_neg hne]
      rw [show htabShiftLoop t.cap.toNat t i i = _ from hrun]
      rfl
    · rw [free_cap, hsame.cap, hmap, OrdMap.count, length_swapRemove]
      omega
    · rw [free_cap, hsame.cap]
      exact hsmall
    · rw [free_keyLen, hsame.keyLen]

/-! ## Truncation -/

theorem Holds.truncateLoop (h : t.Holds m) {n : Word} {fuel : Nat} (hfuel : m.count - n.toNat < fuel) :
    ∃ t', htabTruncateLoop n fuel t = .ok t' ∧ t'.Holds (m.truncate n.toNat) ∧
      t'.keyLen = t.keyLen := by
  have hcount := h.count
  have hload := h.load
  have hsmall := h.small
  induction fuel generalizing t m with
  | zero => exact absurd hfuel (Nat.not_lt_zero _)
  | succ fuel ih =>
    rw [htabTruncateLoop]
    by_cases hlt : n < t.count
    · have hone : (1 : Word).toNat = 1 := rfl
      have hlt' := BitVec.lt_def.mp hlt
      have hlen : m.entries.length = m.count := rfl
      have hpos : m.count - 1 < m.entries.length := by omega
      have hlast : t.order (t.count - 1) = t.orderNat (m.count - 1) := by
        have hword : (t.count - 1).toNat = m.count - 1 := by
          rw [BitVec.toNat_sub_of_le (by rw [BitVec.le_def, hone]; omega), hone, hcount]
        unfold orderNat
        rw [← hword, BitVec.ofNat_toNat, BitVec.setWidth_eq]
      obtain ⟨hslot, -⟩ := h.linked.slot _ hpos
      rw [← hlast] at hslot
      obtain ⟨-, -, hentry⟩ := entry_eq_some hslot
      obtain ⟨t', hrun, hholds, hkeyLen⟩ := h.del (t.keyAt (t.order (t.count - 1)))
      have hkey : t.keyOf (t.keyAt (t.order (t.count - 1))) = m.entries[m.count - 1].1 :=
        (congrArg Prod.fst hentry).symm
      have hdel : m.del (t.keyOf (t.keyAt (t.order (t.count - 1)))) = m.delLast := by
        have hgetLast : m.entries.getLast? = some m.entries[m.count - 1] := by
          rw [List.getLast?_eq_getElem?]
          exact List.getElem?_eq_getElem hpos
        unfold OrdMap.delLast
        rw [hkey, hgetLast]
      have hcountLast : m.delLast.count = m.count - 1 := by
        rw [OrdMap.count, OrdMap.entries_delLast, List.length_dropLast]
        rfl
      rw [hdel] at hholds
      obtain ⟨t'', hrun', hholds', hkeyLen'⟩ := ih hholds (by omega) hholds.count hholds.load
        hholds.small
      refine ⟨t'', ?_, ?_, hkeyLen'.trans hkeyLen⟩
      · rw [if_pos hlt]
        change (htabDel t (t.keyAt (t.order (t.count - 1))) >>= _) = _
        rw [hrun]
        exact hrun'
      · have hstep : m.truncate n.toNat = m.delLast.truncate n.toNat := by
          unfold OrdMap.truncate
          rw [hcountLast, ← Function.iterate_succ_apply]
          congr 1
          omega
        rw [hstep]
        exact hholds'
    · have hall : m.truncate n.toNat = m := by
        apply OrdMap.ext
        rw [OrdMap.entries_truncate]
        apply List.take_of_length_le
        have hle := BitVec.le_def.mp (BitVec.not_lt.mp hlt)
        rw [hcount] at hle
        exact hle
      rw [if_neg hlt, hall]
      exact ⟨t, rfl, h, rfl⟩

/-- The entries that were inserted last are dropped. -/
theorem Holds.truncate (h : t.Holds m) (n : Word) :
    ∃ t', htabTruncate t n = .ok t' ∧ t'.Holds (m.truncate n.toNat) ∧ t'.keyLen = t.keyLen := by
  apply h.truncateLoop
  rw [h.count]
  exact Nat.lt_succ_of_le (Nat.sub_le _ _)

end Htab

end StatelessGuest
