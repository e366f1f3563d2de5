import Mathlib.Data.Finset.Card
import Mathlib.Logic.Function.Basic
import StatelessGuest.Lib.OrdMap

/-!
# Open addressing

Entries in the slots of a circle: an entry is put into the first free slot from its home on, and
the entries behind a deleted one are shifted back.

* `Circle.gap`: the steps from one slot to another.
* `Chained`: from the home of an entry to its slot, no slot is free.
* `Shifting`: the state of a deletion, which has left a hole.
* `Linked`: the entries in the order of two arrays that are inverse to each other.
-/

namespace StatelessGuest.Lib

/-- Slots in a circle, with their positions. -/
structure Circle (ι : Type) where
  size : Nat
  pos : ι → Nat
  slot : Nat → ι
  next : ι → ι
  injective : Function.Injective pos
  pos_slot : ∀ n < size, pos (slot n) = n
  pos_next : ∀ a, pos a < size → pos (next a) = if pos a + 1 = size then 0 else pos a + 1

namespace Circle

variable {ι : Type} (c : Circle ι)

/-- Something is a slot. -/
def In (a : ι) : Prop := c.pos a < c.size

/-- The number of steps from `a` to `b`. -/
def gap (a b : ι) : Nat :=
  if c.pos a ≤ c.pos b then c.pos b - c.pos a else c.pos b + c.size - c.pos a

variable {c} {a b d : ι}

theorem next_in (h : c.In a) : c.In (c.next a) := by
  unfold In at h ⊢
  rw [c.pos_next a h]
  split <;> omega

@[simp] theorem gap_self (a : ι) : c.gap a a = 0 := by
  simp [gap]

theorem gap_lt (ha : c.In a) (hb : c.In b) : c.gap a b < c.size := by
  unfold In at ha hb
  unfold gap
  split <;> omega

/-- Slots with the same distance are the same. -/
theorem eq_of_gap_eq (ha : c.In a) (hb : c.In b) (hd : c.In d) (h : c.gap a b = c.gap a d) :
    b = d := by
  apply c.injective
  unfold In at ha hb hd
  unfold gap at h
  split_ifs at h <;> omega

theorem eq_of_gap_eq_zero (ha : c.In a) (hb : c.In b) (h : c.gap a b = 0) : a = b :=
  eq_of_gap_eq ha ha hb ((gap_self a).trans h.symm)

/-- A step is one more, unless it comes back to the start. -/
theorem gap_next (ha : c.In a) (hb : c.In b) (h : c.next b ≠ a) :
    c.gap a (c.next b) = c.gap a b + 1 := by
  have hne : c.pos (c.next b) ≠ c.pos a := fun heq => h (c.injective heq)
  have hnext := c.pos_next b hb
  unfold In at ha hb
  unfold gap
  split at hnext <;> split <;> split <;> omega

theorem gap_next_self (ha : c.In a) (hb : c.In b) (h : c.next b = a) :
    c.gap a b + 1 = c.size := by
  have hnext := c.pos_next b hb
  rw [h] at hnext
  unfold In at ha hb
  unfold gap
  split at hnext <;> split <;> omega

/-- A slot on the way. -/
theorem gap_add (ha : c.In a) (hb : c.In b) (hd : c.In d) (h : c.gap a b ≤ c.gap a d) :
    c.gap a d = c.gap a b + c.gap b d := by
  unfold In at ha hb hd
  unfold gap at h ⊢
  split_ifs at h ⊢ <;> omega

theorem gap_toward (ha : c.In a) (hb : c.In b) (h : a ≠ b) :
    c.gap (c.next a) b + 1 = c.gap a b := by
  have hne : c.pos a ≠ c.pos b := fun heq => h (c.injective heq)
  have hnext := c.pos_next a ha
  unfold In at ha hb
  unfold gap
  split at hnext <;> split <;> split <;> omega

theorem slot_in {n : Nat} (h : n < c.size) : c.In (c.slot n) := by
  unfold In
  rwa [c.pos_slot n h]

/-- All slots are reached from any of them. -/
theorem exists_gap (ha : c.In a) {n : Nat} (h : n < c.size) : ∃ b, c.In b ∧ c.gap a b = n := by
  unfold In at ha
  by_cases hwrap : c.pos a + n < c.size
  · refine ⟨c.slot (c.pos a + n), slot_in hwrap, ?_⟩
    unfold gap
    rw [c.pos_slot _ hwrap]
    split <;> omega
  · have hlt : c.pos a + n - c.size < c.size := by omega
    refine ⟨c.slot (c.pos a + n - c.size), slot_in hlt, ?_⟩
    unfold gap
    rw [c.pos_slot _ hlt]
    split <;> omega

/-- A slot of some kind that comes first. -/
theorem exists_first {stop : ι → Prop} (he : ∃ e, c.In e ∧ stop e) :
    ∃ i, c.In i ∧ stop i ∧ ∀ q, c.In q → c.gap a q < c.gap a i → ¬ stop q := by
  obtain ⟨e, hin, hstop⟩ := he
  generalize hn : c.gap a e = n
  induction n using Nat.strongRecOn generalizing e with
  | ind n ih =>
    by_cases hfirst : ∀ q, c.In q → c.gap a q < n → ¬ stop q
    · exact ⟨e, hin, hstop, fun q hq hlt => hfirst q hq (hn ▸ hlt)⟩
    · push Not at hfirst
      obtain ⟨q, hq, hlt, hqstop⟩ := hfirst
      exact ih _ hlt q hq hqstop rfl

/-- A loop that goes from slot to slot ends at the first one to stop at. -/
theorem search {β : Type} {f : Nat → ι → β} {r : ι → β} {P : ι → Prop}
    (hstop : ∀ n i, P i → f (n + 1) i = r i)
    (hgo : ∀ n i, ¬ P i → f (n + 1) i = f n (c.next i)) (ha : c.In a)
    (he : ∃ e, c.In e ∧ P e) :
    ∃ i, c.In i ∧ P i ∧ (∀ q, c.In q → c.gap a q < c.gap a i → ¬ P q) ∧
      f c.size a = r i := by
  obtain ⟨i, hin, hi, hfirst⟩ := exists_first (a := a) he
  have hrun : ∀ n b, c.In b → c.gap a b ≤ c.gap a i → c.gap b i < n → f n b = r i := by
    intro n
    induction n with
    | zero => exact fun _ _ _ hlt => absurd hlt (Nat.not_lt_zero _)
    | succ n ih =>
      intro b hb hle hlt
      by_cases hsame : b = i
      · exact hsame ▸ hstop n i hi
      · have htoward := gap_toward hb hin hsame
        have hsplit := gap_add ha hb hin hle
        have hbefore : ¬ P b := hfirst b hb (by omega)
        have hne : c.next b ≠ a := by
          intro heq
          have hall := gap_next_self ha hb heq
          have hlast := gap_lt ha hin
          omega
        have hnext := gap_next ha hb hne
        rw [hgo n b hbefore]
        exact ih _ (next_in hb) (by omega) (by omega)
  refine ⟨i, hin, hi, hfirst, hrun _ a ha ?_ (gap_lt ha hin)⟩
  rw [gap_self]
  exact Nat.zero_le _

end Circle

/-! ## Chains -/

section

variable {ι α : Type} [DecidableEq ι] (c : Circle ι) (home : α → ι)

/-- No slot is free between the home of an entry and the entry. -/
structure Chained (slots : ι → Option α) : Prop where
  inside : ∀ {p x}, slots p = some x → c.In p
  busy : ∀ {p x q}, slots p = some x → c.In q → c.gap (home x) q < c.gap (home x) p →
    slots q ≠ none

/-- A deletion has left a `hole`, and entries up to `scan` do not depend on it. -/
structure Shifting (slots : ι → Option α) (hole scan : ι) : Prop where
  hole_in : c.In hole
  scan_in : c.In scan
  hole_free : slots hole = none
  inside : ∀ {p x}, slots p = some x → c.In p
  busy : ∀ {p x q}, slots p = some x → c.In q → c.gap (home x) q < c.gap (home x) p →
    q ≠ hole → slots q ≠ none
  scanned : ∀ {q}, c.In q → q ≠ hole → c.gap hole q ≤ c.gap hole scan → slots q ≠ none
  settled : ∀ {p x}, slots p = some x → c.gap hole p ≤ c.gap hole scan →
    c.gap (home x) p ≤ c.gap (home x) hole

variable {c home} {slots : ι → Option α} {hole scan p q : ι} {x : α}

omit [DecidableEq ι] in
theorem chained_none : Chained c home fun _ => none where
  inside h := nomatch h
  busy h := nomatch h

omit [DecidableEq ι] in
/-- A search meets an entry before a free slot. -/
theorem Chained.gap_lt (h : Chained c home slots) (hhome : c.In (home x)) (hp : slots p = some x)
    (hq : c.In q) (hfree : slots q = none) : c.gap (home x) p < c.gap (home x) q := by
  rcases Nat.lt_trichotomy (c.gap (home x) p) (c.gap (home x) q) with hlt | heq | hgt
  · exact hlt
  · have hsame := Circle.eq_of_gap_eq hhome (h.inside hp) hq heq
    rw [hsame, hfree] at hp
    cases hp
  · exact absurd hfree (h.busy hp hq hgt)

theorem Chained.place (h : Chained c home slots) (hq : c.In q)
    (hbusy : ∀ r, c.In r → c.gap (home x) r < c.gap (home x) q → slots r ≠ none) :
    Chained c home (Function.update slots q (some x)) := by
  have hkeep : ∀ r, slots r ≠ none → Function.update slots q (some x) r ≠ none := by
    intro r hr
    by_cases heq : r = q
    · rw [heq, Function.update_self]
      exact Option.some_ne_none x
    · rwa [Function.update_of_ne heq]
  refine ⟨fun {p y} hp => ?_, fun {p y r} hp hr hlt => ?_⟩
  · by_cases heq : p = q
    · exact heq ▸ hq
    · rw [Function.update_of_ne heq] at hp
      exact h.inside hp
  · by_cases heq : p = q
    · subst heq
      rw [Function.update_self] at hp
      obtain rfl := Option.some.inj hp
      exact hkeep r (hbusy r hr hlt)
    · rw [Function.update_of_ne heq] at hp
      exact hkeep r (h.busy hp hr hlt)

/-- Another value at the same home. -/
theorem Chained.replace (h : Chained c home slots) {y : α} (hp : slots p = some y)
    (hhome : home x = home y) : Chained c home (Function.update slots p (some x)) := by
  apply h.place (h.inside hp)
  intro r hr hlt
  rw [hhome] at hlt
  exact h.busy hp hr hlt

/-! ## Deletion -/

theorem Chained.shifting (h : Chained c home slots) (hp : slots p = some x) :
    Shifting c home (Function.update slots p none) p p := by
  have hold : ∀ {r y}, Function.update slots p none r = some y → r ≠ p ∧ slots r = some y := by
    intro r y hr
    have hne : r ≠ p := by
      rintro rfl
      rw [Function.update_self] at hr
      cases hr
    rw [Function.update_of_ne hne] at hr
    exact ⟨hne, hr⟩
  refine ⟨h.inside hp, h.inside hp, Function.update_self .., fun hr => h.inside (hold hr).2,
    fun hr hq hlt hne => ?_, fun hq hne hle => ?_, fun hr hle => ?_⟩
  · rw [Function.update_of_ne hne]
    exact h.busy (hold hr).2 hq hlt
  · rw [Circle.gap_self, Nat.le_zero] at hle
    exact absurd (Circle.eq_of_gap_eq_zero (h.inside hp) hq hle).symm hne
  · rw [Circle.gap_self, Nat.le_zero] at hle
    obtain ⟨hne, hr⟩ := hold hr
    exact absurd (Circle.eq_of_gap_eq_zero (h.inside hp) (h.inside hr) hle).symm hne

section

variable {e : ι}

omit [DecidableEq ι] in
/-- A free slot ahead stops the scan before it comes around. -/
theorem Shifting.next_ne_hole (h : Shifting c home slots hole scan) (he : c.In e)
    (hfree : slots e = none) (hne : e ≠ hole) : c.next scan ≠ hole := by
  intro heq
  have hall := Circle.gap_next_self h.hole_in h.scan_in heq
  have hlt := Circle.gap_lt h.hole_in he
  exact h.scanned he hne (by omega) hfree

omit [DecidableEq ι] in
theorem Shifting.toward (h : Shifting c home slots hole scan) (he : c.In e)
    (hfree : slots e = none) (hne : e ≠ hole) : c.gap (c.next scan) e + 1 = c.gap scan e := by
  apply Circle.gap_toward h.scan_in he
  rintro rfl
  exact h.scanned he hne (Nat.le_refl _) hfree

omit [DecidableEq ι] in
/-- The next entry does not depend on the hole. -/
theorem Shifting.skip (h : Shifting c home slots hole scan) (hne : c.next scan ≠ hole)
    (hx : slots (c.next scan) = some x)
    (hstay : ¬ c.gap (home x) hole < c.gap (home x) (c.next scan)) :
    Shifting c home slots hole (c.next scan) := by
  have hgap := Circle.gap_next h.hole_in h.scan_in hne
  have hlast : ∀ {r}, c.In r → c.gap hole r ≤ c.gap hole (c.next scan) →
      c.gap hole r ≤ c.gap hole scan ∨ r = c.next scan := by
    intro r hr hle
    rcases Nat.lt_or_ge (c.gap hole scan) (c.gap hole r) with hlt | hge
    · exact .inr (Circle.eq_of_gap_eq h.hole_in hr (Circle.next_in h.scan_in) (by omega))
    · exact .inl hge
  refine ⟨h.hole_in, Circle.next_in h.scan_in, h.hole_free, h.inside, h.busy,
    fun hq hqne hle => ?_, fun {p y} hp hle => ?_⟩
  · rcases hlast hq hle with hbefore | rfl
    · exact h.scanned hq hqne hbefore
    · rw [hx]
      exact Option.some_ne_none x
  · rcases hlast (h.inside hp) hle with hbefore | rfl
    · exact h.settled hp hbefore
    · rw [hx] at hp
      obtain rfl := Option.some.inj hp
      exact Nat.not_lt.mp hstay

/-- The next entry depends on the hole and is moved there. -/
theorem Shifting.move (h : Shifting c home slots hole scan) (hx : slots (c.next scan) = some x)
    (hmove : c.gap (home x) hole < c.gap (home x) (c.next scan)) :
    Shifting c home (Function.update (Function.update slots hole (some x)) (c.next scan) none)
      (c.next scan) (c.next scan) := by
  have hin := Circle.next_in h.scan_in
  have hcases : ∀ {r y}, Function.update (Function.update slots hole (some x)) (c.next scan) none r
      = some y → r ≠ c.next scan ∧ (r = hole ∧ y = x ∨ r ≠ hole ∧ slots r = some y) := by
    intro r y hr
    have hne : r ≠ c.next scan := by
      rintro rfl
      rw [Function.update_self] at hr
      cases hr
    rw [Function.update_of_ne hne] at hr
    by_cases heq : r = hole
    · rw [heq, Function.update_self] at hr
      exact ⟨hne, .inl ⟨heq, (Option.some.inj hr).symm⟩⟩
    · rw [Function.update_of_ne heq] at hr
      exact ⟨hne, .inr ⟨heq, hr⟩⟩
  have hzero : ∀ {r}, c.In r → c.gap (c.next scan) r ≤ c.gap (c.next scan) (c.next scan) →
      r = c.next scan := by
    intro r hr hle
    rw [Circle.gap_self, Nat.le_zero] at hle
    exact (Circle.eq_of_gap_eq_zero hin hr hle).symm
  have hkeep : ∀ {r}, r ≠ c.next scan → (r ≠ hole → slots r ≠ none) →
      Function.update (Function.update slots hole (some x)) (c.next scan) none r ≠ none := by
    intro r hne hr
    rw [Function.update_of_ne hne]
    by_cases heq : r = hole
    · rw [heq, Function.update_self]
      exact Option.some_ne_none x
    · rw [Function.update_of_ne heq]
      exact hr heq
  refine ⟨hin, hin, Function.update_self .., fun hr => ?_, fun hr hq hlt hne => ?_,
    fun hq hne hle => absurd (hzero hq hle) hne, fun hr hle => ?_⟩
  · obtain ⟨-, ⟨rfl, -⟩ | ⟨-, hr⟩⟩ := hcases hr
    · exact h.hole_in
    · exact h.inside hr
  · apply hkeep hne
    obtain ⟨-, ⟨rfl, rfl⟩ | ⟨-, hr⟩⟩ := hcases hr
    · exact h.busy hx hq (by omega)
    · exact h.busy hr hq hlt
  · obtain ⟨hne, ⟨rfl, -⟩ | ⟨-, hr⟩⟩ := hcases hr
    · exact absurd (hzero h.hole_in hle) hne
    · exact absurd (hzero (h.inside hr) hle) hne

omit [DecidableEq ι] in
/-- A free slot ends the scan, and nothing depends on the hole. -/
theorem Shifting.finish (h : Shifting c home slots hole scan) (hhome : ∀ x, c.In (home x))
    (hne : c.next scan ≠ hole) (hfree : slots (c.next scan) = none) : Chained c home slots := by
  refine ⟨h.inside, fun {p y q} hp hq hlt => ?_⟩
  by_cases heq : q = hole
  · -- The free slot would be between the hole and the entry.
    subst heq
    exfalso
    have hin := h.inside hp
    have hnext := Circle.next_in h.scan_in
    have hgap := Circle.gap_next h.hole_in h.scan_in hne
    have hbehind : c.gap q scan < c.gap q p := by
      apply Nat.lt_of_not_le
      intro hle
      have hsettled := h.settled hp hle
      omega
    have hother : c.gap q p ≠ c.gap q (c.next scan) := by
      intro hsame
      rw [Circle.eq_of_gap_eq hq hin hnext hsame, hfree] at hp
      cases hp
    have hsplit := Circle.gap_add (hhome y) hq hin (Nat.le_of_lt hlt)
    have hway := Circle.gap_add hq hnext hin (by omega)
    have hto : c.gap (home y) (c.next scan) < c.gap (home y) p := by
      rcases Nat.lt_or_ge (c.gap (home y) (c.next scan)) (c.gap (home y) p) with hless | hge
      · exact hless
      · have hback := Circle.gap_add (hhome y) hin hnext hge
        have hlt' := Circle.gap_lt (hhome y) hnext
        have hfirst := Circle.gap_add (hhome y) hq hnext (by omega)
        omega
    exact h.busy hp hnext hto hne hfree
  · exact h.busy hp hq hlt heq

end

end

/-! ## Two arrays for the order -/

section

variable {ι α : Type} [DecidableEq ι]

/-- `order` has the slots of the entries and `ord` the positions of the slots; the entry at the
position in `gone` has no slot. -/
structure Linked (es : List α) (gone : Option Nat) (order : Nat → ι) (ord : ι → Nat)
    (slots : ι → Option α) : Prop where
  slot_of : ∀ m (h : m < es.length), gone ≠ some m →
    slots (order m) = some es[m] ∧ ord (order m) = m
  ord_of : ∀ p x, slots p = some x → ord p < es.length ∧ gone ≠ some (ord p) ∧ order (ord p) = p

variable {es : List α} {gone : Option Nat} {order : Nat → ι} {ord : ι → Nat}
  {slots : ι → Option α} {p q : ι} {x : α}

omit [DecidableEq ι] in
theorem Linked.nil : Linked [] none order ord fun _ : ι => (none : Option α) where
  slot_of _ h := absurd h (Nat.not_lt_zero _)
  ord_of _ _ h := nomatch h

omit [DecidableEq ι] in
theorem Linked.congr {order' : Nat → ι} {ord' : ι → Nat} (h : Linked es gone order ord slots)
    (horder : ∀ m < es.length, order' m = order m)
    (hord : ∀ p x, slots p = some x → ord' p = ord p) : Linked es gone order' ord' slots := by
  refine ⟨fun m hm hne => ?_, fun p x hp => ?_⟩
  · obtain ⟨hslot, hpos⟩ := h.slot_of m hm hne
    rw [horder m hm]
    exact ⟨hslot, (hord _ _ hslot).trans hpos⟩
  · obtain ⟨hlt, hne, hback⟩ := h.ord_of p x hp
    rw [hord p x hp]
    exact ⟨hlt, hne, (horder _ hlt).trans hback⟩

omit [DecidableEq ι] in
/-- The slot of an entry, when all entries have one. -/
theorem Linked.slot (h : Linked es none order ord slots) (m : Nat) (hm : m < es.length) :
    slots (order m) = some es[m] ∧ ord (order m) = m := h.slot_of m hm (Option.some_ne_none m).symm

omit [DecidableEq ι] in
/-- The entry of a slot. -/
theorem Linked.getElem (h : Linked es gone order ord slots) (hp : slots p = some x) :
    es[ord p]? = some x := by
  obtain ⟨hlt, hne, hback⟩ := h.ord_of p x hp
  have hslot := (h.slot_of _ hlt hne).1
  rw [hback, hp] at hslot
  rw [List.getElem?_eq_getElem hlt]
  exact hslot.symm

theorem Linked.append (h : Linked es none order ord slots) (hq : slots q = none) :
    Linked (es ++ [x]) none (Function.update order es.length q)
      (Function.update ord q es.length) (Function.update slots q (some x)) := by
  refine ⟨fun m hm _ => ?_, fun p y hp => ?_⟩
  · rw [List.length_append, List.length_singleton] at hm
    by_cases heq : m = es.length
    · subst heq
      simp
    · have hlt : m < es.length := by omega
      obtain ⟨hslot, hpos⟩ := h.slot m hlt
      have hne : order m ≠ q := by
        intro hsame
        rw [hsame, hq] at hslot
        cases hslot
      rw [Function.update_of_ne heq, Function.update_of_ne hne, Function.update_of_ne hne,
        List.getElem_append_left hlt]
      exact ⟨hslot, hpos⟩
  · by_cases heq : p = q
    · subst heq
      simp
    · rw [Function.update_of_ne heq] at hp ⊢
      obtain ⟨hlt, hne, hback⟩ := h.ord_of p y hp
      rw [Function.update_of_ne (Nat.ne_of_lt hlt), List.length_append]
      exact ⟨Nat.lt_add_right _ hlt, hne, hback⟩

/-- Another entry in a slot. -/
theorem Linked.replace (h : Linked es none order ord slots) {y : α} (hp : slots p = some y) :
    Linked (es.set (ord p) x) none order ord (Function.update slots p (some x)) := by
  obtain ⟨hp_lt, -, hp_back⟩ := h.ord_of p y hp
  refine ⟨fun m hm _ => ?_, fun r z hr => ?_⟩
  · rw [List.length_set] at hm
    obtain ⟨hslot, hpos⟩ := h.slot m hm
    refine ⟨?_, hpos⟩
    by_cases heq : m = ord p
    · subst heq
      rw [hp_back, Function.update_self, List.getElem_set_self]
    · have hne : order m ≠ p := by
        rintro rfl
        exact heq hpos.symm
      rw [Function.update_of_ne hne, List.getElem_set_ne (Ne.symm heq)]
      exact hslot
  · rw [List.length_set]
    by_cases heq : r = p
    · subst heq
      exact ⟨hp_lt, nofun, hp_back⟩
    · rw [Function.update_of_ne heq] at hr
      exact h.ord_of r z hr

theorem Linked.unlink (h : Linked es none order ord slots) (hp : slots p = some x) :
    Linked es (some (ord p)) order ord (Function.update slots p none) := by
  refine ⟨fun m hm hne => ?_, fun r z hr => ?_⟩
  · obtain ⟨hslot, hpos⟩ := h.slot m hm
    have hother : order m ≠ p := by
      rintro rfl
      exact hne (congrArg some hpos)
    rw [Function.update_of_ne hother]
    exact ⟨hslot, hpos⟩
  · have hne : r ≠ p := by
      rintro rfl
      rw [Function.update_self] at hr
      cases hr
    rw [Function.update_of_ne hne] at hr
    obtain ⟨hlt, -, hback⟩ := h.ord_of r z hr
    refine ⟨hlt, fun hsame => hne ?_, hback⟩
    rw [← hback, ← Option.some.inj hsame, (h.ord_of p x hp).2.2]

/-- An entry moves to a free slot. -/
theorem Linked.move (h : Linked es gone order ord slots) (hp : slots p = some x)
    (hq : slots q = none) :
    Linked es gone (Function.update order (ord p) q) (Function.update ord q (ord p))
      (Function.update (Function.update slots q (some x)) p none) := by
  obtain ⟨hp_lt, hp_ne, hp_back⟩ := h.ord_of p x hp
  have hpq : q ≠ p := by
    rintro rfl
    rw [hp] at hq
    cases hq
  refine ⟨fun m hm hne => ?_, fun r z hr => ?_⟩
  · by_cases heq : m = ord p
    · subst heq
      have hx : some x = some es[ord p] := by
        rw [← hp, ← (h.slot_of _ hp_lt hp_ne).1, hp_back]
      rw [Function.update_self, Function.update_of_ne hpq, Function.update_self,
        Function.update_self]
      exact ⟨hx, rfl⟩
    · obtain ⟨hslot, hpos⟩ := h.slot_of m hm hne
      have hmp : order m ≠ p := by
        rintro rfl
        exact heq hpos.symm
      have hmq : order m ≠ q := by
        intro hsame
        rw [hsame, hq] at hslot
        cases hslot
      rw [Function.update_of_ne heq, Function.update_of_ne hmp, Function.update_of_ne hmq,
        Function.update_of_ne hmq]
      exact ⟨hslot, hpos⟩
  · have hrp : r ≠ p := by
      rintro rfl
      rw [Function.update_self] at hr
      cases hr
    rw [Function.update_of_ne hrp] at hr
    by_cases hrq : r = q
    · subst hrq
      rw [Function.update_self, Function.update_self]
      exact ⟨hp_lt, hp_ne, rfl⟩
    · rw [Function.update_of_ne hrq] at hr ⊢
      obtain ⟨hlt, hne, hback⟩ := h.ord_of r z hr
      have hother : ord r ≠ ord p := by
        intro hsame
        rw [hsame, hp_back] at hback
        exact hrp hback.symm
      rw [Function.update_of_ne hother]
      exact ⟨hlt, hne, hback⟩

end

/-! ## Closing the order -/

theorem length_swapRemove {α : Type} (es : List α) (i : Nat) :
    (swapRemove es i).length = es.length - 1 := by
  rcases List.eq_nil_or_concat es with rfl | ⟨init, z, rfl⟩
  · rfl
  · rw [List.concat_eq_append, swapRemove_append]
    split <;> simp

theorem getElem_swapRemove {α : Type} {es : List α} {i m : Nat} (hi : i < es.length)
    (hm : m < (swapRemove es i).length) (hm_lt : m < es.length) :
    (swapRemove es i)[m] = if m = i then es[es.length - 1] else es[m] := by
  rw [length_swapRemove] at hm
  rcases List.eq_nil_or_concat es with rfl | ⟨init, z, rfl⟩
  · exact absurd hi (Nat.not_lt_zero _)
  · simp only [List.concat_eq_append, List.length_append, List.length_singleton] at hi hm
    simp only [List.concat_eq_append, swapRemove_append]
    by_cases hlt : i < init.length
    · by_cases heq : m = i
      · subst heq
        simp [hlt]
      · simp [hlt, heq, List.getElem_append_left (show m < init.length by omega),
          List.getElem_set_ne (Ne.symm heq)]
    · have hne : m ≠ i := by omega
      simp [hlt, hne, List.getElem_append_left (show m < init.length by omega)]

section

variable {ι α : Type} [DecidableEq ι] {es : List α} {order : Nat → ι} {ord : ι → Nat}
  {slots : ι → Option α} {d : Nat}

omit [DecidableEq ι] in
/-- The last entry was the one to go. -/
theorem Linked.close_last (h : Linked es (some d) order ord slots) (hd : d < es.length)
    (hlast : d = es.length - 1) : Linked (swapRemove es d) none order ord slots := by
  refine ⟨fun m hm _ => ?_, fun p x hp => ?_⟩
  · have hm' := hm
    rw [length_swapRemove] at hm'
    rw [getElem_swapRemove hd hm (by omega)]
    have hne : m ≠ d := by omega
    rw [if_neg hne]
    exact h.slot_of m (by omega) fun hsame => hne (Option.some.inj hsame).symm
  · obtain ⟨hlt, hne, hback⟩ := h.ord_of p x hp
    have hother : ord p ≠ d := fun hsame => hne (congrArg some hsame.symm)
    rw [length_swapRemove]
    exact ⟨by omega, nofun, hback⟩

/-- The last entry takes the position of the one to go. -/
theorem Linked.close (h : Linked es (some d) order ord slots) (hd : d < es.length)
    (hlast : d ≠ es.length - 1) :
    Linked (swapRemove es d) none (Function.update order d (order (es.length - 1)))
      (Function.update ord (order (es.length - 1)) d) slots := by
  have hlast_lt : es.length - 1 < es.length := by omega
  obtain ⟨hslot_last, hord_last⟩ := h.slot_of _ hlast_lt fun hsame => hlast (Option.some.inj hsame)
  refine ⟨fun m hm _ => ?_, fun p x hp => ?_⟩
  · have hm' := hm
    rw [length_swapRemove] at hm'
    rw [getElem_swapRemove hd hm (by omega)]
    by_cases heq : m = d
    · subst heq
      rw [if_pos rfl, Function.update_self, Function.update_self]
      exact ⟨hslot_last, rfl⟩
    · obtain ⟨hslot, hpos⟩ := h.slot_of m (by omega) fun hsame => heq (Option.some.inj hsame).symm
      have hother : order m ≠ order (es.length - 1) := by
        intro hsame
        rw [hsame, hord_last] at hpos
        omega
      rw [if_neg heq, Function.update_of_ne heq, Function.update_of_ne hother]
      exact ⟨hslot, hpos⟩
  · rw [length_swapRemove]
    obtain ⟨hlt, hne, hback⟩ := h.ord_of p x hp
    by_cases heq : p = order (es.length - 1)
    · subst heq
      rw [Function.update_self, Function.update_self]
      exact ⟨by omega, nofun, rfl⟩
    · have hother : ord p ≠ d := fun hsame => hne (congrArg some hsame.symm)
      have hnot_last : ord p ≠ es.length - 1 := by
        intro hsame
        rw [hsame] at hback
        exact heq hback.symm
      rw [Function.update_of_ne heq, Function.update_of_ne hother]
      exact ⟨by omega, nofun, hback⟩

omit [DecidableEq ι] in
/-- With fewer entries than slots, a slot is free. -/
theorem Linked.exists_free {c : Circle ι} (h : Linked es none order ord slots)
    (hlt : es.length < c.size) : ∃ e, c.In e ∧ slots e = none := by
  by_contra hall
  push Not at hall
  have hbusy : ∀ n < c.size, ∃ x, slots (c.slot n) = some x := fun n hn =>
    Option.ne_none_iff_exists'.mp (hall _ (Circle.slot_in hn))
  obtain ⟨m, hm, n, hn, hne, hsame⟩ := Finset.exists_ne_map_eq_of_card_lt_of_maps_to
    (s := Finset.range c.size) (t := Finset.range es.length) (f := fun n => ord (c.slot n))
    (by simpa using hlt) (fun n hn => by
      obtain ⟨x, hx⟩ := hbusy n (by simpa using hn)
      simpa using (h.ord_of _ _ hx).1)
  rw [Finset.mem_range] at hm hn
  obtain ⟨x, hx⟩ := hbusy m hm
  obtain ⟨y, hy⟩ := hbusy n hn
  have heq : c.slot m = c.slot n := by
    rw [← (h.ord_of _ _ hx).2.2, hsame, (h.ord_of _ _ hy).2.2]
  rw [← c.pos_slot m hm, heq, c.pos_slot n hn] at hne
  exact hne rfl

end

end StatelessGuest.Lib
