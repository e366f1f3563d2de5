import StatelessGuest.Base
import StatelessGuest.Lib.Bump
import StatelessGuest.Lib.Exec

/-!
# The allocators

Three arenas are allocated by moving a pointer: the heap upwards, the frame memory upwards and the
scratch memory downwards towards it. Sizes are arbitrary words, and the pointers are words.

* `alloc`, `frameMemAlloc`, `scratchAlloc`, the marks and the releases.
* `Arenas.Step`: calls in any order, with releases to the last mark of their arena.
* `allocators_sound`: live blocks are aligned, apart from each other and within their arenas, and an
  allocation fails when it does not fit in exact arithmetic.
-/

namespace StatelessGuest.Arenas

open Lib

/-! ## The programs -/

def heapEnd : Word := 2952790016

def scratchBase : Word := 2688618496

def scratchEnd : Word := 2701127680

/-- `0 - 8`: all bits but the lowest three. -/
def alignMask : Word := 0 - 8

/-- The pointers of the arenas. -/
structure Pointers where
  heapPtr : Word
  scratchPtr : Word
  frameMemPtr : Word

abbrev PointerM := EStateM Exn Pointers

/-- `trap_with`: the machine halts with a code. -/
def trapWith {α : Type} (code : Nat) : PointerM α := throw (.trap code)

def memInit (base : Word) : Pointers := ⟨base, scratchEnd, scratchBase⟩

def alloc (n : Word) : PointerM Word := do
  let p := (← get).heapPtr
  if n > heapEnd - p then trapWith 1
  else
    let q := (p + n + 7) &&& alignMask
    if q > heapEnd then trapWith 1
    else do
      modify fun s => { s with heapPtr := q }
      return p

def heapMark : PointerM Word := do return (← get).heapPtr

def heapRelease (m : Word) : PointerM Unit := modify fun s => { s with heapPtr := m }

def frameMemAlloc (n : Word) : PointerM Word := do
  let p := (← get).frameMemPtr
  let top := (← get).scratchPtr
  if n > top - p then trapWith 6
  else
    let q := (p + n + 7) &&& alignMask
    if q > top then trapWith 6
    else do
      modify fun s => { s with frameMemPtr := q }
      return p

def frameMemMark : PointerM Word := do return (← get).frameMemPtr

def frameMemRelease (m : Word) : PointerM Unit := modify fun s => { s with frameMemPtr := m }

def scratchAlloc (n : Word) : PointerM Word := do
  let p := (← get).scratchPtr
  let bottom := (← get).frameMemPtr
  if n > p - bottom then trapWith 7
  else
    let q := (p - n) &&& alignMask
    if q < bottom then trapWith 7
    else do
      modify fun s => { s with scratchPtr := q }
      return q

def scratchMark : PointerM Word := do return (← get).scratchPtr

def scratchRelease (m : Word) : PointerM Unit := modify fun s => { s with scratchPtr := m }

/-! ## Calls in any order -/

inductive Arena where
  | heap
  | frame
  | scratch
  deriving DecidableEq

def allocIn : Arena → Word → PointerM Word
  | .heap => alloc
  | .frame => frameMemAlloc
  | .scratch => scratchAlloc

def markIn : Arena → PointerM Word
  | .heap => heapMark
  | .frame => frameMemMark
  | .scratch => scratchMark

def releaseIn : Arena → Word → PointerM Unit
  | .heap => heapRelease
  | .frame => frameMemRelease
  | .scratch => scratchRelease

/-- The pointers, and for each arena what is live and the marks that were not released. -/
structure State where
  pointers : Pointers
  ledger : Arena → Ledger Word

/-- A call that does not trap. A release goes to the last mark of its arena. -/
inductive Step : State → State → Prop
  | alloc {s : State} (arena : Arena) (n : Word) {p : Word} {ps : Pointers}
      (hrun : allocIn arena n s.pointers = .ok p ps) :
      Step s ⟨ps, Function.update s.ledger arena
        { s.ledger arena with live := ⟨p.toNat, n.toNat⟩ :: (s.ledger arena).live }⟩
  | mark {s : State} (arena : Arena) {m : Word} {ps : Pointers}
      (hrun : markIn arena s.pointers = .ok m ps) :
      Step s ⟨ps, Function.update s.ledger arena
        { s.ledger arena with marks := (m, (s.ledger arena).live) :: (s.ledger arena).marks }⟩
  | release {s : State} (arena : Arena) {m : Word} {live : List Block}
      {marks : List (Word × List Block)} {ps : Pointers}
      (hmarks : (s.ledger arena).marks = (m, live) :: marks)
      (hrun : releaseIn arena m s.pointers = .ok () ps) :
      Step s ⟨ps, Function.update s.ledger arena ⟨live, marks⟩⟩

/-! ## Rounding -/

theorem toNat_and_neg_eight (x : Word) : (x &&& alignMask).toNat = x.toNat / 8 * 8 := by
  have hmask : ∀ i < 64, alignMask.getLsbD i = decide (3 ≤ i) := by decide
  have hbits : x &&& alignMask = (x >>> 3) <<< 3 := by
    refine BitVec.eq_of_getLsbD_eq fun i hi => ?_
    rw [BitVec.getLsbD_and, hmask i hi, BitVec.getLsbD_shiftLeft, BitVec.getLsbD_ushiftRight,
      decide_eq_true hi, Bool.true_and]
    by_cases hlow : i < 3
    · rw [decide_eq_true hlow, decide_eq_false (by omega), Bool.and_false, Bool.not_true,
        Bool.false_and]
    · rw [decide_eq_false hlow, decide_eq_true (by omega), Bool.and_true, Bool.not_false,
        Bool.true_and, Nat.add_sub_cancel' (by omega)]
  have hx := x.isLt
  rw [hbits, BitVec.toNat_shiftLeft, BitVec.toNat_ushiftRight, Nat.shiftRight_eq_div_pow,
    Nat.shiftLeft_eq]
  omega

/-- The end of a block of `n` bytes at `p`, rounded up. -/
def roundUp (p n : Nat) : Nat := (p + n + 7) / 8 * 8

section

variable {limit p n : Word}

/-- The two checks of an allocation upwards are one in exact arithmetic: the size is too large for
the first one before the sum can wrap. -/
theorem up_fits (hp : p.toNat ≤ limit.toNat) (hlimit : limit.toNat + 8 ≤ 2 ^ 64)
    (h : roundUp p.toNat n.toNat ≤ limit.toNat) :
    ¬n > limit - p ∧ ¬((p + n + 7) &&& alignMask) > limit ∧
      ((p + n + 7) &&& alignMask).toNat = roundUp p.toNat n.toNat := by
  have hsub : (limit - p).toNat = limit.toNat - p.toNat := BitVec.toNat_sub_of_le hp
  unfold roundUp at h ⊢
  have hsum : (p + n + 7).toNat = p.toNat + n.toNat + 7 := by
    rw [BitVec.toNat_add, BitVec.toNat_add, show (7 : Word).toNat = 7 from rfl]
    omega
  refine ⟨?_, ?_, ?_⟩
  · rw [gt_iff_lt, BitVec.lt_def, hsub]
    omega
  · rw [gt_iff_lt, BitVec.lt_def, toNat_and_neg_eight, hsum]
    omega
  · rw [toNat_and_neg_eight, hsum]

theorem up_overflows (hp : p.toNat ≤ limit.toNat) (hlimit : limit.toNat + 8 ≤ 2 ^ 64)
    (h : limit.toNat < roundUp p.toNat n.toNat) :
    n > limit - p ∨ ((p + n + 7) &&& alignMask) > limit := by
  have hsub : (limit - p).toNat = limit.toNat - p.toNat := BitVec.toNat_sub_of_le hp
  unfold roundUp at h
  by_cases hn : n > limit - p
  · exact .inl hn
  · rw [gt_iff_lt, BitVec.lt_def, hsub] at hn
    refine .inr ?_
    have hsum : (p + n + 7).toNat = p.toNat + n.toNat + 7 := by
      rw [BitVec.toNat_add, BitVec.toNat_add, show (7 : Word).toNat = 7 from rfl]
      omega
    rw [gt_iff_lt, BitVec.lt_def, toNat_and_neg_eight, hsum]
    exact h

end

/-! ## One allocation -/

/-- The pointer of an arena. -/
def Pointers.ptr (s : Pointers) : Arena → Word
  | .heap => s.heapPtr
  | .frame => s.frameMemPtr
  | .scratch => s.scratchPtr

def Pointers.setPtr (s : Pointers) (q : Word) : Arena → Pointers
  | .heap => { s with heapPtr := q }
  | .frame => { s with frameMemPtr := q }
  | .scratch => { s with scratchPtr := q }

/-- Heap and frame memory are below their limits. -/
structure Pointers.Ordered (s : Pointers) : Prop where
  heap : s.heapPtr.toNat ≤ heapEnd.toNat
  frame : s.frameMemPtr.toNat ≤ s.scratchPtr.toNat
  scratch : s.scratchPtr.toNat ≤ scratchEnd.toNat

/-- The block and the pointer after it, in exact arithmetic. -/
def place (s : Pointers) (n : Nat) : Arena → Nat × Nat
  | .heap => (s.heapPtr.toNat, roundUp s.heapPtr.toNat n)
  | .frame => (s.frameMemPtr.toNat, roundUp s.frameMemPtr.toNat n)
  | .scratch => ((s.scratchPtr.toNat - n) / 8 * 8, (s.scratchPtr.toNat - n) / 8 * 8)

/-- The room that the block takes is there, in exact arithmetic. -/
def Fits (s : Pointers) (n : Nat) : Arena → Prop
  | .heap => roundUp s.heapPtr.toNat n ≤ heapEnd.toNat
  | .frame => roundUp s.frameMemPtr.toNat n ≤ s.scratchPtr.toNat
  | .scratch => s.frameMemPtr.toNat + n ≤ s.scratchPtr.toNat ∧
      s.frameMemPtr.toNat ≤ (s.scratchPtr.toNat - n) / 8 * 8

/-- The code that an arena traps with when it is exhausted. -/
def trapCode : Arena → Nat
  | .heap => 1
  | .frame => 6
  | .scratch => 7

/-- Whatever the size is, an allocation is what it is in exact arithmetic. -/
theorem allocIn_exact {s : Pointers} (h : s.Ordered) (arena : Arena) (n : Word) :
    (Fits s n.toNat arena → ∃ p q : Word, allocIn arena n s = .ok p (s.setPtr q arena) ∧
      (p.toNat, q.toNat) = place s n.toNat arena) ∧
    (¬Fits s n.toNat arena → allocIn arena n s = .error (.trap (trapCode arena)) s) := by
  have hend : heapEnd.toNat + 8 ≤ 2 ^ 64 := by decide
  have htop : s.scratchPtr.toNat + 8 ≤ 2 ^ 64 := by
    have hlast : scratchEnd.toNat + 8 ≤ 2 ^ 64 := by decide
    have := h.scratch
    omega
  cases arena with
  | heap =>
    refine ⟨fun hfits => ?_, fun hfits => ?_⟩
    · obtain ⟨h₁, h₂, hq⟩ := up_fits h.heap hend hfits
      refine ⟨s.heapPtr, (s.heapPtr + n + 7) &&& alignMask, ?_, Prod.ext rfl hq⟩
      change alloc n s = _
      unfold alloc
      rw [bind_run_ok (get_run s), if_neg h₁, if_neg h₂]
      rfl
    · have hover := up_overflows h.heap hend (Nat.lt_of_not_le hfits)
      change alloc n s = _
      unfold alloc
      rw [bind_run_ok (get_run s)]
      dsimp only
      split
      · rfl
      · next h₁ => rw [if_pos (hover.resolve_left h₁)]; rfl
  | frame =>
    refine ⟨fun hfits => ?_, fun hfits => ?_⟩
    · obtain ⟨h₁, h₂, hq⟩ := up_fits h.frame htop hfits
      refine ⟨s.frameMemPtr, (s.frameMemPtr + n + 7) &&& alignMask, ?_, Prod.ext rfl hq⟩
      change frameMemAlloc n s = _
      unfold frameMemAlloc
      rw [bind_run_ok (get_run s), bind_run_ok (get_run s), if_neg h₁, if_neg h₂]
      rfl
    · have hover := up_overflows h.frame htop (Nat.lt_of_not_le hfits)
      change frameMemAlloc n s = _
      unfold frameMemAlloc
      rw [bind_run_ok (get_run s), bind_run_ok (get_run s)]
      dsimp only
      split
      · rfl
      · next h₁ => rw [if_pos (hover.resolve_left h₁)]; rfl
  | scratch =>
    have hroom : (s.scratchPtr - s.frameMemPtr).toNat = s.scratchPtr.toNat - s.frameMemPtr.toNat :=
      BitVec.toNat_sub_of_le h.frame
    have hcheck : n > s.scratchPtr - s.frameMemPtr ↔
        ¬s.frameMemPtr.toNat + n.toNat ≤ s.scratchPtr.toNat := by
      have := h.frame
      rw [gt_iff_lt, BitVec.lt_def, hroom]
      omega
    have hplace : ¬n > s.scratchPtr - s.frameMemPtr → ((s.scratchPtr - n) &&& alignMask).toNat =
        (s.scratchPtr.toNat - n.toNat) / 8 * 8 := by
      intro hn
      rw [hcheck, Decidable.not_not] at hn
      have hle : n ≤ s.scratchPtr := BitVec.le_def.mpr (by omega)
      rw [toNat_and_neg_eight, BitVec.toNat_sub_of_le hle]
    refine ⟨fun hfits => ?_, fun hfits => ?_⟩
    · have h₁ : ¬n > s.scratchPtr - s.frameMemPtr := by
        rw [hcheck, Decidable.not_not]
        exact hfits.1
      have hq := hplace h₁
      have h₂ : ¬((s.scratchPtr - n) &&& alignMask) < s.frameMemPtr := by
        rw [BitVec.lt_def, hq]
        exact Nat.not_lt.mpr hfits.2
      refine ⟨(s.scratchPtr - n) &&& alignMask, (s.scratchPtr - n) &&& alignMask, ?_,
        Prod.ext hq hq⟩
      change scratchAlloc n s = _
      unfold scratchAlloc
      rw [bind_run_ok (get_run s), bind_run_ok (get_run s), if_neg h₁, if_neg h₂]
      rfl
    · change scratchAlloc n s = _
      unfold scratchAlloc
      rw [bind_run_ok (get_run s), bind_run_ok (get_run s)]
      dsimp only
      split
      · rfl
      · next h₁ =>
        have h₂ : ((s.scratchPtr - n) &&& alignMask) < s.frameMemPtr := by
          rw [BitVec.lt_def, hplace h₁]
          rw [hcheck, Decidable.not_not] at h₁
          exact Nat.lt_of_not_le fun hle => hfits ⟨h₁, hle⟩
        rw [if_pos h₂]
        rfl

/-! ## Every sequence of calls -/

/-- What the addresses of the heap are multiples of: 8 when the base is. -/
def heapUnit (base : Word) : Nat := Nat.gcd 8 base.toNat

/-- The part of an arena that is in use, up to a pointer, and the blocks in it. -/
def InUse (base : Word) : Arena → Word → List Block → Prop
  | .heap, p, bs => heapUnit base ∣ p.toNat ∧ base.toNat ≤ p.toNat ∧
      Laid (heapUnit base) base.toNat p.toNat bs
  | .frame, p, bs => 8 ∣ p.toNat ∧ scratchBase.toNat ≤ p.toNat ∧
      Laid 8 scratchBase.toNat p.toNat bs
  | .scratch, p, bs => 8 ∣ p.toNat ∧ p.toNat ≤ scratchEnd.toNat ∧
      Laid 8 p.toNat scratchEnd.toNat bs

/-- An arena uses no more at `p` than at `q`. -/
def Before : Arena → Word → Word → Prop
  | .heap, p, q => p.toNat ≤ q.toNat
  | .frame, p, q => p.toNat ≤ q.toNat
  | .scratch, p, q => q.toNat ≤ p.toNat

theorem Before.trans {arena : Arena} {p q r : Word} (h : Before arena p q)
    (h' : Before arena q r) : Before arena p r := by
  cases arena with
  | heap => exact Nat.le_trans h h'
  | frame => exact Nat.le_trans h h'
  | scratch => exact Nat.le_trans h' h

theorem Before.refl (arena : Arena) (p : Word) : Before arena p p := by
  cases arena <;> exact Nat.le_refl _

/-- What holds in every state that is reached. -/
structure State.Sound (base : Word) (s : State) : Prop where
  ordered : s.pointers.Ordered
  inUse : ∀ arena, InUse base arena (s.pointers.ptr arena) (s.ledger arena).live
  nested : ∀ arena,
    Nested (InUse base arena) (Before arena) (s.pointers.ptr arena) (s.ledger arena).marks

@[simp] theorem ptr_setPtr_self (s : Pointers) (q : Word) (arena : Arena) :
    (s.setPtr q arena).ptr arena = q := by
  cases arena <;> rfl

theorem ptr_setPtr_of_ne (s : Pointers) (q : Word) {arena other : Arena} (h : other ≠ arena) :
    (s.setPtr q arena).ptr other = s.ptr other := by
  cases arena <;> cases other <;> first | rfl | exact absurd rfl h

section

variable {base : Word} {s : State} {arena : Arena} {q : Word} {live : List Block}
  {marks : List (Word × List Block)}

/-- A call moves the pointer of one arena. -/
theorem State.Sound.moved (h : s.Sound base) (hord : (s.pointers.setPtr q arena).Ordered)
    (huse : InUse base arena q live) (hnested : Nested (InUse base arena) (Before arena) q marks) :
    State.Sound base ⟨s.pointers.setPtr q arena, Function.update s.ledger arena ⟨live, marks⟩⟩ where
  ordered := hord
  inUse other := by
    dsimp only
    by_cases heq : other = arena
    · subst heq
      rw [ptr_setPtr_self, Function.update_self]
      exact huse
    · rw [ptr_setPtr_of_ne _ _ heq, Function.update_of_ne heq]
      exact h.inUse other
  nested other := by
    dsimp only
    by_cases heq : other = arena
    · subst heq
      rw [ptr_setPtr_self, Function.update_self]
      exact hnested
    · rw [ptr_setPtr_of_ne _ _ heq, Function.update_of_ne heq]
      exact h.nested other

/-- A block that fits is laid next to what is in use. -/
theorem InUse.place {ps : Pointers} {n : Nat} {p q : Word} (hord : ps.Ordered)
    (h : InUse base arena (ps.ptr arena) live) (hfits : Fits ps n arena)
    (hplace : (p.toNat, q.toNat) = Arenas.place ps n arena) :
    InUse base arena q (⟨p.toNat, n⟩ :: live) ∧ Before arena (ps.ptr arena) q ∧
      (ps.setPtr q arena).Ordered := by
  obtain ⟨hheap, hframe, hscratch⟩ := hord
  cases arena with
  | heap =>
    obtain ⟨hp, hq⟩ := Prod.mk.injEq .. ▸ hplace
    obtain ⟨halign, hbase, hlaid⟩ := h
    change roundUp ps.heapPtr.toNat n ≤ heapEnd.toNat at hfits
    change heapUnit base ∣ ps.heapPtr.toNat at halign
    change base.toNat ≤ ps.heapPtr.toNat at hbase
    have hround : ps.heapPtr.toNat + n ≤ roundUp ps.heapPtr.toNat n := by
      unfold roundUp
      omega
    have hdvd : heapUnit base ∣ roundUp ps.heapPtr.toNat n :=
      (Nat.gcd_dvd_left _ _).trans ⟨_, Nat.mul_comm _ _⟩
    refine ⟨⟨hq ▸ hdvd, by omega, ?_⟩, by change ps.heapPtr.toNat ≤ q.toNat; omega,
      ⟨hq ▸ hfits, hframe, hscratch⟩⟩
    exact hlaid.cons ⟨hp ▸ hbase, by change p.toNat + n ≤ _; omega⟩ (hp ▸ halign) (Nat.le_refl _)
      (by change ps.heapPtr.toNat ≤ q.toNat; omega) (.inl (Nat.le_of_eq hp.symm))
  | frame =>
    obtain ⟨hp, hq⟩ := Prod.mk.injEq .. ▸ hplace
    obtain ⟨halign, hbase, hlaid⟩ := h
    change roundUp ps.frameMemPtr.toNat n ≤ ps.scratchPtr.toNat at hfits
    change 8 ∣ ps.frameMemPtr.toNat at halign
    change scratchBase.toNat ≤ ps.frameMemPtr.toNat at hbase
    have hround : ps.frameMemPtr.toNat + n ≤ roundUp ps.frameMemPtr.toNat n := by
      unfold roundUp
      omega
    have hdvd : 8 ∣ roundUp ps.frameMemPtr.toNat n := ⟨_, Nat.mul_comm _ _⟩
    refine ⟨⟨hq ▸ hdvd, by omega, ?_⟩, by change ps.frameMemPtr.toNat ≤ q.toNat; omega,
      ⟨hheap, hq ▸ hfits, hscratch⟩⟩
    exact hlaid.cons ⟨hp ▸ hbase, by change p.toNat + n ≤ _; omega⟩ (hp ▸ halign) (Nat.le_refl _)
      (by change ps.frameMemPtr.toNat ≤ q.toNat; omega) (.inl (Nat.le_of_eq hp.symm))
  | scratch =>
    obtain ⟨hp, hq⟩ := Prod.mk.injEq .. ▸ hplace
    obtain ⟨halign, htop, hlaid⟩ := h
    change ps.frameMemPtr.toNat + n ≤ ps.scratchPtr.toNat ∧
      ps.frameMemPtr.toNat ≤ (ps.scratchPtr.toNat - n) / 8 * 8 at hfits
    change ps.scratchPtr.toNat ≤ scratchEnd.toNat at htop
    have hdvd : 8 ∣ (ps.scratchPtr.toNat - n) / 8 * 8 := ⟨_, Nat.mul_comm _ _⟩
    have hbelow : p.toNat + n ≤ ps.scratchPtr.toNat := by
      rw [hp]
      omega
    refine ⟨⟨hq ▸ hdvd, by omega, ?_⟩, by change q.toNat ≤ ps.scratchPtr.toNat; omega,
      ⟨hheap, hq ▸ hfits.2, by change q.toNat ≤ _; omega⟩⟩
    exact hlaid.cons ⟨by change q.toNat ≤ p.toNat; omega, hbelow.trans htop⟩ (hp ▸ hdvd)
      (by change q.toNat ≤ ps.scratchPtr.toNat; omega) (Nat.le_refl _) (.inr hbelow)

/-- The pointers are in order at an earlier mark too. -/
theorem Pointers.Ordered.back {ps : Pointers} {m : Word} (hord : ps.Ordered)
    (huse : InUse base arena m live)
    (hbefore : Before arena m (ps.ptr arena)) : (ps.setPtr m arena).Ordered := by
  obtain ⟨hheap, hframe, htop⟩ := hord
  cases arena with
  | heap => exact ⟨Nat.le_trans hbefore hheap, hframe, htop⟩
  | frame => exact ⟨hheap, Nat.le_trans hbefore hframe, htop⟩
  | scratch => exact ⟨hheap, Nat.le_trans hframe hbefore, huse.2.1⟩

end

theorem markIn_run (s : Pointers) (arena : Arena) : markIn arena s = .ok (s.ptr arena) s := by
  cases arena <;> rfl

theorem releaseIn_run (s : Pointers) (arena : Arena) (m : Word) :
    releaseIn arena m s = .ok () (s.setPtr m arena) := by
  cases arena <;> rfl

theorem setPtr_ptr (s : Pointers) (arena : Arena) : s.setPtr (s.ptr arena) arena = s := by
  cases arena <;> rfl

section

variable {base : Word} {s t : State}

/-- One call keeps everything in order. -/
theorem Step.sound (h : s.Sound base) (hstep : Step s t) : t.Sound base := by
  cases hstep with
  | alloc arena n hrun =>
    obtain ⟨hok, htrap⟩ := allocIn_exact h.ordered arena n
    by_cases hfits : Fits s.pointers n.toNat arena
    · obtain ⟨p, q, hrun', hplace⟩ := hok hfits
      rw [hrun'] at hrun
      cases hrun
      obtain ⟨huse, hbefore, hord⟩ := (h.inUse arena).place h.ordered hfits hplace
      exact h.moved hord huse ((h.nested arena).moved (fun _ _ _ h h' => h.trans h') hbefore)
    · rw [htrap hfits] at hrun
      cases hrun
  | mark arena hrun =>
    rw [markIn_run] at hrun
    cases hrun
    have huse := h.inUse arena
    have hnested := h.nested arena
    have hmarked : Nested (InUse base arena) (Before arena) (s.pointers.ptr arena)
        ((s.pointers.ptr arena, (s.ledger arena).live) :: (s.ledger arena).marks) :=
      ⟨Before.refl _ _, huse, hnested⟩
    have hmoved := h.moved ((setPtr_ptr s.pointers arena).symm ▸ h.ordered) huse hmarked
    rwa [setPtr_ptr] at hmoved
  | release arena hmarks hrun =>
    rw [releaseIn_run] at hrun
    cases hrun
    have hnested := h.nested arena
    rw [hmarks] at hnested
    obtain ⟨hbefore, huse, hrest⟩ := hnested
    exact h.moved (h.ordered.back huse hbefore) huse hrest

/-! ## The arenas in every state -/

/-- After `mem_init`: nothing is live and nothing is marked. -/
def State.start (base : Word) : State := ⟨memInit base, fun _ => ⟨[], []⟩⟩

/-- Where an arena is. -/
def Arena.low (base : Word) : Arena → Nat
  | .heap => base.toNat
  | _ => scratchBase.toNat

def Arena.high : Arena → Nat
  | .heap => heapEnd.toNat
  | _ => scratchEnd.toNat

/-- The live blocks of all arenas. -/
def State.live (s : State) : List Block :=
  (s.ledger .frame).live ++ ((s.ledger .scratch).live ++ (s.ledger .heap).live)

theorem State.start_sound (hhigh : base.toNat ≤ heapEnd.toNat) :
    (State.start base).Sound base where
  ordered := ⟨hhigh, by change scratchBase.toNat ≤ scratchEnd.toNat; decide, Nat.le_refl _⟩
  inUse arena := by
    cases arena with
    | heap => exact ⟨Nat.gcd_dvd_right _ _, Nat.le_refl _, laid_nil _ _ _⟩
    | frame =>
      refine ⟨?_, Nat.le_refl _, laid_nil _ _ _⟩
      change 8 ∣ scratchBase.toNat
      decide
    | scratch =>
      refine ⟨?_, Nat.le_refl _, laid_nil _ _ _⟩
      change 8 ∣ scratchEnd.toNat
      decide
  nested _ := trivial

/-- Every sequence of calls keeps everything in order. -/
theorem reached_sound (hhigh : base.toNat ≤ heapEnd.toNat)
    (h : Relation.ReflTransGen Step (State.start base) s) : s.Sound base := by
  induction h with
  | refl => exact State.start_sound hhigh
  | tail _ hstep ih => exact hstep.sound ih

theorem State.Sound.aligned (h : s.Sound base) (arena : Arena)
    (hbase : arena = .heap → 8 ∣ base.toNat) : ∀ b ∈ (s.ledger arena).live, 8 ∣ b.start := by
  intro b hb
  cases arena with
  | heap =>
    have hunit : heapUnit base = 8 := Nat.gcd_eq_left (hbase rfl)
    exact hunit ▸ (h.inUse .heap).2.2.aligned b hb
  | frame => exact (h.inUse .frame).2.2.aligned b hb
  | scratch => exact (h.inUse .scratch).2.2.aligned b hb

theorem State.Sound.within (h : s.Sound base) (arena : Arena) :
    ∀ b ∈ (s.ledger arena).live, b.Within (arena.low base) arena.high := by
  intro b hb
  cases arena with
  | heap => exact ((h.inUse .heap).2.2.within b hb).mono (Nat.le_refl _) h.ordered.heap
  | frame =>
    exact ((h.inUse .frame).2.2.within b hb).mono (Nat.le_refl _)
      (h.ordered.frame.trans h.ordered.scratch)
  | scratch =>
    exact ((h.inUse .scratch).2.2.within b hb).mono
      (Nat.le_trans (h.inUse .frame).2.1 h.ordered.frame) (Nat.le_refl _)

/-- Frame memory is below the scratch memory, and that is below the heap. -/
theorem State.Sound.apart (h : s.Sound base) (hlow : scratchEnd.toNat ≤ base.toNat) :
    s.live.Pairwise Block.Disjoint := by
  have hframe := (h.inUse .frame).2.2
  have hscratch := (h.inUse .scratch).2.2
  have hheap := (h.inUse .heap).2.2
  refine List.pairwise_append.mpr ⟨hframe.apart, hscratch.append hheap hlow, ?_⟩
  intro b hb c hc
  have hb := hframe.within b hb
  rcases List.mem_append.mp hc with hc | hc
  · exact hb.disjoint (hscratch.within c hc) h.ordered.frame
  · exact hb.disjoint (hheap.within c hc) ((h.ordered.frame.trans h.ordered.scratch).trans hlow)

end

/-- After every sequence of calls that do not trap: the live blocks are aligned, apart from each
other and within their arenas, the arenas have not met, and the next allocation of any size succeeds
exactly if the block fits. -/
theorem allocators_sound {base : Word} (hlow : scratchEnd.toNat ≤ base.toNat)
    (hhigh : base.toNat ≤ heapEnd.toNat) {s : State}
    (h : Relation.ReflTransGen Step (State.start base) s) :
    (∀ arena, (arena = .heap → 8 ∣ base.toNat) → ∀ b ∈ (s.ledger arena).live, 8 ∣ b.start) ∧
    s.live.Pairwise Block.Disjoint ∧
    (∀ arena, ∀ b ∈ (s.ledger arena).live, b.Within (arena.low base) arena.high) ∧
    s.pointers.Ordered ∧
    ∀ arena (n : Word),
      (Fits s.pointers n.toNat arena →
        ∃ p q : Word, allocIn arena n s.pointers = .ok p (s.pointers.setPtr q arena) ∧
          (p.toNat, q.toNat) = place s.pointers n.toNat arena) ∧
      (¬Fits s.pointers n.toNat arena →
        allocIn arena n s.pointers = .error (.trap (trapCode arena)) s.pointers) := by
  have hsound := reached_sound hhigh h
  exact ⟨hsound.aligned, hsound.apart hlow, hsound.within, hsound.ordered,
    allocIn_exact hsound.ordered⟩

/-- Twenty bytes of the heap and then one of the scratch memory. -/
theorem allocators_sound_twenty :
    ∃ s, Relation.ReflTransGen Step (State.start 2701131776) s ∧
      (s.ledger .heap).live = [⟨2701131776, 20⟩] ∧ (s.ledger .scratch).live = [⟨2701127672, 1⟩] ∧
      s.live.Pairwise Block.Disjoint := by
  have hrun : ∃ s, Relation.ReflTransGen Step (State.start 2701131776) s ∧
      (s.ledger .heap).live = [⟨2701131776, 20⟩] ∧
      (s.ledger .scratch).live = [⟨2701127672, 1⟩] :=
    ⟨_, (Relation.ReflTransGen.single (.alloc .heap 20 rfl)).tail (.alloc .scratch 1 rfl), rfl, rfl⟩
  obtain ⟨s, hreach, hheap, hscratch⟩ := hrun
  exact ⟨s, hreach, hheap, hscratch, (allocators_sound (by decide) (by decide) hreach).2.1⟩

end StatelessGuest.Arenas
