import StatelessGuest.Base
import StatelessGuest.Lib.ByteMap
import StatelessGuest.Lib.Exec

/-!
# The bytes of the memory and the heap

The memory as the encoders use it: bytes at addresses and a heap that is allocated upwards. The
memory ends below `2 ^ 32`, so addresses and lengths are numbers.

* `memcpy`: the copy by words and by bytes; `memcpy_run`: it is exact when the target lies below the
  source, or behind it without overlap.
* `alloc_cases`: an allocation fits or traps.
* `Leaves`: what a run leaves in a range, and that it changes nothing below.
-/

namespace StatelessGuest

open Lib

/-- The bytes of the memory and the end of what is allocated of the heap. -/
structure Ram where
  bytes : ByteMap
  heapPtr : Nat

abbrev RamM := EStateM Exn Ram

def liftRam {α : Type} : Except Exn α → RamM α
  | .ok a => pure a
  | .error e => throw e

namespace Ram

/-- The end of the heap (`HEAP_END`). -/
def heapEnd : Nat := 2952790016

/-! ## Allocation -/

def alloc (n : Nat) : RamM Nat := do
  let p := (← get).heapPtr
  if heapEnd - p < n then throw (.trap 1)
  else
    let q := (p + n + 7) / 8 * 8
    if heapEnd < q then throw (.trap 1)
    else do
      modify fun s => { s with heapPtr := q }
      return p

def heapMark : RamM Nat := do return (← get).heapPtr

def heapRelease (mark : Nat) : RamM Unit := modify fun s => { s with heapPtr := mark }

/-! ## Bytes and words -/

def ld8 (p : Nat) : RamM Nat := do return ((← get).bytes p).toNat

/-- The low byte of a word is stored. -/
def st8 (p v : Nat) : RamM Unit :=
  modify fun s => { s with bytes := s.bytes.store p [UInt8.ofNat v] }

/-- A word is its eight bytes. -/
def lds (p : Nat) : RamM Bytes := do return (← get).bytes.load p 8

def st (p : Nat) (w : Bytes) : RamM Unit :=
  modify fun s => { s with bytes := s.bytes.store p w }

/-! ## Copies -/

def moveByte (dst src : Nat) : RamM Unit := do
  let b ← ld8 src
  st8 dst b

def moveWord (dst src : Nat) : RamM Unit := do
  let w ← lds src
  st dst w

/-- `while i + width <= n`, with the position it ends at; every round takes a byte or more. -/
def copyLoop (n width : Nat) (move : Nat → RamM Unit) : Nat → Nat → RamM Nat
  | 0, i => return i
  | fuel + 1, i =>
    if i + width ≤ n then do
      move i
      copyLoop n width move fuel (i + width)
    else return i

def moveWords (dst src i : Nat) : RamM Unit := do
  moveWord (dst + i) (src + i)
  moveWord (dst + i + 8) (src + i + 8)
  moveWord (dst + i + 16) (src + i + 16)
  moveWord (dst + i + 24) (src + i + 24)

def moveBytes (dst src i : Nat) : RamM Unit := do
  moveByte (dst + i) (src + i)
  moveByte (dst + i + 1) (src + i + 1)
  moveByte (dst + i + 2) (src + i + 2)
  moveByte (dst + i + 3) (src + i + 3)
  moveByte (dst + i + 4) (src + i + 4)
  moveByte (dst + i + 5) (src + i + 5)
  moveByte (dst + i + 6) (src + i + 6)
  moveByte (dst + i + 7) (src + i + 7)

/-- The part of a copy by words, when both addresses are aligned. -/
def memcpyWords (dst src n : Nat) : RamM Nat :=
  if (dst ||| src) &&& 7 = 0 then do
    let i ← copyLoop n 32 (moveWords dst src) n 0
    copyLoop n 8 (fun i => moveWord (dst + i) (src + i)) n i
  else return 0

def memcpy (dst src n : Nat) : RamM Unit := do
  let i ← memcpyWords dst src n
  let i ← copyLoop n 8 (moveBytes dst src) n i
  let _ ← copyLoop n 1 (fun i => moveByte (dst + i) (src + i)) n i

/-- `while i + 8 <= n` and `while i < n` of a fill with zeros; the word paths store the same. -/
def memzero (dst n : Nat) : RamM Unit :=
  modify fun s => { s with bytes := s.bytes.store dst (List.replicate n 0) }

/-! ## Runs -/

/-- The memory with `bs` at `p`. -/
def put (s : Ram) (p : Nat) (bs : Bytes) : Ram := { s with bytes := s.bytes.store p bs }

variable {s : Ram} {dst src n p : Nat}

@[simp] theorem put_bytes (s : Ram) (p : Nat) (bs : Bytes) :
    (s.put p bs).bytes = s.bytes.store p bs := rfl

@[simp] theorem put_heapPtr (s : Ram) (p : Nat) (bs : Bytes) : (s.put p bs).heapPtr = s.heapPtr :=
  rfl

theorem put_append (s : Ram) (p : Nat) (bs cs : Bytes) :
    s.put p (bs ++ cs) = (s.put p bs).put (p + bs.length) cs := by
  unfold put
  rw [ByteMap.store_append]

theorem heapMark_run (s : Ram) : heapMark s = .ok s.heapPtr s := rfl

theorem heapRelease_run (s : Ram) (mark : Nat) :
    heapRelease mark s = .ok () { s with heapPtr := mark } := rfl

theorem ld8_run (s : Ram) (p : Nat) : ld8 p s = .ok (s.bytes p).toNat s := rfl

theorem st8_run (s : Ram) (p v : Nat) : st8 p v s = .ok () (s.put p [UInt8.ofNat v]) := rfl

theorem moveByte_run (s : Ram) (dst src : Nat) :
    moveByte dst src s = .ok () (s.put dst (s.bytes.load src 1)) := by
  unfold moveByte
  rw [bind_run_ok (ld8_run s src), st8_run, UInt8.ofNat_toNat]
  rfl

theorem moveWord_run (s : Ram) (dst src : Nat) :
    moveWord dst src s = .ok () (s.put dst (s.bytes.load src 8)) := rfl

/-- The first `i` bytes are copied. -/
def copied (s : Ram) (dst src i : Nat) : Ram := s.put dst (s.bytes.load src i)

@[simp] theorem copied_zero (s : Ram) (dst src : Nat) : s.copied dst src 0 = s := by
  unfold copied put ByteMap.load
  rw [ByteMap.store_nil]

/-- A move of the next `k` bytes reads what was there before the copy. -/
theorem copied_put {i k : Nat} (h : dst ≤ src ∨ src + (i + k) ≤ dst) :
    (s.copied dst src i).put (dst + i) ((s.copied dst src i).bytes.load (src + i) k) =
      s.copied dst src (i + k) := by
  have hread : (s.copied dst src i).bytes.load (src + i) k = s.bytes.load (src + i) k := by
    refine ByteMap.load_store_of_disjoint ?_
    rw [ByteMap.length_load]
    omega
  rw [hread]
  unfold copied
  rw [ByteMap.load_add, put_append, ByteMap.length_load]

theorem moveByte_copied {i : Nat} (h : dst ≤ src ∨ src + n ≤ dst) (hi : i + 1 ≤ n) :
    moveByte (dst + i) (src + i) (s.copied dst src i) = .ok () (s.copied dst src (i + 1)) := by
  rw [moveByte_run, copied_put (by omega)]

theorem moveWord_copied {i : Nat} (h : dst ≤ src ∨ src + n ≤ dst) (hi : i + 8 ≤ n) :
    moveWord (dst + i) (src + i) (s.copied dst src i) = .ok () (s.copied dst src (i + 8)) := by
  rw [moveWord_run, copied_put (by omega)]

theorem moveWords_copied {i : Nat} (h : dst ≤ src ∨ src + n ≤ dst) (hi : i + 32 ≤ n) :
    moveWords dst src i (s.copied dst src i) = .ok () (s.copied dst src (i + 32)) := by
  unfold moveWords
  simp only [Nat.add_assoc]
  rw [bind_run_ok (moveWord_copied h (by omega)), bind_run_ok (moveWord_copied h (by omega)),
    bind_run_ok (moveWord_copied h (by omega)), moveWord_copied h (by omega)]

theorem moveBytes_copied {i : Nat} (h : dst ≤ src ∨ src + n ≤ dst) (hi : i + 8 ≤ n) :
    moveBytes dst src i (s.copied dst src i) = .ok () (s.copied dst src (i + 8)) := by
  unfold moveBytes
  simp only [Nat.add_assoc]
  rw [bind_run_ok (moveByte_copied h (by omega)), bind_run_ok (moveByte_copied h (by omega)),
    bind_run_ok (moveByte_copied h (by omega)), bind_run_ok (moveByte_copied h (by omega)),
    bind_run_ok (moveByte_copied h (by omega)), bind_run_ok (moveByte_copied h (by omega)),
    bind_run_ok (moveByte_copied h (by omega)), moveByte_copied h (by omega)]

/-- A loop of a copy goes on while a block is left. -/
theorem copyLoop_run (s : Ram) (dst src : Nat) {width : Nat} {move : Nat → RamM Unit} (hwidth : 0 < width)
    (hmove : ∀ i, i + width ≤ n → move i (s.copied dst src i) =
      .ok () (s.copied dst src (i + width))) {fuel i : Nat} (hi : i ≤ n) (hfuel : n ≤ fuel + i) :
    ∃ j, j ≤ n ∧ n < j + width ∧
      copyLoop n width move fuel i (s.copied dst src i) = .ok j (s.copied dst src j) := by
  induction fuel generalizing i with
  | zero => exact ⟨i, hi, by omega, rfl⟩
  | succ fuel ih =>
    rw [copyLoop]
    split
    · next hblock =>
      rw [bind_run_ok (hmove i hblock)]
      exact ih hblock (by omega)
    · next hend => exact ⟨i, hi, by omega, rfl⟩

theorem memcpyWords_run (h : dst ≤ src ∨ src + n ≤ dst) :
    ∃ j, j ≤ n ∧ memcpyWords dst src n s = .ok j (s.copied dst src j) := by
  unfold memcpyWords
  split
  · obtain ⟨i, hi, -, hrun⟩ := copyLoop_run s dst src (by decide)
      (fun i hi => moveWords_copied h hi) (Nat.zero_le n) (Nat.le_refl n)
    rw [copied_zero] at hrun
    rw [bind_run_ok hrun]
    obtain ⟨j, hj, -, hrun'⟩ := copyLoop_run s dst src (by decide)
      (fun i hi => moveWord_copied h hi) hi (Nat.le_add_right n i)
    exact ⟨j, hj, hrun'⟩
  · refine ⟨0, Nat.zero_le n, ?_⟩
    rw [copied_zero]
    rfl

/-- A copy to a lower address, overlapping or not and whatever the alignment, or to a range behind
the source. -/
theorem memcpy_run (h : dst ≤ src ∨ src + n ≤ dst) :
    memcpy dst src n s = .ok () (s.put dst (s.bytes.load src n)) := by
  obtain ⟨i, hi, hwords⟩ := memcpyWords_run (s := s) h
  obtain ⟨j, hj, -, hblocks⟩ := copyLoop_run s dst src (by decide)
    (fun i hi => moveBytes_copied h hi) hi (Nat.le_add_right n i)
  obtain ⟨k, hk, hend, hbytes⟩ := copyLoop_run s dst src (by decide)
    (fun i hi => moveByte_copied h hi) hj (Nat.le_add_right n j)
  obtain rfl : k = n := by omega
  unfold memcpy
  rw [bind_run_ok hwords, bind_run_ok hblocks, bind_run_ok hbytes]
  rfl

/-- An allocation returns the old end of the heap, or it traps. -/
theorem alloc_cases (n : Nat) (s : Ram) :
    (∃ q, s.heapPtr + n ≤ q ∧ q ≤ s.heapPtr + n + 7 ∧ q ≤ heapEnd ∧
      alloc n s = .ok s.heapPtr { s with heapPtr := q }) ∨
      heapEnd < s.heapPtr + n + 7 ∧ alloc n s = .error (.trap 1) s := by
  unfold alloc
  rw [bind_run_ok (get_run s)]
  dsimp only
  split
  · exact .inr ⟨by omega, rfl⟩
  · split
    · exact .inr ⟨by omega, rfl⟩
    · next hq => exact .inl ⟨_, by omega, by omega, Nat.not_lt.mp hq, rfl⟩

theorem lt_of_le_heapEnd {q : Nat} (h : q ≤ heapEnd) : q < 2 ^ 32 :=
  Nat.lt_of_le_of_lt h (show 2952790016 < 2 ^ 32 by omega)

/-! ## Ranges that are left -/

/-- A run that leaves `bs` at `p` and changes nothing below. -/
structure Leaves (s : Ram) (p : Nat) (bs : Bytes) (s' : Ram) : Prop where
  heapPtr : s'.heapPtr = s.heapPtr
  content : s'.bytes.load p bs.length = bs
  below : ByteMap.SameBelow p s.bytes s'.bytes

variable {bs cs : Bytes} {s' s'' : Ram}

theorem leaves_nil (s : Ram) (p : Nat) : s.Leaves p [] s where
  heapPtr := rfl
  content := rfl
  below := .refl p s.bytes

theorem leaves_put (s : Ram) (p : Nat) (bs : Bytes) : s.Leaves p bs (s.put p bs) where
  heapPtr := rfl
  content := ByteMap.load_store_self s.bytes p bs
  below := ByteMap.sameBelow_store (Nat.le_refl p)

/-- What is left behind the first range. -/
theorem Leaves.append (h : s.Leaves p bs s') (h' : s'.Leaves (p + bs.length) cs s'') :
    s.Leaves p (bs ++ cs) s'' where
  heapPtr := h'.heapPtr.trans h.heapPtr
  content := by
    rw [List.length_append, ByteMap.load_add, h'.content, h'.below.load (Nat.le_refl _), h.content]
  below := h.below.trans (h'.below.mono (Nat.le_add_right _ _))

end Ram

end StatelessGuest
