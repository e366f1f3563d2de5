import StatelessGuest.Lib.Exec
import StatelessGuest.Htab.Hash

/-!
# Hash tables

Open addressing with linear probing, deletion by backward shifts, and a doubling of the arrays when
they are half full. Two arrays keep the order of the entries and undo each other.

An array is a function on its indices. New arrays hold what was in memory before.
-/

namespace StatelessGuest

open Lib

/-! ## Allocation -/

/-- The arrays of a table; a key is a row of bytes. -/
structure TableArrays where
  keys : Word → Nat → UInt8
  vals : Word → Word
  used : Word → UInt8
  order : Word → Word
  orderPos : Word → Word
  deriving Inhabited

/-- The arenas, and what the arrays hold that are allocated next. -/
structure Heap where
  heapPtr : Word
  scratchPtr : Word
  frameMem : Word
  stale : Nat → TableArrays

abbrev HeapM := EStateM Exn Heap

/-- The end of the heap (`HEAP_END`). -/
def heapEnd : Word := 2952790016

namespace Heap

def alloc (n : Word) : HeapM Word := do
  let p := (← get).heapPtr
  if heapEnd - p < n then throw (.trap 1)
  else
    let q := (p + n + 7) &&& (0 - 8)
    if heapEnd < q then throw (.trap 1)
    else do
      modify fun s => { s with heapPtr := q }
      return p

def scratchAlloc (n : Word) : HeapM Word := do
  let s ← get
  if s.scratchPtr - s.frameMem < n then throw (.trap 7)
  else
    let q := (s.scratchPtr - n) &&& (0 - 8)
    if q < s.frameMem then throw (.trap 7)
    else do
      modify fun s => { s with scratchPtr := q }
      return q

/-- What is found in new arrays. -/
def leftover : HeapM TableArrays := do
  let s ← get
  set { s with stale := fun n => s.stale (n + 1) }
  return s.stale 0

end Heap

open Heap

/-! ## Tables -/

/-- A table (`HT_*`), with the address of its keys. -/
structure Htab extends TableArrays where
  keyLen : Word
  keyStride : Word
  cap : Word
  count : Word
  keysPtr : Word

/-- The key in a slot. -/
def Htab.keyAt (t : Htab) (i : Word) : KeyAt := ⟨t.keysPtr + i * t.keyStride, t.keys i⟩

/-- An array with one element replaced. -/
abbrev put {α : Type} (a : Word → α) (i : Word) (x : α) : Word → α := Function.update a i x

def Htab.memzero (a : Word → UInt8) (n : Word) : Word → UInt8 := fun i => if i < n then 0 else a i

/-- The first `n` elements of another array. -/
def Htab.memcpy {α : Type} (dst src : Word → α) (n : Word) : Word → α :=
  fun i => if i < n then src i else dst i

/-- A row with a key of `n` bytes in it. -/
def Htab.memcpyKey (dst : Nat → UInt8) (key : KeyAt) (n : Word) : Nat → UInt8 :=
  fun i => if i < n.toNat then key.byte i else dst i

/-- A new table from one of the arenas. -/
def htabNewIn (alloc : Word → HeapM Word) (keyLen cap : Word) : HeapM Htab := do
  let _ ← alloc 72
  let stride := (keyLen + 7) &&& (0 - 8)
  let keys ← alloc (cap * stride)
  let _ ← alloc (cap * 8)
  let _ ← alloc cap
  let _ ← alloc (cap * 8)
  let _ ← alloc (cap * 8)
  let a ← leftover
  return { a with
    used := Htab.memzero a.used cap, keyLen := keyLen, keyStride := stride, cap := cap, count := 0,
    keysPtr := keys }

def htabNew : Word → Word → HeapM Htab := htabNewIn alloc

def htabNewScratch : Word → Word → HeapM Htab := htabNewIn scratchAlloc

/-! ## Lookups -/

/-- The slot where a search for a key begins. -/
def Htab.home (t : Htab) (key : KeyAt) : Word := htabHash key t.keyLen &&& (t.cap - 1)

def Htab.next (t : Htab) (i : Word) : Word := (i + 1) &&& (t.cap - 1)

def htabFindSlotLoop (t : Htab) (key : KeyAt) : Nat → Word → Except Exn Word
  | 0, _ => .error .outOfFuel
  | fuel + 1, i =>
    if t.used i ≠ 0 then
      if memeq (t.keyAt i) key t.keyLen.toNat then .ok i
      else htabFindSlotLoop t key fuel (t.next i)
    else .ok t.cap

/-- The slot of a key, or the capacity. A search passes each slot once. -/
def htabFindSlot (t : Htab) (key : KeyAt) : Except Exn Word :=
  htabFindSlotLoop t key t.cap.toNat (t.home key)

def htabGet (t : Htab) (key : KeyAt) : Except Exn (Word × Word) := do
  let i ← htabFindSlot t key
  if i = t.cap then return (0, 0) else return (1, t.vals i)

def htabHas (t : Htab) (key : KeyAt) : Except Exn Word := do
  let i ← htabFindSlot t key
  if i = t.cap then return 0 else return 1

/-! ## Insertion -/

def htabFreeSlotLoop (t : Htab) : Nat → Word → Except Exn Word
  | 0, _ => .error .outOfFuel
  | fuel + 1, i => if t.used i ≠ 0 then htabFreeSlotLoop t fuel (t.next i) else .ok i

/-- Put an entry into a free slot and at the end of the order. -/
def Htab.fill (t : Htab) (i : Word) (key : KeyAt) (value : Word) : Htab :=
  { t with
    keys := put t.keys i (Htab.memcpyKey (t.keys i) key t.keyLen)
    vals := put t.vals i value
    used := put t.used i 1
    order := put t.order t.count i
    orderPos := put t.orderPos i t.count
    count := t.count + 1 }

/-- Insert a key that is known to be absent, without a check for growth. -/
def htabInsertRaw (t : Htab) (key : KeyAt) (value : Word) : Except Exn Htab := do
  let i ← htabFreeSlotLoop t t.cap.toNat (t.home key)
  return t.fill i key value

/-- Insert the entries of `old` from ordinal `k` on; `nitems` is at most the fuel. -/
def htabGrowLoop (old : Htab) (nitems : Word) : Nat → Word → Htab → Except Exn Htab
  | 0, _, _ => .error .outOfFuel
  | fuel + 1, k, t =>
    if k.slt nitems then do
      let i := old.order k
      let t ← htabInsertRaw t (old.keyAt i) (old.vals i)
      htabGrowLoop old nitems fuel (k + 1) t
    else .ok t

def htabGrow (t : Htab) : HeapM Htab := do
  let ncap := t.cap * 2
  let nkeys ← alloc (ncap * t.keyStride)
  let _ ← alloc (ncap * 8)
  let _ ← alloc ncap
  let _ ← alloc (ncap * 8)
  let _ ← alloc (ncap * 8)
  let a ← leftover
  let fresh := { t with
    toTableArrays := { a with used := Htab.memzero a.used ncap }, cap := ncap, keysPtr := nkeys
    count := 0 }
  ofExcept (htabGrowLoop t t.count (t.count.toNat + 1) 0 fresh)

/-- Insert or update. -/
def htabSet (t : Htab) (key : KeyAt) (value : Word) : HeapM Htab := do
  let i ← ofExcept (htabFindSlot t key)
  if i ≠ t.cap then return { t with vals := put t.vals i value }
  else do
    let t ← if t.cap < (t.count + 1) * 2 then htabGrow t else pure t
    ofExcept (htabInsertRaw t key value)

/-! ## Deletion -/

/-- Whether the entry of slot `j` can move to the hole `i`: its home is not behind the hole. -/
def movable (i j home : Word) : Bool :=
  if i ≤ j then home ≤ i || j < home else home ≤ i && j < home

/-- Move the entry of slot `j` to slot `i`. -/
def Htab.shift (t : Htab) (i j : Word) : Htab :=
  { t with
    keys := put t.keys i (Htab.memcpyKey (t.keys i) (t.keyAt j) t.keyLen)
    vals := put t.vals i (t.vals j)
    order := put t.order (t.orderPos j) i
    orderPos := put t.orderPos i (t.orderPos j) }

/-- The shifts behind a hole `i`, after the slots up to `j`. The result has the last hole. -/
def htabShiftLoop : Nat → Htab → Word → Word → Except Exn (Htab × Word)
  | 0, _, _, _ => .error .outOfFuel
  | fuel + 1, t, i, j =>
    let j := t.next j
    if t.used j = 0 then .ok (t, i)
    else if movable i j (t.home (t.keyAt j)) then htabShiftLoop fuel (t.shift i j) j j
    else htabShiftLoop fuel t i j

/-- Free slot `i` and close the order at `deletedPos`. -/
def Htab.free (t : Htab) (i deletedPos : Word) : Htab :=
  let lastPos := t.count - 1
  let t := { t with used := put t.used i 0 }
  if deletedPos ≠ lastPos then
    let lastSlot := t.order lastPos
    { t with
      order := put t.order deletedPos lastSlot
      orderPos := put t.orderPos lastSlot deletedPos
      count := lastPos }
  else { t with count := lastPos }

/-- Delete a key; the flag says whether it was there. -/
def htabDel (t : Htab) (key : KeyAt) : Except Exn (Word × Htab) := do
  let i ← htabFindSlot t key
  if i = t.cap then return (0, t)
  else do
    let deletedPos := t.orderPos i
    let r ← htabShiftLoop t.cap.toNat t i i
    return (1, r.1.free r.2 deletedPos)

def htabTruncateLoop (n : Word) : Nat → Htab → Except Exn Htab
  | 0, _ => .error .outOfFuel
  | fuel + 1, t =>
    if n < t.count then do
      let slot := t.order (t.count - 1)
      let r ← htabDel t (t.keyAt slot)
      htabTruncateLoop n fuel r.2
    else .ok t

/-- Drop the entries that were inserted after the table held `n` of them. -/
def htabTruncate (t : Htab) (n : Word) : Except Exn Htab :=
  htabTruncateLoop n (t.count.toNat + 1) t

/-! ## Iteration and copies -/

/-- A slot: whether it is used, its key and its value. -/
def htabSlot (t : Htab) (i : Word) : Word × KeyAt × Word :=
  (BitVec.ofNat 64 (t.used i).toNat, t.keyAt i, t.vals i)

/-- The entry with an ordinal. -/
def htabItem (t : Htab) (ordinal : Word) : Word × KeyAt × Word := htabSlot t (t.order ordinal)

/-- The loop of a client over all ordinals. -/
def htabItems (t : Htab) : List (Word × KeyAt × Word) :=
  (List.range t.count.toNat).map fun k => htabItem t (BitVec.ofNat 64 k)

/-- The keys in the order of the entries, each of `keyStride` bytes. -/
def htabKeys (t : Htab) : HeapM (List Bytes × Word) := do
  let _ ← alloc (t.count * t.keyStride + 8)
  return ((List.range t.count.toNat).map fun k =>
    (t.keyAt (t.order (BitVec.ofNat 64 k))).bytes t.keyStride.toNat, t.count)

/-- A copy in one of the arenas. -/
def htabCopyIn (alloc : Word → HeapM Word) (t : Htab) : HeapM Htab := do
  let _ ← alloc 72
  let keys ← alloc (t.cap * t.keyStride)
  let _ ← alloc (t.cap * 8)
  let _ ← alloc t.cap
  let _ ← alloc (t.cap * 8)
  let _ ← alloc (t.cap * 8)
  let a ← leftover
  return { t with
    keys := Htab.memcpy a.keys t.keys t.cap
    vals := Htab.memcpy a.vals t.vals t.cap
    used := Htab.memcpy a.used t.used t.cap
    order := Htab.memcpy a.order t.order t.cap
    orderPos := Htab.memcpy a.orderPos t.orderPos t.cap
    keysPtr := keys }

def htabCopy : Htab → HeapM Htab := htabCopyIn alloc

def htabCopyScratch : Htab → HeapM Htab := htabCopyIn scratchAlloc

end StatelessGuest
