import StatelessGuest.Lib.Exec
import StatelessGuest.Rlp.Decode

/-!
# The RLP decoder in memory

The decoder as it works on addresses: an item is described by words, and nested lists are
validated by a loop whose pending continuations are records in the scratch arena.

* `ld8`: a read, which has to stay inside of a buffer.
* `rlpItemAt`, `rlpItemHeader`: the two copies of the header checks.
* `rlpValidateItems`: the loop, with the arena released after it.
-/

namespace StatelessGuest

open Lib

/-! ## Memory -/

/-- The memory, of which the `len` bytes from `start` on can be read. -/
structure Buffer where
  byte : Word → UInt8
  start : Word
  len : Word

/-- The scratch arena, which grows downwards to the frames' memory, and the words in it. -/
structure Scratch where
  ptr : Word
  frameMem : Word
  cells : Word → Word

abbrev RlpM := EStateM Exn Scratch

/-- The arena between `SCRATCH_BASE` and `SCRATCH_END` as the guest starts with it. -/
def memInit : Scratch where
  ptr := 2701127680
  frameMem := 2688618496
  cells _ := 0

def lds (p : Word) : RlpM Word := do return (← get).cells p

def st (p v : Word) : RlpM Unit :=
  modify fun s => { s with cells := fun q => if q = p then v else s.cells q }

def scratchAlloc (n : Word) : RlpM Word := do
  let s ← get
  if s.ptr - s.frameMem < n then throw (.trap 7)
  else
    let q := (s.ptr - n) &&& (0 - 8)
    if q < s.frameMem then throw (.trap 7)
    else do
      modify fun s => { s with ptr := q }
      return q

def scratchMark : RlpM Word := do return (← get).ptr

def scratchRelease (mark : Word) : RlpM Unit := modify fun s => { s with ptr := mark }

section

variable [Stray] (b : Buffer)

def ld8 (p : Word) : RlpM Word :=
  if p - b.start < b.len then return BitVec.ofNat 64 (b.byte p).toNat else throw Stray.exn

/-! ## Headers -/

/-- A big-endian length; one of several bytes has no leading zero. -/
def rlpReadLengthAt (p n : Word) : RlpM Word := do
  let first ← ld8 b p
  if 1 < n ∧ first = 0 then throw (.rlp 2)
  else (List.range n.toNat).foldlM (fun v i => do
    let x ← ld8 b (p + BitVec.ofNat 64 i)
    return (v <<< 8) ||| x) 0

/-- The header of an item in words. -/
structure HeaderAt where
  size : Word
  payload : Word
  isList : Bool

def rlpItemHeader (p len : Word) : RlpM HeaderAt :=
  if len = 0 then throw (.rlp 1)
  else do
    let first ← ld8 b p
    if first < 128 then return ⟨0, 1, false⟩
    else if first ≤ 183 then
      let n := first - 128
      if len - 1 < n then throw (.rlp 3)
      else if n = 1 then do
        let second ← ld8 b (p + 1)
        if second < 128 then throw (.rlp 4) else return ⟨1, n, false⟩
      else return ⟨1, n, false⟩
    else if first ≤ 191 then
      let ll := first - 183
      if len - 1 < ll then throw (.rlp 3)
      else do
        let n ← rlpReadLengthAt b (p + 1) ll
        if n ≤ 55 then throw (.rlp 5)
        else if len - 1 - ll < n then throw (.rlp 3)
        else return ⟨1 + ll, n, false⟩
    else if first ≤ 247 then
      let n := first - 192
      if len - 1 < n then throw (.rlp 3)
      else return ⟨1, n, true⟩
    else
      let ll := first - 247
      if len - 1 < ll then throw (.rlp 3)
      else do
        let n ← rlpReadLengthAt b (p + 1) ll
        if n ≤ 55 then throw (.rlp 5)
        else if len - 1 - ll < n then throw (.rlp 3)
        else return ⟨1 + ll, n, true⟩

/-! ## Lists -/

/-- The validator at `pos` in a payload up to `stop`. `top` is the last pending continuation, a
record of where the list around goes on, where that stops and the continuation below. -/
def rlpValidateLoop : Nat → Word → Word → Word → RlpM Unit
  | 0, _, _, _ => throw .outOfFuel
  | fuel + 1, top, pos, stop =>
    if pos = stop then
      if top = 0 then return ()
      else do
        let after ← lds top
        let stop ← lds (top + 8)
        let below ← lds (top + 16)
        rlpValidateLoop fuel below after stop
    else do
      let h ← rlpItemHeader b pos (stop - pos)
      let payload := pos + h.size
      let after := payload + h.payload
      if h.isList then do
        let record ← scratchAlloc 24
        st record after
        st (record + 8) stop
        st (record + 16) top
        rlpValidateLoop fuel record payload after
      else rlpValidateLoop fuel top after stop

/-- A round takes a byte or a continuation, of which there are at most as many as bytes. -/
def rlpValidateItemsBody (p len : Word) : RlpM Unit :=
  rlpValidateLoop b (2 * len.toNat + 1) 0 p (p + len)

/-- The records are released, also on an error of the input. -/
def rlpValidateItems (p len : Word) : RlpM Unit := do
  let mark ← scratchMark
  tryCatch (rlpValidateItemsBody b p len) fun
    | .rlp e => do
      scratchRelease mark
      throw (.rlp e)
    | e => throw e
  scratchRelease mark

def rlpItemTotal (p len : Word) : RlpM Word := do
  let h ← rlpItemHeader b p len
  if h.isList then do
    rlpValidateItems b (p + h.size) h.payload
    return h.size + h.payload
  else return h.size + h.payload

/-- The items from `off` on; each takes at least a byte. -/
def rlpListCountLoop (p len : Word) : Nat → Word → Word → RlpM Word
  | 0, _, _ => throw .outOfFuel
  | fuel + 1, off, count =>
    if off < len then do
      let total ← rlpItemTotal b (p + off) (len - off)
      rlpListCountLoop p len fuel (off + total) (count + 1)
    else return count

def rlpListCountAt (p len : Word) : RlpM Word := rlpListCountLoop b p len (len.toNat + 1) 0 0

/-! ## Items -/

/-- An item in words: its kind, where its payload is, the payload's length and that of the item. -/
structure ItemAt where
  isList : Bool
  payload : Word
  length : Word
  total : Word

def rlpItemAt (p len : Word) : RlpM ItemAt :=
  if len = 0 then throw (.rlp 1)
  else do
    let first ← ld8 b p
    if first < 128 then return ⟨false, p, 1, 1⟩
    else if first ≤ 183 then
      let n := first - 128
      if len - 1 < n then throw (.rlp 3)
      else if n = 1 then do
        let second ← ld8 b (p + 1)
        if second < 128 then throw (.rlp 4) else return ⟨false, p + 1, n, 1 + n⟩
      else return ⟨false, p + 1, n, 1 + n⟩
    else if first ≤ 191 then
      let ll := first - 183
      if len - 1 < ll then throw (.rlp 3)
      else do
        let n ← rlpReadLengthAt b (p + 1) ll
        if n ≤ 55 then throw (.rlp 5)
        else if len - 1 - ll < n then throw (.rlp 3)
        else return ⟨false, p + 1 + ll, n, 1 + ll + n⟩
    else if first ≤ 247 then
      let n := first - 192
      if len - 1 < n then throw (.rlp 3)
      else do
        let _ ← rlpListCountAt b (p + 1) n
        return ⟨true, p + 1, n, 1 + n⟩
    else
      let ll := first - 247
      if len - 1 < ll then throw (.rlp 3)
      else do
        let n ← rlpReadLengthAt b (p + 1) ll
        if n ≤ 55 then throw (.rlp 5)
        else if len - 1 - ll < n then throw (.rlp 3)
        else do
          let _ ← rlpListCountAt b (p + 1 + ll) n
          return ⟨true, p + 1 + ll, n, 1 + ll + n⟩

def rlpDecodeFullyAt (p len : Word) : RlpM ItemAt := do
  let it ← rlpItemAt b p len
  if it.total ≠ len then throw (.rlp 6) else return it

/-- The two copies of the header checks agree. -/
theorem rlpItemAt_eq (p len : Word) : rlpItemAt b p len = (do
    let h ← rlpItemHeader b p len
    if h.isList then do
      let _ ← rlpListCountAt b (p + h.size) h.payload
      return ⟨h.isList, p + h.size, h.payload, h.size + h.payload⟩
    else return ⟨h.isList, p + h.size, h.payload, h.size + h.payload⟩) := by
  unfold rlpItemAt rlpItemHeader
  by_cases hlen : len = 0
  · simp only [if_pos hlen]
    rfl
  simp only [if_neg hlen, bind_assoc]
  refine bind_congr fun first => ?_
  by_cases hsingle : first < 128
  · have hself : p + 0 = p := BitVec.add_zero p
    simp only [if_pos hsingle, pure_bind, Bool.false_eq_true, if_false, hself]
    rfl
  simp only [if_neg hsingle]
  by_cases hstring : first ≤ 183
  · simp only [if_pos hstring]
    by_cases hshort : len - 1 < first - 128
    · simp only [if_pos hshort]
      rfl
    simp only [if_neg hshort]
    by_cases hone : first - 128 = 1
    · simp only [if_pos hone, bind_assoc]
      refine bind_congr fun second => ?_
      by_cases hown : second < 128
      · simp only [if_pos hown]
        rfl
      · simp only [if_neg hown, pure_bind, Bool.false_eq_true, if_false]
    · simp only [if_neg hone, pure_bind, Bool.false_eq_true, if_false]
  simp only [if_neg hstring]
  by_cases hlong : first ≤ 191
  · simp only [if_pos hlong]
    by_cases hshort : len - 1 < first - 183
    · simp only [if_pos hshort]
      rfl
    simp only [if_neg hshort, bind_assoc]
    refine bind_congr fun n => ?_
    by_cases hsmall : n ≤ 55
    · simp only [if_pos hsmall]
      rfl
    simp only [if_neg hsmall]
    by_cases hcut : len - 1 - (first - 183) < n
    · simp only [if_pos hcut]
      rfl
    · simp only [if_neg hcut, pure_bind, Bool.false_eq_true, if_false, BitVec.add_assoc]
  simp only [if_neg hlong]
  by_cases hlist : first ≤ 247
  · simp only [if_pos hlist]
    by_cases hshort : len - 1 < first - 192
    · simp only [if_pos hshort]
      rfl
    · simp only [if_neg hshort, pure_bind, if_true]
  simp only [if_neg hlist]
  by_cases hshort : len - 1 < first - 247
  · simp only [if_pos hshort]
    rfl
  simp only [if_neg hshort, bind_assoc]
  refine bind_congr fun n => ?_
  by_cases hsmall : n ≤ 55
  · simp only [if_pos hsmall]
    rfl
  simp only [if_neg hsmall]
  by_cases hcut : len - 1 - (first - 247) < n
  · simp only [if_pos hcut]
    rfl
  · simp only [if_neg hcut, pure_bind, if_true, BitVec.add_assoc]

end

end StatelessGuest
