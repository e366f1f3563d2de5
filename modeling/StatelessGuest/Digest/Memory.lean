import Mathlib.Tactic.IntervalCases
import StatelessGuest.Base
import StatelessGuest.Lib.ByteMap
import StatelessGuest.Lib.Exec
import StatelessGuest.Lib.LittleEndian

/-!
# A memory with checked reads

The memory as the digests use it. Some bytes of it may be read; reading another byte, or a word at
an address that is not a multiple of eight, is a stray access. The memory ends below `2 ^ 32`, so
addresses and lengths are numbers.

* `lds`, `st`, `ldLe32`, `ldLe64`, `stBe32`, `stBe64`, `stLe32`, `stLe64`: words in memory.
* `memcpy_run`, `memzero_run`: copies and fills, by words or by bytes.
* `foreignCall`: a call outside of the program, which sees the bytes of one array.
* `Mem.Off`: what a run leaves unchanged.
-/

namespace StatelessGuest.Digest

open Lib

/-- The bytes of the memory, and which of them may be read. -/
structure Mem where
  bytes : ByteMap
  readable : Nat → Bool

abbrev MemM := EStateM Exn Mem

namespace Mem

/-- The `n` bytes at `p` may be read. -/
abbrev Reads (s : Mem) (p n : Nat) : Prop := ∀ i < n, s.readable (p + i) = true

/-- The memory with `bs` at `p`. -/
def put (s : Mem) (p : Nat) (bs : Bytes) : Mem := { s with bytes := s.bytes.store p bs }

@[simp] theorem put_bytes (s : Mem) (p : Nat) (bs : Bytes) :
    (s.put p bs).bytes = s.bytes.store p bs := rfl

@[simp] theorem put_readable (s : Mem) (p : Nat) (bs : Bytes) :
    (s.put p bs).readable = s.readable := rfl

theorem put_nil (s : Mem) (p : Nat) : s.put p [] = s := by
  unfold put
  rw [ByteMap.store_nil]

theorem put_append (s : Mem) (p : Nat) (bs cs : Bytes) :
    s.put p (bs ++ cs) = (s.put p bs).put (p + bs.length) cs := by
  unfold put
  rw [ByteMap.store_append]

theorem put_put (s : Mem) (p : Nat) {bs cs : Bytes} (h : bs.length ≤ cs.length) :
    (s.put p bs).put p cs = s.put p cs := by
  unfold put
  rw [ByteMap.store_store h]

/-- A write inside of a range that was written. -/
theorem put_inside (s : Mem) {p q : Nat} (as bs cs ds : Bytes) (hq : q = p + as.length)
    (h : bs.length = ds.length) :
    (s.put p (as ++ (bs ++ cs))).put q ds = s.put p (as ++ (ds ++ cs)) := by
  subst hq
  rw [put_append, put_append, put_append s p as, put_append _ _ ds cs]
  unfold put
  rw [ByteMap.store_comm (.inr (by rw [h])), ByteMap.store_store (Nat.le_of_eq h), h]

theorem Reads.part {s : Mem} {p q n m : Nat} (h : s.Reads p n) (hp : p ≤ q)
    (hn : q + m ≤ p + n) : s.Reads q m := by
  intro i hi
  have := h (q + i - p) (by omega)
  rwa [Nat.add_sub_cancel' (by omega)] at this

/-- What is read over a write at the front of a range. -/
theorem load_put_front (s : Mem) (p : Nat) {n m : Nat} {bs : Bytes} (hn : bs.length = n) :
    (s.put p bs).bytes.load p (n + m) = bs ++ s.bytes.load (p + n) m := by
  subst hn
  have hrest : (s.put p bs).bytes.load (p + bs.length) m = s.bytes.load (p + bs.length) m :=
    ByteMap.load_store_of_disjoint (.inr (Nat.le_refl _))
  rw [ByteMap.load_add, hrest]
  exact congrArg (· ++ _) (ByteMap.load_store_self _ _ _)

theorem load_put_self (s : Mem) (p : Nat) {n : Nat} {bs : Bytes} (hn : bs.length = n) :
    (s.put p bs).bytes.load p n = bs := by
  subst hn
  exact ByteMap.load_store_self _ _ _

theorem load_put_off (s : Mem) {p q n : Nat} {bs : Bytes}
    (h : q + n ≤ p ∨ p + bs.length ≤ q) : (s.put p bs).bytes.load q n = s.bytes.load q n :=
  ByteMap.load_store_of_disjoint h

theorem take_load (m : ByteMap) (p : Nat) {i n : Nat} (h : i ≤ n) :
    (m.load p n).take i = m.load p i := by
  obtain ⟨k, rfl⟩ := Nat.exists_eq_add_of_le h
  rw [ByteMap.load_add, List.take_left' (ByteMap.length_load _ _ _)]

theorem drop_load (m : ByteMap) (p : Nat) {i n : Nat} (h : i ≤ n) :
    (m.load p n).drop i = m.load (p + i) (n - i) := by
  obtain ⟨k, rfl⟩ := Nat.exists_eq_add_of_le h
  rw [ByteMap.load_add, List.drop_left' (ByteMap.length_load _ _ _), Nat.add_sub_cancel_left]

/-- The bytes outside of a region are unchanged. -/
structure Off (r : Nat → Prop) (s s' : Mem) : Prop where
  readable : s'.readable = s.readable
  bytes : ∀ q, ¬r q → s'.bytes q = s.bytes q

/-- The addresses of a range. -/
def At (p n q : Nat) : Prop := p ≤ q ∧ q < p + n

/-- Two ranges have no address in common. -/
def Apart (p n q m : Nat) : Prop := ∀ x, At p n x → ¬At q m x

variable {r r' : Nat → Prop} {s s' s'' : Mem} {p q n m : Nat} {bs : Bytes}

theorem Apart.disjoint (h : Apart p n q m) (hn : 0 < n) (hm : 0 < m) : p + n ≤ q ∨ q + m ≤ p := by
  by_contra hne
  refine h (max p q) ⟨Nat.le_max_left p q, ?_⟩ ⟨Nat.le_max_right p q, ?_⟩ <;> omega

/-- A range that is no longer is copied right. -/
theorem Apart.copies (h : Apart p n q m) (hle : n ≤ m) : q ≤ p ∨ p + n ≤ q := by
  rcases Nat.eq_zero_or_pos n with rfl | hn
  · omega
  · have := h.disjoint hn (by omega)
    omega

theorem Apart.part {i k : Nat} (h : Apart p n q m) (hk : i + k ≤ n) : Apart (p + i) k q m := by
  intro x hx
  refine h x ?_
  unfold At at hx ⊢
  omega

theorem apart_of_disjoint (h : p + n ≤ q ∨ q + m ≤ p) : Apart p n q m := by
  intro x hp hq
  unfold At at hp hq
  omega

theorem Off.refl (r : Nat → Prop) (s : Mem) : Off r s s := ⟨rfl, fun _ _ => rfl⟩

theorem Off.trans (h : Off r s s') (h' : Off r s' s'') : Off r s s'' :=
  ⟨h'.readable.trans h.readable, fun q hq => (h'.bytes q hq).trans (h.bytes q hq)⟩

theorem Off.mono (h : Off r s s') (hr : ∀ q, r q → r' q) : Off r' s s' :=
  ⟨h.readable, fun q hq => h.bytes q fun hin => hq (hr q hin)⟩

theorem Off.reads (h : Off r s s') (hs : s.Reads p n) : s'.Reads p n := by
  intro i hi
  rw [h.readable]
  exact hs i hi

theorem Off.load (h : Off r s s') (hr : ∀ q, At p n q → ¬r q) :
    s'.bytes.load p n = s.bytes.load p n :=
  ByteMap.load_congr fun i hi => h.bytes _ (hr _ ⟨Nat.le_add_right p i, by omega⟩)

theorem off_put (s : Mem) (h : bs.length ≤ n) : Off (At p n) s (s.put p bs) := by
  refine ⟨rfl, fun q hq => ByteMap.store_off ?_⟩
  unfold At at hq
  omega

end Mem

open Mem

section

variable [Stray]

/-! ## Bytes and words -/

def ld8 (p : Nat) : MemM Word := do
  let s ← get
  if s.readable p then return BitVec.ofNat 64 (s.bytes p).toNat else throw Stray.exn

/-- The low byte of a word is stored. -/
def st8 (p : Nat) (v : Word) : MemM Unit := modify fun s => s.put p [UInt8.ofNat v.toNat]

def lds (p : Nat) : MemM Word := do
  let s ← get
  if p % 8 = 0 ∧ s.Reads p 8 then return BitVec.ofNat 64 (leNat (s.bytes.load p 8))
  else throw Stray.exn

def st (p : Nat) (w : Word) : MemM Unit :=
  if p % 8 = 0 then modify fun s => s.put p (leBytes 8 w.toNat) else throw Stray.exn

def ldLe32 (p : Nat) : MemM Word := do
  let b₀ ← ld8 p
  let b₁ ← ld8 (p + 1)
  let b₂ ← ld8 (p + 2)
  let b₃ ← ld8 (p + 3)
  return b₀ ||| b₁ <<< 8 ||| b₂ <<< 16 ||| b₃ <<< 24

def ldLe64 (p : Nat) : MemM Word := do
  let lo ← ldLe32 p
  let hi ← ldLe32 (p + 4)
  return lo ||| hi <<< 32

def stLe32 (p : Nat) (v : Word) : MemM Unit := do
  st8 p v
  st8 (p + 1) (v >>> 8)
  st8 (p + 2) (v >>> 16)
  st8 (p + 3) (v >>> 24)

def stLe64 (p : Nat) (v : Word) : MemM Unit := do
  stLe32 p v
  stLe32 (p + 4) (v >>> 32)

def stBe32 (p : Nat) (v : Word) : MemM Unit := do
  st8 p (v >>> 24)
  st8 (p + 1) (v >>> 16)
  st8 (p + 2) (v >>> 8)
  st8 (p + 3) v

def bswap64 (x : Word) : Word :=
  let x := ((x &&& 71777214294589695) <<< 8) ||| ((x >>> 8) &&& 71777214294589695)
  let x := ((x &&& 281470681808895) <<< 16) ||| ((x >>> 16) &&& 281470681808895)
  (x <<< 32) ||| (x >>> 32)

def stBe64 (p : Nat) (v : Word) : MemM Unit := do
  if p &&& 7 = 0 then st p (bswap64 v)
  else
    stBe32 p (v >>> 32)
    stBe32 (p + 4) v

/-- A foreign call gets the bytes of an array and leaves as many. -/
def foreignCall (f : Bytes → Bytes) (p n : Nat) : MemM Unit := do
  let s ← get
  if s.Reads p n then modify fun s => s.put p (f (s.bytes.load p n)) else throw Stray.exn

/-! ## Loops -/

/-- `while go i { body; i = i + step }`, with the position it ends at. -/
def loopFrom (go : Nat → Bool) (step : Nat) (body : Nat → MemM Unit) : Nat → Nat → MemM Nat
  | 0, i => return i
  | fuel + 1, i =>
    if go i then do
      body i
      loopFrom go step body fuel (i + step)
    else return i

/-- `while i + width <= n`. -/
def blockLoop (n width : Nat) (body : Nat → MemM Unit) (i : Nat) : MemM Nat :=
  loopFrom (fun i => i + width ≤ n) width body n i

/-- `while i < n`. -/
def countLoop (n step : Nat) (body : Nat → MemM Unit) : MemM Unit := do
  let _ ← loopFrom (fun i => i < n) step body n 0

def moveByte (dst src : Nat) : MemM Unit := do
  let b ← ld8 src
  st8 dst b

def moveWord (dst src : Nat) : MemM Unit := do
  let w ← lds src
  st dst w

def moveWords (dst src i : Nat) : MemM Unit := do
  moveWord (dst + i) (src + i)
  moveWord (dst + i + 8) (src + i + 8)
  moveWord (dst + i + 16) (src + i + 16)
  moveWord (dst + i + 24) (src + i + 24)

def moveBytes (dst src i : Nat) : MemM Unit := do
  moveByte (dst + i) (src + i)
  moveByte (dst + i + 1) (src + i + 1)
  moveByte (dst + i + 2) (src + i + 2)
  moveByte (dst + i + 3) (src + i + 3)
  moveByte (dst + i + 4) (src + i + 4)
  moveByte (dst + i + 5) (src + i + 5)
  moveByte (dst + i + 6) (src + i + 6)
  moveByte (dst + i + 7) (src + i + 7)

def memcpyWords (dst src n : Nat) : MemM Nat :=
  if (dst ||| src) &&& 7 = 0 then do
    let i ← blockLoop n 32 (moveWords dst src) 0
    blockLoop n 8 (fun i => moveWord (dst + i) (src + i)) i
  else return 0

def memcpy (dst src n : Nat) : MemM Unit := do
  let i ← memcpyWords dst src n
  let i ← blockLoop n 8 (moveBytes dst src) i
  let _ ← blockLoop n 1 (fun i => moveByte (dst + i) (src + i)) i

def zeroWords (dst i : Nat) : MemM Unit := do
  st (dst + i) 0
  st (dst + i + 8) 0
  st (dst + i + 16) 0
  st (dst + i + 24) 0

def zeroBytes (dst i : Nat) : MemM Unit := do
  st8 (dst + i) 0
  st8 (dst + i + 1) 0
  st8 (dst + i + 2) 0
  st8 (dst + i + 3) 0
  st8 (dst + i + 4) 0
  st8 (dst + i + 5) 0
  st8 (dst + i + 6) 0
  st8 (dst + i + 7) 0

def memzeroWords (dst n : Nat) : MemM Nat :=
  if dst &&& 7 = 0 then do
    let i ← blockLoop n 32 (zeroWords dst) 0
    blockLoop n 8 (fun i => st (dst + i) 0) i
  else return 0

def memzero (dst n : Nat) : MemM Unit := do
  let i ← memzeroWords dst n
  let i ← blockLoop n 8 (zeroBytes dst) i
  let _ ← blockLoop n 1 (fun i => st8 (dst + i) 0) i

/-! ## The bytes of words -/

omit [Stray]

/-- The word whose lowest byte comes first. -/
def wordOf (bs : Bytes) : Word := BitVec.ofNat 64 (leNat bs)

theorem toNat_wordOf {bs : Bytes} (h : bs.length ≤ 8) : (wordOf bs).toNat = leNat bs := by
  have hlt := leNat_lt bs
  have hpow : 256 ^ bs.length ≤ 256 ^ 8 := Nat.pow_le_pow_right (by decide) h
  rw [wordOf, BitVec.toNat_ofNat, Nat.mod_eq_of_lt (by omega)]

theorem leBytes_wordOf {bs : Bytes} (h : bs.length = 8) : leBytes 8 (wordOf bs).toNat = bs := by
  rw [toNat_wordOf (Nat.le_of_eq h), ← h, leBytes_leNat]

theorem wordOf_leBytes (w : Word) : wordOf (leBytes 8 w.toNat) = w := by
  apply BitVec.eq_of_toNat_eq
  rw [toNat_wordOf (Nat.le_of_eq (length_leBytes _ _)), leNat_leBytes_of_lt w.isLt]

theorem wordOf_append {as bs : Bytes} (h : as.length + bs.length ≤ 8) :
    wordOf (as ++ bs) = wordOf as ||| wordOf bs <<< (8 * as.length) := by
  have has := leNat_lt as
  have hbs := leNat_lt bs
  have hpow : 256 ^ as.length = 2 ^ (8 * as.length) := by
    rw [show (256 : Nat) = 2 ^ 8 from rfl, ← Nat.pow_mul]
  have hfit : 2 ^ (8 * as.length) * leNat bs < 2 ^ 64 := by
    have hle : 256 ^ (as.length + bs.length) ≤ 256 ^ 8 := Nat.pow_le_pow_right (by decide) h
    have hlt := Nat.mul_lt_mul_of_pos_left hbs (Nat.pow_pos (n := as.length) (a := 256) (by decide))
    rw [Nat.pow_add] at hle
    rw [← hpow]
    omega
  have hall : (as ++ bs).length ≤ 8 := by rwa [List.length_append]
  have hfirst : as.length ≤ 8 := by omega
  have hsecond : bs.length ≤ 8 := by omega
  apply BitVec.eq_of_toNat_eq
  rw [BitVec.toNat_or, BitVec.toNat_shiftLeft, toNat_wordOf hall, toNat_wordOf hfirst,
    toNat_wordOf hsecond, leNat_append, Nat.shiftLeft_eq, Nat.mul_comm (leNat bs),
    Nat.mod_eq_of_lt hfit, Nat.or_comm, ← Nat.two_pow_add_eq_or_of_lt (hpow ▸ has), hpow,
    Nat.add_comm]

theorem toNat_ushiftRight (v : Word) (k : Nat) : (v >>> k).toNat = v.toNat / 2 ^ k := by
  rw [BitVec.toNat_ushiftRight, Nat.shiftRight_eq_div_pow]

theorem beBytes_eq_reverse (k v : Nat) : beBytes k v = (leBytes k v).reverse := by
  induction k generalizing v with
  | zero => rfl
  | succ k ih =>
    have hlow : UInt8.ofNat (v % 256) = UInt8.ofNat v := by
      apply UInt8.toNat_inj.mp
      exact Nat.mod_mod v 256
    rw [beBytes, leBytes, List.reverse_cons, ih, hlow]

theorem getElem?_leBytes {k i : Nat} (h : i < k) (v : Nat) :
    (leBytes k v)[i]? = some (UInt8.ofNat (v / 256 ^ i)) := by
  induction k generalizing v i with
  | zero => exact absurd h (Nat.not_lt_zero i)
  | succ k ih =>
    cases i with
    | zero => rw [leBytes, List.getElem?_cons_zero, Nat.pow_zero, Nat.div_one]
    | succ i =>
      rw [leBytes, List.getElem?_cons_succ, ih (Nat.lt_of_succ_lt_succ h),
        Nat.div_div_eq_div_mul, Nat.pow_succ']

/-- A byte by its bits. -/
theorem byte_eq_of_bits {x y : Word} {j k : Nat}
    (h : ∀ b < 8, x.getLsbD (8 * j + b) = y.getLsbD (8 * k + b)) :
    UInt8.ofNat (x.toNat / 256 ^ j) = UInt8.ofNat (y.toNat / 256 ^ k) := by
  apply UInt8.toNat_inj.mp
  apply Nat.eq_of_testBit_eq
  intro b
  change (x.toNat / 256 ^ j % 2 ^ 8).testBit b = (y.toNat / 256 ^ k % 2 ^ 8).testBit b
  rw [Nat.testBit_mod_two_pow, Nat.testBit_mod_two_pow]
  by_cases hb : b < 8
  · have hx := h b hb
    rw [show (256 : Nat) = 2 ^ 8 from rfl, ← Nat.pow_mul, ← Nat.pow_mul,
      Nat.testBit_div_two_pow, Nat.testBit_div_two_pow, Nat.add_comm b, Nat.add_comm b]
    exact congrArg _ hx
  · rw [decide_eq_false hb, Bool.false_and, Bool.false_and]

/-- Neighbouring groups of `k` bits change places under a mask of every other group. -/
theorem swap_bits {x m : Word} {k i : Nat} (hm : ∀ i < 64, m.getLsbD i = decide (i % (2 * k) < k))
    (hpos : 0 < k) (hi : i < 64) :
    (((x &&& m) <<< k) ||| ((x >>> k) &&& m)).getLsbD i =
      x.getLsbD (if i % (2 * k) < k then i + k else i - k) := by
  have hdiv := Nat.div_add_mod i (2 * k)
  have hmod := Nat.mod_lt i (show 0 < 2 * k by omega)
  rw [BitVec.getLsbD_or, BitVec.getLsbD_shiftLeft, BitVec.getLsbD_and, BitVec.getLsbD_and,
    BitVec.getLsbD_ushiftRight, hm i hi, decide_eq_true hi, Bool.true_and, Nat.add_comm k i]
  by_cases hlow : i % (2 * k) < k
  · rw [if_pos hlow, decide_eq_true hlow, Bool.and_true]
    by_cases hik : i < k
    · rw [decide_eq_true hik, Bool.not_true, Bool.false_and, Bool.false_or]
    · have hback : (i - k) % (2 * k) = i % (2 * k) + k := by
        obtain ⟨t, ht⟩ : ∃ t, i / (2 * k) = t + 1 := by
          refine Nat.exists_eq_succ_of_ne_zero fun h0 => ?_
          rw [h0, Nat.mul_zero] at hdiv
          omega
        have heq : i - k = i % (2 * k) + k + 2 * k * t := by
          rw [ht, Nat.mul_succ] at hdiv
          omega
        rw [heq, Nat.add_mul_mod_self_left, Nat.mod_eq_of_lt (by omega)]
      have hoff : ¬i % (2 * k) + k < k := by omega
      rw [hm (i - k) (by omega), hback, decide_eq_false hoff, Bool.and_false, Bool.and_false,
        Bool.false_or]
  · rw [if_neg hlow, decide_eq_false hlow, Bool.and_false, Bool.or_false]
    have hik : ¬i < k := fun h => hlow (by rwa [Nat.mod_eq_of_lt (by omega)])
    have hback : (i - k) % (2 * k) = i % (2 * k) - k := by
      have heq : i - k = i % (2 * k) - k + 2 * k * (i / (2 * k)) := by omega
      rw [heq, Nat.add_mul_mod_self_left, Nat.mod_eq_of_lt (by omega)]
    have hon : i % (2 * k) - k < k := by omega
    rw [decide_eq_false hik, hm (i - k) (by omega), hback, decide_eq_true hon, Bool.not_false,
      Bool.true_and, Bool.and_true]

theorem getLsbD_bswap64 {v : Word} {j b : Nat} (hj : j < 8) (hb : b < 8) :
    (bswap64 v).getLsbD (8 * j + b) = v.getLsbD (8 * (7 - j) + b) := by
  have hbytes : ∀ i < 64, (71777214294589695 : Word).getLsbD i = decide (i % (2 * 8) < 8) := by
    decide
  have hpairs : ∀ i < 64, (281470681808895 : Word).getLsbD i = decide (i % (2 * 16) < 16) := by
    decide
  unfold bswap64
  dsimp only
  have hhalves : ∀ x : Word, ∀ i < 64, ((x <<< 32) ||| (x >>> 32)).getLsbD i =
      x.getLsbD (if i < 32 then i + 32 else i - 32) := by
    intro x i hi
    rw [BitVec.getLsbD_or, BitVec.getLsbD_shiftLeft, BitVec.getLsbD_ushiftRight,
      decide_eq_true hi, Bool.true_and, Nat.add_comm 32 i]
    split
    · next hlow => rw [decide_eq_true hlow, Bool.not_true, Bool.false_and, Bool.false_or]
    · next hhigh =>
      rw [decide_eq_false hhigh, Bool.not_false, Bool.true_and,
        BitVec.getLsbD_of_ge x (i + 32) (by omega), Bool.or_false]
  rw [hhalves _ _ (by omega)]
  interval_cases j <;>
    simp (disch := omega) only [swap_bits hpairs, swap_bits hbytes, if_pos, if_neg]
  all_goals exact congrArg _ (by omega)

end

end StatelessGuest.Digest
