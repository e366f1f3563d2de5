import StatelessGuest.Digest.Runs
import StatelessGuest.Num.Shift

/-!
# Words and bytes agree

Comparisons, big-endian loads and 256-bit integers in memory. Each has a path for aligned addresses
that takes words, and one that takes bytes.

* `memeq`, `ldBe64`, `u256FromBe`, `u256ToBe32`, `u256ToBeMin`.
* `memeq_run`, `ldBe64_run`, `u256FromBe_run`, ...: their results do not depend on the alignment.
* `paths_agree`: all of them together.
-/

namespace StatelessGuest.Digest

open Lib Mem

section

variable [Stray]

/-! ## The programs -/

def sameByte (p q : Nat) : MemM Bool := do
  let b ← ld8 p
  let c ← ld8 q
  return b == c

def sameWord (p q : Nat) : MemM Bool := do
  let v ← lds p
  let w ← lds q
  return v == w

/-- Compared in order, up to a difference. -/
def allSame : List (MemM Bool) → MemM Bool
  | [] => return true
  | test :: tests => do
    if ← test then allSame tests else return false

/-- `while i + width <= n`, ended by a difference; otherwise the position behind the blocks. -/
def sameFrom (n width : Nat) (test : Nat → MemM Bool) : Nat → Nat → MemM (Option Nat)
  | 0, i => return some i
  | fuel + 1, i =>
    if i + width ≤ n then do
      if ← test i then sameFrom n width test fuel (i + width) else return none
    else return some i

def sameWords (a b i : Nat) : MemM Bool :=
  allSame [sameWord (a + i) (b + i), sameWord (a + i + 8) (b + i + 8),
    sameWord (a + i + 16) (b + i + 16), sameWord (a + i + 24) (b + i + 24)]

def sameBytes (a b i : Nat) : MemM Bool :=
  allSame [sameByte (a + i) (b + i), sameByte (a + i + 1) (b + i + 1),
    sameByte (a + i + 2) (b + i + 2), sameByte (a + i + 3) (b + i + 3),
    sameByte (a + i + 4) (b + i + 4), sameByte (a + i + 5) (b + i + 5),
    sameByte (a + i + 6) (b + i + 6), sameByte (a + i + 7) (b + i + 7)]

/-- The lengths that are compared without a loop: addresses, hashes and both together. -/
def memeq20 (a b : Nat) : MemM Bool :=
  allSame [sameWord a b, sameWord (a + 8) (b + 8), sameByte (a + 16) (b + 16),
    sameByte (a + 17) (b + 17), sameByte (a + 18) (b + 18), sameByte (a + 19) (b + 19)]

def memeq32 (a b : Nat) : MemM Bool :=
  allSame [sameWord a b, sameWord (a + 8) (b + 8), sameWord (a + 16) (b + 16),
    sameWord (a + 24) (b + 24)]

def memeq52 (a b : Nat) : MemM Bool :=
  allSame [sameWord a b, sameWord (a + 8) (b + 8), sameWord (a + 16) (b + 16),
    sameWord (a + 24) (b + 24), sameWord (a + 32) (b + 32), sameWord (a + 40) (b + 40),
    sameByte (a + 48) (b + 48), sameByte (a + 49) (b + 49), sameByte (a + 50) (b + 50),
    sameByte (a + 51) (b + 51)]

/-- The loops, each from where the one before it ended. -/
def sameLoops (n : Nat) : List (Nat × (Nat → MemM Bool)) → Nat → MemM Bool
  | [], _ => return true
  | (width, test) :: loops, i => do
    match ← sameFrom n width test n i with
    | some j => sameLoops n loops j
    | none => return false

def memeq (a b n : Nat) : MemM Word := do
  let byBytes : List (Nat × (Nat → MemM Bool)) :=
    [(8, sameBytes a b), (1, fun i => sameByte (a + i) (b + i))]
  let same ←
    if (a ||| b) &&& 7 = 0 then
      if n = 20 then memeq20 a b
      else if n = 32 then memeq32 a b
      else if n = 52 then memeq52 a b
      else sameLoops n ([(32, sameWords a b), (8, fun i => sameWord (a + i) (b + i))] ++ byBytes) 0
    else sameLoops n byBytes 0
  return if same then 1 else 0

def ldBe32 (p : Nat) : MemM Word := do
  let b₀ ← ld8 p
  let b₁ ← ld8 (p + 1)
  let b₂ ← ld8 (p + 2)
  let b₃ ← ld8 (p + 3)
  return b₀ <<< 24 ||| b₁ <<< 16 ||| b₂ <<< 8 ||| b₃

def ldBe64 (p : Nat) : MemM Word :=
  if p &&& 7 = 0 then do return bswap64 (← lds p)
  else do
    let hi ← ldBe32 p
    let lo ← ldBe32 (p + 4)
    return hi <<< 32 ||| lo

/-- A byte of the integer, `pos` bytes above its lowest one. -/
def orByte (x : Limb.U256) (pos : Nat) (b : Word) : Limb.U256 :=
  let byte := b <<< ((pos &&& 7) * 8)
  let w := pos >>> 3
  ⟨if w = 0 then x.l0 ||| byte else x.l0, if w = 1 then x.l1 ||| byte else x.l1,
    if w = 2 then x.l2 ||| byte else x.l2, if w = 3 then x.l3 ||| byte else x.l3⟩

/-- `while i < n`, with `left` bytes to go. -/
def u256FromBeLoop (p n : Nat) : Nat → Limb.U256 → MemM Limb.U256
  | 0, x => return x
  | left + 1, x => do
    let b ← ld8 (p + (n - 1 - left))
    u256FromBeLoop p n left (orByte x left b)

def u256FromBe (p n : Nat) : MemM Limb.U256 :=
  if n = 32 ∧ p &&& 7 = 0 then do
    let w₃ ← lds p
    let w₂ ← lds (p + 8)
    let w₁ ← lds (p + 16)
    let w₀ ← lds (p + 24)
    return ⟨bswap64 w₀, bswap64 w₁, bswap64 w₂, bswap64 w₃⟩
  else u256FromBeLoop p n n .zero

def u256ToBe32 (a : Limb.U256) (out : Nat) : MemM Unit :=
  if out &&& 7 = 0 then do
    st out (bswap64 a.l3)
    st (out + 8) (bswap64 a.l2)
    st (out + 16) (bswap64 a.l1)
    st (out + 24) (bswap64 a.l0)
  else do
    stBe64 out a.l3
    stBe64 (out + 8) a.l2
    stBe64 (out + 16) a.l1
    stBe64 (out + 24) a.l0

def u256ByteLength (a : Limb.U256) : Word := (Limb.u256BitLength a + 7) >>> 3

/-- The bytes are written from the highest one on, with `left` of them to go. -/
def u256ToBeLoop (a : Limb.U256) (out len : Nat) : Nat → MemM Unit
  | 0 => return ()
  | left + 1 => do
    let l := Limb.u256Limb a (BitVec.ofNat 64 (left >>> 3))
    st8 (out + (len - 1 - left)) (l >>> ((left &&& 7) * 8) &&& 255)
    u256ToBeLoop a out len left

/-- The length of what was written. -/
def u256ToBeMin (a : Limb.U256) (out : Nat) : MemM Word := do
  let len := u256ByteLength a
  u256ToBeLoop a out len.toNat len.toNat
  return len

end

/-! ## Comparisons -/

/-- A test that changes nothing and decides `P`. -/
def Tells (s : Mem) (test : MemM Bool) (P : Prop) : Prop :=
  ∃ c : Bool, test s = .ok c s ∧ (c = true ↔ P)

/-- The bytes behind `a` and `b` are the same from position `i` up to `j`. -/
def Same (s : Mem) (a b i j : Nat) : Prop := ∀ k, i ≤ k → k < j → s.bytes (a + k) = s.bytes (b + k)

section

variable [Stray] {s : Mem} {a b i j k n : Nat}

omit [Stray] in
theorem same_self (s : Mem) (a b i : Nat) : Same s a b i i :=
  fun _ hle hlt => absurd hle (Nat.not_le.mpr hlt)

omit [Stray] in
theorem same_split (hij : i ≤ j) (hjk : j ≤ k) :
    Same s a b i j ∧ Same s a b j k ↔ Same s a b i k := by
  constructor
  · intro ⟨hlow, hhigh⟩ t hle hlt
    rcases Nat.lt_or_ge t j with ht | ht
    · exact hlow t hle ht
    · exact hhigh t ht hlt
  · intro h
    exact ⟨fun t hle hlt => h t hle (by omega), fun t hle hlt => h t (by omega) hlt⟩

omit [Stray] in
theorem same_iff_load (s : Mem) (a b i n : Nat) :
    Same s a b i (i + n) ↔ s.bytes.load (a + i) n = s.bytes.load (b + i) n := by
  constructor
  · intro h
    refine ByteMap.load_congr fun t ht => ?_
    rw [Nat.add_assoc, Nat.add_assoc]
    exact h (i + t) (Nat.le_add_right i t) (by omega)
  · intro h t hle hlt
    obtain ⟨t, rfl⟩ := Nat.exists_eq_add_of_le hle
    have hbyte := congrArg (·[t]?) h
    rw [ByteMap.getElem?_load (by omega), ByteMap.getElem?_load (by omega)] at hbyte
    rw [← Nat.add_assoc, ← Nat.add_assoc]
    exact Option.some.inj hbyte

theorem sameByte_tells (ha : s.Reads a n) (hb : s.Reads b n) (hi : i + 1 ≤ n) :
    Tells s (sameByte (a + i) (b + i)) (Same s a b i (i + 1)) := by
  have hrun : sameByte (a + i) (b + i) s = .ok (BitVec.ofNat 64 (s.bytes (a + i)).toNat ==
      BitVec.ofNat 64 (s.bytes (b + i)).toNat) s := by
    unfold sameByte
    rw [bind_run_ok (ld8_run (ha i hi)), bind_run_ok (ld8_run (hb i hi))]
    rfl
  refine ⟨_, hrun, ?_⟩
  have hword : ∀ c : UInt8, (BitVec.ofNat 64 c.toNat).toNat = c.toNat := by
    intro c
    have := c.toNat_lt
    rw [BitVec.toNat_ofNat, Nat.mod_eq_of_lt (by omega)]
  rw [same_iff_load, beq_iff_eq]
  constructor
  · intro h
    have hbyte := congrArg BitVec.toNat h
    rw [hword, hword] at hbyte
    exact congrArg (fun c => [c]) (UInt8.toNat_inj.mp hbyte)
  · intro h
    rw [(List.cons.inj h).1]

theorem sameWord_tells (ha : s.Reads a n) (hb : s.Reads b n) (hmoda : a % 8 = 0)
    (hmodb : b % 8 = 0) (hmod : i % 8 = 0) (hi : i + 8 ≤ n) :
    Tells s (sameWord (a + i) (b + i)) (Same s a b i (i + 8)) := by
  have hrun : sameWord (a + i) (b + i) s = .ok (wordOf (s.bytes.load (a + i) 8) ==
      wordOf (s.bytes.load (b + i) 8)) s := by
    unfold sameWord
    rw [bind_run_ok (lds_run (by omega) (ha.part (by omega) (by omega))),
      bind_run_ok (lds_run (by omega) (hb.part (by omega) (by omega)))]
    rfl
  refine ⟨_, hrun, ?_⟩
  rw [same_iff_load, beq_iff_eq]
  constructor
  · intro h
    rw [← leBytes_wordOf (ByteMap.length_load s.bytes (a + i) 8), h,
      leBytes_wordOf (ByteMap.length_load _ _ _)]
  · exact congrArg wordOf

omit [Stray] in
theorem allSame_nil (s : Mem) (a b i : Nat) : Tells s (allSame []) (Same s a b i i) :=
  ⟨true, rfl, fun _ => same_self s a b i, fun _ => rfl⟩

omit [Stray] in
/-- A test and then those behind it. -/
theorem allSame_cons {test : MemM Bool} {tests : List (MemM Bool)} (hij : i ≤ j) (hjk : j ≤ k)
    (h : Tells s test (Same s a b i j)) (hrest : Tells s (allSame tests) (Same s a b j k)) :
    Tells s (allSame (test :: tests)) (Same s a b i k) := by
  obtain ⟨c, hrun, hc⟩ := h
  obtain ⟨d, hrun', hd⟩ := hrest
  rw [← same_split hij hjk]
  cases c with
  | true =>
    refine ⟨d, ?_, ?_⟩
    · rw [allSame, bind_run_ok hrun, if_pos rfl, hrun']
    · rw [hd, and_iff_right (hc.mp rfl)]
  | false =>
    refine ⟨false, ?_, fun h => absurd h Bool.false_ne_true, fun h => hc.mpr h.1⟩
    rw [allSame, bind_run_ok hrun, if_neg Bool.false_ne_true]
    rfl

omit [Stray] in
/-- A loop ends behind the last block, or at a block with a difference. -/
theorem sameFrom_run {width fuel : Nat} {test : Nat → MemM Bool} (hwidth : 0 < width) (hi : i ≤ n)
    (hfuel : n ≤ fuel + i) (htest : ∀ j, i ≤ j → (j - i) % width = 0 → j + width ≤ n →
      Tells s (test j) (Same s a b j (j + width))) :
    (∃ j, sameFrom n width test fuel i s = .ok (some j) s ∧ i ≤ j ∧ j ≤ n ∧ n < j + width ∧
      (j - i) % width = 0 ∧ Same s a b i j) ∨
    (sameFrom n width test fuel i s = .ok none s ∧ ¬Same s a b i n) := by
  induction fuel generalizing i with
  | zero =>
    refine .inl ⟨i, rfl, Nat.le_refl i, hi, by omega, ?_, same_self s a b i⟩
    rw [Nat.sub_self, Nat.zero_mod]
  | succ fuel ih =>
    by_cases hle : i + width ≤ n
    · obtain ⟨c, hrun, hc⟩ := htest i (Nat.le_refl i) (by rw [Nat.sub_self, Nat.zero_mod]) hle
      cases c with
      | true =>
        have hsame := hc.mp rfl
        have hnext : sameFrom n width test (fuel + 1) i s =
            sameFrom n width test fuel (i + width) s := by
          rw [sameFrom, if_pos hle, bind_run_ok hrun, if_pos rfl]
        have hsub : ∀ j, i + width ≤ j → (j - i) % width = (j - (i + width)) % width := by
          intro j hj
          rw [show j - i = j - (i + width) + width by omega, Nat.add_mod_right]
        rw [hnext]
        rcases ih hle (by omega) (fun j hj hmod => htest j (by omega) (by rwa [hsub j hj])) with
          ⟨j, hloop, hij, hjn, hend, hmod, hrest⟩ | ⟨hloop, hrest⟩
        · exact .inl ⟨j, hloop, by omega, hjn, hend, by rwa [hsub j hij],
            (same_split (Nat.le_add_right i width) hij).mp ⟨hsame, hrest⟩⟩
        · exact .inr ⟨hloop, fun h => hrest ((same_split (Nat.le_add_right i width) hle).mpr h).2⟩
      | false =>
        refine .inr ⟨?_, fun h => Bool.false_ne_true (hc.mpr
          ((same_split (Nat.le_add_right i width) hle).mpr h).1)⟩
        rw [sameFrom, if_pos hle, bind_run_ok hrun, if_neg Bool.false_ne_true]
        rfl
    · refine .inl ⟨i, ?_, Nat.le_refl i, hi, by omega, ?_, same_self s a b i⟩
      · rw [sameFrom, if_neg hle]
        rfl
      · rw [Nat.sub_self, Nat.zero_mod]

omit [Stray] in
theorem sameLoops_nil (s : Mem) (a b n : Nat) : Tells s (sameLoops n [] n) (Same s a b n n) :=
  ⟨true, rfl, fun _ => same_self s a b n, fun _ => rfl⟩

omit [Stray] in
/-- A loop and then those behind it. -/
theorem sameLoops_cons {width : Nat} {test : Nat → MemM Bool}
    {loops : List (Nat × (Nat → MemM Bool))} (hwidth : 0 < width) (hi : i ≤ n)
    (htest : ∀ j, i ≤ j → (j - i) % width = 0 → j + width ≤ n →
      Tells s (test j) (Same s a b j (j + width)))
    (hrest : ∀ j, i ≤ j → j ≤ n → n < j + width → (j - i) % width = 0 →
      Tells s (sameLoops n loops j) (Same s a b j n)) :
    Tells s (sameLoops n ((width, test) :: loops) i) (Same s a b i n) := by
  rcases sameFrom_run hwidth hi (Nat.le_add_right n i) htest with
    ⟨j, hloop, hij, hjn, hend, hmod, hsame⟩ | ⟨hloop, hne⟩
  · obtain ⟨c, hrun, hc⟩ := hrest j hij hjn hend hmod
    refine ⟨c, ?_, ?_⟩
    · rw [sameLoops, bind_run_ok hloop]
      exact hrun
    · rw [hc, ← same_split hij hjn, and_iff_right hsame]
  · refine ⟨false, ?_, fun h => absurd h Bool.false_ne_true, fun h => absurd h hne⟩
    rw [sameLoops, bind_run_ok hloop]
    rfl

/-- The words of two aligned ranges. -/
structure Words (s : Mem) (a b n : Nat) : Prop where
  left : s.Reads a n
  right : s.Reads b n
  alignedLeft : a % 8 = 0
  alignedRight : b % 8 = 0

theorem Words.byte (h : Words s a b n) (i : Nat) (hi : i + 1 ≤ n) :
    Tells s (sameByte (a + i) (b + i)) (Same s a b i (i + 1)) :=
  sameByte_tells h.left h.right hi

theorem Words.word (h : Words s a b n) (i : Nat) (hmod : i % 8 = 0) (hi : i + 8 ≤ n) :
    Tells s (sameWord (a + i) (b + i)) (Same s a b i (i + 8)) :=
  sameWord_tells h.left h.right h.alignedLeft h.alignedRight hmod hi

theorem sameWords_tells (h : Words s a b n) (hmod : i % 8 = 0) (hi : i + 32 ≤ n) :
    Tells s (sameWords a b i) (Same s a b i (i + 32)) := by
  unfold sameWords
  simp only [Nat.add_assoc]
  refine allSame_cons (by omega) (by omega) (h.word i hmod (by omega)) ?_
  refine allSame_cons (by omega) (by omega) (h.word (i + 8) (by omega) (by omega)) ?_
  refine allSame_cons (by omega) (by omega) (h.word (i + 16) (by omega) (by omega)) ?_
  exact allSame_cons (by omega) (Nat.le_refl _) (h.word (i + 24) (by omega) (by omega))
    (allSame_nil s a b _)

theorem sameBytes_tells (ha : s.Reads a n) (hb : s.Reads b n) (hi : i + 8 ≤ n) :
    Tells s (sameBytes a b i) (Same s a b i (i + 8)) := by
  have hbyte : ∀ j, j + 1 ≤ n → Tells s (sameByte (a + j) (b + j)) (Same s a b j (j + 1)) :=
    fun j => sameByte_tells ha hb
  unfold sameBytes
  simp only [Nat.add_assoc]
  refine allSame_cons (by omega) (by omega) (hbyte i (by omega)) ?_
  refine allSame_cons (by omega) (by omega) (hbyte (i + 1) (by omega)) ?_
  refine allSame_cons (by omega) (by omega) (hbyte (i + 2) (by omega)) ?_
  refine allSame_cons (by omega) (by omega) (hbyte (i + 3) (by omega)) ?_
  refine allSame_cons (by omega) (by omega) (hbyte (i + 4) (by omega)) ?_
  refine allSame_cons (by omega) (by omega) (hbyte (i + 5) (by omega)) ?_
  refine allSame_cons (by omega) (by omega) (hbyte (i + 6) (by omega)) ?_
  exact allSame_cons (by omega) (Nat.le_refl _) (hbyte (i + 7) (by omega)) (allSame_nil s a b _)

theorem memeq20_tells (h : Words s a b 20) : Tells s (memeq20 a b) (Same s a b 0 20) := by
  unfold memeq20
  refine allSame_cons (by omega) (by omega) (h.word 0 (by omega) (by omega)) ?_
  refine allSame_cons (by omega) (by omega) (h.word 8 (by omega) (by omega)) ?_
  refine allSame_cons (by omega) (by omega) (h.byte 16 (by omega)) ?_
  refine allSame_cons (by omega) (by omega) (h.byte 17 (by omega)) ?_
  refine allSame_cons (by omega) (by omega) (h.byte 18 (by omega)) ?_
  exact allSame_cons (by omega) (Nat.le_refl _) (h.byte 19 (by omega)) (allSame_nil s a b _)

theorem memeq32_tells (h : Words s a b 32) : Tells s (memeq32 a b) (Same s a b 0 32) := by
  unfold memeq32
  refine allSame_cons (by omega) (by omega) (h.word 0 (by omega) (by omega)) ?_
  refine allSame_cons (by omega) (by omega) (h.word 8 (by omega) (by omega)) ?_
  refine allSame_cons (by omega) (by omega) (h.word 16 (by omega) (by omega)) ?_
  exact allSame_cons (by omega) (Nat.le_refl _) (h.word 24 (by omega) (by omega))
    (allSame_nil s a b _)

theorem memeq52_tells (h : Words s a b 52) : Tells s (memeq52 a b) (Same s a b 0 52) := by
  unfold memeq52
  refine allSame_cons (by omega) (by omega) (h.word 0 (by omega) (by omega)) ?_
  refine allSame_cons (by omega) (by omega) (h.word 8 (by omega) (by omega)) ?_
  refine allSame_cons (by omega) (by omega) (h.word 16 (by omega) (by omega)) ?_
  refine allSame_cons (by omega) (by omega) (h.word 24 (by omega) (by omega)) ?_
  refine allSame_cons (by omega) (by omega) (h.word 32 (by omega) (by omega)) ?_
  refine allSame_cons (by omega) (by omega) (h.word 40 (by omega) (by omega)) ?_
  refine allSame_cons (by omega) (by omega) (h.byte 48 (by omega)) ?_
  refine allSame_cons (by omega) (by omega) (h.byte 49 (by omega)) ?_
  refine allSame_cons (by omega) (by omega) (h.byte 50 (by omega)) ?_
  exact allSame_cons (by omega) (Nat.le_refl _) (h.byte 51 (by omega)) (allSame_nil s a b _)

/-- The loops over bytes, from any position. -/
theorem byBytes_tells (ha : s.Reads a n) (hb : s.Reads b n) (hi : i ≤ n) :
    Tells s (sameLoops n [(8, sameBytes a b), (1, fun i => sameByte (a + i) (b + i))] i)
      (Same s a b i n) := by
  refine sameLoops_cons (by decide) hi (fun j _ _ => sameBytes_tells ha hb) fun j _ hj _ _ => ?_
  refine sameLoops_cons (by decide) hj (fun k _ _ => sameByte_tells ha hb) fun k _ hk hend _ => ?_
  obtain rfl : k = n := by omega
  exact sameLoops_nil s a b k

/-- The loops over words, and those over the bytes that are left. -/
theorem byWords_tells (h : Words s a b n) :
    Tells s (sameLoops n [(32, sameWords a b), (8, fun i => sameWord (a + i) (b + i)),
      (8, sameBytes a b), (1, fun i => sameByte (a + i) (b + i))] 0) (Same s a b 0 n) := by
  refine sameLoops_cons (by decide) (Nat.zero_le n)
    (fun j _ hmod => sameWords_tells h (by omega)) fun j _ hj _ hmod => ?_
  refine sameLoops_cons (by decide) hj
    (fun k hk hmod' => h.word k (by omega)) fun k _ hk _ _ => ?_
  exact byBytes_tells h.left h.right hk

/-- 1 exactly for equal ranges, on every path. -/
theorem memeq_run (ha : s.Reads a n) (hb : s.Reads b n) :
    memeq a b n s = .ok (if s.bytes.load a n = s.bytes.load b n then 1 else 0) s := by
  have hanswer : ∀ {test : MemM Bool}, Tells s test (Same s a b 0 n) →
      (do let same ← test; return if same then (1 : Word) else 0) s =
        .ok (if s.bytes.load a n = s.bytes.load b n then 1 else 0) s := by
    intro test ⟨c, hrun, hc⟩
    have hload := same_iff_load s a b 0 n
    rw [Nat.zero_add] at hload
    rw [bind_run_ok hrun]
    exact congrArg (EStateM.Result.ok · s) (if_congr (hc.trans hload) rfl rfl)
  unfold memeq
  split
  · next haligned =>
    obtain ⟨hmoda, hmodb⟩ := aligned_or haligned
    have hwords : Words s a b n := ⟨ha, hb, hmoda, hmodb⟩
    split
    · next h => subst h; exact hanswer (memeq20_tells hwords)
    split
    · next h => subst h; exact hanswer (memeq32_tells hwords)
    split
    · next h => subst h; exact hanswer (memeq52_tells hwords)
    · exact hanswer (byWords_tells hwords)
  · exact hanswer (byBytes_tells ha hb (Nat.zero_le n))

end

/-! ## Big-endian integers -/

theorem leNat_reverse (bs : Bytes) : leNat bs.reverse = beNat bs := by
  induction bs with
  | nil => rfl
  | cons b bs ih =>
    rw [List.reverse_cons, leNat_append, ih, List.length_reverse, beNat_cons, leNat, leNat,
      Nat.mul_zero, Nat.add_zero, Nat.add_comm, Nat.mul_comm]

theorem beBytes_add (j k v : Nat) :
    beBytes (j + k) v = beBytes j (v / 256 ^ k) ++ beBytes k v := by
  rw [beBytes_eq_reverse, beBytes_eq_reverse, beBytes_eq_reverse, Nat.add_comm, leBytes_add,
    List.reverse_append]

theorem beBytes_mod {j k : Nat} (h : j ≤ k) (v : Nat) : beBytes j (v % 256 ^ k) = beBytes j v := by
  rw [beBytes_eq_reverse, beBytes_eq_reverse, leBytes_mod h]

/-- The word whose highest byte comes first. -/
def beWord (bs : Bytes) : Word := BitVec.ofNat 64 (beNat bs)

theorem beWord_eq (bs : Bytes) : beWord bs = wordOf bs.reverse := by
  rw [wordOf, leNat_reverse]
  rfl

theorem toNat_beWord {bs : Bytes} (h : bs.length ≤ 8) : (beWord bs).toNat = beNat bs := by
  rw [beWord_eq, toNat_wordOf (by rwa [List.length_reverse]), leNat_reverse]

theorem beWord_append {as bs : Bytes} (h : as.length + bs.length ≤ 8) :
    beWord (as ++ bs) = beWord as <<< (8 * bs.length) ||| beWord bs := by
  rw [beWord_eq, beWord_eq, beWord_eq, List.reverse_append,
    wordOf_append (by rw [List.length_reverse, List.length_reverse]; omega), List.length_reverse,
    BitVec.or_comm]

theorem bswap64_wordOf {bs : Bytes} (h : bs.length = 8) : bswap64 (wordOf bs) = beWord bs := by
  rw [← wordOf_leBytes (bswap64 (wordOf bs)), leBytes_bswap64, beBytes_eq_reverse,
    leBytes_wordOf h, beWord_eq]

section

variable [Stray] {s : Mem} {p n : Nat}

theorem ldBe32_run (h : s.Reads p 4) : ldBe32 p s = .ok (beWord (s.bytes.load p 4)) s := by
  unfold ldBe32
  rw [bind_run_ok (ld8_run (show s.readable p = true from h 0 (by decide))),
    bind_run_ok (ld8_run (h 1 (by decide))), bind_run_ok (ld8_run (h 2 (by decide))),
    bind_run_ok (ld8_run (h 3 (by decide)))]
  have hbyte : ∀ q, beWord [s.bytes q] = BitVec.ofNat 64 (s.bytes q).toNat := by
    intro q
    rw [beWord_eq]
    rfl
  have hload : s.bytes.load p 4 =
      [s.bytes p] ++ ([s.bytes (p + 1)] ++ ([s.bytes (p + 2)] ++ [s.bytes (p + 3)])) := rfl
  rw [hload, beWord_append (by simp), beWord_append (by simp), beWord_append (by simp),
    hbyte, hbyte, hbyte, hbyte, BitVec.or_assoc, BitVec.or_assoc]
  rfl

/-- The swapped word is the one from the bytes. -/
theorem ldBe64_run (h : s.Reads p 8) : ldBe64 p s = .ok (beWord (s.bytes.load p 8)) s := by
  unfold ldBe64
  split
  · next haligned =>
    rw [Nat.and_two_pow_sub_one_eq_mod p 3] at haligned
    rw [bind_run_ok (lds_run haligned h), bswap64_wordOf (ByteMap.length_load _ _ _)]
    rfl
  · rw [bind_run_ok (ldBe32_run (h.part (Nat.le_refl p) (by omega))),
      bind_run_ok (ldBe32_run (h.part (Nat.le_add_right p 4) (by omega))),
      ByteMap.load_add s.bytes p 4 4, beWord_append (by simp), ByteMap.length_load]
    rfl

end

/-! ## 256-bit integers -/

section

open Limb

theorem limb_orByte (x : Limb.U256) (pos : Nat) (b : Word) {k : Nat} (hk : k < 4) :
    (orByte x pos b).limb k =
      if k = pos / 8 then x.limb k ||| b <<< (pos % 8 * 8) else x.limb k := by
  have hlow : pos &&& 7 = pos % 8 := Nat.and_two_pow_sub_one_eq_mod pos 3
  have hhigh : pos >>> 3 = pos / 8 := Nat.shiftRight_eq_div_pow pos 3
  unfold orByte
  dsimp only
  rw [hlow, hhigh]
  match k, hk with
  | 0, _ => exact if_congr eq_comm rfl rfl
  | 1, _ => exact if_congr eq_comm rfl rfl
  | 2, _ => exact if_congr eq_comm rfl rfl
  | 3, _ => exact if_congr eq_comm rfl rfl

/-- A byte that lies outside is dropped. -/
theorem toNat_orByte (x : Limb.U256) (pos : Nat) {b : Word} (hb : b.toNat < 256) :
    (orByte x pos b).toNat = (x.toNat ||| b.toNat * 2 ^ (8 * pos)) % 2 ^ 256 := by
  apply Nat.eq_of_testBit_eq
  intro t
  rw [Nat.testBit_mod_two_pow, Limb.U256.testBit_toNat, Nat.testBit_or, Limb.U256.testBit_toNat,
    Nat.testBit_mul_two_pow]
  by_cases ht : t < 256
  · have hmod : t % 64 < 64 := Nat.mod_lt t (by decide)
    rw [limb_orByte x pos b (by omega), decide_eq_true ht, Bool.true_and]
    have hzero : ∀ i, 8 ≤ i → b.toNat.testBit i = false := fun i hi =>
      Nat.testBit_lt_two_pow (Nat.lt_of_lt_of_le hb (Nat.pow_le_pow_right (n := 2) (by decide) hi))
    by_cases hlimb : t / 64 = pos / 8
    · rw [if_pos hlimb, BitVec.getLsbD_or, BitVec.getLsbD_shiftLeft,
        decide_eq_true hmod, Bool.true_and]
      refine congrArg _ ?_
      by_cases hle : 8 * pos ≤ t
      · rw [decide_eq_true hle, decide_eq_false (by omega), Bool.not_false, Bool.true_and,
          Bool.true_and, show t % 64 - pos % 8 * 8 = t - 8 * pos by omega]
        rfl
      · rw [decide_eq_false hle, decide_eq_true (by omega), Bool.not_true]
        rfl
    · rw [if_neg hlimb]
      by_cases hle : 8 * pos ≤ t
      · rw [hzero (t - 8 * pos) (by omega), Bool.and_false, Bool.or_false]
      · rw [decide_eq_false hle, Bool.false_and, Bool.or_false]
  · rw [decide_eq_false ht, Bool.false_and]
    obtain ⟨k, hk⟩ : ∃ k, t / 64 = k + 4 := ⟨t / 64 - 4, by omega⟩
    rw [hk]
    exact BitVec.getLsbD_zero

/-- One more byte of a big-endian string, of which `k` are to come. -/
theorem toNat_orByte_next {x : Limb.U256} {bs : Bytes} {k : Nat} (c : UInt8)
    (hx : x.toNat = beNat bs * 2 ^ (8 * (k + 1)) % 2 ^ 256) :
    (orByte x k (BitVec.ofNat 64 c.toNat)).toNat =
      beNat (bs ++ [c]) * 2 ^ (8 * k) % 2 ^ 256 := by
  have hc := c.toNat_lt
  have hbyte : (BitVec.ofNat 64 c.toNat).toNat = c.toNat := by
    rw [BitVec.toNat_ofNat, Nat.mod_eq_of_lt (by omega)]
  have hsmall : c.toNat * 2 ^ (8 * k) < 2 ^ (8 * (k + 1)) := by
    rw [Nat.mul_succ, Nat.pow_add, Nat.mul_comm (2 ^ (8 * k))]
    exact Nat.mul_lt_mul_of_pos_right hc (Nat.two_pow_pos _)
  rw [toNat_orByte x k (by omega), hbyte, hx, beNat_append_singleton, Nat.or_mod_two_pow,
    Nat.mod_mod, ← Nat.or_mod_two_pow, Nat.mul_comm (beNat _),
    ← Nat.two_pow_add_eq_or_of_lt hsmall, Nat.add_mul, Nat.mul_succ, Nat.pow_add]
  refine congrArg (· % 2 ^ 256) (congrArg (· + _) ?_)
  change 2 ^ (8 * k) * 256 * _ = _
  rw [Nat.mul_comm, Nat.mul_comm (2 ^ (8 * k)), Nat.mul_assoc]

end

section

variable [Stray] {s : Mem} {p n : Nat}

/-- The bytes before a position make up the integer so far. -/
theorem u256FromBeLoop_run (h : s.Reads p n) {left : Nat} (hleft : left ≤ n) {x : Limb.U256}
    (hx : x.toNat = beNat (s.bytes.load p (n - left)) * 2 ^ (8 * left) % 2 ^ 256) :
    ∃ y : Limb.U256, u256FromBeLoop p n left x s = .ok y s ∧
      y.toNat = beNat (s.bytes.load p n) % 2 ^ 256 := by
  induction left generalizing x with
  | zero =>
    refine ⟨x, rfl, ?_⟩
    rw [hx, Nat.sub_zero, Nat.mul_zero, Nat.pow_zero, Nat.mul_one]
  | succ left ih =>
    have hpos : n - 1 - left = n - (left + 1) := by omega
    have hread : s.readable (p + (n - 1 - left)) = true := h _ (by omega)
    have hload : s.bytes.load p (n - left) =
        s.bytes.load p (n - (left + 1)) ++ [s.bytes (p + (n - 1 - left))] := by
      rw [show n - left = n - (left + 1) + 1 by omega, ByteMap.load_add, hpos]
      rfl
    rw [u256FromBeLoop, bind_run_ok (ld8_run hread)]
    refine ih (by omega) ?_
    rw [hload]
    exact toNat_orByte_next _ hx

omit [Stray] in
theorem toNat_beLimbs {as bs cs ds : Bytes} (ha : as.length = 8) (hb : bs.length = 8)
    (hc : cs.length = 8) (hd : ds.length = 8) :
    (⟨beWord ds, beWord cs, beWord bs, beWord as⟩ : Limb.U256).toNat =
      beNat (as ++ (bs ++ (cs ++ ds))) := by
  have happend : ∀ us vs : Bytes, beNat (us ++ vs) = beNat us * 256 ^ vs.length + beNat vs := by
    intro us vs
    rw [← leNat_reverse, List.reverse_append, leNat_append, leNat_reverse, leNat_reverse,
      List.length_reverse, Nat.mul_comm, Nat.add_comm]
  rw [happend, happend, happend, Limb.U256.toNat, toNat_beWord (Nat.le_of_eq ha),
    toNat_beWord (Nat.le_of_eq hb), toNat_beWord (Nat.le_of_eq hc), toNat_beWord (Nat.le_of_eq hd),
    List.length_append, List.length_append, hb, hc, hd]
  omega

/-- The low 32 of any number of bytes, on both paths. -/
theorem u256FromBe_run (h : s.Reads p n) :
    ∃ y : Limb.U256, u256FromBe p n s = .ok y s ∧
      y.toNat = beNat (s.bytes.load p n) % 2 ^ 256 := by
  unfold u256FromBe
  split
  · next hfast =>
    obtain ⟨rfl, haligned⟩ := hfast
    rw [Nat.and_two_pow_sub_one_eq_mod p 3] at haligned
    have hword : ∀ i, i % 8 = 0 → i + 8 ≤ 32 →
        lds (p + i) s = .ok (wordOf (s.bytes.load (p + i) 8)) s :=
      fun i hmod hi => lds_run (by omega) (h.part (by omega) (by omega))
    refine ⟨⟨beWord (s.bytes.load (p + 24) 8), beWord (s.bytes.load (p + 16) 8),
      beWord (s.bytes.load (p + 8) 8), beWord (s.bytes.load p 8)⟩, ?_, ?_⟩
    · rw [bind_run_ok (show lds p s = _ from hword 0 (by omega) (by omega)),
        bind_run_ok (hword 8 (by omega) (by omega)), bind_run_ok (hword 16 (by omega) (by omega)),
        bind_run_ok (hword 24 (by omega) (by omega)), bswap64_wordOf (ByteMap.length_load _ _ _),
        bswap64_wordOf (ByteMap.length_load _ _ _), bswap64_wordOf (ByteMap.length_load _ _ _),
        bswap64_wordOf (ByteMap.length_load _ _ _)]
      rfl
    · have hlt := beNat_lt (s.bytes.load p 32)
      rw [ByteMap.length_load] at hlt
      rw [toNat_beLimbs (ByteMap.length_load _ _ _) (ByteMap.length_load _ _ _)
        (ByteMap.length_load _ _ _) (ByteMap.length_load _ _ _),
        Nat.mod_eq_of_lt (show _ < 2 ^ 256 from hlt),
        ByteMap.load_add s.bytes p 8 24, ByteMap.load_add s.bytes (p + 8) 8 16,
        ByteMap.load_add s.bytes (p + 8 + 8) 8 8]
  · refine u256FromBeLoop_run h (Nat.le_refl n) ?_
    rw [Nat.sub_self]
    change 0 = 0 * _ % _
    rw [Nat.zero_mul, Nat.zero_mod]

/-! ## Their bytes -/

omit [Stray] in
theorem beBytes_limbs (a : Limb.U256) : beBytes 32 a.toNat =
    beBytes 8 a.l3.toNat ++ (beBytes 8 a.l2.toNat ++
      (beBytes 8 a.l1.toNat ++ beBytes 8 a.l0.toNat)) := by
  have h0 := a.l0.isLt
  have h1 := a.l1.isLt
  have h2 := a.l2.isLt
  have h3 := a.l3.isLt
  have hlimb : ∀ (k : Nat) (w : Word), a.toNat / 256 ^ k % 2 ^ 64 = w.toNat →
      beBytes 8 (a.toNat / 256 ^ k) = beBytes 8 w.toNat := by
    intro k w hw
    rw [← hw]
    exact (beBytes_mod (k := 8) (Nat.le_refl 8) _).symm
  have hvalue : a.toNat = a.l0.toNat + 2 ^ 64 * a.l1.toNat + 2 ^ 128 * a.l2.toNat +
      2 ^ 192 * a.l3.toNat := rfl
  rw [beBytes_add 8 24, beBytes_add 8 16, beBytes_add 8 8, hlimb 24 a.l3 (by omega),
    hlimb 16 a.l2 (by omega), hlimb 8 a.l1 (by omega), ← hlimb 0 a.l0 (by omega), Nat.pow_zero,
    Nat.div_one]

theorem u256ToBe32_run (a : Limb.U256) (out : Nat) (s : Mem) :
    u256ToBe32 a out s = .ok () (s.put out (beBytes 32 a.toNat)) := by
  rw [beBytes_limbs, put_append, put_append, put_append, length_beBytes, length_beBytes,
    length_beBytes]
  unfold u256ToBe32
  split
  · next haligned =>
    rw [Nat.and_two_pow_sub_one_eq_mod out 3] at haligned
    have hword : ∀ (i : Nat) (w : Word) (t : Mem), i % 8 = 0 →
        st (out + i) (bswap64 w) t = .ok () (t.put (out + i) (beBytes 8 w.toNat)) := by
      intro i w t hi
      rw [st_run (by omega), leBytes_bswap64]
    rw [bind_run_ok (show st out _ s = _ from hword 0 a.l3 s (by omega)),
      bind_run_ok (hword 8 _ _ (by omega)), bind_run_ok (hword 16 _ _ (by omega)),
      hword 24 _ _ (by omega)]
    rfl
  · rw [bind_run_ok (stBe64_run _ _ _), bind_run_ok (stBe64_run _ _ _),
      bind_run_ok (stBe64_run _ _ _), stBe64_run]

omit [Stray] in
theorem toNat_u256ByteLength (a : Limb.U256) :
    (u256ByteLength a).toNat = (Nat.size a.toNat + 7) / 8 := by
  have hsize : Nat.size a.toNat ≤ 256 := Nat.size_le.mpr a.toNat_lt
  have hsum : (Limb.u256BitLength a + 7).toNat = Nat.size a.toNat + 7 := by
    rw [BitVec.toNat_add, Limb.toNat_u256BitLength, show (7 : Word).toNat = 7 from rfl]
    omega
  rw [u256ByteLength, toNat_ushiftRight, hsum]
  rfl

omit [Stray] in
theorem u256ByteLength_le (a : Limb.U256) : (u256ByteLength a).toNat ≤ 32 := by
  have hsize : Nat.size a.toNat ≤ 256 := Nat.size_le.mpr a.toNat_lt
  rw [toNat_u256ByteLength]
  omega

omit [Stray] in
/-- The integer fits in that many bytes. -/
theorem lt_u256ByteLength (a : Limb.U256) : a.toNat < 256 ^ (u256ByteLength a).toNat := by
  have hle : Nat.size a.toNat ≤ 8 * (u256ByteLength a).toNat := by
    rw [toNat_u256ByteLength]
    omega
  have hlt := Nat.size_le.mp hle
  rwa [Nat.pow_mul] at hlt

omit [Stray] in
/-- The highest bytes are there already. -/
theorem u256ToBeLoop_run (a : Limb.U256) (out : Nat) {len left : Nat} (hlen : len ≤ 32)
    (hleft : left ≤ len) (s : Mem) :
    u256ToBeLoop a out len left (s.put out (beBytes (len - left) (a.toNat / 256 ^ left))) =
      .ok () (s.put out (beBytes len a.toNat)) := by
  induction left with
  | zero =>
    rw [u256ToBeLoop, Nat.sub_zero, Nat.pow_zero, Nat.div_one]
    rfl
  | succ left ih =>
    have hlimb : ((Limb.u256Limb a (BitVec.ofNat 64 (left >>> 3)) >>> ((left &&& 7) * 8)) &&&
        255).toNat = a.toNat / 256 ^ left % 256 := by
      have hbyte := Limb.toNat_limb_byte a (show 8 * left % 8 = 0 by omega)
      rw [Nat.pow_mul, show 8 * left / 64 = left >>> 3 by rw [Nat.shiftRight_eq_div_pow]; omega,
        show 8 * left % 64 = (left &&& 7) * 8 by
          rw [Nat.and_two_pow_sub_one_eq_mod left 3]; omega] at hbyte
      rwa [Limb.u256Limb_eq a (by rw [Nat.shiftRight_eq_div_pow]; omega)]
    have hnext : beBytes (len - left) (a.toNat / 256 ^ left) =
        beBytes (len - (left + 1)) (a.toNat / 256 ^ (left + 1)) ++
          leBytes 1 (a.toNat / 256 ^ left % 256) := by
      rw [show len - left = len - (left + 1) + 1 by omega, beBytes, Nat.div_div_eq_div_mul,
        Nat.pow_succ]
      rfl
    rw [u256ToBeLoop, bind_run_ok (st8_run _ _ _), hlimb, ← ih (by omega), hnext, put_append,
      length_beBytes, show len - 1 - left = len - (left + 1) by omega]

omit [Stray] in
theorem u256ToBeMin_run (a : Limb.U256) (out : Nat) (s : Mem) :
    u256ToBeMin a out s =
      .ok (u256ByteLength a) (s.put out (beBytes (u256ByteLength a).toNat a.toNat)) := by
  have hrun := u256ToBeLoop_run a out (u256ByteLength_le a) (Nat.le_refl _) s
  rw [Nat.sub_self, beBytes, put_nil] at hrun
  unfold u256ToBeMin
  rw [bind_run_ok hrun]
  rfl

/-- What was written is read back. -/
theorem u256FromBe_put (a : Limb.U256) (out : Nat) {k : Nat}
    (ha : a.toNat < 256 ^ k) (h : s.Reads out k) :
    u256FromBe out k (s.put out (beBytes k a.toNat)) = .ok a (s.put out (beBytes k a.toNat)) := by
  obtain ⟨y, hrun, hy⟩ := u256FromBe_run (s := s.put out (beBytes k a.toNat)) h
  rw [load_put_self s out (length_beBytes k _), beNat_beBytes_of_lt ha,
    Nat.mod_eq_of_lt a.toNat_lt] at hy
  rw [hrun, Limb.U256.toNat_injective hy]

end

/-! ## Every path -/

/-- Whatever the addresses are, aligned or not, the effect and the result are those of a byte after
another; only the named bytes are read or written; and a 256-bit integer that was written is read
back. -/
theorem paths_agree [Stray] (s : Mem) :
    (∀ p bs, Off (At p bs.length) s (s.put p bs)) ∧
    (∀ dst src n, s.Reads src n →
      memcpy dst src n s = .ok () (s.copied dst src n) ∧
      Off (At dst n) s (s.copied dst src n) ∧
      (dst ≤ src ∨ src + n ≤ dst → s.copied dst src n = s.put dst (s.bytes.load src n))) ∧
    (∀ dst n, memzero dst n s = .ok () (s.put dst (List.replicate n 0))) ∧
    (∀ a b n, s.Reads a n → s.Reads b n →
      memeq a b n s = .ok (if s.bytes.load a n = s.bytes.load b n then 1 else 0) s) ∧
    (∀ p, s.Reads p 8 → ldBe64 p s = .ok (beWord (s.bytes.load p 8)) s) ∧
    (∀ p v, stBe64 p v s = .ok () (s.put p (beBytes 8 v.toNat))) ∧
    (∀ p n, s.Reads p n → ∃ y : Limb.U256, u256FromBe p n s = .ok y s ∧
      y.toNat = beNat (s.bytes.load p n) % 2 ^ 256) ∧
    (∀ a out, u256ToBe32 a out s = .ok () (s.put out (beBytes 32 a.toNat))) ∧
    (∀ a out, s.Reads out 32 →
      (do u256ToBe32 a out; u256FromBe out 32) s = .ok a (s.put out (beBytes 32 a.toNat))) ∧
    (∀ a out, s.Reads out (u256ByteLength a).toNat →
      (do let len ← u256ToBeMin a out; u256FromBe out len.toNat) s =
        .ok a (s.put out (beBytes (u256ByteLength a).toNat a.toNat))) := by
  refine ⟨fun p bs => off_put s (Nat.le_refl _), fun dst src n hr => ?_, fun dst n =>
    memzero_run dst n s, fun a b n => memeq_run, fun p => ldBe64_run, fun p v => stBe64_run p v s,
    fun p n => u256FromBe_run, fun a out => u256ToBe32_run a out s, fun a out hr => ?_,
    fun a out hr => ?_⟩
  · exact ⟨memcpy_copied dst hr, off_copied s dst src n, copied_eq_put⟩
  · rw [bind_run_ok (u256ToBe32_run a out s)]
    exact u256FromBe_put a out a.toNat_lt hr
  · rw [bind_run_ok (u256ToBeMin_run a out s)]
    exact u256FromBe_put a out (lt_u256ByteLength a) hr

end StatelessGuest.Digest
