import Mathlib.Data.Nat.Log
import StatelessGuest.Block.Receipt
import StatelessGuest.Lib.Merkle

/-!
# SSZ merkleization

A tree is hashed level by level in a buffer, over itself, and its root is then combined with
precomputed roots of trees of zeros. The progressive variant hashes trees of 1, 4, 16, … leaves and
folds their roots.

* `merkleize`, `merkleizeProgressive`.
* `merkleLevels_run`: the levels leave the root of the tree in the buffer.
* `merkleization_exact`: the roots are those of the recursive definitions.
* `ceilLog2_runs`: a limit above `2 ^ 63` is not reached.
-/

namespace StatelessGuest

open Lib Ram

/-! ## The code -/

/-- `while (1 << d) <+ n`; a shift by 64 gives 0, so the loop may not end. -/
def ceilLog2Loop (n : Word) : Nat → Word → Except Exn Word
  | 0, _ => .error .outOfFuel
  | fuel + 1, d => if (1 : Word) <<< d < n then ceilLog2Loop n fuel (d + 1) else .ok d

def ceilLog2 (fuel : Nat) (n : Word) : Except Exn Word := ceilLog2Loop n fuel 0

/-- Both chunks are read before the hash is written. -/
def sha256Pair [Sha256] (a b out : Nat) : RamM Unit :=
  modify fun s => s.put out (hashBytes (Sha256.sha256 (s.bytes.load a 32 ++ s.bytes.load b 32)))

/-- `while cur > 1`: the lower half of the buffer takes the hashes of the pairs. -/
def merkleLevels [Sha256] (buf : Nat) : Nat → Nat → RamM Unit
  | 0, _ => return ()
  | fuel + 1, cur =>
    if 1 < cur then do
      let half := cur >>> 1
      forM (List.range half) fun j => sha256Pair (buf + j * 64) (buf + j * 64 + 32) (buf + j * 32)
      merkleLevels buf fuel half
    else return ()

/-- `while d < target`: the tree becomes the left half of a tree of twice the size. -/
def merkleClimb [Sha256] (zeroHashes buf d target : Nat) : RamM Unit :=
  forM (List.range' d (target - d)) fun d => sha256Pair buf (zeroHashes + d * 32) buf

def merkleize [Sha256] (fuel zeroHashes p n : Nat) (limit : Word) (out : Nat) : RamM Unit := do
  let dl ← liftRam (ceilLog2 fuel limit)
  let dn ← liftRam (ceilLog2 fuel (BitVec.ofNat 64 n))
  let target := max dl.toNat dn.toNat
  if n = 0 then Ram.memcpy out (zeroHashes + target * 32) 32
  else do
    let mark ← heapMark
    let size := 1 <<< dn.toNat
    let buf ← alloc (size * 32)
    Ram.memcpy buf p (n * 32)
    Ram.memzero (buf + n * 32) ((size - n) * 32)
    merkleLevels buf size size
    merkleClimb zeroHashes buf dn.toNat target
    Ram.memcpy out buf 32
    heapRelease mark

/-- `while off <+ n`: the roots of wider and wider trees, and their number. -/
def progressiveTrees [Sha256] (fuel zeroHashes p n roots : Nat) : Nat → Nat → Nat → Nat → RamM Nat
  | 0, k, _, _ => return k
  | rounds + 1, k, off, size =>
    if off < n then do
      let cnt := n - off
      let cnt := if size < cnt then size else cnt
      merkleize fuel zeroHashes (p + off * 32) cnt (BitVec.ofNat 64 size) (roots + k * 32)
      progressiveTrees fuel zeroHashes p n roots rounds (k + 1) (off + size) (size <<< 2)
    else return k

/-- `while k != 0`: the roots are combined from the last one on. -/
def foldRoots [Sha256] (roots acc : Nat) : Nat → RamM Unit
  | 0 => return ()
  | k + 1 => do
    sha256Pair (roots + k * 32) acc acc
    foldRoots roots acc k

def merkleizeProgressive [Sha256] (fuel zeroHashes p n out : Nat) : RamM Unit := do
  let mark ← heapMark
  let roots ← alloc (24 * 32)
  let acc ← alloc 32
  let k ← progressiveTrees fuel zeroHashes p n roots n 0 0 1
  Ram.memzero acc 32
  foldRoots roots acc k
  Ram.memcpy out acc 32
  heapRelease mark

/-! ## Logarithms -/

theorem toNat_one_shiftLeft {d : Nat} (h : d < 64) :
    ((1 : Word) <<< BitVec.ofNat 64 d).toNat = 2 ^ d := by
  have hpow : 2 ^ d < 2 ^ 64 := Nat.pow_lt_pow_right (by decide) h
  rw [BitVec.shiftLeft_eq', BitVec.toNat_shiftLeft, BitVec.toNat_ofNat,
    Nat.mod_eq_of_lt (show d < 2 ^ 64 by omega), Nat.shiftLeft_eq]
  change 1 * 2 ^ d % 2 ^ 64 = 2 ^ d
  rw [Nat.one_mul, Nat.mod_eq_of_lt hpow]

/-- A number that is at most `2 ^ 63` has its logarithm after at most 64 comparisons. -/
theorem ceilLog2_eq {fuel : Nat} {n : Word} (hn : n.toNat ≤ 2 ^ 63) (hfuel : 64 ≤ fuel) :
    ceilLog2 fuel n = .ok (BitVec.ofNat 64 (Nat.clog 2 n.toNat)) := by
  have hclog : Nat.clog 2 n.toNat ≤ 63 := Nat.clog_le_of_le_pow hn
  have hloop : ∀ fuel d, d ≤ Nat.clog 2 n.toNat → Nat.clog 2 n.toNat < fuel + d →
      ceilLog2Loop n fuel (BitVec.ofNat 64 d) = .ok (BitVec.ofNat 64 (Nat.clog 2 n.toNat)) := by
    intro fuel
    induction fuel with
    | zero => exact fun d hd hlt => absurd hlt (by omega)
    | succ fuel ih =>
      intro d hd hlt
      have hcond : (1 : Word) <<< BitVec.ofNat 64 d < n ↔ d < Nat.clog 2 n.toNat := by
        rw [BitVec.lt_def, toNat_one_shiftLeft (by omega), Nat.lt_clog_iff_pow_lt (by decide)]
      rw [ceilLog2Loop]
      by_cases hmore : d < Nat.clog 2 n.toNat
      · rw [if_pos (hcond.mpr hmore)]
        have hnext : BitVec.ofNat 64 d + 1 = BitVec.ofNat 64 (d + 1) := (BitVec.ofNat_add d 1).symm
        rw [hnext]
        exact ih (d + 1) hmore (by omega)
      · rw [if_neg fun hlt' => hmore (hcond.mp hlt'), show d = Nat.clog 2 n.toNat by omega]
  exact hloop fuel 0 (Nat.zero_le _) (by omega)

/-- Above `2 ^ 63` the loop does not end. -/
theorem ceilLog2_runs {n : Word} (hn : 2 ^ 63 < n.toNat) (fuel : Nat) :
    ceilLog2 fuel n = .error .outOfFuel := by
  have hcond : ∀ d : Word, (1 : Word) <<< d < n := by
    intro d
    rw [BitVec.lt_def]
    refine Nat.lt_of_le_of_lt ?_ hn
    by_cases hd : d.toNat < 64
    · have hshift := toNat_one_shiftLeft hd
      rw [BitVec.ofNat_toNat, BitVec.setWidth_eq] at hshift
      rw [hshift]
      exact Nat.pow_le_pow_right (by decide) (by omega)
    · rw [BitVec.shiftLeft_eq', BitVec.shiftLeft_eq_zero (by omega)]
      exact Nat.zero_le _
  have hloop : ∀ fuel d, ceilLog2Loop n fuel d = .error .outOfFuel := by
    intro fuel
    induction fuel with
    | zero => exact fun d => rfl
    | succ fuel ih =>
      intro d
      rw [ceilLog2Loop, if_pos (hcond d), ih]
  exact hloop fuel 0

/-! ## Chunks -/

/-- The hash of two chunks side by side. -/
def pairHash [Sha256] (a b : Hash) : Hash := Sha256.sha256 (hashBytes a ++ hashBytes b)

/-- The `n` chunks from `p` on. -/
def chunksAt (m : ByteMap) (p n : Nat) : List Hash :=
  (List.range n).map fun i => hashAt m (p + i * 32)

/-- The memory holds the chunks from `p` on. -/
def HoldsChunks (m : ByteMap) (p : Nat) (xs : List Hash) : Prop :=
  ∀ i x, xs[i]? = some x → m.load (p + i * 32) 32 = hashBytes x

variable {m m' : ByteMap} {p q n lo : Nat} {xs ys : List Hash} {x y : Hash}

theorem length_chunksAt (m : ByteMap) (p n : Nat) : (chunksAt m p n).length = n := by
  rw [chunksAt, List.length_map, List.length_range]

theorem getElem?_chunksAt {i : Nat} (h : i < n) :
    (chunksAt m p n)[i]? = some (hashAt m (p + i * 32)) := by
  rw [chunksAt, List.getElem?_map, List.getElem?_range h]
  rfl

theorem holdsChunks_chunksAt (m : ByteMap) (p n : Nat) : HoldsChunks m p (chunksAt m p n) := by
  intro i x hx
  have hi : i < n := by
    rw [← length_chunksAt m p n]
    exact (List.getElem?_eq_some_iff.mp hx).1
  rw [getElem?_chunksAt hi] at hx
  rw [← Option.some.inj hx, hashBytes_hashAt]

theorem chunksAt_congr (h : ByteMap.SameBelow lo m m') (hp : p + n * 32 ≤ lo) :
    chunksAt m' p n = chunksAt m p n := by
  refine List.map_congr_left fun i hi => ?_
  have hlt := List.mem_range.mp hi
  unfold hashAt
  rw [h.load (by omega)]

theorem HoldsChunks.congr (h : HoldsChunks m p xs)
    (hsame : ∀ i < xs.length, m'.load (p + i * 32) 32 = m.load (p + i * 32) 32) :
    HoldsChunks m' p xs := by
  intro i x hx
  rw [hsame i (List.getElem?_eq_some_iff.mp hx).1, h i x hx]

/-- A chunk is replaced. -/
theorem HoldsChunks.set (h : HoldsChunks m p xs) (i : Nat) (x : Hash) :
    HoldsChunks (m.store (p + i * 32) (hashBytes x)) p (xs.set i x) := by
  intro j y hy
  rw [List.getElem?_set] at hy
  have hlen := length_hashBytes x
  by_cases hij : i = j
  · subst hij
    rw [if_pos rfl] at hy
    split at hy
    · obtain rfl := Option.some.inj hy
      have hload := ByteMap.load_store_self m (p + i * 32) (hashBytes x)
      rwa [hlen] at hload
    · cases hy
  · rw [if_neg hij] at hy
    rw [ByteMap.load_store_of_disjoint (by omega), h j y hy]

theorem HoldsChunks.left (h : HoldsChunks m p (xs ++ ys)) : HoldsChunks m p xs := by
  intro i x hx
  refine h i x ?_
  rw [List.getElem?_append_left (List.getElem?_eq_some_iff.mp hx).1, hx]

theorem HoldsChunks.head (h : HoldsChunks m p (x :: xs)) : m.load p 32 = hashBytes x := by
  have hhead := h 0 x rfl
  rwa [Nat.zero_mul, Nat.add_zero] at hhead

theorem holdsChunks_singleton (h : m.load p 32 = hashBytes x) : HoldsChunks m p [x] := by
  intro i y hy
  have hi : i = 0 := by
    have hlt := (List.getElem?_eq_some_iff.mp hy).1
    rw [List.length_singleton] at hlt
    omega
  subst hi
  rw [← Option.some.inj hy, Nat.zero_mul, Nat.add_zero, h]

variable [Sha256] {s s' : Ram} {a b out : Nat}

theorem sha256Pair_run (out : Nat) (ha : s.bytes.load a 32 = hashBytes x)
    (hb : s.bytes.load b 32 = hashBytes y) :
    sha256Pair a b out s = .ok () (s.put out (hashBytes (pairHash x y))) := by
  unfold sha256Pair pairHash
  rw [modify_run, ha, hb]

/-! ## A level of the tree -/

variable {buf d k : Nat}

/-- After `j` pairs, the lower part of the buffer holds their hashes and the upper one is left. -/
theorem level_run {half : Nat} (hxs : HoldsChunks s.bytes buf xs) (hlen : xs.length = 2 * half)
    {j : Nat} (hj : j ≤ half) :
    ∃ s', forM (List.range j) (fun j =>
        sha256Pair (buf + j * 64) (buf + j * 64 + 32) (buf + j * 32)) s = .ok () s' ∧
      HoldsChunks s'.bytes buf ((Merkle.pairs pairHash xs).take j ++ xs.drop j) ∧
      s'.heapPtr = s.heapPtr ∧ ByteMap.SameBelow buf s.bytes s'.bytes := by
  induction j with
  | zero => exact ⟨s, rfl, hxs, rfl, .refl _ _⟩
  | succ j ih =>
    obtain ⟨s₁, hrun, hholds, hheap, hsame⟩ := ih (by omega)
    have hpairs : (Merkle.pairs pairHash xs).length = half := Merkle.length_pairs hlen
    have htake : ((Merkle.pairs pairHash xs).take j).length = j := by
      rw [List.length_take]
      omega
    have hat : ∀ i, j ≤ i →
        ((Merkle.pairs pairHash xs).take j ++ xs.drop j)[i]? = xs[i]? := by
      intro i hi
      rw [List.getElem?_append_right (by omega), htake, List.getElem?_drop]
      congr 1
      omega
    have ha : xs[2 * j]? = some xs[2 * j] := List.getElem?_eq_getElem (by omega)
    have hb : xs[2 * j + 1]? = some xs[2 * j + 1] := List.getElem?_eq_getElem (by omega)
    have hload := hholds (2 * j) xs[2 * j] ((hat _ (by omega)).trans ha)
    have hload' := hholds (2 * j + 1) xs[2 * j + 1] ((hat _ (by omega)).trans hb)
    rw [show buf + 2 * j * 32 = buf + j * 64 by omega] at hload
    rw [show buf + (2 * j + 1) * 32 = buf + j * 64 + 32 by omega] at hload'
    have hpair := sha256Pair_run (buf + j * 32) hload hload'
    have hset : ((Merkle.pairs pairHash xs).take j ++ xs.drop j).set j
        (pairHash xs[2 * j] xs[2 * j + 1]) =
        (Merkle.pairs pairHash xs).take (j + 1) ++ xs.drop (j + 1) := by
      have hget := Merkle.getElem?_pairs (H := pairHash) ha hb
      rw [List.set_append_right _ _ (by omega), htake, Nat.sub_self, List.take_add_one, hget,
        List.drop_eq_getElem_cons (show j < xs.length by omega), List.set_cons_zero,
        List.append_assoc]
      rfl
    refine ⟨s₁.put (buf + j * 32) (hashBytes (pairHash xs[2 * j] xs[2 * j + 1])), ?_, ?_, hheap, ?_⟩
    · rw [List.range_succ, List.forM_append, bind_run_ok hrun, List.forM_cons, bind_run_ok hpair]
      rfl
    · have hstored := hholds.set j (pairHash xs[2 * j] xs[2 * j + 1])
      rwa [hset] at hstored
    · exact hsame.trans (ByteMap.sameBelow_store (Nat.le_add_right _ _))

/-- The levels leave the root of the tree at the start of the buffer. -/
theorem merkleLevels_run {fuel : Nat} (hxs : HoldsChunks s.bytes buf xs) (hlen : xs.length = 2 ^ d)
    (hfuel : d ≤ fuel) :
    ∃ s', merkleLevels buf fuel (2 ^ d) s = .ok () s' ∧
      s'.bytes.load buf 32 = hashBytes (Merkle.root pairHash 0 d xs) ∧
      s'.heapPtr = s.heapPtr ∧ ByteMap.SameBelow buf s.bytes s'.bytes := by
  induction d generalizing xs fuel s with
  | zero =>
    obtain ⟨x, rfl⟩ := List.length_eq_one_iff.mp hlen
    have hend : merkleLevels buf fuel (2 ^ 0) s = .ok () s := by cases fuel <;> rfl
    exact ⟨s, hend, hxs.head, rfl, .refl _ _⟩
  | succ d ih =>
    obtain ⟨fuel, rfl⟩ : ∃ k, fuel = k + 1 := ⟨fuel - 1, by omega⟩
    have hpow : 2 ^ (d + 1) = 2 * 2 ^ d := Nat.pow_succ'
    have hpos : 0 < 2 ^ d := Nat.pow_pos (by decide)
    have hhalf : 2 ^ (d + 1) >>> 1 = 2 ^ d := by
      rw [Nat.shiftRight_eq_div_pow]
      omega
    obtain ⟨s₁, hrun₁, hholds₁, hheap₁, hsame₁⟩ := level_run hxs (hlen.trans hpow) (Nat.le_refl _)
    have hpairs : (Merkle.pairs pairHash xs).length = 2 ^ d := Merkle.length_pairs (hlen.trans hpow)
    rw [List.take_of_length_le (Nat.le_of_eq hpairs)] at hholds₁
    have hfuel' : d ≤ fuel := by omega
    obtain ⟨s₂, hrun₂, hroot, hheap₂, hsame₂⟩ := ih hholds₁.left hpairs hfuel'
    refine ⟨s₂, ?_, ?_, hheap₂.trans hheap₁, hsame₁.trans hsame₂⟩
    · rw [merkleLevels, if_pos (by omega), hhalf, bind_run_ok hrun₁, hrun₂]
    · rw [hroot, Merkle.root_pairs hlen]

/-- The roots of the trees of zeros. -/
def ZeroTable (m : ByteMap) (zeroHashes : Nat) : Prop :=
  ∀ k < 64, m.load (zeroHashes + k * 32) 32 = hashBytes (Merkle.zeroRoot pairHash 0 k)

theorem ZeroTable.congr {zeroHashes : Nat} (h : ZeroTable m zeroHashes)
    (hsame : ByteMap.SameBelow lo m m') (hlo : zeroHashes + 64 * 32 ≤ lo) :
    ZeroTable m' zeroHashes := by
  intro k hk
  rw [hsame.load (by omega), h k hk]

/-- The tree is combined with trees of zeros up to the depth that is wanted. -/
theorem merkleClimb_run {zeroHashes : Nat} (htable : ZeroTable s.bytes zeroHashes)
    (hbelow : zeroHashes + 64 * 32 ≤ buf) (hxs : xs.length ≤ 2 ^ d)
    (hroot : s.bytes.load buf 32 = hashBytes (Merkle.root pairHash 0 d xs)) (hk : d + k ≤ 64) :
    ∃ s', forM (List.range' d k) (fun d => sha256Pair buf (zeroHashes + d * 32) buf) s =
        .ok () s' ∧
      s'.bytes.load buf 32 = hashBytes (Merkle.root pairHash 0 (d + k) xs) ∧
      s'.heapPtr = s.heapPtr ∧ ByteMap.SameBelow buf s.bytes s'.bytes := by
  induction k generalizing d s with
  | zero => exact ⟨s, rfl, hroot, rfl, .refl _ _⟩
  | succ k ih =>
    have hnext : pairHash (Merkle.root pairHash 0 d xs) (Merkle.zeroRoot pairHash 0 d) =
      Merkle.root pairHash 0 (d + 1) xs := (Merkle.root_of_le hxs).symm
    have hpair := sha256Pair_run buf hroot (htable d (by omega))
    rw [hnext] at hpair
    have hself := ByteMap.load_store_self s.bytes buf
      (hashBytes (Merkle.root pairHash 0 (d + 1) xs))
    rw [length_hashBytes] at hself
    have hsame : ByteMap.SameBelow buf s.bytes
        (s.bytes.store buf (hashBytes (Merkle.root pairHash 0 (d + 1) xs))) :=
      ByteMap.sameBelow_store (Nat.le_refl _)
    have hpow : 2 ^ (d + 1) = 2 * 2 ^ d := Nat.pow_succ'
    obtain ⟨s₁, hrun, hroot₁, hheap₁, hsame₁⟩ := ih
      (s := s.put buf (hashBytes (Merkle.root pairHash 0 (d + 1) xs)))
      (htable.congr hsame hbelow) (by omega) hself (by omega)
    refine ⟨s₁, ?_, ?_, hheap₁, hsame.trans hsame₁⟩
    · rw [List.range'_succ, List.forM_cons, bind_run_ok hpair, hrun]
    · rw [hroot₁, Nat.add_right_comm, Nat.add_assoc]

/-! ## Trees -/

omit [Sha256] in
theorem hashBytes_zero : hashBytes 0 = List.replicate 32 0 := by
  decide

omit [Sha256] in
/-- The buffer holds the chunks and, behind them, chunks of zeros. -/
theorem holdsChunks_padded (m : ByteMap) (p buf n k : Nat) :
    HoldsChunks ((m.store buf (m.load p (n * 32))).store (buf + n * 32)
      (List.replicate (k * 32) 0)) buf (chunksAt m p n ++ List.replicate k 0) := by
  intro i x hx
  have hlen := length_chunksAt m p n
  by_cases hi : i < n
  · rw [List.getElem?_append_left (by omega), getElem?_chunksAt hi] at hx
    rw [← Option.some.inj hx, hashBytes_hashAt]
    refine ByteMap.load_congr fun j hj => ?_
    rw [ByteMap.store_below (by omega), Nat.add_assoc, Nat.add_assoc]
    exact ByteMap.store_load_at (by omega)
  · rw [List.getElem?_append_right (by omega), hlen, List.getElem?_replicate] at hx
    split at hx
    · next hk =>
      rw [← Option.some.inj hx, hashBytes_zero]
      refine List.ext_getElem? fun j => ?_
      by_cases hj : j < 32
      · have hat : some (ByteMap.store (m.store buf (m.load p (n * 32))) (buf + n * 32)
            (List.replicate (k * 32) 0) (buf + n * 32 + ((i - n) * 32 + j))) =
            (List.replicate (k * 32) (0 : UInt8))[(i - n) * 32 + j]? :=
          ByteMap.store_at (by rw [List.length_replicate]; omega)
        rw [List.getElem?_replicate, if_pos (by omega)] at hat
        rw [ByteMap.getElem?_load hj, List.getElem?_replicate, if_pos hj, ← hat]
        congr 2
        omega
      · rw [List.getElem?_eq_none (by rw [ByteMap.length_load]; omega),
          List.getElem?_eq_none (by rw [List.length_replicate]; omega)]
    · cases hx

/-- The table of the zero trees and the leaves are in memory that is allocated, and the place for the
root is not in the table. -/
structure Merkleizable (s : Ram) (zeroHashes p n out : Nat) : Prop where
  table : ZeroTable s.bytes zeroHashes
  tableBelow : zeroHashes + 64 * 32 ≤ s.heapPtr
  leaves : p + n * 32 ≤ s.heapPtr
  place : out + 32 ≤ s.heapPtr
  apart : out + 32 ≤ zeroHashes ∨ zeroHashes + 64 * 32 ≤ out
  top : s.heapPtr ≤ Ram.heapEnd

/-- A root has been written, and nothing else of what is allocated has changed. -/
structure Rooted (s : Ram) (out : Nat) (x : Hash) (s' : Ram) : Prop where
  content : s'.bytes.load out 32 = hashBytes x
  heapPtr : s'.heapPtr = s.heapPtr
  frame : ∀ q < s.heapPtr, q < out ∨ out + 32 ≤ q → s'.bytes q = s.bytes q

omit [Sha256] in
theorem memzero_put (s : Ram) (dst n : Nat) :
    Ram.memzero dst n s = .ok () (s.put dst (List.replicate n 0)) := rfl

omit [Sha256] in
theorem rooted_put (hsame : ByteMap.SameBelow s.heapPtr s.bytes s'.bytes)
    (hheap : s'.heapPtr = s.heapPtr) : Rooted s out x (s'.put out (hashBytes x)) := by
  have hself := ByteMap.load_store_self s'.bytes out (hashBytes x)
  rw [length_hashBytes] at hself
  refine ⟨hself, hheap, fun q hq hoff => ?_⟩
  rw [put_bytes, ByteMap.store_off (by rwa [length_hashBytes])]
  exact hsame q hq

omit [Sha256] in
/-- The root is copied to its place, which may be one of the leaves. -/
theorem rooted_copy {mark : Nat} (hsame : ByteMap.SameBelow s.heapPtr s.bytes s'.bytes)
    (hroot : s'.bytes.load buf 32 = hashBytes x) (hmark : mark = s.heapPtr)
    (hbuf : s.heapPtr ≤ buf) (hout : out + 32 ≤ s.heapPtr) :
    ∃ t, (do
      Ram.memcpy out buf 32
      heapRelease mark) s' = .ok () t ∧ Rooted s out x t := by
  have hput : Rooted s out x (Ram.put { s' with heapPtr := s.heapPtr } out (hashBytes x)) :=
    rooted_put hsame rfl
  refine ⟨_, ?_, hput⟩
  rw [bind_run_ok (Ram.memcpy_run (by omega)), hroot, heapRelease_run, hmark]
  rfl

omit [Sha256] in
theorem two_pow_clog_lt (h : 0 < n) : 2 ^ Nat.clog 2 n < 2 * n := by
  by_cases hone : n = 1
  · subst hone
    rw [Nat.clog_one_right]
    decide
  · have hpos := Nat.clog_pos (b := 2) (by decide) (show 1 < n by omega)
    have hlt := Nat.pow_pred_clog_lt_self (b := 2) (by decide) (show 1 < n by omega)
    obtain ⟨c, hc⟩ : ∃ c, Nat.clog 2 n = c + 1 := ⟨Nat.clog 2 n - 1, by omega⟩
    rw [hc] at hlt ⊢
    rw [Nat.pow_succ']
    rw [Nat.pred_succ] at hlt
    omega

/-- What a buffer that holds the padded leaves ends as. -/
theorem merkleBuffer_run {zeroHashes dn target mark : Nat} (h : Merkleizable s zeroHashes p n out)
    (hbuf : s.heapPtr ≤ buf)
    (hsame : ByteMap.SameBelow s.heapPtr s.bytes s'.bytes)
    (hxs : HoldsChunks s'.bytes buf xs) (hlen : xs.length = 2 ^ dn) (hle : dn ≤ target)
    (htarget : target < 64) (hmark : mark = s.heapPtr) :
    ∃ t, (do
      merkleLevels buf (2 ^ dn) (2 ^ dn)
      merkleClimb zeroHashes buf dn target
      Ram.memcpy out buf 32
      heapRelease mark) s' = .ok () t ∧ Rooted s out (Merkle.root pairHash 0 target xs) t := by
  obtain ⟨s₁, hrun₁, hroot₁, -, hsame₁⟩ := merkleLevels_run hxs hlen (Nat.le_of_lt Nat.lt_two_pow_self)
  have hsame₁ := hsame.trans (hsame₁.mono hbuf)
  have htable := h.table.congr hsame₁ h.tableBelow
  have hbelow := h.tableBelow
  obtain ⟨s₂, hrun₂, hroot₂, -, hsame₂⟩ := merkleClimb_run (k := target - dn) htable (by omega)
    (Nat.le_of_eq hlen) hroot₁ (by omega)
  rw [Nat.add_sub_cancel' hle] at hroot₂
  obtain ⟨t, hrun, hrooted⟩ := rooted_copy (hsame₁.trans (hsame₂.mono hbuf)) hroot₂ hmark hbuf h.place
  refine ⟨t, ?_, hrooted⟩
  rw [bind_run_ok hrun₁]
  unfold merkleClimb
  rw [bind_run_ok hrun₂, hrun]

theorem merkleize_run {zeroHashes fuel : Nat} (h : Merkleizable s zeroHashes p n out) (limit : Word)
    (hlimit : limit.toNat ≤ 2 ^ 63) (hfuel : 64 ≤ fuel) :
    (∃ s', merkleize fuel zeroHashes p n limit out s = .ok () s' ∧
      Rooted s out (Merkle.root pairHash 0 (max (Nat.clog 2 limit.toNat) (Nat.clog 2 n))
        (chunksAt s.bytes p n)) s') ∨
      Ram.heapEnd < s.heapPtr + 64 * n + 7 ∧
        ∃ s', merkleize fuel zeroHashes p n limit out s = .error (.trap 1) s' := by
  have htop := lt_of_le_heapEnd h.top
  have hleaves := h.leaves
  have hn : (BitVec.ofNat 64 n).toNat = n := by
    rw [BitVec.toNat_ofNat, Nat.mod_eq_of_lt (by omega)]
  have hlogs : ∀ k, Nat.clog 2 k ≤ 63 → (BitVec.ofNat 64 (Nat.clog 2 k)).toNat = Nat.clog 2 k := by
    intro k hk
    rw [BitVec.toNat_ofNat, Nat.mod_eq_of_lt (by omega)]
  have hdl : Nat.clog 2 limit.toNat ≤ 63 := Nat.clog_le_of_le_pow hlimit
  have hdn : Nat.clog 2 n ≤ 63 := Nat.clog_le_of_le_pow (by omega)
  have hceil : ceilLog2 fuel (BitVec.ofNat 64 n) = .ok (BitVec.ofNat 64 (Nat.clog 2 n)) := by
    have hceil := ceilLog2_eq (n := BitVec.ofNat 64 n) (by omega) hfuel
    rwa [hn] at hceil
  unfold merkleize
  rw [ceilLog2_eq hlimit hfuel, hceil]
  simp only [liftRam, pure_bind, hlogs _ hdl, hlogs _ hdn]
  split
  · next hzero =>
    subst hzero
    rw [Nat.clog_zero_right, Nat.max_zero]
    have hplace := h.apart
    have hcopy := Ram.memcpy_run (s := s) (n := 32)
      (show out ≤ zeroHashes + Nat.clog 2 limit.toNat * 32 ∨
        zeroHashes + Nat.clog 2 limit.toNat * 32 + 32 ≤ out by omega)
    rw [h.table _ (by omega)] at hcopy
    rw [show chunksAt s.bytes p 0 = [] from rfl, Merkle.root_nil]
    exact .inl ⟨_, hcopy, rooted_put (.refl _ _) rfl⟩
  · next hpos =>
    have hsize := two_pow_clog_lt (show 0 < n by omega)
    have hle : n ≤ 2 ^ Nat.clog 2 n := Nat.le_pow_clog (by decide) n
    rw [bind_run_ok (heapMark_run s), Nat.shiftLeft_eq, Nat.one_mul]
    rcases alloc_cases (2 ^ Nat.clog 2 n * 32) s with ⟨q, hlow, -, -, halloc⟩ | ⟨hfull, halloc⟩
    · rw [bind_run_ok halloc, bind_run_ok (Ram.memcpy_run (by omega)), bind_run_ok (memzero_put _ _ _)]
      have hpadded : HoldsChunks (Ram.put (Ram.put { s with heapPtr := q } s.heapPtr
          (s.bytes.load p (n * 32))) (s.heapPtr + n * 32)
          (List.replicate ((2 ^ Nat.clog 2 n - n) * 32) 0)).bytes s.heapPtr
          (chunksAt s.bytes p n ++ List.replicate (2 ^ Nat.clog 2 n - n) 0) :=
        holdsChunks_padded s.bytes p s.heapPtr n (2 ^ Nat.clog 2 n - n)
      have hlen : (chunksAt s.bytes p n ++ List.replicate (2 ^ Nat.clog 2 n - n) 0).length =
          2 ^ Nat.clog 2 n := by
        rw [List.length_append, length_chunksAt, List.length_replicate]
        omega
      obtain ⟨t, hrun, hrooted⟩ := merkleBuffer_run h (Nat.le_refl _)
        ((ByteMap.sameBelow_store (Nat.le_refl _)).trans
          (ByteMap.sameBelow_store (Nat.le_add_right _ _))) hpadded hlen
        (Nat.le_max_right (Nat.clog 2 limit.toNat) _) (by omega) rfl
      rw [Merkle.root_append_replicate] at hrooted
      exact .inl ⟨t, hrun, hrooted⟩
    · rw [bind_run_error halloc]
      exact .inr ⟨by omega, _, rfl⟩

/-! ## Chains of trees -/

omit [Sha256] in
theorem chunksAt_slice {i k : Nat} (h : i + k ≤ n) :
    chunksAt m (p + i * 32) k = ((chunksAt m p n).drop i).take k := by
  refine List.ext_getElem? fun j => ?_
  have hlen := length_chunksAt m (p + i * 32) k
  by_cases hj : j < k
  · rw [getElem?_chunksAt hj, List.getElem?_take_of_lt hj, List.getElem?_drop,
      getElem?_chunksAt (by omega), Nat.add_mul, Nat.add_assoc]
  · rw [List.getElem?_eq_none (by omega), List.getElem?_eq_none]
    rw [List.length_take]
    omega

/-- The roots of the trees from the `k`-th on lie behind each other. -/
structure TreeRoots (s : Ram) (roots k : Nat) (xs ts : List Hash) (s' : Ram) : Prop where
  bound : k + ts.length ≤ 24
  content : HoldsChunks s'.bytes (roots + k * 32) ts
  fold : ts.foldr pairHash 0 = Merkle.progressiveRoot pairHash 0 k xs
  heapPtr : s'.heapPtr = s.heapPtr
  below : ByteMap.SameBelow (roots + k * 32) s.bytes s'.bytes

theorem treeRoots_nil {roots : Nat} (s : Ram) (hk : k ≤ 24) : TreeRoots s roots k [] [] s where
  bound := hk
  content := fun _ _ h => by cases h
  fold := (Merkle.progressiveRoot_nil k).symm
  heapPtr := rfl
  below := .refl _ _

/-- A tree in front of the others. -/
theorem TreeRoots.cons {roots : Nat} {s'' : Ram} {ts : List Hash} (hxs : xs ≠ [])
    (hroot : Rooted s (roots + k * 32) (Merkle.root pairHash 0 (2 * k) (xs.take (4 ^ k))) s')
    (h : TreeRoots s' roots (k + 1) (xs.drop (4 ^ k)) ts s'') (hheap : roots + k * 32 ≤ s.heapPtr) :
    TreeRoots s roots k xs (Merkle.root pairHash 0 (2 * k) (xs.take (4 ^ k)) :: ts) s'' where
  bound := by
    have hbound := h.bound
    rw [List.length_cons]
    omega
  content := by
    intro i x hx
    cases i with
    | zero =>
      rw [Nat.zero_mul, Nat.add_zero, h.below.load (by omega), hroot.content, Option.some.inj hx]
    | succ i =>
      have hrest := h.content i x hx
      rwa [show roots + (k + 1) * 32 + i * 32 = roots + k * 32 + (i + 1) * 32 by omega] at hrest
  fold := by rw [List.foldr_cons, h.fold, Merkle.progressiveRoot_of_ne_nil hxs]
  heapPtr := h.heapPtr.trans hroot.heapPtr
  below := fun q hq =>
    (h.below q (by omega)).trans (hroot.frame q (Nat.lt_of_lt_of_le hq hheap) (.inl hq))

/-- A tree takes `4 ^ k` chunks, or all that are left. -/
theorem merkleize_tree {zeroHashes fuel off cnt : Nat}
    (h : Merkleizable s zeroHashes (p + off * 32) cnt out) (hk : k < 24) (hfuel : 64 ≤ fuel)
    (hcnt : cnt = min (4 ^ k) (n - off)) (hoff : off < n) :
    (∃ s', merkleize fuel zeroHashes (p + off * 32) cnt (BitVec.ofNat 64 (4 ^ k)) out s = .ok () s' ∧
      Rooted s out (Merkle.root pairHash 0 (2 * k)
        (((chunksAt s.bytes p n).drop off).take (4 ^ k))) s') ∨
      Ram.heapEnd < s.heapPtr + 64 * n + 7 ∧
        ∃ s', merkleize fuel zeroHashes (p + off * 32) cnt (BitVec.ofNat 64 (4 ^ k)) out s =
          .error (.trap 1) s' := by
  have hpow : 4 ^ k = 2 ^ (2 * k) := by rw [Nat.pow_mul]
  have hsize : 4 ^ k ≤ 2 ^ 46 := by
    rw [hpow]
    exact Nat.pow_le_pow_right (by decide) (by omega)
  have hlimit : (BitVec.ofNat 64 (4 ^ k)).toNat = 4 ^ k := by
    rw [BitVec.toNat_ofNat, Nat.mod_eq_of_lt (by omega)]
  have hlog : Nat.clog 2 (4 ^ k) = 2 * k := by rw [hpow, Nat.clog_pow _ _ (by decide)]
  have hlog' : Nat.clog 2 cnt ≤ 2 * k := by
    refine Nat.clog_le_of_le_pow ?_
    omega
  have hslice : chunksAt s.bytes (p + off * 32) cnt =
      ((chunksAt s.bytes p n).drop off).take (4 ^ k) := by
    rw [chunksAt_slice (show off + cnt ≤ n by omega)]
    refine List.take_eq_take_iff.mpr ?_
    rw [List.length_drop, length_chunksAt]
    omega
  have hrun := merkleize_run h (BitVec.ofNat 64 (4 ^ k)) (by omega) hfuel
  rw [hlimit, hlog, Nat.max_eq_left hlog', hslice] at hrun
  refine hrun.imp_right fun ⟨hfull, htrap⟩ => ⟨by omega, htrap⟩

/-- The trees before the `k`-th have `1 + 4 + … + 4 ^ (k - 1)` leaves. -/
theorem progressiveTrees_run {zeroHashes fuel roots rounds off : Nat}
    (htable : ZeroTable s.bytes zeroHashes) (hbelow : zeroHashes + 64 * 32 ≤ roots)
    (hleaves : p + n * 32 ≤ roots) (hroots : roots + 24 * 32 ≤ s.heapPtr)
    (htop : s.heapPtr ≤ Ram.heapEnd) (hn : n < 4 ^ 23) (hfuel : 64 ≤ fuel)
    (hoff : 3 * off + 1 = 4 ^ k) (hk : k ≤ 24) (hrounds : n ≤ off + rounds) :
    (∃ ts s', progressiveTrees fuel zeroHashes p n roots rounds k off (4 ^ k) s =
        .ok (k + ts.length) s' ∧ TreeRoots s roots k ((chunksAt s.bytes p n).drop off) ts s') ∨
      Ram.heapEnd < s.heapPtr + 64 * n + 7 ∧
        ∃ s', progressiveTrees fuel zeroHashes p n roots rounds k off (4 ^ k) s =
          .error (.trap 1) s' := by
  have hlen := length_chunksAt s.bytes p n
  induction rounds generalizing s k off with
  | zero =>
    rw [List.drop_eq_nil_of_le (by omega)]
    exact .inl ⟨[], s, rfl, treeRoots_nil s hk⟩
  | succ rounds ih =>
    rw [progressiveTrees]
    split
    · next hmore =>
      have hnext : 4 ^ (k + 1) = 4 * 4 ^ k := Nat.pow_succ'
      have hlast : k < 24 := by
        refine (Nat.pow_lt_pow_iff_right (show 1 < 4 by decide)).mp ?_
        omega
      have hcnt : (if 4 ^ k < n - off then 4 ^ k else n - off) = min (4 ^ k) (n - off) := by
        split <;> omega
      have hmerkle : Merkleizable s zeroHashes (p + off * 32) (min (4 ^ k) (n - off))
          (roots + k * 32) :=
        { table := htable, tableBelow := by omega, leaves := by omega, place := by omega,
          apart := by omega, top := htop }
      dsimp only
      rw [hcnt, Nat.shiftLeft_eq, show 4 ^ k * 2 ^ 2 = 4 ^ (k + 1) by omega]
      rcases merkleize_tree hmerkle hlast hfuel rfl hmore with
        ⟨s₁, hrun, hrooted⟩ | ⟨hfull, s₁, htrap⟩
      · have hsame : ByteMap.SameBelow roots s.bytes s₁.bytes := fun q hq =>
          hrooted.frame q (by omega) (.inl (by omega))
        have hheap := hrooted.heapPtr
        have hchunks : chunksAt s₁.bytes p n = chunksAt s.bytes p n := chunksAt_congr hsame hleaves
        rw [bind_run_ok hrun]
        have hoff' : 3 * (off + 4 ^ k) + 1 = 4 ^ (k + 1) := by omega
        have hrest := ih (htable.congr hsame hbelow) (by omega) (by omega) hoff' hlast (by omega)
          (length_chunksAt _ _ _)
        rw [hchunks, ← List.drop_drop, hheap] at hrest
        have hne : (chunksAt s.bytes p n).drop off ≠ [] := by
          refine List.ne_nil_of_length_pos ?_
          rw [List.length_drop]
          omega
        rcases hrest with ⟨ts, s₂, hrun₂, htrees⟩ | htrap
        · refine .inl ⟨_, s₂, ?_, htrees.cons hne hrooted (by omega)⟩
          rw [hrun₂, List.length_cons, Nat.add_assoc, Nat.add_comm 1]
        · exact .inr htrap
      · rw [bind_run_error htrap]
        exact .inr ⟨hfull, s₁, rfl⟩
    · next hend =>
      rw [List.drop_eq_nil_of_le (by omega)]
      exact .inl ⟨[], s, rfl, treeRoots_nil s hk⟩

/-- The roots are combined from the last one on. -/
theorem foldRoots_run {roots acc : Nat} {ts : List Hash} (hts : HoldsChunks s.bytes roots ts)
    (hacc : s.bytes.load acc 32 = hashBytes y) (hbelow : roots + ts.length * 32 ≤ acc) :
    ∃ s', foldRoots roots acc ts.length s = .ok () s' ∧
      s'.bytes.load acc 32 = hashBytes (ts.foldr pairHash y) ∧
      ByteMap.SameBelow acc s.bytes s'.bytes := by
  induction ts using List.reverseRecOn generalizing y s with
  | nil => exact ⟨s, rfl, hacc, .refl _ _⟩
  | append_singleton ts x ih =>
    rw [List.length_append, List.length_singleton] at hbelow ⊢
    have hlast : (ts ++ [x])[ts.length]? = some x := by
      rw [List.getElem?_append_right (Nat.le_refl _), Nat.sub_self]
      rfl
    have hpair := sha256Pair_run acc (hts ts.length x hlast) hacc
    have hsame : ByteMap.SameBelow acc s.bytes (s.put acc (hashBytes (pairHash x y))).bytes :=
      ByteMap.sameBelow_store (Nat.le_refl _)
    have hself := ByteMap.load_store_self s.bytes acc (hashBytes (pairHash x y))
    rw [length_hashBytes] at hself
    have hts' : HoldsChunks (s.put acc (hashBytes (pairHash x y))).bytes roots ts :=
      hts.left.congr fun i hi => hsame.load (by omega)
    obtain ⟨s', hrun, hroot, hsame'⟩ := ih hts' hself (by omega)
    refine ⟨s', ?_, ?_, hsame.trans hsame'⟩
    · rw [foldRoots, bind_run_ok hpair, hrun]
    · rw [hroot, List.foldr_append]
      rfl

theorem merkleizeProgressive_run {zeroHashes fuel : Nat} (h : Merkleizable s zeroHashes p n out)
    (hn : n < 4 ^ 23) (hfuel : 64 ≤ fuel) :
    (∃ s', merkleizeProgressive fuel zeroHashes p n out s = .ok () s' ∧
      Rooted s out (Merkle.progressiveRoot pairHash 0 0 (chunksAt s.bytes p n)) s') ∨
      Ram.heapEnd < s.heapPtr + 64 * n + 821 ∧
        ∃ s', merkleizeProgressive fuel zeroHashes p n out s = .error (.trap 1) s' := by
  have hbelow := h.tableBelow
  have hleaves := h.leaves
  unfold merkleizeProgressive
  rw [bind_run_ok (heapMark_run s)]
  rcases alloc_cases (24 * 32) s with ⟨acc, hacc, hacc', -, halloc⟩ | ⟨hfull, halloc⟩
  · rw [bind_run_ok halloc]
    rcases alloc_cases 32 { s with heapPtr := acc } with ⟨q, hq, hq', htop, halloc₂⟩ | ⟨hfull, halloc₂⟩
    · dsimp only at hq hq'
      rw [bind_run_ok halloc₂]
      have htrees := progressiveTrees_run (s := { s with heapPtr := q }) h.table hbelow hleaves
        (by change _ ≤ q; omega) htop hn hfuel (show 3 * 0 + 1 = 4 ^ 0 from rfl) (Nat.zero_le _)
        (show n ≤ 0 + n by omega)
      rw [Nat.pow_zero] at htrees
      rcases htrees with ⟨ts, s₁, hrun₁, htrees⟩ | ⟨hfull, s₁, htrap⟩
      · have hbound := htrees.bound
        have hheld := htrees.content
        have hsame := htrees.below
        rw [Nat.zero_mul, Nat.add_zero] at hheld hsame
        rw [Nat.zero_add] at hrun₁ hbound
        rw [bind_run_ok hrun₁, bind_run_ok (memzero_put _ _ _)]
        have hzeroed : ByteMap.SameBelow acc s₁.bytes
            (s₁.put acc (List.replicate 32 0)).bytes := ByteMap.sameBelow_store (Nat.le_refl _)
        have hself := ByteMap.load_store_self s₁.bytes acc (hashBytes 0)
        rw [length_hashBytes, hashBytes_zero] at hself
        have hfold := foldRoots_run (s := s₁.put acc (List.replicate 32 0))
          (hheld.congr fun i hi => hzeroed.load (by omega))
          (hself.trans hashBytes_zero.symm) (by omega)
        obtain ⟨s₂, hrun₂, hroot₂, hsame₂⟩ := hfold
        rw [htrees.fold] at hroot₂
        obtain ⟨t, hrun, hrooted⟩ := rooted_copy
          (hsame.trans ((hzeroed.trans hsame₂).mono (by omega))) hroot₂ rfl (by omega) h.place
        rw [bind_run_ok hrun₂]
        exact .inl ⟨t, hrun, hrooted⟩
      · rw [bind_run_error htrap]
        exact .inr ⟨by dsimp only at hfull; omega, s₁, rfl⟩
    · rw [bind_run_error halloc₂]
      exact .inr ⟨by dsimp only at hfull; omega, _, rfl⟩
  · rw [bind_run_error halloc]
    exact .inr ⟨by omega, _, rfl⟩

/-- The root of a tree is that of the depth the limit or the number of chunks needs, and the root of
a chain of trees the recursive one. The place of the root may be one of the chunks, and a heap that
is too small traps. -/
theorem merkleization_exact {zeroHashes fuel : Nat} (h : Merkleizable s zeroHashes p n out)
    (hfuel : 64 ≤ fuel) :
    (∀ limit : Word, limit.toNat ≤ 2 ^ 63 →
      (∃ s', merkleize fuel zeroHashes p n limit out s = .ok () s' ∧
        Rooted s out (Merkle.root pairHash 0 (max (Nat.clog 2 limit.toNat) (Nat.clog 2 n))
          (chunksAt s.bytes p n)) s') ∨
        Ram.heapEnd < s.heapPtr + 64 * n + 7 ∧
          ∃ s', merkleize fuel zeroHashes p n limit out s = .error (.trap 1) s') ∧
      (n < 4 ^ 23 →
        (∃ s', merkleizeProgressive fuel zeroHashes p n out s = .ok () s' ∧
          Rooted s out (Merkle.progressiveRoot pairHash 0 0 (chunksAt s.bytes p n)) s') ∨
          Ram.heapEnd < s.heapPtr + 64 * n + 821 ∧
            ∃ s', merkleizeProgressive fuel zeroHashes p n out s = .error (.trap 1) s') :=
  ⟨fun limit hlimit => merkleize_run h limit hlimit hfuel, fun hn => merkleizeProgressive_run h hn hfuel⟩

/-- A hash that is always zero, for which a memory of zeros holds the table. -/
abbrev zeroSha : Sha256 := ⟨fun _ => 0⟩

def zeroChunks : Ram := ⟨fun _ => 0, 4096⟩

omit [Sha256] in
theorem merkleizable_zeroChunks : @Merkleizable zeroSha zeroChunks 0 2048 3 2048 := by
  refine @Merkleizable.mk zeroSha zeroChunks 0 2048 3 2048 ?_ (by decide) (by decide) (by decide)
    (by decide) (by decide)
  intro k hk
  have hzero : @Merkle.zeroRoot Hash (@pairHash zeroSha) 0 k = 0 := by cases k <;> rfl
  rw [hzero, hashBytes_zero]
  rfl

omit [Sha256] in
/-- Three chunks, and a root in place of the first one. -/
theorem merkleization_exact_zeroChunks :
    (∃ s', @merkleize zeroSha 64 0 2048 3 8 2048 zeroChunks = .ok () s' ∧
      Rooted zeroChunks 2048 (Merkle.root (@pairHash zeroSha) 0 (max (Nat.clog 2 8) (Nat.clog 2 3))
        (chunksAt zeroChunks.bytes 2048 3)) s') ∧
      ∃ s', @merkleizeProgressive zeroSha 64 0 2048 3 2048 zeroChunks = .ok () s' ∧
        Rooted zeroChunks 2048 (Merkle.progressiveRoot (@pairHash zeroSha) 0 0
          (chunksAt zeroChunks.bytes 2048 3)) s' := by
  have hexact := @merkleization_exact 2048 3 zeroSha zeroChunks 2048 0 64 merkleizable_zeroChunks
    (Nat.le_refl _)
  have hroom : ¬Ram.heapEnd < zeroChunks.heapPtr + 64 * 3 + 821 := by decide
  refine ⟨(hexact.1 8 (by decide)).resolve_right fun hfull => hroom ?_,
    (hexact.2 (by decide)).resolve_right fun hfull => hroom hfull.1⟩
  exact Nat.lt_of_lt_of_le hfull.1 (by decide)

omit [Sha256] in
/-- A limit above `2 ^ 63` is never reached by the shift. -/
theorem merkleize_large_limit :
    ¬∃ fuel s', @merkleize zeroSha fuel 0 2048 3 (BitVec.ofNat 64 (2 ^ 63 + 1)) 2048 zeroChunks =
      .ok () s' := by
  rintro ⟨fuel, s', hrun⟩
  unfold merkleize at hrun
  rw [ceilLog2_runs (by decide) fuel] at hrun
  cases hrun

end StatelessGuest
