import StatelessGuest.Base

/-!
# Hashing and comparing the keys of a table

The hash of a key folds its little-endian words. The common lengths are unrolled, with word loads
where the key is aligned; the comparison of two keys uses word loads where both are.

* `htabHash_eq`: the hash depends on the bytes of a key, not on where the key is.
* `memeq_iff`: keys are equal when their bytes are.
-/

namespace StatelessGuest

/-! ## Keys in memory -/

/-- A pointer, and the memory from there on. -/
structure KeyAt where
  ptr : Word
  byte : Nat → UInt8

namespace KeyAt

/-- The first bytes. -/
def bytes (k : KeyAt) (n : Nat) : Bytes := (List.range n).map k.byte

def ld8 (k : KeyAt) (i : Nat) : Word := BitVec.ofNat 64 (k.byte i).toNat

/-- The word at an aligned offset, whose first byte is the lowest. -/
def lds (k : KeyAt) (i : Nat) : Word :=
  (List.range 8).foldr (fun j w => k.ld8 (i + j) ||| (w <<< 8)) 0

def ldLe32 (k : KeyAt) (i : Nat) : Word :=
  k.ld8 i ||| (k.ld8 (i + 1) <<< 8) ||| (k.ld8 (i + 2) <<< 16) ||| (k.ld8 (i + 3) <<< 24)

def ldLe64 (k : KeyAt) (i : Nat) : Word := k.ldLe32 i ||| (k.ldLe32 (i + 4) <<< 32)

theorem lds_eq (k : KeyAt) (i : Nat) : k.lds i = k.ldLe64 i := by
  simp only [lds, ldLe64, ldLe32, List.range_succ_eq_map, List.range_zero, List.map, List.foldr,
    Nat.add_zero, Nat.add_assoc, Nat.succ_eq_add_one, Nat.zero_add, Nat.reduceAdd,
    BitVec.shiftLeft_or_distrib, ← BitVec.shiftLeft_add, BitVec.or_assoc]
  exact congrArg _ (congrArg _ (congrArg _ (congrArg _ (congrArg _ (congrArg _ (congrArg _
    (BitVec.or_zero)))))))

@[simp] theorem length_bytes (k : KeyAt) (n : Nat) : (k.bytes n).length = n := by
  simp [bytes]

theorem take_bytes (k : KeyAt) {n i : Nat} (h : i ≤ n) : (k.bytes n).take i = k.bytes i := by
  unfold bytes
  rw [← List.map_take, List.take_range, Nat.min_eq_left h]

/-- The bytes somewhere. -/
def ofBytes (bs : Bytes) : KeyAt := ⟨0, fun i => bs.getD i 0⟩

theorem ofBytes_bytes (k : KeyAt) {n i : Nat} (h : i < n) :
    (ofBytes (k.bytes n)).byte i = k.byte i := by
  simp [ofBytes, bytes, List.getD_eq_getElem?_getD, List.getElem?_range h]

theorem bytes_ofBytes (bs : Bytes) : (ofBytes bs).bytes bs.length = bs := by
  apply List.ext_getElem
  · exact length_bytes _ _
  · intro i h₁ h₂
    simp [ofBytes, bytes, List.getD_eq_getElem?_getD, h₂]

end KeyAt

/-! ## The hash -/

/-- The final avalanche. -/
def avalanche (h : Word) : Word :=
  let h := h ^^^ (h >>> 32)
  let h := h * 1099511628211
  h ^^^ (h >>> 29)

/-- The loops for other lengths: over the words, then over the bytes that are left. -/
def hashLoops (k : KeyAt) (keyLen : Nat) (h : Word) : Word :=
  let h := (List.range (keyLen / 8)).foldl (fun h j => h ^^^ k.ldLe64 (8 * j)) h
  let h := (List.range (keyLen % 8)).foldl (fun h j => h ^^^ k.ld8 (8 * (keyLen / 8) + j)) h
  avalanche h

/-- The hash of the `keyLen` bytes at a key. -/
def htabHash (k : KeyAt) (keyLen : Word) : Word :=
  let h : Word := 14695981039346656037
  if k.ptr &&& 7 = 0 then
    if keyLen = 20 then
      avalanche (h ^^^ k.lds 0 ^^^ k.lds 8 ^^^ k.ldLe32 16)
    else if keyLen = 32 then
      avalanche (h ^^^ k.lds 0 ^^^ k.lds 8 ^^^ k.lds 16 ^^^ k.lds 24)
    else if keyLen = 52 then
      avalanche (h ^^^ k.lds 0 ^^^ k.lds 8 ^^^ k.lds 16 ^^^ k.lds 24 ^^^ k.lds 32 ^^^ k.lds 40 ^^^
        k.ldLe32 48)
    else hashLoops k keyLen.toNat h
  else
    if keyLen = 20 then
      avalanche (h ^^^ k.ldLe64 0 ^^^ k.ldLe64 8 ^^^ k.ldLe32 16)
    else if keyLen = 32 then
      avalanche (h ^^^ k.ldLe64 0 ^^^ k.ldLe64 8 ^^^ k.ldLe64 16 ^^^ k.ldLe64 24)
    else if keyLen = 52 then
      avalanche (h ^^^ k.ldLe64 0 ^^^ k.ldLe64 8 ^^^ k.ldLe64 16 ^^^ k.ldLe64 24 ^^^
        k.ldLe64 32 ^^^ k.ldLe64 40 ^^^ k.ldLe32 48)
    else hashLoops k keyLen.toNat h

/-! ## The comparison -/

/-- Whether `n` bytes are the same: by words, the last ones by bytes, if both keys are aligned. The
unrolled lengths of the source are cases of its loops. -/
def memeq (a b : KeyAt) (n : Nat) : Bool :=
  if (a.ptr ||| b.ptr) &&& 7 = 0 then
    (List.range (n / 8)).all (fun j => a.lds (8 * j) = b.lds (8 * j)) &&
      (List.range (n % 8)).all fun j => a.ld8 (8 * (n / 8) + j) = b.ld8 (8 * (n / 8) + j)
  else (List.range n).all fun j => a.ld8 j = b.ld8 j

theorem ld8_inj {a b : KeyAt} {i j : Nat} : a.ld8 i = b.ld8 j ↔ a.byte i = b.byte j := by
  constructor
  · intro h
    have hnat := congrArg BitVec.toNat h
    have ha := (a.byte i).toNat_lt
    have hb := (b.byte j).toNat_lt
    rw [KeyAt.ld8, KeyAt.ld8, BitVec.toNat_ofNat, BitVec.toNat_ofNat, Nat.mod_eq_of_lt (by omega),
      Nat.mod_eq_of_lt (by omega)] at hnat
    exact UInt8.toNat_inj.mp hnat
  · intro h
    rw [KeyAt.ld8, KeyAt.ld8, h]

/-- A word is put together from its low byte and the rest. -/
theorem toNat_or_shift {x w : Word} (hx : x.toNat < 256) (hw : w.toNat < 2 ^ 56) :
    (x ||| (w <<< 8)).toNat = 256 * w.toNat + x.toNat := by
  have hshift : (w <<< 8).toNat = 2 ^ 8 * w.toNat := by
    rw [BitVec.toNat_shiftLeft, Nat.shiftLeft_eq, Nat.mod_eq_of_lt (by omega), Nat.mul_comm]
  rw [BitVec.toNat_or, hshift, Nat.or_comm, ← Nat.two_pow_add_eq_or_of_lt hx]

/-- The little-endian word of some bytes. -/
def leWord (xs : List Word) : Word := xs.foldr (fun x w => x ||| (w <<< 8)) 0

theorem leWord_lt {xs : List Word} (hxs : ∀ x ∈ xs, x.toNat < 256) (hlen : xs.length ≤ 8) :
    (leWord xs).toNat < 256 ^ xs.length := by
  induction xs with
  | nil => exact Nat.zero_lt_one
  | cons x xs ih =>
    rw [List.length_cons] at hlen
    have hlt := ih (fun y hy => hxs y (List.mem_cons_of_mem _ hy)) (by omega)
    have hpow : 256 ^ xs.length ≤ 256 ^ 7 := Nat.pow_le_pow_right (by decide) (by omega)
    have hx := hxs x List.mem_cons_self
    change (x ||| (leWord xs <<< 8)).toNat < _
    rw [toNat_or_shift hx (Nat.lt_of_lt_of_le hlt hpow), List.length_cons, Nat.pow_succ]
    omega

theorem leWord_inj {xs ys : List Word} (hxs : ∀ x ∈ xs, x.toNat < 256)
    (hys : ∀ y ∈ ys, y.toNat < 256) (hlen : xs.length ≤ 8) (hsame : xs.length = ys.length)
    (h : leWord xs = leWord ys) : xs = ys := by
  induction xs generalizing ys with
  | nil => exact (List.length_eq_zero_iff.mp hsame.symm).symm
  | cons x xs ih =>
    cases ys with
    | nil => cases hsame
    | cons y ys =>
      rw [List.length_cons] at hlen
      have hrest : xs.length = ys.length := Nat.succ.inj hsame
      have hxs' : ∀ z ∈ xs, z.toNat < 256 := fun z hz => hxs z (List.mem_cons_of_mem _ hz)
      have hys' : ∀ z ∈ ys, z.toNat < 256 := fun z hz => hys z (List.mem_cons_of_mem _ hz)
      have hpow : 256 ^ xs.length ≤ 256 ^ 7 := Nat.pow_le_pow_right (by decide) (by omega)
      have hx := hxs x List.mem_cons_self
      have hy := hys y List.mem_cons_self
      have hwx := leWord_lt hxs' (by omega)
      have hwy := leWord_lt hys' (by omega)
      rw [← hrest] at hwy
      have hnat := congrArg BitVec.toNat h
      change (x ||| (leWord xs <<< 8)).toNat = (y ||| (leWord ys <<< 8)).toNat at hnat
      rw [toNat_or_shift hx (Nat.lt_of_lt_of_le hwx hpow),
        toNat_or_shift hy (Nat.lt_of_lt_of_le hwy hpow)] at hnat
      have hhead : x = y := BitVec.eq_of_toNat_eq (by omega)
      have htail : leWord xs = leWord ys := BitVec.eq_of_toNat_eq (by omega)
      rw [hhead, ih hxs' hys' (by omega) hrest htail]

theorem lds_inj {a b : KeyAt} {i : Nat} :
    a.lds i = b.lds i ↔ ∀ j < 8, a.ld8 (i + j) = b.ld8 (i + j) := by
  have hword : ∀ k : KeyAt, k.lds i = leWord ((List.range 8).map fun j => k.ld8 (i + j)) := by
    intro k
    rw [leWord, List.foldr_map]
    rfl
  have hbytes : ∀ k : KeyAt, ∀ x ∈ (List.range 8).map fun j => k.ld8 (i + j), x.toNat < 256 := by
    intro k x hx
    obtain ⟨j, -, rfl⟩ := List.mem_map.mp hx
    have hlt := (k.byte (i + j)).toNat_lt
    rw [KeyAt.ld8, BitVec.toNat_ofNat, Nat.mod_eq_of_lt (by omega)]
    exact hlt
  constructor
  · intro h j hj
    rw [hword, hword] at h
    have hall := leWord_inj (hbytes a) (hbytes b) (by simp) (by simp) h
    exact List.map_inj_left.mp hall j (List.mem_range.mpr hj)
  · intro h
    rw [hword, hword]
    exact congrArg leWord (List.map_congr_left fun j hj => h j (List.mem_range.mp hj))

theorem bytes_eq_iff {a b : KeyAt} {n : Nat} :
    a.bytes n = b.bytes n ↔ ∀ j < n, a.byte j = b.byte j := by
  unfold KeyAt.bytes
  rw [List.map_inj_left]
  simp only [List.mem_range]

theorem memeq_iff {a b : KeyAt} {n : Nat} : memeq a b n = true ↔ a.bytes n = b.bytes n := by
  rw [bytes_eq_iff]
  unfold memeq
  split
  · simp only [Bool.and_eq_true, List.all_eq_true, List.mem_range, decide_eq_true_eq, lds_inj,
      ld8_inj]
    constructor
    · rintro ⟨hwords, hrest⟩ j hj
      by_cases hword : j / 8 < n / 8
      · have hbyte := hwords (j / 8) hword (j % 8) (by omega)
        rwa [Nat.div_add_mod] at hbyte
      · have hbyte := hrest (j - 8 * (n / 8)) (by omega)
        rwa [Nat.add_sub_cancel' (by omega)] at hbyte
    · intro h
      exact ⟨fun j hj i hi => h _ (by omega), fun j hj => h _ (by omega)⟩
  · simp only [List.all_eq_true, List.mem_range, decide_eq_true_eq, ld8_inj]

/-! ## The hash of some bytes -/

section

variable {k k' : KeyAt} {n : Nat}

theorem ldLe32_congr {i : Nat} (h : ∀ j < n, k.byte j = k'.byte j) (hi : i + 4 ≤ n) :
    k.ldLe32 i = k'.ldLe32 i := by
  simp only [KeyAt.ldLe32, KeyAt.ld8, h i (by omega), h (i + 1) (by omega), h (i + 2) (by omega),
    h (i + 3) (by omega)]

theorem ldLe64_congr {i : Nat} (h : ∀ j < n, k.byte j = k'.byte j) (hi : i + 8 ≤ n) :
    k.ldLe64 i = k'.ldLe64 i := by
  unfold KeyAt.ldLe64
  rw [ldLe32_congr h (by omega), ldLe32_congr h (by omega)]

theorem foldl_congr {f g : Word → Nat → Word} {m : Nat} (hfg : ∀ j < m, ∀ w, f w j = g w j)
    (w : Word) : (List.range m).foldl f w = (List.range m).foldl g w := by
  induction m with
  | zero => rfl
  | succ m ih =>
    rw [List.range_succ, List.foldl_append, List.foldl_append,
      ih fun j hj => hfg j (Nat.lt_succ_of_lt hj)]
    exact hfg m (Nat.lt_succ_self m) _

theorem hashLoops_congr (h : ∀ j < n, k.byte j = k'.byte j) (w : Word) :
    hashLoops k n w = hashLoops k' n w := by
  have hwords : ∀ v, (List.range (n / 8)).foldl (fun h j => h ^^^ k.ldLe64 (8 * j)) v =
      (List.range (n / 8)).foldl (fun h j => h ^^^ k'.ldLe64 (8 * j)) v := by
    apply foldl_congr
    intro j hj v
    rw [ldLe64_congr h (by omega)]
  have hbytes : ∀ v, (List.range (n % 8)).foldl (fun h j => h ^^^ k.ld8 (8 * (n / 8) + j)) v =
      (List.range (n % 8)).foldl (fun h j => h ^^^ k'.ld8 (8 * (n / 8) + j)) v := by
    apply foldl_congr
    intro j hj v
    rw [KeyAt.ld8, KeyAt.ld8, h _ (by omega)]
  simp only [hashLoops, hwords, hbytes]

/-- Keys with the same bytes have the same hash, wherever they are. -/
theorem htabHash_congr {keyLen : Word} (h : ∀ j < keyLen.toNat, k.byte j = k'.byte j) :
    htabHash k keyLen = htabHash k' keyLen := by
  unfold htabHash
  simp only [KeyAt.lds_eq, ite_self]
  by_cases h20 : keyLen = 20
  · subst h20
    change ∀ j < 20, _ at h
    simp only [if_true, ldLe64_congr h (show 0 + 8 ≤ 20 by decide),
      ldLe64_congr h (show 8 + 8 ≤ 20 by decide), ldLe32_congr h (show 16 + 4 ≤ 20 by decide)]
  simp only [if_neg h20]
  by_cases h32 : keyLen = 32
  · subst h32
    change ∀ j < 32, _ at h
    simp only [if_true, ldLe64_congr h (show 0 + 8 ≤ 32 by decide),
      ldLe64_congr h (show 8 + 8 ≤ 32 by decide), ldLe64_congr h (show 16 + 8 ≤ 32 by decide),
      ldLe64_congr h (show 24 + 8 ≤ 32 by decide)]
  simp only [if_neg h32]
  by_cases h52 : keyLen = 52
  · subst h52
    change ∀ j < 52, _ at h
    simp only [if_true, ldLe64_congr h (show 0 + 8 ≤ 52 by decide),
      ldLe64_congr h (show 8 + 8 ≤ 52 by decide), ldLe64_congr h (show 16 + 8 ≤ 52 by decide),
      ldLe64_congr h (show 24 + 8 ≤ 52 by decide), ldLe64_congr h (show 32 + 8 ≤ 52 by decide),
      ldLe64_congr h (show 40 + 8 ≤ 52 by decide), ldLe32_congr h (show 48 + 4 ≤ 52 by decide)]
  simp only [if_neg h52, hashLoops_congr h]

/-- The hash of bytes. -/
def hashOf (bs : Bytes) : Word := htabHash (.ofBytes bs) (BitVec.ofNat 64 bs.length)

theorem htabHash_eq (k : KeyAt) (keyLen : Word) :
    htabHash k keyLen = hashOf (k.bytes keyLen.toNat) := by
  unfold hashOf
  rw [KeyAt.length_bytes, BitVec.ofNat_toNat, BitVec.setWidth_eq]
  apply htabHash_congr
  intro j hj
  exact (KeyAt.ofBytes_bytes k hj).symm

end

end StatelessGuest
