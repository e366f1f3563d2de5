import Mathlib.Data.Nat.Bitwise
import StatelessGuest.Header.Encode

/-!
# Bloom filters of logs

An address or a topic sets three of 2048 bits, chosen by its hash. The filter is kept as 256
big-endian bytes in memory.

* `addToBloom`: the bits of an entry are set in memory.
* `entryBloom`, `bloomOf`: the bits of an entry, and the union over entries.
* `addToBloom_run`: an entry is united with the filter in memory.
-/

namespace StatelessGuest

open Lib Ram

/-! ## Memory -/

/-- The bit that the bytes at `h + idx` name is set. -/
def setBloomBit (bloom h idx : Nat) : RamM Unit := do
  let hi ← Ram.ld8 (h + idx)
  let lo ← Ram.ld8 (h + idx + 1)
  let bit := (hi <<< 8 ||| lo) &&& 2047
  let bitIndex := 2047 - bit
  let byteIndex := bitIndex >>> 3
  let bv := 1 <<< (7 - (bitIndex &&& 7))
  let old ← Ram.ld8 (bloom + byteIndex)
  st8 (bloom + byteIndex) (old ||| bv)

def addToBloom [Keccak] (bloom entry n : Nat) : RamM Unit := do
  let mark ← heapMark
  let h ← alloc 32
  keccakAt entry n h
  forM [0, 2, 4] fun idx => setBloomBit bloom h idx
  heapRelease mark

/-! ## Sets of bits -/

/-- The filter, whose bit `i` has the value `2 ^ i` in its big-endian bytes. -/
abbrev Bloom := BitVec 2048

def Bloom.bytes (b : Bloom) : Bytes := beBytes 256 b.toNat

/-- The bit that two bytes of a hash name. -/
def bloomBit (hash : Hash) (idx : Nat) : Nat :=
  (((hashBytes hash).getD idx 0).toNat <<< 8 ||| ((hashBytes hash).getD (idx + 1) 0).toNat) &&& 2047

/-- The three bits of an address or a topic. -/
def entryBloom [Keccak] (entry : Bytes) : Bloom :=
  BitVec.twoPow 2048 (bloomBit (keccak256 entry) 0) |||
    BitVec.twoPow 2048 (bloomBit (keccak256 entry) 2) |||
      BitVec.twoPow 2048 (bloomBit (keccak256 entry) 4)

/-- The union of the filters of the entries. -/
def bloomOf [Keccak] (entries : List Bytes) : Bloom :=
  entries.foldl (fun b entry => b ||| entryBloom entry) 0

/-! ## A bit in a byte -/

/-- The bytes that a bit is not in stay, and the byte that it is in gets it. -/
theorem div_or_twoPow {v b k : Nat} :
    (v ||| 2 ^ b) / 256 ^ k % 256 =
      if b / 8 = k then v / 256 ^ k % 256 ||| 2 ^ (b % 8) else v / 256 ^ k % 256 := by
  have hpow : 256 ^ k = 2 ^ (8 * k) := by
    rw [Nat.pow_mul]
  have hmod : ∀ x : Nat, x % 256 = x % 2 ^ 8 := fun _ => rfl
  refine Nat.eq_of_testBit_eq fun i => ?_
  rw [hpow, ← Nat.shiftRight_eq_div_pow, ← Nat.shiftRight_eq_div_pow, hmod, hmod]
  split
  · next hbyte =>
    rw [Nat.testBit_mod_two_pow, Nat.testBit_shiftRight, Nat.testBit_or, Nat.testBit_two_pow,
      Nat.testBit_or, Nat.testBit_mod_two_pow, Nat.testBit_shiftRight, Nat.testBit_two_pow]
    by_cases hi : i < 8
    · have hsame : b = 8 * k + i ↔ b % 8 = i := by omega
      simp [hi, hsame]
    · have hne : b % 8 ≠ i := by omega
      simp [hi, hne]
  · next hbyte =>
    rw [Nat.testBit_mod_two_pow, Nat.testBit_shiftRight, Nat.testBit_or, Nat.testBit_two_pow,
      Nat.testBit_mod_two_pow, Nat.testBit_shiftRight]
    by_cases hi : i < 8
    · have hne : b ≠ 8 * k + i := by omega
      simp [hi, hne]
    · simp [hi]

theorem load_store_single {m : ByteMap} {p n i : Nat} {x : UInt8} (hi : i < n) :
    (m.store (p + i) [x]).load p n = (m.load p n).set i x := by
  refine List.ext_getElem? fun j => ?_
  by_cases hj : j < n
  · rw [ByteMap.getElem?_load hj, List.getElem?_set]
    by_cases hij : i = j
    · subst hij
      rw [if_pos rfl, if_pos (Nat.lt_of_lt_of_eq hi (ByteMap.length_load m p n).symm)]
      exact ByteMap.store_at (i := 0) (by simp)
    · rw [if_neg hij, ByteMap.getElem?_load hj, ByteMap.store_off (by simp; omega)]
  · rw [List.getElem?_eq_none (by rw [ByteMap.length_load]; omega),
      List.getElem?_eq_none (by rw [List.length_set, ByteMap.length_load]; omega)]

/-- A bit of the filter is set in its byte. -/
theorem set_bloom_bytes (v : Bloom) {b : Nat} (hb : b < 2048) :
    v.bytes.set ((2047 - b) >>> 3) (UInt8.ofNat (v.toNat / 256 ^ (b / 8) % 256 |||
      1 <<< (7 - ((2047 - b) &&& 7)))) = Bloom.bytes (v ||| BitVec.twoPow 2048 b) := by
  have hindex : (2047 - b) >>> 3 = 255 - b / 8 := by
    rw [Nat.shiftRight_eq_div_pow]
    omega
  have hbit : 7 - ((2047 - b) &&& 7) = b % 8 := by
    rw [show 7 = 2 ^ 3 - 1 from rfl, Nat.and_two_pow_sub_one_eq_mod]
    omega
  unfold Bloom.bytes
  rw [hindex, hbit, BitVec.toNat_or, BitVec.toNat_twoPow_of_lt hb, Nat.one_shiftLeft]
  refine List.ext_getElem? fun j => ?_
  by_cases hj : j < 256
  · rw [getElem?_beBytes hj, div_or_twoPow, List.getElem?_set]
    by_cases hsame : 255 - b / 8 = j
    · rw [if_pos hsame, if_pos (by rw [length_beBytes]; omega), if_pos (by omega)]
      rw [show 256 - 1 - j = b / 8 by omega]
    · rw [if_neg hsame, if_neg (by omega), getElem?_beBytes hj]
  · rw [List.getElem?_eq_none (by rw [List.length_set, length_beBytes]; omega),
      List.getElem?_eq_none (by rw [length_beBytes]; omega)]

/-! ## Runs -/

variable {s : Ram} {bloom h entry n : Nat} {v : Bloom}

theorem getD_load {m : ByteMap} {p n i : Nat} (hi : i < n) : (m.load p n).getD i 0 = m (p + i) := by
  rw [List.getD_eq_getElem?_getD, ByteMap.getElem?_load hi]
  rfl

theorem setBloomBit_run {hash : Hash} {idx : Nat} (hv : s.bytes.load bloom 256 = v.bytes)
    (hh : s.bytes.load h 32 = hashBytes hash) (hidx : idx + 1 < 32) :
    ∃ s', setBloomBit bloom h idx s = .ok () s' ∧ s'.heapPtr = s.heapPtr ∧
      s'.bytes.load bloom 256 = Bloom.bytes (v ||| BitVec.twoPow 2048 (bloomBit hash idx)) ∧
        ∀ q, q < bloom ∨ bloom + 256 ≤ q → s'.bytes q = s.bytes q := by
  have hbit : ((s.bytes (h + idx)).toNat <<< 8 ||| (s.bytes (h + idx + 1)).toNat) &&& 2047 =
      bloomBit hash idx := by
    unfold bloomBit
    rw [← hh, getD_load (by omega), getD_load hidx, Nat.add_assoc]
  have hlt : bloomBit hash idx < 2048 := Nat.lt_of_le_of_lt Nat.and_le_right (by decide)
  generalize bloomBit hash idx = b at hbit hlt
  have hindex : (2047 - b) >>> 3 < 256 := by
    rw [Nat.shiftRight_eq_div_pow]
    omega
  have hold : (s.bytes (bloom + (2047 - b) >>> 3)).toNat = v.toNat / 256 ^ (b / 8) % 256 := by
    have hget := ByteMap.getElem?_load (m := s.bytes) (p := bloom) hindex
    rw [hv, Bloom.bytes, getElem?_beBytes hindex] at hget
    rw [← Option.some.inj hget, UInt8.toNat_ofNat', Nat.mod_mod, Nat.shiftRight_eq_div_pow]
    rw [show 256 - 1 - (2047 - b) / 2 ^ 3 = b / 8 by omega]
  refine ⟨s.put (bloom + (2047 - b) >>> 3) [UInt8.ofNat (v.toNat / 256 ^ (b / 8) % 256 |||
    1 <<< (7 - ((2047 - b) &&& 7)))], ?_, rfl, ?_, fun q hq => ByteMap.store_off ?_⟩
  · unfold setBloomBit
    rw [bind_run_ok (ld8_run s _), bind_run_ok (ld8_run s _), hbit, bind_run_ok (ld8_run s _), hold]
    rfl
  · rw [put_bytes, load_store_single hindex, hv, set_bloom_bytes v hlt]
  · rw [List.length_singleton]
    omega

theorem setBloomBits_run {hash : Hash} (idxs : List Nat) (hv : s.bytes.load bloom 256 = v.bytes)
    (hh : s.bytes.load h 32 = hashBytes hash) (hidxs : ∀ idx ∈ idxs, idx + 1 < 32)
    (hbehind : bloom + 256 ≤ h) :
    ∃ s', forM idxs (fun idx => setBloomBit bloom h idx) s = .ok () s' ∧ s'.heapPtr = s.heapPtr ∧
      s'.bytes.load bloom 256 =
        Bloom.bytes (idxs.foldl (fun v idx => v ||| BitVec.twoPow 2048 (bloomBit hash idx)) v) ∧
        ByteMap.SameBelow bloom s.bytes s'.bytes := by
  induction idxs generalizing s v with
  | nil => exact ⟨s, rfl, rfl, hv, .refl _ _⟩
  | cons idx idxs ih =>
    obtain ⟨s₁, hrun, hheap, hv₁, hsame⟩ :=
      setBloomBit_run hv hh (hidxs idx List.mem_cons_self)
    have hh₁ : s₁.bytes.load h 32 = hashBytes hash := by
      rw [← hh]
      exact ByteMap.load_congr fun i _ => hsame (h + i) (by omega)
    obtain ⟨s₂, hrun', hheap', hv₂, hsame'⟩ :=
      ih hv₁ hh₁ fun idx hmem => hidxs idx (List.mem_cons_of_mem _ hmem)
    refine ⟨s₂, ?_, hheap'.trans hheap, hv₂, ?_⟩
    · rw [List.forM_cons, bind_run_ok hrun, hrun']
    · exact ByteMap.SameBelow.trans (fun q hq => hsame q (.inl hq)) hsame'

/-- An entry is united with the filter, unless the heap is full. -/
theorem addToBloom_run [Keccak] (entry n : Nat) (hv : s.bytes.load bloom 256 = v.bytes)
    (hbloom : bloom + 256 ≤ s.heapPtr) :
    (∃ s', addToBloom bloom entry n s = .ok () s' ∧ s'.heapPtr = s.heapPtr ∧
      s'.bytes.load bloom 256 = Bloom.bytes (v ||| entryBloom (s.bytes.load entry n)) ∧
        ByteMap.SameBelow bloom s.bytes s'.bytes) ∨
      Ram.heapEnd < s.heapPtr + 39 ∧ ∃ s', addToBloom bloom entry n s = .error (.trap 1) s' := by
  unfold addToBloom
  rw [bind_run_ok (heapMark_run s)]
  rcases alloc_cases 32 s with ⟨q, -, -, -, halloc⟩ | ⟨hfull, halloc⟩
  case inr => exact .inr ⟨hfull, s, bind_run_error halloc⟩
  left
  have hhash := ByteMap.load_store_self s.bytes s.heapPtr
    (hashBytes (keccak256 (s.bytes.load entry n)))
  rw [length_hashBytes] at hhash
  rw [bind_run_ok halloc, bind_run_ok (keccakAt_run _ _ _ _)]
  have hsame : ByteMap.SameBelow s.heapPtr s.bytes
      (s.bytes.store s.heapPtr (hashBytes (keccak256 (s.bytes.load entry n)))) :=
    ByteMap.sameBelow_store (Nat.le_refl _)
  obtain ⟨s₁, hrun, -, hv₁, hsame₁⟩ := setBloomBits_run
    (s := (Ram.mk s.bytes q).put s.heapPtr (hashBytes (keccak256 (s.bytes.load entry n))))
    [0, 2, 4] ((hsame.load hbloom).trans hv) hhash (by decide) hbloom
  refine ⟨{ s₁ with heapPtr := s.heapPtr }, by rw [bind_run_ok hrun]; rfl, rfl, ?_, ?_⟩
  · rw [hv₁]
    simp only [List.foldl_cons, List.foldl_nil, entryBloom, BitVec.or_assoc]
  · exact (hsame.mono (by omega)).trans hsame₁

end StatelessGuest
