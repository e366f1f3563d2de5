import StatelessGuest.Evm.Arith
import StatelessGuest.Ram.Heap
import StatelessGuest.Rlp.Encode

/-!
# The RLP encoder in memory

The writers put an encoding at an address and return its length; the length functions predict it.

* `Puts`: a writer leaves the bytes of an encoding and nothing else.
* `puts_encodeBytes`, `puts_encodeWord`, `puts_listHeader`, `putU256_run`: the writers.
* `toNat_rlpBytesEncodedLen`, `toNat_rlpWordEncodedLen`, `toNat_txU256EncodedLen`: the lengths.
-/

namespace StatelessGuest

open Lib Ram

/-! ## Writers -/

/-- The low bytes of `v`, from the last address down. -/
def rlpPutBeAt (dst : Nat) : Nat → Nat → RamM Unit
  | _, 0 => return ()
  | v, n + 1 => do
    st8 (dst + n) v
    rlpPutBeAt dst (v / 256) n

def rlpWriteHeaderAt (dst base n : Nat) : RamM Nat :=
  if n ≤ 55 then do
    st8 dst (base + n)
    return 1
  else do
    let ll := rlpBeLen n
    st8 dst (base + 55 + ll)
    rlpPutBeAt (dst + 1) n ll
    return 1 + ll

/-- A string behind its header. -/
def rlpHeadedBytesAt (dst src n : Nat) : RamM Nat := do
  let h ← rlpWriteHeaderAt dst 128 n
  memcpy (dst + h) src n
  return h + n

def rlpEncodeBytesAt (dst src n : Nat) : RamM Nat :=
  if n = 1 then do
    let b ← Ram.ld8 src
    if b < 128 then do
      st8 dst b
      return 1
    else rlpHeadedBytesAt dst src n
  else rlpHeadedBytesAt dst src n

def rlpEncodeWordAt (dst : Nat) (w : Word) : RamM Nat :=
  if w = 0 then do
    st8 dst 128
    return 1
  else if w < 128 then do
    st8 dst w.toNat
    return 1
  else do
    let ll := rlpBeLen w.toNat
    st8 dst (128 + ll)
    rlpPutBeAt (dst + 1) w.toNat ll
    return 1 + ll

def rlpEncodeListHeaderAt (dst payloadLen : Nat) : RamM Nat := rlpWriteHeaderAt dst 192 payloadLen

/-- Limb `i` of an integer. -/
def u256Limb (v : U256) (i : Nat) : Word := (v >>> (64 * i)).setWidth 64

/-- The minimal big-endian form, from the first address up. -/
def u256ToBeMinAt (v : U256) (out : Nat) : RamM Nat := do
  let len := u256ByteLength v
  forM (List.range len) fun i => do
    let pos := len - 1 - i
    st8 (out + i) ((u256Limb v (pos / 8)).toNat >>> (pos % 8 * 8) % 256)
  return len

/-- The bytes go through a buffer at the end of the heap (`rlp_put_u256`, `tx_put_u256`). -/
def rlpPutU256At (dst : Nat) (v : U256) : RamM Nat := do
  let mark ← heapMark
  let tmp ← alloc 32
  let n ← u256ToBeMinAt v tmp
  let w ← rlpEncodeBytesAt dst tmp n
  heapRelease mark
  return w

def txPutU256At : Nat → U256 → RamM Nat := rlpPutU256At

/-! ## Lengths -/

def rlpHeaderLen (n : Word) : Word := if n ≤ 55 then 1 else 1 + BitVec.ofNat 64 (rlpBeLen n.toNat)

/-- The length of the encoding of `n` bytes whose first one is `firstByte`. -/
def rlpBytesEncodedLen (firstByte n : Word) : Word :=
  if n = 1 ∧ firstByte < 128 then 1 else rlpHeaderLen n + n

def rlpListHeaderLen (payloadLen : Word) : Word := rlpHeaderLen payloadLen

def rlpWordEncodedLen (w : Word) : Word :=
  if w < 128 then 1 else 1 + BitVec.ofNat 64 (rlpBeLen w.toNat)

def txU256EncodedLen (v : U256) : Word :=
  let n := u256ByteLength v
  if n = 0 then 1
  else if n = 1 ∧ u256Limb v 0 < 128 then 1
  else 1 + BitVec.ofNat 64 n

/-! ## What the writers leave -/

/-- A writer at `dst` leaves the bytes of an encoding and returns their number. -/
def Puts (x : RamM Nat) (s : Ram) (dst : Nat) (enc : Bytes) : Prop :=
  x s = .ok enc.length (s.put dst enc)

variable {s : Ram} {dst src n : Nat}

theorem put_put_cons (s : Ram) (dst : Nat) (b : UInt8) (bs : Bytes) :
    (s.put dst [b]).put (dst + 1) bs = s.put dst (b :: bs) :=
  (put_append s dst [b] bs).symm

theorem putBe_run (s : Ram) (dst v n : Nat) :
    rlpPutBeAt dst v n s = .ok () (s.put dst (beBytes n v)) := by
  induction n generalizing s v with
  | zero =>
    unfold rlpPutBeAt beBytes Ram.put
    rw [ByteMap.store_nil]
    rfl
  | succ n ih =>
    have hbyte : UInt8.ofNat v = UInt8.ofNat (v % 256) := by
      rw [← UInt8.toNat_inj]
      simp
    rw [rlpPutBeAt, bind_run_ok (st8_run s (dst + n) v), ih, beBytes, put_append, length_beBytes,
      hbyte]
    unfold Ram.put
    rw [ByteMap.store_comm (by rw [length_beBytes]; exact .inr (Nat.le_refl _))]

theorem puts_writeHeader (s : Ram) (dst base n : Nat) :
    Puts (rlpWriteHeaderAt dst base n) s dst (rlpWriteHeader base n) := by
  unfold Puts rlpWriteHeaderAt rlpWriteHeader
  split
  · rfl
  · rw [bind_run_ok (st8_run s dst _), bind_run_ok (putBe_run _ _ _ _), put_put_cons,
      List.length_cons, length_rlpBe, Nat.add_comm]
    rfl

theorem puts_listHeader (s : Ram) (dst n : Nat) :
    Puts (rlpEncodeListHeaderAt dst n) s dst (rlpEncodeListHeader n) :=
  puts_writeHeader s dst 192 n

/-- The source lies behind the header, or before the string. -/
theorem puts_headedBytes (h : dst + (rlpWriteHeader 128 n).length ≤ src ∨ src + n ≤ dst) :
    Puts (rlpHeadedBytesAt dst src n) s dst (rlpWriteHeader 128 n ++ s.bytes.load src n) := by
  have hhead := puts_writeHeader s dst 128 n
  have hread : (s.put dst (rlpWriteHeader 128 n)).bytes.load src n = s.bytes.load src n :=
    ByteMap.load_store_of_disjoint (by omega)
  unfold Puts rlpHeadedBytesAt
  rw [bind_run_ok hhead, bind_run_ok (memcpy_run (by omega)), hread, List.length_append,
    ByteMap.length_load, put_append]
  rfl

theorem rlpEncodeBytes_single (b : UInt8) :
    rlpEncodeBytes [b] = if b < 128 then [b] else rlpWriteHeader 128 1 ++ [b] := rfl

theorem rlpEncodeBytes_of_length_ne {bs : Bytes} (h : bs.length ≠ 1) :
    rlpEncodeBytes bs = rlpWriteHeader 128 bs.length ++ bs := by
  unfold rlpEncodeBytes
  split
  · exact absurd rfl h
  · rfl

/-- No byte of an empty string is read. -/
theorem puts_encodeBytes_nil (s : Ram) (dst src : Nat) :
    Puts (rlpEncodeBytesAt dst src 0) s dst (rlpEncodeBytes []) := by
  unfold Puts rlpEncodeBytesAt rlpHeadedBytesAt
  rw [if_neg (by decide), bind_run_ok (puts_writeHeader s dst 128 0),
    bind_run_ok (memcpy_run (by omega))]
  unfold Ram.put
  rw [ByteMap.load, ByteMap.store_nil]
  rfl

theorem puts_encodeBytes (h : dst + (rlpWriteHeader 128 n).length ≤ src ∨ src + n ≤ dst) :
    Puts (rlpEncodeBytesAt dst src n) s dst (rlpEncodeBytes (s.bytes.load src n)) := by
  have hheaded := puts_headedBytes (s := s) h
  unfold rlpEncodeBytesAt
  split
  · next hn =>
    subst hn
    have hload : s.bytes.load src 1 = [s.bytes src] := rfl
    rw [hload] at hheaded
    unfold Puts
    rw [bind_run_ok (ld8_run s src), hload, rlpEncodeBytes_single]
    by_cases hb : (s.bytes src).toNat < 128
    · rw [if_pos hb, if_pos (UInt8.lt_iff_toNat_lt.mpr hb), bind_run_ok (st8_run s dst _),
        UInt8.ofNat_toNat]
      rfl
    · rw [if_neg hb, if_neg fun hlt => hb (UInt8.lt_iff_toNat_lt.mp hlt)]
      exact hheaded
  · next hn =>
    rw [rlpEncodeBytes_of_length_ne (by rwa [ByteMap.length_load]), ByteMap.length_load]
    exact hheaded

theorem puts_encodeWord (s : Ram) (dst : Nat) (w : Word) :
    Puts (rlpEncodeWordAt dst w) s dst (rlpEncodeWord w.toNat) := by
  have hzero : w = 0 ↔ w.toNat = 0 := BitVec.toNat_inj.symm
  have hsmall : w < 128 ↔ w.toNat < 128 := Iff.rfl
  unfold Puts rlpEncodeWordAt rlpEncodeWord
  by_cases h0 : w = 0
  · rw [if_pos h0, if_pos (hzero.mp h0)]
    rfl
  rw [if_neg h0, if_neg fun h => h0 (hzero.mpr h)]
  by_cases h1 : w < 128
  · rw [if_pos h1, if_pos (hsmall.mp h1)]
    rfl
  · rw [if_neg h1, if_neg fun h => h1 (hsmall.mpr h), bind_run_ok (st8_run s dst _),
      bind_run_ok (putBe_run _ _ _ _), put_put_cons, List.length_cons, length_rlpBe, Nat.add_comm]
    rfl

/-! ## Integers of 256 bits -/

theorem u256ByteLength_eq (v : U256) : u256ByteLength v = rlpBeLen v.toNat := by
  unfold u256ByteLength u256BitLength
  split
  · next hv => rw [hv]; rfl
  · next hv =>
    have hne : v.toNat ≠ 0 := fun h => hv (BitVec.eq_of_toNat_eq h)
    have hlo := Nat.log2_self_le hne
    have hhi := Nat.lt_log2_self (n := v.toNat)
    generalize v.toNat.log2 = l at hlo hhi
    have hpow : ∀ n, 256 ^ n = 2 ^ (8 * n) := fun n => (Nat.pow_mul 2 8 n).symm
    have hlen : rlpBeLen v.toNat = l / 8 + 1 := by
      refine rlpBeLen_eq ?_ ?_
      · rw [hpow]
        exact (Nat.pow_le_pow_right (by decide) (Nat.mul_div_le l 8)).trans hlo
      · rw [hpow]
        exact Nat.lt_of_lt_of_le hhi (Nat.pow_le_pow_right (by decide) (by omega))
    rw [hlen, Nat.shiftRight_eq_div_pow]
    omega

/-- A byte of a limb is a byte of the integer. -/
theorem u256Limb_byte (v : U256) (pos : Nat) :
    (u256Limb v (pos / 8)).toNat >>> (pos % 8 * 8) % 256 = v.toNat / 256 ^ pos % 256 := by
  have hsplit : 2 ^ 64 = 2 ^ (pos % 8 * 8) * 2 ^ (64 - pos % 8 * 8) := by
    rw [← Nat.pow_add]
    congr 1
    omega
  have hdvd : 256 ∣ 2 ^ (64 - pos % 8 * 8) :=
    Nat.pow_dvd_pow 2 (show 8 ≤ 64 - pos % 8 * 8 by omega)
  have hpow : 2 ^ (64 * (pos / 8)) * 2 ^ (pos % 8 * 8) = 256 ^ pos := by
    rw [← Nat.pow_add, show 256 = 2 ^ 8 from rfl, ← Nat.pow_mul]
    congr 1
    omega
  unfold u256Limb
  rw [BitVec.toNat_setWidth, BitVec.toNat_ushiftRight, Nat.shiftRight_eq_div_pow,
    Nat.shiftRight_eq_div_pow, hsplit, Nat.mod_mul_right_div_self, Nat.mod_mod_of_dvd _ hdvd,
    Nat.div_div_eq_div_mul, hpow]

/-- Bytes stored one after the other. -/
theorem forM_st8_run {bs : Bytes} {f : Nat → Nat}
    (h : ∀ i < bs.length, bs[i]? = some (UInt8.ofNat (f i))) (s : Ram) (out : Nat) {k : Nat}
    (hk : k ≤ bs.length) : forM (List.range k) (fun i => st8 (out + i) (f i)) s =
      .ok () (s.put out (bs.take k)) := by
  induction k with
  | zero =>
    rw [List.take_zero]
    unfold Ram.put
    rw [ByteMap.store_nil]
    rfl
  | succ k ih =>
    rw [List.range_succ, List.forM_append, bind_run_ok (ih (by omega)), List.take_add_one,
      h k (by omega), Option.toList_some, put_append, List.length_take, Nat.min_eq_left (by omega)]
    rfl

theorem toBeMin_run (s : Ram) (v : U256) (out : Nat) :
    u256ToBeMinAt v out s = .ok (rlpBe v.toNat).length (s.put out (rlpBe v.toNat)) := by
  have hlen := length_rlpBe v.toNat
  have hbytes : ∀ i < (rlpBe v.toNat).length, (rlpBe v.toNat)[i]? = some (UInt8.ofNat
      ((u256Limb v ((u256ByteLength v - 1 - i) / 8)).toNat >>>
        ((u256ByteLength v - 1 - i) % 8 * 8) % 256)) := by
    intro i hi
    rw [u256Limb_byte, u256ByteLength_eq]
    exact getElem?_beBytes (by omega) _
  have hrun := forM_st8_run hbytes s out (Nat.le_refl _)
  rw [List.take_length, hlen, ← u256ByteLength_eq] at hrun
  unfold u256ToBeMinAt
  dsimp only
  rw [bind_run_ok hrun, hlen, u256ByteLength_eq]
  rfl

/-- The minimal form goes to the end of the heap, the string to `dst`, unless the heap is full. -/
theorem putU256_run (s : Ram) (v : U256)
    (h : dst + (rlpWriteHeader 128 (rlpBeLen v.toNat)).length ≤ s.heapPtr ∨
      s.heapPtr + rlpBeLen v.toNat ≤ dst) :
    rlpPutU256At dst v s = .ok (rlpPutU256 v).length
        ((s.put s.heapPtr (rlpBe v.toNat)).put dst (rlpPutU256 v)) ∨
      Ram.heapEnd < s.heapPtr + 39 ∧ rlpPutU256At dst v s = .error (.trap 1) s := by
  unfold rlpPutU256At
  rw [bind_run_ok (heapMark_run s)]
  rcases alloc_cases 32 s with ⟨q, -, -, -, halloc⟩ | ⟨hfull, halloc⟩
  · left
    rw [bind_run_ok halloc, bind_run_ok (toBeMin_run _ v s.heapPtr)]
    have hlen := length_rlpBe v.toNat
    have hread := ByteMap.load_store_self s.bytes s.heapPtr (rlpBe v.toNat)
    have hput : Puts (rlpEncodeBytesAt dst s.heapPtr (rlpBe v.toNat).length)
        ((Ram.mk s.bytes q).put s.heapPtr (rlpBe v.toNat)) dst _ := puts_encodeBytes (by rwa [hlen])
    rw [put_bytes, hread] at hput
    rw [bind_run_ok hput]
    rfl
  · exact .inr ⟨hfull, bind_run_error halloc⟩

/-! ## Lengths -/

theorem toNat_ofNat_rlpBeLen {n : Nat} (h : n < 2 ^ 256) :
    (BitVec.ofNat 64 (rlpBeLen n)).toNat = rlpBeLen n := by
  have hle : rlpBeLen n ≤ 32 := rlpBeLen_le (Nat.lt_of_lt_of_eq h (by decide))
  rw [BitVec.toNat_ofNat, Nat.mod_eq_of_lt (by omega)]

theorem length_rlpWriteHeader (base n : Nat) :
    (rlpWriteHeader base n).length = if n ≤ 55 then 1 else 1 + rlpBeLen n := by
  unfold rlpWriteHeader
  split
  · rfl
  · rw [List.length_cons, length_rlpBe, Nat.add_comm]

theorem toNat_rlpHeaderLen (base : Nat) (n : Word) :
    (rlpHeaderLen n).toNat = (rlpWriteHeader base n.toNat).length := by
  have hlt := n.isLt
  have hle : rlpBeLen n.toNat ≤ 8 := rlpBeLen_le hlt
  unfold rlpHeaderLen
  rw [length_rlpWriteHeader]
  by_cases h : n.toNat ≤ 55
  · rw [if_pos h, if_pos (show n ≤ 55 from h)]
    rfl
  · rw [if_neg h, if_neg (show ¬ n ≤ 55 from h), BitVec.toNat_add,
      toNat_ofNat_rlpBeLen (by omega)]
    exact Nat.mod_eq_of_lt (show 1 + rlpBeLen n.toNat < 2 ^ 64 by omega)

theorem toNat_rlpListHeaderLen (n : Word) :
    (rlpListHeaderLen n).toNat = (rlpEncodeListHeader n.toNat).length :=
  toNat_rlpHeaderLen 192 n

/-- The predicted length is that of the encoding, in words. -/
theorem rlpBytesEncodedLen_eq {bs : Bytes} {first : Word} (hlt : bs.length < 2 ^ 64)
    (hfirst : bs.length = 1 → first.toNat = (bs.headD 0).toNat) :
    rlpBytesEncodedLen first (BitVec.ofNat 64 bs.length) =
      BitVec.ofNat 64 (rlpEncodeBytes bs).length := by
  have hlen : (BitVec.ofNat 64 bs.length).toNat = bs.length := by
    rw [BitVec.toNat_ofNat, Nat.mod_eq_of_lt hlt]
  have hone : BitVec.ofNat 64 bs.length = 1 ↔ bs.length = 1 := by
    rw [← BitVec.toNat_inj, hlen]
    rfl
  have hheaded : rlpHeaderLen (BitVec.ofNat 64 bs.length) + BitVec.ofNat 64 bs.length =
      BitVec.ofNat 64 (rlpWriteHeader 128 bs.length ++ bs).length := by
    rw [List.length_append, BitVec.ofNat_add]
    congr 1
    refine BitVec.eq_of_toNat_eq ?_
    have hle := rlpBeLen_le (n := 8) hlt
    rw [toNat_rlpHeaderLen 128, hlen, BitVec.toNat_ofNat, length_rlpWriteHeader]
    split <;> omega
  unfold rlpBytesEncodedLen
  by_cases h : bs.length = 1
  · obtain ⟨b, rfl⟩ := List.length_eq_one_iff.mp h
    have hb : first < 128 ↔ b < 128 := by
      rw [BitVec.lt_def, hfirst rfl, UInt8.lt_iff_toNat_lt]
      rfl
    rw [rlpEncodeBytes_single]
    by_cases hsmall : b < 128
    · rw [if_pos ⟨rfl, hb.mpr hsmall⟩, if_pos hsmall]
      rfl
    · rw [if_neg fun hc => hsmall (hb.mp hc.2), if_neg hsmall]
      exact hheaded
  · rw [if_neg fun hc => h (hone.mp hc.1), rlpEncodeBytes_of_length_ne h]
    exact hheaded

theorem length_rlpEncodeWord (n : Nat) :
    (rlpEncodeWord n).length = if n < 128 then 1 else 1 + rlpBeLen n := by
  unfold rlpEncodeWord
  by_cases h0 : n = 0
  · rw [if_pos h0, if_pos (by omega)]
    rfl
  · rw [if_neg h0]
    split
    · rfl
    · rw [List.length_cons, length_rlpBe, Nat.add_comm]

theorem toNat_rlpWordEncodedLen (w : Word) :
    (rlpWordEncodedLen w).toNat = (rlpEncodeWord w.toNat).length := by
  have hlt := w.isLt
  have hle : rlpBeLen w.toNat ≤ 8 := rlpBeLen_le hlt
  unfold rlpWordEncodedLen
  rw [length_rlpEncodeWord]
  by_cases h : w.toNat < 128
  · rw [if_pos h, if_pos (show w < 128 from h)]
    rfl
  · rw [if_neg h, if_neg (show ¬ w < 128 from h), BitVec.toNat_add,
      toNat_ofNat_rlpBeLen (by omega)]
    exact Nat.mod_eq_of_lt (show 1 + rlpBeLen w.toNat < 2 ^ 64 by omega)

theorem rlpBe_of_len_one {n : Nat} (h : rlpBeLen n = 1) : rlpBe n = [UInt8.ofNat n] ∧ n < 256 := by
  have hlt := lt_rlpBeLen n
  rw [h, Nat.pow_one] at hlt
  unfold rlpBe
  rw [h]
  refine ⟨?_, hlt⟩
  change [UInt8.ofNat (n % 256)] = _
  rw [Nat.mod_eq_of_lt hlt]

/-- The length of an encoding of minimal bytes that fit a short string. -/
theorem length_rlpEncodeBytes_rlpBe {n : Nat} (h : rlpBeLen n ≤ 55) :
    (rlpEncodeBytes (rlpBe n)).length = if n < 128 then 1 else 1 + rlpBeLen n := by
  have hlen := length_rlpBe n
  by_cases hone : rlpBeLen n = 1
  · obtain ⟨hbe, hlt⟩ := rlpBe_of_len_one hone
    have hb : UInt8.ofNat n < 128 ↔ n < 128 := by
      rw [UInt8.lt_iff_toNat_lt, UInt8.toNat_ofNat', Nat.mod_eq_of_lt hlt]
      rfl
    rw [hbe, rlpEncodeBytes_single, hone]
    by_cases hsmall : n < 128
    · rw [if_pos (hb.mpr hsmall), if_pos hsmall]
      rfl
    · rw [if_neg fun hc => hsmall (hb.mp hc), if_neg hsmall]
      rfl
  · rw [rlpEncodeBytes_of_length_ne (by rwa [hlen]), List.length_append, hlen,
      length_rlpWriteHeader, if_pos h]
    by_cases hsmall : n < 128
    · have hle : rlpBeLen n ≤ 1 := rlpBeLen_le (by omega)
      rw [if_pos hsmall]
      omega
    · rw [if_neg hsmall]

theorem toNat_txU256EncodedLen (v : U256) :
    (txU256EncodedLen v).toNat = (rlpPutU256 v).length := by
  have hv := v.isLt
  have hle : rlpBeLen v.toNat ≤ 32 := rlpBeLen_le (Nat.lt_of_lt_of_eq hv (by decide))
  have hlt := lt_rlpBeLen v.toNat
  unfold txU256EncodedLen rlpPutU256
  rw [length_rlpEncodeBytes_rlpBe (by omega), u256ByteLength_eq]
  dsimp only
  by_cases hzero : rlpBeLen v.toNat = 0
  · rw [hzero, Nat.pow_zero] at hlt
    rw [if_pos hzero, if_pos (by omega)]
    rfl
  rw [if_neg hzero]
  have hlimb : rlpBeLen v.toNat = 1 → (u256Limb v 0 < 128 ↔ v.toNat < 128) := by
    intro hone
    rw [hone] at hlt
    unfold u256Limb
    rw [BitVec.lt_def, BitVec.toNat_setWidth, BitVec.toNat_ushiftRight, Nat.mul_zero,
      Nat.shiftRight_zero, Nat.mod_eq_of_lt (by omega)]
    rfl
  have hsmall : v.toNat < 128 → rlpBeLen v.toNat = 1 := by
    intro h
    have : rlpBeLen v.toNat ≤ 1 := rlpBeLen_le (by omega)
    omega
  by_cases hown : rlpBeLen v.toNat = 1 ∧ u256Limb v 0 < 128
  · rw [if_pos hown, if_pos ((hlimb hown.1).mp hown.2)]
    rfl
  · rw [if_neg hown, if_neg fun h => hown ⟨hsmall h, (hlimb (hsmall h)).mpr h⟩, BitVec.toNat_add,
      toNat_ofNat_rlpBeLen hv]
    exact Nat.mod_eq_of_lt (show 1 + rlpBeLen v.toNat < 2 ^ 64 by omega)

end StatelessGuest
