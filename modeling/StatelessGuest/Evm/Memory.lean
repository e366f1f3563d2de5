import StatelessGuest.Evm.Frame
import StatelessGuest.Evm.Saturation

/-!
# What memory costs

The cost of a memory and the length its ranges need, over the naturals, and the words the guest
computes for them. The words are exact as long as the memory stays below `memBound`; from there
on the square of the word count leaves the word and the charge is `wordMax`.

* `growth`: the cost and the growth of a memory as words, or `wordMax`.
* `extendMemoryCostAt_eq`, `extendMemoryCost2_run`: the guest computes the growth.
* `MemBlock`: a memory in the arena of the frames, with its capacity.
-/

namespace StatelessGuest

open Lib

/-! ## Costs and lengths -/

/-- The cost of a memory. -/
def memCost (len : Nat) : Nat :=
  let words := (len + 31) / 32
  3 * words + words ^ 2 / 512

/-- A range of the memory, as the operands of an instruction name it. -/
structure MemRange where
  start : U256
  size : U256

/-- The memory a range needs: none when it is empty. -/
def MemRange.need (r : MemRange) : Nat :=
  if r.size = 0 then 0 else roundUp (r.start.toNat + r.size.toNat)

/-- The length of a memory that covers the ranges. -/
def coverLen (len : Nat) (rs : List MemRange) : Nat := rs.foldl (fun l r => max l r.need) len

/-- What the ranges add to the cost of a memory. -/
def extensionCost (len : Nat) (rs : List MemRange) : Nat := memCost (coverLen len rs) - memCost len

/-- The square of the word count of a memory below this length fits a word. -/
def memBound : Nat := 2 ^ 37

/-- The cost of a memory of `memBound` bytes. -/
def costBound : Nat := memCost memBound

theorem costBound_eq : costBound = 2 ^ 55 + 3 * 2 ^ 32 := by decide

theorem memCost_zero : memCost 0 = 0 := rfl

theorem memCost_mono {a b : Nat} (h : a ≤ b) : memCost a ≤ memCost b := by
  have hwords : (a + 31) / 32 ≤ (b + 31) / 32 := Nat.div_le_div_right (by omega)
  have hsq : ((a + 31) / 32) ^ 2 / 512 ≤ ((b + 31) / 32) ^ 2 / 512 :=
    Nat.div_le_div_right (Nat.pow_le_pow_left hwords 2)
  unfold memCost
  dsimp only
  omega

theorem memCost_lt {len : Nat} (h : len < memBound) : memCost len < 2 ^ 56 :=
  Nat.lt_of_le_of_lt (memCost_mono (Nat.le_of_lt h)) (by decide)

theorem le_coverLen (len : Nat) (rs : List MemRange) : len ≤ coverLen len rs := by
  induction rs generalizing len with
  | nil => exact Nat.le_refl len
  | cons r rs ih => exact (Nat.le_max_left len r.need).trans (ih _)

theorem need_le_coverLen {r : MemRange} {rs : List MemRange} (h : r ∈ rs) (len : Nat) :
    r.need ≤ coverLen len rs := by
  induction rs generalizing len with
  | nil => cases h
  | cons s rs ih =>
    obtain rfl | hmem := List.mem_cons.mp h
    · exact (Nat.le_max_right len r.need).trans (le_coverLen _ rs)
    · exact ih hmem _

theorem dvd_roundUp (n : Nat) : 32 ∣ roundUp n := Nat.dvd_mul_right _ _

theorem le_roundUp (n : Nat) : n ≤ roundUp n := by
  unfold roundUp
  omega

theorem dvd_need (r : MemRange) : 32 ∣ r.need := by
  unfold MemRange.need
  split
  · exact Nat.dvd_zero 32
  · exact dvd_roundUp _

theorem dvd_max {a b : Nat} (ha : 32 ∣ a) (hb : 32 ∣ b) : 32 ∣ max a b := by
  obtain h | h := max_choice a b
  · rwa [h]
  · rwa [h]

theorem dvd_coverLen {len : Nat} (h : 32 ∣ len) (rs : List MemRange) : 32 ∣ coverLen len rs := by
  induction rs generalizing len with
  | nil => exact h
  | cons r rs ih => exact ih (dvd_max h (dvd_need r))

/-- A range that is not empty lies inside a memory that covers it. -/
theorem end_le_coverLen {r : MemRange} {rs : List MemRange} (h : r ∈ rs) (len : Nat)
    (hsize : r.size ≠ 0) : r.start.toNat + r.size.toNat ≤ coverLen len rs := by
  have hneed := need_le_coverLen h len
  rw [MemRange.need, if_neg hsize] at hneed
  exact (le_roundUp _).trans hneed

/-! ## The words of the guest -/

theorem memoryGasCost_toNat {size : Word} (h : (size.toNat + 31) / 32 < 2 ^ 32) :
    (memoryGasCost size).toNat = memCost size.toNat := by
  have hw : (wordsOf size).toNat = (size.toNat + 31) / 32 := by
    rw [wordsOf_toNat]
    omega
  have hsq : (wordsOf size).toNat * (wordsOf size).toNat < 2 ^ 64 := by
    rw [hw]
    exact Nat.lt_of_lt_of_le (Nat.mul_self_lt_mul_self h) (by decide)
  have hhigh : (mul64x64 (wordsOf size) (wordsOf size)).2 = 0 := by
    unfold mul64x64
    dsimp only
    rw [Nat.div_eq_of_lt hsq]
    rfl
  have hlow : ((mul64x64 (wordsOf size) (wordsOf size)).1 >>> 9).toNat =
      ((size.toNat + 31) / 32) ^ 2 / 512 := by
    unfold mul64x64
    dsimp only
    rw [BitVec.toNat_ushiftRight, Nat.shiftRight_eq_div_pow, BitVec.toNat_mul,
      Nat.mod_eq_of_lt hsq, hw, Nat.pow_two]
  have hlin : (wordsOf size * gMemoryPerWord).toNat = 3 * ((size.toNat + 31) / 32) := by
    have hper : gMemoryPerWord.toNat = 3 := rfl
    rw [BitVec.toNat_mul, hw, hper]
    omega
  have hquad : ((size.toNat + 31) / 32) ^ 2 / 512 < 2 ^ 55 := by
    rw [← hw, Nat.pow_two]
    exact Nat.div_lt_of_lt_mul (Nat.lt_of_lt_of_le hsq (by decide))
  unfold memoryGasCost memCost
  dsimp only
  rw [if_neg (not_not.mpr hhigh), addSat_toNat, hlow, hlin]
  omega

/-- The square of the word count overflows. -/
theorem memoryGasCost_max {size : Word} (h : 2 ^ 32 ≤ (size.toNat + 31) / 32) :
    memoryGasCost size = wordMax := by
  have hw : 2 ^ 32 ≤ (wordsOf size).toNat := by
    rw [wordsOf_toNat]
    omega
  have hlt := wordsOf_lt size
  have hlow : 2 ^ 64 ≤ (wordsOf size).toNat * (wordsOf size).toNat :=
    Nat.le_trans (by decide) (Nat.mul_self_le_mul_self hw)
  have hup : (wordsOf size).toNat * (wordsOf size).toNat < 2 ^ 118 :=
    Nat.lt_of_lt_of_le (Nat.mul_self_lt_mul_self hlt) (by decide)
  have hhigh : (mul64x64 (wordsOf size) (wordsOf size)).2 ≠ 0 := by
    unfold mul64x64
    dsimp only
    intro hzero
    have hdiv := congrArg BitVec.toNat hzero
    rw [BitVec.toNat_ofNat] at hdiv
    have hzero' : (0 : Word).toNat = 0 := rfl
    omega
  unfold memoryGasCost
  exact if_pos hhigh

/-- The cost and the growth of a memory from `len` to `new` bytes. -/
def growth (len new : Nat) : Word × Word :=
  if new < memBound then (BitVec.ofNat 64 (memCost new - memCost len), BitVec.ofNat 64 (new - len))
  else (wordMax, 0)

theorem growth_lt {len new : Nat} (h : new < memBound) :
    growth len new =
      (BitVec.ofNat 64 (memCost new - memCost len), BitVec.ofNat 64 (new - len)) := if_pos h

theorem growth_max {len new : Nat} (h : memBound ≤ new) : growth len new = (wordMax, 0) :=
  if_neg (Nat.not_lt.mpr h)

theorem growth_self {len : Nat} (h : len < memBound) : growth len len = (0, 0) := by
  rw [growth_lt h, Nat.sub_self, Nat.sub_self]
  rfl

/-- The cost of a growth below the bound. -/
theorem growth_cost_toNat (len : Nat) {new : Nat} (h : new < memBound) :
    (growth len new).1.toNat = memCost new - memCost len := by
  have hcost := memCost_lt h
  rw [growth_lt h]
  dsimp only
  rw [BitVec.toNat_ofNat, Nat.mod_eq_of_lt (by omega)]

theorem growth_len_toNat (len : Nat) {new : Nat} (h : new < memBound) :
    (growth len new).2.toNat = new - len := by
  unfold memBound at h
  rw [growth_lt h]
  dsimp only
  rw [BitVec.toNat_ofNat, Nat.mod_eq_of_lt (by omega)]

theorem growth_cost_ne {len new : Nat} (h : new < memBound) : (growth len new).1 ≠ wordMax := by
  intro heq
  have hcost := growth_cost_toNat len h
  have hlt := memCost_lt h
  rw [heq, wordMax_toNat] at hcost
  omega

/-- The end of a range, as the guest computes it. -/
theorem endp_toNat (r : MemRange) : (addSat (satWord r.start) (satWord r.size)).toNat =
    min (r.start.toNat + r.size.toNat) (2 ^ 64 - 1) := by
  rw [addSat_toNat, satWord_toNat, satWord_toNat]
  omega

theorem extendMemoryCostAt_eq {len : Nat} (hdvd : 32 ∣ len) (hlen : len < memBound)
    (r : MemRange) : extendMemoryCostAt (BitVec.ofNat 64 len) r.start r.size =
      growth len (max len r.need) := by
  have hbound : memBound = 2 ^ 37 := rfl
  have hcur : (BitVec.ofNat 64 len).toNat = len := by
    rw [BitVec.toNat_ofNat, Nat.mod_eq_of_lt (by omega)]
  have hround : roundUp len = len := by
    unfold roundUp
    omega
  have hbefore : (ceil32 (BitVec.ofNat 64 len)).toNat = len := by
    rw [ceil32_toNat, hcur, hround]
    omega
  unfold extendMemoryCostAt MemRange.need
  dsimp only
  by_cases hsize : r.size = 0
  · rw [if_pos hsize, if_pos hsize, Nat.max_zero, growth_self hlen]
  rw [if_neg hsize, if_neg hsize]
  have hend := endp_toNat r
  have hle := le_roundUp (r.start.toNat + r.size.toNat)
  by_cases hmax : addSat (satWord r.start) (satWord r.size) = wordMax
  · rw [hmax, wordMax_toNat] at hend
    rw [if_pos hmax, growth_max (by omega)]
  rw [if_neg hmax]
  have hne : (addSat (satWord r.start) (satWord r.size)).toNat ≠ 2 ^ 64 - 1 :=
    fun h => hmax (BitVec.eq_of_toNat_eq (h.trans wordMax_toNat.symm))
  have hafter : (ceil32 (addSat (satWord r.start) (satWord r.size))).toNat =
      min (roundUp (r.start.toNat + r.size.toNat)) (2 ^ 64 - 1) := by
    rw [ceil32_toNat, hend, min_eq_left (a := r.start.toNat + r.size.toNat) (by omega)]
  have hdvd' := dvd_roundUp (r.start.toNat + r.size.toNat)
  generalize hneed : roundUp (r.start.toNat + r.size.toNat) = need at *
  by_cases hcover : ceil32 (addSat (satWord r.start) (satWord r.size)) ≤
      ceil32 (BitVec.ofNat 64 len)
  · rw [if_pos hcover]
    have hcover' := BitVec.le_def.mp hcover
    rw [hafter, hbefore] at hcover'
    rw [max_eq_left (by omega), growth_self hlen]
  rw [if_neg hcover]
  have hcover' := BitVec.le_def.not.mp hcover
  rw [hafter, hbefore] at hcover'
  rw [max_eq_right (by omega)]
  by_cases hneedLt : need < memBound
  · have hcost : (memoryGasCost (ceil32 (addSat (satWord r.start) (satWord r.size)))).toNat =
        memCost need := by
      rw [memoryGasCost_toNat (by omega), hafter, min_eq_left (by omega)]
    have hcost' : (memoryGasCost (ceil32 (BitVec.ofNat 64 len))).toNat = memCost len := by
      rw [memoryGasCost_toNat (by omega), hbefore]
    have hlt := memCost_lt hneedLt
    have hmono : memCost len ≤ memCost need := memCost_mono (by omega)
    have hsub := growth_cost_toNat len hneedLt
    have hgrow := growth_len_toNat len hneedLt
    rw [if_neg fun h => by rw [h, wordMax_toNat] at hcost; omega]
    refine Prod.ext (BitVec.eq_of_toNat_eq ?_) (BitVec.eq_of_toNat_eq ?_)
    · rw [hsub, BitVec.toNat_sub_of_le, hcost, hcost']
      rwa [BitVec.le_def, hcost, hcost']
    · rw [hgrow, BitVec.toNat_sub_of_le, hafter, hbefore]
      · omega
      · rw [BitVec.le_def, hafter, hbefore]
        omega
  · rw [memoryGasCost_max (by omega), if_pos rfl, growth_max (by omega)]

/-! ## The memory of a frame -/

/-- A frame whose memory is whole words, its cost and the gas left below the cost bound. -/
structure Frame.Sound (e : Frame) : Prop where
  aligned : 32 ∣ e.mem.length
  paid : e.gasLeft.toNat + memCost e.mem.length < costBound

theorem Frame.Sound.length_lt {e : Frame} (h : e.Sound) : e.mem.length < memBound := by
  by_contra hge
  have hcost : costBound ≤ memCost e.mem.length := memCost_mono (Nat.not_lt.mp hge)
  have hpaid := h.paid
  omega

theorem extendMemoryCost1_run {c : Ctx} (h : c.ev.Sound) (r : MemRange) :
    extendMemoryCost1 r.start r.size c =
      .ok (growth c.ev.mem.length (coverLen c.ev.mem.length [r])) c := by
  have hat := extendMemoryCostAt_eq h.aligned h.length_lt r
  change EStateM.Result.ok (extendMemoryCostAt c.ev.memLen r.start r.size) c = _
  rw [Frame.memLen, hat]
  rfl

/-- The second range is measured against the memory the first one leaves. -/
theorem extendMemoryCost2_run {c : Ctx} (h : c.ev.Sound) (r s : MemRange) :
    extendMemoryCost2 r.start r.size s.start s.size c =
      .ok (growth c.ev.mem.length (coverLen c.ev.mem.length [r, s])) c := by
  have hlt := h.length_lt
  have hfirst := extendMemoryCostAt_eq h.aligned hlt r
  unfold extendMemoryCost2
  rw [bind_run_ok (show getEv c = .ok c.ev c from rfl)]
  simp only [Frame.memLen, hfirst, coverLen, List.foldl_cons, List.foldl_nil]
  have hdvd := dvd_max h.aligned (dvd_need r)
  have hmono : c.ev.mem.length ≤ max c.ev.mem.length r.need := Nat.le_max_left _ _
  generalize max c.ev.mem.length r.need = mid at *
  have hmono' : mid ≤ max mid s.need := Nat.le_max_left _ _
  by_cases hmid : mid < memBound
  · have hsecond := extendMemoryCostAt_eq hdvd hmid s
    have hcur : BitVec.ofNat 64 c.ev.mem.length + (growth c.ev.mem.length mid).2 =
        BitVec.ofNat 64 mid := by
      rw [growth_lt hmid]
      dsimp only
      rw [← BitVec.ofNat_add, Nat.add_sub_cancel' hmono]
    rw [if_neg (growth_cost_ne hmid), hcur, hsecond]
    generalize max mid s.need = new at *
    by_cases hnew : new < memBound
    · have hcost := memCost_mono hmono
      have hcost' := memCost_mono hmono'
      have hcosts : memCost mid - memCost c.ev.mem.length + (memCost new - memCost mid) =
          memCost new - memCost c.ev.mem.length := by omega
      have hlens : mid - c.ev.mem.length + (new - mid) = new - c.ev.mem.length := by omega
      rw [if_neg (growth_cost_ne hnew), growth_lt hmid, growth_lt hnew, growth_lt hnew]
      dsimp only
      rw [← BitVec.ofNat_add, ← BitVec.ofNat_add, hcosts, hlens]
      rfl
    · rw [growth_max (Nat.not_lt.mp hnew), growth_max (Nat.not_lt.mp hnew), if_pos rfl]
      rfl
  · rw [growth_max (Nat.not_lt.mp hmid), if_pos rfl,
      growth_max (Nat.le_trans (Nat.not_lt.mp hmid) hmono')]
    rfl

/-! ## Memory in the arena -/

/-- A memory as the frame keeps it: the bytes from `EV_MEM` on, of which the first `cap` are the
frame's own and the first `len` its memory. -/
structure MemBlock where
  bytes : Nat → UInt8
  len : Word
  cap : Word

/-- `n` bytes from `off` on become zero. -/
def memzero (bytes : Nat → UInt8) (off n : Nat) : Nat → UInt8 :=
  fun i => if off ≤ i ∧ i < off + n then 0 else bytes i

/-- The bytes of `bs` are copied to `off`. -/
def memcpy (bytes : Nat → UInt8) (off : Nat) (bs : Bytes) : Nat → UInt8 :=
  fun i => if off ≤ i then (bs[i - off]?).getD (bytes i) else bytes i

namespace MemBlock

/-- The block of a fresh frame, over whatever the arena holds. -/
def fresh (bytes : Nat → UInt8) : MemBlock := ⟨bytes, 0, 1024⟩

/-- The capacity after a growth to `nlen` bytes; new capacity is allocated behind the block. -/
def grownCap (b : MemBlock) (nlen : Word) : Word :=
  if b.cap < nlen then
    let ncap := b.cap * 2
    if ncap < nlen then nlen + 1024 else ncap
  else b.cap

def extendMemory (b : MemBlock) (expandBy : Word) : MemBlock :=
  if expandBy = 0 then b
  else
    let nlen := b.len + expandBy
    let ncap := b.grownCap nlen
    let bytes := memzero b.bytes b.cap.toNat (ncap - b.cap).toNat
    ⟨memzero bytes b.len.toNat expandBy.toNat, nlen, ncap⟩

/-- The `n` bytes at `MEM_PTR(s)`. -/
def read (b : MemBlock) (s n : Nat) : Bytes := (List.range n).map fun i => b.bytes (s + i)

/-- Bytes written to `MEM_PTR(s)`. -/
def write (b : MemBlock) (s : Nat) (bs : Bytes) : MemBlock :=
  { b with bytes := memcpy b.bytes s bs }

/-- The block holds a memory, within its capacity. -/
structure Holds (b : MemBlock) (mem : Bytes) : Prop where
  bytes : b.read 0 mem.length = mem
  len : b.len.toNat = mem.length
  le_cap : mem.length ≤ b.cap.toNat
  cap_lt : b.cap.toNat < 2 ^ 39

theorem holds_fresh (bytes : Nat → UInt8) : (fresh bytes).Holds [] :=
  ⟨rfl, rfl, Nat.zero_le _, show (1024 : Word).toNat < 2 ^ 39 by decide⟩

@[simp] theorem length_read (b : MemBlock) (s n : Nat) : (b.read s n).length = n := by
  simp [read]

theorem getElem_read {b : MemBlock} {s n i : Nat} (h : i < (b.read s n).length) :
    (b.read s n)[i] = b.bytes (s + i) := by
  simp [read]

theorem Holds.byte {b : MemBlock} {mem : Bytes} (h : b.Holds mem) {i : Nat} (hi : i < mem.length) :
    b.bytes i = mem[i] := by
  have hread := getElem_read (b := b) (s := 0) (n := mem.length) (i := i) (by simpa using hi)
  rw [Nat.zero_add] at hread
  rw [← hread]
  exact List.getElem_of_eq h.bytes _

/-- A block holds a memory when its bytes and its length agree with it. -/
theorem Holds.of_bytes {b : MemBlock} {mem : Bytes} (hbyte : ∀ i (hi : i < mem.length),
    b.bytes i = mem[i]) (hlen : b.len.toNat = mem.length) (hcap : mem.length ≤ b.cap.toNat)
    (hlt : b.cap.toNat < 2 ^ 39) : b.Holds mem := by
  refine ⟨List.ext_getElem (length_read b 0 _) fun i h₁ h₂ => ?_, hlen, hcap, hlt⟩
  rw [getElem_read, Nat.zero_add]
  exact hbyte i h₂

/-- A read inside the memory reads the memory. -/
theorem Holds.read {b : MemBlock} {mem : Bytes} (h : b.Holds mem) {s n : Nat}
    (hin : s + n ≤ mem.length) : b.read s n = (mem.drop s).take n := by
  refine List.ext_getElem ?_ fun i h₁ h₂ => ?_
  · rw [length_read, List.length_take, List.length_drop]
    omega
  · rw [length_read] at h₁
    rw [getElem_read, List.getElem_take, List.getElem_drop]
    exact h.byte (by omega)

/-- A write inside the memory changes that range of it. -/
theorem Holds.write {b : MemBlock} {mem : Bytes} (h : b.Holds mem) {s : Nat} {bs : Bytes}
    (hin : s + bs.length ≤ mem.length) :
    (b.write s bs).Holds (mem.take s ++ bs ++ mem.drop (s + bs.length)) := by
  have hlen : (mem.take s ++ bs ++ mem.drop (s + bs.length)).length = mem.length := by
    simp only [List.length_append, List.length_take, List.length_drop]
    omega
  refine .of_bytes (fun i hi => ?_) (h.len.trans hlen.symm) (hlen.le.trans h.le_cap) h.cap_lt
  have hi' : i < mem.length := hlen ▸ hi
  change memcpy b.bytes s bs i = _
  unfold memcpy
  by_cases hbefore : i < s
  · rw [if_neg (Nat.not_le.mpr hbefore), h.byte hi', List.getElem_append_left, List.getElem_append_left,
      List.getElem_take]
    · rw [List.length_take]
      omega
    · rw [List.length_append, List.length_take]
      omega
  rw [if_pos (Nat.not_lt.mp hbefore)]
  have htake : (mem.take s).length = s := by
    rw [List.length_take]
    omega
  by_cases hinside : i < s + bs.length
  · rw [List.getElem_append_left (by rw [List.length_append, htake]; omega),
      List.getElem_append_right (by omega)]
    simp only [htake]
    rw [List.getElem?_eq_getElem (by omega)]
    rfl
  · rw [List.getElem?_eq_none (by omega), List.getElem_append_right (by
      rw [List.length_append, htake]
      omega)]
    simp only [List.length_append, htake, List.getElem_drop, Option.getD_none]
    rw [h.byte hi']
    congr 1
    omega

/-- A growth appends zeros: what is new is zero and what was there stays. -/
theorem Holds.extendMemory {b : MemBlock} {mem : Bytes} (h : b.Holds mem) {k : Word}
    (hlt : mem.length + k.toNat < memBound) :
    (b.extendMemory k).Holds (mem ++ List.replicate k.toNat 0) := by
  have hbound : memBound = 2 ^ 37 := rfl
  have hcap := h.cap_lt
  have hle := h.le_cap
  unfold MemBlock.extendMemory
  by_cases hk : k = 0
  · rw [if_pos hk, hk]
    simpa using h
  rw [if_neg hk]
  dsimp only
  have hnlen : (b.len + k).toNat = mem.length + k.toNat := by
    rw [BitVec.toNat_add, h.len, Nat.mod_eq_of_lt (by omega)]
  have hdouble : (b.cap * 2).toNat = b.cap.toNat * 2 := by
    have htwo : (2 : Word).toNat = 2 := rfl
    rw [BitVec.toNat_mul, htwo]
    omega
  have hpad : (b.len + k + 1024).toNat = mem.length + k.toNat + 1024 := by
    have hroom : (1024 : Word).toNat = 1024 := rfl
    rw [BitVec.toNat_add, hnlen, hroom]
    omega
  have hgrown : b.cap.toNat ≤ (b.grownCap (b.len + k)).toNat ∧
      mem.length + k.toNat ≤ (b.grownCap (b.len + k)).toNat ∧
      (b.grownCap (b.len + k)).toNat < 2 ^ 39 := by
    unfold grownCap
    dsimp only
    split
    · next hover =>
      have hover' := BitVec.lt_def.mp hover
      split
      · next hsmall =>
        have hsmall' := BitVec.lt_def.mp hsmall
        omega
      · next hlarge =>
        have hlarge' := BitVec.lt_def.not.mp hlarge
        omega
    · next hfits =>
      have hfits' := BitVec.lt_def.not.mp hfits
      omega
  have hlen : (mem ++ List.replicate k.toNat (0 : UInt8)).length = mem.length + k.toNat := by
    rw [List.length_append, List.length_replicate]
  refine .of_bytes (fun i hi => ?_) (hnlen.trans hlen.symm) (hlen.le.trans hgrown.2.1) hgrown.2.2
  rw [hlen] at hi
  change memzero (memzero b.bytes _ _) _ _ i = _
  unfold memzero
  rw [h.len]
  by_cases hold : i < mem.length
  · rw [if_neg (by omega), if_neg (by omega), h.byte hold, List.getElem_append_left hold]
  · rw [if_pos (by omega), List.getElem_append_right (by omega), List.getElem_replicate]

end MemBlock

end StatelessGuest
