import StatelessGuest.Digest.Memory

/-!
# Runs of the memory operations

What loads, stores, copies and fills do where every byte they read may be read.

* `lds_run`, `st_run`, `ldLe64_run`, `stBe64_run`, ...
* `loopFrom_ends`: a loop by an invariant.
* `memcpy_run`, `memzero_run`.
-/

namespace StatelessGuest.Digest

open Lib Mem

variable [Stray] {s : Mem} {p n : Nat}

/-! ## Bytes and words -/

theorem ld8_run (h : s.readable p = true) :
    ld8 p s = .ok (BitVec.ofNat 64 (s.bytes p).toNat) s := by
  unfold ld8
  rw [bind_run_ok (get_run s), if_pos h]
  rfl

omit [Stray] in
theorem st8_run (p : Nat) (v : Word) (s : Mem) :
    st8 p v s = .ok () (s.put p (leBytes 1 v.toNat)) := rfl

theorem lds_run (hp : p % 8 = 0) (h : s.Reads p 8) :
    lds p s = .ok (wordOf (s.bytes.load p 8)) s := by
  unfold lds
  rw [bind_run_ok (get_run s), if_pos ⟨hp, h⟩]
  rfl

theorem st_run (hp : p % 8 = 0) (w : Word) (s : Mem) :
    st p w s = .ok () (s.put p (leBytes 8 w.toNat)) := by
  unfold st
  rw [if_pos hp]
  rfl

theorem ldLe32_run (h : s.Reads p 4) : ldLe32 p s = .ok (wordOf (s.bytes.load p 4)) s := by
  unfold ldLe32
  rw [bind_run_ok (ld8_run (show s.readable p = true from h 0 (by decide))),
    bind_run_ok (ld8_run (h 1 (by decide))), bind_run_ok (ld8_run (h 2 (by decide))),
    bind_run_ok (ld8_run (h 3 (by decide)))]
  have hbyte : ∀ q, wordOf [s.bytes q] = BitVec.ofNat 64 (s.bytes q).toNat := fun q => rfl
  have hload : s.bytes.load p 4 =
      (([s.bytes p] ++ [s.bytes (p + 1)]) ++ [s.bytes (p + 2)]) ++ [s.bytes (p + 3)] := rfl
  rw [hload, wordOf_append (by simp), wordOf_append (by simp), wordOf_append (by simp),
    hbyte, hbyte, hbyte, hbyte]
  rfl

theorem ldLe64_run (h : s.Reads p 8) : ldLe64 p s = .ok (wordOf (s.bytes.load p 8)) s := by
  unfold ldLe64
  rw [bind_run_ok (ldLe32_run (h.part (Nat.le_refl p) (by omega))),
    bind_run_ok (ldLe32_run (h.part (Nat.le_add_right p 4) (by omega))),
    ByteMap.load_add s.bytes p 4 4, wordOf_append (by simp), ByteMap.length_load]
  rfl

omit [Stray] in
theorem stLe32_run (p : Nat) (v : Word) (s : Mem) :
    stLe32 p v s = .ok () (s.put p (leBytes 4 v.toNat)) := by
  have hsplit : leBytes 4 v.toNat = leBytes 1 v.toNat ++ (leBytes 1 (v >>> 8).toNat ++
      (leBytes 1 (v >>> 16).toNat ++ leBytes 1 (v >>> 24).toNat)) := by
    rw [toNat_ushiftRight, toNat_ushiftRight, toNat_ushiftRight, leBytes_add 1 3,
      leBytes_add 1 2, leBytes_add 1 1, Nat.div_div_eq_div_mul, Nat.div_div_eq_div_mul]
    rfl
  unfold stLe32
  rw [bind_run_ok (st8_run _ _ _), bind_run_ok (st8_run _ _ _), bind_run_ok (st8_run _ _ _),
    st8_run, hsplit, put_append, put_append, put_append]
  rfl

omit [Stray] in
theorem stLe64_run (p : Nat) (v : Word) (s : Mem) :
    stLe64 p v s = .ok () (s.put p (leBytes 8 v.toNat)) := by
  have hhigh : leBytes 4 (v >>> 32).toNat = leBytes 4 (v.toNat / 256 ^ 4) := by
    rw [toNat_ushiftRight]
    rfl
  unfold stLe64
  rw [bind_run_ok (stLe32_run _ _ _), stLe32_run, hhigh, leBytes_add 4 4, put_append,
    length_leBytes]

omit [Stray] in
theorem stBe32_run (p : Nat) (v : Word) (s : Mem) :
    stBe32 p v s = .ok () (s.put p (beBytes 4 v.toNat)) := by
  have hsplit : beBytes 4 v.toNat = leBytes 1 (v >>> 24).toNat ++ (leBytes 1 (v >>> 16).toNat ++
      (leBytes 1 (v >>> 8).toNat ++ leBytes 1 v.toNat)) := by
    rw [toNat_ushiftRight, toNat_ushiftRight, toNat_ushiftRight, beBytes_eq_reverse,
      leBytes_add 1 3, leBytes_add 1 2, leBytes_add 1 1, Nat.div_div_eq_div_mul,
      Nat.div_div_eq_div_mul]
    rfl
  unfold stBe32
  rw [bind_run_ok (st8_run _ _ _), bind_run_ok (st8_run _ _ _), bind_run_ok (st8_run _ _ _),
    st8_run, hsplit, put_append, put_append, put_append]
  rfl

omit [Stray] in
theorem leBytes_bswap64 (v : Word) : leBytes 8 (bswap64 v).toNat = beBytes 8 v.toNat := by
  rw [beBytes_eq_reverse]
  refine List.ext_getElem? fun j => ?_
  by_cases hj : j < 8
  · rw [List.getElem?_reverse (by rwa [length_leBytes]), length_leBytes, getElem?_leBytes hj,
      getElem?_leBytes (by omega), show 8 - 1 - j = 7 - j by omega]
    exact congrArg some (byte_eq_of_bits fun b hb => getLsbD_bswap64 hj hb)
  · rw [List.getElem?_eq_none (by rw [length_leBytes]; omega),
      List.getElem?_eq_none (by rw [List.length_reverse, length_leBytes]; omega)]

theorem stBe64_run (p : Nat) (v : Word) (s : Mem) :
    stBe64 p v s = .ok () (s.put p (beBytes 8 v.toNat)) := by
  unfold stBe64
  by_cases hp : p &&& 7 = 0
  · rw [if_pos hp, ← leBytes_bswap64]
    rw [Nat.and_two_pow_sub_one_eq_mod p 3] at hp
    exact st_run hp _ s
  · have hhigh : beBytes 8 v.toNat = beBytes 4 (v >>> 32).toNat ++ beBytes 4 v.toNat := by
      rw [toNat_ushiftRight, beBytes_eq_reverse, beBytes_eq_reverse, beBytes_eq_reverse,
        leBytes_add 4 4, List.reverse_append]
      rfl
    rw [if_neg hp, bind_run_ok (stBe32_run _ _ _), stBe32_run, hhigh, put_append,
      length_beBytes]

theorem foreignCall_run (f : Bytes → Bytes) (h : s.Reads p n) :
    foreignCall f p n s = .ok () (s.put p (f (s.bytes.load p n))) := by
  unfold foreignCall
  rw [bind_run_ok (get_run s), if_pos h]
  rfl

/-! ## Loops -/

omit [Stray] in
/-- A loop of `c` rounds keeps what each of them keeps. -/
theorem loopFrom_ends (go : Nat → Bool) (step : Nat) (body : Nat → MemM Unit) {i c fuel : Nat}
    (holds : Nat → Mem → Prop) (hs : holds 0 s) (hgo : ∀ k < c, go (i + k * step) = true)
    (hend : go (i + c * step) = false) (hfuel : c ≤ fuel)
    (hbody : ∀ k < c, ∀ t, holds k t →
      ∃ t', body (i + k * step) t = .ok () t' ∧ holds (k + 1) t') :
    ∃ s', loopFrom go step body fuel i s = .ok (i + c * step) s' ∧ holds c s' := by
  induction c generalizing i fuel s holds with
  | zero =>
    rw [Nat.zero_mul, Nat.add_zero] at hend
    refine ⟨s, ?_, hs⟩
    cases fuel with
    | zero => rw [Nat.zero_mul]; rfl
    | succ fuel =>
      rw [loopFrom, hend, if_neg Bool.false_ne_true, Nat.zero_mul]
      rfl
  | succ c ih =>
    obtain ⟨fuel, rfl⟩ : ∃ k, fuel = k + 1 := ⟨fuel - 1, by omega⟩
    have hfirst := hgo 0 (Nat.succ_pos c)
    rw [Nat.zero_mul, Nat.add_zero] at hfirst
    obtain ⟨t, hrun, ht⟩ := hbody 0 (Nat.succ_pos c) s hs
    rw [Nat.zero_mul, Nat.add_zero] at hrun
    have hshift : ∀ k, i + step + k * step = i + (k + 1) * step := by
      intro k
      rw [Nat.succ_mul]
      omega
    obtain ⟨s', hloop, hs'⟩ := ih (i := i + step) (fun k => holds (k + 1)) ht
      (fun k hk => by rw [hshift]; exact hgo (k + 1) (by omega)) (by rw [hshift]; exact hend)
      (show c ≤ fuel by omega) fun k hk t ht => by
        rw [hshift]
        exact hbody (k + 1) (by omega) t ht
    refine ⟨s', ?_, hs'⟩
    rw [loopFrom, hfirst, if_pos rfl, bind_run_ok hrun, hloop, hshift]

omit [Stray] in
/-- A loop over blocks through the states that `F` has at each position. -/
theorem blockLoop_run (F : Nat → Mem) (width : Nat) (body : Nat → MemM Unit) {i : Nat}
    (hwidth : 0 < width) (hi : i ≤ n) (hbody : ∀ j, i ≤ j → (j - i) % width = 0 → j + width ≤ n →
      body j (F j) = .ok () (F (j + width))) :
    ∃ j, i ≤ j ∧ j ≤ n ∧ n < j + width ∧ (j - i) % width = 0 ∧
      blockLoop n width body i (F i) = .ok j (F j) := by
  have hdiv := Nat.div_add_mod' (n - i) width
  have hmod := Nat.mod_lt (n - i) hwidth
  have hbelow : ∀ k < (n - i) / width, i + k * width + width ≤ n := by
    intro k hk
    have hle : (k + 1) * width ≤ (n - i) / width * width := Nat.mul_le_mul_right width hk
    rw [Nat.succ_mul] at hle
    omega
  have hfuel : (n - i) / width ≤ n := (Nat.div_le_self _ _).trans (Nat.sub_le n i)
  obtain ⟨s', hrun, rfl⟩ := loopFrom_ends (fun i => i + width ≤ n) width body
    (fun k t => t = F (i + k * width)) (by rw [Nat.zero_mul, Nat.add_zero])
    (fun k hk => decide_eq_true (hbelow k hk))
    (decide_eq_false (by omega)) hfuel (fun k hk t ht => by
      subst ht
      refine ⟨_, hbody _ (Nat.le_add_right _ _) ?_ (hbelow k hk), ?_⟩
      · rw [Nat.add_sub_cancel_left, Nat.mul_mod_left]
      · rw [Nat.succ_mul, Nat.add_assoc])
  refine ⟨_, Nat.le_add_right _ _, by omega, by omega, ?_, hrun⟩
  rw [Nat.add_sub_cancel_left, Nat.mul_mod_left]

omit [Stray] in
/-- A loop of `c` rounds through the states that `F` has in each of them. -/
theorem countLoop_run (F : Nat → Mem) (c step : Nat) (body : Nat → MemM Unit)
    (hstep : 0 < step) (hbody : ∀ k < c, body (k * step) (F k) = .ok () (F (k + 1))) :
    countLoop (c * step) step body (F 0) = .ok () (F c) := by
  have hfuel : c ≤ c * step := Nat.le_mul_of_pos_right c hstep
  obtain ⟨s', hrun, rfl⟩ := loopFrom_ends (fun i => i < c * step) step body (i := 0)
    (fun k t => t = F k) rfl
    (fun k hk => decide_eq_true (by rw [Nat.zero_add]; exact Nat.mul_lt_mul_of_pos_right hk hstep))
    (decide_eq_false (by omega)) hfuel (fun k hk t ht => by
      subst ht
      rw [Nat.zero_add]
      exact ⟨_, hbody k hk, rfl⟩)
  unfold countLoop
  rw [bind_run_ok hrun]
  rfl

/-! ## Copies -/

/-- The first `i` bytes are copied one after another, each from what is there by then. -/
def Mem.copied (s : Mem) (dst src : Nat) : Nat → Mem
  | 0 => s
  | i + 1 => (s.copied dst src i).put (dst + i) [(s.copied dst src i).bytes (src + i)]

variable {dst src : Nat}

omit [Stray] in
@[simp] theorem copied_readable (s : Mem) (dst src i : Nat) :
    (s.copied dst src i).readable = s.readable := by
  induction i with
  | zero => rfl
  | succ i ih => exact ih

omit [Stray] in
/-- The next `k` bytes can be moved at once, unless some of them are written before they are
read. -/
theorem copied_put (i : Nat) {k : Nat} (h : dst ≤ src ∨ src + k ≤ dst) :
    (s.copied dst src i).put (dst + i) ((s.copied dst src i).bytes.load (src + i) k) =
      s.copied dst src (i + k) := by
  induction k with
  | zero => exact put_nil _ _
  | succ k ih =>
    have hlen : ((s.copied dst src i).bytes.load (src + i) k).length = k :=
      ByteMap.length_load _ _ _
    have hbyte : (s.copied dst src (i + k)).bytes (src + (i + k)) =
        (s.copied dst src i).bytes (src + i + k) := by
      rw [← ih (by omega), ← Nat.add_assoc]
      refine ByteMap.store_off ?_
      rw [hlen]
      omega
    rw [ByteMap.load_add, put_append, ih (by omega), hlen, Nat.add_assoc dst]
    exact congrArg (fun b => (s.copied dst src (i + k)).put (dst + (i + k)) [b]) hbyte.symm

omit [Stray] in
/-- Bytes that are not overwritten before they are read. -/
theorem copied_eq_put (h : dst ≤ src ∨ src + n ≤ dst) :
    s.copied dst src n = s.put dst (s.bytes.load src n) := by
  have hall := copied_put (s := s) 0 h
  rw [Nat.zero_add] at hall
  exact hall.symm

omit [Stray] in
theorem off_copied (s : Mem) (dst src n : Nat) : Off (At dst n) s (s.copied dst src n) := by
  induction n with
  | zero => exact .refl _ s
  | succ n ih =>
    refine (ih.mono fun q hq => ⟨hq.1, Nat.lt_succ_of_lt hq.2⟩).trans ?_
    have hbyte : Off (At (dst + n) 1) (s.copied dst src n) (s.copied dst src (n + 1)) :=
      off_put _ (Nat.le_refl 1)
    refine hbyte.mono fun q hq => ?_
    unfold At at hq ⊢
    omega

theorem moveByte_copied {i : Nat} (hr : s.Reads src n) (hi : i + 1 ≤ n) :
    moveByte (dst + i) (src + i) (s.copied dst src i) = .ok () (s.copied dst src (i + 1)) := by
  have hread : (s.copied dst src i).readable (src + i) = true := by
    rw [copied_readable]
    exact hr i hi
  unfold moveByte
  rw [bind_run_ok (ld8_run hread), st8_run, copied]
  refine congrArg (fun bs => EStateM.Result.ok () (Mem.put _ _ bs)) ?_
  change leBytes 1 (_ % 256 ^ 8) = _
  rw [leBytes_mod (by decide), leBytes_one, UInt8.ofNat_toNat]

/-- Aligned words are apart or the same. -/
theorem moveWord_copied {i : Nat} (hr : s.Reads src n) (hdst : dst % 8 = 0) (hsrc : src % 8 = 0)
    (hmod : i % 8 = 0) (hi : i + 8 ≤ n) :
    moveWord (dst + i) (src + i) (s.copied dst src i) = .ok () (s.copied dst src (i + 8)) := by
  have hread : (s.copied dst src i).Reads (src + i) 8 := by
    unfold Reads
    rw [copied_readable]
    exact Reads.part hr (by omega) (by omega)
  unfold moveWord
  rw [bind_run_ok (lds_run (by omega) hread), st_run (by omega),
    leBytes_wordOf (ByteMap.length_load _ _ _), copied_put i (by omega)]

theorem moveWords_copied {i : Nat} (hr : s.Reads src n) (hdst : dst % 8 = 0) (hsrc : src % 8 = 0)
    (hmod : i % 8 = 0) (hi : i + 32 ≤ n) :
    moveWords dst src i (s.copied dst src i) = .ok () (s.copied dst src (i + 32)) := by
  have hmove : ∀ j, j % 8 = 0 → j + 8 ≤ n →
      moveWord (dst + j) (src + j) (s.copied dst src j) = .ok () (s.copied dst src (j + 8)) :=
    fun j hj => moveWord_copied hr hdst hsrc hj
  unfold moveWords
  simp only [Nat.add_assoc]
  rw [bind_run_ok (hmove _ (by omega) (by omega)), bind_run_ok (hmove _ (by omega) (by omega)),
    bind_run_ok (hmove _ (by omega) (by omega)), hmove _ (by omega) (by omega)]

theorem moveBytes_copied {i : Nat} (hr : s.Reads src n) (hi : i + 8 ≤ n) :
    moveBytes dst src i (s.copied dst src i) = .ok () (s.copied dst src (i + 8)) := by
  have hmove : ∀ j, j + 1 ≤ n →
      moveByte (dst + j) (src + j) (s.copied dst src j) = .ok () (s.copied dst src (j + 1)) :=
    fun j => moveByte_copied hr
  unfold moveBytes
  simp only [Nat.add_assoc]
  rw [bind_run_ok (hmove _ (by omega)), bind_run_ok (hmove _ (by omega)),
    bind_run_ok (hmove _ (by omega)), bind_run_ok (hmove _ (by omega)),
    bind_run_ok (hmove _ (by omega)), bind_run_ok (hmove _ (by omega)),
    bind_run_ok (hmove _ (by omega)), hmove _ (by omega)]

omit [Stray] in
theorem aligned_or (h : (dst ||| src) &&& 7 = 0) : dst % 8 = 0 ∧ src % 8 = 0 := by
  rw [Nat.and_or_distrib_right, Nat.or_eq_zero_iff, Nat.and_two_pow_sub_one_eq_mod dst 3,
    Nat.and_two_pow_sub_one_eq_mod src 3] at h
  exact h

theorem memcpyWords_run (dst : Nat) (hr : s.Reads src n) :
    ∃ j, j ≤ n ∧ memcpyWords dst src n s = .ok j (s.copied dst src j) := by
  unfold memcpyWords
  split
  · next haligned =>
    obtain ⟨hdst, hsrc⟩ := aligned_or haligned
    obtain ⟨i, -, hi, -, hmod, hrun⟩ := blockLoop_run (s.copied dst src) 32 (moveWords dst src)
      (by decide) (Nat.zero_le n)
      fun j _ hj => moveWords_copied hr hdst hsrc (by omega)
    obtain ⟨j, -, hj, -, -, hrun'⟩ := blockLoop_run (s.copied dst src) 8
      (fun i => moveWord (dst + i) (src + i)) (by decide) hi
      fun j hij hj => moveWord_copied hr hdst hsrc (by omega)
    refine ⟨j, hj, ?_⟩
    rw [copied] at hrun
    rw [bind_run_ok hrun, hrun']
  · exact ⟨0, Nat.zero_le n, rfl⟩

/-- Whatever the alignment and the overlap, the bytes are copied one after another. -/
theorem memcpy_copied (dst : Nat) (hr : s.Reads src n) :
    memcpy dst src n s = .ok () (s.copied dst src n) := by
  obtain ⟨i, hi, hwords⟩ := memcpyWords_run dst hr
  obtain ⟨j, -, hj, -, -, hblocks⟩ := blockLoop_run (s.copied dst src) 8 (moveBytes dst src)
      (by decide) hi fun j _ _ => moveBytes_copied hr
  obtain ⟨k, -, hk, hend, -, hbytes⟩ := blockLoop_run (s.copied dst src) 1
    (fun i => moveByte (dst + i) (src + i)) (by decide) hj
    fun j _ _ => moveByte_copied hr
  obtain rfl : k = n := by omega
  unfold memcpy
  rw [bind_run_ok hwords, bind_run_ok hblocks, bind_run_ok hbytes]
  rfl

/-- A copy to a lower address, overlapping or not, or to a range behind the source. -/
theorem memcpy_run (h : dst ≤ src ∨ src + n ≤ dst) (hr : s.Reads src n) :
    memcpy dst src n s = .ok () (s.put dst (s.bytes.load src n)) := by
  rw [memcpy_copied dst hr, copied_eq_put h]

/-! ## Fills -/

/-- The first `i` bytes are zero. -/
def Mem.zeroed (s : Mem) (dst i : Nat) : Mem := s.put dst (List.replicate i 0)

omit [Stray] in
theorem zeroed_put (s : Mem) (dst i : Nat) {k : Nat} {bs : Bytes}
    (hbs : bs = List.replicate k 0) : (s.zeroed dst i).put (dst + i) bs = s.zeroed dst (i + k) := by
  subst hbs
  unfold zeroed
  rw [List.replicate_add, put_append, List.length_replicate]

theorem zeroWord_zeroed {i : Nat} (hdst : dst % 8 = 0) (hi : i % 8 = 0) :
    st (dst + i) 0 (s.zeroed dst i) = .ok () (s.zeroed dst (i + 8)) := by
  rw [st_run (by omega)]
  exact congrArg _ (zeroed_put s dst i rfl)

theorem zeroWords_zeroed {i : Nat} (hdst : dst % 8 = 0) (hi : i % 8 = 0) :
    zeroWords dst i (s.zeroed dst i) = .ok () (s.zeroed dst (i + 32)) := by
  unfold zeroWords
  simp only [Nat.add_assoc]
  rw [bind_run_ok (zeroWord_zeroed hdst (by omega)), bind_run_ok (zeroWord_zeroed hdst (by omega)),
    bind_run_ok (zeroWord_zeroed hdst (by omega)), zeroWord_zeroed hdst (by omega)]

omit [Stray] in
theorem zeroByte_zeroed (i : Nat) :
    st8 (dst + i) 0 (s.zeroed dst i) = .ok () (s.zeroed dst (i + 1)) := by
  rw [st8_run]
  exact congrArg _ (zeroed_put s dst i rfl)

omit [Stray] in
theorem zeroBytes_zeroed (i : Nat) :
    zeroBytes dst i (s.zeroed dst i) = .ok () (s.zeroed dst (i + 8)) := by
  unfold zeroBytes
  simp only [Nat.add_assoc]
  rw [bind_run_ok (zeroByte_zeroed _), bind_run_ok (zeroByte_zeroed _),
    bind_run_ok (zeroByte_zeroed _), bind_run_ok (zeroByte_zeroed _),
    bind_run_ok (zeroByte_zeroed _), bind_run_ok (zeroByte_zeroed _),
    bind_run_ok (zeroByte_zeroed _), zeroByte_zeroed]

theorem memzeroWords_run (s : Mem) (dst n : Nat) :
    ∃ j, j ≤ n ∧ memzeroWords dst n s = .ok j (s.zeroed dst j) := by
  unfold memzeroWords
  split
  · next haligned =>
    rw [Nat.and_two_pow_sub_one_eq_mod dst 3] at haligned
    obtain ⟨i, -, hi, -, hmod, hrun⟩ := blockLoop_run (s.zeroed dst) 32 (zeroWords dst)
      (by decide) (Nat.zero_le n)
      fun j _ hj _ => zeroWords_zeroed haligned (by omega)
    obtain ⟨j, -, hj, -, -, hrun'⟩ := blockLoop_run (s.zeroed dst) 8 (fun i => st (dst + i) 0)
      (by decide) hi
      fun j hij hj _ => zeroWord_zeroed haligned (by omega)
    refine ⟨j, hj, ?_⟩
    rw [show s.zeroed dst 0 = s from put_nil s dst] at hrun
    rw [bind_run_ok hrun, hrun']
  · refine ⟨0, Nat.zero_le n, ?_⟩
    rw [show s.zeroed dst 0 = s from put_nil s dst]
    rfl

theorem memzero_run (dst n : Nat) (s : Mem) :
    memzero dst n s = .ok () (s.put dst (List.replicate n 0)) := by
  obtain ⟨i, hi, hwords⟩ := memzeroWords_run s dst n
  obtain ⟨j, -, hj, -, -, hblocks⟩ := blockLoop_run (s.zeroed dst) 8 (zeroBytes dst)
      (by decide) hi fun j _ _ _ => zeroBytes_zeroed j
  obtain ⟨k, -, hk, hend, -, hbytes⟩ := blockLoop_run (s.zeroed dst) 1
    (fun i => st8 (dst + i) 0) (by decide) hj fun j _ _ _ => zeroByte_zeroed j
  obtain rfl : k = n := by omega
  unfold memzero
  rw [bind_run_ok hwords, bind_run_ok hblocks, bind_run_ok hbytes]
  rfl

end StatelessGuest.Digest
