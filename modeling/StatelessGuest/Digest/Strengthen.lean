import StatelessGuest.Digest.Runs
import StatelessGuest.Lib.Absorb

/-!
# Digests that end with the length

SHA-256 and RIPEMD-160 run through the message in blocks of 64 bytes. The last one or two blocks
hold the rest of the message, a 128, zeros and the length in bits, which they order differently.

* `mdTail`, `mdBlocks`: the last blocks, and the run through all of them.
* `mdPad`: the padding.
* `mdBlocks_ends`: a program for one block that follows a function makes one for a message.
* `writeWords`: the state as a digest.
-/

namespace StatelessGuest.Digest

open Lib Mem

section

variable [Stray]

/-- The rest of the message with its padding, and the length of that. -/
def mdTail (stLen : Nat → Word → MemM Unit) (pad src rem : Nat) (bits : Word) : MemM Nat := do
  memzero pad 128
  memcpy pad src rem
  st8 (pad + rem) 128
  let total := if rem ≥ 56 then 128 else 64
  stLen (pad + total - 8) bits
  return total

def mdLast (block : Nat → MemM Unit) (pad total : Nat) : MemM Unit := do
  block pad
  if total = 128 then block (pad + 64) else pure ()

def mdBlocks (block : Nat → MemM Unit) (stLen : Nat → Word → MemM Unit) (pad p n : Nat) :
    MemM Unit := do
  let i ← blockLoop n 64 (fun i => block (p + i)) 0
  let rem := n - i
  let total ← mdTail stLen pad (p + i) rem (BitVec.ofNat 64 n <<< 3)
  mdLast block pad total

/-- `while i < c` over the words of the state. -/
def writeWords (stWord : Nat → Word → MemM Unit) (c stp out : Nat) : MemM Unit :=
  countLoop c 1 fun i => do
    let w ← lds (stp + i * 8)
    stWord (out + i * 4) w

/-- Stores of words one after the other. -/
def stAll : Nat → List Word → MemM Unit
  | _, [] => pure ()
  | p, w :: ws => do
    st p w
    stAll (p + 8) ws

end

/-! ## The padding -/

/-- The padding of a message of `n` bytes whose length is written as `len`. -/
def mdPad (len : Bytes) (n : Nat) : Bytes :=
  (0x80 :: List.replicate ((119 - n % 64) % 64) 0) ++ len

variable {s : Mem} {len : Bytes} {n p pad src rem : Nat}

theorem length_mdPad (hlen : len.length = 8) (n : Nat) :
    (mdPad len n).length = (if n % 64 ≥ 56 then 128 else 64) - n % 64 := by
  have hmod := Nat.mod_lt n (show 0 < 64 by decide)
  unfold mdPad
  rw [List.length_append, List.length_cons, List.length_replicate, hlen]
  split <;> omega

/-- The number of bits of the message, modulo `2 ^ 64`. -/
theorem toNat_bits (n : Nat) : (BitVec.ofNat 64 n <<< 3 : Word).toNat = 8 * n % 256 ^ 8 := by
  rw [BitVec.toNat_shiftLeft, BitVec.toNat_ofNat, Nat.shiftLeft_eq]
  omega

theorem mdTail_run [Stray] {stLen : Nat → Word → MemM Unit} (pad : Nat) {bits : Word}
    (hst : ∀ q t, stLen q bits t = .ok () (t.put q len)) (hlen : len.length = 8)
    (hrem : rem < 64) (hsrc : s.Reads src rem) (hd : Apart src rem pad 128) :
    mdTail stLen pad src rem bits s =
      .ok (if rem ≥ 56 then 128 else 64)
        (s.put pad ((s.bytes.load src rem ++ mdPad len rem) ++
          List.replicate (128 - if rem ≥ 56 then 128 else 64) 0)) := by
  have htake := ByteMap.length_load s.bytes src rem
  generalize htotal : (if rem ≥ 56 then 128 else 64) = total
  have hfit : rem + 9 ≤ total ∧ total ≤ 128 := by
    split at htotal <;> omega
  have hzeros : (119 - rem % 64) % 64 = total - rem - 9 := by
    split at htotal <;> omega
  have hsame : (s.put pad (List.replicate 128 0)).bytes.load src rem = s.bytes.load src rem :=
    (off_put s (Nat.le_of_eq List.length_replicate)).load hd
  have hread : (s.put pad (List.replicate 128 0)).Reads src rem := hsrc
  have hsplit : List.replicate 128 (0 : UInt8) = [] ++ (List.replicate rem 0 ++
      ([0] ++ (List.replicate (total - rem - 9) 0 ++ (List.replicate 8 0 ++
        List.replicate (128 - total) 0)))) := by
    rw [← List.replicate_one, ← List.replicate_add, ← List.replicate_add, ← List.replicate_add,
      ← List.replicate_add, List.nil_append]
    congr 1
    omega
  have hcopy := put_inside s (p := pad) (q := pad) [] (List.replicate rem 0)
    ([0] ++ (List.replicate (total - rem - 9) 0 ++ (List.replicate 8 0 ++
      List.replicate (128 - total) 0))) (s.bytes.load src rem) rfl
    (by rw [List.length_replicate, htake])
  have hmark := put_inside s (p := pad) (q := pad + rem) (s.bytes.load src rem) [0]
    (List.replicate (total - rem - 9) 0 ++ (List.replicate 8 0 ++
      List.replicate (128 - total) 0)) [128] (by rw [htake]) rfl
  have hend := put_inside s (p := pad) (q := pad + total - 8)
    (s.bytes.load src rem ++ ([128] ++ List.replicate (total - rem - 9) 0)) (List.replicate 8 0)
    (List.replicate (128 - total) 0) len (by
      rw [List.length_append, htake, List.length_append, List.length_replicate,
        List.length_singleton]
      omega) (by rw [List.length_replicate, hlen])
  unfold mdTail
  rw [bind_run_ok (memzero_run _ _ _), bind_run_ok (memcpy_run (hd.copies (by omega)) hread), hsame,
    hsplit, hcopy, List.nil_append, bind_run_ok (st8_run _ _ _)]
  have hone : leBytes 1 (128 : Word).toNat = [128] := rfl
  have hassoc : s.bytes.load src rem ++ ([128] ++ (List.replicate (total - rem - 9) 0 ++
      (List.replicate 8 0 ++ List.replicate (128 - total) 0))) =
        (s.bytes.load src rem ++ ([128] ++ List.replicate (total - rem - 9) 0)) ++
          (List.replicate 8 0 ++ List.replicate (128 - total) 0) := by
    simp only [List.append_assoc]
  rw [htotal, hone, hmark, bind_run_ok (hst _ _), hassoc, hend, pure_run]
  unfold mdPad
  rw [hzeros]
  simp only [List.append_assoc, List.cons_append, List.nil_append]

/-! ## The run through the blocks -/

/-- What a run through the blocks is about: the chaining values and where they are, the function for
one block, and the addresses that a run for one block may change. -/
structure Chain (σ : Type) where
  stands : σ → Mem → Prop
  step : σ → Bytes → σ
  own : Nat → Prop

/-- A program for one block follows the function, for every block apart from its own addresses. -/
structure Chain.Follows {σ : Type} [Stray] (c : Chain σ) (block : Nat → MemM Unit) : Prop where
  run : ∀ {s : Mem} {x : σ} {blk : Nat}, c.stands x s → (∀ q, c.own q → s.readable q = true) →
    s.Reads blk 64 → (∀ q, At blk 64 q → ¬c.own q) → ∃ s', block blk s = .ok () s' ∧
      c.stands (c.step x (s.bytes.load blk 64)) s' ∧ Off c.own s s'
  /-- The chaining values are at own addresses. -/
  kept : ∀ {s s' : Mem} {x : σ}, c.stands x s → (∀ q, c.own q → s'.bytes q = s.bytes q) →
    c.stands x s'

section

variable [Stray] {σ : Type} {c : Chain σ} {block : Nat → MemM Unit} {x : σ}

theorem blocks_end (h : c.Follows block) (hx : c.stands x s)
    (hown : ∀ q, c.own q → s.readable q = true) (hmsg : s.Reads p n)
    (hin : ∀ q, At p n q → ¬c.own q) :
    ∃ s', blockLoop n 64 (fun i => block (p + i)) 0 s = .ok (n / 64 * 64) s' ∧
      c.stands (absorb c.step 64 (n / 64) x (s.bytes.load p n)) s' ∧ Off c.own s s' := by
  have hdiv := Nat.div_add_mod' n 64
  have hmod := Nat.mod_lt n (show 0 < 64 by decide)
  have hbelow : ∀ k < n / 64, k * 64 + 64 ≤ n := by omega
  obtain ⟨s', hrun, hstands, hoff⟩ := loopFrom_ends (i := 0) (c := n / 64)
    (fun i => i + 64 ≤ n) 64 (fun i => block (p + i))
    (fun k t => c.stands (absorb c.step 64 k x (s.bytes.load p n)) t ∧ Off c.own s t)
    ⟨hx, .refl _ _⟩ (fun k hk => decide_eq_true (by rw [Nat.zero_add]; exact hbelow k hk))
    (decide_eq_false (by omega)) (Nat.div_le_self n 64) (fun k hk t ht => by
      obtain ⟨hst, hoff⟩ := ht
      have hle := hbelow k hk
      have hblk : ∀ q, At (p + k * 64) 64 q → ¬c.own q := by
        intro q hq
        refine hin q ?_
        unfold At at hq ⊢
        omega
      obtain ⟨t', hrun, hst', hoff'⟩ := h.run hst
        (fun q hq => by rw [hoff.readable]; exact hown q hq)
        (hoff.reads (hmsg.part (Nat.le_add_right p (k * 64)) (by omega))) hblk
      have hload : t.bytes.load (p + k * 64) 64 = ((s.bytes.load p n).drop (k * 64)).take 64 := by
        rw [hoff.load hblk, drop_load _ _ (by omega), take_load _ _ (by omega)]
      refine ⟨t', ?_, ?_, hoff.trans hoff'⟩
      · rw [Nat.zero_add]
        exact hrun
      · rw [absorb_succ (by rw [ByteMap.length_load]; omega), ← hload]
        exact hst')
  rw [Nat.zero_add] at hrun
  exact ⟨s', hrun, hstands, hoff⟩

/-- The last one or two blocks are in the padding buffer. -/
theorem mdLast_ends (h : c.Follows block) {total : Nat} {last rest : Bytes} (hx : c.stands x s)
    (hown : ∀ q, c.own q → s.readable q = true) (hpad : s.Reads pad 128)
    (hd : ∀ q, At pad 128 q → ¬c.own q) (htotal : total = 64 ∨ total = 128)
    (hlast : s.bytes.load pad 128 = last ++ rest) (hlen : last.length = total) :
    ∃ s', mdLast block pad total s = .ok () s' ∧
      c.stands (absorb c.step 64 (total / 64) x last) s' ∧ Off c.own s s' := by
  have hd0 : ∀ q, At pad 64 q → ¬c.own q := fun q hq => hd q ⟨hq.1, by have := hq.2; omega⟩
  have hd1 : ∀ q, At (pad + 64) 64 q → ¬c.own q := by
    intro q hq
    refine hd q ?_
    unfold At at hq ⊢
    omega
  obtain ⟨s₁, hrun₁, hst₁, hoff₁⟩ := h.run hx hown (hpad.part (Nat.le_refl pad) (by omega)) hd0
  have hfirst : s.bytes.load pad 64 = last.take 64 := by
    rw [← take_load s.bytes pad (show 64 ≤ 128 by decide), hlast,
      List.take_append_of_le_length (by omega)]
  rw [hfirst] at hst₁
  unfold mdLast
  rw [bind_run_ok hrun₁]
  rcases htotal with rfl | rfl
  · exact ⟨s₁, rfl, hst₁, hoff₁⟩
  · obtain ⟨s₂, hrun₂, hst₂, hoff₂⟩ := h.run hst₁
      (fun q hq => by rw [hoff₁.readable]; exact hown q hq)
      (hoff₁.reads (hpad.part (Nat.le_add_right pad 64) (by omega))) hd1
    have hsecond : s₁.bytes.load (pad + 64) 64 = (last.drop 64).take 64 := by
      have hdrop := drop_load s.bytes pad (show 64 ≤ 128 by decide)
      have hall : (last.drop 64).length = 64 := by rw [List.length_drop, hlen]
      rw [hlast, List.drop_append_of_le_length (by omega)] at hdrop
      have hnone : rest = [] := by
        have := congrArg List.length hlast
        rw [ByteMap.length_load, List.length_append, hlen] at this
        exact List.length_eq_zero_iff.mp (by omega)
      rw [hoff₁.load hd1, ← hdrop, hnone, List.append_nil,
        List.take_of_length_le (Nat.le_of_eq hall)]
    rw [hsecond] at hst₂
    exact ⟨s₂, hrun₂, hst₂, hoff₁.trans hoff₂⟩

theorem mdBlocks_ends (h : c.Follows block) {stLen : Nat → Word → MemM Unit}
    (hst : ∀ q t, stLen q (BitVec.ofNat 64 n <<< 3) t = .ok () (t.put q len))
    (hlen : len.length = 8) (hx : c.stands x s) (hown : ∀ q, c.own q → s.readable q = true)
    (hmsg : s.Reads p n) (hpad : s.Reads pad 128) (hin : ∀ q, At p n q → ¬c.own q)
    (hdpad : Apart p n pad 128) (hd : ∀ q, At pad 128 q → ¬c.own q) :
    ∃ s', mdBlocks block stLen pad p n s = .ok () s' ∧
      c.stands (absorb c.step 64 ((s.bytes.load p n ++ mdPad len n).length / 64) x
        (s.bytes.load p n ++ mdPad len n)) s' ∧ Off (fun q => c.own q ∨ At pad 128 q) s s' := by
  obtain ⟨s₁, hrun₁, hst₁, hoff₁⟩ := blocks_end h hx hown hmsg hin
  have hdiv := Nat.div_add_mod' n 64
  have hmod := Nat.mod_lt n (show 0 < 64 by decide)
  have hrest : s₁.bytes.load (p + n / 64 * 64) (n - n / 64 * 64) =
      (s.bytes.load p n).drop (n / 64 * 64) := by
    rw [hoff₁.load, drop_load _ _ (by omega)]
    intro q hq
    refine hin q ?_
    unfold At at hq ⊢
    omega
  have htail := mdTail_run pad hst hlen (show n - n / 64 * 64 < 64 by omega)
    (hoff₁.reads (hmsg.part (Nat.le_add_right p (n / 64 * 64)) (by omega)))
    (hdpad.part (by omega))
  rw [hrest] at htail
  have hrem : (n - n / 64 * 64) % 64 = n % 64 := by omega
  have hpadEq : mdPad len (n - n / 64 * 64) = mdPad len n := by
    unfold mdPad
    rw [hrem]
  have hlength := length_mdPad hlen n
  generalize htotal : (if n - n / 64 * 64 ≥ 56 then 128 else 64) = total at htail
  have htotal' : (if n % 64 ≥ 56 then 128 else 64) = total := by
    rw [← htotal, show n - n / 64 * 64 = n % 64 by omega]
  have hcases : total = 64 ∨ total = 128 := by
    split at htotal <;> omega
  rw [htotal'] at hlength
  rw [hpadEq] at htail
  generalize hlast : (s.bytes.load p n).drop (n / 64 * 64) ++ mdPad len n = last at htail
  have hlastLength : last.length = total := by
    rw [← hlast, List.length_append, List.length_drop, ByteMap.length_load, hlength]
    omega
  have hbuffer : (last ++ List.replicate (128 - total) 0).length = 128 := by
    rw [List.length_append, List.length_replicate, hlastLength]
    omega
  have hoffPad := off_put s₁ (p := pad) (Nat.le_of_eq hbuffer)
  obtain ⟨s₂, hrun₂, hst₂, hoff₂⟩ := mdLast_ends h
    (h.kept hst₁ fun q hq => hoffPad.bytes q fun hat => hd q hat hq)
    (fun q hq => by rw [hoffPad.readable, hoff₁.readable]; exact hown q hq)
    (hoffPad.reads (hoff₁.reads hpad)) hd hcases (load_put_self s₁ pad hbuffer) hlastLength
  refine ⟨s₂, ?_, ?_, ?_⟩
  · unfold mdBlocks
    rw [bind_run_ok hrun₁, bind_run_ok htail, hrun₂]
  · have hwhole : (mdPad len n).length = total / 64 * 64 - (s.bytes.load p n).length % 64 := by
      rw [ByteMap.length_load, hlength]
      omega
    rw [absorb_padded c.step x (by decide) hwhole (by rw [ByteMap.length_load]; omega),
      ByteMap.length_load, hlast]
    exact hst₂
  · exact (hoff₁.mono fun q hq => .inl hq).trans ((hoffPad.mono fun q hq => .inr hq).trans
      (hoff₂.mono fun q hq => .inl hq))

end

/-! ## Words -/

/-- Words of 32 bits in `k` bytes each. -/
def words (k : Nat) (ws : List (BitVec 32)) : Bytes := pack k (ws.map BitVec.toNat)

@[simp] theorem length_words (k : Nat) (ws : List (BitVec 32)) :
    (words k ws).length = k * ws.length := by
  rw [words, length_pack, List.length_map]

theorem pack_take_succ {k i : Nat} {ns : List Nat} (hi : i < ns.length) :
    pack k (ns.take (i + 1)) = pack k (ns.take i) ++ leBytes k ns[i] := by
  rw [List.take_succ_eq_append_getElem hi, pack_append]
  exact congrArg _ (pack_singleton k _)

/-- A number in memory. -/
theorem load_packed {m : ByteMap} {k i : Nat} {ns : List Nat}
    (h : m.load p (k * ns.length) = pack k ns) (hi : i < ns.length) :
    m.load (p + k * i) k = leBytes k ns[i] := by
  have hle : k * (i + 1) ≤ k * ns.length := Nat.mul_le_mul_left k hi
  have hfront : m.load p (k * (i + 1)) = pack k (ns.take (i + 1)) := by
    rw [← take_load m p hle, h]
    conv_lhs => rw [← List.take_append_drop (i + 1) ns]
    rw [pack_append, List.take_left']
    rw [length_pack, List.length_take, Nat.min_eq_left hi]
  rw [pack_take_succ hi, Nat.mul_succ, ByteMap.load_add] at hfront
  refine (List.append_inj hfront ?_).2
  rw [ByteMap.length_load, length_pack, List.length_take, Nat.min_eq_left (Nat.le_of_lt hi)]

theorem words_take_succ {k i : Nat} {ws : List (BitVec 32)} (hi : i < ws.length) :
    words k (ws.take (i + 1)) = words k (ws.take i) ++ leBytes k ws[i].toNat := by
  unfold words
  rw [List.map_take, List.map_take, pack_take_succ (by rwa [List.length_map]), List.getElem_map]

/-- A word in memory. -/
theorem load_word {m : ByteMap} {k i : Nat} {ws : List (BitVec 32)}
    (h : m.load p (k * ws.length) = words k ws) (hi : i < ws.length) :
    m.load (p + k * i) k = leBytes k ws[i].toNat := by
  have hlen : (ws.map BitVec.toNat).length = ws.length := List.length_map _
  rw [← hlen] at h
  rw [load_packed h (by rwa [hlen]), List.getElem_map]

/-- The words in an encoding of four bytes each. -/
def digestOf (enc : Nat → Bytes) (ws : List (BitVec 32)) : Bytes :=
  ws.flatMap fun w => enc w.toNat

theorem length_digestOf {enc : Nat → Bytes} (henc : ∀ v, (enc v).length = 4)
    (ws : List (BitVec 32)) : (digestOf enc ws).length = 4 * ws.length := by
  induction ws with
  | nil => rfl
  | cons w ws ih =>
    change (enc w.toNat ++ digestOf enc ws).length = _
    rw [List.length_append, ih, henc, List.length_cons, Nat.mul_succ, Nat.add_comm]

theorem digestOf_take_succ {enc : Nat → Bytes} {ws : List (BitVec 32)} {i : Nat}
    (hi : i < ws.length) :
    digestOf enc (ws.take (i + 1)) = digestOf enc (ws.take i) ++ enc ws[i].toNat := by
  unfold digestOf
  rw [List.take_succ_eq_append_getElem hi, List.flatMap_append, List.flatMap_singleton]

section

variable [Stray] {stp out : Nat}

theorem writeWords_run {stWord : Nat → Word → MemM Unit} {enc : Nat → Bytes}
    {ws : List (BitVec 32)} (hst : ∀ q (v : Word) t, stWord q v t = .ok () (t.put q (enc v.toNat)))
    (henc : ∀ v, (enc v).length = 4) (hstp : stp % 8 = 0)
    (hread : s.Reads stp (8 * ws.length)) (hload : s.bytes.load stp (8 * ws.length) = words 8 ws)
    (hd : Apart out (4 * ws.length) stp (8 * ws.length)) :
    writeWords stWord ws.length stp out s = .ok () (s.put out (digestOf enc ws)) := by
  have hrun := countLoop_run (fun k => s.put out (digestOf enc (ws.take k))) ws.length 1
    (fun i => do
      let w ← lds (stp + i * 8)
      stWord (out + i * 4) w) (by decide) fun k hk => by
    have hlen : (digestOf enc (ws.take k)).length = 4 * k := by
      rw [length_digestOf henc, List.length_take, Nat.min_eq_left (Nat.le_of_lt hk)]
    have hword : (s.put out (digestOf enc (ws.take k))).bytes.load (stp + k * 8) 8 =
        leBytes 8 ws[k].toNat := by
      have hdis := hd.disjoint (by omega) (by omega)
      rw [load_put_off s (by rw [hlen]; omega), Nat.mul_comm k 8]
      exact load_word hload hk
    have hreads : (s.put out (digestOf enc (ws.take k))).Reads (stp + k * 8) 8 :=
      hread.part (Nat.le_add_right stp _) (by omega)
    have hvalue : (wordOf (leBytes 8 ws[k].toNat)).toNat = ws[k].toNat := by
      rw [toNat_wordOf (Nat.le_of_eq (length_leBytes _ _)), leNat_leBytes_of_lt (by
        have := ws[k].isLt
        omega)]
    rw [Nat.mul_one, bind_run_ok (lds_run (by omega) hreads), hword, hst, hvalue,
      digestOf_take_succ hk, put_append, hlen, Nat.mul_comm k 4]
  have hzero : s.put out (digestOf enc (ws.take 0)) = s := put_nil s out
  rw [Nat.mul_one, List.take_length, hzero] at hrun
  exact hrun

theorem stAll_run {ws : List Word} (hp : p % 8 = 0) (s : Mem) :
    stAll p ws s = .ok () (s.put p (pack 8 (ws.map BitVec.toNat))) := by
  induction ws generalizing p s with
  | nil => exact (congrArg _ (put_nil s p)).symm
  | cons w ws ih =>
    rw [stAll, bind_run_ok (st_run hp w s), ih (by omega), List.map_cons, pack_cons, put_append,
      length_leBytes]

end

/-! ## A state of words -/

/-- The state is `k` words of eight bytes at `stp`. -/
def wordChain (stp k : Nat) (step : List (BitVec 32) → Bytes → List (BitVec 32))
    (own : Nat → Prop) : Chain (List (BitVec 32)) where
  stands ws s := ws.length = k ∧ s.bytes.load stp (8 * k) = words 8 ws
  step := step
  own := own

theorem pack_zeroExtend (ws : List (BitVec 32)) :
    pack 8 ((ws.map (BitVec.zeroExtend 64)).map BitVec.toNat) = words 8 ws := by
  unfold words
  rw [List.map_map]
  refine congrArg _ (List.map_congr_left fun w _ => ?_)
  have hw := w.isLt
  rw [Function.comp_apply, BitVec.toNat_setWidth, Nat.mod_eq_of_lt (by omega)]

section

variable [Stray] {stp out k : Nat} {start : List (BitVec 32)}
  {step : List (BitVec 32) → Bytes → List (BitVec 32)} {own : Nat → Prop}
  {block : Nat → MemM Unit} {stLen stWord : Nat → Word → MemM Unit} {enc : Nat → Bytes}

/-- The words are set, the blocks absorbed and the words written. -/
theorem md_run (h : (wordChain stp k step own).Follows block)
    (hstLen : ∀ q t, stLen q (BitVec.ofNat 64 n <<< 3) t = .ok () (t.put q len))
    (hlen : len.length = 8)
    (hstWord : ∀ q (v : Word) t, stWord q v t = .ok () (t.put q (enc v.toNat)))
    (henc : ∀ v, (enc v).length = 4) (hstp : stp % 8 = 0) (hstart : start.length = k)
    (hst : ∀ q, At stp (8 * k) q → own q)
    (hown : ∀ q, own q ∨ At pad 128 q → s.readable q = true) (hmsg : s.Reads p n)
    (hin : ∀ q, At p n q → ¬(own q ∨ At pad 128 q)) (hd : ∀ q, At pad 128 q → ¬own q)
    (hout : ∀ q, At out (4 * k) q → ¬own q) :
    ∃ s', (do
        stAll stp (start.map (BitVec.zeroExtend 64))
        mdBlocks block stLen pad p n
        writeWords stWord k stp out) s = .ok () s' ∧
      s'.bytes.load out (4 * k) = digestOf enc (absorb step 64
        ((s.bytes.load p n ++ mdPad len n).length / 64) start (s.bytes.load p n ++ mdPad len n)) ∧
      Off (fun q => (own q ∨ At pad 128 q) ∨ At out (4 * k) q) s s' := by
  have hwords : (words 8 start).length = 8 * k := by rw [length_words, hstart]
  have hoff₁ : Off own s (s.put stp (words 8 start)) :=
    (off_put s (Nat.le_of_eq hwords)).mono hst
  have hmessage : (s.put stp (words 8 start)).bytes.load p n = s.bytes.load p n :=
    hoff₁.load fun q hq hq' => hin q hq (.inl hq')
  obtain ⟨s₂, hrun₂, ⟨hk, hload₂⟩, hoff₂⟩ := mdBlocks_ends (s := s.put stp (words 8 start)) h hstLen
    hlen ⟨hstart, load_put_self s stp hwords⟩ (fun q hq => hown q (.inl hq)) hmsg
    (fun i hi => hown _ (.inr ⟨Nat.le_add_right pad i, by omega⟩))
    (fun q hq hq' => hin q hq (.inl hq')) (fun q hq hq' => hin q hq (.inr hq')) hd
  rw [hmessage] at hk hload₂
  change (absorb step 64 _ start _).length = k at hk
  change s₂.bytes.load stp (8 * k) = words 8 (absorb step 64 _ start _) at hload₂
  generalize absorb step 64 ((s.bytes.load p n ++ mdPad len n).length / 64) start
    (s.bytes.load p n ++ mdPad len n) = ws at hk hload₂ ⊢
  subst hk
  have hreads : s₂.Reads stp (8 * ws.length) := hoff₂.reads fun i hi =>
    hown _ (.inl (hst _ ⟨Nat.le_add_right stp i, by omega⟩))
  have hwrite := writeWords_run hstWord henc hstp hreads hload₂
    (fun q hq hq' => hout q hq (hst q hq'))
  have hdigest := length_digestOf henc ws
  refine ⟨_, ?_, load_put_self s₂ out hdigest, ?_⟩
  · rw [bind_run_ok (stAll_run hstp s), pack_zeroExtend, bind_run_ok hrun₂, hwrite]
  · exact (hoff₁.mono fun q hq => .inl (.inl hq)).trans ((hoff₂.mono fun q hq => .inl hq).trans
      ((off_put s₂ (Nat.le_of_eq hdigest)).mono fun q hq => .inr hq))

end

end StatelessGuest.Digest
