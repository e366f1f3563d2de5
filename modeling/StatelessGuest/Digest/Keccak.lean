import StatelessGuest.Digest.Runs
import StatelessGuest.Lib.Absorb

/-!
# Keccak-256

The sponge over the permutation, which is a foreign call on the state: the message with its padding
is absorbed in blocks of 136 bytes, and the digest is the first 32 bytes of the state.

* `keccakAbsorbBlock`, `keccak256`.
* `keccakDigest`: the digest of a message.
* `keccak256_run`: the digest is written, whatever the alignment of the message.
-/

namespace StatelessGuest.Digest

open Lib Mem

/-- The permutation, on the 200 bytes of the state. -/
class KeccakF where
  permute : Bytes → Bytes
  length_permute : ∀ bs, bs.length = 200 → (permute bs).length = 200

/-- The state (`keccak_st`) and the last block (`keccak_pad`), two allocations. -/
structure KeccakBuffers where
  st : Nat
  pad : Nat
  aligned_st : st % 8 = 0
  aligned_pad : pad % 8 = 0
  apart : st + 200 ≤ pad ∨ pad + 136 ≤ st

section

variable [Stray] [KeccakF]

def keccakF1600 (stp : Nat) : MemM Unit := foreignCall KeccakF.permute stp 200

/-- A word of the block is added; `load` is one of the two ways to read it. -/
def addWord (load : Nat → MemM Word) (stp blk i : Nat) : MemM Unit := do
  let a ← lds (stp + i)
  let b ← load (blk + i)
  st (stp + i) (a ^^^ b)

def addBlock (stp blk : Nat) : MemM Unit :=
  if blk &&& 7 = 0 then countLoop 136 8 (addWord lds stp blk)
  else countLoop 136 8 (addWord ldLe64 stp blk)

def keccakAbsorbBlock (stp blk : Nat) : MemM Unit := do
  addBlock stp blk
  keccakF1600 stp

/-- The 32 bytes at the front of the state, by words if the target is aligned. -/
def squeeze (stp out : Nat) : MemM Unit := do
  if out &&& 7 = 0 then
    moveWord out stp
    moveWord (out + 8) (stp + 8)
    moveWord (out + 16) (stp + 16)
    moveWord (out + 24) (stp + 24)
  else memcpy out stp 32

/-- The last block: the rest of the message, a 1 and a 128. -/
def keccakTail (pad src rem : Nat) : MemM Unit := do
  memzero pad 136
  memcpy pad src rem
  st8 (pad + rem) 1
  let b ← ld8 (pad + 135)
  st8 (pad + 135) (b ||| 128)

def keccak256 (k : KeccakBuffers) (p n out : Nat) : MemM Unit := do
  let stp := k.st
  memzero stp 200
  let i ← blockLoop n 136 (fun i => keccakAbsorbBlock stp (p + i)) 0
  let rem := n - i
  keccakTail k.pad (p + i) rem
  keccakAbsorbBlock stp k.pad
  squeeze stp out

end

/-! ## The digest -/

variable [KeccakF]

/-- The block is added to the front of the state, which is then permuted. -/
def keccakAbsorb (state block : Bytes) : Bytes :=
  KeccakF.permute
    (List.zipWith (· ^^^ ·) (state.take block.length) block ++ state.drop block.length)

/-- The padding of a message of `n` bytes: a 1 and a 128, in one byte if there is room for one. -/
def keccakPad (n : Nat) : Bytes :=
  if n % 136 = 135 then [0x81] else 0x01 :: List.replicate (134 - n % 136) 0 ++ [0x80]

def keccakDigest (message : Bytes) : Bytes :=
  let padded := message ++ keccakPad message.length
  (absorb keccakAbsorb 136 (padded.length / 136) (List.replicate 200 0) padded).take 32

omit [KeccakF] in
theorem length_keccakPad (n : Nat) : (keccakPad n).length = 136 - n % 136 := by
  have hmod := Nat.mod_lt n (show 0 < 136 by decide)
  unfold keccakPad
  split
  · next h => rw [h]; rfl
  · next h =>
    rw [List.length_append, List.length_cons, List.length_replicate, List.length_singleton]
    omega

theorem length_keccakAbsorb {state block : Bytes} (hs : state.length = 200)
    (hb : block.length = 136) : (keccakAbsorb state block).length = 200 := by
  refine KeccakF.length_permute _ ?_
  rw [List.length_append, List.length_zipWith, List.length_take, List.length_drop, hs, hb]
  rfl

/-! ## Absorbing a block -/

variable [Stray] {s : Mem} {stp blk p n out : Nat}

/-- The first `i` bytes of a block are added. -/
def Mem.added (s : Mem) (stp blk i : Nat) : Mem :=
  s.put stp (List.zipWith (· ^^^ ·) (s.bytes.load stp i) (s.bytes.load blk i))

omit [KeccakF] [Stray] in
theorem xor_words {as bs : Bytes} (ha : as.length = 8) (hb : bs.length = 8) :
    leBytes 8 (wordOf as ^^^ wordOf bs).toNat = List.zipWith (· ^^^ ·) as bs := by
  rw [BitVec.toNat_xor, leBytes_xor, leBytes_wordOf ha, leBytes_wordOf hb]

omit [KeccakF] [Stray] in
theorem length_added (s : Mem) (stp blk i : Nat) :
    (List.zipWith (· ^^^ ·) (s.bytes.load stp i) (s.bytes.load blk i)).length = i := by
  rw [List.length_zipWith, ByteMap.length_load, ByteMap.length_load, Nat.min_self]

omit [KeccakF] in
theorem addWord_added {i : Nat} {load : Nat → MemM Word} (hstp : stp % 8 = 0) (hi : i % 8 = 0)
    (hst : s.Reads stp 200) (hd : blk + 136 ≤ stp ∨ stp + 200 ≤ blk) (hle : i + 8 ≤ 136)
    (hload : load (blk + i) (s.added stp blk i) =
      .ok (wordOf ((s.added stp blk i).bytes.load (blk + i) 8)) (s.added stp blk i)) :
    addWord load stp blk i (s.added stp blk i) = .ok () (s.added stp blk (i + 8)) := by
  have hread : (s.added stp blk i).Reads (stp + i) 8 := Reads.part hst (by omega) (by omega)
  have hstate : (s.added stp blk i).bytes.load (stp + i) 8 = s.bytes.load (stp + i) 8 :=
    load_put_off s (by rw [length_added]; omega)
  have hblock : (s.added stp blk i).bytes.load (blk + i) 8 = s.bytes.load (blk + i) 8 :=
    load_put_off s (by rw [length_added]; omega)
  unfold addWord
  rw [bind_run_ok (lds_run (by omega) hread), bind_run_ok hload, st_run (by omega), hstate, hblock,
    xor_words (ByteMap.length_load _ _ _) (ByteMap.length_load _ _ _)]
  refine congrArg _ ?_
  unfold added
  rw [ByteMap.load_add, ByteMap.load_add, List.zipWith_append
    (by rw [ByteMap.length_load, ByteMap.length_load]), put_append, length_added]

omit [KeccakF] in
theorem addBlock_run (hstp : stp % 8 = 0) (hst : s.Reads stp 200) (hblk : s.Reads blk 136)
    (hd : blk + 136 ≤ stp ∨ stp + 200 ≤ blk) : addBlock stp blk s = .ok () (s.added stp blk 136) := by
  have hreads : ∀ i, i + 8 ≤ 136 → (s.added stp blk i).Reads (blk + i) 8 :=
    fun i hi => Reads.part hblk (by omega) (by omega)
  have hloop : ∀ load : Nat → MemM Word,
      (∀ i, i % 8 = 0 → i + 8 ≤ 136 → load (blk + i) (s.added stp blk i) =
        .ok (wordOf ((s.added stp blk i).bytes.load (blk + i) 8)) (s.added stp blk i)) →
      countLoop (17 * 8) 8 (addWord load stp blk) s = .ok () (s.added stp blk 136) := by
    intro load hload
    have hrun := countLoop_run (fun k => s.added stp blk (k * 8)) 17 8
      (addWord load stp blk) (by decide) fun k hk => by
        have hi : k * 8 % 8 = 0 := Nat.mul_mod_left k 8
        rw [Nat.succ_mul]
        exact addWord_added hstp hi hst hd (by omega) (hload _ hi (by omega))
    rw [Nat.zero_mul, show s.added stp blk 0 = s from put_nil s stp] at hrun
    exact hrun
  unfold addBlock
  split
  · next haligned =>
    rw [Nat.and_two_pow_sub_one_eq_mod blk 3] at haligned
    exact hloop lds fun i hi hle => lds_run (by omega) (hreads i hle)
  · exact hloop ldLe64 fun i _ hle => ldLe64_run (hreads i hle)

theorem keccakAbsorbBlock_run (hstp : stp % 8 = 0) (hst : s.Reads stp 200) (hblk : s.Reads blk 136)
    (hd : blk + 136 ≤ stp ∨ stp + 200 ≤ blk) :
    keccakAbsorbBlock stp blk s =
      .ok () (s.put stp (keccakAbsorb (s.bytes.load stp 200) (s.bytes.load blk 136))) := by
  have hread : (s.added stp blk 136).Reads stp 200 := hst
  have hload : (s.added stp blk 136).bytes.load stp 200 =
      List.zipWith (· ^^^ ·) (s.bytes.load stp 136) (s.bytes.load blk 136) ++
        s.bytes.load (stp + 136) 64 :=
    load_put_front s stp (m := 64) (length_added s stp blk 136)
  have habsorb : keccakAbsorb (s.bytes.load stp 200) (s.bytes.load blk 136) =
      KeccakF.permute ((s.added stp blk 136).bytes.load stp 200) := by
    unfold keccakAbsorb
    rw [ByteMap.length_load, take_load _ _ (by decide), drop_load _ _ (by decide), hload]
  have hlen : (keccakAbsorb (s.bytes.load stp 200) (s.bytes.load blk 136)).length = 200 :=
    length_keccakAbsorb (ByteMap.length_load _ _ _) (ByteMap.length_load _ _ _)
  unfold keccakAbsorbBlock keccakF1600
  rw [bind_run_ok (addBlock_run hstp hst hblk hd), foreignCall_run _ hread, ← habsorb]
  refine congrArg _ (put_put s stp ?_)
  rw [length_added, hlen]
  decide

/-! ## The message -/

/-- The state after the first `j` bytes of the message, a number of whole blocks. -/
def absorbed (message : Bytes) (j : Nat) : Bytes :=
  absorb keccakAbsorb 136 (j / 136) (List.replicate 200 0) message

omit [Stray] in
theorem length_absorbed {message : Bytes} {j : Nat} (hj : j ≤ message.length) :
    (absorbed message j).length = 200 := by
  refine absorb_keeps (fun state : Bytes => state.length = 200)
    (fun state block hs hb => length_keccakAbsorb hs hb) ?_ (List.length_replicate ..)
  exact (Nat.div_mul_le_self j 136).trans hj

theorem keccakBlocks_run (k : KeccakBuffers) (hmsg : s.Reads p n) (hst : s.Reads k.st 200)
    (hd : Apart p n k.st 200) :
    blockLoop n 136 (fun i => keccakAbsorbBlock k.st (p + i)) 0
        (s.put k.st (List.replicate 200 0)) =
      .ok (n / 136 * 136) (s.put k.st (absorbed (s.bytes.load p n) n)) := by
  have hlen : ∀ j ≤ n, (absorbed (s.bytes.load p n) j).length = 200 :=
    fun j hj => length_absorbed (by rwa [ByteMap.length_load])
  obtain ⟨j, -, hj, hend, hmod, hrun⟩ := blockLoop_run
    (fun j => s.put k.st (absorbed (s.bytes.load p n) j)) 136
    (fun i => keccakAbsorbBlock k.st (p + i)) (by decide) (Nat.zero_le n) fun j _ hmod hle => by
      have hdj := (hd.part hle).disjoint (by decide) (by decide)
      have hblock : (s.put k.st (absorbed (s.bytes.load p n) j)).bytes.load (p + j) 136 =
          ((s.bytes.load p n).drop (j / 136 * 136)).take 136 := by
        rw [load_put_off s (by rw [hlen j (by omega)]; exact hdj), show j / 136 * 136 = j by omega,
          drop_load _ _ (by omega), take_load _ _ (by omega)]
      have hst' : (s.put k.st (absorbed (s.bytes.load p n) j)).Reads k.st 200 := hst
      have hblk : (s.put k.st (absorbed (s.bytes.load p n) j)).Reads (p + j) 136 :=
        hmsg.part (Nat.le_add_right p j) (by omega)
      rw [keccakAbsorbBlock_run k.aligned_st hst' hblk hdj, load_put_self s k.st (hlen j (by omega)), hblock]
      have hnext : absorbed (s.bytes.load p n) (j + 136) =
          keccakAbsorb (absorbed (s.bytes.load p n) j)
            (((s.bytes.load p n).drop (j / 136 * 136)).take 136) := by
        unfold absorbed
        rw [show (j + 136) / 136 = j / 136 + 1 by omega,
          absorb_succ (by rw [ByteMap.length_load]; omega)]
      rw [← hnext, put_put s k.st (by rw [hlen j (by omega), hlen (j + 136) hle])]
  obtain rfl : j = n / 136 * 136 := by omega
  have hall : absorbed (s.bytes.load p n) (n / 136 * 136) = absorbed (s.bytes.load p n) n := by
    unfold absorbed
    rw [Nat.mul_div_cancel _ (by decide)]
  rw [hall] at hrun
  exact hrun

/-! ## The last block -/

omit [KeccakF] in
/-- The highest bit of the last byte. -/
theorem setTop_run {pad : Nat} {front : Bytes} {b : UInt8} (hfront : front.length = 135)
    (hpad : s.Reads pad 136) (hb : b = 0 ∨ b = 1) :
    (do
      let b ← ld8 (pad + 135)
      st8 (pad + 135) (b ||| 128)) (s.put pad (front ++ [b])) =
      .ok () (s.put pad (front ++ [b ||| 128])) := by
  have hread : (s.put pad (front ++ [b])).readable (pad + 135) = true := hpad 135 (by decide)
  have hbyte : (s.put pad (front ++ [b])).bytes (pad + 135) = b := by
    have hat : some ((s.put pad (front ++ [b])).bytes (pad + 135)) = (front ++ [b])[135]? :=
      ByteMap.store_at (by rw [List.length_append, hfront, List.length_singleton]; decide)
    rw [List.getElem?_append_right (Nat.le_of_eq hfront), hfront] at hat
    exact Option.some.inj hat
  rw [bind_run_ok (ld8_run hread), hbyte, st8_run]
  have hword : leBytes 1 (BitVec.ofNat 64 b.toNat ||| 128).toNat = [b ||| 128] := by
    rcases hb with rfl | rfl <;> rfl
  have hput := put_inside s (p := pad) (q := pad + 135) front [b] [] [b ||| 128] (by rw [hfront])
    rfl
  rw [hword]
  exact congrArg _ hput

omit [KeccakF] in
theorem keccakTail_run (pad : Nat) {src rem : Nat} (hrem : rem ≤ 135) (hsrc : s.Reads src rem)
    (hpad : s.Reads pad 136) (hd : Apart src rem pad 136) :
    keccakTail pad src rem s =
      .ok () (s.put pad (s.bytes.load src rem ++ keccakPad rem)) := by
  have hmod : rem % 136 = rem := Nat.mod_eq_of_lt (by omega)
  have hlen := ByteMap.length_load s.bytes src rem
  have hzeros : List.replicate 136 (0 : UInt8) =
      List.replicate rem 0 ++ ([0] ++ List.replicate (135 - rem) 0) := by
    rw [← List.replicate_one, ← List.replicate_add, ← List.replicate_add]
    congr 1
    omega
  have hcopy : memcpy pad src rem (s.put pad (List.replicate 136 0)) =
      .ok () (s.put pad (s.bytes.load src rem ++ ([0] ++ List.replicate (135 - rem) 0))) := by
    have hsame : (s.put pad (List.replicate 136 0)).bytes.load src rem = s.bytes.load src rem :=
      (off_put s (Nat.le_of_eq List.length_replicate)).load hd
    have hread : (s.put pad (List.replicate 136 0)).Reads src rem := hsrc
    have hput := put_inside s (p := pad) (q := pad) [] (List.replicate rem 0)
      ([0] ++ List.replicate (135 - rem) 0) (s.bytes.load src rem) rfl
      (by rw [List.length_replicate, hlen])
    rw [memcpy_run (hd.copies (by omega)) hread, hsame, hzeros]
    exact congrArg _ hput
  have hone := put_inside s (p := pad) (q := pad + rem) (s.bytes.load src rem) [0]
    (List.replicate (135 - rem) 0) [1] (by rw [hlen]) rfl
  have hst8 : st8 (pad + rem) 1
      (s.put pad (s.bytes.load src rem ++ ([0] ++ List.replicate (135 - rem) 0))) =
      .ok () (s.put pad (s.bytes.load src rem ++ ([1] ++ List.replicate (135 - rem) 0))) := by
    rw [st8_run]
    exact congrArg _ hone
  unfold keccakTail
  rw [bind_run_ok (memzero_run _ _ _), bind_run_ok hcopy, bind_run_ok hst8]
  unfold keccakPad
  rw [hmod]
  split
  · next hfull =>
    subst hfull
    exact setTop_run (b := 1) hlen hpad (.inr rfl)
  · next hshort =>
    have hsplit : s.bytes.load src rem ++ ([1] ++ List.replicate (135 - rem) 0) =
        (s.bytes.load src rem ++ 1 :: List.replicate (134 - rem) 0) ++ [(0 : UInt8)] := by
      rw [show 135 - rem = 134 - rem + 1 by omega, List.replicate_succ', List.append_assoc]
      rfl
    have hfront : (s.bytes.load src rem ++ 1 :: List.replicate (134 - rem) 0).length = 135 := by
      rw [List.length_append, hlen, List.length_cons, List.length_replicate]
      omega
    have htop := setTop_run (b := 0) hfront hpad (.inl rfl)
    rw [← hsplit, List.append_assoc] at htop
    exact htop

/-! ## The digest is written -/

omit [KeccakF] in
theorem squeeze_run {stp : Nat} (hstp : stp % 8 = 0) (hst : s.Reads stp 200)
    (hd : Apart out 32 stp 200) :
    squeeze stp out s = .ok () (s.put out (s.bytes.load stp 32)) := by
  have hmove : ∀ j, j % 8 = 0 → j + 8 ≤ 32 → out % 8 = 0 →
      moveWord (out + j) (stp + j) (s.copied out stp j) = .ok () (s.copied out stp (j + 8)) := by
    intro j hj hle hout
    exact moveWord_copied (n := 32) (hst.part (Nat.le_refl stp) (by omega)) hout hstp hj hle
  unfold squeeze
  split
  · next haligned =>
    rw [Nat.and_two_pow_sub_one_eq_mod out 3] at haligned
    have h0 : moveWord out stp s = .ok () (s.copied out stp 8) := hmove 0 rfl (by decide) haligned
    have := hd.disjoint (by decide) (by decide)
    rw [bind_run_ok h0, bind_run_ok (hmove 8 rfl (by decide) haligned),
      bind_run_ok (hmove 16 rfl (by decide) haligned), hmove 24 rfl (by decide) haligned,
      copied_eq_put (by omega)]
  · have := hd.disjoint (by decide) (by decide)
    exact memcpy_run (by omega) (hst.part (Nat.le_refl stp) (by omega))

/-- What the hash of a message may change besides the output. -/
def KeccakBuffers.Own (k : KeccakBuffers) (q : Nat) : Prop := At k.st 200 q ∨ At k.pad 136 q

/-- The last block is absorbed and the digest taken. -/
theorem keccakLast_run (k : KeccakBuffers) {state last : Bytes} (hst : s.Reads k.st 200)
    (hpad : s.Reads k.pad 136) (hstate : s.bytes.load k.st 200 = state)
    (hlast : s.bytes.load k.pad 136 = last) (hd : Apart out 32 k.st 200) :
    (do
      keccakAbsorbBlock k.st k.pad
      squeeze k.st out) s =
      .ok () ((s.put k.st (keccakAbsorb state last)).put out
        ((keccakAbsorb state last).take 32)) := by
  have hlen : (keccakAbsorb state last).length = 200 := by
    rw [← hstate, ← hlast]
    exact length_keccakAbsorb (ByteMap.length_load _ _ _) (ByteMap.length_load _ _ _)
  have habsorb := keccakAbsorbBlock_run k.aligned_st hst hpad k.apart.symm
  rw [hstate, hlast] at habsorb
  have hsqueeze := squeeze_run (s := s.put k.st (keccakAbsorb state last)) k.aligned_st hst hd
  have hfront := take_load (s.put k.st (keccakAbsorb state last)).bytes k.st
    (show 32 ≤ 200 by decide)
  rw [load_put_self _ _ hlen] at hfront
  rw [bind_run_ok habsorb, hsqueeze, ← hfront]

omit [Stray] in
omit [KeccakF] in
theorem length_lastBlock {message : Bytes} (hn : message.length = n) :
    (message.drop (n / 136 * 136) ++ keccakPad (n - n / 136 * 136)).length = 136 := by
  rw [List.length_append, List.length_drop, hn, length_keccakPad]
  omega

omit [Stray] in
theorem keccakDigest_eq {message : Bytes} (hn : message.length = n) :
    keccakDigest message = (keccakAbsorb (absorbed message n)
      (message.drop (n / 136 * 136) ++ keccakPad (n - n / 136 * 136))).take 32 := by
  have hlen : (keccakPad n).length = 1 * 136 - message.length % 136 := by
    rw [length_keccakPad, hn]
  have hpadded := absorb_padded keccakAbsorb (List.replicate 200 0) (by decide) hlen (by omega)
  have hpad : keccakPad (n - n / 136 * 136) = keccakPad n := by
    unfold keccakPad
    rw [show (n - n / 136 * 136) % 136 = n % 136 by omega]
  have hwhole := List.take_of_length_le (Nat.le_of_eq (length_lastBlock hn))
  rw [hpad] at hwhole ⊢
  unfold keccakDigest
  dsimp only
  rw [hn, hpadded, hn]
  unfold absorbed
  rw [absorb, absorb, hwhole]

/-- The digest of a message that may be read, with buffers of which it takes no part. Nothing
besides the message and the buffers need be readable, and the digest may overwrite the message. -/
theorem keccak256_run (k : KeccakBuffers) (hmsg : s.Reads p n)
    (hown : ∀ q, k.Own q → s.readable q = true) (hin : ∀ q, At p n q → ¬k.Own q)
    (hout : ∀ q, At out 32 q → ¬k.Own q) :
    ∃ s', keccak256 k p n out s = .ok () s' ∧
      s'.bytes.load out 32 = keccakDigest (s.bytes.load p n) ∧
      Off (fun q => k.Own q ∨ At out 32 q) s s' := by
  have hst : s.Reads k.st 200 := fun i hi => hown _ (.inl ⟨Nat.le_add_right _ i, by omega⟩)
  have hpad : s.Reads k.pad 136 := fun i hi => hown _ (.inr ⟨Nat.le_add_right _ i, by omega⟩)
  have hdst : Apart p n k.st 200 := fun q hq h => hin q hq (.inl h)
  have hdpad : Apart p n k.pad 136 := fun q hq h => hin q hq (.inr h)
  have hblocks := keccakBlocks_run k hmsg hst hdst
  generalize hmessage : s.bytes.load p n = message at hblocks ⊢
  have hn : message.length = n := by rw [← hmessage, ByteMap.length_load]
  have hA : (absorbed message n).length = 200 := length_absorbed (Nat.le_of_eq hn.symm)
  have hrest : (s.put k.st (absorbed message n)).bytes.load (p + n / 136 * 136)
      (n - n / 136 * 136) = message.drop (n / 136 * 136) := by
    rw [(off_put s (Nat.le_of_eq hA)).load (hdst.part (by omega)), ← hmessage,
      drop_load _ _ (by omega)]
  have htail := keccakTail_run (s := s.put k.st (absorbed message n)) k.pad
    (show n - n / 136 * 136 ≤ 135 by omega)
    (Reads.part hmsg (Nat.le_add_right p (n / 136 * 136)) (by omega)) hpad (hdpad.part (by omega))
  have hP := length_lastBlock hn
  have hdigest := keccakDigest_eq hn
  rw [hrest] at htail
  generalize message.drop (n / 136 * 136) ++ keccakPad (n - n / 136 * 136) = last
    at htail hP hdigest
  have hstate : ((s.put k.st (absorbed message n)).put k.pad last).bytes.load k.st 200 =
      absorbed message n := by
    have := k.apart
    rw [load_put_off _ (by rw [hP]; omega), load_put_self _ _ hA]
  have hdout : Apart out 32 k.st 200 := fun q hq h => hout q hq (.inl h)
  have hlast := keccakLast_run (s := (s.put k.st (absorbed message n)).put k.pad last) k hst hpad
    hstate (load_put_self _ _ hP) hdout
  have hlen := length_keccakAbsorb hA hP
  have h32 : (keccakDigest message).length = 32 := by
    rw [hdigest, List.length_take, hlen]
    rfl
  rw [← hdigest] at hlast
  have hrun : keccak256 k p n out s = .ok () ((((s.put k.st (absorbed message n)).put k.pad
      last).put k.st (keccakAbsorb (absorbed message n) last)).put out (keccakDigest message)) := by
    unfold keccak256
    dsimp only
    rw [bind_run_ok (memzero_run _ _ _), bind_run_ok hblocks, bind_run_ok htail, hlast]
  have hinst : ∀ q, At k.st 200 q → k.Own q ∨ At out 32 q := fun q hq => .inl (.inl hq)
  refine ⟨_, hrun, load_put_self _ _ h32, ?_⟩
  exact ((off_put s (Nat.le_of_eq hA)).mono hinst).trans
    (((off_put _ (Nat.le_of_eq hP)).mono fun q hq => .inl (.inr hq)).trans
      (((off_put _ (Nat.le_of_eq hlen)).mono hinst).trans
        ((off_put _ (Nat.le_of_eq h32)).mono fun q hq => .inr hq)))

end StatelessGuest.Digest
