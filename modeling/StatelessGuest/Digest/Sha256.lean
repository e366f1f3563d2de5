import StatelessGuest.Digest.Strengthen

/-!
# SHA-256

The compression is a foreign call on an array that holds the packed state and a block.

* `sha256Block`, `sha256`, `sha256Pair`.
* `sha256Digest`: the digest of a message.
* `sha256_run`, `sha256Pair_run`: the digests are written.
-/

namespace StatelessGuest.Digest

open Lib Mem

/-- The compression of a block into eight words. -/
class Sha256Compression where
  compress : List (BitVec 32) → Bytes → List (BitVec 32)
  length_compress : ∀ ws block, (compress ws block).length = 8

/-- The state (`sha_st`), the last blocks (`sha_pad`) and the array of the foreign call
(`sha_accel`), three allocations. -/
structure Sha256Buffers where
  st : Nat
  pad : Nat
  accel : Nat
  aligned_st : st % 8 = 0
  aligned_accel : accel % 8 = 0
  apart_pad : Apart pad 128 st 64
  apart_accel : Apart accel 96 st 64
  apart_pad_accel : Apart pad 128 accel 96

/-- The words that the state starts with. -/
def sha256Start : List (BitVec 32) :=
  [1779033703, 3144134277, 1013904242, 2773480762, 1359893119, 2600822924, 528734635, 1541459225]

section

variable [Stray] [Sha256Compression]

/-- The effect of the foreign call on its array: the packed words are replaced. -/
def sha256f (array : Bytes) : Bytes :=
  words 4 (Sha256Compression.compress ((unpack 4 8 (array.take 32)).map (BitVec.ofNat 32))
    (array.drop 32)) ++ array.drop 32

def sha256StateInit (stp : Nat) : MemM Unit := stAll stp (sha256Start.map (BitVec.zeroExtend 64))

/-- The words of the state packed in pairs. -/
def packState (accel stp i : Nat) : MemM Unit := do
  let lo ← lds (stp + i * 16)
  let hi ← lds (stp + i * 16 + 8)
  st (accel + i * 8) (((lo <<< 32) >>> 32) ||| (((hi <<< 32) >>> 32) <<< 32))

def unpackState (accel stp i : Nat) : MemM Unit := do
  let packed ← lds (accel + i * 8)
  st (stp + i * 16) ((packed <<< 32) >>> 32)
  st (stp + i * 16 + 8) (packed >>> 32)

/-- The block is copied into the array unless it was built there. -/
def copyBlock (accel blk : Nat) : MemM Unit :=
  if blk ≠ accel + 32 then memcpy (accel + 32) blk 64 else pure ()

def sha256Block (b : Sha256Buffers) (stp blk : Nat) : MemM Unit := do
  copyBlock b.accel blk
  countLoop 4 1 (packState b.accel stp)
  foreignCall sha256f b.accel 96
  countLoop 4 1 (unpackState b.accel stp)

def sha256Finish (stp out : Nat) : MemM Unit := writeWords stBe32 8 stp out

def sha256 (b : Sha256Buffers) (p len out : Nat) : MemM Unit := do
  sha256StateInit b.st
  mdBlocks (sha256Block b b.st) stBe64 b.pad p len
  sha256Finish b.st out

def sha256Pair (b : Sha256Buffers) (inputA inputB out : Nat) : MemM Unit := do
  sha256StateInit b.st
  memcpy (b.accel + 32) inputA 32
  memcpy (b.accel + 64) inputB 32
  sha256Block b b.st (b.accel + 32)
  memzero (b.accel + 32) 64
  st8 (b.accel + 32) 128
  stBe64 (b.accel + 88) 512
  sha256Block b b.st (b.accel + 32)
  sha256Finish b.st out

end

/-! ## The digest -/

/-- The digest of a message: the padding ends with the length in bits, highest byte first. -/
def sha256Digest [Sha256Compression] (message : Bytes) : Bytes :=
  let padded := message ++ mdPad (beBytes 8 (8 * message.length)) message.length
  digestOf (beBytes 4)
    (absorb Sha256Compression.compress 64 (padded.length / 64) sha256Start padded)

/-! ## One block -/

section

variable [Stray] [Sha256Compression] {s : Mem} {stp accel blk : Nat} {ws : List (BitVec 32)}
  {block : Bytes}

omit [Stray] in
theorem sha256f_words (hws : ws.length = 8) (hblock : block.length = 64) :
    sha256f (words 4 ws ++ block) = words 4 (Sha256Compression.compress ws block) ++ block := by
  have hlen : (words 4 ws).length = 32 := by rw [length_words, hws]
  have hunpack : (unpack 4 8 (words 4 ws)).map (BitVec.ofNat 32) = ws := by
    have hsmall : ∀ v ∈ ws.map BitVec.toNat, v < 256 ^ 4 := by
      intro v hv
      obtain ⟨w, -, rfl⟩ := List.mem_map.mp hv
      exact w.isLt
    have hback := unpack_pack hsmall
    rw [List.length_map, hws] at hback
    unfold words
    rw [hback, List.map_map]
    refine (List.map_congr_left fun w _ => ?_).trans (List.map_id ws)
    exact BitVec.ofNat_toNat 32 w
  unfold sha256f
  rw [List.take_left' hlen, List.drop_left' hlen, hunpack]

omit [Sha256Compression] in
theorem toNat_low (w : Word) : ((w <<< 32) >>> 32).toNat = w.toNat % 2 ^ 32 := by
  rw [BitVec.toNat_ushiftRight, BitVec.toNat_shiftLeft, Nat.shiftRight_eq_div_pow,
    Nat.shiftLeft_eq]
  omega

omit [Stray] [Sha256Compression] in
theorem toNat_wordOf_word (k : Nat) (hk : 4 ≤ k) (hk' : k ≤ 8) (w : BitVec 32) :
    (wordOf (leBytes k w.toNat)).toNat = w.toNat := by
  have hpow : 256 ^ 4 ≤ 256 ^ k := Nat.pow_le_pow_right (by decide) hk
  have := w.isLt
  rw [toNat_wordOf (by rwa [length_leBytes]), leNat_leBytes_of_lt (by omega)]

omit [Stray] [Sha256Compression] in
theorem leNat_pair (a b : BitVec 32) :
    (wordOf (leBytes 4 a.toNat ++ leBytes 4 b.toNat)).toNat = a.toNat + 2 ^ 32 * b.toNat := by
  have ha := a.isLt
  have hb := b.isLt
  rw [toNat_wordOf (by simp), leNat_append, length_leBytes, leNat_leBytes_of_lt (by omega),
    leNat_leBytes_of_lt (by omega)]
  rfl

omit [Stray] [Sha256Compression] in
theorem words_take_two {j k : Nat} (hk : 2 * k + 1 < ws.length) :
    words j (ws.take (2 * (k + 1))) =
      words j (ws.take (2 * k)) ++ (leBytes j ws[2 * k].toNat ++ leBytes j ws[2 * k + 1].toNat) := by
  have hnext : 2 * (k + 1) = 2 * k + 1 + 1 := rfl
  rw [hnext, words_take_succ hk, words_take_succ (by omega), List.append_assoc]

omit [Sha256Compression] in
theorem packState_packed {k : Nat} (hstp : stp % 8 = 0) (haccel : accel % 8 = 0)
    (hread : s.Reads stp 64) (hd : Apart accel 96 stp 64) (hws : ws.length = 8)
    (hload : s.bytes.load stp 64 = words 8 ws) (hk : k < 4) :
    packState accel stp k (s.put accel (words 4 (ws.take (2 * k)))) =
      .ok () (s.put accel (words 4 (ws.take (2 * (k + 1))))) := by
  have hlen : (words 4 (ws.take (2 * k))).length = 8 * k := by
    rw [length_words, List.length_take, Nat.min_eq_left (by omega)]
    omega
  have hdis := hd.disjoint (by decide) (by decide)
  have hsame : ∀ q, stp ≤ q → q + 8 ≤ stp + 64 →
      (s.put accel (words 4 (ws.take (2 * k)))).bytes.load q 8 = s.bytes.load q 8 :=
    fun q hq hq' => load_put_off s (by rw [hlen]; omega)
  have hreads : ∀ q, stp ≤ q → q + 8 ≤ stp + 64 →
      (s.put accel (words 4 (ws.take (2 * k)))).Reads q 8 := fun q hq hq' => hread.part hq hq'
  have hload' : s.bytes.load stp (8 * ws.length) = words 8 ws := by rw [hws]; exact hload
  have hlo : s.bytes.load (stp + k * 16) 8 = leBytes 8 ws[2 * k].toNat := by
    rw [← load_word hload' (by omega), show stp + k * 16 = stp + 8 * (2 * k) by omega]
  have hhi : s.bytes.load (stp + k * 16 + 8) 8 = leBytes 8 ws[2 * k + 1].toNat := by
    rw [← load_word hload' (by omega), show stp + k * 16 + 8 = stp + 8 * (2 * k + 1) by omega]
  have hlow : ∀ w : BitVec 32, (wordOf (leBytes 8 w.toNat) <<< 32) >>> 32 =
      wordOf (leBytes 4 w.toNat) := by
    intro w
    apply BitVec.eq_of_toNat_eq
    rw [toNat_low, toNat_wordOf_word 8 (by decide) (by decide),
      toNat_wordOf_word 4 (by decide) (by decide), Nat.mod_eq_of_lt w.isLt]
  have hpair : leBytes 8 (wordOf (leBytes 4 ws[2 * k].toNat) |||
      wordOf (leBytes 4 ws[2 * k + 1].toNat) <<< 32).toNat =
        leBytes 4 ws[2 * k].toNat ++ leBytes 4 ws[2 * k + 1].toNat := by
    have hfit : (leBytes 4 ws[2 * k].toNat).length + (leBytes 4 ws[2 * k + 1].toNat).length ≤ 8 := by
      simp
    have happend := wordOf_append hfit
    rw [length_leBytes] at happend
    rw [← happend, leBytes_wordOf (by simp)]
  unfold packState
  rw [bind_run_ok (lds_run (by omega) (hreads _ (by omega) (by omega))),
    bind_run_ok (lds_run (by omega) (hreads _ (by omega) (by omega))), st_run (by omega),
    hsame _ (by omega) (by omega), hsame _ (by omega) (by omega), hlo, hhi, hlow, hlow, hpair,
    words_take_two (by omega), put_append s accel (words 4 (ws.take (2 * k))), hlen,
    Nat.mul_comm k 8]

omit [Sha256Compression] in
theorem unpackState_unpacked {k : Nat} (hstp : stp % 8 = 0) (haccel : accel % 8 = 0)
    (hread : s.Reads accel 32) (hd : Apart accel 32 stp 64) (hws : ws.length = 8)
    (hload : s.bytes.load accel 32 = words 4 ws) (hk : k < 4) :
    unpackState accel stp k (s.put stp (words 8 (ws.take (2 * k)))) =
      .ok () (s.put stp (words 8 (ws.take (2 * (k + 1))))) := by
  have hlen : (words 8 (ws.take (2 * k))).length = 16 * k := by
    rw [length_words, List.length_take, Nat.min_eq_left (by omega)]
    omega
  have hdis := hd.disjoint (by decide) (by decide)
  have hread' : (s.put stp (words 8 (ws.take (2 * k)))).Reads (accel + k * 8) 8 :=
    hread.part (by omega) (by omega)
  have hload' : s.bytes.load accel (4 * ws.length) = words 4 ws := by rw [hws]; exact hload
  have hpacked : (s.put stp (words 8 (ws.take (2 * k)))).bytes.load (accel + k * 8) 8 =
      leBytes 4 ws[2 * k].toNat ++ leBytes 4 ws[2 * k + 1].toNat := by
    rw [load_put_off s (by rw [hlen]; omega), ByteMap.load_add s.bytes (accel + k * 8) 4 4,
      ← load_word hload' (by omega), ← load_word hload' (by omega),
      show accel + k * 8 = accel + 4 * (2 * k) by omega,
      show accel + 4 * (2 * k) + 4 = accel + 4 * (2 * k + 1) by omega]
  have ha := ws[2 * k].isLt
  have hb := ws[2 * k + 1].isLt
  have hvalue := leNat_pair ws[2 * k] ws[2 * k + 1]
  have hlo : ((wordOf (leBytes 4 ws[2 * k].toNat ++ leBytes 4 ws[2 * k + 1].toNat) <<< 32) >>>
      32).toNat = ws[2 * k].toNat := by
    rw [toNat_low, hvalue]
    omega
  have hhi : (wordOf (leBytes 4 ws[2 * k].toNat ++ leBytes 4 ws[2 * k + 1].toNat) >>> 32).toNat =
      ws[2 * k + 1].toNat := by
    rw [toNat_ushiftRight, hvalue]
    omega
  unfold unpackState
  rw [bind_run_ok (lds_run (by omega) hread'), hpacked, bind_run_ok (st_run (by omega) _ _),
    st_run (by omega), hlo, hhi, words_take_two (by omega), put_append, put_append, hlen,
    length_leBytes, Nat.mul_comm k 16]

theorem length_compress (ws : List (BitVec 32)) (block : Bytes) :
    (Sha256Compression.compress ws block).length = 8 := Sha256Compression.length_compress ws block

/-- The block is apart from the array, or at its place in it. -/
theorem sha256Block_ends (b : Sha256Buffers) (hws : ws.length = 8) (hst : s.Reads b.st 64)
    (haccel : s.Reads b.accel 96) (hblk : s.Reads blk 64)
    (hload : s.bytes.load b.st 64 = words 8 ws) (hdst : Apart blk 64 b.st 64)
    (hd : blk = b.accel + 32 ∨ Apart blk 64 b.accel 96) :
    ∃ s', sha256Block b b.st blk s = .ok () s' ∧
      s'.bytes.load b.st 64 =
        words 8 (Sha256Compression.compress ws (s.bytes.load blk 64)) ∧
      Off (fun q => At b.st 64 q ∨ At b.accel 96 q) s s' := by
  have hcs := length_compress ws (s.bytes.load blk 64)
  generalize hblock : s.bytes.load blk 64 = block at hcs ⊢
  have hdis := b.apart_accel.disjoint (by decide) (by decide)
  have h64 : block.length = 64 := by rw [← hblock, ByteMap.length_load]
  -- the block is in the array
  obtain ⟨s₁, hrun₁, hin₁, hoff₁⟩ : ∃ s₁, copyBlock b.accel blk s = .ok () s₁ ∧
      s₁.bytes.load (b.accel + 32) 64 = block ∧ Off (At b.accel 96) s s₁ := by
    unfold copyBlock
    split
    · next hne =>
      have hdb := (hd.resolve_left hne).disjoint (by decide) (by decide)
      refine ⟨_, memcpy_run (by omega) hblk, ?_, ?_⟩
      · rw [hblock]
        exact load_put_self s _ h64
      · refine (off_put s (Nat.le_refl _)).mono fun q hq => ?_
        rw [ByteMap.length_load] at hq
        unfold At at hq ⊢
        omega
    · next heq =>
      rw [Decidable.not_not] at heq
      exact ⟨s, rfl, heq ▸ hblock, .refl _ _⟩
  have hload₁ : s₁.bytes.load b.st 64 = words 8 ws := by
    rw [hoff₁.load fun q hq h => b.apart_accel q h hq, hload]
  have hpack := countLoop_run (fun k => s₁.put b.accel (words 4 (ws.take (2 * k)))) 4 1
    (packState b.accel b.st) (by decide) fun k hk => by
      rw [Nat.mul_one]
      exact packState_packed b.aligned_st b.aligned_accel (hoff₁.reads hst) b.apart_accel hws
        hload₁ hk
  have hzero₁ : s₁.put b.accel (words 4 (ws.take (2 * 0))) = s₁ := put_nil _ _
  rw [hzero₁, List.take_of_length_le (by omega)] at hpack
  have h32 : (words 4 ws).length = 32 := by rw [length_words, hws]
  have harray : (s₁.put b.accel (words 4 ws)).bytes.load b.accel 96 = words 4 ws ++ block := by
    rw [load_put_front s₁ b.accel (m := 64) h32, hin₁]
  have hcall := foreignCall_run (s := s₁.put b.accel (words 4 ws)) sha256f
    (show (s₁.put b.accel (words 4 ws)).Reads b.accel 96 from hoff₁.reads haccel)
  rw [harray, sha256f_words hws h64] at hcall
  generalize hcompress : Sha256Compression.compress ws block = cs at hcs hcall ⊢
  have hcs32 : (words 4 cs).length = 32 := by rw [length_words, hcs]
  have hlen : (words 4 cs ++ block).length = 96 := by rw [List.length_append, hcs32, h64]
  generalize hs₃ : (s₁.put b.accel (words 4 ws)).put b.accel (words 4 cs ++ block) = s₃ at hcall
  have hoff₃ : Off (At b.accel 96) s s₃ := by
    subst hs₃
    exact hoff₁.trans (((off_put s₁ (Nat.le_of_eq h32)).mono fun q hq => by
      unfold At at hq ⊢
      omega).trans (off_put _ (Nat.le_of_eq hlen)))
  have hload₃ : s₃.bytes.load b.accel 32 = words 4 cs := by
    rw [← take_load s₃.bytes b.accel (show 32 ≤ 96 by decide), ← hs₃, load_put_self _ _ hlen,
      List.take_left' hcs32]
  have hunpack := countLoop_run (fun k => s₃.put b.st (words 8 (cs.take (2 * k)))) 4 1
    (unpackState b.accel b.st) (by decide) fun k hk => by
      rw [Nat.mul_one]
      exact unpackState_unpacked b.aligned_st b.aligned_accel
        ((hoff₃.reads haccel).part (Nat.le_refl _) (by omega))
        (apart_of_disjoint (by omega)) hcs hload₃ hk
  have hzero₃ : s₃.put b.st (words 8 (cs.take (2 * 0))) = s₃ := put_nil _ _
  rw [hzero₃, List.take_of_length_le (by omega)] at hunpack
  have hcs64 : (words 8 cs).length = 64 := by rw [length_words, hcs]
  refine ⟨_, ?_, load_put_self s₃ b.st hcs64, ?_⟩
  · unfold sha256Block
    rw [bind_run_ok hrun₁, bind_run_ok hpack, bind_run_ok hcall]
    exact hunpack
  · exact (hoff₃.mono fun q hq => .inr hq).trans
      ((off_put s₃ (Nat.le_of_eq hcs64)).mono fun q hq => .inl hq)

/-! ## A message -/

/-- What the hash of a message may change besides the output. -/
def Sha256Buffers.Own (b : Sha256Buffers) (q : Nat) : Prop :=
  (At b.st 64 q ∨ At b.accel 96 q) ∨ At b.pad 128 q

omit [Stray] [Sha256Compression] in
theorem beBytes_bits (n : Nat) :
    beBytes 8 (BitVec.ofNat 64 n <<< 3).toNat = beBytes 8 (8 * n) := by
  rw [toNat_bits, beBytes_eq_reverse, beBytes_eq_reverse, leBytes_mod (Nat.le_refl 8)]

theorem sha256Block_follows (b : Sha256Buffers) :
    (wordChain b.st 8 Sha256Compression.compress
      fun q => At b.st 64 q ∨ At b.accel 96 q).Follows (sha256Block b b.st) where
  run := by
    intro s ws blk ⟨hws, hload⟩ hown hblk hd
    obtain ⟨s', hrun, hload', hoff⟩ := sha256Block_ends b hws
      (fun i hi => hown _ (.inl ⟨Nat.le_add_right b.st i, by omega⟩))
      (fun i hi => hown _ (.inr ⟨Nat.le_add_right b.accel i, by omega⟩)) hblk hload
      (fun q hq hq' => hd q hq (.inl hq')) (.inr fun q hq hq' => hd q hq (.inr hq'))
    exact ⟨s', hrun, ⟨length_compress _ _, hload'⟩, hoff⟩
  kept := by
    intro s s' ws ⟨hws, hload⟩ hsame
    refine ⟨hws, (ByteMap.load_congr fun i hi => hsame _ (.inl ?_)).trans hload⟩
    exact ⟨Nat.le_add_right b.st i, by omega⟩

/-- The digest of a message of any length. Nothing besides it and the buffers need be readable. -/
theorem sha256_run (b : Sha256Buffers) {p n out : Nat} (hmsg : s.Reads p n)
    (hown : ∀ q, b.Own q → s.readable q = true) (hin : ∀ q, At p n q → ¬b.Own q)
    (hout : ∀ q, At out 32 q → ¬b.Own q) :
    ∃ s', sha256 b p n out s = .ok () s' ∧
      s'.bytes.load out 32 = sha256Digest (s.bytes.load p n) ∧
      Off (fun q => b.Own q ∨ At out 32 q) s s' := by
  have hpadSt := b.apart_pad
  have hpadAccel := b.apart_pad_accel
  have hlen : ∀ q (t : Mem), stBe64 q (BitVec.ofNat 64 n <<< 3) t =
      .ok () (t.put q (beBytes 8 (8 * n))) := fun q t => beBytes_bits n ▸ stBe64_run q _ t
  obtain ⟨s', hrun, hdigest, hoff⟩ := md_run (s := s) (n := n) (sha256Block_follows b) hlen
    (length_beBytes 8 _) stBe32_run (length_beBytes 4) b.aligned_st
    (show sha256Start.length = 8 from rfl) (fun q hq => .inl hq) hown hmsg hin
    (fun q hq hq' => hq'.elim (hpadSt q hq) (hpadAccel q hq)) (fun q hq hq' => hout q hq (.inl hq'))
  refine ⟨s', hrun, ?_, hoff⟩
  rw [hdigest]
  unfold sha256Digest
  rw [ByteMap.length_load]

/-! ## A message of 64 bytes -/

/-- The second block of a message of 64 bytes. -/
def pairPad : Bytes := mdPad (beBytes 8 512) 64

omit [Stray] [Sha256Compression] in
theorem pairPad_eq : pairPad = [] ++ ([128] ++ (List.replicate 55 0 ++ beBytes 8 512)) := by
  unfold pairPad mdPad
  rfl

omit [Stray] in
theorem sha256Digest_pair {first : Bytes} (hlen : first.length = 64) :
    sha256Digest first = digestOf (beBytes 4) (Sha256Compression.compress
      (Sha256Compression.compress sha256Start first) pairPad) := by
  have hpad : pairPad.length = 64 := rfl
  have hmd : mdPad (beBytes 8 (8 * 64)) 64 = pairPad := rfl
  unfold sha256Digest
  dsimp only
  rw [hlen, hmd, List.length_append, hlen, hpad, show (64 + 64) / 64 = 1 + 1 from rfl, absorb,
    absorb, absorb, List.take_left' hlen, List.drop_left' hlen,
    List.take_of_length_le (Nat.le_of_eq hpad)]

/-- The padding block is built out of zeros. -/
theorem put_pairPad (q : Nat) (s : Mem) :
    ((s.put q (List.replicate 64 0)).put q (leBytes 1 (128 : Word).toNat)).put (q + 56)
      (beBytes 8 (512 : Word).toNat) = s.put q pairPad := by
  have hzeros : List.replicate 64 (0 : UInt8) =
      [] ++ ([0] ++ (List.replicate 55 0 ++ List.replicate 8 0)) := rfl
  have hone : leBytes 1 (128 : Word).toNat = [128] := rfl
  have hbits : (512 : Word).toNat = 512 := rfl
  have hmark := put_inside s (p := q) (q := q) [] [0] (List.replicate 55 0 ++ List.replicate 8 0)
    [128] rfl rfl
  have hend := put_inside s (p := q) (q := q + 56) ([128] ++ List.replicate 55 0)
    (List.replicate 8 0) [] (beBytes 8 512) rfl rfl
  rw [List.append_nil, List.append_nil] at hend
  rw [hzeros, hone, hmark, hbits, List.nil_append, ← List.append_assoc, hend, pairPad_eq,
    List.nil_append, List.append_assoc]

/-- The digest of two chunks, which the output may overlap. -/
theorem sha256Pair_run (b : Sha256Buffers) {inputA inputB out : Nat} (hA : s.Reads inputA 32)
    (hB : s.Reads inputB 32) (hown : ∀ q, b.Own q → s.readable q = true)
    (hinA : ∀ q, At inputA 32 q → ¬b.Own q) (hinB : ∀ q, At inputB 32 q → ¬b.Own q)
    (hout : ∀ q, At out 32 q → ¬b.Own q) :
    ∃ s', sha256Pair b inputA inputB out s = .ok () s' ∧
      s'.bytes.load out 32 = sha256Digest (s.bytes.load inputA 32 ++ s.bytes.load inputB 32) ∧
      Off (fun q => b.Own q ∨ At out 32 q) s s' := by
  have hst : s.Reads b.st 64 := fun i hi =>
    hown _ (.inl (.inl ⟨Nat.le_add_right b.st i, by omega⟩))
  have haccel : s.Reads b.accel 96 := fun i hi =>
    hown _ (.inl (.inr ⟨Nat.le_add_right b.accel i, by omega⟩))
  have hdis := b.apart_accel.disjoint (by decide) (by decide)
  have hdisA : Apart inputA 32 b.accel 96 := fun q hq h => hinA q hq (.inl (.inr h))
  have hdisB : Apart inputB 32 b.accel 96 := fun q hq h => hinB q hq (.inl (.inr h))
  have hgapA := hdisA.disjoint (by decide) (by decide)
  have hgapB := hdisB.disjoint (by decide) (by decide)
  have hfirst := ByteMap.length_load s.bytes inputA 32
  have hsecond := ByteMap.length_load s.bytes inputB 32
  generalize hbytesA : s.bytes.load inputA 32 = as at hfirst ⊢
  generalize hbytesB : s.bytes.load inputB 32 = bs at hsecond ⊢
  have h64 : (as ++ bs).length = 64 := by rw [List.length_append, hfirst, hsecond]
  have hstart : (words 8 sha256Start).length = 64 := rfl
  -- the two chunks are in the array
  obtain ⟨s₁, hs₁⟩ : ∃ t, t = s.put b.st (words 8 sha256Start) := ⟨_, rfl⟩
  have hinit : sha256StateInit b.st s = .ok () s₁ := by
    unfold sha256StateInit
    rw [stAll_run b.aligned_st, pack_zeroExtend, hs₁]
  have hoff₁ : Off b.Own s s₁ := by
    rw [hs₁]
    exact (off_put s (Nat.le_of_eq hstart)).mono fun q hq => .inl (.inl hq)
  have hloadA : s₁.bytes.load inputA 32 = as := (hoff₁.load hinA).trans hbytesA
  have hloadB : (s₁.put (b.accel + 32) as).bytes.load inputB 32 = bs := by
    rw [load_put_off s₁ (by rw [hfirst]; omega), hoff₁.load hinB, hbytesB]
  have hcopyA : memcpy (b.accel + 32) inputA 32 s₁ = .ok () (s₁.put (b.accel + 32) as) := by
    rw [memcpy_run (by omega) (hoff₁.reads hA), hloadA]
  have hcopyB : memcpy (b.accel + 64) inputB 32 (s₁.put (b.accel + 32) as) =
      .ok () ((s₁.put (b.accel + 32) as).put (b.accel + 64) bs) := by
    have hreads : (s₁.put (b.accel + 32) as).Reads inputB 32 := hoff₁.reads hB
    rw [memcpy_run (by omega) hreads, hloadB]
  obtain ⟨s₂, hs₂⟩ : ∃ t, t = s₁.put (b.accel + 32) (as ++ bs) := ⟨_, rfl⟩
  have hjoin : (s₁.put (b.accel + 32) as).put (b.accel + 64) bs = s₂ := by
    rw [hs₂, put_append, hfirst]
  have harray : ∀ q, At (b.accel + 32) 64 q → b.Own q := fun q hq => .inl (.inr ⟨by
    have := hq.1
    omega, by
    have := hq.2
    omega⟩)
  have hoff₂ : Off b.Own s s₂ := by
    rw [hs₂]
    exact hoff₁.trans ((off_put s₁ (Nat.le_of_eq h64)).mono harray)
  have hstate₂ : s₂.bytes.load b.st 64 = words 8 sha256Start := by
    rw [hs₂, load_put_off s₁ (by rw [h64]; omega), hs₁]
    exact load_put_self s b.st hstart
  have hblock₂ : s₂.bytes.load (b.accel + 32) 64 = as ++ bs := by
    rw [hs₂]
    exact load_put_self s₁ _ h64
  have happ : Apart (b.accel + 32) 64 b.st 64 := apart_of_disjoint (by omega)
  have hinner : ∀ t, Off b.Own s t → t.Reads (b.accel + 32) 64 := fun t ht =>
    (ht.reads haccel).part (Nat.le_add_right b.accel 32) (by omega)
  obtain ⟨s₃, hrun₃, hstate₃, hoff₃⟩ := sha256Block_ends b (by rfl) (hoff₂.reads hst)
    (hoff₂.reads haccel) (hinner s₂ hoff₂) hstate₂ happ (.inl rfl)
  rw [hblock₂] at hstate₃
  replace hoff₃ : Off b.Own s s₃ := hoff₂.trans (hoff₃.mono fun q hq => .inl hq)
  -- the padding is in the array
  have hpad : pairPad.length = 64 := rfl
  obtain ⟨s₄, hs₄⟩ : ∃ t, t = s₃.put (b.accel + 32) pairPad := ⟨_, rfl⟩
  have hoff₄ : Off b.Own s s₄ := by
    rw [hs₄]
    exact hoff₃.trans ((off_put s₃ (Nat.le_of_eq hpad)).mono harray)
  have hstate₄ : s₄.bytes.load b.st 64 =
      words 8 (Sha256Compression.compress sha256Start (as ++ bs)) := by
    rw [hs₄, load_put_off s₃ (by rw [hpad]; omega), hstate₃]
  have hblock₄ : s₄.bytes.load (b.accel + 32) 64 = pairPad := by
    rw [hs₄]
    exact load_put_self s₃ _ hpad
  obtain ⟨s₅, hrun₅, hstate₅, hoff₅⟩ := sha256Block_ends b (length_compress _ _) (hoff₄.reads hst)
    (hoff₄.reads haccel) (hinner s₄ hoff₄) hstate₄ happ (.inl rfl)
  rw [hblock₄] at hstate₅
  replace hoff₅ : Off b.Own s s₅ := hoff₄.trans (hoff₅.mono fun q hq => .inl hq)
  -- the digest
  have hwords := length_compress (Sha256Compression.compress sha256Start (as ++ bs)) pairPad
  have hdigest := sha256Digest_pair h64
  generalize Sha256Compression.compress (Sha256Compression.compress sha256Start (as ++ bs))
    pairPad = ws at hstate₅ hwords hdigest
  have happOut : Apart out (4 * ws.length) b.st (8 * ws.length) := by
    rw [hwords]
    exact fun q hq hq' => hout q hq (.inl (.inl hq'))
  have hwrite := writeWords_run (s := s₅) stBe32_run (length_beBytes 4) b.aligned_st
    (by rw [hwords]; exact hoff₅.reads hst) (by rw [hwords]; exact hstate₅) happOut
  rw [hwords, ← hdigest] at hwrite
  have h32 : (sha256Digest (as ++ bs)).length = 32 := by
    rw [hdigest, length_digestOf (length_beBytes 4), hwords]
  refine ⟨_, ?_, load_put_self s₅ out h32, ?_⟩
  · unfold sha256Pair
    rw [bind_run_ok hinit, bind_run_ok hcopyA, bind_run_ok hcopyB, hjoin, bind_run_ok hrun₃,
      bind_run_ok (memzero_run _ _ _), bind_run_ok (st8_run _ _ _), bind_run_ok (stBe64_run _ _ _),
      show b.accel + 88 = b.accel + 32 + 56 from rfl, put_pairPad, ← hs₄, bind_run_ok hrun₅]
    exact hwrite
  · exact (hoff₅.mono fun q hq => .inl hq).trans
      ((off_put s₅ (Nat.le_of_eq h32)).mono fun q hq => .inr hq)

end

end StatelessGuest.Digest
