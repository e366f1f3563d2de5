import StatelessGuest.Digest.Strengthen

/-!
# RIPEMD-160

A block is compressed in two lines of eighty rounds, on words of 32 bits that are kept in 64.

* `ripemd160Block`, `ripemd160`.
* `ripemd160Digest`: the digest of a message.
* `ripemd160_run`: the digest is written.
-/

namespace StatelessGuest.Digest

open Lib Mem

/-- The message words (`rmd_x`), the state (`rmd_h`) and the last blocks (`rmd_pad`), three
allocations. -/
structure RipemdBuffers where
  x : Nat
  h : Nat
  pad : Nat
  aligned_x : x % 8 = 0
  aligned_h : h % 8 = 0
  apart_x_h : Apart x 128 h 40
  apart_pad_x : Apart pad 128 x 128
  apart_pad_h : Apart pad 128 h 40

/-- The tables r, r', s and s' (`rmd_tab`), sixteen nibbles in a word. -/
def rmdTable : List Word :=
  [-81985529216486896, -8367027248562561721, -4198093234477904221, 2764919063900629905,
    -2347638613140335356, -4350038065488001051, 2419779895833949110, -3167670409857912481,
    -1550976852838640536, -5102317628327638276, -8541359424168144917, -3640140192597419929,
    6324581712619534043, -4222012596942864693, 7317203453406000633, 7849414023404435864,
    -4758479102614405159, 6331469388073975673, -8116440256495044513, -4909109581246063528]

/-- `RMD_TAB`: entry `j` of table `k`. -/
def rmdTab (k j : Nat) : Nat :=
  ((rmdTable.getD (k * 5 + (j >>> 4)) 0 >>> ((j &&& 15) * 4)) &&& 15).toNat

def and32 (w : Word) : Word := w &&& 4294967295

def rotl32 (w : Word) (n : Nat) : Word := and32 ((w <<< n) ||| (w >>> (32 - n)))

/-- The selection function of round `j`. -/
def rmdF (j : Nat) (x y z : Word) : Word :=
  if j < 16 then x ^^^ y ^^^ z
  else if j < 32 then (x &&& y) ||| ((x ^^^ 4294967295) &&& z)
  else if j < 48 then (x ||| (y ^^^ 4294967295)) ^^^ z
  else if j < 64 then (x &&& z) ||| (y &&& (z ^^^ 4294967295))
  else x ^^^ (y ||| (z ^^^ 4294967295))

/-- The constant of the left line in round `j`. -/
def rmdK (j : Nat) : Word :=
  if j < 16 then 0
  else if j < 32 then 1518500249
  else if j < 48 then 1859775393
  else if j < 64 then 2400959708
  else 2840853838

/-- The constant of the right line in round `j`. -/
def rmdKp (j : Nat) : Word :=
  if j < 16 then 1352829926
  else if j < 32 then 1548603684
  else if j < 48 then 1836072691
  else if j < 64 then 2053994217
  else 0

/-- The five words of a line. -/
structure RmdLine where
  a : Word
  b : Word
  c : Word
  d : Word
  e : Word

/-- A round of a line, with its selection `f`, message word `x`, constant `k` and shift. -/
def RmdLine.round (l : RmdLine) (f x k : Word) (shift : Nat) : RmdLine :=
  let t := and32 (l.a + f + x + k)
  let t := and32 (rotl32 t shift + l.e)
  ⟨l.e, t, l.b, rotl32 l.c 10, l.d⟩

def RmdLine.left (l : RmdLine) (j : Nat) (x : Word) : RmdLine :=
  l.round (rmdF j l.b l.c l.d) x (rmdK j) (rmdTab 2 j)

def RmdLine.right (l : RmdLine) (j : Nat) (x : Word) : RmdLine :=
  l.round (rmdF (79 - j) l.b l.c l.d) x (rmdKp j) (rmdTab 3 j)

/-- The state after the two lines. -/
def rmdCombine (h l r : RmdLine) : List Word :=
  [and32 (h.b + l.c + r.d), and32 (h.c + l.d + r.e), and32 (h.d + l.e + r.a),
    and32 (h.e + l.a + r.b), and32 (h.a + l.b + r.c)]

section

variable [Stray]

/-- `while j < 80`, with `left` rounds to go. -/
def rmdRounds (x : Nat) : Nat → Nat → RmdLine → RmdLine → MemM (RmdLine × RmdLine)
  | 0, _, l, r => return (l, r)
  | left + 1, j, l, r => do
    let w ← lds (x + rmdTab 0 j * 8)
    let w' ← lds (x + rmdTab 1 j * 8)
    rmdRounds x left (j + 1) (l.left j w) (r.right j w')

def loadLine (hp : Nat) : MemM RmdLine := do
  let a ← lds hp
  let b ← lds (hp + 8)
  let c ← lds (hp + 16)
  let d ← lds (hp + 24)
  let e ← lds (hp + 32)
  return ⟨a, b, c, d, e⟩

/-- A message word is widened. -/
def rmdWord (x blk i : Nat) : MemM Unit := do
  let w ← ldLe32 (blk + i * 4)
  st (x + i * 8) w

def ripemd160Block (b : RipemdBuffers) (hp blk : Nat) : MemM Unit := do
  countLoop 16 1 (rmdWord b.x blk)
  let line ← loadLine hp
  let lines ← rmdRounds b.x 80 0 line line
  let h ← loadLine hp
  stAll hp (rmdCombine h lines.1 lines.2)

/-- The words that the state starts with. -/
def ripemd160Start : List (BitVec 32) :=
  [1732584193, 4023233417, 2562383102, 271733878, 3285377520]

def ripemd160 (b : RipemdBuffers) (p n out : Nat) : MemM Unit := do
  stAll b.h (ripemd160Start.map (BitVec.zeroExtend 64))
  mdBlocks (ripemd160Block b b.h) stLe64 b.pad p n
  writeWords stLe32 5 b.h out

end

/-! ## The digest -/

/-- The two lines after the rounds `j`, ..., with the message words `x`. -/
def rmdLines (x : Nat → Word) : Nat → Nat → RmdLine → RmdLine → RmdLine × RmdLine
  | 0, _, l, r => (l, r)
  | left + 1, j, l, r =>
    rmdLines x left (j + 1) (l.left j (x (rmdTab 0 j))) (r.right j (x (rmdTab 1 j)))

/-- The sixteen words of a block. -/
def messageWords (block : Bytes) : List (BitVec 32) := (unpack 4 16 block).map (BitVec.ofNat 32)

def lineOf (ws : List (BitVec 32)) : RmdLine :=
  let w i := (ws.getD i 0).zeroExtend 64
  ⟨w 0, w 1, w 2, w 3, w 4⟩

/-- The compression of a block into the state. -/
def ripemdCompress (ws : List (BitVec 32)) (block : Bytes) : List (BitVec 32) :=
  let x i := ((messageWords block).getD i 0).zeroExtend 64
  let lines := rmdLines x 80 0 (lineOf ws) (lineOf ws)
  (rmdCombine (lineOf ws) lines.1 lines.2).map (BitVec.setWidth 32)

/-- The digest of a message: the padding ends with the length in bits, lowest byte first. -/
def ripemd160Digest (message : Bytes) : Bytes :=
  let padded := message ++ mdPad (leBytes 8 (8 * message.length)) message.length
  digestOf (leBytes 4) (absorb ripemdCompress 64 (padded.length / 64) ripemd160Start padded)

/-! ## One block -/

theorem toNat_and32 (w : Word) : (and32 w).toNat = w.toNat % 2 ^ 32 := by
  unfold and32
  rw [BitVec.toNat_and]
  exact Nat.and_two_pow_sub_one_eq_mod w.toNat 32

theorem rmdTab_lt (k j : Nat) : rmdTab k j < 16 := by
  unfold rmdTab
  rw [BitVec.toNat_and]
  exact Nat.lt_of_le_of_lt Nat.and_le_right (by decide)

theorem length_messageWords (block : Bytes) : (messageWords block).length = 16 := by
  unfold messageWords
  rw [List.length_map, length_unpack]

/-- A word of the state as it is loaded. -/
theorem wordOf_word (w : BitVec 32) : wordOf (leBytes 8 w.toNat) = w.zeroExtend 64 := by
  have hw := w.isLt
  apply BitVec.eq_of_toNat_eq
  rw [toNat_wordOf (Nat.le_of_eq (length_leBytes _ _)), leNat_leBytes_of_lt (by omega),
    BitVec.toNat_setWidth, Nat.mod_eq_of_lt (by omega)]

/-- The state fits into words of 32 bits. -/
theorem pack_rmdCombine (h l r : RmdLine) :
    pack 8 ((rmdCombine h l r).map BitVec.toNat) =
      words 8 ((rmdCombine h l r).map (BitVec.setWidth 32)) := by
  have hsmall : ∀ w : Word, (BitVec.setWidth 32 (and32 w)).toNat = (and32 w).toNat := by
    intro w
    rw [BitVec.toNat_setWidth, toNat_and32, Nat.mod_mod]
  unfold words rmdCombine
  simp only [List.map_cons, List.map_nil, hsmall]

section

variable [Stray] {s : Mem} {hp x blk : Nat} {ws ms : List (BitVec 32)}

/-- A word is loaded from a list of words. -/
theorem lds_word {p k : Nat} (hp : p % 8 = 0) (hread : s.Reads p (8 * k)) (hlen : ws.length = k)
    (hload : s.bytes.load p (8 * k) = words 8 ws) {i : Nat} (hi : i < k) :
    lds (p + 8 * i) s = .ok ((ws.getD i 0).zeroExtend 64) s := by
  subst hlen
  rw [lds_run (by omega) (hread.part (Nat.le_add_right p _) (by omega)), load_word hload hi,
    wordOf_word,
    List.getD_eq_getElem?_getD, List.getElem?_eq_getElem hi, Option.getD_some]

theorem loadLine_run (hhp : hp % 8 = 0) (hread : s.Reads hp 40) (hlen : ws.length = 5)
    (hload : s.bytes.load hp 40 = words 8 ws) : loadLine hp s = .ok (lineOf ws) s := by
  have hword : ∀ i < 5, lds (hp + 8 * i) s = .ok ((ws.getD i 0).zeroExtend 64) s :=
    fun i hi => lds_word hhp hread hlen hload hi
  unfold loadLine
  rw [bind_run_ok (show lds hp s = _ from hword 0 (by decide)),
    bind_run_ok (show lds (hp + 8) s = _ from hword 1 (by decide)),
    bind_run_ok (show lds (hp + 16) s = _ from hword 2 (by decide)),
    bind_run_ok (show lds (hp + 24) s = _ from hword 3 (by decide)),
    bind_run_ok (show lds (hp + 32) s = _ from hword 4 (by decide))]
  rfl

theorem rmdRounds_run (hx : x % 8 = 0) (hread : s.Reads x 128) (hlen : ms.length = 16)
    (hload : s.bytes.load x 128 = words 8 ms) (left j : Nat) (l r : RmdLine) :
    rmdRounds x left j l r s =
      .ok (rmdLines (fun i => (ms.getD i 0).zeroExtend 64) left j l r) s := by
  have hword : ∀ k j, lds (x + rmdTab k j * 8) s =
      .ok ((ms.getD (rmdTab k j) 0).zeroExtend 64) s := by
    intro k j
    rw [Nat.mul_comm]
    exact lds_word hx hread hlen hload (rmdTab_lt k j)
  induction left generalizing j l r with
  | zero => rfl
  | succ left ih => rw [rmdRounds, bind_run_ok (hword 0 j), bind_run_ok (hword 1 j), ih, rmdLines]

omit [Stray] in
/-- A word of the block. -/
theorem messageWords_getElem {block : Bytes} {k : Nat} (hk : k < (messageWords block).length) :
    (messageWords block)[k].toNat = leNat ((block.drop (4 * k)).take 4) := by
  have hlen := length_messageWords block
  have hget := getElem?_unpack (k := 4) block (show k < 16 by omega)
  have hlt := leNat_lt ((block.drop (4 * k)).take 4)
  have hle : ((block.drop (4 * k)).take 4).length ≤ 4 := List.length_take_le 4 _
  have hpow : 256 ^ ((block.drop (4 * k)).take 4).length ≤ 256 ^ 4 :=
    Nat.pow_le_pow_right (by decide) hle
  have hword : (messageWords block)[k]? =
      some (BitVec.ofNat 32 (leNat ((block.drop (4 * k)).take 4))) := by
    unfold messageWords
    rw [List.getElem?_map, hget]
    rfl
  rw [List.getElem?_eq_getElem hk] at hword
  rw [Option.some.inj hword, BitVec.toNat_ofNat, Nat.mod_eq_of_lt (by omega)]

/-- The message words, widened one after the other. -/
theorem rmdWords_run (hx : x % 8 = 0) (hblk : s.Reads blk 64) (hd : Apart blk 64 x 128) :
    countLoop 16 1 (rmdWord x blk) s =
      .ok () (s.put x (words 8 (messageWords (s.bytes.load blk 64)))) := by
  generalize hblock : s.bytes.load blk 64 = block
  have hlen := length_messageWords block
  have hdis := hd.disjoint (by decide) (by decide)
  have hrun := countLoop_run (fun k => s.put x (words 8 ((messageWords block).take k))) 16 1
    (rmdWord x blk) (by decide) fun k hk => by
      have htake : (words 8 ((messageWords block).take k)).length = 8 * k := by
        rw [length_words, List.length_take, Nat.min_eq_left (by omega)]
      have hload : (s.put x (words 8 ((messageWords block).take k))).bytes.load (blk + k * 4) 4 =
          (block.drop (4 * k)).take 4 := by
        rw [load_put_off s (by rw [htake]; omega), ← hblock, drop_load _ _ (by omega),
          take_load _ _ (by omega), Nat.mul_comm]
      have hread : (s.put x (words 8 ((messageWords block).take k))).Reads (blk + k * 4) 4 :=
        hblk.part (Nat.le_add_right blk _) (by omega)
      have hk' : k < (messageWords block).length := by omega
      have hvalue : (wordOf ((block.drop (4 * k)).take 4)).toNat = (messageWords block)[k].toNat := by
        rw [toNat_wordOf ((List.length_take_le 4 _).trans (by decide)), messageWords_getElem hk']
      unfold rmdWord
      rw [Nat.mul_one, bind_run_ok (ldLe32_run hread), hload, st_run (by omega), hvalue,
        words_take_succ hk', put_append, htake, Nat.mul_comm k 8]
  have hzero : s.put x (words 8 ((messageWords block).take 0)) = s := put_nil s x
  rw [hzero, List.take_of_length_le (by omega)] at hrun
  exact hrun

theorem ripemd160Block_ends (b : RipemdBuffers) (hws : ws.length = 5) (hh : s.Reads b.h 40)
    (hx : s.Reads b.x 128) (hblk : s.Reads blk 64) (hload : s.bytes.load b.h 40 = words 8 ws)
    (hd : Apart blk 64 b.x 128) :
    ∃ s', ripemd160Block b b.h blk s = .ok () s' ∧
      s'.bytes.load b.h 40 = words 8 (ripemdCompress ws (s.bytes.load blk 64)) ∧
      Off (fun q => At b.h 40 q ∨ At b.x 128 q) s s' := by
  have hwords := rmdWords_run (s := s) b.aligned_x hblk hd
  generalize s.bytes.load blk 64 = block at hwords ⊢
  have hlen : (words 8 (messageWords block)).length = 128 := by
    rw [length_words, length_messageWords]
  have hdis := b.apart_x_h.disjoint (by decide) (by decide)
  obtain ⟨s₁, hs₁⟩ : ∃ t, t = s.put b.x (words 8 (messageWords block)) := ⟨_, rfl⟩
  have hoff₁ : Off (At b.x 128) s s₁ := hs₁ ▸ off_put s (Nat.le_of_eq hlen)
  have hstate : s₁.bytes.load b.h 40 = words 8 ws := by
    rw [hs₁, load_put_off s (by rw [hlen]; omega), hload]
  have hmessage : s₁.bytes.load b.x 128 = words 8 (messageWords block) := by
    rw [hs₁]
    exact load_put_self s b.x hlen
  have hline := loadLine_run b.aligned_h (hoff₁.reads hh) hws hstate
  have hrounds := rmdRounds_run b.aligned_x (hoff₁.reads hx) (length_messageWords block) hmessage 80
    0 (lineOf ws) (lineOf ws)
  have hcompress : (words 8 (ripemdCompress ws block)).length = 40 := rfl
  refine ⟨s₁.put b.h (words 8 (ripemdCompress ws block)), ?_, load_put_self s₁ b.h hcompress, ?_⟩
  · unfold ripemd160Block
    rw [bind_run_ok hwords, ← hs₁, bind_run_ok hline, bind_run_ok hrounds, bind_run_ok hline,
      stAll_run b.aligned_h, pack_rmdCombine]
    rfl
  · exact (hoff₁.mono fun q hq => .inr hq).trans
      ((off_put s₁ (Nat.le_of_eq hcompress)).mono fun q hq => .inl hq)

/-! ## A message -/

/-- What the hash of a message may change besides the output. -/
def RipemdBuffers.Own (b : RipemdBuffers) (q : Nat) : Prop :=
  (At b.h 40 q ∨ At b.x 128 q) ∨ At b.pad 128 q

theorem ripemd160Block_follows (b : RipemdBuffers) :
    (wordChain b.h 5 ripemdCompress fun q => At b.h 40 q ∨ At b.x 128 q).Follows
      (ripemd160Block b b.h) where
  run := by
    intro s ws blk ⟨hws, hload⟩ hown hblk hd
    obtain ⟨s', hrun, hload', hoff⟩ := ripemd160Block_ends b hws
      (fun i hi => hown _ (.inl ⟨Nat.le_add_right b.h i, by omega⟩))
      (fun i hi => hown _ (.inr ⟨Nat.le_add_right b.x i, by omega⟩)) hblk hload
      fun q hq hq' => hd q hq (.inr hq')
    exact ⟨s', hrun, ⟨rfl, hload'⟩, hoff⟩
  kept := by
    intro s s' ws ⟨hws, hload⟩ hsame
    refine ⟨hws, (ByteMap.load_congr fun i hi => hsame _ (.inl ?_)).trans hload⟩
    exact ⟨Nat.le_add_right b.h i, by omega⟩

omit [Stray] in
theorem leBytes_bits (n : Nat) :
    leBytes 8 (BitVec.ofNat 64 n <<< 3).toNat = leBytes 8 (8 * n) := by
  rw [toNat_bits, leBytes_mod (Nat.le_refl 8)]

/-- The digest of a message of any length. Nothing besides it and the buffers need be readable. -/
theorem ripemd160_run (b : RipemdBuffers) {p n out : Nat} (hmsg : s.Reads p n)
    (hown : ∀ q, b.Own q → s.readable q = true) (hin : ∀ q, At p n q → ¬b.Own q)
    (hout : ∀ q, At out 20 q → ¬b.Own q) :
    ∃ s', ripemd160 b p n out s = .ok () s' ∧
      s'.bytes.load out 20 = ripemd160Digest (s.bytes.load p n) ∧
      Off (fun q => b.Own q ∨ At out 20 q) s s' := by
  have hpadX := b.apart_pad_x
  have hpadH := b.apart_pad_h
  have hlen : ∀ q (t : Mem), stLe64 q (BitVec.ofNat 64 n <<< 3) t =
      .ok () (t.put q (leBytes 8 (8 * n))) := fun q t => leBytes_bits n ▸ stLe64_run q _ t
  obtain ⟨s', hrun, hdigest, hoff⟩ := md_run (s := s) (n := n) (ripemd160Block_follows b) hlen
    (length_leBytes 8 _) stLe32_run (length_leBytes 4) b.aligned_h
    (show ripemd160Start.length = 5 from rfl) (fun q hq => .inl hq) hown hmsg hin
    (fun q hq hq' => hq'.elim (hpadH q hq) (hpadX q hq)) (fun q hq hq' => hout q hq (.inl hq'))
  refine ⟨s', hrun, ?_, hoff⟩
  rw [hdigest]
  unfold ripemd160Digest
  rw [ByteMap.length_load]

end

end StatelessGuest.Digest
