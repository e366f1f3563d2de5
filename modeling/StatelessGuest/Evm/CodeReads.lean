import Mathlib.Data.BitVec
import StatelessGuest.Evm.CodeScan
import StatelessGuest.Evm.Saturation
import StatelessGuest.Rlp.HeaderAt

/-!
# Reading the code in memory

What the guest reads of a code at an address: the opcodes, the immediates, and the scan, which
sets the bits of a bitmap. Each read that leaves the code is an error, and none does.

* `fetchAt_eq`, `codeImmAt_eq`, `bufferReadAt_eq`: the reads.
* `computeJumpdestsAt_spec`: the bitmap has the destinations.
-/

namespace StatelessGuest

open Lib

/-- Zero `n` bytes from `p` on. -/
def memzeroWords (p n : Word) : RlpM Unit :=
  modify fun s => { s with cells := fun q => if q - p < n then 0 else s.cells q }

/-- Where in a bitmap the word with the bit of a position is. -/
def bitOffset (d : Word) : Word := (d >>> 6) * 8

def bitCell (bm d : Word) : Word := bm + bitOffset d

def setBit (bm d : Word) : RlpM Unit := do
  st (bitCell bm d) ((← lds (bitCell bm d)) ||| ((1 : Word) <<< (d &&& 63)))

section

variable [Stray] (b : Buffer)

/-! ## The reads -/

/-- The opcode at a position, if there is one. -/
def fetchAt (code n pc : Word) : RlpM (Option Word) :=
  if pc < n then do return some (← ld8 b (code + pc)) else return none

def codeImmAt (code n pc : Word) : RlpM Word :=
  if pc + 1 < n then ld8 b (code + pc + 1) else return 0

/-- Copy `n` bytes from `src` on. -/
def copyAt : Nat → Word → RlpM Bytes
  | 0, _ => return []
  | n + 1, src => do
    let x ← ld8 b src
    return UInt8.ofNat x.toNat :: (← copyAt n (src + 1))

def bufferReadAt (buf bufLen start size : Word) : RlpM Bytes := do
  let avail := if start < bufLen then minWord (bufLen - start) size else 0
  let bytes ← copyAt b avail.toNat (buf + start)
  return bytes ++ List.replicate (size - avail).toNat 0

/-! ## The scan -/

/-- The step over an opcode with one immediate, when the immediates from `lo` to 127 are not
valid. -/
def overImm (code n pc lo : Word) : RlpM Word :=
  if pc + 1 < n then do
    let nx ← ld8 b (code + pc + 1)
    if lo ≤ nx ∧ nx ≤ 127 then return 1 else return 2
  else return 2

def scanOp (code n bm pc op : Word) : RlpM Word :=
  if op = 91 then do
    setBit bm pc
    return 1
  else if 96 ≤ op ∧ op ≤ 127 then return op - 96 + 2
  else if op = 230 ∨ op = 231 then overImm b code n pc 91
  else if op = 232 then overImm b code n pc 82
  else return 1

def scanFrom (code n bm : Word) : Nat → Word → RlpM Unit
  | 0, _ => throw .outOfFuel
  | fuel + 1, pc =>
    if pc < n then do
      let op ← ld8 b (code + pc)
      let adv ← scanOp b code n bm pc op
      scanFrom code n bm fuel (pc + adv)
    else return ()

/-- The scan, with the bitmap it makes; every round moves by at least one byte. -/
def computeJumpdestsAt (code n : Word) : RlpM Word := do
  let size := ((n + 63) >>> 6) * 8 + 8
  let bm ← scratchAlloc size
  memzeroWords bm size
  scanFrom b code n bm (n.toNat + 1) 0
  return bm

end

def isValidJumpdestAt (n bm : Word) (dest : U256) : RlpM Word :=
  if u256FitsWord dest then
    let d : Word := dest.setWidth 64
    if n ≤ d then return 0
    else do return ((← lds (bitCell bm d)) >>> (d &&& 63)) &&& 1
  else return 0

/-! ## Reads inside of the code -/

section

variable [Stray] {b : Buffer} {code n pc : Word}

theorem ld8_at (h : b.Within code n) (hlt : pc < n) :
    ld8 b (code + pc) = pure (BitVec.ofNat 64 ((b.bytes code n).getD pc.toNat 0).toNat) := by
  have hpc : BitVec.ofNat 64 pc.toNat = pc := by rw [BitVec.ofNat_toNat, BitVec.setWidth_eq]
  have hi : pc.toNat < (b.bytes code n).length := by
    rw [Buffer.length_bytes]
    exact hlt
  have hread := ld8_eq h (show pc.toNat < n.toNat from hlt)
  rw [hpc] at hread
  rw [hread, List.getD_eq_getElem?_getD, List.getElem?_eq_getElem hi, Option.getD_some,
    Buffer.getElem_bytes, hpc]

omit [Stray] in
theorem toNat_next (hn : n.toNat ≤ memoryEnd) (hlt : pc < n) : (pc + 1).toNat = pc.toNat + 1 := by
  have hpc : pc.toNat < n.toNat := hlt
  have hone : (1 : Word).toNat = 1 := rfl
  have hend : memoryEnd < 2 ^ 64 - 1 := by decide
  rw [BitVec.toNat_add, hone, Nat.mod_eq_of_lt (by omega)]

theorem fetchAt_eq (h : b.Within code n) : fetchAt b code n pc =
    pure ((b.bytes code n)[pc.toNat]?.map fun x => BitVec.ofNat 64 x.toNat) := by
  unfold fetchAt
  split
  · next hlt =>
    have hi : pc.toNat < (b.bytes code n).length := by
      rw [Buffer.length_bytes]
      exact hlt
    rw [ld8_at h hlt, List.getD_eq_getElem?_getD, List.getElem?_eq_getElem hi]
    rfl
  · next hge =>
    rw [List.getElem?_eq_none (by rw [Buffer.length_bytes]; exact Nat.not_lt.mp hge)]
    rfl

/-- The byte after the opcode, zero past the end of the code. -/
theorem codeImmAt_eq (h : b.Within code n) (hn : n.toNat ≤ memoryEnd) (hlt : pc < n) :
    codeImmAt b code n pc =
      pure (BitVec.ofNat 64 ((b.bytes code n).getD (pc.toNat + 1) 0).toNat) := by
  unfold codeImmAt
  have hnext := toNat_next hn hlt
  split
  · next hin => rw [BitVec.add_assoc, ld8_at h hin, hnext]
  · next hout =>
    have hge : ¬pc.toNat + 1 < (b.bytes code n).length := by
      rw [Buffer.length_bytes, ← hnext]
      exact hout
    rw [getD_past hge]
    rfl

theorem copyAt_eq {p len : Word} (h : b.Within p len) :
    copyAt b len.toNat p = pure (b.bytes p len) := by
  obtain ⟨k, hk⟩ : ∃ k, len.toNat = k := ⟨_, rfl⟩
  induction k generalizing p len with
  | zero =>
    have hzero : len = 0 := BitVec.eq_of_toNat_eq hk
    rw [hzero]
    rfl
  | succ k ih =>
    have hne : len ≠ 0 := by
      intro hz
      rw [hz] at hk
      cases hk
    have hsub : (len - 1).toNat = k := by
      have hone : (len - BitVec.ofNat 64 1).toNat = len.toNat - 1 :=
        Buffer.toNat_sub_ofNat (by omega)
      rw [hk] at hone
      exact hone
    have hrest := ih (h.drop (k := 1) (by omega)) hsub
    rw [show len - BitVec.ofNat 64 1 = len - 1 from rfl, hsub] at hrest
    have hx : UInt8.ofNat (BitVec.ofNat 64 (b.byte p).toNat).toNat = b.byte p := by
      rw [toNat_ofByte, UInt8.ofNat_toNat]
    rw [hk, Buffer.bytes_cons hne, copyAt, ld8_first h hne, pure_bind]
    change (copyAt b k (p + 1) >>= _) = _
    rw [show p + 1 = p + BitVec.ofNat 64 1 from rfl, hrest, pure_bind, hx]

omit [Stray] in
/-- The part of a range that lies in a buffer. -/
theorem toNat_avail (n start size : Word) :
    (if start < n then minWord (n - start) size else 0).toNat =
      min (n.toNat - start.toNat) size.toNat := by
  split
  · next hlt =>
    rw [minWord_toNat, BitVec.toNat_sub_of_le (BitVec.le_of_lt hlt)]
  · next hge =>
    have hle : n.toNat ≤ start.toNat := Nat.not_lt.mp hge
    rw [Nat.sub_eq_zero_of_le hle, Nat.zero_min]
    rfl

/-- Bytes past the end of the code read as zero. -/
theorem bufferReadAt_eq {start size : Word} (h : b.Within code n) :
    bufferReadAt b code n start size = pure (bufferRead (b.bytes code n) start size) := by
  have havail := toNat_avail n start size
  unfold bufferReadAt bufferRead
  dsimp only
  generalize (if start < n then minWord (n - start) size else 0) = avail at havail ⊢
  by_cases hlt : start < n
  · have hstart : BitVec.ofNat 64 start.toNat = start := by
      rw [BitVec.ofNat_toNat, BitVec.setWidth_eq]
    have hle : start.toNat ≤ n.toNat := Nat.le_of_lt hlt
    have hsub : (n - start).toNat = n.toNat - start.toNat :=
      BitVec.toNat_sub_of_le (BitVec.le_of_lt hlt)
    have hin : avail ≤ n - start := by
      rw [BitVec.le_def, havail, hsub]
      exact Nat.min_le_left _ _
    have hdrop := Buffer.bytes_drop (b := b) (p := code) hle
    have hw := (h.drop hle).take (k := avail) (by rw [hstart]; exact hin)
    rw [hstart] at hdrop hw
    have htake := Buffer.bytes_take (b := b) (p := code + start) hin
    have hsize : ((b.bytes code n).drop start.toNat).take size.toNat =
        b.bytes (code + start) avail := by
      rw [hdrop, ← htake, havail]
      refine (List.take_eq_take_min).trans ?_
      rw [Buffer.length_bytes, hsub, Nat.min_comm]
    have hpad : (size - avail).toNat = size.toNat - avail.toNat := by
      refine BitVec.toNat_sub_of_le ?_
      rw [BitVec.le_def, havail]
      exact Nat.min_le_right _ _
    rw [copyAt_eq hw, pure_bind, hsize, Buffer.length_bytes, hpad]
  · have hge : n.toNat ≤ start.toNat := Nat.not_lt.mp hlt
    have hzero : avail = 0 := by
      refine BitVec.eq_of_toNat_eq ?_
      rw [havail, Nat.sub_eq_zero_of_le hge, Nat.zero_min]
      rfl
    have hnil : (b.bytes code n).drop start.toNat = [] :=
      List.drop_eq_nil_of_le (by rw [Buffer.length_bytes]; exact hge)
    rw [hzero, hnil, List.take_nil]
    have hsub : size - 0 = size := BitVec.sub_zero size
    rw [hsub]
    rfl

end

/-! ## The bitmap -/

/-- The bit of a position. -/
def Scratch.bit (s : Scratch) (bm d : Word) : Bool :=
  (s.cells (bitCell bm d)).getLsbD (d.toNat % 64)

theorem toNat_and_63 (d : Word) : (d &&& 63).toNat = d.toNat % 64 := by
  rw [BitVec.toNat_and]
  exact Nat.and_two_pow_sub_one_eq_mod d.toNat 6

theorem toNat_bitOffset (d : Word) : (bitOffset d).toNat = d.toNat / 64 * 8 := by
  have hlt := d.isLt
  have height : (8 : Word).toNat = 8 := rfl
  rw [bitOffset, BitVec.toNat_mul, BitVec.toNat_ushiftRight, Nat.shiftRight_eq_div_pow, height,
    Nat.mod_eq_of_lt (by omega)]

theorem bitCell_inj {bm d e : Word} (h : bitCell bm d = bitCell bm e) :
    d.toNat / 64 = e.toNat / 64 := by
  have hoff : bitOffset d = bitOffset e := add_left_cancel h
  have hnat := congrArg BitVec.toNat hoff
  rw [toNat_bitOffset, toNat_bitOffset] at hnat
  omega

theorem bitCell_eq {bm d e : Word} (h : d.toNat / 64 = e.toNat / 64) :
    bitCell bm d = bitCell bm e := by
  have hoff : bitOffset d = bitOffset e := by
    refine BitVec.eq_of_toNat_eq ?_
    rw [toNat_bitOffset, toNat_bitOffset, h]
  unfold bitCell
  rw [hoff]

/-- The scratch memory with the bit of a position set. -/
def Scratch.withBit (s : Scratch) (bm d : Word) : Scratch :=
  { s with cells := fun q =>
      if q = bitCell bm d then s.cells (bitCell bm d) ||| ((1 : Word) <<< (d &&& 63))
      else s.cells q }

theorem setBit_run (s : Scratch) (bm d : Word) : setBit bm d s = .ok () (s.withBit bm d) := rfl

theorem getLsbD_oneWord (i : Nat) : (1 : Word).getLsbD i = decide (i = 0) := by
  have hlsb := BitVec.getLsbD_one (w := 64) (i := i)
  rwa [show decide (0 < 64) = true from rfl, Bool.true_and] at hlsb

theorem bit_withBit (s : Scratch) (bm d e : Word) :
    (s.withBit bm d).bit bm e = (s.bit bm e || decide (e = d)) := by
  unfold Scratch.bit Scratch.withBit
  dsimp only
  by_cases hcell : bitCell bm e = bitCell bm d
  · have hdiv := bitCell_inj hcell
    have hmod : e.toNat % 64 < 64 := Nat.mod_lt _ (by decide)
    have hbit : ((1 : Word) <<< (d &&& 63)).getLsbD (e.toNat % 64) = decide (e = d) := by
      rw [BitVec.shiftLeft_eq', toNat_and_63, BitVec.getLsbD_shiftLeft, getLsbD_oneWord,
        decide_eq_true hmod, Bool.true_and]
      by_cases heq : e = d
      · rw [heq, decide_eq_true rfl, Nat.sub_self]
        simp
      · have hne : e.toNat ≠ d.toNat := fun h => heq (BitVec.eq_of_toNat_eq h)
        rw [decide_eq_false heq, Bool.and_eq_false_iff, decide_eq_false_iff_not]
        by_cases hlt : e.toNat % 64 < d.toNat % 64
        · rw [decide_eq_true hlt]
          exact .inl rfl
        · exact .inr (by omega)
    rw [if_pos hcell, hcell, BitVec.getLsbD_or, hbit]
  · have hne : e ≠ d := by
      rintro rfl
      exact hcell rfl
    rw [if_neg hcell, decide_eq_false hne, Bool.or_false]

theorem bit_eq_shift (s : Scratch) (bm d : Word) :
    ((s.cells (bitCell bm d) >>> (d &&& 63)) &&& 1) = if s.bit bm d then 1 else 0 := by
  unfold Scratch.bit
  rw [BitVec.ushiftRight_eq', toNat_and_63, show (1 : Word) = 1#64 from rfl,
    BitVec.and_one_eq_setWidth_ofBool_getLsbD, BitVec.getLsbD_ushiftRight, Nat.add_zero]
  cases (s.cells (bitCell bm d)).getLsbD (d.toNat % 64) <;> rfl

/-! ## The scan in memory -/

section

variable [Stray] {b : Buffer} {code n pc : Word}

omit [Stray] in
theorem byte_eq (x : UInt8) (c : Word) : BitVec.ofNat 64 x.toNat = c ↔ x.toNat = c.toNat := by
  rw [← BitVec.toNat_inj, toNat_ofByte]

omit [Stray] in
theorem le_byte (x : UInt8) (c : Word) : c ≤ BitVec.ofNat 64 x.toNat ↔ c.toNat ≤ x.toNat := by
  rw [BitVec.le_def, toNat_ofByte]

/-- The opcode and the byte after it, with zero after the code. -/
theorem overImm_eq (h : b.Within code n) (hn : n.toNat ≤ memoryEnd) (hlt : pc < n) {lo : Word}
    (hlo : lo ≠ 0) : overImm b code n pc lo =
      pure (if lo.toNat ≤ ((b.bytes code n).getD (pc.toNat + 1) 0).toNat ∧
        ((b.bytes code n).getD (pc.toNat + 1) 0).toNat ≤ 127 then 1 else 2) := by
  have himm := codeImmAt_eq h hn hlt
  unfold codeImmAt at himm
  unfold overImm
  split at himm
  · next hin =>
    simp only [if_pos hin, himm, pure_bind, le_byte, byte_le]
    exact (apply_ite pure _ _ _).symm
  · next hout =>
    have hge : ¬pc.toNat + 1 < (b.bytes code n).length := by
      rw [Buffer.length_bytes, ← toNat_next hn hlt]
      exact hout
    have hpos : ¬lo.toNat ≤ 0 := fun hle =>
      hlo (BitVec.eq_of_toNat_eq (Nat.le_zero.mp hle))
    rw [if_neg hout, getD_past hge, if_neg fun hand => hpos hand.1]

/-- A round of the scan sets the bit of a JUMPDEST and steps over the instruction. -/
theorem scanOp_spec (h : b.Within code n) (hn : n.toNat ≤ memoryEnd) (hlt : pc < n) (bm : Word)
    (s : Scratch) :
    ∃ s', scanOp b code n bm pc (BitVec.ofNat 64 ((b.bytes code n).getD pc.toNat 0).toNat) s =
        .ok (BitVec.ofNat 64 (instrLen (b.bytes code n) pc.toNat)) s' ∧
      ∀ e, s'.bit bm e = true ↔
        s.bit bm e = true ∨ (e = pc ∧ ((b.bytes code n).getD pc.toNat 0).toNat = 91) := by
  have h91 := overImm_eq h hn hlt (by decide : (91 : Word) ≠ 0)
  have h82 := overImm_eq h hn hlt (by decide : (82 : Word) ≠ 0)
  unfold scanOp instrLen immediates
  simp only [h91, h82, byte_eq, le_byte, byte_le, BitVec.reduceToNat]
  generalize (b.bytes code n).getD pc.toNat 0 = x
  generalize ((b.bytes code n).getD (pc.toNat + 1) 0).toNat = imm
  have hstay : ∀ e, x.toNat ≠ 91 → (s.bit bm e = true ↔
      s.bit bm e = true ∨ (e = pc ∧ x.toNat = 91)) :=
    fun e hne => (or_iff_left fun hand => hne hand.2).symm
  by_cases hdest : x.toNat = 91
  · refine ⟨s.withBit bm pc, ?_, fun e => ?_⟩
    · have hnot : ¬(96 ≤ x.toNat ∧ x.toNat ≤ 127) := by omega
      have hsingle : ¬((x.toNat = 230 ∨ x.toNat = 231) ∧ (imm ≤ 90 ∨ 128 ≤ imm)) := by omega
      have hpair : ¬(x.toNat = 232 ∧ (imm ≤ 81 ∨ 128 ≤ imm)) := by omega
      rw [if_pos hdest, if_neg hnot, if_neg hsingle, if_neg hpair, bind_run_ok (setBit_run s bm pc)]
      rfl
    · rw [bit_withBit, Bool.or_eq_true, decide_eq_true_iff, and_iff_left hdest]
  refine ⟨s, ?_, fun e => hstay e hdest⟩
  rw [if_neg hdest]
  by_cases hpush : 96 ≤ x.toNat ∧ x.toNat ≤ 127
  · have hsub : BitVec.ofNat 64 x.toNat - 96 + 2 = BitVec.ofNat 64 (1 + (x.toNat - 95)) := by
      refine BitVec.eq_of_toNat_eq ?_
      have h96 := byte_sub (x := x) (c := 96) hpush.1
      have htwo : (2 : Word).toNat = 2 := rfl
      rw [h96, BitVec.toNat_add, htwo, BitVec.toNat_ofNat, BitVec.toNat_ofNat]
      change ((x.toNat - 96) % 2 ^ 64 + 2) % 2 ^ 64 = _
      omega
    rw [if_pos hpush, if_pos hpush, hsub]
    rfl
  rw [if_neg hpush, if_neg hpush]
  by_cases hsingle : x.toNat = 230 ∨ x.toNat = 231
  · have hne : x.toNat ≠ 232 := by omega
    rw [if_pos hsingle]
    by_cases himm : 91 ≤ imm ∧ imm ≤ 127
    · rw [if_pos himm, if_neg (by omega), if_neg fun hand => hne hand.1]
      rfl
    · rw [if_neg himm, if_pos ⟨hsingle, by omega⟩]
      rfl
  have hno : ¬((x.toNat = 230 ∨ x.toNat = 231) ∧ (imm ≤ 90 ∨ 128 ≤ imm)) :=
    fun hand => hsingle hand.1
  rw [if_neg hsingle, if_neg hno]
  by_cases hpair : x.toNat = 232
  · rw [if_pos hpair]
    by_cases himm : 82 ≤ imm ∧ imm ≤ 127
    · rw [if_pos himm, if_neg (by omega)]
      rfl
    · rw [if_neg himm, if_pos ⟨hpair, by omega⟩]
      rfl
  · have hnone : ¬(x.toNat = 232 ∧ (imm ≤ 81 ∨ 128 ≤ imm)) := fun hand => hpair hand.1
    rw [if_neg hpair, if_neg hnone]
    rfl

/-- The bits are set of the JUMPDEST bytes at which an instruction starts from `pc` on. -/
theorem scanFrom_spec (h : b.Within code n) (hn : n.toNat ≤ memoryEnd) (bm : Word) {fuel : Nat} :
    ∀ {pc : Word} {s : Scratch}, n.toNat - pc.toNat < fuel → pc.toNat ≤ n.toNat + 33 →
    ∃ s', scanFrom b code n bm fuel pc s = .ok () s' ∧ ∀ e : Word, s'.bit bm e = true ↔
      s.bit bm e = true ∨ Found (b.bytes code n) pc.toNat e.toNat := by
  have hend : memoryEnd + 66 < 2 ^ 64 := by decide
  induction fuel with
  | zero =>
    intro pc s hfuel
    exact absurd hfuel (Nat.not_lt_zero _)
  | succ fuel ih =>
    intro pc s hfuel hpc
    unfold scanFrom
    by_cases hlt : pc < n
    · have hlen : pc.toNat < (b.bytes code n).length := by
        rw [Buffer.length_bytes]
        exact hlt
      obtain ⟨s₁, hop, hbits⟩ := scanOp_spec h hn hlt bm s
      have hpos := instrLen_pos (b.bytes code n) pc.toNat
      have hle := instrLen_le (b.bytes code n) pc.toNat
      have hnat : pc.toNat < n.toNat := hlt
      obtain ⟨next, hnext⟩ : ∃ next, next =
        pc + BitVec.ofNat 64 (instrLen (b.bytes code n) pc.toNat) := ⟨_, rfl⟩
      have hadv : next.toNat = pc.toNat + instrLen (b.bytes code n) pc.toNat := by
        rw [hnext, BitVec.toNat_add, BitVec.toNat_ofNat]
        omega
      have hfuel' : n.toNat - next.toNat < fuel := by omega
      obtain ⟨s', hrun, hrest⟩ := ih (s := s₁) hfuel' (by omega)
      refine ⟨s', ?_, fun e => ?_⟩
      · rw [if_pos hlt, ld8_at h hlt, pure_bind, bind_run_ok hop, ← hnext, hrun]
      · rw [hrest, hbits, hadv, found_iff hlen, or_assoc, BitVec.toNat_inj]
    · have hge : n.toNat ≤ pc.toNat := Nat.not_lt.mp hlt
      refine ⟨s, ?_, fun e => ?_⟩
      · rw [if_neg hlt]
        rfl
      · refine (or_iff_left (not_found ?_)).symm
        rw [Buffer.length_bytes]
        exact hge

omit [Stray] in
theorem toNat_lt_of_fits {v : U256} (h : u256FitsWord v = true) : v.toNat < 2 ^ 64 := by
  unfold u256FitsWord at h
  rw [decide_eq_true_iff] at h
  have hshift := congrArg BitVec.toNat h
  rw [BitVec.toNat_ushiftRight, Nat.shiftRight_eq_div_pow] at hshift
  have hzero : (0 : U256).toNat = 0 := rfl
  omega

omit [Stray] in
theorem scratchAlloc_cases (size : Word) (s : Scratch) :
    scratchAlloc size s = .error (.trap 7) s ∨
      ∃ q, scratchAlloc size s = .ok q { s with ptr := q } := by
  unfold scratchAlloc
  rw [bind_run, get_run]
  dsimp only
  split
  · exact .inl rfl
  · split
    · exact .inl rfl
    · exact .inr ⟨_, rfl⟩

omit [Stray] in
/-- The new bitmap is empty. -/
theorem bit_memzeroWords (hn : n.toNat ≤ memoryEnd) {bm : Word} (s : Scratch) {e : Word} (he : e < n)
    {s' : Scratch} (h : memzeroWords bm (((n + 63) >>> 6) * 8 + 8) s = .ok () s') :
    s'.bit bm e = false := by
  have hend : memoryEnd + 63 < 2 ^ 64 := by decide
  have hlt : e.toNat < n.toNat := he
  have h63 : (63 : Word).toNat = 63 := rfl
  have h8 : (8 : Word).toNat = 8 := rfl
  have hsum : (n + 63).toNat = n.toNat + 63 := by
    rw [BitVec.toNat_add, h63, Nat.mod_eq_of_lt (by omega)]
  have hsize : (((n + 63) >>> 6) * 8 + 8).toNat = (n.toNat + 63) / 64 * 8 + 8 := by
    rw [BitVec.toNat_add, BitVec.toNat_mul, BitVec.toNat_ushiftRight, Nat.shiftRight_eq_div_pow,
      hsum, h8]
    omega
  have hoff : bitCell bm e - bm = bitOffset e := by
    rw [bitCell, BitVec.add_comm, BitVec.add_sub_cancel]
  have hin : bitCell bm e - bm < ((n + 63) >>> 6) * 8 + 8 := by
    rw [BitVec.lt_def, hoff, toNat_bitOffset, hsize]
    omega
  cases h
  unfold Scratch.bit
  dsimp only
  rw [if_pos hin]
  exact BitVec.getLsbD_zero

/-- The scan reads nothing outside of the code; unless the arena is full, a frame that has its
bitmap jumps to the destinations. -/
theorem computeJumpdestsAt_spec (h : b.Within code n) (hn : n.toNat ≤ memoryEnd) (s : Scratch) :
    computeJumpdestsAt b code n s = .error (.trap 7) s ∨
      ∃ bm s', computeJumpdestsAt b code n s = .ok bm s' ∧ ∀ d : U256,
        isValidJumpdestAt n bm d s' = .ok (if u256FitsWord d ∧
          d.toNat ∈ computeJumpdests (b.bytes code n) then 1 else 0) s' := by
  unfold computeJumpdestsAt
  obtain hfull | ⟨bm, halloc⟩ := scratchAlloc_cases (((n + 63) >>> 6) * 8 + 8) s
  · exact .inl (bind_run_error hfull)
  obtain ⟨s₁, hzero⟩ : ∃ s₁, memzeroWords bm (((n + 63) >>> 6) * 8 + 8) { s with ptr := bm } =
    .ok () s₁ := ⟨_, rfl⟩
  have hfuel : n.toNat - (0 : Word).toNat < n.toNat + 1 := Nat.lt_succ_of_le (Nat.sub_le _ _)
  obtain ⟨s', hscan, hbits⟩ := scanFrom_spec h hn bm (s := s₁) hfuel (Nat.zero_le _)
  refine .inr ⟨bm, s', ?_, fun d => ?_⟩
  · rw [bind_run_ok halloc, bind_run_ok hzero, bind_run_ok hscan]
    rfl
  unfold isValidJumpdestAt
  by_cases hfits : u256FitsWord d = true
  · have hword : (d.setWidth 64).toNat = d.toNat := by
      rw [BitVec.toNat_setWidth, Nat.mod_eq_of_lt (toNat_lt_of_fits hfits)]
    rw [if_pos hfits]
    by_cases hge : n ≤ d.setWidth 64
    · have hout : d.toNat ∉ computeJumpdests (b.bytes code n) := by
        intro hmem
        have hlt := (mem_computeJumpdests.mp hmem).1
        rw [BitVec.le_def, hword] at hge
        rw [Buffer.length_bytes] at hlt
        omega
      rw [if_pos hge, if_neg fun hand => hout hand.2]
      rfl
    · have hfound : s'.bit bm (d.setWidth 64) = true ↔
          d.toNat ∈ computeJumpdests (b.bytes code n) := by
        rw [hbits, bit_memzeroWords hn _ (BitVec.not_le.mp hge) hzero, hword,
          mem_computeJumpdests]
        exact or_iff_right Bool.false_ne_true
      rw [if_neg hge]
      change EStateM.Result.ok _ s' = _
      rw [bit_eq_shift]
      simp only [hfound, hfits, true_and]
  · rw [if_neg hfits, if_neg fun hand => hfits hand.1]
    rfl

end

end StatelessGuest
