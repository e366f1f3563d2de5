import Mathlib.Logic.Relation
import StatelessGuest.Evm.Instructions

/-!
# The scan for jump destinations

The positions at which an instruction of a code starts, and the scan that looks for those with a
JUMPDEST.

* `InstrStart`: an instruction starts at the position.
* `mem_computeJumpdests`: what the scan finds.
* `isValidJumpdest_iff`: where a frame may jump to.
-/

namespace StatelessGuest

open Lib

/-! ## Where instructions start -/

/-- How many immediate bytes an opcode has before which comes the byte `imm`: PUSH1 to PUSH32 have
theirs, and DUPN, SWAPN and EXCHANGE have one if it is valid. -/
def immediates (op imm : Nat) : Nat :=
  if 96 ≤ op ∧ op ≤ 127 then op - 95
  else if (op = 230 ∨ op = 231) ∧ (imm ≤ 90 ∨ 128 ≤ imm) then 1
  else if op = 232 ∧ (imm ≤ 81 ∨ 128 ≤ imm) then 1
  else 0

/-- The length of the instruction at a position; the code goes on with zero bytes. -/
def instrLen (code : Bytes) (pc : Nat) : Nat :=
  1 + immediates (code.getD pc 0).toNat (code.getD (pc + 1) 0).toNat

/-- The instruction after the one at `pc` starts at `next`. -/
def NextInstr (code : Bytes) (pc next : Nat) : Prop :=
  pc < code.length ∧ next = pc + instrLen code pc

/-- An instruction starts at the position, or the code ends with the one before it. -/
def InstrStart (code : Bytes) (pc : Nat) : Prop := Relation.ReflTransGen (NextInstr code) 0 pc

theorem InstrStart.zero (code : Bytes) : InstrStart code 0 := .refl

theorem InstrStart.next {code : Bytes} {pc : Nat} (h : InstrStart code pc)
    (hlt : pc < code.length) : InstrStart code (pc + instrLen code pc) :=
  Relation.ReflTransGen.tail h ⟨hlt, rfl⟩

theorem instrLen_pos (code : Bytes) (pc : Nat) : 0 < instrLen code pc := by
  unfold instrLen
  omega

theorem instrLen_le (code : Bytes) (pc : Nat) : instrLen code pc ≤ 33 := by
  unfold instrLen immediates
  split
  · omega
  · split
    · omega
    · split <;> omega

theorem NextInstr.le {code : Bytes} {a b : Nat} (h : Relation.ReflTransGen (NextInstr code) a b) :
    a ≤ b := by
  induction h with
  | refl => exact Nat.le_refl a
  | tail _ hstep ih =>
    obtain ⟨-, rfl⟩ := hstep
    omega

/-! ## The scan -/

theorem getElem?_map_toNat (code : Bytes) (i : Nat) :
    code[i]?.map UInt8.toNat = if i < code.length then some (code.getD i 0).toNat else none := by
  split
  · next h =>
    rw [List.getD_eq_getElem?_getD, List.getElem?_eq_getElem h]
    rfl
  · next h =>
    rw [List.getElem?_eq_none (Nat.not_lt.mp h)]
    rfl

theorem getD_past {code : Bytes} {i : Nat} (h : ¬i < code.length) : code.getD i 0 = 0 := by
  rw [List.getD_eq_getElem?_getD, List.getElem?_eq_none (Nat.not_lt.mp h)]
  rfl

/-- The scan moves by whole instructions: it looks at the byte after the opcode as the instruction
itself does. -/
theorem jumpdestAdv_eq (code : Bytes) (pc : Nat) : jumpdestAdv code pc = instrLen code pc := by
  unfold jumpdestAdv instrLen immediates
  rw [getElem?_map_toNat]
  by_cases hlt : pc + 1 < code.length
  · rw [if_pos hlt]
    generalize (code.getD pc 0).toNat = op
    generalize (code.getD (pc + 1) 0).toNat = imm
    dsimp only
    split_ifs <;> omega
  · have hzero : (code.getD (pc + 1) 0).toNat = 0 := by
      rw [getD_past hlt]
      rfl
    rw [if_neg hlt, hzero]
    generalize (code.getD pc 0).toNat = op
    dsimp only
    split_ifs <;> omega

/-- A JUMPDEST at which an instruction starts, when one starts at `pc`. -/
def Found (code : Bytes) (pc d : Nat) : Prop :=
  d < code.length ∧ (code.getD d 0).toNat = 91 ∧ Relation.ReflTransGen (NextInstr code) pc d

theorem not_found {code : Bytes} {pc d : Nat} (h : code.length ≤ pc) : ¬Found code pc d := by
  rintro ⟨hlt, -, hreach⟩
  have := NextInstr.le hreach
  omega

theorem found_iff {code : Bytes} {pc d : Nat} (hlt : pc < code.length) :
    Found code pc d ↔
      (d = pc ∧ (code.getD pc 0).toNat = 91) ∨ Found code (pc + instrLen code pc) d := by
  constructor
  · rintro ⟨hd, hbyte, hreach⟩
    obtain rfl | ⟨next, ⟨-, rfl⟩, hrest⟩ := Relation.ReflTransGen.cases_head hreach
    · exact .inl ⟨rfl, hbyte⟩
    · exact .inr ⟨hd, hbyte, hrest⟩
  · rintro (⟨rfl, hbyte⟩ | ⟨hd, hbyte, hrest⟩)
    · exact ⟨hlt, hbyte, .refl⟩
    · exact ⟨hd, hbyte, .head ⟨hlt, rfl⟩ hrest⟩

theorem mem_jumpdestLoop {code : Bytes} {d fuel : Nat} : ∀ {pc : Nat}, code.length - pc ≤ fuel →
    (d ∈ jumpdestLoop code fuel pc ↔ Found code pc d) := by
  induction fuel with
  | zero =>
    intro pc hfuel
    constructor
    · intro h
      cases h
    · intro h
      exact absurd h (not_found (by omega))
  | succ fuel ih =>
    intro pc hfuel
    unfold jumpdestLoop
    by_cases hlt : pc < code.length
    · have hpos := instrLen_pos code pc
      have hrest : d ∈ jumpdestLoop code fuel (pc + instrLen code pc) ↔
          Found code (pc + instrLen code pc) d := ih (by omega)
      rw [if_pos hlt, jumpdestAdv_eq, found_iff hlt]
      dsimp only
      split
      · next hop => rw [List.mem_cons, hrest, and_iff_left hop]
      · next hop =>
        rw [hrest]
        exact (or_iff_right fun h => hop h.2).symm
    · rw [if_neg hlt]
      constructor
      · intro h
        cases h
      · intro h
        exact absurd h (not_found (Nat.not_lt.mp hlt))

/-- The scan finds the JUMPDEST bytes at which an instruction starts. -/
theorem mem_computeJumpdests {code : Bytes} {d : Nat} : d ∈ computeJumpdests code ↔
    d < code.length ∧ (code.getD d 0).toNat = 91 ∧ InstrStart code d :=
  mem_jumpdestLoop (Nat.sub_le _ _)

/-! ## Jump destinations -/

/-- Where the memory of the guest ends, which no code is longer than. -/
def memoryEnd : Nat := 2952790016

theorem fitsWord_of_lt {v : U256} (h : v.toNat < 2 ^ 64) : u256FitsWord v = true := by
  unfold u256FitsWord
  rw [decide_eq_true_iff]
  refine BitVec.eq_of_toNat_eq ?_
  rw [BitVec.toNat_ushiftRight, Nat.shiftRight_eq_div_pow, Nat.div_eq_of_lt h]
  rfl

/-- A frame with the destinations of its code jumps to those of the scan and no others. -/
theorem isValidJumpdest_iff {e : Frame} (hscan : e.jumpdests = computeJumpdests e.code)
    (hfits : e.code.length ≤ memoryEnd) (d : U256) :
    e.isValidJumpdest d = true ↔ d.toNat < e.code.length ∧ (e.code.getD d.toNat 0).toNat = 91 ∧
      InstrStart e.code d.toNat := by
  unfold Frame.isValidJumpdest
  rw [decide_eq_true_iff, hscan, mem_computeJumpdests]
  constructor
  · rintro ⟨-, -, hfound⟩
    exact hfound
  · intro hfound
    refine ⟨?_, hfound.1, hfound⟩
    exact fitsWord_of_lt (Nat.lt_of_lt_of_le hfound.1 (hfits.trans (by decide)))

end StatelessGuest
