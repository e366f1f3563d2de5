import Mathlib.Data.Fintype.Basic
import StatelessGuest.Base
import StatelessGuest.Lib.Patricia

/-!
# Keys and paths of the trie

A key is looked up by its nibbles, the higher nibble of a byte first. The path of a leaf or of an
extension is stored in compact form, behind a nibble that tells the two apart and says whether the
number of nibbles is odd.

* `keyToNibbles`, `compactToNibbles`, `nibbleListToCompact`, `commonPrefixLength`.
* `keyToNibbles_injective`.
* `compact_round_trip`: the compact form is undone.
* `commonPrefix_fork`: the common prefix length splits two keys where they fork.
-/

namespace StatelessGuest.Mpt

open Lib

abbrev Nibble := Fin 16

abbrev Nibbles := List Nibble

def hiNibble (b : UInt8) : Nibble := Fin.ofNat 16 (b.toNat >>> 4)

def loNibble (b : UInt8) : Nibble := Fin.ofNat 16 (b.toNat &&& 15)

/-- The nibble with a number. -/
def nibbleOf (i : Nat) : Nibble := Fin.ofNat 16 i

def packNibbles (hi lo : Nibble) : UInt8 := UInt8.ofNat (hi.val <<< 4 ||| lo.val)

/-- The nibbles of a key, four bytes a round. -/
def keyToNibbles : Bytes → Nibbles
  | b0 :: b1 :: b2 :: b3 :: key =>
    hiNibble b0 :: loNibble b0 :: hiNibble b1 :: loNibble b1 :: hiNibble b2 :: loNibble b2 ::
      hiNibble b3 :: loNibble b3 :: keyToNibbles key
  | key => key.flatMap fun b => [hiNibble b, loNibble b]

/-- The path of a node, and whether it is a leaf. -/
def compactToNibbles : Bytes → Except Exn (Nibbles × Bool)
  | [] => .error (.mpt 5)
  | c0 :: rest =>
    let first := (hiNibble c0).val
    let isLeaf := (first >>> 1) &&& 1
    let odd := first &&& 1
    .ok (if odd ≠ 0 then loNibble c0 :: keyToNibbles rest else keyToNibbles rest,
      decide (isLeaf ≠ 0))

/-- Two nibbles a byte. -/
def packPairs : Nibbles → Bytes
  | hi :: lo :: nibs => packNibbles hi lo :: packPairs nibs
  | _ => []

def nibbleListToCompact (nibs : Nibbles) (isLeaf : Bool) : Bytes :=
  let flag := isLeaf.toNat * 2
  if nibs.length &&& 1 = 0 then UInt8.ofNat (16 * flag) :: packPairs nibs
  else UInt8.ofNat (16 * (flag + 1) + (nibs.headD 0).val) :: packPairs (nibs.drop 1)

/-- The nibbles on which two keys agree from the start. -/
def commonPrefixLength : Nibbles → Nibbles → Nat
  | a :: as, b :: bs => if a ≠ b then 0 else commonPrefixLength as bs + 1
  | _, _ => 0

/-! ## Nibbles of bytes -/

theorem hiNibble_pack : ∀ hi lo, hiNibble (packNibbles hi lo) = hi := by decide +kernel

theorem loNibble_pack : ∀ hi lo, loNibble (packNibbles hi lo) = lo := by decide +kernel

theorem hiNibble_val (b : UInt8) : (hiNibble b).val = b.toNat / 16 := by
  have hb := b.toNat_lt
  change (b.toNat >>> 4) % 16 = _
  rw [Nat.shiftRight_eq_div_pow]
  omega

theorem loNibble_val (b : UInt8) : (loNibble b).val = b.toNat % 16 := by
  change (b.toNat &&& 15) % 16 = _
  rw [Nat.and_two_pow_sub_one_eq_mod b.toNat 4]
  omega

theorem keyToNibbles_eq (key : Bytes) :
    keyToNibbles key = key.flatMap fun b => [hiNibble b, loNibble b] := by
  fun_induction keyToNibbles key with
  | case1 b0 b1 b2 b3 key ih => rw [ih]; rfl
  | case2 key => rfl

@[simp] theorem keyToNibbles_nil : keyToNibbles [] = [] := rfl

theorem keyToNibbles_cons (b : UInt8) (key : Bytes) :
    keyToNibbles (b :: key) = hiNibble b :: loNibble b :: keyToNibbles key := by
  rw [keyToNibbles_eq, keyToNibbles_eq]
  rfl

theorem length_keyToNibbles (key : Bytes) : (keyToNibbles key).length = 2 * key.length := by
  induction key with
  | nil => rfl
  | cons b key ih =>
    rw [keyToNibbles_cons, List.length_cons, List.length_cons, List.length_cons, ih]
    omega

theorem keyToNibbles_injective : Function.Injective keyToNibbles := by
  intro key
  induction key with
  | nil =>
    intro key' h
    cases key' with
    | nil => rfl
    | cons b key' =>
      rw [keyToNibbles_cons] at h
      cases h
  | cons b key ih =>
    intro key' h
    cases key' with
    | nil =>
      rw [keyToNibbles_cons] at h
      cases h
    | cons c key' =>
      rw [keyToNibbles_cons, keyToNibbles_cons, List.cons.injEq, List.cons.injEq] at h
      obtain ⟨hhi, hlo, hrest⟩ := h
      rw [Fin.ext_iff, hiNibble_val, hiNibble_val] at hhi
      rw [Fin.ext_iff, loNibble_val, loNibble_val] at hlo
      rw [ih hrest, show b = c from UInt8.toNat_inj.mp (by omega)]

/-! ## Compact paths -/

theorem keyToNibbles_packPairs {nibs : Nibbles} (h : nibs.length % 2 = 0) :
    keyToNibbles (packPairs nibs) = nibs := by
  fun_induction packPairs nibs with
  | case1 hi lo nibs ih =>
    rw [List.length_cons, List.length_cons] at h
    rw [keyToNibbles_cons, hiNibble_pack, loNibble_pack, ih (by omega)]
  | case2 nibs hnibs =>
    match nibs with
    | [] => rfl
    | [a] => cases h
    | a :: b :: nibs => exact absurd rfl (hnibs a b nibs)

/-- The compact form of a path is undone. -/
theorem compact_round_trip (nibs : Nibbles) (isLeaf : Bool) :
    compactToNibbles (nibbleListToCompact nibs isLeaf) = .ok (nibs, isLeaf) := by
  have hflag : ∀ isLeaf : Bool,
      ((hiNibble (UInt8.ofNat (16 * (isLeaf.toNat * 2)))).val &&& 1 = 0) ∧
      decide (((hiNibble (UInt8.ofNat (16 * (isLeaf.toNat * 2)))).val >>> 1) &&& 1 ≠ 0) =
        isLeaf := by
    decide
  have hodd : ∀ (isLeaf : Bool) (a : Nibble),
      ((hiNibble (UInt8.ofNat (16 * (isLeaf.toNat * 2 + 1) + a.val))).val &&& 1 ≠ 0) ∧
      loNibble (UInt8.ofNat (16 * (isLeaf.toNat * 2 + 1) + a.val)) = a ∧
      decide (((hiNibble (UInt8.ofNat (16 * (isLeaf.toNat * 2 + 1) + a.val))).val >>> 1) &&&
        1 ≠ 0) = isLeaf := by
    decide +kernel
  unfold nibbleListToCompact
  dsimp only
  rw [Nat.and_one_is_mod]
  split
  · next heven =>
    obtain ⟨h0, hleaf⟩ := hflag isLeaf
    rw [compactToNibbles, if_neg (not_not.mpr h0), keyToNibbles_packPairs heven, hleaf]
  · next hne =>
    cases nibs with
    | nil => exact absurd rfl hne
    | cons a nibs =>
      obtain ⟨h1, ha, hleaf⟩ := hodd isLeaf a
      rw [List.length_cons] at hne
      rw [compactToNibbles, List.headD_cons, if_pos h1, ha, hleaf, List.drop_one, List.tail_cons,
        keyToNibbles_packPairs (by omega)]

theorem length_packPairs (nibs : Nibbles) : (packPairs nibs).length = nibs.length / 2 := by
  fun_induction packPairs nibs with
  | case1 hi lo nibs ih =>
    rw [List.length_cons, List.length_cons, List.length_cons, ih]
    omega
  | case2 nibs hnibs =>
    match nibs with
    | [] => rfl
    | [a] => exact (Nat.div_eq_of_lt (Nat.lt_succ_self 1)).symm
    | a :: b :: nibs => exact absurd rfl (hnibs a b nibs)

theorem length_nibbleListToCompact_le (nibs : Nibbles) (isLeaf : Bool) :
    (nibbleListToCompact nibs isLeaf).length ≤ nibs.length / 2 + 1 := by
  unfold nibbleListToCompact
  split
  · rw [List.length_cons, length_packPairs]
  · rw [List.length_cons, length_packPairs, List.length_drop]
    omega

/-! ## Common prefixes -/

theorem commonPrefix_fork (as bs : Nibbles) :
    fork as bs = (as.take (commonPrefixLength as bs), as.drop (commonPrefixLength as bs),
      bs.drop (commonPrefixLength as bs)) := by
  fun_induction commonPrefixLength as bs with
  | case1 a as b bs hne => rw [fork, if_neg hne]; rfl
  | case2 a as b bs heq ih =>
    rw [fork, if_pos (not_not.mp heq), ih]
    rfl
  | case3 as bs h =>
    cases as with
    | nil => rfl
    | cons a as =>
      cases bs with
      | nil => rfl
      | cons b bs => exact absurd rfl (h a as b bs rfl)

theorem commonPrefixLength_le_right (as bs : Nibbles) : commonPrefixLength as bs ≤ bs.length := by
  fun_induction commonPrefixLength as bs with
  | case1 => exact Nat.zero_le _
  | case2 a as b bs _ ih => exact Nat.succ_le_succ ih
  | case3 => exact Nat.zero_le _

theorem commonPrefixLength_le (as bs : Nibbles) : commonPrefixLength as bs ≤ as.length := by
  fun_induction commonPrefixLength as bs with
  | case1 => exact Nat.zero_le _
  | case2 a as b bs _ ih => exact Nat.succ_le_succ ih
  | case3 => exact Nat.zero_le _

theorem commonPrefix_strip (seg key : Nibbles) : strip seg key =
    if commonPrefixLength seg key < seg.length then none else some (key.drop seg.length) := by
  fun_induction commonPrefixLength seg key with
  | case1 a seg d key hne =>
    rw [strip, if_neg hne, if_pos (List.length_pos_of_ne_nil (List.cons_ne_nil a seg))]
  | case2 a seg d key heq ih =>
    rw [strip, if_pos (not_not.mp heq), ih, List.length_cons, List.drop_succ_cons]
    simp only [Nat.add_lt_add_iff_right]
  | case3 seg key h =>
    cases seg with
    | nil => rfl
    | cons a seg =>
      cases key with
      | nil => rfl
      | cons d key => exact absurd rfl (h a seg d key rfl)

/-- Where a common prefix is all of the first key. -/
theorem fork_rest_eq_nil {as bs : Nibbles} :
    (fork as bs).2.1 = [] ↔ commonPrefixLength as bs = as.length := by
  have := commonPrefixLength_le as bs
  rw [commonPrefix_fork, List.drop_eq_nil_iff]
  omega

end StatelessGuest.Mpt
