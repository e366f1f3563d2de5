import Mathlib.Data.Nat.Digits.Defs
import StatelessGuest.Num.Inverse

/-!
# Multiplication modulo the prime of P-256

The product is added up in columns of 32-bit digits. The upper eight of its sixteen digits are then
moved to the lower ones with small signed coefficients, which leaves a small signed multiple of
`2 ^ 256` to fold.

* `prd`, `comba`, `mulColumns`, `sqrColumns`: the product in columns.
* `solinas`: the signed sums of digits, over any ring.
* `p256FpMul`, `p256FpSqr`.
* `comba_value`, `solinas_modEq`, `foldDown_exact`: what the parts compute.
-/

namespace StatelessGuest.Limb

open Lib

/-! ## The code -/

/-- `2 ^ 256 - 2 ^ 224 + 2 ^ 192 + 2 ^ 96 - 1`. -/
def p256P : U256 := ⟨wordMax, 4294967295, 0, 18446744069414584321⟩

/-- The 32-bit digits of a number. -/
def U256.half (a : U256) : Nat → Word
  | 0 => a.l0 &&& 4294967295
  | 1 => a.l0 >>> 32
  | 2 => a.l1 &&& 4294967295
  | 3 => a.l1 >>> 32
  | 4 => a.l2 &&& 4294967295
  | 5 => a.l2 >>> 32
  | 6 => a.l3 &&& 4294967295
  | _ => a.l3 >>> 32

/-- Add the halves of a product to the low and the high sum of a column. -/
def prd (s : Word × Word) (d : Word × Word) : Word × Word :=
  let p := d.1 * d.2
  (s.1 + (p &&& 4294967295), s.2 + (p >>> 32))

/-- The low and the high sum of a column. -/
def columnSums (ds : List (Word × Word)) : Word × Word := ds.foldl prd (0, 0)

/-- The sums of a column of a square, in which the products of `twice` count two times. -/
def squareSums (ds : List (Word × Word) × List (Word × Word)) : Word × Word :=
  let once := columnSums ds.2
  let twice := columnSums ds.1
  (once.1 + twice.1 + twice.1, once.2 + twice.2 + twice.2)

/-- The digits of the columns, with the carry out of the last one on top. -/
def comba (c : Word) : List (Word × Word) → List Word
  | [] => [c]
  | s :: rest =>
    let col := s.1 + c
    (col &&& 4294967295) :: comba ((col >>> 32) + s.2) rest

/-- The products of each column. -/
def mulColumns (a b : Nat → Word) : List (List (Word × Word)) :=
  [[(a 0, b 0)],
   [(a 0, b 1), (a 1, b 0)],
   [(a 0, b 2), (a 1, b 1), (a 2, b 0)],
   [(a 0, b 3), (a 1, b 2), (a 2, b 1), (a 3, b 0)],
   [(a 0, b 4), (a 1, b 3), (a 2, b 2), (a 3, b 1), (a 4, b 0)],
   [(a 0, b 5), (a 1, b 4), (a 2, b 3), (a 3, b 2), (a 4, b 1), (a 5, b 0)],
   [(a 0, b 6), (a 1, b 5), (a 2, b 4), (a 3, b 3), (a 4, b 2), (a 5, b 1), (a 6, b 0)],
   [(a 0, b 7), (a 1, b 6), (a 2, b 5), (a 3, b 4), (a 4, b 3), (a 5, b 2), (a 6, b 1), (a 7, b 0)],
   [(a 1, b 7), (a 2, b 6), (a 3, b 5), (a 4, b 4), (a 5, b 3), (a 6, b 2), (a 7, b 1)],
   [(a 2, b 7), (a 3, b 6), (a 4, b 5), (a 5, b 4), (a 6, b 3), (a 7, b 2)],
   [(a 3, b 7), (a 4, b 6), (a 5, b 5), (a 6, b 4), (a 7, b 3)],
   [(a 4, b 7), (a 5, b 6), (a 6, b 5), (a 7, b 4)],
   [(a 5, b 7), (a 6, b 6), (a 7, b 5)],
   [(a 6, b 7), (a 7, b 6)],
   [(a 7, b 7)]]

/-- The products that count twice, and the square in the middle. -/
def sqrColumns (a : Nat → Word) : List (List (Word × Word) × List (Word × Word)) :=
  [([], [(a 0, a 0)]),
   ([(a 0, a 1)], []),
   ([(a 0, a 2)], [(a 1, a 1)]),
   ([(a 0, a 3), (a 1, a 2)], []),
   ([(a 0, a 4), (a 1, a 3)], [(a 2, a 2)]),
   ([(a 0, a 5), (a 1, a 4), (a 2, a 3)], []),
   ([(a 0, a 6), (a 1, a 5), (a 2, a 4)], [(a 3, a 3)]),
   ([(a 0, a 7), (a 1, a 6), (a 2, a 5), (a 3, a 4)], []),
   ([(a 1, a 7), (a 2, a 6), (a 3, a 5)], [(a 4, a 4)]),
   ([(a 2, a 7), (a 3, a 6), (a 4, a 5)], []),
   ([(a 3, a 7), (a 4, a 6)], [(a 5, a 5)]),
   ([(a 4, a 7), (a 5, a 6)], []),
   ([(a 5, a 7)], [(a 6, a 6)]),
   ([(a 6, a 7)], []),
   ([], [(a 7, a 7)])]

/-- The eight sums of digits that are congruent to the sixteen digits. -/
def solinas {R : Type} [Add R] [Sub R] (d : Nat → R) : List R :=
  [d 0 + d 8 + d 9 - d 11 - d 12 - d 13 - d 14,
   d 1 + d 9 + d 10 - d 12 - d 13 - d 14 - d 15,
   d 2 + d 10 + d 11 - d 13 - d 14 - d 15,
   d 3 + d 11 + d 11 + d 12 + d 12 + d 13 - d 15 - d 8 - d 9,
   d 4 + d 12 + d 12 + d 13 + d 13 + d 14 - d 9 - d 10,
   d 5 + d 13 + d 13 + d 14 + d 14 + d 15 - d 10 - d 11,
   d 6 + d 14 + d 14 + d 15 + d 15 + d 14 + d 13 - d 8 - d 9,
   d 7 + d 15 + d 15 + d 15 + d 8 - d 10 - d 11 - d 12 - d 13]

/-- The digits of signed sums, and the signed carry out of the last one. -/
def carries (c : Word) : List Word → List Word × Word
  | [] => ([], c)
  | t :: rest =>
    let col := t + c
    let s := carries (col.sshiftRight 32) rest
    ((col &&& 4294967295) :: s.1, s.2)

/-- Eight digits as limbs. -/
def packDigits (v : Nat → Word) : U256 :=
  ⟨v 0 ||| (v 1 <<< 32), v 2 ||| (v 3 <<< 32), v 4 ||| (v 5 <<< 32), v 6 ||| (v 7 <<< 32)⟩

/-- Add the prime while the carry is negative. -/
def foldUp : Nat → U256 → Word → Option (U256 × Word)
  | 0, _, _ => none
  | fuel + 1, r, c =>
    if c.slt 0 then
      let sa := u256AddCarry r p256P
      foldUp fuel sa.1 (c + sa.2)
    else some (r, c)

/-- Subtract the prime while the carry is positive. -/
def foldDown : Nat → U256 → Word → Option (U256 × Word)
  | 0, _, _ => none
  | fuel + 1, r, c =>
    if BitVec.slt 0 c then
      let ltp : Word := if u256Lt r p256P then 1 else 0
      foldDown fuel (u256Sub r p256P) (c - ltp)
    else some (r, c)

def p256FpReduce (a : U256) : U256 := if u256Lt a p256P then a else u256Sub a p256P

/-- The limbs and the carry of the signed sums of sixteen digits. -/
def solinasLimbs (digits : List Word) : U256 × Word :=
  let s := carries 0 (solinas fun i => digits.getD i 0)
  (packDigits fun i => s.1.getD i 0, s.2)

/-- The number of sixteen digits, modulo the prime. -/
def p256FoldReturn (fuel : Nat) (digits : List Word) : Option U256 := do
  let s := solinasLimbs digits
  let s ← foldUp fuel s.1 s.2
  let s ← foldDown fuel s.1 s.2
  return p256FpReduce s.1

def p256FpMul (fuel : Nat) (a b : U256) : Option U256 :=
  p256FoldReturn fuel (comba 0 ((mulColumns a.half b.half).map columnSums))

def p256FpSqr (fuel : Nat) (a : U256) : Option U256 :=
  p256FoldReturn fuel (comba 0 ((sqrColumns a.half).map squareSums))

/-! ## Columns -/

/-- The operands are 32-bit digits. -/
def SmallDigits (ds : List (Word × Word)) : Prop :=
  ∀ d ∈ ds, d.1.toNat < 2 ^ 32 ∧ d.2.toNat < 2 ^ 32

/-- The sum of the lower halves of the products. -/
def lowSum (ds : List (Word × Word)) : Nat :=
  (ds.map fun d => d.1.toNat * d.2.toNat % 2 ^ 32).sum

/-- The sum of the upper halves of the products. -/
def highSum (ds : List (Word × Word)) : Nat :=
  (ds.map fun d => d.1.toNat * d.2.toNat / 2 ^ 32).sum

/-- The sum of the products. -/
def products (ds : List (Word × Word)) : Nat := (ds.map fun d => d.1.toNat * d.2.toNat).sum

section

variable {a b c d : Word} {ds : List (Word × Word)} {s : Word × Word}

theorem toNat_mul_digits (ha : a.toNat < 2 ^ 32) (hb : b.toNat < 2 ^ 32) :
    (a * b).toNat = a.toNat * b.toNat ∧ a.toNat * b.toNat / 2 ^ 32 < 2 ^ 32 := by
  have hlt : a.toNat * b.toNat < 2 ^ 32 * 2 ^ 32 := Nat.mul_lt_mul'' ha hb
  rw [BitVec.toNat_mul]
  omega

theorem low_add_high (ds : List (Word × Word)) : lowSum ds + 2 ^ 32 * highSum ds = products ds := by
  induction ds with
  | nil => rfl
  | cons d ds ih =>
    have hsplit := Nat.mod_add_div (d.1.toNat * d.2.toNat) (2 ^ 32)
    unfold lowSum highSum products at *
    rw [List.map_cons, List.map_cons, List.map_cons, List.sum_cons, List.sum_cons, List.sum_cons]
    omega

theorem lowSum_le (ds : List (Word × Word)) : lowSum ds ≤ ds.length * 2 ^ 32 := by
  induction ds with
  | nil => exact Nat.le_refl _
  | cons d ds ih =>
    unfold lowSum at *
    rw [List.map_cons, List.sum_cons, List.length_cons]
    omega

theorem highSum_le (h : SmallDigits ds) : highSum ds ≤ ds.length * 2 ^ 32 := by
  induction ds with
  | nil => exact Nat.le_refl _
  | cons d ds ih =>
    obtain ⟨ha, hb⟩ := h d List.mem_cons_self
    have hlt := (toNat_mul_digits ha hb).2
    have ih := ih fun e he => h e (List.mem_cons_of_mem d he)
    unfold highSum at *
    rw [List.map_cons, List.sum_cons, List.length_cons]
    omega

/-- Neither sum of a column overflows. -/
theorem foldl_prd (h : SmallDigits ds) (hlow : s.1.toNat + lowSum ds < 2 ^ 64)
    (hhigh : s.2.toNat + highSum ds < 2 ^ 64) :
    (ds.foldl prd s).1.toNat = s.1.toNat + lowSum ds ∧
      (ds.foldl prd s).2.toNat = s.2.toNat + highSum ds := by
  induction ds generalizing s with
  | nil => exact ⟨rfl, rfl⟩
  | cons d ds ih =>
    obtain ⟨ha, hb⟩ := h d List.mem_cons_self
    have hmul := (toNat_mul_digits ha hb).1
    unfold lowSum highSum at *
    rw [List.map_cons, List.sum_cons] at hlow hhigh ⊢
    rw [List.map_cons, List.sum_cons, List.foldl_cons]
    have hfst : (prd s d).1.toNat = s.1.toNat + d.1.toNat * d.2.toNat % 2 ^ 32 := by
      unfold prd
      dsimp only
      rw [BitVec.toNat_add, toNat_and_mask32, hmul, Nat.mod_eq_of_lt (by omega)]
    have hsnd : (prd s d).2.toNat = s.2.toNat + d.1.toNat * d.2.toNat / 2 ^ 32 := by
      unfold prd
      dsimp only
      rw [BitVec.toNat_add, toNat_shiftRight32, hmul, Nat.mod_eq_of_lt (by omega)]
    obtain ⟨ih1, ih2⟩ := @ih (prd s d) (fun e he => h e (List.mem_cons_of_mem d he))
      (by omega) (by omega)
    rw [ih1, ih2, hfst, hsnd, Nat.add_assoc, Nat.add_assoc]
    exact ⟨rfl, rfl⟩

theorem columnSums_value (h : SmallDigits ds) (hlen : ds.length ≤ 8) :
    (columnSums ds).1.toNat = lowSum ds ∧ (columnSums ds).2.toNat = highSum ds := by
  have hlow := lowSum_le ds
  have hhigh := highSum_le h
  have hval := @foldl_prd ds (0, 0) h (by change 0 + _ < _; omega) (by change 0 + _ < _; omega)
  change _ = 0 + _ ∧ _ = 0 + _ at hval
  rwa [Nat.zero_add, Nat.zero_add] at hval

end

/-- No sum of the columns loses a carry. -/
def CarriesFit : Word → List (Word × Word) → Prop
  | _, [] => True
  | c, s :: rest =>
    s.1.toNat + c.toNat < 2 ^ 64 ∧ (s.1.toNat + c.toNat) / 2 ^ 32 + s.2.toNat < 2 ^ 64 ∧
      CarriesFit (((s.1 + c) >>> 32) + s.2) rest

/-- The number whose digits the columns are, before the carries. -/
def columnsValue (cols : List (Word × Word)) : Nat :=
  Nat.ofDigits (2 ^ 32) (cols.map fun s => s.1.toNat + 2 ^ 32 * s.2.toNat)

section

variable {c : Word} {cols : List (Word × Word)} {s : Word × Word}

theorem comba_step (hlow : s.1.toNat + c.toNat < 2 ^ 64)
    (hhigh : (s.1.toNat + c.toNat) / 2 ^ 32 + s.2.toNat < 2 ^ 64) :
    ((s.1 + c) &&& 4294967295).toNat = (s.1.toNat + c.toNat) % 2 ^ 32 ∧
      (((s.1 + c) >>> 32) + s.2).toNat = (s.1.toNat + c.toNat) / 2 ^ 32 + s.2.toNat := by
  have hsum : (s.1 + c).toNat = s.1.toNat + c.toNat := by
    rw [BitVec.toNat_add, Nat.mod_eq_of_lt hlow]
  have hcarry := toNat_shiftRight32 (s.1 + c)
  rw [hsum] at hcarry
  rw [toNat_and_mask32, hsum, BitVec.toNat_add, hcarry, Nat.mod_eq_of_lt hhigh]
  exact ⟨rfl, rfl⟩

theorem carriesFit (h : ∀ s ∈ cols, s.1.toNat ≤ 2 ^ 35 ∧ s.2.toNat ≤ 2 ^ 35)
    (hc : c.toNat ≤ 2 ^ 36) : CarriesFit c cols := by
  induction cols generalizing c with
  | nil => trivial
  | cons s cols ih =>
    obtain ⟨h1, h2⟩ := h s List.mem_cons_self
    obtain ⟨-, hcarry⟩ := @comba_step c s (by omega) (by omega)
    exact ⟨by omega, by omega, ih (fun t ht => h t (List.mem_cons_of_mem s ht)) (by omega)⟩

theorem comba_value (h : CarriesFit c cols) :
    Nat.ofDigits (2 ^ 32) ((comba c cols).map BitVec.toNat) = c.toNat + columnsValue cols := by
  unfold columnsValue
  induction cols generalizing c with
  | nil => rfl
  | cons s cols ih =>
    obtain ⟨hlow, hhigh, hrest⟩ := h
    obtain ⟨hdigit, hcarry⟩ := comba_step hlow hhigh
    unfold comba
    dsimp only
    rw [List.map_cons, List.map_cons, Nat.ofDigits_cons, Nat.ofDigits_cons, ih hrest, hdigit,
      hcarry]
    have hsplit := Nat.mod_add_div (s.1.toNat + c.toNat) (2 ^ 32)
    linear_combination hsplit

theorem length_comba (c : Word) (cols : List (Word × Word)) :
    (comba c cols).length = cols.length + 1 := by
  induction cols generalizing c with
  | nil => rfl
  | cons s cols ih =>
    unfold comba
    rw [List.length_cons, List.length_cons, ih]

/-- All digits but the last one are masked. -/
theorem comba_digit_lt (c : Word) {i : Nat} (hi : i < cols.length) :
    ((comba c cols).getD i 0).toNat < 2 ^ 32 := by
  induction cols generalizing c i with
  | nil => exact absurd hi (Nat.not_lt_zero i)
  | cons s cols ih =>
    unfold comba
    dsimp only
    cases i with
    | zero =>
      rw [List.getD_cons_zero, toNat_and_mask32]
      exact Nat.mod_lt _ (by decide)
    | succ i =>
      rw [List.getD_cons_succ]
      exact ih _ (Nat.lt_of_succ_lt_succ hi)

end

/-- The digits of a list as a function. -/
theorem ofDigits_eq_value (b : Nat) (l : List Word) :
    Nat.ofDigits b (l.map BitVec.toNat) =
      Digits.value b (fun i => (l.getD i 0).toNat) l.length := by
  induction l with
  | nil => rfl
  | cons w l ih =>
    rw [List.map_cons, Nat.ofDigits_cons, ih, List.length_cons, Nat.add_comm l.length 1,
      Digits.value_add, Digits.value_one]
    simp only [List.getD_cons_zero, Nat.pow_one, Nat.add_comm 1, List.getD_cons_succ]

/-! ## The product -/

theorem U256.half_lt (a : U256) (i : Nat) : (a.half i).toNat < 2 ^ 32 := by
  have hlow : ∀ w : Word, (w &&& 4294967295).toNat < 2 ^ 32 := fun w => by
    rw [toNat_and_mask32]
    exact Nat.mod_lt _ (by decide)
  have hhigh : ∀ w : Word, (w >>> 32).toNat < 2 ^ 32 := fun w => by
    have := w.isLt
    rw [toNat_shiftRight32]
    omega
  unfold half
  split <;> first | exact hlow _ | exact hhigh _

theorem U256.value_half (a : U256) :
    a.toNat = Digits.value (2 ^ 32) (fun i => (a.half i).toNat) 8 := by
  have h0 := Nat.mod_add_div a.l0.toNat (2 ^ 32)
  have h1 := Nat.mod_add_div a.l1.toNat (2 ^ 32)
  have h2 := Nat.mod_add_div a.l2.toNat (2 ^ 32)
  have h3 := Nat.mod_add_div a.l3.toNat (2 ^ 32)
  simp only [Digits.value, half, toNat_and_mask32, toNat_shiftRight32]
  unfold toNat
  omega

/-- The products of a square's column. -/
def squareProducts (ds : List (Word × Word) × List (Word × Word)) : Nat :=
  products ds.2 + 2 * products ds.1

section

variable {ds : List (Word × Word)}

/-- The sums of a column stay small and stand for its products. -/
structure SumsTo (s : Word × Word) (total : Nat) : Prop where
  low : s.1.toNat ≤ 2 ^ 35
  high : s.2.toNat ≤ 2 ^ 35
  total : s.1.toNat + 2 ^ 32 * s.2.toNat = total

theorem sumsTo_products (h : SmallDigits ds) (hlen : ds.length ≤ 8) :
    SumsTo (columnSums ds) (products ds) := by
  obtain ⟨hlow, hhigh⟩ := columnSums_value h hlen
  have hle := lowSum_le ds
  have hle' := highSum_le h
  refine ⟨by omega, by omega, ?_⟩
  rw [hlow, hhigh, low_add_high]

theorem squareSums_value {sq : List (Word × Word) × List (Word × Word)}
    (htwice : SmallDigits sq.1) (honce : SmallDigits sq.2)
    (hlen : sq.2.length + 2 * sq.1.length ≤ 8) :
    (squareSums sq).1.toNat = lowSum sq.2 + 2 * lowSum sq.1 ∧
      (squareSums sq).2.toNat = highSum sq.2 + 2 * highSum sq.1 := by
  obtain ⟨hlow, hhigh⟩ := columnSums_value htwice (by omega)
  obtain ⟨hlow', hhigh'⟩ := columnSums_value honce (by omega)
  have hle := lowSum_le sq.1
  have hle' := lowSum_le sq.2
  have hge := highSum_le htwice
  have hge' := highSum_le honce
  unfold squareSums
  dsimp only
  rw [BitVec.toNat_add, BitVec.toNat_add, BitVec.toNat_add, BitVec.toNat_add, hlow, hlow', hhigh,
    hhigh']
  omega

theorem sumsTo_squareProducts {sq : List (Word × Word) × List (Word × Word)}
    (htwice : SmallDigits sq.1) (honce : SmallDigits sq.2)
    (hlen : sq.2.length + 2 * sq.1.length ≤ 8) : SumsTo (squareSums sq) (squareProducts sq) := by
  obtain ⟨hlow, hhigh⟩ := squareSums_value htwice honce hlen
  have hle := lowSum_le sq.1
  have hle' := lowSum_le sq.2
  have hge := highSum_le htwice
  have hge' := highSum_le honce
  have hadd := low_add_high sq.1
  have hadd' := low_add_high sq.2
  exact ⟨by omega, by omega, by unfold squareProducts; omega⟩

/-- The digits of columns of products. -/
theorem comba_products {α : Type} (sums : α → Word × Word) (total : α → Nat) {cols : List α}
    (h : ∀ x ∈ cols, SumsTo (sums x) (total x)) :
    CarriesFit 0 (cols.map sums) ∧
      Nat.ofDigits (2 ^ 32) ((comba 0 (cols.map sums)).map BitVec.toNat) =
        Nat.ofDigits (2 ^ 32) (cols.map total) := by
  have hfit : CarriesFit 0 (cols.map sums) := by
    refine carriesFit (fun s hs => ?_) (by decide)
    obtain ⟨x, hx, rfl⟩ := List.mem_map.mp hs
    exact ⟨(h x hx).low, (h x hx).high⟩
  refine ⟨hfit, ?_⟩
  rw [comba_value hfit, show (0 : Word).toNat = 0 from rfl, Nat.zero_add, columnsValue,
    List.map_map]
  exact congrArg _ (List.map_congr_left fun x hx => (h x hx).total)

end

section

variable {a b : Nat → Word}

@[simp] theorem smallDigits_nil : SmallDigits [] := List.forall_mem_nil _

@[simp] theorem smallDigits_cons {d : Word × Word} {ds : List (Word × Word)} :
    SmallDigits (d :: ds) ↔ (d.1.toNat < 2 ^ 32 ∧ d.2.toNat < 2 ^ 32) ∧ SmallDigits ds :=
  List.forall_mem_cons

theorem mulColumns_small (ha : ∀ i, (a i).toNat < 2 ^ 32) (hb : ∀ i, (b i).toNat < 2 ^ 32) :
    ∀ ds ∈ mulColumns a b, SmallDigits ds ∧ ds.length ≤ 8 := by
  simp only [mulColumns, List.forall_mem_cons, smallDigits_cons, smallDigits_nil, ha, hb]
  simp

theorem sqrColumns_small (ha : ∀ i, (a i).toNat < 2 ^ 32) :
    ∀ ds ∈ sqrColumns a,
      SmallDigits ds.1 ∧ SmallDigits ds.2 ∧ ds.2.length + 2 * ds.1.length ≤ 8 := by
  simp only [sqrColumns, List.forall_mem_cons, smallDigits_cons, smallDigits_nil, ha]
  simp

/-- The columns hold the products of all pairs of digits. -/
theorem mulColumns_value (a b : Nat → Word) :
    Nat.ofDigits (2 ^ 32) ((mulColumns a b).map products) =
      Digits.value (2 ^ 32) (fun i => (a i).toNat) 8 *
        Digits.value (2 ^ 32) (fun i => (b i).toNat) 8 := by
  simp only [mulColumns, products, List.map_cons, List.map_nil, List.sum_cons, List.sum_nil,
    Nat.ofDigits_cons, Nat.ofDigits_nil, Digits.value]
  ring

theorem sqrColumns_value (a : Nat → Word) :
    Nat.ofDigits (2 ^ 32) ((sqrColumns a).map squareProducts) =
      Digits.value (2 ^ 32) (fun i => (a i).toNat) 8 *
        Digits.value (2 ^ 32) (fun i => (a i).toNat) 8 := by
  simp only [sqrColumns, squareProducts, products, List.map_cons, List.map_nil, List.sum_cons,
    List.sum_nil, Nat.ofDigits_cons, Nat.ofDigits_nil, Digits.value]
  ring

end

/-! ## The signed sums -/

/-- The integer with signed digits. -/
def signedValue : List Int → Int
  | [] => 0
  | t :: rest => t + 2 ^ 32 * signedValue rest

theorem toNat_p256P :
    (p256P.toNat : Int) = (2 ^ 32) ^ 8 - (2 ^ 32) ^ 7 + (2 ^ 32) ^ 6 + (2 ^ 32) ^ 3 - 1 := by decide

/-- In the base `B` the prime is `B ^ 8 - B ^ 7 + B ^ 6 + B ^ 3 - 1`, and the eight sums are the
remainder of the sixteen digits. -/
theorem solinas_modEq (d : Nat → Nat) :
    ∃ q : Int, (Digits.value (2 ^ 32) d 16 : Int) =
      signedValue (solinas fun i => (d i : Int)) + p256P.toNat * q := by
  let B : Int := 2 ^ 32
  refine ⟨d 8 + d 9 * (B + 1) + d 10 * (B ^ 2 + B) + d 11 * (B ^ 3 + B ^ 2 - 1) +
    d 12 * (B ^ 4 + B ^ 3 - B - 1) + d 13 * (B ^ 5 + B ^ 4 - B ^ 2 - B - 1) +
    d 14 * (B ^ 6 + B ^ 5 - B ^ 3 - B ^ 2 - B - 1) +
    d 15 * (B ^ 7 + B ^ 6 - B ^ 4 - B ^ 3 - B ^ 2 - B), ?_⟩
  rw [toNat_p256P]
  simp only [signedValue, solinas, Digits.value]
  push_cast
  ring

theorem ofInt_sub (x y : Int) :
    BitVec.ofInt 64 (x - y) = BitVec.ofInt 64 x - BitVec.ofInt 64 y := by
  rw [Int.sub_eq_add_neg, BitVec.ofInt_add, BitVec.ofInt_neg, BitVec.sub_eq_add_neg]

theorem toInt_ofInt_small {x : Int} (hlo : -2 ^ 40 ≤ x) (hhi : x ≤ 2 ^ 40) :
    (BitVec.ofInt 64 x).toInt = x :=
  BitVec.toInt_ofInt_eq_self (by decide) (by omega) (by omega)

/-- The sums stand for less than eight times the prime. -/
theorem signedValue_solinas {d : Nat → Nat} (hd : ∀ i, d i < 2 ^ 32) :
    -8 * (p256P.toNat : Int) ≤ signedValue (solinas fun i => (d i : Int)) ∧
      signedValue (solinas fun i => (d i : Int)) < 8 * (p256P.toNat : Int) := by
  have h0 := hd 0
  have h1 := hd 1
  have h2 := hd 2
  have h3 := hd 3
  have h4 := hd 4
  have h5 := hd 5
  have h6 := hd 6
  have h7 := hd 7
  have h8 := hd 8
  have h9 := hd 9
  have h10 := hd 10
  have h11 := hd 11
  have h12 := hd 12
  have h13 := hd 13
  have h14 := hd 14
  have h15 := hd 15
  rw [toNat_p256P]
  simp only [signedValue, solinas]
  omega

/-- The signed sums do not overflow, and are small. -/
theorem solinas_exact {d : Nat → Word} (hd : ∀ i, (d i).toNat < 2 ^ 32) :
    (solinas d).map BitVec.toInt = solinas (fun i => ((d i).toNat : Int)) ∧
      ∀ t ∈ solinas (fun i => ((d i).toNat : Int)), -2 ^ 36 ≤ t ∧ t ≤ 2 ^ 36 := by
  have hsmall : ∀ t ∈ solinas (fun i => ((d i).toNat : Int)), -2 ^ 36 ≤ t ∧ t ≤ 2 ^ 36 := by
    have h0 := hd 0
    have h1 := hd 1
    have h2 := hd 2
    have h3 := hd 3
    have h4 := hd 4
    have h5 := hd 5
    have h6 := hd 6
    have h7 := hd 7
    have h8 := hd 8
    have h9 := hd 9
    have h10 := hd 10
    have h11 := hd 11
    have h12 := hd 12
    have h13 := hd 13
    have h14 := hd 14
    have h15 := hd 15
    simp only [solinas, List.forall_mem_cons]
    refine ⟨?_, ?_, ?_, ?_, ?_, ?_, ?_, ?_, List.forall_mem_nil _⟩ <;> omega
  refine ⟨?_, hsmall⟩
  have hmap : solinas d = (solinas fun i => ((d i).toNat : Int)).map (BitVec.ofInt 64) := by
    simp only [solinas, List.map_cons, List.map_nil, BitVec.ofInt_add, ofInt_sub,
      BitVec.ofInt_natCast, BitVec.ofNat_toNat, BitVec.setWidth_eq]
  rw [hmap, List.map_map]
  refine (List.map_congr_left fun t ht => ?_).trans (List.map_id _)
  obtain ⟨hlo, hhi⟩ := hsmall t ht
  exact toInt_ofInt_small (by omega) (by omega)

/-- No signed sum with its carry overflows. -/
def SignedFit : Word → List Word → Prop
  | _, [] => True
  | c, t :: rest =>
    (t + c).toInt = t.toInt + c.toInt ∧ SignedFit ((t + c).sshiftRight 32) rest

section

variable {c : Word} {ts : List Word}

theorem toInt_emod (w : Word) : (w.toNat : Int) % 2 ^ 32 = w.toInt % 2 ^ 32 := by
  rw [BitVec.toInt_eq_toNat_cond]
  split
  · rfl
  · omega

theorem carries_step {t : Word} (hsum : (t + c).toInt = t.toInt + c.toInt) :
    (((t + c) &&& 4294967295).toNat : Int) = (t.toInt + c.toInt) % 2 ^ 32 ∧
      ((t + c).sshiftRight 32).toInt = (t.toInt + c.toInt) / 2 ^ 32 := by
  rw [toNat_and_mask32, Int.natCast_emod, ← hsum]
  refine ⟨toInt_emod (t + c), ?_⟩
  rw [BitVec.toInt_sshiftRight, Int.shiftRight_eq_div_pow]
  rfl

theorem signedFit (h : ∀ t ∈ ts, -2 ^ 36 ≤ t.toInt ∧ t.toInt ≤ 2 ^ 36) (hlo : -2 ^ 5 ≤ c.toInt)
    (hhi : c.toInt ≤ 2 ^ 5) : SignedFit c ts := by
  induction ts generalizing c with
  | nil => trivial
  | cons t ts ih =>
    obtain ⟨ht, ht'⟩ := h t List.mem_cons_self
    have hsum : (t + c).toInt = t.toInt + c.toInt := by
      rw [BitVec.toInt_add]
      exact Int.bmod_eq_of_le (by omega) (by omega)
    obtain ⟨-, hcarry⟩ := carries_step hsum
    exact ⟨hsum, ih (fun u hu => h u (List.mem_cons_of_mem t hu)) (by omega) (by omega)⟩

/-- The digits and the carry stand for the sums. -/
theorem carries_value (h : SignedFit c ts) :
    ((Nat.ofDigits (2 ^ 32) ((carries c ts).1.map BitVec.toNat) : Nat) : Int) +
        (2 ^ 32) ^ ts.length * (carries c ts).2.toInt =
      c.toInt + signedValue (ts.map BitVec.toInt) := by
  induction ts generalizing c with
  | nil =>
    simp [carries, signedValue, Nat.ofDigits_nil]
  | cons t ts ih =>
    obtain ⟨hsum, hrest⟩ := h
    obtain ⟨hdigit, hcarry⟩ := carries_step hsum
    have ih := ih hrest
    have hsplit := Int.emod_add_mul_ediv (t.toInt + c.toInt) (2 ^ 32)
    unfold carries
    dsimp only
    rw [List.map_cons, List.map_cons, Nat.ofDigits_cons, List.length_cons, signedValue]
    rw [hcarry] at ih
    rw [Int.natCast_add, Int.natCast_mul, hdigit, show ((2 ^ 32 : Nat) : Int) = 2 ^ 32 from rfl]
    linear_combination 2 ^ 32 * ih + hsplit

theorem length_carries (c : Word) (ts : List Word) : (carries c ts).1.length = ts.length := by
  induction ts generalizing c with
  | nil => rfl
  | cons t ts ih =>
    unfold carries
    rw [List.length_cons, List.length_cons, ih]

theorem carries_digit_lt (c : Word) (ts : List Word) (i : Nat) :
    ((carries c ts).1.getD i 0).toNat < 2 ^ 32 := by
  induction ts generalizing c i with
  | nil => exact Nat.two_pow_pos 32
  | cons t ts ih =>
    unfold carries
    dsimp only
    cases i with
    | zero =>
      rw [List.getD_cons_zero, toNat_and_mask32]
      exact Nat.mod_lt _ (by decide)
    | succ i =>
      rw [List.getD_cons_succ]
      exact ih _ i

end

theorem toNat_or_shift {a b : Word} (ha : a.toNat < 2 ^ 32) (hb : b.toNat < 2 ^ 32) :
    (a ||| (b <<< 32)).toNat = a.toNat + 2 ^ 32 * b.toNat := by
  have hshift := toNat_shiftLeft32 b
  rw [Nat.mod_eq_of_lt hb, Nat.mul_comm] at hshift
  rw [BitVec.or_comm, BitVec.toNat_or, hshift, ← Nat.two_pow_add_eq_or_of_lt ha, Nat.add_comm]

theorem toNat_packDigits {v : Nat → Word} (hv : ∀ i, (v i).toNat < 2 ^ 32) :
    (packDigits v).toNat = Digits.value (2 ^ 32) (fun i => (v i).toNat) 8 := by
  unfold packDigits U256.toNat
  dsimp only
  rw [toNat_or_shift (hv 0) (hv 1), toNat_or_shift (hv 2) (hv 3), toNat_or_shift (hv 4) (hv 5),
    toNat_or_shift (hv 6) (hv 7)]
  simp only [Digits.value]
  ring

/-! ## The folds -/

section

variable {fuel : Nat} {r : U256} {c : Word}

/-- The integer of the limbs and the signed word above them. -/
def topValue (r : U256) (c : Word) : Int := r.toNat + 2 ^ 256 * c.toInt

/-- The integer is within eight times the prime. -/
theorem toInt_top (hlo : -8 * (p256P.toNat : Int) ≤ topValue r c)
    (hhi : topValue r c < 8 * (p256P.toNat : Int)) : -9 ≤ c.toInt ∧ c.toInt ≤ 8 := by
  have hr := r.toNat_lt
  have hp := p256P.toNat_lt
  unfold topValue at hlo hhi
  omega

/-- Steps of the carry do not overflow. -/
theorem toInt_step {w : Word} (hlo : -9 ≤ c.toInt) (hhi : c.toInt ≤ 8) (hw : w.toNat ≤ 1) :
    (c + w).toInt = c.toInt + w.toNat ∧ (c - w).toInt = c.toInt - w.toNat := by
  have hnat : w.toInt = w.toNat := BitVec.toInt_eq_toNat_of_lt (by omega)
  rw [BitVec.toInt_add, BitVec.toInt_sub, hnat]
  exact ⟨Int.bmod_eq_of_le (by omega) (by omega), Int.bmod_eq_of_le (by omega) (by omega)⟩

/-- The prime is added until the carry is not negative. -/
theorem foldUp_exact (hlo : -8 * (p256P.toNat : Int) ≤ topValue r c)
    (hhi : topValue r c < 8 * (p256P.toNat : Int))
    (hfuel : 0 ≤ topValue r c + fuel * p256P.toNat) :
    ∃ r' c' k, foldUp (fuel + 1) r c = some (r', c') ∧ 0 ≤ topValue r' c' ∧
      topValue r' c' < 8 * (p256P.toNat : Int) ∧
      topValue r' c' = topValue r c + p256P.toNat * k := by
  induction fuel generalizing r c with
  | zero =>
    have hr := r.toNat_lt
    have hpos : ¬c.toInt < 0 := by
      unfold topValue at hfuel
      omega
    refine ⟨r, c, 0, ?_, by omega, hhi, by rw [Int.mul_zero, Int.add_zero]⟩
    rw [foldUp, if_neg fun h => hpos (BitVec.slt_iff_toInt_lt.mp h)]
  | succ fuel ih =>
    have hr := r.toNat_lt
    obtain ⟨hclo, hchi⟩ := toInt_top hlo hhi
    rw [foldUp]
    by_cases hneg : c.toInt < 0
    · rw [if_pos (BitVec.slt_iff_toInt_lt.mpr hneg)]
      obtain ⟨hsum, hcarry⟩ := u256AddCarry_value r p256P
      obtain ⟨hc, -⟩ := toInt_step hclo hchi hcarry
      have hstep : topValue (u256AddCarry r p256P).1 (c + (u256AddCarry r p256P).2) =
          topValue r c + p256P.toNat := by
        unfold topValue
        rw [hc]
        omega
      have hbelow : topValue r c < 0 := by
        unfold topValue
        omega
      obtain ⟨r', c', k, hrun, hpos, hlt, heq⟩ := @ih _ _ (by rw [hstep]; omega)
        (by rw [hstep]; omega) (by rw [hstep]; push_cast at hfuel; linarith)
      refine ⟨r', c', k + 1, hrun, hpos, hlt, ?_⟩
      rw [heq, hstep]
      ring
    · rw [if_neg fun h => hneg (BitVec.slt_iff_toInt_lt.mp h)]
      refine ⟨r, c, 0, rfl, ?_, hhi, by rw [Int.mul_zero, Int.add_zero]⟩
      unfold topValue
      omega

theorem zero_slt_iff : BitVec.slt 0 c = true ↔ 0 < c.toInt := by
  rw [BitVec.slt_iff_toInt_lt, show (0 : Word).toInt = 0 from rfl]

/-- A carry that is not positive is zero. -/
theorem foldDown_done (hpos : 0 ≤ topValue r c) (hc : ¬0 < c.toInt) :
    foldDown (fuel + 1) r c = some (r, 0) ∧ (r.toNat : Int) = topValue r c := by
  have hr := r.toNat_lt
  have hzero : c.toInt = 0 := by
    unfold topValue at hpos
    omega
  have hc0 : c = 0 := BitVec.eq_of_toInt_eq (by rw [hzero]; rfl)
  rw [foldDown, if_neg fun h => hc (zero_slt_iff.mp h), hc0]
  refine ⟨rfl, ?_⟩
  unfold topValue
  rw [show (0 : Word).toInt = 0 from rfl, Int.mul_zero, Int.add_zero]

/-- The prime is subtracted until the carry is zero. -/
theorem foldDown_exact (hpos : 0 ≤ topValue r c) (hhi : topValue r c < 8 * (p256P.toNat : Int))
    (hfuel : topValue r c < (fuel + 1) * p256P.toNat) :
    ∃ r' k, foldDown (fuel + 1) r c = some (r', 0) ∧
      (r'.toNat : Int) = topValue r c + p256P.toNat * k := by
  have hp := p256P.toNat_lt
  have hr := r.toNat_lt
  by_cases hc : 0 < c.toInt
  · induction fuel generalizing r c with
    | zero =>
      unfold topValue at hfuel
      omega
    | succ fuel ih =>
      obtain ⟨hclo, hchi⟩ := toInt_top (by omega) hhi
      rw [foldDown, if_pos (zero_slt_iff.mpr hc)]
      have hsub := toNat_u256Sub r p256P
      have hrd := (u256Sub r p256P).toNat_lt
      have hstep : topValue (u256Sub r p256P) (c - if u256Lt r p256P then 1 else 0) =
          topValue r c - p256P.toNat := by
        unfold topValue
        by_cases hlt : r.toNat < p256P.toNat
        · obtain ⟨-, hone⟩ := toInt_step (w := 1) hclo hchi (Nat.le_refl 1)
          rw [if_pos ((u256Lt_iff r p256P).mpr hlt), hone, show (1 : Word).toNat = 1 from rfl]
          omega
        · obtain ⟨-, hnone⟩ := toInt_step (w := 0) hclo hchi (Nat.zero_le 1)
          rw [if_neg fun h => hlt ((u256Lt_iff r p256P).mp h), hnone,
            show (0 : Word).toNat = 0 from rfl]
          omega
      have hbig : p256P.toNat < topValue r c := by
        unfold topValue
        omega
      have hfuel' : topValue r c - p256P.toNat < (fuel + 1) * p256P.toNat := by
        push_cast at hfuel
        linarith
      dsimp only
      rw [← hstep] at hfuel'
      by_cases hc' : 0 < (c - if u256Lt r p256P then 1 else 0).toInt
      · obtain ⟨r', k, hrun, heq⟩ := ih (by omega) (by omega) hfuel' hrd hc'
        exact ⟨r', k - 1, hrun, by rw [heq, hstep]; ring⟩
      · obtain ⟨hrun, heq⟩ := @foldDown_done fuel (u256Sub r p256P) _ (by omega) hc'
        exact ⟨_, -1, hrun, by rw [heq, hstep]; ring⟩
  · obtain ⟨hrun, heq⟩ := @foldDown_done fuel r c hpos hc
    exact ⟨r, 0, hrun, by rw [heq, Int.mul_zero, Int.add_zero]⟩

/-! ## The multiplication -/

/-- A number below `2 ^ 256` is reduced with one subtraction. -/
theorem toNat_p256FpReduce (a : U256) : (p256FpReduce a).toNat = a.toNat % p256P.toNat := by
  have ha := a.toNat_lt
  have hp : 2 ^ 256 < 2 * p256P.toNat := by decide
  have hle := p256P.toNat_lt
  unfold p256FpReduce
  by_cases h : a.toNat < p256P.toNat
  · rw [if_pos ((u256Lt_iff a p256P).mpr h), Nat.mod_eq_of_lt h]
  · have hge := Nat.le_of_not_lt h
    rw [if_neg fun hn => h ((u256Lt_iff a p256P).mp hn), toNat_u256Sub,
      Nat.mod_eq_sub_mod hge, Nat.mod_eq_of_lt (a := a.toNat - p256P.toNat) (by omega)]
    omega

end

section

variable {digits : List Word} {fuel : Nat}

/-- The digits of a product of two numbers. -/
structure ProductDigits (digits : List Word) (n : Nat) : Prop where
  length : digits.length = 16
  lt : ∀ i, (digits.getD i 0).toNat < 2 ^ 32
  value : Nat.ofDigits (2 ^ 32) (digits.map BitVec.toNat) = n

/-- The last carry out of the columns is a digit as well. -/
theorem productDigits {cols : List (Word × Word)} {x y : Nat} (hlen : cols.length = 15)
    (hx : x < 2 ^ 256) (hy : y < 2 ^ 256)
    (hvalue : Nat.ofDigits (2 ^ 32) ((comba 0 cols).map BitVec.toNat) = x * y) :
    ProductDigits (comba 0 cols) (x * y) := by
  have hlen' : (comba 0 cols).length = 16 := by rw [length_comba, hlen]
  refine ⟨hlen', fun i => ?_, hvalue⟩
  by_cases hi : i < 15
  · exact comba_digit_lt 0 (by omega)
  by_cases hi' : i = 15
  · have hsum := hvalue
    rw [ofDigits_eq_value, hlen', Digits.value] at hsum
    have hmul : x * y < 2 ^ 256 * 2 ^ 256 := Nat.mul_lt_mul'' hx hy
    have htop : ((comba 0 cols).getD 15 0).toNat * (2 ^ 32) ^ 15 < 2 ^ 32 * (2 ^ 32) ^ 15 := by
      rw [show (2 : Nat) ^ 32 * (2 ^ 32) ^ 15 = 2 ^ 256 * 2 ^ 256 from rfl]
      omega
    rw [hi']
    exact Nat.lt_of_mul_lt_mul_right htop
  · rw [List.getD_eq_getElem?_getD, List.getElem?_eq_none (by omega)]
    exact Nat.two_pow_pos 32

/-- The sums and their carries do not overflow, and the limbs and the carry out of them are
congruent to the digits. -/
theorem solinasLimbs_exact {n : Nat} (h : ProductDigits digits n) :
    SignedFit 0 (solinas fun i => digits.getD i 0) ∧
      (-8 * (p256P.toNat : Int) ≤ topValue (solinasLimbs digits).1 (solinasLimbs digits).2 ∧
        topValue (solinasLimbs digits).1 (solinasLimbs digits).2 < 8 * (p256P.toNat : Int)) ∧
      ∃ q, (n : Int) = topValue (solinasLimbs digits).1 (solinasLimbs digits).2 +
        p256P.toNat * q := by
  obtain ⟨hexact, hsmall⟩ := solinas_exact h.lt
  have hbounds := signedValue_solinas h.lt
  obtain ⟨q, hq⟩ := solinas_modEq fun i => (digits.getD i 0).toNat
  have hdigits := ofDigits_eq_value (2 ^ 32) digits
  rw [h.value, h.length] at hdigits
  rw [← hdigits] at hq
  have hfit : SignedFit 0 (solinas fun i => digits.getD i 0) := by
    refine signedFit (fun t ht => hsmall t.toInt ?_) (by decide) (by decide)
    rw [← hexact]
    exact List.mem_map_of_mem ht
  have hvalue := carries_value hfit
  have hlen : (solinas fun i => digits.getD i 0).length = 8 := rfl
  rw [hexact, show (0 : Word).toInt = 0 from rfl, Int.zero_add, ofDigits_eq_value,
    length_carries, hlen, show ((2 : Int) ^ 32) ^ 8 = 2 ^ 256 by decide] at hvalue
  have htop : topValue (solinasLimbs digits).1 (solinasLimbs digits).2 =
      signedValue (solinas fun i => ((digits.getD i 0).toNat : Int)) := by
    rw [← hvalue]
    unfold topValue solinasLimbs
    dsimp only
    rw [toNat_packDigits (carries_digit_lt 0 _)]
  rw [htop]
  exact ⟨hfit, hbounds, q, hq⟩

/-- The signed sums and their carries do not overflow, and the folds end without a carry. -/
structure FoldsExactly (fuel : Nat) (digits : List Word) : Prop where
  sums : (solinas fun i => digits.getD i 0).map BitVec.toInt =
    solinas fun i => ((digits.getD i 0).toNat : Int)
  carries : SignedFit 0 (solinas fun i => digits.getD i 0)
  folds : ∃ r c r', foldUp fuel (solinasLimbs digits).1 (solinasLimbs digits).2 = some (r, c) ∧
    foldDown fuel r c = some (r', 0)

theorem p256FoldReturn_exact {n : Nat} (h : ProductDigits digits n) (hfuel : 9 ≤ fuel) :
    FoldsExactly fuel digits ∧
      ∃ r, p256FoldReturn fuel digits = some r ∧ r.toNat = n % p256P.toNat := by
  obtain ⟨hfit, ⟨hlo, hhi⟩, q, hq⟩ := solinasLimbs_exact h
  obtain ⟨fuel, rfl⟩ : ∃ k, fuel = k + 9 := ⟨fuel - 9, by omega⟩
  have hp : (0 : Int) < p256P.toNat := by decide
  obtain ⟨r', c', k, hup, hpos, hlt, heq⟩ := @foldUp_exact (fuel + 8) _ _ hlo hhi
    (by push_cast; linarith [mul_nonneg (Int.natCast_nonneg fuel) hp.le])
  obtain ⟨r'', l, hdown, heq'⟩ := @foldDown_exact (fuel + 8) r' c' hpos hlt
    (by push_cast; linarith [mul_nonneg (Int.natCast_nonneg fuel) hp.le])
  refine ⟨⟨(solinas_exact h.lt).1, hfit, r', c', r'', hup, hdown⟩, p256FpReduce r'', ?_, ?_⟩
  · unfold p256FoldReturn
    simp only [hup, hdown, Option.bind_eq_bind, Option.bind_some]
    rfl
  · have hmod : (r''.toNat : Int) = n + p256P.toNat * (k + l - q) := by
      rw [heq', heq, hq]
      ring
    rw [toNat_p256FpReduce, ← Int.natCast_inj, Int.natCast_emod, Int.natCast_emod, hmod,
      Int.add_mul_emod_self_left]

end

section

variable (a b : U256)

def mulDigits : List Word := comba 0 ((mulColumns a.half b.half).map columnSums)

def sqrDigits : List Word := comba 0 ((sqrColumns a.half).map squareSums)

/-- No sum of a column overflows, and no carry between columns is lost. -/
structure ColumnsFit : Prop where
  mul : ∀ ds ∈ mulColumns a.half b.half,
    (columnSums ds).1.toNat = lowSum ds ∧ (columnSums ds).2.toNat = highSum ds
  mulCarries : CarriesFit 0 ((mulColumns a.half b.half).map columnSums)
  sqr : ∀ ds ∈ sqrColumns a.half,
    (squareSums ds).1.toNat = lowSum ds.2 + 2 * lowSum ds.1 ∧
      (squareSums ds).2.toNat = highSum ds.2 + 2 * highSum ds.1
  sqrCarries : CarriesFit 0 ((sqrColumns a.half).map squareSums)

theorem mulDigits_exact :
    CarriesFit 0 ((mulColumns a.half b.half).map columnSums) ∧
      ProductDigits (mulDigits a b) (a.toNat * b.toNat) := by
  have hsmall := mulColumns_small a.half_lt b.half_lt
  obtain ⟨hfit, hvalue⟩ := comba_products columnSums products fun ds hds =>
    sumsTo_products (hsmall ds hds).1 (hsmall ds hds).2
  rw [mulColumns_value, ← a.value_half, ← b.value_half] at hvalue
  exact ⟨hfit, productDigits rfl a.toNat_lt b.toNat_lt hvalue⟩

theorem sqrDigits_exact :
    CarriesFit 0 ((sqrColumns a.half).map squareSums) ∧
      ProductDigits (sqrDigits a) (a.toNat * a.toNat) := by
  have hsmall := sqrColumns_small a.half_lt
  obtain ⟨hfit, hvalue⟩ := comba_products squareSums squareProducts fun ds hds =>
    sumsTo_squareProducts (hsmall ds hds).1 (hsmall ds hds).2.1 (hsmall ds hds).2.2
  rw [sqrColumns_value, ← a.value_half] at hvalue
  exact ⟨hfit, productDigits rfl a.toNat_lt a.toNat_lt hvalue⟩

theorem columnsFit : ColumnsFit a b where
  mul ds hds :=
    have h := mulColumns_small a.half_lt b.half_lt ds hds
    columnSums_value h.1 h.2
  mulCarries := (mulDigits_exact a b).1
  sqr ds hds :=
    have h := sqrColumns_small a.half_lt ds hds
    squareSums_value h.1 h.2.1 h.2.2
  sqrCarries := (sqrDigits_exact a).1

end

/-- **Multiplication modulo the prime of P-256.** The product, of residues or of any limbs, is reduced
completely, the square is that of the multiplication, nothing overflows, and the folds end without a
carry. -/
theorem p256_multiplication {fuel : Nat} (a b : U256) (hfuel : 9 ≤ fuel) :
    (∃ r, p256FpMul fuel a b = some r ∧ r.toNat < p256P.toNat ∧
      r.toNat = a.toNat * b.toNat % p256P.toNat) ∧
    p256FpSqr fuel a = p256FpMul fuel a a ∧ ColumnsFit a b ∧
    FoldsExactly fuel (mulDigits a b) ∧ FoldsExactly fuel (sqrDigits a) := by
  obtain ⟨hfolds, r, hrun, hr⟩ := p256FoldReturn_exact (mulDigits_exact a b).2 hfuel
  obtain ⟨hfolds', s, hsqr, hs⟩ := p256FoldReturn_exact (sqrDigits_exact a).2 hfuel
  obtain ⟨-, t, hmul, ht⟩ := p256FoldReturn_exact (mulDigits_exact a a).2 hfuel
  refine ⟨⟨r, hrun, ?_, hr⟩, ?_, columnsFit a b, hfolds, hfolds'⟩
  · rw [hr]
    exact Nat.mod_lt _ (by decide)
  · change p256FoldReturn fuel (sqrDigits a) = p256FoldReturn fuel (mulDigits a a)
    rw [hsqr, hmul, U256.toNat_injective (hs.trans ht.symm)]

/-- The largest residue, times itself. -/
theorem p256_multiplication_largest :
    ∃ r, p256FpMul 9 (u256Sub p256P ⟨1, 0, 0, 0⟩) (u256Sub p256P ⟨1, 0, 0, 0⟩) = some r ∧
      r.toNat = 1 :=
  have h := p256_multiplication (u256Sub p256P ⟨1, 0, 0, 0⟩) (u256Sub p256P ⟨1, 0, 0, 0⟩)
    (Nat.le_refl 9)
  have ⟨r, hrun, _, hr⟩ := h.1
  ⟨r, hrun, hr.trans (by decide)⟩

end StatelessGuest.Limb
