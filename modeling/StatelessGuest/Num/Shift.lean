import StatelessGuest.Num.DivMod

/-!
# Shifts and signed operations of 256-bit integers

A shift moves whole limbs first and then bits between neighbours. The signed operations read the
limbs as two's complement.

* `u256Shl`, `u256Shr`, `u256Sar`, `u256Signextend`, `u256Byte`, `u256Slt`, `u256Sdiv`, `u256Smod`.
* `toNat_u256Shl`, `toNat_u256Shr`: the shifts as a product and a quotient.
* `val_u256Sar`, `val_u256Signextend`: the masks repeat the sign bit.
* `signed_exact`: the operations on the integers that the limbs stand for.
-/

namespace StatelessGuest.Limb

/-! ## The code -/

/-- All bits are set. -/
def U256.ones : U256 := ⟨wordMax, wordMax, wordMax, wordMax⟩

def u256Not (a : U256) : U256 := a.flip

def u256And (a b : U256) : U256 := ⟨a.l0 &&& b.l0, a.l1 &&& b.l1, a.l2 &&& b.l2, a.l3 &&& b.l3⟩

def u256Or (a b : U256) : U256 := ⟨a.l0 ||| b.l0, a.l1 ||| b.l1, a.l2 ||| b.l2, a.l3 ||| b.l3⟩

/-- The limbs move up by `w` places. -/
def moveUp (a : U256) (w : Word) : U256 :=
  if w = 1 then ⟨0, a.l0, a.l1, a.l2⟩
  else if w = 2 then ⟨0, 0, a.l0, a.l1⟩
  else if w = 3 then ⟨0, 0, 0, a.l0⟩
  else a

/-- The limbs move down by `w` places. -/
def moveDown (a : U256) (w : Word) : U256 :=
  if w = 1 then ⟨a.l1, a.l2, a.l3, 0⟩
  else if w = 2 then ⟨a.l2, a.l3, 0, 0⟩
  else if w = 3 then ⟨a.l3, 0, 0, 0⟩
  else a

/-- A word that takes in the top bits of the one below. -/
def shlLimb (a b s : Word) : Word := (a <<< s.toNat) ||| (b >>> (64 - s).toNat)

/-- A word that takes in the bottom bits of the one above. -/
def shrLimb (a b s : Word) : Word := (a >>> s.toNat) ||| (b <<< (64 - s).toNat)

def u256Shl (a : U256) (n : Word) : U256 :=
  if 256 ≤ n then .zero
  else
    let m := moveUp a (n >>> 6)
    let s := n &&& 63
    if s ≠ 0 then
      ⟨m.l0 <<< s.toNat, shlLimb m.l1 m.l0 s, shlLimb m.l2 m.l1 s, shlLimb m.l3 m.l2 s⟩
    else m

def u256Shr (a : U256) (n : Word) : U256 :=
  if 256 ≤ n then .zero
  else
    let m := moveDown a (n >>> 6)
    let s := n &&& 63
    if s ≠ 0 then
      ⟨shrLimb m.l0 m.l1 s, shrLimb m.l1 m.l2 s, shrLimb m.l2 m.l3 s, m.l3 >>> s.toNat⟩
    else m

/-- The sign is filled in. -/
def u256Sar (a : U256) (n : Word) : U256 :=
  let neg := a.l3 >>> 63
  if 256 ≤ n then (if neg = 1 then .ones else .zero)
  else
    let r := u256Shr a n
    if neg = 1 then (if n ≠ 0 then u256Or r (u256Shl .ones (256 - n)) else r) else r

/-- The sign is extended from byte `b`, 0 being the lowest. -/
def u256Signextend (b : Word) (x : U256) : U256 :=
  if 31 ≤ b then x
  else
    let t := b * 8 + 7
    let bit := u256Bit x t
    let mask := u256Shl .ones (t + 1)
    if bit = 1 then u256Or x mask else u256And x (u256Not mask)

/-- Byte `i` of the big-endian bytes. -/
def u256Byte (i : Word) (x : U256) : Word :=
  if 32 ≤ i then 0
  else
    let pos := (31 - i) * 8
    u256Limb x (pos >>> 6) >>> (pos &&& 63).toNat &&& 255

/-- The integer as a word, all bits set when it does not fit. -/
def satWord (v : U256) : Word := if (v.l1 ||| v.l2 ||| v.l3) ≠ 0 then wordMax else v.l0

/-- The top limbs are compared as signed words. -/
def u256Slt (a b : U256) : Bool :=
  if a.l3 ≠ b.l3 then a.l3.slt b.l3
  else if a.l2 ≠ b.l2 then a.l2 < b.l2
  else if a.l1 ≠ b.l1 then a.l1 < b.l1
  else a.l0 < b.l0

def u256Abs (a : U256) : U256 := if a.l3 >>> 63 = 1 then u256Neg a else a

def u256Sdiv (fuel ws : Nat) (a b : U256) (c : Cells) : Except Exn (U256 × Cells) :=
  if b.IsZero then .ok (.zero, c)
  else do
    let s ← u256Div fuel ws (u256Abs a) (u256Abs b) c
    return (if (a.l3 ^^^ b.l3) >>> 63 = 1 then u256Neg s.1 else s.1, s.2)

/-- The sign of the remainder is that of the dividend. -/
def u256Smod (fuel ws : Nat) (a b : U256) (c : Cells) : Except Exn (U256 × Cells) :=
  if b.IsZero then .ok (.zero, c)
  else do
    let s ← u256Mod fuel ws (u256Abs a) (u256Abs b) c
    return (if a.l3 >>> 63 = 1 then u256Neg s.1 else s.1, s.2)

/-! ## Shifts -/

theorem toNat_and_63 (n : Word) : (n &&& 63).toNat = n.toNat % 64 := by
  rw [BitVec.toNat_and]
  exact Nat.and_two_pow_sub_one_eq_mod n.toNat 6

theorem toNat_64_sub {s : Word} (hs : s.toNat ≤ 64) : (64 - s).toNat = 64 - s.toNat :=
  BitVec.toNat_sub_of_le hs

section

variable {a b s : Word}

/-- The bits that leave a word at the top go to the next one. -/
theorem toNat_shlLimb (a b : Word) (hs : s.toNat < 64) (hpos : 0 < s.toNat) :
    (shlLimb a b s).toNat + 2 ^ 64 * (a.toNat / 2 ^ (64 - s.toNat)) =
      a.toNat * 2 ^ s.toNat + b.toNat / 2 ^ (64 - s.toNat) := by
  have hpow : 2 ^ (64 - s.toNat) * 2 ^ s.toNat = 2 ^ 64 := by
    rw [← Nat.pow_add, Nat.sub_add_cancel (by omega)]
  have hlow : b.toNat / 2 ^ (64 - s.toNat) < 2 ^ s.toNat := by
    rw [Nat.div_lt_iff_lt_mul (Nat.two_pow_pos _), Nat.mul_comm, hpow]
    exact b.isLt
  have hhigh : (a <<< s.toNat).toNat = 2 ^ s.toNat * (a.toNat % 2 ^ (64 - s.toNat)) := by
    rw [BitVec.toNat_shiftLeft, Nat.shiftLeft_eq, ← hpow, Nat.mul_mod_mul_right, Nat.mul_comm]
  unfold shlLimb
  rw [BitVec.toNat_or, hhigh, toNat_64_sub (Nat.le_of_lt hs), toNat_shiftRight,
    ← Nat.two_pow_add_eq_or_of_lt hlow]
  have hsplit := Nat.mod_add_div a.toNat (2 ^ (64 - s.toNat))
  rw [← hpow]
  linear_combination 2 ^ s.toNat * hsplit

theorem toNat_shl_lowest (a : Word) (hs : s.toNat < 64) (hpos : 0 < s.toNat) :
    (a <<< s.toNat).toNat + 2 ^ 64 * (a.toNat / 2 ^ (64 - s.toNat)) = a.toNat * 2 ^ s.toNat := by
  have h := toNat_shlLimb a 0 hs hpos
  unfold shlLimb at h
  rwa [show ((0 : Word) >>> (64 - s).toNat) = 0#64 from BitVec.zero_ushiftRight, BitVec.or_zero,
    show (0 : Word).toNat = 0 from rfl, Nat.zero_div, Nat.add_zero] at h

/-- The bits that leave a word at the bottom go to the one below. -/
theorem toNat_shrLimb (a b : Word) (hs : s.toNat < 64) (hpos : 0 < s.toNat) :
    (shrLimb a b s).toNat * 2 ^ s.toNat + a.toNat % 2 ^ s.toNat =
      a.toNat + 2 ^ 64 * (b.toNat % 2 ^ s.toNat) := by
  have hpow : 2 ^ (64 - s.toNat) * 2 ^ s.toNat = 2 ^ 64 := by
    rw [← Nat.pow_add, Nat.sub_add_cancel (by omega)]
  have hlow : (a >>> s.toNat).toNat < 2 ^ (64 - s.toNat) := by
    rw [toNat_shiftRight, Nat.div_lt_iff_lt_mul (Nat.two_pow_pos _), hpow]
    exact a.isLt
  have hhigh : (b <<< (64 - s).toNat).toNat =
      2 ^ (64 - s.toNat) * (b.toNat % 2 ^ s.toNat) := by
    rw [toNat_64_sub (Nat.le_of_lt hs), BitVec.toNat_shiftLeft, Nat.shiftLeft_eq, ← hpow,
      Nat.mul_comm, Nat.mul_mod_mul_left]
  unfold shrLimb
  rw [BitVec.or_comm, BitVec.toNat_or, hhigh, ← Nat.two_pow_add_eq_or_of_lt hlow, toNat_shiftRight]
  have hsplit := Nat.mod_add_div a.toNat (2 ^ s.toNat)
  rw [← hpow]
  linear_combination hsplit

theorem toNat_shr_highest (a s : Word) :
    (a >>> s.toNat).toNat * 2 ^ s.toNat + a.toNat % 2 ^ s.toNat = a.toNat := by
  rw [toNat_shiftRight, Nat.mul_comm, Nat.div_add_mod]

end

/-- A word below four is one of four. -/
theorem word_lt_four {w : Word} (hw : w.toNat < 4) : w = 0 ∨ w = 1 ∨ w = 2 ∨ w = 3 := by
  rcases (by omega : w.toNat = 0 ∨ w.toNat = 1 ∨ w.toNat = 2 ∨ w.toNat = 3) with h | h | h | h
  · exact .inl (BitVec.eq_of_toNat_eq h)
  · exact .inr (.inl (BitVec.eq_of_toNat_eq h))
  · exact .inr (.inr (.inl (BitVec.eq_of_toNat_eq h)))
  · exact .inr (.inr (.inr (BitVec.eq_of_toNat_eq h)))

theorem toNat_moveUp (a : U256) {w : Word} (hw : w.toNat < 4) :
    (moveUp a w).toNat = a.toNat * 2 ^ (64 * w.toNat) % 2 ^ 256 := by
  have h0 := a.l0.isLt
  have h1 := a.l1.isLt
  have h2 := a.l2.isLt
  have h3 := a.l3.isLt
  unfold U256.toNat
  rcases word_lt_four hw with rfl | rfl | rfl | rfl
  · change _ = _ * 1 % _
    change a.l0.toNat + _ * a.l1.toNat + _ * a.l2.toNat + _ * a.l3.toNat = _
    omega
  · change _ = _ * 2 ^ 64 % _
    change 0 + _ * a.l0.toNat + _ * a.l1.toNat + _ * a.l2.toNat = _
    omega
  · change _ = _ * 2 ^ 128 % _
    change 0 + _ * 0 + _ * a.l0.toNat + _ * a.l1.toNat = _
    omega
  · change _ = _ * 2 ^ 192 % _
    change 0 + _ * 0 + _ * 0 + _ * a.l0.toNat = _
    omega

theorem toNat_moveDown (a : U256) {w : Word} (hw : w.toNat < 4) :
    (moveDown a w).toNat = a.toNat / 2 ^ (64 * w.toNat) := by
  have h0 := a.l0.isLt
  have h1 := a.l1.isLt
  have h2 := a.l2.isLt
  have h3 := a.l3.isLt
  unfold U256.toNat
  rcases word_lt_four hw with rfl | rfl | rfl | rfl
  · change _ = _ / 1
    change a.l0.toNat + _ * a.l1.toNat + _ * a.l2.toNat + _ * a.l3.toNat = _
    omega
  · change _ = _ / 2 ^ 64
    change a.l1.toNat + _ * a.l2.toNat + _ * a.l3.toNat + _ * 0 = _
    omega
  · change _ = _ / 2 ^ 128
    change a.l2.toNat + _ * a.l3.toNat + _ * 0 + _ * 0 = _
    omega
  · change _ = _ / 2 ^ 192
    change a.l3.toNat + _ * 0 + _ * 0 + _ * 0 = _
    omega

theorem toNat_shiftRight_6 (n : Word) : (n >>> 6).toNat = n.toNat / 64 := toNat_shiftRight n 6

theorem not_256_le {n : Word} (hn : n.toNat < 256) : ¬(256 : Word) ≤ n := by
  rw [BitVec.le_def]
  exact Nat.not_le.mpr hn

theorem le_256 {n : Word} (hn : 256 ≤ n.toNat) : (256 : Word) ≤ n := BitVec.le_def.mpr hn

theorem and_63_ne_zero {n : Word} : n &&& 63 ≠ 0 ↔ 0 < n.toNat % 64 := by
  rw [← toNat_and_63, Nat.pos_iff_ne_zero]
  exact not_congr ⟨fun h => by rw [h]; rfl, fun h => BitVec.eq_of_toNat_eq h⟩

theorem toNat_u256Shl_of_lt (a : U256) {n : Word} (hn : n.toNat < 256) :
    (u256Shl a n).toNat = a.toNat * 2 ^ n.toNat % 2 ^ 256 := by
  have hs := toNat_and_63 n
  have hw := toNat_shiftRight_6 n
  have hmove := toNat_moveUp a (w := n >>> 6) (by omega)
  have hpow : 2 ^ n.toNat = 2 ^ (64 * (n >>> 6).toNat) * 2 ^ (n &&& 63).toNat := by
    rw [← Nat.pow_add, hs, hw, Nat.div_add_mod]
  rw [u256Shl, if_neg (not_256_le hn), hpow, ← Nat.mul_assoc, ← Nat.mod_mul_mod, ← hmove]
  dsimp only
  have hmlt := (moveUp a (n >>> 6)).toNat_lt
  generalize moveUp a (n >>> 6) = m at *
  split
  · next hne =>
    rw [and_63_ne_zero, ← hs] at hne
    have hlt : (n &&& 63).toNat < 64 := by omega
    generalize n &&& 63 = s at *
    have h0 := toNat_shl_lowest m.l0 hlt hne
    have h1 := toNat_shlLimb m.l1 m.l0 hlt hne
    have h2 := toNat_shlLimb m.l2 m.l1 hlt hne
    have h3 := toNat_shlLimb m.l3 m.l2 hlt hne
    refine toNat_eq_mod (k := m.l3.toNat / 2 ^ (64 - s.toNat)) ?_
    unfold U256.toNat
    dsimp only
    symm
    linear_combination h0 + 2 ^ 64 * h1 + 2 ^ 128 * h2 + 2 ^ 192 * h3
  · next hzero =>
    rw [not_not.mp hzero, show (0 : Word).toNat = 0 from rfl, Nat.pow_zero, Nat.mul_one,
      Nat.mod_eq_of_lt hmlt]

theorem toNat_u256Shr_of_lt (a : U256) {n : Word} (hn : n.toNat < 256) :
    (u256Shr a n).toNat = a.toNat / 2 ^ n.toNat := by
  have hs := toNat_and_63 n
  have hw := toNat_shiftRight_6 n
  have hmove := toNat_moveDown a (w := n >>> 6) (by omega)
  have hpow : 2 ^ n.toNat = 2 ^ (64 * (n >>> 6).toNat) * 2 ^ (n &&& 63).toNat := by
    rw [← Nat.pow_add, hs, hw, Nat.div_add_mod]
  rw [u256Shr, if_neg (not_256_le hn), hpow, ← Nat.div_div_eq_div_mul, ← hmove]
  dsimp only
  generalize moveDown a (n >>> 6) = m at *
  split
  · next hne =>
    rw [and_63_ne_zero, ← hs] at hne
    have hlt : (n &&& 63).toNat < 64 := by omega
    generalize n &&& 63 = s at *
    have h0 := toNat_shrLimb m.l0 m.l1 hlt hne
    have h1 := toNat_shrLimb m.l1 m.l2 hlt hne
    have h2 := toNat_shrLimb m.l2 m.l3 hlt hne
    have h3 := toNat_shr_highest m.l3 s
    refine (Nat.div_eq_of_lt_le ?_ ?_).symm
    · unfold U256.toNat
      dsimp only
      refine Nat.le.intro (k := m.l0.toNat % 2 ^ s.toNat) ?_
      linear_combination h0 + 2 ^ 64 * h1 + 2 ^ 128 * h2 + 2 ^ 192 * h3
    · have hmod := Nat.mod_lt m.l0.toNat (Nat.two_pow_pos s.toNat)
      rw [Nat.succ_mul]
      refine Nat.lt_of_le_of_lt (Nat.le_of_eq ?_) (Nat.add_lt_add_left hmod _)
      unfold U256.toNat
      dsimp only
      symm
      linear_combination h0 + 2 ^ 64 * h1 + 2 ^ 128 * h2 + 2 ^ 192 * h3
  · next hzero =>
    rw [not_not.mp hzero, show (0 : Word).toNat = 0 from rfl, Nat.pow_zero, Nat.div_one]

/-- From 256 on all bits are shifted out. -/
theorem toNat_u256Shl (a : U256) (n : Word) :
    (u256Shl a n).toNat = a.toNat * 2 ^ n.toNat % 2 ^ 256 := by
  by_cases hn : n.toNat < 256
  · exact toNat_u256Shl_of_lt a hn
  · obtain ⟨k, hk⟩ := Nat.exists_eq_add_of_le (Nat.not_lt.mp hn)
    rw [u256Shl, if_pos (le_256 (Nat.not_lt.mp hn)), hk, Nat.pow_add, Nat.mul_left_comm,
      Nat.mul_mod_right]
    rfl

theorem toNat_u256Shr (a : U256) (n : Word) : (u256Shr a n).toNat = a.toNat / 2 ^ n.toNat := by
  by_cases hn : n.toNat < 256
  · exact toNat_u256Shr_of_lt a hn
  · have hle := Nat.pow_le_pow_right (n := 2) (by decide) (Nat.not_lt.mp hn)
    rw [u256Shr, if_pos (le_256 (Nat.not_lt.mp hn)),
      Nat.div_eq_of_lt (Nat.lt_of_lt_of_le a.toNat_lt hle)]
    rfl

/-! ## The integers of the interpreter -/

theorem val_u256Shl (a : U256) (n : Word) : (u256Shl a n).val = a.val <<< n.toNat := by
  rw [U256.val_eq_iff, toNat_u256Shl, BitVec.toNat_shiftLeft, Nat.shiftLeft_eq, U256.toNat_val]

theorem val_u256Shr (a : U256) (n : Word) : (u256Shr a n).val = a.val >>> n.toNat := by
  rw [U256.val_eq_iff, toNat_u256Shr, BitVec.toNat_ushiftRight, Nat.shiftRight_eq_div_pow,
    U256.toNat_val]

theorem val_u256Or (a b : U256) : (u256Or a b).val = a.val ||| b.val := by
  refine BitVec.eq_of_getLsbD_eq fun t _ => ?_
  rw [BitVec.getLsbD_or, U256.getLsbD_val, U256.getLsbD_val, U256.getLsbD_val, ← BitVec.getLsbD_or]
  match t / 64 with
  | 0 => rfl
  | 1 => rfl
  | 2 => rfl
  | 3 => rfl
  | _ + 4 => simp [U256.limb]

theorem val_u256And (a b : U256) : (u256And a b).val = a.val &&& b.val := by
  refine BitVec.eq_of_getLsbD_eq fun t _ => ?_
  rw [BitVec.getLsbD_and, U256.getLsbD_val, U256.getLsbD_val, U256.getLsbD_val, ← BitVec.getLsbD_and]
  match t / 64 with
  | 0 => rfl
  | 1 => rfl
  | 2 => rfl
  | 3 => rfl
  | _ + 4 => simp [U256.limb]

theorem val_u256Not (a : U256) : (u256Not a).val = ~~~a.val := by
  have hflip := a.toNat_flip
  unfold u256Not
  rw [U256.val_eq_iff, BitVec.toNat_not, U256.toNat_val]
  omega

theorem val_u256Neg (a : U256) : (u256Neg a).val = -a.val := by
  rw [U256.val_eq_iff, toNat_u256Neg, BitVec.toNat_neg, U256.toNat_val]

theorem val_ones : U256.ones.val = BitVec.allOnes 256 := rfl

theorem val_zero : U256.zero.val = 0 := rfl

/-- The sign of the two's complement reading is the top bit of the top limb. -/
theorem sign_iff (a : U256) : a.l3 >>> 63 = 1 ↔ a.val.msb = true := by
  have h0 := a.l0.isLt
  have h1 := a.l1.isLt
  have h2 := a.l2.isLt
  have h3 := a.l3.isLt
  rw [BitVec.msb_eq_true_iff_two_mul_ge, U256.toNat_val, ← BitVec.toNat_inj, toNat_shiftRight,
    show (1 : Word).toNat = 1 from rfl]
  unfold U256.toNat
  omega

/-! ## Masks -/

theorem val_u256Sar (a : U256) (n : Word) : (u256Sar a n).val = a.val.sshiftRight n.toNat := by
  unfold u256Sar
  dsimp only
  by_cases hneg : a.l3 >>> 63 = 1
  · have hmsb := (sign_iff a).mp hneg
    split
    · next hle =>
      rw [val_ones]
      refine BitVec.eq_of_getLsbD_eq fun t ht => ?_
      have hge : 256 ≤ n.toNat := BitVec.le_def.mp hle
      rw [BitVec.getLsbD_allOnes, BitVec.getLsbD_sshiftRight, if_neg (by omega), hmsb]
      simp [ht]
    · next hlt =>
      have hn : n.toNat < 256 := Nat.not_le.mp fun h => hlt (le_256 h)
      split
      · next hne =>
        have hpos : 0 < n.toNat := Nat.pos_of_ne_zero fun h => hne (BitVec.eq_of_toNat_eq h)
        have hsub : (256 - n).toNat = 256 - n.toNat := BitVec.toNat_sub_of_le (Nat.le_of_lt hn)
        rw [val_u256Or, val_u256Shr, val_u256Shl, val_ones, hsub]
        refine BitVec.eq_of_getLsbD_eq fun t ht => ?_
        rw [BitVec.getLsbD_or, BitVec.getLsbD_ushiftRight, BitVec.getLsbD_shiftLeft,
          BitVec.getLsbD_allOnes, BitVec.getLsbD_sshiftRight, hmsb]
        -- below `256 - n` the bits of the integer, the mask above
        by_cases hlow : n.toNat + t < 256
        · rw [if_pos hlow]
          simp [show t < 256 - n.toNat by omega, ht]
        · rw [if_neg hlow, BitVec.getLsbD_of_ge _ _ (Nat.not_lt.mp hlow)]
          simp [show ¬t < 256 - n.toNat by omega, show t - (256 - n.toNat) < 256 by omega,
            show ¬256 ≤ t by omega, ht]
      · next hzero =>
        rw [val_u256Shr, not_not.mp hzero, show (0 : Word).toNat = 0 from rfl,
          BitVec.sshiftRight_zero]
        exact BitVec.ushiftRight_zero _
  · have hmsb : a.val.msb = false := by
      rw [← Bool.not_eq_true]
      exact fun h => hneg ((sign_iff a).mpr h)
    rw [if_neg hneg, if_neg hneg, BitVec.sshiftRight_eq_of_msb_false hmsb]
    split
    · next hle =>
      have hge : 256 ≤ n.toNat := BitVec.le_def.mp hle
      refine BitVec.eq_of_getLsbD_eq fun t _ => ?_
      rw [BitVec.getLsbD_ushiftRight, BitVec.getLsbD_of_ge a.val _ (by omega), val_zero]
      exact BitVec.getLsbD_zero
    · exact val_u256Shr a n

/-- From byte 30 on down the mask covers the bits above the sign bit. -/
theorem val_u256Signextend (x : U256) {b : Word} (hb : b.toNat < 31) :
    (u256Signextend b x).val = (x.val.setWidth (8 * (b.toNat + 1))).signExtend 256 := by
  have hnot : ¬(31 : Word) ≤ b := by
    rw [BitVec.le_def]
    exact Nat.not_le.mpr hb
  have ht : (b * 8 + 7).toNat = 8 * b.toNat + 7 := by
    rw [BitVec.toNat_add, BitVec.toNat_mul, show (8 : Word).toNat = 8 from rfl,
      show (7 : Word).toNat = 7 from rfl, Nat.mod_eq_of_lt (a := b.toNat * 8) (by omega),
      Nat.mod_eq_of_lt (by omega), Nat.mul_comm]
  have ht' : (b * 8 + 7 + 1).toNat = 8 * (b.toNat + 1) := by
    rw [BitVec.toNat_add, ht, show (1 : Word).toNat = 1 from rfl, Nat.mod_eq_of_lt (by omega)]
    omega
  have hsign : (x.val.setWidth (8 * (b.toNat + 1))).msb = x.val.getLsbD (8 * b.toNat + 7) := by
    rw [BitVec.msb_setWidth, show 8 * (b.toNat + 1) - 1 = 8 * b.toNat + 7 by omega]
    simp
  have hbit : u256Bit x (b * 8 + 7) = 1 ↔ x.val.getLsbD (8 * b.toNat + 7) = true := by
    rw [u256Bit_eq_one x (by omega), ht, BitVec.getLsbD, U256.toNat_val]
  rw [u256Signextend, if_neg hnot]
  dsimp only
  refine BitVec.eq_of_getLsbD_eq fun t hlt => ?_
  rw [BitVec.getLsbD_signExtend, hsign, BitVec.getLsbD_setWidth]
  by_cases hone : u256Bit x (b * 8 + 7) = 1
  · rw [if_pos hone, val_u256Or, val_u256Shl, val_ones, ht', hbit.mp hone, BitVec.getLsbD_or,
      BitVec.getLsbD_shiftLeft, BitVec.getLsbD_allOnes]
    by_cases hlow : t < 8 * (b.toNat + 1)
    · simp [hlow, hlt]
    · simp [hlow, hlt]
      omega
  · have hzero : x.val.getLsbD (8 * b.toNat + 7) = false := by
      rw [← Bool.not_eq_true]
      exact fun h => hone (hbit.mpr h)
    rw [if_neg hone, val_u256And, val_u256Not, val_u256Shl, val_ones, ht', hzero,
      BitVec.getLsbD_and, BitVec.getLsbD_not, BitVec.getLsbD_shiftLeft, BitVec.getLsbD_allOnes]
    by_cases hlow : t < 8 * (b.toNat + 1)
    · simp [hlow, hlt]
    · simp [hlow, hlt]
      omega

/-- A byte lies within a limb. -/
theorem toNat_limb_byte (x : U256) {pos : Nat} (hpos : pos % 8 = 0) :
    ((x.limb (pos / 64) >>> (pos % 64)) &&& 255).toNat = x.toNat / 2 ^ pos % 2 ^ 8 := by
  rw [BitVec.toNat_and, toNat_shiftRight, show (255 : Word).toNat = 2 ^ 8 - 1 from rfl,
    Nat.and_two_pow_sub_one_eq_mod]
  refine Nat.eq_of_testBit_eq fun j => ?_
  rw [Nat.testBit_mod_two_pow, Nat.testBit_mod_two_pow, Nat.testBit_div_two_pow,
    Nat.testBit_div_two_pow]
  by_cases hj : j < 8
  · rw [U256.testBit_toNat, show (j + pos) / 64 = pos / 64 by omega,
      show (j + pos) % 64 = j + pos % 64 by omega]
    rfl
  · simp [hj]

theorem toNat_u256Byte (x : U256) {i : Word} (hi : i.toNat < 32) :
    (u256Byte i x).toNat = x.toNat / 2 ^ (8 * (31 - i.toNat)) % 2 ^ 8 := by
  have hnot : ¬(32 : Word) ≤ i := by
    rw [BitVec.le_def]
    exact Nat.not_le.mpr hi
  have hsub : (31 - i).toNat = 31 - i.toNat := BitVec.toNat_sub_of_le (Nat.le_of_lt_succ hi)
  have hpos : ((31 - i) * 8).toNat = 8 * (31 - i.toNat) := by
    rw [BitVec.toNat_mul, hsub, show (8 : Word).toNat = 8 from rfl, Nat.mod_eq_of_lt (by omega),
      Nat.mul_comm]
  rw [u256Byte, if_neg hnot]
  dsimp only
  generalize (31 - i) * 8 = pos at *
  have hshift : pos >>> 6 = BitVec.ofNat 64 (pos.toNat / 64) := by
    refine BitVec.eq_of_toNat_eq ?_
    rw [toNat_shiftRight_6, BitVec.toNat_ofNat, Nat.mod_eq_of_lt (by omega)]
  rw [hshift, u256Limb_eq x (by omega), toNat_and_63, ← hpos]
  exact toNat_limb_byte x (by omega)

/-! ## Signed operations -/

theorem toInt_val (a : U256) :
    a.val.toInt = if 2 * a.toNat < 2 ^ 256 then (a.toNat : Int) else (a.toNat : Int) - 2 ^ 256 := by
  rw [BitVec.toInt_eq_toNat_cond, U256.toNat_val]
  rfl

/-- The top limb with its sign, and the others. -/
theorem toInt_limbs (a : U256) :
    a.val.toInt = 2 ^ 192 * a.l3.toInt + (a.l0.toNat + 2 ^ 64 * a.l1.toNat + 2 ^ 128 * a.l2.toNat) := by
  have h0 := a.l0.isLt
  have h1 := a.l1.isLt
  have h2 := a.l2.isLt
  have h3 := a.l3.isLt
  rw [toInt_val, BitVec.toInt_eq_toNat_cond]
  unfold U256.toNat
  split <;> split <;> omega

theorem u256Slt_iff (a b : U256) : u256Slt a b = true ↔ a.val.toInt < b.val.toInt := by
  have hne : ∀ x y : Word, x ≠ y → x.toNat ≠ y.toNat :=
    fun x y h h' => h (BitVec.eq_of_toNat_eq h')
  have hne' : ∀ x y : Word, x ≠ y → x.toInt ≠ y.toInt := fun x y h h' => h (BitVec.eq_of_toInt_eq h')
  have ha0 := a.l0.isLt
  have ha1 := a.l1.isLt
  have ha2 := a.l2.isLt
  have hb0 := b.l0.isLt
  have hb1 := b.l1.isLt
  have hb2 := b.l2.isLt
  rw [toInt_limbs, toInt_limbs]
  unfold u256Slt
  split
  · next h =>
    have := hne' _ _ h
    rw [BitVec.slt_iff_toInt_lt]
    omega
  · next h3 =>
    rw [not_not.mp h3]
    split
    · next h =>
      have := hne _ _ h
      rw [decide_eq_true_iff, BitVec.lt_def]
      omega
    · next h2 =>
      rw [not_not.mp h2]
      split
      · next h =>
        have := hne _ _ h
        rw [decide_eq_true_iff, BitVec.lt_def]
        omega
      · next h1 =>
        rw [not_not.mp h1, decide_eq_true_iff, BitVec.lt_def]
        omega

theorem sign_iff_neg (a : U256) : a.l3 >>> 63 = 1 ↔ a.val.toInt < 0 := by
  have hlt := a.toNat_lt
  rw [sign_iff, BitVec.msb_eq_true_iff_two_mul_ge, U256.toNat_val, toInt_val]
  split <;> omega

theorem sign_xor_iff (a b : U256) :
    (a.l3 ^^^ b.l3) >>> 63 = 1 ↔ ¬(a.val.toInt < 0 ↔ b.val.toInt < 0) := by
  rw [← sign_iff_neg, ← sign_iff_neg]
  have hbit : ∀ w : Word, w >>> 63 = 1 ↔ w.getLsbD 63 = true := fun w => by
    rw [← shiftRight_and_one_eq_one, ← BitVec.toNat_inj, ← BitVec.toNat_inj, toNat_bit,
      toNat_shiftRight]
    have := w.isLt
    omega
  rw [hbit, hbit, hbit, BitVec.getLsbD_xor]
  cases a.l3.getLsbD 63 <;> cases b.l3.getLsbD 63 <;> decide

theorem toNat_u256Abs (a : U256) : (u256Abs a).toNat = a.val.toInt.natAbs := by
  have hlt := a.toNat_lt
  have hsign := sign_iff_neg a
  have hint := toInt_val a
  unfold u256Abs
  split
  · next h =>
    have hneg := hsign.mp h
    rw [toNat_u256Neg]
    split at hint <;> omega
  · next h =>
    have hnonneg : ¬a.val.toInt < 0 := fun hneg => h (hsign.mpr hneg)
    split at hint <;> omega

/-- A number with a sign. -/
theorem val_eq_ofInt {a : U256} {n : Nat} (h : a.toNat = n) : a.val = BitVec.ofInt 256 n := by
  rw [BitVec.ofInt_natCast, ← h]
  rfl

theorem val_neg_eq_ofInt {a : U256} {n : Nat} (h : a.toNat = n) :
    (u256Neg a).val = BitVec.ofInt 256 (-n) := by
  rw [val_u256Neg, BitVec.ofInt_neg, val_eq_ofInt h]

/-- The quotient of the absolute values with the sign of the quotient. -/
theorem tdiv_eq (x y : Int) :
    x.tdiv y = if (x < 0 ↔ y < 0) then ((x.natAbs / y.natAbs : Nat) : Int)
      else -((x.natAbs / y.natAbs : Nat) : Int) := by
  rcases Int.natAbs_eq x with hx | hx <;> rcases Int.natAbs_eq y with hy | hy
  all_goals
    generalize x.natAbs = m at *
    generalize y.natAbs = n at *
    subst hx hy
  · rw [if_pos (by omega), Int.ofNat_tdiv]
  · rw [Int.tdiv_neg, ← Int.ofNat_tdiv]
    by_cases hn : n = 0
    · subst hn
      simp
    · rw [if_neg (by omega)]
  · rw [Int.neg_tdiv, ← Int.ofNat_tdiv]
    by_cases hm : m = 0
    · subst hm
      simp
    · rw [if_neg (by omega)]
  · rw [Int.tdiv_neg, Int.neg_tdiv, Int.neg_neg, ← Int.ofNat_tdiv]
    by_cases hm : m = 0
    · subst hm
      simp
    · by_cases hn : n = 0
      · subst hn
        simp
      · rw [if_pos (by omega)]

/-- The remainder of the absolute values with the sign of the dividend. -/
theorem tmod_eq (x y : Int) :
    x.tmod y = if x < 0 then -((x.natAbs % y.natAbs : Nat) : Int)
      else ((x.natAbs % y.natAbs : Nat) : Int) := by
  have habs : x.tmod y = x.tmod y.natAbs := by
    rcases Int.natAbs_eq y with hy | hy
    · rw [← hy]
    · rw [hy, Int.tmod_neg, Int.natAbs_neg, Int.natAbs_natCast]
  rw [habs]
  split
  · next hneg =>
    have hx : x = -(x.natAbs : Int) := by omega
    rw [hx, Int.neg_tmod, Int.natAbs_neg, Int.natAbs_natCast, Int.ofNat_tmod]
  · next hnonneg =>
    have hx : x = (x.natAbs : Int) := by omega
    rw [hx, Int.natAbs_natCast, Int.ofNat_tmod]

section

variable {fuel : Nat}

theorem isZero_iff_toInt (b : U256) : b.IsZero ↔ b.val.toInt = 0 := by
  have hlt := b.toNat_lt
  rw [U256.isZero_iff, toInt_val]
  split <;> omega

theorem u256Sdiv_value (a b : U256) (ws : Nat) (c : Cells) (hfuel : 3 ≤ fuel) :
    ∃ s, u256Sdiv fuel ws a b c = .ok s ∧
      s.1.val = BitVec.ofInt 256 (a.val.toInt.tdiv b.val.toInt) ∧ OffScratch ws c s.2 := by
  unfold u256Sdiv
  by_cases hb : b.IsZero
  · rw [if_pos hb]
    rw [isZero_iff_toInt] at hb
    rw [hb, Int.tdiv_zero]
    exact ⟨_, rfl, rfl, OffScratch.refl ws c⟩
  rw [if_neg hb]
  obtain ⟨s, hrun, hq, hoff⟩ := u256Div_value (u256Abs a) (u256Abs b) ws c hfuel
  rw [toNat_u256Abs, toNat_u256Abs] at hq
  rw [hrun]
  refine ⟨_, rfl, ?_, hoff⟩
  dsimp only
  rw [tdiv_eq]
  by_cases hsign : (a.l3 ^^^ b.l3) >>> 63 = 1
  · rw [if_pos hsign, if_neg ((sign_xor_iff a b).mp hsign), val_neg_eq_ofInt hq]
  · rw [if_neg hsign, if_pos (not_not.mp fun h => hsign ((sign_xor_iff a b).mpr h)),
      val_eq_ofInt hq]

theorem u256Smod_value (a b : U256) (ws : Nat) (c : Cells) (hfuel : 3 ≤ fuel) :
    ∃ s, u256Smod fuel ws a b c = .ok s ∧
      s.1.val = BitVec.ofInt 256 (if b.toNat = 0 then 0 else a.val.toInt.tmod b.val.toInt) ∧
      OffScratch ws c s.2 := by
  unfold u256Smod
  by_cases hb : b.IsZero
  · rw [if_pos hb]
    rw [U256.isZero_iff] at hb
    rw [if_pos hb]
    exact ⟨_, rfl, rfl, OffScratch.refl ws c⟩
  rw [if_neg hb]
  have hne : (u256Abs b).toNat ≠ 0 := by
    rw [toNat_u256Abs, Int.natAbs_ne_zero]
    exact fun h => hb ((isZero_iff_toInt b).mpr h)
  rw [U256.isZero_iff] at hb
  obtain ⟨s, hrun, hr, hoff⟩ := u256Mod_value (u256Abs a) (u256Abs b) ws c hfuel
  rw [if_neg hne, toNat_u256Abs, toNat_u256Abs] at hr
  rw [if_neg hb, hrun]
  refine ⟨_, rfl, ?_, hoff⟩
  dsimp only
  rw [tmod_eq]
  by_cases hsign : a.l3 >>> 63 = 1
  · rw [if_pos hsign, if_pos ((sign_iff_neg a).mp hsign), val_neg_eq_ofInt hr]
  · rw [if_neg hsign, if_neg fun h => hsign ((sign_iff_neg a).mpr h), val_eq_ofInt hr]

end

/-! ## Shifts by integers -/

/-- A word that stands for an index: both are equal, or no bit has either of them. -/
def Agrees (n : Word) (k : Nat) : Prop := n.toNat = k ∨ 256 ≤ n.toNat ∧ 256 ≤ k

theorem agrees_satWord (v : U256) : Agrees (satWord v) v.toNat := by
  unfold satWord
  split
  · next hne =>
    refine .inr ⟨by decide, ?_⟩
    by_contra hlt
    have hzero : ∀ w : Word, w.toNat = 0 → w = 0#64 := fun w h => BitVec.eq_of_toNat_eq h
    unfold U256.toNat at hlt
    rw [hzero v.l1 (by omega), hzero v.l2 (by omega), hzero v.l3 (by omega)] at hne
    exact hne rfl
  · next heq =>
    have hor := not_not.mp heq
    rw [show (0 : Word) = 0#64 from rfl] at hor
    simp only [BitVec.or_eq_zero_iff] at hor
    obtain ⟨⟨h1, h2⟩, h3⟩ := hor
    unfold U256.toNat
    rw [h1, h2, h3]
    exact .inl rfl

/-- What the operations with an index compute: a product and floor quotients by powers of two, the
integer of the lower bytes with its sign, and a byte of the big-endian encoding. -/
structure ShiftsExact (n : Word) (k : Nat) : Prop where
  shl : ∀ a, (u256Shl a n).toNat = a.toNat * 2 ^ k % 2 ^ 256
  shr : ∀ a, (u256Shr a n).toNat = a.toNat / 2 ^ k
  sar : ∀ a, (u256Sar a n).val.toInt = a.val.toInt / 2 ^ k
  signextend : ∀ x, (u256Signextend n x).val.toInt =
    if k < 31 then (x.val.setWidth (8 * (k + 1))).toInt else x.val.toInt
  byte : ∀ x, (u256Byte n x).toNat = if k < 32 then x.toNat / 2 ^ (8 * (31 - k)) % 2 ^ 8 else 0

theorem mul_pow_mod_of_ge (x : Nat) {k : Nat} (hk : 256 ≤ k) : x * 2 ^ k % 2 ^ 256 = 0 := by
  obtain ⟨j, rfl⟩ := Nat.exists_eq_add_of_le hk
  rw [Nat.pow_add, Nat.mul_left_comm, Nat.mul_mod_right]

theorem div_pow_of_ge (a : U256) {k : Nat} (hk : 256 ≤ k) : a.toNat / 2 ^ k = 0 :=
  Nat.div_eq_of_lt (Nat.lt_of_lt_of_le a.toNat_lt (Nat.pow_le_pow_right (by decide) hk))

/-- The floor of a quotient by a large power is the sign. -/
theorem toInt_div_pow_of_ge (a : U256) {k : Nat} (hk : 256 ≤ k) :
    a.val.toInt / 2 ^ k = if a.val.toInt < 0 then -1 else 0 := by
  have hlt := a.toNat_lt
  have hle : (2 : Int) ^ 256 ≤ 2 ^ k := by exact_mod_cast Nat.pow_le_pow_right (by decide) hk
  have hint := toInt_val a
  generalize (2 : Int) ^ k = e at *
  split
  · next hneg =>
    rw [Int.ediv_eq_iff_of_pos (by omega)]
    split at hint <;> omega
  · next hnonneg =>
    refine Int.ediv_eq_zero_of_lt (by omega) ?_
    split at hint <;> omega

theorem shiftsExact {n : Word} {k : Nat} (h : Agrees n k) : ShiftsExact n k := by
  rcases h with rfl | ⟨hn, hk⟩
  · refine ⟨fun a => toNat_u256Shl a n, fun a => toNat_u256Shr a n, fun a => ?_, fun x => ?_,
      fun x => ?_⟩
    · rw [val_u256Sar, BitVec.toInt_sshiftRight, Int.shiftRight_eq_div_pow]
      rfl
    · split
      · next hlt => rw [val_u256Signextend x hlt, BitVec.toInt_signExtend_of_le (by omega)]
      · next hge =>
        rw [u256Signextend, if_pos (BitVec.le_def.mpr (Nat.not_lt.mp hge))]
    · split
      · next hlt => exact toNat_u256Byte x hlt
      · next hge =>
        rw [u256Byte, if_pos (BitVec.le_def.mpr (Nat.not_lt.mp hge))]
        rfl
  · refine ⟨fun a => ?_, fun a => ?_, fun a => ?_, fun x => ?_, fun x => ?_⟩
    · rw [toNat_u256Shl, mul_pow_mod_of_ge _ hn, mul_pow_mod_of_ge _ hk]
    · rw [toNat_u256Shr, div_pow_of_ge a hn, div_pow_of_ge a hk]
    · rw [val_u256Sar, BitVec.toInt_sshiftRight, Int.shiftRight_eq_div_pow,
        toInt_div_pow_of_ge a hk]
      exact toInt_div_pow_of_ge a hn
    · have hle : (31 : Word) ≤ n := BitVec.le_def.mpr (Nat.le_trans (by decide) hn)
      rw [if_neg (by omega), u256Signextend, if_pos hle]
    · have hle : (32 : Word) ≤ n := BitVec.le_def.mpr (Nat.le_trans (by decide) hn)
      rw [if_neg (by omega), u256Byte, if_pos hle]
      rfl

/-- The signed operations, truncating towards zero, and the shifts, by words and by integers that
are saturated to words. -/
theorem signed_exact :
    (∀ n : Word, ShiftsExact n n.toNat) ∧ (∀ v : U256, ShiftsExact (satWord v) v.toNat) ∧
    (∀ a b : U256, u256Slt a b = true ↔ a.val.toInt < b.val.toInt) ∧
    (∀ (fuel ws : Nat) (a b : U256) (c : Cells), 3 ≤ fuel →
      ∃ s, u256Sdiv fuel ws a b c = .ok s ∧ OffScratch ws c s.2 ∧
        s.1.val = BitVec.ofInt 256 (a.val.toInt.tdiv b.val.toInt) ∧
        (b.toNat = 0 → s.1.toNat = 0) ∧
        (a.toNat = 2 ^ 255 → b.toNat = 2 ^ 256 - 1 → s.1.toNat = 2 ^ 255)) ∧
    ∀ (fuel ws : Nat) (a b : U256) (c : Cells), 3 ≤ fuel →
      ∃ s, u256Smod fuel ws a b c = .ok s ∧ OffScratch ws c s.2 ∧
        s.1.val = BitVec.ofInt 256 (if b.toNat = 0 then 0 else a.val.toInt.tmod b.val.toInt) := by
  refine ⟨fun n => shiftsExact (.inl rfl), fun v => shiftsExact (agrees_satWord v), u256Slt_iff,
    fun fuel ws a b c hfuel => ?_, fun fuel ws a b c hfuel => ?_⟩
  · obtain ⟨s, hrun, hvalue, hoff⟩ := u256Sdiv_value a b ws c hfuel
    refine ⟨s, hrun, hoff, hvalue, fun hb => ?_, fun ha hb => ?_⟩
    · rw [U256.val_eq_iff, toInt_val b, hb, if_pos (by decide), Int.natCast_zero,
        Int.tdiv_zero] at hvalue
      exact hvalue
    · rw [U256.val_eq_iff, toInt_val a, toInt_val b, ha, hb] at hvalue
      exact hvalue
  · obtain ⟨s, hrun, hvalue, hoff⟩ := u256Smod_value a b ws c hfuel
    exact ⟨s, hrun, hoff, hvalue⟩

end StatelessGuest.Limb
