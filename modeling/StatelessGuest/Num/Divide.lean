import StatelessGuest.Num.Digits

/-!
# Division of digit arrays

Algorithm D: the divisor is shifted until its top bit is set, and every quotient digit is estimated
from leading digits, corrected, and corrected once more when the subtraction goes below zero.

* `bnDivmnu`, with the scratch arrays of its caller; `divmnu`, with its own.
* `correct_value`: the corrected estimate is at most one too large, after at most two corrections.
* `quotientDigit_value`: a digit of the quotient and the remainder it leaves.
* `bnDivmnu_value`: quotient and remainder are exact, and only the four arrays are written.
-/

namespace StatelessGuest.Limb

open Lib

/-! ## The code -/

/-- `while i > 0`, then the lowest digit: every digit is shifted by `s` with the one below. -/
def shiftUp (dst src : Nat) (s : Word) : Nat → Cells → Cells
  | 0, c => Function.update c dst ((c src <<< s.toNat) &&& m32)
  | i + 1, c => shiftUp dst src s i (Function.update c (dst + (i + 1))
      (((c (src + (i + 1)) <<< s.toNat) ||| (c (src + i) >>> (32 - s).toNat)) &&& m32))

/-- `while again == 1`: the estimate is lowered while the second digit shows it too large. -/
def correct (vtop vsec ujn2 : Word) : Nat → Word → Word → Except Exn Word
  | 0, _, _ => .error .outOfFuel
  | fuel + 1, qhat, rhat =>
    if rhat < 4294967296 ∧ ((rhat <<< 32) ||| ujn2) < qhat * vsec then
      correct vtop vsec ujn2 fuel (qhat - 1) (rhat + vtop)
    else .ok qhat

/-- The multiple of the divisor is subtracted; after `i` rounds, with the borrow. -/
def mulSub (un vn j : Nat) (qhat : Word) : Nat → Cells → Word × Cells
  | 0, c => (0, c)
  | i + 1, c =>
    let s := mulSub un vn j qhat i c
    let p := qhat * s.2 (vn + i)
    let t := s.2 (un + (i + j)) - s.1 - (p &&& m32)
    ((p >>> 32) - t.sshiftRight 32, Function.update s.2 (un + (i + j)) (t &&& m32))

/-- The divisor is added back; after `i` rounds, with the carry. -/
def addBack (un vn j : Nat) : Nat → Cells → Word × Cells
  | 0, c => (0, c)
  | i + 1, c =>
    let s := addBack un vn j i c
    let t := s.2 (un + (i + j)) + s.2 (vn + i) + s.1
    (t >>> 32, Function.update s.2 (un + (i + j)) (t &&& m32))

/-- The estimate of a digit and what it leaves. -/
def estimate (ujn ujn1 vtop : Word) : Word × Word :=
  if vtop ≤ ujn then (m32, ((ujn <<< 32) ||| ujn1) - m32 * vtop) else div64by32 ujn ujn1 vtop

/-- A digit of the quotient. -/
def quotientDigit (fuel q un vn n j : Nat) (vtop vsec : Word) (c : Cells) : Except Exn Cells := do
  let ujn := c (un + (j + n))
  let ujn1 := c (un + (j + n - 1))
  let ujn2 := c (un + (j + n - 2))
  let e := estimate ujn ujn1 vtop
  let qhat ← correct vtop vsec ujn2 fuel e.1 e.2
  let s := mulSub un vn j qhat n c
  let tt := ujn - s.1
  if tt.slt 0 then
    let s := addBack un vn j n (Function.update s.2 (q + j) (qhat - 1))
    return Function.update s.2 (un + (j + n)) ((tt + s.1) &&& m32)
  else return Function.update (Function.update s.2 (q + j) qhat) (un + (j + n)) tt

/-- `while j > 0`: the digits of the quotient from the top. -/
def quotientDigits (fuel q un vn n : Nat) (vtop vsec : Word) : Nat → Cells → Except Exn Cells
  | 0, c => .ok c
  | j + 1, c => do
    let c ← quotientDigit fuel q un vn n j vtop vsec c
    quotientDigits fuel q un vn n vtop vsec j c

/-- `n` cells are set to zero. -/
def zeroDigits (p : Nat) : Nat → Cells → Cells
  | 0, c => c
  | n + 1, c => Function.update (zeroDigits p n c) (p + n) 0

/-- The remainder is shifted back; after `i` rounds. -/
def shiftDown (r un : Nat) (s : Word) : Nat → Cells → Cells
  | 0, c => c
  | i + 1, c =>
    let c := shiftDown r un s i c
    Function.update c (r + i)
      ((c (un + i) >>> s.toNat) ||| ((c (un + (i + 1)) <<< (32 - s).toNat) &&& m32))

/-- `while j > 0` of a division by a single digit, with the remainder so far. -/
def divDigit (q u : Nat) (d : Word) : Nat → Word → Cells → Word × Cells
  | 0, k, c => (k, c)
  | j + 1, k, c =>
    let qr := div64by32 k (c (u + j)) d
    divDigit q u d j qr.2 (Function.update c (q + j) qr.1)

/-- `q[0..m) = u[0..m) / v[0..n)` and `r[0..n)` the remainder, with `un` and `vn` as scratch. -/
def bnDivmnu (fuel q r u m v n un vn : Nat) (c : Cells) : Except Exn Cells :=
  if n = 1 then
    let s := divDigit q u (c v) m 0 c
    .ok (Function.update s.2 r s.1)
  else do
    let s := nlz32 (c (v + (n - 1)))
    let c := shiftUp vn v s (n - 1) c
    let c := Function.update c (un + m) (c (u + (m - 1)) >>> (32 - s).toNat)
    let c := shiftUp un u s (m - 1) c
    let c ← quotientDigits fuel q un vn n (c (vn + (n - 1))) (c (vn + (n - 2))) (m - n + 1) c
    let c := zeroDigits (q + (m - n + 1)) (n - 1) c
    return shiftDown r un s n c

/-- The scratch arrays: 18 digits of the dividend and 9 of the divisor. -/
def divmnu (fuel ws q r u m v n : Nat) (c : Cells) : Except Exn Cells :=
  bnDivmnu fuel q r u m v n ws (ws + 18) c

/-! ## Shifts -/

section

variable {c c' : Cells} {q r u v un vn m n j k dst src x : Nat} {s : Word}

theorem toNat_32_sub {s : Word} (hs : s.toNat ≤ 31) : (32 - s).toNat = 32 - s.toNat :=
  BitVec.toNat_sub_of_le (Nat.le_succ_of_le hs)

/-- A digit that is shifted up, with the top of the one below. -/
theorem toNat_shiftUp_digit {a b s : Word} (ha : a.toNat < 2 ^ 32) (hb : b.toNat < 2 ^ 32)
    (hs : s.toNat ≤ 31) :
    (((a <<< s.toNat) ||| (b >>> (32 - s).toNat)) &&& m32).toNat +
        2 ^ 32 * (a.toNat / 2 ^ (32 - s.toNat)) =
      a.toNat * 2 ^ s.toNat + b.toNat / 2 ^ (32 - s.toNat) := by
  have hsub := toNat_32_sub hs
  have hpow : 2 ^ (32 - s.toNat) * 2 ^ s.toNat = 2 ^ 32 := by
    rw [← Nat.pow_add, Nat.sub_add_cancel (by omega)]
  have hlow : b.toNat / 2 ^ (32 - s.toNat) < 2 ^ s.toNat := by
    rw [Nat.div_lt_iff_lt_mul (Nat.two_pow_pos _), Nat.mul_comm, hpow]
    exact hb
  have hle : 2 ^ s.toNat ≤ 2 ^ 31 := Nat.pow_le_pow_right (by decide) hs
  have hmul : a.toNat * 2 ^ s.toNat ≤ (2 ^ 32 - 1) * 2 ^ 31 := Nat.mul_le_mul (by omega) hle
  rw [toNat_and_m32, toNat_shiftLeft_or (by omega) (by rw [toNat_shiftRight, hsub]; exact hlow),
    toNat_shiftRight, hsub]
  -- the part of the digit that stays, and the one that is carried
  generalize b.toNat / 2 ^ (32 - s.toNat) = e at *
  have hsplit := Nat.mod_add_div a.toNat (2 ^ (32 - s.toNat))
  have hmod := Nat.mod_lt a.toNat (Nat.two_pow_pos (32 - s.toNat))
  generalize a.toNat % 2 ^ (32 - s.toNat) = lo at *
  generalize a.toNat / 2 ^ (32 - s.toNat) = hi at *
  have hvalue : a.toNat * 2 ^ s.toNat = lo * 2 ^ s.toNat + 2 ^ 32 * hi := by
    rw [← hsplit, ← hpow]
    ring
  have hfit : lo * 2 ^ s.toNat + 2 ^ s.toNat ≤ 2 ^ 32 := by
    rw [← hpow, ← Nat.succ_mul]
    exact Nat.mul_le_mul_right _ hmod
  rw [hvalue]
  omega

/-- The lowest digit, which nothing is shifted into. -/
theorem toNat_shiftUp_lowest {a s : Word} (ha : a.toNat < 2 ^ 32) (hs : s.toNat ≤ 31) :
    ((a <<< s.toNat) &&& m32).toNat + 2 ^ 32 * (a.toNat / 2 ^ (32 - s.toNat)) =
      a.toNat * 2 ^ s.toNat := by
  have h := toNat_shiftUp_digit (b := 0) ha (Nat.two_pow_pos 32) hs
  rwa [show ((0 : Word) >>> (32 - s).toNat) = 0#64 from BitVec.zero_ushiftRight, BitVec.or_zero,
    show (0 : Word).toNat = 0 from rfl, Nat.zero_div, Nat.add_zero] at h

/-- The digits that the shift leaves at `dst`. -/
def shiftedDigit (c : Cells) (src : Nat) (s : Word) : Nat → Word
  | 0 => (c src <<< s.toNat) &&& m32
  | i + 1 => ((c (src + (i + 1)) <<< s.toNat) ||| (c (src + i) >>> (32 - s).toNat)) &&& m32

theorem shiftUp_off (hx : x < dst ∨ dst + k < x) : shiftUp dst src s k c x = c x := by
  induction k generalizing c with
  | zero => rw [shiftUp, Function.update_of_ne (by omega)]
  | succ k ih => rw [shiftUp, ih (by omega), Function.update_of_ne (by omega)]

theorem shiftUp_at {i : Nat} (hdisj : dst + k < src ∨ src + k < dst) (hi : i ≤ k) :
    shiftUp dst src s k c (dst + i) = shiftedDigit c src s i := by
  induction k generalizing c with
  | zero =>
    obtain rfl : i = 0 := by omega
    rw [shiftUp, Nat.add_zero, Function.update_self]
    rfl
  | succ k ih =>
    rw [shiftUp]
    by_cases htop : i = k + 1
    · subst htop
      rw [shiftUp_off (by omega), Function.update_self]
      rfl
    · rw [ih (by omega) (by omega)]
      cases i with
      | zero => rw [shiftedDigit, shiftedDigit, Function.update_of_ne (by omega)]
      | succ i =>
        rw [shiftedDigit, shiftedDigit, Function.update_of_ne (by omega),
          Function.update_of_ne (by omega)]

/-- What a digit carries to the one above. -/
def carried (c : Cells) (src : Nat) (s : Word) : Nat → Nat
  | 0 => 0
  | i + 1 => (c (src + i)).toNat / 2 ^ (32 - s.toNat)

theorem toNat_shiftedDigit {i : Nat} (hs : s.toNat ≤ 31) (hc : ∀ k ≤ i, (c (src + k)).toNat < 2 ^ 32) :
    (shiftedDigit c src s i).toNat + 2 ^ 32 * carried c src s (i + 1) =
      (c (src + i)).toNat * 2 ^ s.toNat + carried c src s i := by
  cases i with
  | zero => exact toNat_shiftUp_lowest (hc 0 (Nat.le_refl 0)) hs
  | succ i => exact toNat_shiftUp_digit (hc (i + 1) (Nat.le_refl _)) (hc i (Nat.le_succ i)) hs

/-- The digits that are shifted and what the top one carries. -/
theorem value_shiftUp (dst src : Nat) (hs : s.toNat ≤ 31) (hdisj : dst + k < src ∨ src + k < dst)
    (hc : c.IsDigits src (k + 1)) :
    (shiftUp dst src s k c).value dst (k + 1) + carried c src s (k + 1) * (2 ^ 32) ^ (k + 1) =
      c.value src (k + 1) * 2 ^ s.toNat := by
  have hshift := Digits.value_shift (b := 2 ^ 32) (n := k + 1) (k := 2 ^ s.toNat)
    (f := (shiftUp dst src s k c).digit dst) (u := c.digit src) (c := carried c src s)
    fun i hi => by
      unfold Cells.digit
      rw [shiftUp_at hdisj (by omega)]
      exact toNat_shiftedDigit hs fun l hl => hc l (by omega)
  exact hshift

theorem shiftUp_isDigits (hdisj : dst + k < src ∨ src + k < dst) :
    (shiftUp dst src s k c).IsDigits dst (k + 1) := by
  intro i hi
  unfold Cells.digit
  rw [shiftUp_at hdisj (by omega)]
  cases i with
  | zero =>
    rw [shiftedDigit, toNat_and_m32]
    exact Nat.mod_lt _ (by decide)
  | succ i =>
    rw [shiftedDigit, toNat_and_m32]
    exact Nat.mod_lt _ (by decide)

/-! ## Shifting back -/

theorem shiftDown_off (hx : x < r ∨ r + n ≤ x) : shiftDown r un s n c x = c x := by
  induction n with
  | zero => rfl
  | succ n ih =>
    rw [shiftDown]
    rw [Function.update_of_ne (by omega), ih (by omega)]

theorem shiftDown_at {i : Nat} (hdisj : r + n ≤ un ∨ un + n < r) (hi : i < n) :
    shiftDown r un s n c (r + i) =
      (c (un + i) >>> s.toNat) ||| ((c (un + (i + 1)) <<< (32 - s).toNat) &&& m32) := by
  induction n with
  | zero => exact absurd hi (Nat.not_lt_zero i)
  | succ n ih =>
    rw [shiftDown]
    by_cases htop : i = n
    · subst htop
      rw [Function.update_self, shiftDown_off (by omega), shiftDown_off (by omega)]
    · rw [Function.update_of_ne (by omega), ih (by omega) (by omega)]

/-- A digit that is shifted down, with the bottom of the one above. -/
theorem toNat_shiftDown_digit {a b s : Word} (ha : a.toNat < 2 ^ 32) (hb : b.toNat < 2 ^ 32)
    (hs : s.toNat ≤ 31) :
    ((a >>> s.toNat) ||| ((b <<< (32 - s).toNat) &&& m32)).toNat * 2 ^ s.toNat +
        a.toNat % 2 ^ s.toNat =
      a.toNat + 2 ^ 32 * (b.toNat % 2 ^ s.toNat) := by
  have hsub := toNat_32_sub hs
  have hpow : 2 ^ s.toNat * 2 ^ (32 - s.toNat) = 2 ^ 32 := by
    rw [← Nat.pow_add, Nat.add_sub_cancel' (by omega)]
  have hhigh : ((b <<< (32 - s).toNat) &&& m32).toNat =
      2 ^ (32 - s.toNat) * (b.toNat % 2 ^ s.toNat) := by
    have hle : 2 ^ (32 - s.toNat) ≤ 2 ^ 32 := Nat.pow_le_pow_right (by decide) (by omega)
    have hmul : b.toNat * 2 ^ (32 - s.toNat) ≤ (2 ^ 32 - 1) * 2 ^ 32 := Nat.mul_le_mul (by omega) hle
    have hshift : (b <<< (32 - s).toNat).toNat = b.toNat * 2 ^ (32 - s.toNat) := by
      rw [hsub, BitVec.toNat_shiftLeft, Nat.shiftLeft_eq, Nat.mod_eq_of_lt (by omega)]
    rw [toNat_and_m32, hshift, ← hpow, Nat.mul_comm, Nat.mul_comm (2 ^ s.toNat),
      Nat.mul_mod_mul_left]
  have hlow : (a >>> s.toNat).toNat < 2 ^ (32 - s.toNat) := by
    rw [toNat_shiftRight, Nat.div_lt_iff_lt_mul (Nat.two_pow_pos _), Nat.mul_comm, hpow]
    exact ha
  rw [BitVec.or_comm, BitVec.toNat_or, hhigh, ← Nat.two_pow_add_eq_or_of_lt hlow, toNat_shiftRight]
  have hsplit := Nat.mod_add_div a.toNat (2 ^ s.toNat)
  rw [← hpow]
  linear_combination hsplit

theorem value_shiftDown (hs : s.toNat ≤ 31) (hdisj : r + n ≤ un ∨ un + n < r)
    (hc : c.IsDigits un (n + 1)) :
    (shiftDown r un s n c).value r n * 2 ^ s.toNat + c.digit un 0 % 2 ^ s.toNat =
      c.value un n + c.digit un n % 2 ^ s.toNat * (2 ^ 32) ^ n := by
  have hshift := Digits.value_unshift (b := 2 ^ 32) (n := n) (k := 2 ^ s.toNat)
    (f := (shiftDown r un s n c).digit r) (u := c.digit un)
    (c := fun i => c.digit un i % 2 ^ s.toNat)
    fun i hi => by
      unfold Cells.digit
      rw [shiftDown_at hdisj hi]
      exact toNat_shiftDown_digit (hc i (by omega)) (hc (i + 1) (by omega)) hs
  exact hshift

theorem shiftDown_isDigits (hs : s.toNat ≤ 31) (hdisj : r + n ≤ un ∨ un + n < r)
    (hc : c.IsDigits un (n + 1)) : (shiftDown r un s n c).IsDigits r n := by
  intro i hi
  have hvalue := toNat_shiftDown_digit (hc i (by omega)) (hc (i + 1) (by omega)) hs
  unfold Cells.digit
  rw [shiftDown_at hdisj hi]
  rw [BitVec.toNat_or]
  refine Nat.or_lt_two_pow ?_ ?_
  · have hlt : (c (un + i)).toNat < 2 ^ 32 := hc i (by omega)
    rw [toNat_shiftRight]
    exact Nat.lt_of_le_of_lt (Nat.div_le_self _ _) hlt
  · rw [toNat_and_m32]
    exact Nat.mod_lt _ (by decide)

/-! ## The estimate of a digit -/

/-- The leading digits of a divisor `V` and of a dividend `W`, both of weight `p`, the divisor's top
bit set, and a quotient that is a digit. -/
structure Leading (V W p vtop vsec u0 u1 u2 : Nat) : Prop where
  divisor : (vtop * 2 ^ 32 + vsec) * p ≤ V
  divisor_lt : V < (vtop * 2 ^ 32 + vsec + 1) * p
  dividend : ((u0 * 2 ^ 32 + u1) * 2 ^ 32 + u2) * p ≤ W
  dividend_lt : W < ((u0 * 2 ^ 32 + u1) * 2 ^ 32 + u2 + 1) * p
  top : 2 ^ 31 ≤ vtop
  top_lt : vtop < 2 ^ 32
  second : vsec < 2 ^ 32
  first : u1 < 2 ^ 32
  last : u2 < 2 ^ 32
  quotient : W < 2 ^ 32 * V

section

variable {V W p : Nat} {vtop vsec u0 u1 u2 qhat rhat : Word}

/-- The top digit of the dividend does not exceed that of the divisor. -/
theorem Leading.le_top {vt vs d0 d1 d2 : Nat} (h : Leading V W p vt vs d0 d1 d2) : d0 ≤ vt := by
  by_contra hgt
  have hsecond := h.second
  have hdividend := h.dividend
  have hlt := h.divisor_lt
  have hquotient := h.quotient
  have htwo : vt * 2 ^ 32 + vs + 1 ≤ d0 * 2 ^ 32 + d1 := by
    clear hdividend hlt hquotient
    omega
  have hmul : (vt * 2 ^ 32 + vs + 1) * 2 ^ 32 * p ≤ ((d0 * 2 ^ 32 + d1) * 2 ^ 32 + d2) * p :=
    Nat.mul_le_mul_right _ ((Nat.mul_le_mul_right _ htwo).trans (Nat.le_add_right _ _))
  have hmul' : 2 ^ 32 * V ≤ 2 ^ 32 * ((vt * 2 ^ 32 + vs + 1) * p) :=
    Nat.mul_le_mul_left _ (Nat.le_of_lt hlt)
  have hassoc : 2 ^ 32 * ((vt * 2 ^ 32 + vs + 1) * p) = (vt * 2 ^ 32 + vs + 1) * 2 ^ 32 * p := by ring
  refine Nat.lt_irrefl W ?_
  calc W < 2 ^ 32 * V := hquotient
    _ ≤ 2 ^ 32 * ((vt * 2 ^ 32 + vs + 1) * p) := hmul'
    _ = (vt * 2 ^ 32 + vs + 1) * 2 ^ 32 * p := hassoc
    _ ≤ ((d0 * 2 ^ 32 + d1) * 2 ^ 32 + d2) * p := hmul
    _ ≤ W := hdividend

/-- An estimate with the remainder it leaves, not below the quotient. -/
structure Estimate (V W : Nat) (vtop u0 u1 qhat rhat : Word) : Prop where
  split : qhat.toNat * vtop.toNat + rhat.toNat = u0.toNat * 2 ^ 32 + u1.toNat
  above : W < (qhat.toNat + 1) * V
  digit : qhat.toNat < 2 ^ 32

/-- The first estimate comes from the top digits. -/
theorem estimate_value
    (h : Leading V W p vtop.toNat vsec.toNat u0.toNat u1.toNat u2.toNat) :
    Estimate V W vtop u0 u1 (estimate u0 u1 vtop).1 (estimate u0 u1 vtop).2 := by
  have htop := h.le_top
  have htoplt := h.top_lt
  have hfirst := h.first
  unfold estimate
  split
  · next hle =>
    rw [BitVec.le_def] at hle
    have hprod : (m32 * vtop).toNat = (2 ^ 32 - 1) * vtop.toNat := by
      rw [BitVec.toNat_mul, show m32.toNat = 2 ^ 32 - 1 from rfl, Nat.mod_eq_of_lt (by omega)]
    have hjoin : ((u0 <<< 32) ||| u1).toNat = u0.toNat * 2 ^ 32 + u1.toNat :=
      toNat_shiftLeft_or (by omega) hfirst
    have hsub : (((u0 <<< 32) ||| u1) - m32 * vtop).toNat =
        u0.toNat * 2 ^ 32 + u1.toNat - (2 ^ 32 - 1) * vtop.toNat := by
      rw [BitVec.toNat_sub_of_le (by rw [BitVec.le_def, hprod, hjoin]; omega), hprod, hjoin]
    have hmask : m32.toNat = 2 ^ 32 - 1 := rfl
    refine ⟨?_, ?_, ?_⟩ <;> dsimp only
    · rw [hsub, hmask]
      omega
    · rw [hmask, Nat.sub_add_cancel Nat.one_le_two_pow]
      exact h.quotient
    · rw [hmask]
      exact Nat.sub_lt (Nat.two_pow_pos 32) Nat.one_pos
  · next hlt =>
    rw [BitVec.le_def, Nat.not_le] at hlt
    obtain ⟨hvalue, hrem, hdigit⟩ := div64by32_value htoplt hlt hfirst
    generalize div64by32 u0 u1 vtop = e at *
    refine ⟨hvalue, ?_, hdigit⟩
    -- the digits below the top ones do not reach the next multiple
    have hnext : u0.toNat * 2 ^ 32 + u1.toNat + 1 ≤ (e.1.toNat + 1) * vtop.toNat := by
      rw [Nat.succ_mul]
      omega
    have hdividend := h.dividend_lt
    have hlast := h.last
    have hmul : ((u0.toNat * 2 ^ 32 + u1.toNat) * 2 ^ 32 + u2.toNat + 1) * p ≤
        (e.1.toNat + 1) * vtop.toNat * 2 ^ 32 * p := by
      refine Nat.mul_le_mul_right _ (Nat.le_trans ?_ (Nat.mul_le_mul_right (2 ^ 32) hnext))
      have hlast' : u2.toNat + 1 ≤ 2 ^ 32 := Nat.succ_le_of_lt hlast
      rw [Nat.succ_mul _ (2 ^ 32), Nat.add_assoc]
      exact Nat.add_le_add_left hlast' _
    have hmul' : (e.1.toNat + 1) * ((vtop.toNat * 2 ^ 32 + vsec.toNat) * p) ≤ (e.1.toNat + 1) * V :=
      Nat.mul_le_mul_left _ h.divisor
    have hsplit : (e.1.toNat + 1) * ((vtop.toNat * 2 ^ 32 + vsec.toNat) * p) =
        (e.1.toNat + 1) * vtop.toNat * 2 ^ 32 * p + (e.1.toNat + 1) * vsec.toNat * p := by ring
    calc W < ((u0.toNat * 2 ^ 32 + u1.toNat) * 2 ^ 32 + u2.toNat + 1) * p := hdividend
      _ ≤ (e.1.toNat + 1) * vtop.toNat * 2 ^ 32 * p := hmul
      _ ≤ (e.1.toNat + 1) * ((vtop.toNat * 2 ^ 32 + vsec.toNat) * p) :=
        hsplit ▸ Nat.le_add_right _ _
      _ ≤ (e.1.toNat + 1) * V := hmul'

/-- A correction is made only when the estimate is too large. -/
theorem Estimate.lower (h : Leading V W p vtop.toNat vsec.toNat u0.toNat u1.toNat u2.toNat)
    (he : Estimate V W vtop u0 u1 qhat rhat) (hr : rhat.toNat < 2 ^ 32)
    (hlt : rhat.toNat * 2 ^ 32 + u2.toNat < qhat.toNat * vsec.toNat) :
    Estimate V W vtop u0 u1 (qhat - 1) (rhat + vtop) := by
  have hsplit := he.split
  have hdigit := he.digit
  have htoplt := h.top_lt
  have habove : W < qhat.toNat * V := by
    refine Digits.lt_quotient_of_lt h.dividend_lt h.divisor ?_
    have hexpand : qhat.toNat * (vtop.toNat * 2 ^ 32 + vsec.toNat) =
        qhat.toNat * vtop.toNat * 2 ^ 32 + qhat.toNat * vsec.toNat := by ring
    rw [hexpand, ← hsplit, Nat.add_mul, Nat.add_assoc]
    exact Nat.add_lt_add_left hlt _
  have hpos : 0 < qhat.toNat := by
    refine Nat.pos_of_ne_zero fun hz => ?_
    rw [hz, Nat.zero_mul] at habove
    exact Nat.not_lt_zero _ habove
  have hpred : (qhat - 1).toNat = qhat.toNat - 1 := BitVec.toNat_sub_of_le hpos
  have hadd : (rhat + vtop).toNat = rhat.toNat + vtop.toNat := by
    rw [BitVec.toNat_add, Nat.mod_eq_of_lt (by omega)]
  obtain ⟨e, he'⟩ := Nat.exists_eq_add_of_le' hpos
  refine ⟨?_, ?_, by omega⟩
  · rw [hpred, hadd, he', Nat.add_sub_cancel]
    rw [he', Nat.succ_mul] at hsplit
    omega
  · rwa [hpred, Nat.sub_add_cancel hpos]

/-- The test of a correction. -/
theorem correct_test (rhat : Word) (hdigit : qhat.toNat < 2 ^ 32) (hsecond : vsec.toNat < 2 ^ 32)
    (hlast : u2.toNat < 2 ^ 32) :
    (rhat < 4294967296 ∧ ((rhat <<< 32) ||| u2) < qhat * vsec) ↔
      rhat.toNat < 2 ^ 32 ∧ rhat.toNat * 2 ^ 32 + u2.toNat < qhat.toNat * vsec.toNat := by
  have hsmall : rhat < 4294967296 ↔ rhat.toNat < 2 ^ 32 := BitVec.lt_def
  rw [hsmall]
  refine and_congr_right fun hr => ?_
  rw [BitVec.lt_def, toNat_shiftLeft_or (by omega) hlast, (toNat_mul_halves hdigit hsecond).1]

/-- An estimate that is not corrected any more is at most one too large. -/
theorem Estimate.close (h : Leading V W p vtop.toNat vsec.toNat u0.toNat u1.toNat u2.toNat)
    (he : Estimate V W vtop u0 u1 qhat rhat)
    (hend : ¬(rhat.toNat < 2 ^ 32 ∧ rhat.toNat * 2 ^ 32 + u2.toNat < qhat.toNat * vsec.toNat)) :
    (qhat.toNat - 1) * V ≤ W := by
  have hdigit := he.digit
  have hsecond := h.second
  have hsplit := he.split
  have hle : qhat.toNat * (vtop.toNat * 2 ^ 32 + vsec.toNat) ≤
      (u0.toNat * 2 ^ 32 + u1.toNat) * 2 ^ 32 + u2.toNat := by
    have hexpand : qhat.toNat * (vtop.toNat * 2 ^ 32 + vsec.toNat) =
        qhat.toNat * vtop.toNat * 2 ^ 32 + qhat.toNat * vsec.toNat := by ring
    rw [hexpand, ← hsplit, Nat.add_mul, Nat.add_assoc]
    refine Nat.add_le_add_left ?_ _
    by_cases hsmall : rhat.toNat < 2 ^ 32
    · exact Nat.not_lt.mp fun hlt => hend ⟨hsmall, hlt⟩
    · have hprod : qhat.toNat * vsec.toNat ≤ 2 ^ 32 * 2 ^ 32 :=
        Nat.mul_le_mul (Nat.le_of_lt hdigit) (Nat.le_of_lt hsecond)
      have hmul := Nat.mul_le_mul_right (2 ^ 32) (Nat.not_lt.mp hsmall)
      exact hprod.trans (hmul.trans (Nat.le_add_right _ _))
  refine Digits.quotient_step h.dividend h.divisor_lt hle ?_
  -- a digit times the weight stays below the divisor
  have hweight : qhat.toNat ≤ vtop.toNat * 2 ^ 32 + vsec.toNat := by
    have htop := h.top
    omega
  exact (Nat.mul_le_mul_right _ hweight).trans h.divisor

/-- The corrected estimate is not below the quotient, and at most one above it. At most two
corrections are made. -/
theorem correct_value (fuel : Nat)
    (h : Leading V W p vtop.toNat vsec.toNat u0.toNat u1.toNat u2.toNat)
    (he : Estimate V W vtop u0 u1 qhat rhat)
    (hfuel : 2 ^ 32 ≤ rhat.toNat + fuel * vtop.toNat) :
    ∃ qd, correct vtop vsec u2 (fuel + 1) qhat rhat = .ok qd ∧ W < (qd.toNat + 1) * V ∧
      (qd.toNat - 1) * V ≤ W ∧ qd.toNat < 2 ^ 32 := by
  induction fuel generalizing qhat rhat with
  | zero =>
    have htest := correct_test rhat he.digit h.second h.last
    rw [Nat.zero_mul, Nat.add_zero] at hfuel
    have hend : ¬(rhat.toNat < 2 ^ 32 ∧
        rhat.toNat * 2 ^ 32 + u2.toNat < qhat.toNat * vsec.toNat) :=
      fun hboth => absurd hboth.1 (Nat.not_lt.mpr hfuel)
    refine ⟨qhat, ?_, he.above, he.close h hend, he.digit⟩
    rw [correct, if_neg fun hagain => hend (htest.mp hagain)]
  | succ fuel ih =>
    have htest := correct_test rhat he.digit h.second h.last
    rw [correct]
    split
    · next hagain =>
      obtain ⟨hr, hlt⟩ := htest.mp hagain
      refine ih (he.lower h hr hlt) ?_
      have htoplt := h.top_lt
      rw [BitVec.toNat_add, Nat.mod_eq_of_lt (by omega)]
      rw [Nat.succ_mul] at hfuel
      omega
    · next hend =>
      exact ⟨qhat, rfl, he.above, he.close h fun hboth => hend (htest.mpr hboth), he.digit⟩

end

/-! ## The subtraction -/

/-- A round of the subtraction; the borrow includes the upper half of the product. -/
theorem mulSub_round {a p k : Word} (ha : a.toNat < 2 ^ 32)
    (hp : p.toNat ≤ (2 ^ 32 - 1) * (2 ^ 32 - 1)) (hk : k.toNat ≤ 2 ^ 32) :
    let t := a - k - (p &&& m32)
    (t &&& m32).toNat + p.toNat + k.toNat =
        a.toNat + 2 ^ 32 * ((p >>> 32) - t.sshiftRight 32).toNat ∧
      ((p >>> 32) - t.sshiftRight 32).toNat ≤ 2 ^ 32 := by
  intro t
  have hlow := toNat_and_m32 p
  have hhigh := toNat_shiftRight p 32
  have ht : t.toNat = (a.toNat + 2 ^ 64 - k.toNat - p.toNat % 2 ^ 32) % 2 ^ 64 := by
    change (a - k - (p &&& m32)).toNat = _
    rw [BitVec.toNat_sub, BitVec.toNat_sub, hlow]
    omega
  have hmask := toNat_and_m32 t
  have hmod := Nat.mod_lt p.toNat (Nat.two_pow_pos 32)
  have hsplit := Nat.mod_add_div p.toNat (2 ^ 32)
  generalize p.toNat % 2 ^ 32 = lo at *
  generalize p.toNat / 2 ^ 32 = hi at *
  by_cases hle : k.toNat + lo ≤ a.toNat
  · have hvalue : t.toNat = a.toNat - k.toNat - lo := by omega
    have hzero : t.sshiftRight 32 = 0 := by
      have hmsb : t.msb = false := by
        rw [BitVec.msb_eq_false_iff_two_mul_lt]
        omega
      rw [BitVec.sshiftRight_eq_of_msb_false hmsb]
      refine BitVec.eq_of_toNat_eq ?_
      rw [toNat_shiftRight, show (0 : Word).toNat = 0 from rfl]
      omega
    rw [hzero, show (p >>> 32) - (0 : Word) = p >>> 32 from BitVec.sub_zero _, hmask, hhigh]
    omega
  · have hvalue : t.toNat = 2 ^ 64 + a.toNat - k.toNat - lo := by omega
    have hsign : (t.sshiftRight 32).toNat = 2 ^ 64 - 1 - (2 ^ 64 - 1 - t.toNat) / 2 ^ 32 := by
      have hmsb : t.msb = true := by
        rw [BitVec.msb_eq_true_iff_two_mul_ge]
        omega
      rw [BitVec.sshiftRight_eq_of_msb_true hmsb, BitVec.toNat_not, toNat_shiftRight,
        BitVec.toNat_not]
    rw [BitVec.toNat_sub, hsign, hmask, hhigh]
    omega

/-- The number that is subtracted from, above what is left and the multiple of the divisor. -/
theorem mulSub_value {qhat : Word} (hq : qhat.toNat < 2 ^ 32) (hu : c.IsDigits (un + j) n)
    (hv : c.IsDigits vn n) (hdisj : un + (j + n) ≤ vn ∨ vn + n ≤ un + j) :
    (mulSub un vn j qhat n c).2.value (un + j) n + qhat.toNat * c.value vn n =
        c.value (un + j) n + (mulSub un vn j qhat n c).1.toNat * (2 ^ 32) ^ n ∧
      (mulSub un vn j qhat n c).1.toNat ≤ 2 ^ 32 ∧
      (mulSub un vn j qhat n c).2.IsDigits (un + j) n ∧
      ∀ x, x < un + j ∨ un + (j + n) ≤ x → (mulSub un vn j qhat n c).2 x = c x := by
  induction n with
  | zero =>
    refine ⟨?_, Nat.zero_le _, fun i hi => absurd hi (Nat.not_lt_zero i), fun x hx => rfl⟩
    rw [show (mulSub un vn j qhat 0 c).1 = 0 from rfl, show (0 : Word).toNat = 0 from rfl,
      Nat.zero_mul]
    rfl
  | succ n ih =>
    obtain ⟨hvalue, hk, hdigits, hoff⟩ := ih (fun i hi => hu i (by omega))
      (fun i hi => hv i (by omega)) (by omega)
    rw [mulSub]
    dsimp only
    generalize mulSub un vn j qhat n c = s at *
    have hvn : s.2 (vn + n) = c (vn + n) := hoff _ (by omega)
    have hun : s.2 (un + (n + j)) = c (un + j + n) := by
      rw [hoff _ (by omega), show un + (n + j) = un + j + n by omega]
    have hplace : un + (n + j) = un + j + n := by omega
    rw [hvn, hun, hplace]
    have hdigit : (c (un + j + n)).toNat < 2 ^ 32 := hu n (Nat.lt_succ_self n)
    obtain ⟨hprod, hbound⟩ := toNat_mul_halves hq (hv n (Nat.lt_succ_self n))
    obtain ⟨hround, hk'⟩ := mulSub_round (p := qhat * c (vn + n)) hdigit (by rw [hprod]; exact hbound) hk
    have hlow : Cells.value (Function.update s.2 (un + j + n)
        ((c (un + j + n) - s.1 - (qhat * c (vn + n) &&& m32)) &&& m32)) (un + j) n =
          s.2.value (un + j) n := by
      refine Cells.value_congr fun i hi => ?_
      rw [Function.update_of_ne (by omega)]
    refine ⟨?_, hk', fun i hi => ?_, fun x hx => ?_⟩
    · unfold Cells.value at hlow hvalue ⊢
      rw [Digits.value, Digits.value, Digits.value, hlow]
      unfold Cells.digit at hvalue ⊢
      rw [Function.update_self]
      rw [hprod] at hround
      rw [Nat.pow_succ']
      linear_combination hvalue + (2 ^ 32) ^ n * hround
    · unfold Cells.digit
      by_cases htop : i = n
      · rw [htop, Function.update_self, toNat_and_m32]
        exact Nat.mod_lt _ (by decide)
      · rw [Function.update_of_ne (by omega)]
        exact hdigits i (by omega)
    · rw [Function.update_of_ne (by omega), hoff x (by omega)]

/-- The divisor is added, with a carry. -/
theorem addBack_value (hu : c.IsDigits (un + j) n) (hv : c.IsDigits vn n)
    (hdisj : un + (j + n) ≤ vn ∨ vn + n ≤ un + j) :
    (addBack un vn j n c).2.value (un + j) n + (addBack un vn j n c).1.toNat * (2 ^ 32) ^ n =
        c.value (un + j) n + c.value vn n ∧
      (addBack un vn j n c).1.toNat ≤ 1 ∧
      (addBack un vn j n c).2.IsDigits (un + j) n ∧
      ∀ x, x < un + j ∨ un + (j + n) ≤ x → (addBack un vn j n c).2 x = c x := by
  induction n with
  | zero =>
    refine ⟨?_, Nat.zero_le _, fun i hi => absurd hi (Nat.not_lt_zero i), fun x hx => rfl⟩
    rw [show (addBack un vn j 0 c).1 = 0 from rfl, show (0 : Word).toNat = 0 from rfl,
      Nat.zero_mul]
    rfl
  | succ n ih =>
    obtain ⟨hvalue, hk, hdigits, hoff⟩ := ih (fun i hi => hu i (by omega))
      (fun i hi => hv i (by omega)) (by omega)
    rw [addBack]
    dsimp only
    generalize addBack un vn j n c = s at *
    have hvn : s.2 (vn + n) = c (vn + n) := hoff _ (by omega)
    have hun : s.2 (un + (n + j)) = c (un + j + n) := by
      rw [hoff _ (by omega), show un + (n + j) = un + j + n by omega]
    have hplace : un + (n + j) = un + j + n := by omega
    rw [hvn, hun, hplace]
    have hdigit : (c (un + j + n)).toNat < 2 ^ 32 := hu n (Nat.lt_succ_self n)
    have hdigit' : (c (vn + n)).toNat < 2 ^ 32 := hv n (Nat.lt_succ_self n)
    have hsum : (c (un + j + n) + c (vn + n) + s.1).toNat =
        (c (un + j + n)).toNat + (c (vn + n)).toNat + s.1.toNat := by
      rw [BitVec.toNat_add, BitVec.toNat_add, Nat.mod_eq_of_lt (a := _ + _) (by omega),
        Nat.mod_eq_of_lt (by omega)]
    have hlow : Cells.value (Function.update s.2 (un + j + n)
        ((c (un + j + n) + c (vn + n) + s.1) &&& m32)) (un + j) n = s.2.value (un + j) n := by
      refine Cells.value_congr fun i hi => ?_
      rw [Function.update_of_ne (by omega)]
    have hround := Nat.mod_add_div (c (un + j + n) + c (vn + n) + s.1).toNat (2 ^ 32)
    refine ⟨?_, ?_, fun i hi => ?_, fun x hx => ?_⟩
    · unfold Cells.value at hlow hvalue ⊢
      rw [Digits.value, Digits.value, Digits.value, hlow]
      unfold Cells.digit at hvalue ⊢
      rw [Function.update_self, toNat_and_m32, toNat_shiftRight, Nat.pow_succ']
      linear_combination hvalue + (2 ^ 32) ^ n * (hround + hsum)
    · rw [toNat_shiftRight, hsum]
      omega
    · unfold Cells.digit
      by_cases htop : i = n
      · rw [htop, Function.update_self, toNat_and_m32]
        exact Nat.mod_lt _ (by decide)
      · rw [Function.update_of_ne (by omega)]
        exact hdigits i (by omega)
    · rw [Function.update_of_ne (by omega), hoff x (by omega)]

/-! ## A digit of the quotient -/

/-- The two leading digits of a number and the weight of the second. -/
theorem value_two (c : Cells) (p k : Nat) (hc : c.IsDigits p k) :
    ((c (p + (k + 1))).toNat * 2 ^ 32 + (c (p + k)).toNat) * (2 ^ 32) ^ k ≤ c.value p (k + 2) ∧
      c.value p (k + 2) <
        ((c (p + (k + 1))).toNat * 2 ^ 32 + (c (p + k)).toNat + 1) * (2 ^ 32) ^ k := by
  have hlow := Cells.value_lt hc
  have hsplit : c.value p (k + 2) = c.value p k +
      ((c (p + (k + 1))).toNat * 2 ^ 32 + (c (p + k)).toNat) * (2 ^ 32) ^ k := by
    unfold Cells.value
    rw [Digits.value, Digits.value, Nat.pow_succ']
    unfold Cells.digit
    ring
  rw [hsplit, Nat.succ_mul]
  exact ⟨Nat.le_add_left _ _, by omega⟩

/-- The three leading digits. -/
theorem value_three (c : Cells) (p k : Nat) (hc : c.IsDigits p k) :
    (((c (p + (k + 2))).toNat * 2 ^ 32 + (c (p + (k + 1))).toNat) * 2 ^ 32 + (c (p + k)).toNat) *
        (2 ^ 32) ^ k ≤ c.value p (k + 3) ∧
      c.value p (k + 3) <
        (((c (p + (k + 2))).toNat * 2 ^ 32 + (c (p + (k + 1))).toNat) * 2 ^ 32 +
          (c (p + k)).toNat + 1) * (2 ^ 32) ^ k := by
  have hlow := Cells.value_lt hc
  have hsplit : c.value p (k + 3) = c.value p k +
      (((c (p + (k + 2))).toNat * 2 ^ 32 + (c (p + (k + 1))).toNat) * 2 ^ 32 + (c (p + k)).toNat) *
        (2 ^ 32) ^ k := by
    unfold Cells.value
    rw [Digits.value, Digits.value, Digits.value, Nat.pow_succ', Nat.pow_succ']
    unfold Cells.digit
    ring
  rw [hsplit, Nat.succ_mul]
  exact ⟨Nat.le_add_left _ _, by omega⟩

/-- The difference of small words, read with its sign. -/
theorem sub_slt_zero {a b : Word} (ha : a.toNat < 2 ^ 32) (hb : b.toNat ≤ 2 ^ 32) :
    (a - b).slt 0 = true ↔ a.toNat < b.toNat := by
  have hsub : (a - b).toNat = (2 ^ 64 - b.toNat + a.toNat) % 2 ^ 64 := BitVec.toNat_sub a b
  have hslt : (a - b).slt 0 = (a - b).msb := by
    rw [show (0 : Word) = 0#64 from rfl, BitVec.slt_zero_eq_msb]
  rw [hslt, BitVec.msb_eq_true_iff_two_mul_ge]
  omega

/-- What the step for digit `j` needs: the divisor with its top bit set, a window of the dividend
below its `2 ^ 32`-fold, and arrays that do not overlap. -/
structure DigitReady (q un vn n j : Nat) (c : Cells) : Prop where
  two : 2 ≤ n
  window : c.IsDigits (un + j) (n + 1)
  divisor : c.IsDigits vn n
  top : 2 ^ 31 ≤ (c (vn + (n - 1))).toNat
  below : c.value (un + j) (n + 1) < 2 ^ 32 * c.value vn n
  apart : un + (j + n) ≤ vn ∨ vn + n ≤ un + j
  quotient : q + j < un + j ∨ un + j + n < q + j
  quotient' : q + j < vn ∨ vn + n ≤ q + j

theorem DigitReady.leading (h : DigitReady q un vn n j c) :
    Leading (c.value vn n) (c.value (un + j) (n + 1)) ((2 ^ 32) ^ (n - 2))
      (c (vn + (n - 1))).toNat (c (vn + (n - 2))).toNat (c (un + (j + n))).toNat
      (c (un + (j + n - 1))).toNat (c (un + (j + n - 2))).toNat := by
  have hwindow := h.window
  have hdivisor := h.divisor
  have htwo := value_two c vn (n - 2) fun i hi => hdivisor i (by omega)
  have hthree := value_three c (un + j) (n - 2) fun i hi => hwindow i (by omega)
  have hn := h.two
  rw [show n - 2 + 1 = n - 1 by omega, show n - 2 + 2 = n by omega] at htwo
  rw [show un + j + (n - 2 + 2) = un + (j + n) by omega,
    show un + j + (n - 2 + 1) = un + (j + n - 1) by omega,
    show un + j + (n - 2) = un + (j + n - 2) by omega, show n - 2 + 3 = n + 1 by omega] at hthree
  have hat : ∀ i ≤ n, (c (un + (j + i))).toNat < 2 ^ 32 := by
    intro i hi
    rw [show un + (j + i) = un + j + i by omega]
    exact hwindow i (by omega)
  constructor
  · exact htwo.1
  · exact htwo.2
  · exact hthree.1
  · exact hthree.2
  · exact h.top
  · exact hdivisor (n - 1) (by omega)
  · exact hdivisor (n - 2) (by omega)
  · rw [show j + n - 1 = j + (n - 1) by omega]
    exact hat (n - 1) (by omega)
  · rw [show j + n - 2 = j + (n - 2) by omega]
    exact hat (n - 2) (by omega)
  · exact h.below

/-- What the step for digit `j` leaves: the digit of the quotient, and the remainder in the window. -/
structure DigitDone (q un vn n j : Nat) (c c' : Cells) : Prop where
  digit : (c' (q + j)).toNat = c.value (un + j) (n + 1) / c.value vn n
  rest : c'.value (un + j) (n + 1) = c.value (un + j) (n + 1) % c.value vn n
  digits : c'.IsDigits (un + j) (n + 1)
  off : ∀ x, x ≠ q + j → x < un + j ∨ un + j + n < x → c' x = c x

/-- The window with a new top digit. -/
theorem value_update_top {c : Cells} {p n : Nat} {w : Word} :
    Cells.value (Function.update c (p + n) w) p (n + 1) = c.value p n + w.toNat * (2 ^ 32) ^ n := by
  have hlow : Cells.value (Function.update c (p + n) w) p n = c.value p n :=
    Cells.value_congr fun i hi => Function.update_of_ne (by omega) _ _
  unfold Cells.value at hlow ⊢
  rw [Digits.value, hlow]
  unfold Cells.digit
  rw [Function.update_self]

theorem isDigits_update_top {c : Cells} {p n : Nat} {w : Word} (hc : c.IsDigits p n)
    (hw : w.toNat < 2 ^ 32) : Cells.IsDigits (Function.update c (p + n) w) p (n + 1) := by
  intro i hi
  unfold Cells.digit
  by_cases htop : i = n
  · rwa [htop, Function.update_self]
  · rw [Function.update_of_ne (by omega)]
    exact hc i (by omega)

/-- Writes of the quotient do not reach the window. -/
theorem value_update_off {c : Cells} {p n x : Nat} {w : Word} (hx : x < p ∨ p + n ≤ x) :
    Cells.value (Function.update c x w) p n = c.value p n :=
  Cells.value_congr fun i hi => Function.update_of_ne (by omega) _ _

theorem isDigits_update_off {c : Cells} {p n x : Nat} {w : Word} (hc : c.IsDigits p n)
    (hx : x < p ∨ p + n ≤ x) : Cells.IsDigits (Function.update c x w) p n := by
  intro i hi
  unfold Cells.digit
  rw [Function.update_of_ne (by omega)]
  exact hc i hi

/-- A quotient that is known up to the remainder it leaves. -/
theorem div_mod_of_split {W V e r : Nat} (hV : 0 < V) (hsplit : r + e * V = W) (hr : r < V) :
    W / V = e ∧ W % V = r := by
  rw [← hsplit, Nat.add_mul_div_right _ _ hV, Nat.div_eq_of_lt hr, Nat.zero_add,
    Nat.add_mul_mod_self_right, Nat.mod_eq_of_lt hr]
  exact ⟨rfl, rfl⟩

theorem quotientDigit_value {fuel : Nat} (h : DigitReady q un vn n j c) (hfuel : 3 ≤ fuel) :
    ∃ c', quotientDigit fuel q un vn n j (c (vn + (n - 1))) (c (vn + (n - 2))) c = .ok c' ∧
      DigitDone q un vn n j c c' := by
  have hlead := h.leading
  have hwindow := h.window
  have hapart := h.apart
  have hquot := h.quotient
  have hquot' := h.quotient'
  have hn := h.two
  obtain ⟨f, rfl⟩ : ∃ f, fuel = f + 1 := ⟨fuel - 1, by omega⟩
  -- the corrected estimate
  obtain ⟨qd, hcorrect, habove, hclose, hqd⟩ := correct_value f hlead (estimate_value hlead)
    (by
      have htop := Nat.mul_le_mul_left 2 h.top
      have hmul : 2 * (c (vn + (n - 1))).toNat ≤ f * (c (vn + (n - 1))).toNat :=
        Nat.mul_le_mul_right _ (by omega)
      omega)
  have hV : 0 < c.value vn n := by
    refine Nat.pos_of_ne_zero fun hz => ?_
    rw [hz, Nat.mul_zero] at habove
    exact Nat.not_lt_zero _ habove
  have hlow : c.IsDigits (un + j) n := fun i hi => hwindow i (by omega)
  -- what the subtraction leaves
  obtain ⟨hvalue, hk, hdigits, hoff⟩ := mulSub_value hqd hlow h.divisor (by omega)
  have hujn : (c (un + (j + n))).toNat < 2 ^ 32 := by
    rw [← Nat.add_assoc]
    exact hwindow n (Nat.lt_succ_self n)
  have hsplit : c.value (un + j) (n + 1) =
      c.value (un + j) n + (c (un + (j + n))).toNat * (2 ^ 32) ^ n := by
    unfold Cells.value
    rw [Digits.value]
    unfold Cells.digit
    rw [Nat.add_assoc]
  have hVlt := Cells.value_lt h.divisor
  unfold quotientDigit
  dsimp only
  rw [hcorrect]
  dsimp only [bind, Except.bind]
  have hplace : un + (j + n) = un + j + n := (Nat.add_assoc un j n).symm
  have hnew := Cells.value_lt hdigits
  have hvn : (mulSub un vn j qd n c).2.value vn n = c.value vn n :=
    Cells.value_congr fun i hi => hoff _ (by omega)
  have hvnDigits : (mulSub un vn j qd n c).2.IsDigits vn n := by
    intro i hi
    unfold Cells.digit
    rw [hoff _ (by omega)]
    exact h.divisor i hi
  generalize mulSub un vn j qd n c = s at *
  rw [hplace] at hujn hsplit ⊢
  generalize c (un + j + n) = ujn at *
  by_cases hneg : ujn.toNat < s.1.toNat
  · rw [if_pos ((sub_slt_zero hujn hk).mpr hneg)]
    -- the estimate is one too large, and the divisor is added back
    have habove' : c.value (un + j) (n + 1) < qd.toNat * c.value vn n := by
      obtain ⟨e, he⟩ := Nat.exists_eq_add_of_lt hneg
      have hmul : (ujn.toNat + e + 1) * (2 ^ 32) ^ n =
          ujn.toNat * (2 ^ 32) ^ n + e * (2 ^ 32) ^ n + (2 ^ 32) ^ n := by ring
      rw [he, hmul] at hvalue
      omega
    have hpos : 0 < qd.toNat := by
      refine Nat.pos_of_ne_zero fun hz => ?_
      rw [hz, Nat.zero_mul] at habove'
      exact Nat.not_lt_zero _ habove'
    have hpred : (qd - 1).toNat = qd.toNat - 1 := BitVec.toNat_sub_of_le hpos
    obtain ⟨d, hd⟩ := Nat.exists_eq_add_of_le' hpos
    rw [hd, Nat.add_sub_cancel] at hclose
    rw [hd] at habove' hvalue
    obtain ⟨rest, hrest⟩ := Nat.exists_eq_add_of_le hclose
    have hrestlt : rest < c.value vn n := by
      rw [hrest, Nat.succ_mul] at habove'
      omega
    obtain ⟨hdiv, hmod⟩ := div_mod_of_split (e := d) hV ((Nat.add_comm _ _).trans hrest.symm) hrestlt
    have hback := addBack_value (c := Function.update s.2 (q + j) (qd - 1))
      (isDigits_update_off hdigits (by omega)) (isDigits_update_off hvnDigits (by omega)) (by omega)
    rw [value_update_off (by omega), value_update_off (by omega), hvn] at hback
    obtain ⟨hsum, hcarry, hdigits', hoff'⟩ := hback
    have hnew' := Cells.value_lt hdigits'
    generalize addBack un vn j n (Function.update s.2 (q + j) (qd - 1)) = t at *
    -- the remainder and the carry are determined by the sum
    have htotal : t.2.value (un + j) n + (t.1.toNat + ujn.toNat) * (2 ^ 32) ^ n =
        rest + s.1.toNat * (2 ^ 32) ^ n := by
      rw [hsplit] at hrest
      linear_combination hsum + hvalue + hrest
    have hbase : 0 < (2 ^ 32) ^ n := Nat.pow_pos (Nat.two_pow_pos 32)
    obtain ⟨hdiv₁, hmod₁⟩ := div_mod_of_split hbase htotal.symm (hrestlt.trans hVlt)
    obtain ⟨hdiv₂, hmod₂⟩ := div_mod_of_split hbase rfl hnew'
    have hcarry' : t.1.toNat + ujn.toNat = s.1.toNat := hdiv₂.symm.trans hdiv₁
    have hlower : t.2.value (un + j) n = rest := hmod₂.symm.trans hmod₁
    have htop : ujn - s.1 + t.1 = 0 := by
      refine BitVec.eq_of_toNat_eq ?_
      have hsub : (ujn - s.1).toNat = (2 ^ 64 - s.1.toNat + ujn.toNat) % 2 ^ 64 :=
        BitVec.toNat_sub ujn s.1
      rw [BitVec.toNat_add, hsub, Nat.mod_add_mod,
        show 2 ^ 64 - s.1.toNat + ujn.toNat + t.1.toNat = 2 ^ 64 by omega]
      rfl
    refine ⟨_, rfl, ?_, ?_, ?_, fun x hx hx' => ?_⟩
    · rw [Function.update_of_ne (by omega), hoff' _ (by omega), Function.update_self, hpred, hd,
        Nat.add_sub_cancel, hdiv]
    · rw [value_update_top, htop, hlower, hmod, show ((0 : Word) &&& m32).toNat = 0 from rfl,
        Nat.zero_mul, Nat.add_zero]
    · exact isDigits_update_top hdigits' (by rw [toNat_and_m32]; exact Nat.mod_lt _ (by decide))
    · rw [Function.update_of_ne (by omega), hoff' x (by omega), Function.update_of_ne hx,
        hoff x (by omega)]
  · rw [if_neg fun hslt => hneg ((sub_slt_zero hujn hk).mp hslt)]
    have hsub : (ujn - s.1).toNat = ujn.toNat - s.1.toNat :=
      BitVec.toNat_sub_of_le (Nat.not_lt.mp hneg)
    obtain ⟨e, he⟩ := Nat.exists_eq_add_of_le (Nat.not_lt.mp hneg)
    have hrest : s.2.value (un + j) n + e * (2 ^ 32) ^ n + qd.toNat * c.value vn n =
        c.value (un + j) (n + 1) := by
      rw [hsplit, he]
      linear_combination hvalue
    have hlt : s.2.value (un + j) n + e * (2 ^ 32) ^ n < c.value vn n := by
      rw [← hrest, Nat.succ_mul] at habove
      omega
    obtain ⟨hdiv, hmod⟩ := div_mod_of_split hV hrest hlt
    refine ⟨_, rfl, ?_, ?_, ?_, fun x hx hx' => ?_⟩
    · rw [Function.update_of_ne (by omega), Function.update_self, hdiv]
    · rw [value_update_top, value_update_off (by omega), hsub, he, Nat.add_sub_cancel_left, hmod]
    · exact isDigits_update_top (isDigits_update_off hdigits (by omega)) (by omega)
    · rw [Function.update_of_ne (by omega), Function.update_of_ne hx, hoff x (by omega)]

/-! ## The digits of the quotient -/

/-- What the steps for the lower `k` digits of the quotient need. -/
structure DigitsReady (q un vn n k : Nat) (c : Cells) : Prop where
  two : 2 ≤ n
  window : c.IsDigits un (k + n)
  divisor : c.IsDigits vn n
  top : 2 ^ 31 ≤ (c (vn + (n - 1))).toNat
  below : c.value (un + k) n < c.value vn n
  apart : un + (k + n) ≤ vn ∨ vn + n ≤ un
  quotient : q + k ≤ un ∨ un + (k + n) ≤ q
  quotient' : q + k ≤ vn ∨ vn + n ≤ q

/-- What they leave: the quotient, and the remainder in the lowest window. -/
structure DigitsDone (q un vn n k : Nat) (c c' : Cells) : Prop where
  quotient : c'.value q k = c.value un (k + n) / c.value vn n
  quotientDigits : c'.IsDigits q k
  rest : c'.value un n = c.value un (k + n) % c.value vn n
  restDigits : c'.IsDigits un (k + n)
  top : 0 < k → c' (un + n) = 0
  off : ∀ x, x < q ∨ q + k ≤ x → x < un ∨ un + (k + n) ≤ x → c' x = c x

theorem Cells.value_split (c : Cells) (p k n : Nat) :
    c.value p (k + n) = c.value p k + (2 ^ 32) ^ k * c.value (p + k) n := by
  unfold value
  rw [Digits.value_add]
  congr 2
  refine Digits.value_congr fun i _ => ?_
  unfold digit
  rw [Nat.add_assoc]

/-- The window for the next digit is below the `2 ^ 32`-fold of the divisor. -/
theorem DigitsReady.digitReady (h : DigitsReady q un vn n (k + 1) c) :
    DigitReady q un vn n k c := by
  have hwindow := h.window
  have hapart := h.apart
  have hquot := h.quotient
  have hquot' := h.quotient'
  have hn := h.two
  have hdigits : c.IsDigits (un + k) (n + 1) := by
    intro i hi
    have hdigit := hwindow (k + i) (by omega)
    unfold Cells.digit at hdigit ⊢
    rwa [Nat.add_assoc]
  refine ⟨hn, hdigits, h.divisor, h.top, ?_, by omega, by omega, by omega⟩
  have hbelow := h.below
  have hlow : c.value (un + k) 1 < 2 ^ 32 := by
    have := Cells.value_lt (c := c) (p := un + k) (n := 1) fun i hi => hdigits i (by omega)
    rwa [Nat.pow_one] at this
  rw [Nat.add_comm n 1, Cells.value_split, Nat.pow_one, Nat.add_assoc un k 1]
  omega

/-- After a digit the steps for the lower ones can go on. -/
theorem DigitDone.ready {c' : Cells} (h : DigitsReady q un vn n (k + 1) c)
    (hdone : DigitDone q un vn n k c c') :
    DigitsReady q un vn n k c' ∧ c'.value vn n = c.value vn n ∧ c' (un + (k + n)) = 0 := by
  have hwindow := h.window
  have hapart := h.apart
  have hquot := h.quotient
  have hquot' := h.quotient'
  have hn := h.two
  have hdigits := hdone.digits
  have hVlt := Cells.value_lt h.divisor
  have hV : 0 < c.value vn n := Nat.zero_lt_of_lt h.below
  have hvn : ∀ i < n, c' (vn + i) = c (vn + i) := fun i hi => hdone.off _ (by omega) (by omega)
  have hvalue : c'.value vn n = c.value vn n := Cells.value_congr hvn
  -- the remainder is below the divisor, so its top digit is zero
  have hsplit : c'.value (un + k) (n + 1) =
      c'.value (un + k) n + (2 ^ 32) ^ n * c'.value (un + k + n) 1 := Cells.value_split _ _ _ _
  have hone : c'.value (un + k + n) 1 = (c' (un + (k + n))).toNat := by
    unfold Cells.value
    rw [Digits.value_one]
    unfold Cells.digit
    rw [Nat.add_zero, Nat.add_assoc]
  have hrest : c'.value (un + k) (n + 1) < c.value vn n := by
    rw [hdone.rest]
    exact Nat.mod_lt _ hV
  have hzero : (c' (un + (k + n))).toNat = 0 := by
    refine Nat.eq_zero_of_not_pos fun hpos => ?_
    have hmul := Nat.mul_le_mul_left ((2 ^ 32) ^ n) hpos
    rw [hsplit, hone] at hrest
    rw [Nat.succ_eq_add_one, Nat.zero_add, Nat.mul_one] at hmul
    omega
  refine ⟨⟨hn, fun i hi => ?_, fun i hi => ?_, ?_, ?_, by omega, by omega, by omega⟩, hvalue,
    BitVec.eq_of_toNat_eq hzero⟩
  · by_cases hlow : i < k
    · unfold Cells.digit
      rw [hdone.off _ (by omega) (by omega)]
      exact hwindow i (by omega)
    · have hdigit := hdigits (i - k) (by omega)
      unfold Cells.digit at hdigit ⊢
      rwa [show un + k + (i - k) = un + i by omega] at hdigit
  · unfold Cells.digit
    rw [hvn i hi]
    exact h.divisor i hi
  · rw [hvn (n - 1) (by omega)]
    exact h.top
  · rw [hvalue]
    exact Nat.lt_of_le_of_lt (Nat.le_add_right _ _) (hsplit ▸ hrest)

/-- The digits of the quotient from the top, by induction on the number of digits to come. -/
theorem quotientDigits_value {fuel : Nat} (h : DigitsReady q un vn n k c) (hfuel : 3 ≤ fuel) :
    ∃ c', quotientDigits fuel q un vn n (c (vn + (n - 1))) (c (vn + (n - 2))) k c = .ok c' ∧
      DigitsDone q un vn n k c c' := by
  induction k generalizing c with
  | zero =>
    have hbelow := h.below
    have hwindow := h.window
    rw [Nat.add_zero] at hbelow
    rw [Nat.zero_add] at hwindow
    refine ⟨c, rfl, ?_, fun i hi => absurd hi (Nat.not_lt_zero i), ?_, ?_,
      fun hpos => absurd hpos (Nat.lt_irrefl 0), fun x _ _ => rfl⟩
    · rw [Nat.zero_add, Nat.div_eq_of_lt hbelow]
      rfl
    · rw [Nat.zero_add, Nat.mod_eq_of_lt hbelow]
    · rwa [Nat.zero_add]
  | succ k ih =>
    have hready := h.digitReady
    have hapart := h.apart
    have hquot := h.quotient
    have hquot' := h.quotient'
    have hn := h.two
    have hV : 0 < c.value vn n := Nat.zero_lt_of_lt h.below
    obtain ⟨c₁, hrun, hdone⟩ := quotientDigit_value hready hfuel
    obtain ⟨hready₁, hvn, hzero⟩ := hdone.ready h
    have hvtop : c₁ (vn + (n - 1)) = c (vn + (n - 1)) := hdone.off _ (by omega) (by omega)
    have hvsec : c₁ (vn + (n - 2)) = c (vn + (n - 2)) := hdone.off _ (by omega) (by omega)
    obtain ⟨c₂, hrun₂, hdone₂⟩ := ih hready₁
    rw [hvtop, hvsec] at hrun₂
    refine ⟨c₂, ?_, ?_⟩
    · rw [quotientDigits, hrun]
      exact hrun₂
    have hquotient := hdone₂.quotient
    have hrest := hdone₂.rest
    have hrestDigits := hdone₂.restDigits
    have hoff := hdone₂.off
    -- the dividend before the step, with the digit of the quotient split off
    have hlow : c₁.value un k = c.value un k :=
      Cells.value_congr fun i hi => hdone.off _ (by omega) (by omega)
    have htop : c₁.value (un + k) n = c₁.value (un + k) (n + 1) := by
      rw [Cells.value_split _ _ n 1]
      unfold Cells.value
      rw [Digits.value_one]
      unfold Cells.digit
      rw [Nat.add_zero, Nat.add_assoc un k n, hzero]
      exact (congrArg (_ + ·) (Nat.mul_zero _)).symm
    have hsplit : c.value un (k + 1 + n) = c₁.value un (k + n) +
        (2 ^ 32) ^ k * (c₁ (q + k)).toNat * c.value vn n := by
      rw [show k + 1 + n = k + (n + 1) by omega, Cells.value_split, Cells.value_split c₁, hlow, htop,
        hdone.rest, hdone.digit]
      have hdivmod := Nat.mod_add_div (c.value (un + k) (n + 1)) (c.value vn n)
      linear_combination (2 ^ 32) ^ k * hdivmod.symm
    rw [hvn] at hquotient hrest
    have hdigit : c₂ (q + k) = c₁ (q + k) := hoff _ (by omega) (by omega)
    refine ⟨?_, fun i hi => ?_, ?_, fun i hi => ?_, fun _ => ?_, fun x hx hx' => ?_⟩
    · rw [hsplit, Nat.add_mul_div_right _ _ hV, ← hquotient, ← hdigit]
      unfold Cells.value
      rw [Digits.value, Nat.mul_comm]
      rfl
    · by_cases hik : i = k
      · subst hik
        unfold Cells.digit
        rw [hdigit, hdone.digit]
        exact Nat.div_lt_of_lt_mul (by rw [Nat.mul_comm]; exact hready.below)
      · exact hdone₂.quotientDigits i (by omega)
    · rw [hsplit, Nat.add_mul_mod_self_right, hrest]
    · by_cases hik : i = k + n
      · subst hik
        unfold Cells.digit
        rw [hoff _ (by omega) (by omega), hzero]
        exact Nat.two_pow_pos 32
      · exact hrestDigits i (by omega)
    · by_cases hk : 0 < k
      · exact hdone₂.top hk
      · obtain rfl : k = 0 := by omega
        rw [hoff _ (by omega) (by omega), ← hzero, Nat.zero_add]
    · rw [hoff x (by omega) (by omega), hdone.off x (by omega) (by omega)]

/-! ## Division by one digit -/

theorem divDigit_value {d : Word} (rest : Word) {j : Nat} (hd : d.toNat < 2 ^ 32) (hk : rest.toNat < d.toNat)
    (hu : c.IsDigits u j) (hdisj : q + j ≤ u ∨ u + j ≤ q) :
    let s := divDigit q u d j rest c
    s.2.value q j * d.toNat + s.1.toNat = rest.toNat * (2 ^ 32) ^ j + c.value u j ∧
      s.1.toNat < d.toNat ∧ s.2.IsDigits q j ∧ ∀ x, x < q ∨ q + j ≤ x → s.2 x = c x := by
  induction j generalizing rest c with
  | zero =>
    refine ⟨?_, hk, fun i hi => absurd hi (Nat.not_lt_zero i), fun x _ => rfl⟩
    rw [Nat.pow_zero, Nat.mul_one, Nat.add_comm]
    exact congrArg (rest.toNat + ·) (Nat.zero_mul d.toNat)
  | succ j ih =>
    obtain ⟨hdiv, hlt, hdigit⟩ := div64by32_value hd hk (hu j (Nat.lt_succ_self j))
    rw [divDigit]
    dsimp only
    generalize div64by32 rest (c (u + j)) d = qr at *
    have hu' : Cells.IsDigits (Function.update c (q + j) qr.1) u j :=
      isDigits_update_off (fun i hi => hu i (by omega)) (by omega)
    obtain ⟨hvalue, hrest, hdigits, hoff⟩ := ih qr.2 hlt hu' (by omega)
    rw [value_update_off (by omega)] at hvalue
    generalize divDigit q u d j qr.2 (Function.update c (q + j) qr.1) = s at *
    have htop : s.2 (q + j) = qr.1 := by
      rw [hoff _ (by omega), Function.update_self]
    refine ⟨?_, hrest, fun i hi => ?_, fun x hx => ?_⟩
    · unfold Cells.value at hvalue ⊢
      rw [Digits.value, Digits.value]
      unfold Cells.digit at hvalue ⊢
      rw [htop, Nat.pow_succ']
      linear_combination hvalue + (2 ^ 32) ^ j * hdiv
    · by_cases hij : i = j
      · subst hij
        unfold Cells.digit
        rwa [htop]
      · exact hdigits i (by omega)
    · rw [hoff x (by omega), Function.update_of_ne (by omega)]

theorem zeroDigits_at {p i x : Nat} (hx : p ≤ x) (hi : x < p + i) : zeroDigits p i c x = 0 := by
  induction i with
  | zero => omega
  | succ i ih =>
    rw [zeroDigits]
    by_cases htop : x = p + i
    · rw [htop, Function.update_self]
    · rw [Function.update_of_ne htop, ih (by omega)]

theorem zeroDigits_off {p i x : Nat} (hx : x < p ∨ p + i ≤ x) : zeroDigits p i c x = c x := by
  induction i with
  | zero => rfl
  | succ i ih => rw [zeroDigits, Function.update_of_ne (by omega), ih (by omega)]

/-! ## The whole division -/

/-- The arrays of a division do not overlap where one is read after another is written. -/
structure Layout (q r u m v n un vn : Nat) : Prop where
  quotient_dividend : q + m ≤ u ∨ u + m ≤ q
  quotient_rest : q + m ≤ r ∨ r + n ≤ q
  dividend_un : u + m ≤ un ∨ un + m < u
  dividend_vn : u + m ≤ vn ∨ vn + n ≤ u
  divisor_vn : v + n ≤ vn ∨ vn + n ≤ v
  un_vn : un + m < vn ∨ vn + n ≤ un
  quotient_un : q + m ≤ un ∨ un + m < q
  quotient_vn : q + m ≤ vn ∨ vn + n ≤ q
  rest_un : r + n ≤ un ∨ un + m < r

theorem Layout.restDown (h : Layout q r u m v n un vn) (hnm : n ≤ m) :
    r + n ≤ un ∨ un + n < r := by
  have := h.rest_un
  omega

/-- The result of a division: the quotient, the remainder, and nothing written besides the four
arrays. -/
structure Divided (q r u m v n un vn : Nat) (c c' : Cells) : Prop where
  quotient : c'.value q m = c.value u m / c.value v n
  quotientDigits : c'.IsDigits q m
  rest : c'.value r n = c.value u m % c.value v n
  restDigits : c'.IsDigits r n
  off : ∀ x, x < q ∨ q + m ≤ x → x < r ∨ r + n ≤ x → x < un ∨ un + m < x →
    x < vn ∨ vn + n ≤ x → c' x = c x

theorem divDigit_divided (un vn : Nat) (hqu : q + m ≤ u ∨ u + m ≤ q) (hqr : q + m ≤ r ∨ r + 1 ≤ q)
    (hu : c.IsDigits u m) (hv : c.IsDigits v 1) (htop : c v ≠ 0) :
    Divided q r u m v 1 un vn c
      (Function.update (divDigit q u (c v) m 0 c).2 r (divDigit q u (c v) m 0 c).1) := by
  have hd : (c v).toNat < 2 ^ 32 := hv 0 (by decide)
  have hpos : 0 < (c v).toNat := Nat.pos_of_ne_zero fun hz => htop (BitVec.eq_of_toNat_eq hz)
  have hone : ∀ (c : Cells) p, c.value p 1 = (c p).toNat := fun c p => Digits.value_one _ _
  obtain ⟨hvalue, hrest, hdigits, hoff⟩ := divDigit_value 0 hd hpos hu hqu
  generalize divDigit q u (c v) m 0 c = s at *
  rw [show (0 : Word).toNat = 0 from rfl, Nat.zero_mul, Nat.zero_add, Nat.add_comm] at hvalue
  obtain ⟨hquotient, hmod⟩ := div_mod_of_split hpos hvalue hrest
  refine ⟨?_, isDigits_update_off hdigits (by omega), ?_, fun i hi => ?_, fun x hx hx' _ _ => ?_⟩
  · rw [value_update_off (by omega), hone, hquotient]
  · rw [hone, hone, Function.update_self, hmod]
  · obtain rfl : i = 0 := by omega
    unfold Cells.digit
    rw [Nat.add_zero, Function.update_self]
    exact hrest.trans hd
  · rw [Function.update_of_ne (by omega), hoff x hx]

/-- The divisor and the dividend as the digits of the quotient are computed from them. -/
structure Normalised (u m v n un vn s : Nat) (c c' : Cells) : Prop where
  divisor : c'.value vn n = c.value v n * 2 ^ s
  dividend : c'.value un (m + 1) = c.value u m * 2 ^ s
  divisorDigits : c'.IsDigits vn n
  dividendDigits : c'.IsDigits un (m + 1)
  top : 2 ^ 31 ≤ (c' (vn + (n - 1))).toNat
  off : ∀ x, x < un ∨ un + m < x → x < vn ∨ vn + n ≤ x → c' x = c x

theorem normalised (h : Layout q r u m v n un vn) (hn : 2 ≤ n) (hnm : n ≤ m)
    (hu : c.IsDigits u m) (hv : c.IsDigits v n) (htop : c (v + (n - 1)) ≠ 0) :
    let s := nlz32 (c (v + (n - 1)))
    let c₁ := shiftUp vn v s (n - 1) c
    Normalised u m v n un vn s.toNat c (shiftUp un u s (m - 1)
      (Function.update c₁ (un + m) (c₁ (u + (m - 1)) >>> (32 - s).toNat))) := by
  have hvtop : (c (v + (n - 1))).toNat < 2 ^ 32 := hv (n - 1) (by omega)
  obtain ⟨hs, hlow, hhigh⟩ := nlz32_value htop hvtop
  generalize nlz32 (c (v + (n - 1))) = s at *
  have h₁ := h.dividend_un
  have h₂ := h.dividend_vn
  have h₃ := h.divisor_vn
  have h₄ := h.un_vn
  obtain ⟨n, rfl⟩ : ∃ k, n = k + 1 := ⟨n - 1, by omega⟩
  obtain ⟨m, rfl⟩ : ∃ k, m = k + 1 := ⟨m - 1, by omega⟩
  rw [Nat.add_sub_cancel] at *
  dsimp only
  rw [Nat.add_sub_cancel]
  have hV := value_shiftUp (k := n) vn v hs (by omega) hv
  have hVdigits : (shiftUp vn v s n c).IsDigits vn (n + 1) := shiftUp_isDigits (by omega)
  have hu₁ : ∀ i < m + 1, shiftUp vn v s n c (u + i) = c (u + i) := fun i hi => shiftUp_off (by omega)
  have hvnTop : (shiftUp vn v s n c (vn + n)).toNat + 2 ^ 32 * carried c v s (n + 1) =
      (c (v + n)).toNat * 2 ^ s.toNat + carried c v s n := by
    rw [shiftUp_at (by omega) (Nat.le_refl n)]
    exact toNat_shiftedDigit hs fun l hl => hv l (by omega)
  have hcarried : carried c v s (n + 1) = 0 := by
    refine Nat.div_eq_of_lt ?_
    rw [← Nat.sub_add_cancel (m := s.toNat) (n := 32) (by omega), Nat.pow_add] at hhigh
    exact Nat.lt_of_mul_lt_mul_right hhigh
  have hoff₁ : ∀ x, x < vn ∨ vn + (n + 1) ≤ x → shiftUp vn v s n c x = c x :=
    fun x hx => shiftUp_off (by omega)
  generalize shiftUp vn v s n c = c₁ at *
  rw [hcarried, Nat.zero_mul, Nat.add_zero] at hV
  rw [hcarried, Nat.mul_zero, Nat.add_zero] at hvnTop
  -- the digits of the dividend, with what the top one carries above them
  have hu₂ : ∀ i < m + 1,
      Function.update c₁ (un + (m + 1)) (c₁ (u + m) >>> (32 - s).toNat) (u + i) = c (u + i) :=
    fun i hi => by rw [Function.update_of_ne (by omega), hu₁ i hi]
  have hU := value_shiftUp (c := Function.update c₁ (un + (m + 1)) (c₁ (u + m) >>> (32 - s).toNat))
    (k := m) un u hs (by omega) fun i hi => by
      unfold Cells.digit
      rw [hu₂ i hi]
      exact hu i hi
  rw [Cells.value_congr hu₂, carried, hu₂ m (Nat.lt_succ_self m)] at hU
  have htopU : (c₁ (u + m) >>> (32 - s).toNat).toNat = (c (u + m)).toNat / 2 ^ (32 - s.toNat) := by
    rw [hu₁ m (Nat.lt_succ_self m), toNat_shiftRight, toNat_32_sub hs]
  have hUdigits : (shiftUp un u s m (Function.update c₁ (un + (m + 1))
      (c₁ (u + m) >>> (32 - s).toNat))).IsDigits un (m + 1) := shiftUp_isDigits (by omega)
  have htopAt : shiftUp un u s m (Function.update c₁ (un + (m + 1))
      (c₁ (u + m) >>> (32 - s).toNat)) (un + (m + 1)) = c₁ (u + m) >>> (32 - s).toNat := by
    rw [shiftUp_off (by omega), Function.update_self]
  have hvn : ∀ i < n + 1, shiftUp un u s m (Function.update c₁ (un + (m + 1))
      (c₁ (u + m) >>> (32 - s).toNat)) (vn + i) = c₁ (vn + i) := fun i hi => by
    rw [shiftUp_off (by omega), Function.update_of_ne (by omega)]
  have hoff₂ : ∀ x, x < un ∨ un + (m + 1) < x → x < vn ∨ vn + (n + 1) ≤ x →
      shiftUp un u s m (Function.update c₁ (un + (m + 1)) (c₁ (u + m) >>> (32 - s).toNat)) x = c x :=
    fun x hx hx' => by rw [shiftUp_off (by omega), Function.update_of_ne (by omega), hoff₁ x hx']
  generalize shiftUp un u s m (Function.update c₁ (un + (m + 1)) (c₁ (u + m) >>> (32 - s).toNat)) =
    c₂ at *
  rw [← htopAt] at htopU
  refine ⟨?_, ?_, fun i hi => ?_, fun i hi => ?_, ?_, hoff₂⟩
  · rw [Cells.value_congr hvn, hV]
  · rw [Cells.value_succ, htopU, hU]
  · unfold Cells.digit
    rw [hvn i hi]
    exact hVdigits i hi
  · by_cases him : i = m + 1
    · subst him
      have hle := Nat.div_le_self (c (u + m)).toNat (2 ^ (32 - s.toNat))
      have hlt : (c (u + m)).toNat < 2 ^ 32 := hu m (Nat.lt_succ_self m)
      unfold Cells.digit
      omega
    · exact hUdigits i (by omega)
  · rw [Nat.add_sub_cancel, hvn n (Nat.lt_succ_self n), hvnTop]
    omega

/-- The leading digits of a dividend that is normalised are below the divisor. -/
theorem Normalised.ready {c' : Cells} {s : Nat} (hnorm : Normalised u m v n un vn s c c')
    (h : Layout q r u m v n un vn) (hn : 2 ≤ n) (hnm : n ≤ m) (hs : s ≤ 31) (hu : c.IsDigits u m) :
    DigitsReady q un vn n (m - n + 1) c' := by
  have h₁ := h.un_vn
  have h₂ := h.quotient_un
  have h₃ := h.quotient_vn
  refine ⟨hn, ?_, hnorm.divisorDigits, hnorm.top, ?_, by omega, by omega, by omega⟩
  · rw [show m - n + 1 + n = m + 1 by omega]
    exact hnorm.dividendDigits
  -- the dividend is below `2 ^ s` times a power of the base, the divisor at least `2 ^ 31` times
  have hdividend := hnorm.dividend
  rw [show m + 1 = m - n + 1 + n by omega, Cells.value_split] at hdividend
  have hlt : (2 ^ 32) ^ (m - n + 1) * c'.value (un + (m - n + 1)) n <
      (2 ^ 32) ^ (m - n + 1) * ((2 ^ 32) ^ (n - 1) * 2 ^ s) := by
    rw [← Nat.mul_assoc, ← Nat.pow_add, show m - n + 1 + (n - 1) = m by omega]
    refine Nat.lt_of_le_of_lt (Nat.le_add_left _ (c'.value un (m - n + 1))) ?_
    rw [hdividend]
    exact Nat.mul_lt_mul_of_pos_right (Cells.value_lt hu) (Nat.two_pow_pos s)
  have hdivisor : (2 ^ 32) ^ (n - 1) * 2 ^ s ≤ c'.value vn n := by
    rw [show n = n - 1 + 1 by omega, Cells.value_succ, Nat.add_sub_cancel,
      Nat.mul_comm _ (2 ^ s)]
    refine Nat.le_trans (Nat.mul_le_mul_right _ ?_) (Nat.le_add_left _ _)
    exact (Nat.pow_le_pow_right (by decide) hs).trans hnorm.top
  exact Nat.lt_of_lt_of_le (Nat.lt_of_mul_lt_mul_left hlt) hdivisor

/-- Quotient and remainder are exact, whatever the digits are. -/
theorem bnDivmnu_value {fuel : Nat} (h : Layout q r u m v n un vn) (hn : 1 ≤ n) (hnm : n ≤ m)
    (hu : c.IsDigits u m) (hv : c.IsDigits v n) (htop : c (v + (n - 1)) ≠ 0) (hfuel : 3 ≤ fuel) :
    ∃ c', bnDivmnu fuel q r u m v n un vn c = .ok c' ∧ Divided q r u m v n un vn c c' := by
  unfold bnDivmnu
  by_cases hone : n = 1
  · subst hone
    rw [if_pos rfl]
    exact ⟨_, rfl, divDigit_divided un vn h.quotient_dividend h.quotient_rest hu hv htop⟩
  rw [if_neg hone]
  have htwo : 2 ≤ n := by omega
  obtain ⟨hs, -, -⟩ := nlz32_value htop (hv (n - 1) (by omega))
  have hnorm := normalised h htwo hnm hu hv htop
  dsimp only at hnorm ⊢
  generalize nlz32 (c (v + (n - 1))) = s at *
  generalize shiftUp un u s (m - 1) (Function.update (shiftUp vn v s (n - 1) c) (un + m)
    (shiftUp vn v s (n - 1) c (u + (m - 1)) >>> (32 - s).toNat)) = c₁ at *
  obtain ⟨c₂, hrun, hdone⟩ := quotientDigits_value (hnorm.ready h htwo hnm hs hu) hfuel
  rw [hrun]
  refine ⟨_, rfl, ?_⟩
  have h₁ := h.quotient_rest
  have h₂ := h.quotient_un
  have h₃ := h.rest_un
  have hlen : m - n + 1 + n = m + 1 := by omega
  have hquotient := hdone.quotient
  have hrest := hdone.rest
  have hrestDigits := hdone.restDigits
  have htopZero := hdone.top (Nat.succ_pos _)
  rw [hlen, hnorm.dividend, hnorm.divisor] at hquotient hrest
  rw [Nat.mul_div_mul_right _ _ (Nat.two_pow_pos _)] at hquotient
  rw [Nat.mul_mod_mul_right] at hrest
  have hun : ∀ i ≤ n, zeroDigits (q + (m - n + 1)) (n - 1) c₂ (un + i) = c₂ (un + i) :=
    fun i hi => zeroDigits_off (by omega)
  have hunDigits : (zeroDigits (q + (m - n + 1)) (n - 1) c₂).IsDigits un (n + 1) := by
    intro i hi
    unfold Cells.digit
    rw [hun i (by omega)]
    exact hrestDigits i (by omega)
  have hrestDone := value_shiftDown hs (h.restDown hnm) hunDigits
  have hrestDoneDigits := shiftDown_isDigits hs (h.restDown hnm) hunDigits
  unfold Cells.digit at hrestDone
  rw [Cells.value_congr fun i hi => hun i (Nat.le_of_lt hi), hun n (Nat.le_refl n), htopZero,
    show (0 : Word).toNat = 0 from rfl, Nat.zero_mod, Nat.zero_mul, Nat.add_zero, hrest,
    Nat.add_comm] at hrestDone
  have hzero : ∀ i, m - n + 1 ≤ i → i < m →
      zeroDigits (q + (m - n + 1)) (n - 1) c₂ (q + i) = 0 := fun i hi him =>
    zeroDigits_at (by omega) (by omega)
  have hlow : ∀ i < m - n + 1, zeroDigits (q + (m - n + 1)) (n - 1) c₂ (q + i) = c₂ (q + i) :=
    fun i hi => zeroDigits_off (by omega)
  have hoff : ∀ x, x < q ∨ q + m ≤ x → zeroDigits (q + (m - n + 1)) (n - 1) c₂ x = c₂ x :=
    fun x hx => zeroDigits_off (by omega)
  generalize zeroDigits (q + (m - n + 1)) (n - 1) c₂ = c₃ at *
  have hq : ∀ i < m, shiftDown r un s n c₃ (q + i) = c₃ (q + i) := fun i hi => shiftDown_off (by omega)
  refine ⟨?_, fun i hi => ?_, ?_, hrestDoneDigits, fun x hx hx' hx₁ hx₂ => ?_⟩
  · rw [Cells.value_congr hq, ← hquotient, ← Cells.value_congr hlow]
    exact Digits.value_of_zero_above (by omega) fun i hi him =>
      congrArg BitVec.toNat (hzero i hi him)
  · unfold Cells.digit
    rw [hq i hi]
    by_cases him : i < m - n + 1
    · rw [hlow i him]
      exact hdone.quotientDigits i him
    · rw [hzero i (by omega) hi]
      exact Nat.two_pow_pos 32
  · obtain ⟨hdiv, -⟩ := div_mod_of_split (Nat.two_pow_pos s.toNat) hrestDone
      (Nat.mod_lt _ (Nat.two_pow_pos s.toNat))
    rw [← hdiv, Nat.add_zero, Nat.mul_div_cancel _ (Nat.two_pow_pos s.toNat)]
  · rw [shiftDown_off (by omega), hoff x hx, hdone.off x (by omega) (by omega), hnorm.off x hx₁ hx₂]

end

end StatelessGuest.Limb
