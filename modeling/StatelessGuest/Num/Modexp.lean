import StatelessGuest.Num.DivMod

/-!
# Modular powers of long numbers

The operands are byte strings. They are turned into digits in arrays on the heap, and the power is
computed by squaring and multiplying from the top bit of the exponent on, each product reduced.

* `bnFromBe`, `bnToBe`, `bnMul`, `bnMod`, `beTopBit`, `modexp`.
* `value_bnFromBe`, `bnToBe_eq`: digits and bytes of the same number.
* `value_bnMul`: the product; `bnMod_value`: the remainder.
* `modexp_value`: the power, and only the arrays that were allocated are written.
-/

namespace StatelessGuest.Limb

open Lib

/-! ## The code -/

/-- `while i < nbytes`: the bytes from the most significant one on, after `i` rounds. -/
def bnFromBeLoop (bs : Bytes) (d : Nat) : Nat → Cells → Cells
  | 0, c => c
  | i + 1, c =>
    let c := bnFromBeLoop bs d i c
    let k := bs.length - 1 - i
    let w := d + k / 4
    Function.update c w (c w ||| (BitVec.ofNat 64 (bs.getD i 0).toNat <<< (k % 4 * 8)))

/-- The number of digits for `nbytes` bytes. -/
def digitsFor (nbytes : Nat) : Nat := (nbytes + 3) / 4

/-- Big-endian bytes as digits at `d`. -/
def bnFromBe (bs : Bytes) (d : Nat) (c : Cells) : Cells :=
  bnFromBeLoop bs d bs.length (zeroDigits d (digitsFor bs.length) c)

/-- The `nd` digits at `d` as `nbytes` big-endian bytes. -/
def bnToBe (d nd nbytes : Nat) (c : Cells) : Bytes :=
  (List.range nbytes).map fun i =>
    let k := nbytes - 1 - i
    if k / 4 < nd then UInt8.ofNat ((c (d + k / 4) >>> (k % 4 * 8)) &&& 255).toNat else 0

/-- `while j < nb`: a multiple of `b` is added at `o`; after `j` rounds, with the carry. -/
def bnMulRow (b o : Nat) (ai : Word) : Nat → Cells → Word × Cells
  | 0, c => (0, c)
  | j + 1, c =>
    let s := bnMulRow b o ai j c
    let t := ai * s.2 (b + j) + s.2 (o + j) + s.1
    (t >>> 32, Function.update s.2 (o + j) (t &&& m32))

/-- `while i < na`, after `i` rounds. -/
def bnMulRows (a b nb out : Nat) : Nat → Cells → Cells
  | 0, c => c
  | i + 1, c =>
    let c := bnMulRows a b nb out i c
    let s := bnMulRow b (out + i) (c (a + i)) nb c
    Function.update s.2 (out + i + nb) s.1

/-- The product of `na` and `nb` digits. -/
def bnMul (a na b nb out : Nat) (c : Cells) : Cells :=
  bnMulRows a b nb out na (zeroDigits out (na + nb) c)

/-- `n` cells are copied. -/
def copyDigits (dst src : Nat) : Nat → Cells → Cells
  | 0, c => c
  | i + 1, c =>
    let c := copyDigits dst src i c
    Function.update c (dst + i) (c (src + i))

/-- The remainder of `m` digits by `n`. -/
def bnMod (fuel u m v n r q un vn : Nat) (c : Cells) : Except Exn Cells :=
  let mm := digitsLen u m c
  if mm < n then .ok (zeroDigits (r + mm) (n - mm) (copyDigits r u mm c))
  else bnDivmnu fuel q r u mm v n un vn c

/-- The index of the top bit that is set, -1 if there is none. -/
def beTopBit : Bytes → Int
  | [] => -1
  | b :: bs =>
    if b ≠ 0 then (bs.length * 8 : Int) + (bitLength64 (BitVec.ofNat 64 b.toNat)).toNat - 1
    else beTopBit bs

/-- Bit `t` of big-endian bytes. -/
def beBit (bs : Bytes) (t : Nat) : Nat :=
  ((bs.getD (bs.length - 1 - t / 8) 0).toNat >>> (t % 8)) &&& 1

/-- The arrays of `modexp`, one behind the other: modulus, base, the base reduced, result, product,
quotient, and the scratch arrays of the division. -/
structure Arrays where
  md : Nat
  bd : Nat
  base : Nat
  r : Nat
  prod : Nat
  q : Nat
  un : Nat
  vn : Nat
  top : Nat

/-- `nmd` digits of the modulus, `n` of them significant, and `big` for the longest dividend. -/
def allocArrays (h nmd n big : Nat) : Arrays where
  md := h
  bd := h + (nmd + 1)
  base := h + (nmd + 1) + (big + 1)
  r := h + (nmd + 1) + (big + 1) + n
  prod := h + (nmd + 1) + (big + 1) + n + n
  q := h + (nmd + 1) + (big + 1) + n + n + 2 * n
  un := h + (nmd + 1) + (big + 1) + n + n + 2 * n + (big + 1)
  vn := h + (nmd + 1) + (big + 1) + n + n + 2 * n + (big + 1) + (big + 2)
  top := h + (nmd + 1) + (big + 1) + n + n + 2 * n + (big + 1) + (big + 2) + n

/-- The result is multiplied by the `n` digits at `b` and reduced. -/
def mulReduce (fuel : Nat) (p : Arrays) (n b : Nat) (c : Cells) : Except Exn Cells :=
  bnMod fuel p.prod (2 * n) p.md n p.r p.q p.un p.vn (bnMul p.r n b n p.prod c)

/-- `while t > 0`. -/
def modexpLoop (fuel : Nat) (p : Arrays) (n : Nat) (ep : Bytes) : Nat → Cells → Except Exn Cells
  | 0, c => .ok c
  | t + 1, c => do
    let c ← mulReduce fuel p n p.r c
    let c ← if beBit ep t = 1 then mulReduce fuel p n p.base c else .ok c
    modexpLoop fuel p n ep t c

/-- The power with exponent 0: 1, unless the modulus is. -/
def modexpOne (p : Arrays) (n : Nat) (c : Cells) : Cells :=
  let c := zeroDigits p.r n c
  if n = 1 ∧ c p.md = 1 then c else Function.update c p.r 1

/-- The big-endian bytes of a power, with the cells from `h` on free. -/
def modexp (fuel h : Nat) (bp ep mp : Bytes) (c : Cells) : Except Exn (Bytes × Cells) :=
  let nmd := digitsFor mp.length
  let c := bnFromBe mp h c
  let n := digitsLen h nmd c
  if n = 0 then .ok (List.replicate mp.length 0, c)
  else do
    let nbd := digitsFor bp.length
    let big := max nbd (2 * n)
    let p := allocArrays h nmd n big
    let c := bnFromBe bp p.bd c
    let c ← bnMod fuel p.bd nbd p.md n p.base p.q p.un p.vn c
    let t := beTopBit ep
    let c ←
      if t < 0 then .ok (modexpOne p n c)
      else modexpLoop fuel p n ep t.toNat (copyDigits p.r p.base n c)
    return (bnToBe p.r n mp.length c, c)

/-! ## Bytes and digits -/

section

variable {c c' : Cells} {d n nd out a b o p q r u v un vn m na nb k x : Nat}

theorem pow_256 (k : Nat) : 256 ^ k = (2 ^ 32) ^ (k / 4) * 256 ^ (k % 4) := by
  rw [show (2 : Nat) ^ 32 = 256 ^ 4 from rfl, ← Nat.pow_mul, ← Nat.pow_add, Nat.div_add_mod]

/-- A cell that is replaced. -/
theorem Cells.value_update (c : Cells) (p : Nat) {k n : Nat} (hk : k < n) (w : Word) :
    Cells.value (Function.update c (p + k) w) p n + (c (p + k)).toNat * (2 ^ 32) ^ k =
      c.value p n + w.toNat * (2 ^ 32) ^ k := by
  have hdigit : Cells.digit (Function.update c (p + k) w) p =
      Function.update (c.digit p) k w.toNat := by
    funext i
    unfold digit
    by_cases hik : i = k
    · rw [hik, Function.update_self, Function.update_self]
    · rw [Function.update_of_ne (by omega), Function.update_of_ne hik]
  unfold value
  rw [hdigit]
  exact Digits.value_update hk w.toNat

/-- The lowest bits of a digit are free when the number is a multiple of their weight. -/
theorem Cells.dvd_digit (hc : c.IsDigits p n) (hk : k < n) {e : Nat} (he : e ∣ 2 ^ 32)
    (h : (2 ^ 32) ^ k * e ∣ c.value p n) : e ∣ (c (p + k)).toNat := by
  have hdigit := Digits.digit_eq hc hk
  obtain ⟨j, hj⟩ := h
  unfold value at hj
  rw [hj, Nat.mul_assoc, Nat.mul_div_cancel_left _ (Nat.pow_pos (Nat.two_pow_pos 32))] at hdigit
  change (c (p + k)).toNat = _ at hdigit
  rw [hdigit]
  exact (Nat.dvd_mod_iff he).mpr (Nat.dvd_mul_right e j)

/-- A byte that is added to a digit with free bits. -/
theorem toNat_or_byte {w : Word} {x j : Nat} (hx : x < 256) (hj : j < 4) (hw : w.toNat < 2 ^ 32)
    (hfree : 256 ^ (j + 1) ∣ w.toNat) :
    (w ||| (BitVec.ofNat 64 x <<< (j * 8))).toNat = w.toNat + x * 256 ^ j ∧
      w.toNat + x * 256 ^ j < 2 ^ 32 := by
  have hpow : 256 ^ j = 2 ^ (j * 8) := by
    rw [show (256 : Nat) = 2 ^ 8 from rfl, ← Nat.pow_mul, Nat.mul_comm]
  have hpow' : 256 ^ (j + 1) = 2 ^ (j * 8 + 8) := by
    rw [Nat.pow_succ, hpow, Nat.pow_add]
  have hle : 2 ^ (j * 8) ≤ 2 ^ 24 := Nat.pow_le_pow_right (by decide) (by omega)
  have hmul : x * 2 ^ (j * 8) ≤ 255 * 2 ^ 24 := Nat.mul_le_mul (by omega) hle
  have hlow : x * 2 ^ (j * 8) < 2 ^ (j * 8 + 8) := by
    rw [Nat.pow_add, Nat.mul_comm]
    exact Nat.mul_lt_mul_of_pos_left hx (Nat.two_pow_pos _)
  have hshift : (BitVec.ofNat 64 x <<< (j * 8)).toNat = x * 2 ^ (j * 8) := by
    rw [BitVec.toNat_shiftLeft, BitVec.toNat_ofNat, Nat.mod_eq_of_lt (a := x) (by omega),
      Nat.shiftLeft_eq, Nat.mod_eq_of_lt (by omega)]
  rw [hpow'] at hfree
  obtain ⟨e, he⟩ := hfree
  obtain ⟨f, hf⟩ : 2 ^ (j * 8 + 8) ∣ 2 ^ 32 := Nat.pow_dvd_pow 2 (by omega)
  constructor
  · rw [BitVec.toNat_or, hshift, he, ← Nat.two_pow_add_eq_or_of_lt hlow, hpow]
  · rw [hpow]
    -- the digit is a multiple of the weight below the next multiple
    have hef : e < f := by
      rw [he, hf] at hw
      exact Nat.lt_of_mul_lt_mul_left hw
    have hstep := Nat.mul_le_mul_left (2 ^ (j * 8 + 8)) (Nat.succ_le_of_lt hef)
    rw [Nat.mul_succ] at hstep
    omega

/-- What the rounds of `bnFromBe` keep: the number of the bytes so far. -/
structure FromBe (bs : Bytes) (d i : Nat) (c c' : Cells) : Prop where
  value : c'.value d (digitsFor bs.length) = beNat (bs.take i) * 256 ^ (bs.length - i)
  digits : c'.IsDigits d (digitsFor bs.length)
  off : ∀ x, x < d ∨ d + digitsFor bs.length ≤ x → c' x = c x

theorem FromBe.step {bs : Bytes} {i : Nat} (h : FromBe bs d i c (bnFromBeLoop bs d i c'))
    (hi : i < bs.length) : FromBe bs d (i + 1) c (bnFromBeLoop bs d (i + 1) c') := by
  have hdigits := h.digits
  have hvalue := h.value
  rw [bnFromBeLoop]
  generalize bnFromBeLoop bs d i c' = s at *
  obtain ⟨k, hk⟩ : ∃ k, bs.length = i + 1 + k := ⟨bs.length - (i + 1), by omega⟩
  have hplace : bs.length - 1 - i = k := by omega
  have hnd : k / 4 < digitsFor bs.length := by
    unfold digitsFor
    omega
  have htake : beNat (bs.take (i + 1)) = beNat (bs.take i) * 256 + (bs.getD i 0).toNat := by
    rw [List.take_add_one, List.getElem?_eq_getElem hi, List.getD_eq_getElem?_getD,
      List.getElem?_eq_getElem hi]
    exact beNat_append_singleton _ _
  have hx := (bs.getD i 0).toNat_lt
  rw [show bs.length - i = k + 1 by omega] at hvalue
  rw [hplace]
  generalize (bs.getD i 0).toNat = byte at *
  have hfree : 256 ^ (k % 4 + 1) ∣ (s (d + k / 4)).toNat := by
    refine Cells.dvd_digit hdigits hnd ?_ ?_
    · rw [show (2 : Nat) ^ 32 = 256 ^ 4 from rfl]
      exact Nat.pow_dvd_pow 256 (by omega)
    · rw [hvalue, Nat.pow_succ (n := 256), Nat.pow_succ (n := 256), ← Nat.mul_assoc, ← pow_256]
      exact Nat.dvd_mul_left _ _
  obtain ⟨hor, hlt⟩ := toNat_or_byte hx (Nat.mod_lt k (by decide)) (hdigits _ hnd) hfree
  refine ⟨?_, fun j hj => ?_, fun x hx => ?_⟩
  · have hupdate := Cells.value_update s d hnd
      (s (d + k / 4) ||| (BitVec.ofNat 64 byte <<< (k % 4 * 8)))
    rw [hor, hvalue] at hupdate
    have hpow := pow_256 k
    rw [htake, show bs.length - (i + 1) = k by omega]
    have hsum : Cells.value (Function.update s (d + k / 4)
        (s (d + k / 4) ||| (BitVec.ofNat 64 byte <<< (k % 4 * 8)))) d (digitsFor bs.length) =
        beNat (bs.take i) * 256 ^ (k + 1) + byte * ((2 ^ 32) ^ (k / 4) * 256 ^ (k % 4)) := by
      rw [Nat.add_mul, Nat.mul_assoc byte, Nat.mul_comm (256 ^ (k % 4))] at hupdate
      omega
    rw [hsum, ← hpow, Nat.pow_succ]
    ring
  · unfold Cells.digit
    by_cases hjk : j = k / 4
    · rw [hjk, Function.update_self, hor]
      exact hlt
    · rw [Function.update_of_ne (by omega)]
      exact hdigits j hj
  · rw [Function.update_of_ne (by omega), h.off x hx]

theorem fromBe_start (bs : Bytes) (d : Nat) (c : Cells) :
    FromBe bs d 0 c (zeroDigits d (digitsFor bs.length) c) := by
  have hzero : ∀ i, 0 ≤ i → i < digitsFor bs.length →
      zeroDigits d (digitsFor bs.length) c (d + i) = 0 :=
    fun i _ hi => zeroDigits_at (by omega) (by omega)
  refine ⟨?_, ?_, fun x hx => zeroDigits_off hx⟩
  · rw [Cells.value_of_zero_above (Nat.zero_le _) hzero, List.take_zero]
    exact (Nat.zero_mul _).symm
  · exact Cells.IsDigits.of_zero_above (m := 0) (fun i hi => absurd hi (Nat.not_lt_zero i)) hzero

theorem fromBe_rounds (bs : Bytes) (d : Nat) (c : Cells) {i : Nat} (hi : i ≤ bs.length) :
    FromBe bs d i c (bnFromBeLoop bs d i (zeroDigits d (digitsFor bs.length) c)) := by
  induction i with
  | zero => exact fromBe_start bs d c
  | succ i ih => exact (ih (Nat.le_of_succ_le hi)).step hi

/-- The digits of the number of the bytes. -/
theorem bnFromBe_value (bs : Bytes) (d : Nat) (c : Cells) :
    (bnFromBe bs d c).value d (digitsFor bs.length) = beNat bs ∧
      (bnFromBe bs d c).IsDigits d (digitsFor bs.length) ∧
      ∀ x, x < d ∨ d + digitsFor bs.length ≤ x → bnFromBe bs d c x = c x := by
  have h := fromBe_rounds bs d c (Nat.le_refl _)
  have hvalue := h.value
  rw [List.take_length, Nat.sub_self, Nat.pow_zero, Nat.mul_one] at hvalue
  exact ⟨hvalue, h.digits, h.off⟩

/-- The bytes of the number of the digits. -/
theorem bnToBe_eq (hc : c.IsDigits d nd) (n : Nat) : bnToBe d nd n c = beBytes n (c.value d nd) := by
  refine List.ext_getElem? fun i => ?_
  unfold bnToBe
  by_cases hi : i < n
  · rw [List.getElem?_map, List.getElem?_range hi, getElem?_beBytes hi, Option.map_some]
    dsimp only
    generalize n - 1 - i = k
    have hpow := pow_256 k
    congr 1
    split
    · next hk =>
      have hdigit : (c (d + k / 4)).toNat = c.value d nd / (2 ^ 32) ^ (k / 4) % 2 ^ 32 :=
        Digits.digit_eq hc hk
      have hpow' : 2 ^ (k % 4 * 8) = 256 ^ (k % 4) := by
        rw [show (256 : Nat) = 2 ^ 8 from rfl, ← Nat.pow_mul, Nat.mul_comm]
      obtain ⟨e, he⟩ : 256 ^ (k % 4 + 1) ∣ 2 ^ 32 := by
        rw [show (2 : Nat) ^ 32 = 256 ^ 4 from rfl]
        exact Nat.pow_dvd_pow 256 (by omega)
      rw [BitVec.toNat_and, toNat_shiftRight, show (255 : Word).toNat = 2 ^ 8 - 1 from rfl,
        Nat.and_two_pow_sub_one_eq_mod, hdigit, hpow', hpow, ← Nat.div_div_eq_div_mul, he,
        Nat.pow_succ, Nat.mul_assoc, Nat.mod_mul_right_div_self, Nat.mod_mul_right_mod]
    · next hk =>
      have hlt := Cells.value_lt hc
      have hle : (2 ^ 32) ^ nd ≤ (2 ^ 32) ^ (k / 4) :=
        Nat.pow_le_pow_right (Nat.two_pow_pos 32) (Nat.not_lt.mp hk)
      rw [hpow, ← Nat.div_div_eq_div_mul, Nat.div_eq_of_lt (Nat.lt_of_lt_of_le hlt hle),
        Nat.zero_div, Nat.zero_mod]
      rfl
  · rw [List.getElem?_eq_none (by simp; omega), List.getElem?_eq_none (by simp; omega)]

end

/-! ## Products -/

section

variable {c c' : Cells} {d n nd out a b o p q r u v un vn m na nb k x : Nat}

/-- A multiple is added; the words hold every sum. -/
theorem bnMulRow_value {ai : Word} {j : Nat} (hai : ai.toNat < 2 ^ 32) (hb : c.IsDigits b j)
    (ho : c.IsDigits o j) (hdisj : b + j ≤ o ∨ o + j ≤ b) :
    (bnMulRow b o ai j c).2.value o j + (bnMulRow b o ai j c).1.toNat * (2 ^ 32) ^ j =
        c.value o j + ai.toNat * c.value b j ∧
      (bnMulRow b o ai j c).1.toNat < 2 ^ 32 ∧ (bnMulRow b o ai j c).2.IsDigits o j ∧
      ∀ x, x < o ∨ o + j ≤ x → (bnMulRow b o ai j c).2 x = c x := by
  induction j with
  | zero =>
    refine ⟨?_, Nat.two_pow_pos 32, fun i hi => absurd hi (Nat.not_lt_zero i), fun x _ => rfl⟩
    exact (congrArg (_ + ·) (Nat.zero_mul _)).trans (congrArg (_ + ·) (Nat.mul_zero _)).symm
  | succ j ih =>
    obtain ⟨hvalue, hk, hdigits, hoff⟩ := ih (fun i hi => hb i (by omega))
      (fun i hi => ho i (by omega)) (by omega)
    rw [bnMulRow]
    dsimp only
    generalize bnMulRow b o ai j c = s at *
    have hbj : s.2 (b + j) = c (b + j) := hoff _ (by omega)
    have hoj : s.2 (o + j) = c (o + j) := hoff _ (by omega)
    rw [hbj, hoj]
    have hb' : (c (b + j)).toNat < 2 ^ 32 := hb j (Nat.lt_succ_self j)
    have ho' : (c (o + j)).toNat < 2 ^ 32 := ho j (Nat.lt_succ_self j)
    have hmul : ai.toNat * (c (b + j)).toNat ≤ (2 ^ 32 - 1) * (2 ^ 32 - 1) :=
      Nat.mul_le_mul (by omega) (by omega)
    have hsum : (ai * c (b + j) + c (o + j) + s.1).toNat =
        ai.toNat * (c (b + j)).toNat + (c (o + j)).toNat + s.1.toNat := by
      rw [BitVec.toNat_add, BitVec.toNat_add, (toNat_mul_halves hai hb').1,
        Nat.mod_eq_of_lt (a := _ + (c (o + j)).toNat) (by omega), Nat.mod_eq_of_lt (by omega)]
    have hround := Nat.mod_add_div (ai * c (b + j) + c (o + j) + s.1).toNat (2 ^ 32)
    have hlow : Cells.value (Function.update s.2 (o + j)
        ((ai * c (b + j) + c (o + j) + s.1) &&& m32)) o j = s.2.value o j :=
      Cells.value_congr fun i hi => Function.update_of_ne (by omega) _ _
    refine ⟨?_, ?_, fun i hi => ?_, fun x hx => ?_⟩
    · rw [Cells.value_succ, Cells.value_succ, Cells.value_succ, hlow, Function.update_self,
        toNat_and_m32, toNat_shiftRight, Nat.pow_succ']
      linear_combination hvalue + (2 ^ 32) ^ j * (hround + hsum)
    · rw [toNat_shiftRight, hsum]
      omega
    · unfold Cells.digit
      by_cases htop : i = j
      · rw [htop, Function.update_self, toNat_and_m32]
        exact Nat.mod_lt _ (by decide)
      · rw [Function.update_of_ne (by omega)]
        exact hdigits i (by omega)
    · rw [Function.update_of_ne (by omega), hoff x (by omega)]

/-- What the rounds of `bnMul` keep: the product by the lower digits of `a`, and zeros above. -/
structure Product (a b nb out i : Nat) (c c' : Cells) : Prop where
  value : c'.value out (i + nb) = c.value a i * c.value b nb
  digits : c'.IsDigits out (i + nb)
  off : ∀ x, x < out ∨ out + i + nb ≤ x → c' x = c x

theorem Product.step {i : Nat} (h : Product a b nb out i c (bnMulRows a b nb out i c))
    (ha : (c (a + i)).toNat < 2 ^ 32) (hb : c.IsDigits b nb)
    (hadisj : a + i < out ∨ out + i + nb ≤ a + i)
    (hbdisj : b + nb ≤ out ∨ out + i + nb ≤ b) :
    Product a b nb out (i + 1) c (bnMulRows a b nb out (i + 1) c) := by
  have hvalue := h.value
  have hdigits := h.digits
  have hoff := h.off
  rw [bnMulRows]
  generalize bnMulRows a b nb out i c = s at *
  have hai : s (a + i) = c (a + i) := hoff _ (by omega)
  have hbs : ∀ j < nb, s (b + j) = c (b + j) := fun j hj => hoff _ (by omega)
  obtain ⟨hrow, hcarry, hrowDigits, hrowOff⟩ := bnMulRow_value (o := out + i) (c := s) (j := nb)
    ha (hb.congr hbs)
    (fun j hj => by
      have hdigit := hdigits (i + j) (by omega)
      unfold Cells.digit at hdigit ⊢
      rwa [Nat.add_assoc])
    (by omega)
  rw [Cells.value_congr hbs] at hrow
  rw [hai]
  generalize bnMulRow b (out + i) (c (a + i)) nb s = t at *
  have hplace : out + i + nb = out + (i + nb) := Nat.add_assoc out i nb
  refine ⟨?_, fun j hj => ?_, fun x hx => ?_⟩
  · have hlow : t.2.value out i = s.value out i :=
      Cells.value_congr fun j hj => hrowOff _ (by omega)
    rw [show i + 1 + nb = i + nb + 1 by omega, hplace, value_update_top, Cells.value_split t.2,
      hlow, Cells.value_succ]
    rw [Cells.value_split] at hvalue
    rw [Nat.pow_add]
    linear_combination hvalue + (2 ^ 32) ^ i * hrow
  · unfold Cells.digit
    by_cases htop : j = i + nb
    · rw [htop, ← hplace, Function.update_self]
      exact hcarry
    · rw [Function.update_of_ne (by omega)]
      by_cases hlow : j < i
      · rw [hrowOff _ (by omega)]
        exact hdigits j (by omega)
      · have hdigit := hrowDigits (j - i) (by omega)
        unfold Cells.digit at hdigit
        rwa [show out + i + (j - i) = out + j by omega] at hdigit
  · rw [Function.update_of_ne (by omega), hrowOff x (by omega), hoff x (by omega)]

theorem bnMulRows_value {i : Nat} (hi : i ≤ na) (ha : c.IsDigits a na) (hb : c.IsDigits b nb)
    (hadisj : a + na ≤ out ∨ out + (na + nb) ≤ a) (hbdisj : b + nb ≤ out ∨ out + (na + nb) ≤ b)
    (hzero : ∀ k < na + nb, c (out + k) = 0) :
    Product a b nb out i c (bnMulRows a b nb out i c) := by
  induction i with
  | zero =>
    have hall : ∀ k, 0 ≤ k → k < nb → c (out + k) = 0 := fun k _ hk => hzero k (by omega)
    refine ⟨?_, fun k hk => ?_, fun x _ => rfl⟩
    · rw [Nat.zero_add]
      exact (Cells.value_of_zero_above (Nat.zero_le nb) hall).trans (Nat.zero_mul _).symm
    · unfold Cells.digit
      rw [show bnMulRows a b nb out 0 c = c from rfl, hall k (Nat.zero_le k) (by omega)]
      exact Nat.two_pow_pos 32
  | succ i ih =>
    exact (ih (by omega)).step (ha i (by omega)) hb (by omega) (by omega)

/-- The product of two arrays of digits. -/
theorem value_bnMul (out : Nat) (ha : c.IsDigits a na) (hb : c.IsDigits b nb)
    (hadisj : a + na ≤ out ∨ out + (na + nb) ≤ a) (hbdisj : b + nb ≤ out ∨ out + (na + nb) ≤ b) :
    (bnMul a na b nb out c).value out (na + nb) = c.value a na * c.value b nb ∧
      (bnMul a na b nb out c).IsDigits out (na + nb) ∧
      ∀ x, x < out ∨ out + (na + nb) ≤ x → bnMul a na b nb out c x = c x := by
  have hoff : ∀ x, x < out ∨ out + (na + nb) ≤ x → zeroDigits out (na + nb) c x = c x :=
    fun x hx => zeroDigits_off hx
  have hA : ∀ i < na, zeroDigits out (na + nb) c (a + i) = c (a + i) := fun i hi => hoff _ (by omega)
  have hB : ∀ i < nb, zeroDigits out (na + nb) c (b + i) = c (b + i) := fun i hi => hoff _ (by omega)
  have h := bnMulRows_value (Nat.le_refl na) (ha.congr hA) (hb.congr hB) hadisj hbdisj
    fun k hk => zeroDigits_at (by omega) (by omega)
  have hvalue := h.value
  rw [Cells.value_congr hA, Cells.value_congr hB] at hvalue
  exact ⟨hvalue, h.digits, fun x hx => (h.off x (by omega)).trans (hoff x hx)⟩

/-! ## Remainders -/

theorem copyDigits_off {i : Nat} (hx : x < r ∨ r + i ≤ x) : copyDigits r u i c x = c x := by
  induction i with
  | zero => rfl
  | succ i ih => rw [copyDigits, Function.update_of_ne (by omega), ih (by omega)]

theorem copyDigits_at {i k : Nat} (hdisj : r + k ≤ u ∨ u + k ≤ r) (hi : i < k) :
    copyDigits r u k c (r + i) = c (u + i) := by
  induction k with
  | zero => exact absurd hi (Nat.not_lt_zero i)
  | succ k ih =>
    rw [copyDigits]
    by_cases htop : i = k
    · rw [htop, Function.update_self, copyDigits_off (by omega)]
    · rw [Function.update_of_ne (by omega), ih (by omega) (by omega)]

theorem Layout.shorter (h : Layout q r u m v n un vn) (hk : k ≤ m) :
    Layout q r u k v n un vn := by
  obtain ⟨h₁, h₂, h₃, h₄, h₅, h₆, h₇, h₈, h₉⟩ := h
  exact ⟨by omega, by omega, by omega, by omega, by omega, by omega, by omega, by omega, by omega⟩

/-- What a reduction leaves. -/
structure Reduced (q r u m v n un vn : Nat) (c c' : Cells) : Prop where
  rest : c'.value r n = c.value u m % c.value v n
  restDigits : c'.IsDigits r n
  off : ∀ x, x < q ∨ q + m ≤ x → x < r ∨ r + n ≤ x → x < un ∨ un + m < x →
    x < vn ∨ vn + n ≤ x → c' x = c x

/-- A dividend with fewer significant digits is the remainder. -/
theorem bnMod_value {fuel : Nat} (h : Layout q r u m v n un vn)
    (hru : r + n ≤ u ∨ u + m ≤ r) (hn : 1 ≤ n) (hu : c.IsDigits u m) (hv : c.IsDigits v n)
    (htop : c (v + (n - 1)) ≠ 0) (hfuel : 3 ≤ fuel) :
    ∃ c', bnMod fuel u m v n r q un vn c = .ok c' ∧ Reduced q r u m v n un vn c c' := by
  have hmm := digitsLen_le u m c
  have hvalue := value_digitsLen u m c
  unfold bnMod
  dsimp only
  generalize digitsLen u m c = mm at *
  have hu' : c.IsDigits u mm := fun i hi => hu i (by omega)
  split
  · next hlt =>
    have hsmall := Cells.value_lt_of_digits_lt hu' hlt htop
    have hat : ∀ i < mm, zeroDigits (r + mm) (n - mm) (copyDigits r u mm c) (r + i) = c (u + i) :=
      fun i hi => by rw [zeroDigits_off (by omega), copyDigits_at (by omega) hi]
    have hzero : ∀ i, mm ≤ i → i < n →
        zeroDigits (r + mm) (n - mm) (copyDigits r u mm c) (r + i) = 0 :=
      fun i hi hin => zeroDigits_at (by omega) (by omega)
    refine ⟨_, rfl, ?_, (hu'.congr hat).of_zero_above hzero, fun x _ hx _ _ => ?_⟩
    · rw [Cells.value_of_zero_above (Nat.le_of_lt hlt) hzero, Cells.value_congr hat, ← hvalue,
        Nat.mod_eq_of_lt hsmall]
    · rw [zeroDigits_off (by omega), copyDigits_off (by omega)]
  · next hge =>
    obtain ⟨c', hrun, hdone⟩ := bnDivmnu_value (h.shorter hmm) hn (Nat.not_lt.mp hge) hu' hv htop hfuel
    refine ⟨c', hrun, ?_, hdone.restDigits, fun x hx hx' hun hvn =>
      hdone.off x (by omega) hx' (by omega) hvn⟩
    rw [hdone.rest, hvalue]

end

/-! ## The bits of the exponent -/

theorem beTopBit_eq (bs : Bytes) : beTopBit bs = (Nat.size (beNat bs) : Int) - 1 := by
  induction bs with
  | nil => rfl
  | cons b bs ih =>
    rw [beTopBit, beNat_cons]
    split
    · next hne =>
      have hb : b.toNat < 2 ^ 64 := b.toNat_lt.trans (by decide)
      have hpos : b.toNat ≠ 0 := fun h => hne (UInt8.toNat_inj.mp h)
      have hpow : 256 ^ bs.length = 2 ^ (bs.length * 8) := by
        rw [show (256 : Nat) = 2 ^ 8 from rfl, ← Nat.pow_mul, Nat.mul_comm]
      have hrest := beNat_lt bs
      rw [hpow] at hrest ⊢
      rw [toNat_bitLength64, BitVec.toNat_ofNat, Nat.mod_eq_of_lt hb, Nat.mul_comm b.toNat,
        Nat.add_comm, size_add_mul hrest hpos]
      omega
    · next hzero =>
      rw [not_not.mp hzero, ih]
      congr 3
      exact ((congrArg (· + beNat bs) (Nat.zero_mul _)).trans (Nat.zero_add _)).symm

theorem beBit_eq (bs : Bytes) {t : Nat} (ht : t < 8 * bs.length) :
    beBit bs t = beNat bs / 2 ^ t % 2 := by
  have hpow : 2 ^ t = 256 ^ (t / 8) * 2 ^ (t % 8) := by
    rw [show (256 : Nat) = 2 ^ 8 from rfl, ← Nat.pow_mul, ← Nat.pow_add, Nat.div_add_mod]
  have hsplit : (256 : Nat) = 2 ^ (t % 8) * 2 ^ (8 - t % 8) := by
    rw [← Nat.pow_add, Nat.add_sub_cancel' (by omega)]
  unfold beBit
  rw [beNat_byte bs (by omega), Nat.and_one_is_mod, Nat.shiftRight_eq_div_pow, hpow,
    ← Nat.div_div_eq_div_mul]
  generalize beNat bs / 256 ^ (t / 8) = e
  rw [hsplit, Nat.mod_mul_right_div_self]
  exact Nat.mod_mod_of_dvd _ (dvd_pow_self 2 (by omega))

/-! ## The power -/

section

variable {c c' : Cells} {fuel h nmd n big b t : Nat} {p : Arrays} {ep : Bytes}

/-- Where the arrays lie. -/
structure Placed (h nmd n big : Nat) (p : Arrays) : Prop where
  md : p.md = h
  bd : p.bd = p.md + (nmd + 1)
  base : p.base = p.bd + (big + 1)
  r : p.r = p.base + n
  prod : p.prod = p.r + n
  q : p.q = p.prod + 2 * n
  un : p.un = p.q + (big + 1)
  vn : p.vn = p.un + (big + 2)
  top : p.top = p.vn + n

theorem placed (h nmd n big : Nat) : Placed h nmd n big (allocArrays h nmd n big) :=
  ⟨rfl, rfl, rfl, rfl, rfl, rfl, rfl, rfl, rfl⟩

/-- The modulus, the base and the result so far as digits. -/
structure Powering (p : Arrays) (n M B R : Nat) (c : Cells) : Prop where
  modulus : c.value p.md n = M
  modulusDigits : c.IsDigits p.md n
  modulusTop : c (p.md + (n - 1)) ≠ 0
  base : c.value p.base n = B
  baseDigits : c.IsDigits p.base n
  result : c.value p.r n = R
  resultDigits : c.IsDigits p.r n

/-- Nothing is written outside the arrays. -/
def OffArrays (p : Arrays) (c c' : Cells) : Prop := ∀ x, x < p.md ∨ p.top ≤ x → c' x = c x

theorem OffArrays.trans {c'' : Cells} (h : OffArrays p c c') (h' : OffArrays p c' c'') :
    OffArrays p c c'' := fun x hx => (h' x hx).trans (h x hx)

/-- A product is reduced into the result. -/
theorem mulReduce_value {M B R : Nat} {factor : Nat} (hp : Placed h nmd n big p)
    (hn : 1 ≤ n) (hnmd : n ≤ nmd) (hbig : 2 * n ≤ big) (hfuel : 3 ≤ fuel)
    (hb : b = p.r ∨ b = p.base) (hc : Powering p n M B R c) (hfactor : c.value b n = factor) :
    ∃ c', mulReduce fuel p n b c = .ok c' ∧ Powering p n M B (R * factor % M) c' ∧
      OffArrays p c c' := by
  obtain ⟨h1, h2, h3, h4, h5, h6, h7, h8, h9⟩ := hp
  have hbDigits : c.IsDigits b n := by
    rcases hb with rfl | rfl
    · exact hc.resultDigits
    · exact hc.baseDigits
  obtain ⟨hprod, hprodDigits, hprodOff⟩ := value_bnMul p.prod hc.resultDigits hbDigits
    (by omega) (by rcases hb with rfl | rfl <;> omega)
  rw [hc.result, hfactor] at hprod
  unfold mulReduce
  generalize bnMul p.r n b n p.prod c = c₁ at *
  rw [← Nat.two_mul] at hprod hprodDigits
  have hmd : ∀ i < n, c₁ (p.md + i) = c (p.md + i) := fun i hi => hprodOff _ (by omega)
  have hbase : ∀ i < n, c₁ (p.base + i) = c (p.base + i) := fun i hi => hprodOff _ (by omega)
  have hlayout : Layout p.q p.r p.prod (2 * n) p.md n p.un p.vn :=
    ⟨by omega, by omega, by omega, by omega, by omega, by omega, by omega, by omega, by omega⟩
  obtain ⟨c₂, hrun, hdone⟩ := bnMod_value hlayout (by omega) hn hprodDigits
    (hc.modulusDigits.congr hmd) (by rw [hmd _ (by omega)]; exact hc.modulusTop) hfuel
  have hrest := hdone.rest
  rw [hprod, Cells.value_congr hmd, hc.modulus] at hrest
  have hmd₂ : ∀ i < n, c₂ (p.md + i) = c (p.md + i) := fun i hi => by
    rw [hdone.off _ (by omega) (by omega) (by omega) (by omega), hmd i hi]
  have hbase₂ : ∀ i < n, c₂ (p.base + i) = c (p.base + i) := fun i hi => by
    rw [hdone.off _ (by omega) (by omega) (by omega) (by omega), hbase i hi]
  refine ⟨c₂, hrun, ⟨?_, hc.modulusDigits.congr hmd₂, ?_, ?_, hc.baseDigits.congr hbase₂, hrest,
    hdone.restDigits⟩, fun x hx => ?_⟩
  · rw [Cells.value_congr hmd₂, hc.modulus]
  · rw [hmd₂ _ (by omega)]
    exact hc.modulusTop
  · rw [Cells.value_congr hbase₂, hc.base]
  · rw [hdone.off x (by omega) (by omega) (by omega) (by omega), hprodOff x (by omega)]

/-- The rounds for the bits below `t`, from the power by the bits from `t` on. -/
theorem modexpLoop_value {M B : Nat} (hp : Placed h nmd n big p) (hn : 1 ≤ n) (hnmd : n ≤ nmd)
    (hbig : 2 * n ≤ big) (hfuel : 3 ≤ fuel) (ht : t ≤ 8 * ep.length)
    (hc : Powering p n M (B % M) (B ^ (beNat ep / 2 ^ t) % M) c) :
    ∃ c', modexpLoop fuel p n ep t c = .ok c' ∧
      Powering p n M (B % M) (B ^ beNat ep % M) c' ∧ OffArrays p c c' := by
  induction t generalizing c with
  | zero =>
    rw [Nat.pow_zero, Nat.div_one] at hc
    exact ⟨c, rfl, hc, fun _ _ => rfl⟩
  | succ t ih =>
    obtain ⟨c₁, hrun₁, hc₁, hoff₁⟩ := mulReduce_value hp hn hnmd hbig hfuel (.inl rfl) hc hc.result
    have hbit := beBit_eq ep (t := t) (by omega)
    have hhalf : beNat ep / 2 ^ (t + 1) = beNat ep / 2 ^ t / 2 := by
      rw [Nat.pow_succ, Nat.div_div_eq_div_mul]
    rw [hhalf] at hc₁
    rw [← Nat.mul_mod, ← Nat.pow_add, ← Nat.two_mul] at hc₁
    rw [modexpLoop, hrun₁]
    dsimp only [bind, Except.bind]
    by_cases hone : beBit ep t = 1
    · obtain ⟨c₂, hrun₂, hc₂, hoff₂⟩ :=
        mulReduce_value hp hn hnmd hbig hfuel (.inr rfl) hc₁ hc₁.base
      rw [← Nat.mul_mod, ← Nat.pow_succ,
        show (2 * (beNat ep / 2 ^ t / 2)).succ = beNat ep / 2 ^ t by omega] at hc₂
      obtain ⟨c₃, hrun₃, hc₃, hoff₃⟩ := ih (by omega) hc₂
      rw [if_pos hone, hrun₂]
      exact ⟨c₃, hrun₃, hc₃, (hoff₁.trans hoff₂).trans hoff₃⟩
    · rw [show 2 * (beNat ep / 2 ^ t / 2) = beNat ep / 2 ^ t by omega] at hc₁
      obtain ⟨c₂, hrun₂, hc₂, hoff₂⟩ := ih (by omega) hc₁
      rw [if_neg hone]
      exact ⟨c₂, hrun₂, hc₂, hoff₁.trans hoff₂⟩

/-- The power with exponent 0. -/
theorem modexpOne_value {M : Nat} (hp : Placed h nmd n big p) (hn : 1 ≤ n) (hnmd : n ≤ nmd)
    (hmodulus : c.value p.md n = M) (htop : c (p.md + (n - 1)) ≠ 0) :
    (modexpOne p n c).value p.r n = 1 % M ∧ (modexpOne p n c).IsDigits p.r n ∧
      OffArrays p c (modexpOne p n c) := by
  obtain ⟨h1, h2, h3, h4, h5, h6, h7, h8, h9⟩ := hp
  have hzero : ∀ i, 0 ≤ i → i < n → zeroDigits p.r n c (p.r + i) = 0 :=
    fun i _ hi => zeroDigits_at (by omega) (by omega)
  have hoff : ∀ x, x < p.r ∨ p.r + n ≤ x → zeroDigits p.r n c x = c x := fun x hx => zeroDigits_off hx
  have hmd : zeroDigits p.r n c p.md = c p.md := hoff _ (by omega)
  have hvalue : (zeroDigits p.r n c).value p.r n = 0 := Cells.value_of_zero_above (Nat.zero_le n) hzero
  have hdigits : (zeroDigits p.r n c).IsDigits p.r n :=
    Cells.IsDigits.of_zero_above (m := 0) (fun i hi => absurd hi (Nat.not_lt_zero i)) hzero
  unfold modexpOne
  dsimp only
  rw [hmd]
  generalize zeroDigits p.r n c = c₁ at *
  have hpos : 0 < c.value p.md n := by
    have hsplit : c.value p.md 0 < c.value p.md n :=
      Cells.value_lt_of_digits_lt (fun i hi => absurd hi (Nat.not_lt_zero i)) hn htop
    exact Nat.zero_lt_of_lt hsplit
  split
  · next hone =>
    obtain ⟨rfl, hmdOne⟩ := hone
    have hM : M = 1 := by
      rw [← hmodulus]
      exact (Digits.value_one _ _).trans (congrArg BitVec.toNat hmdOne)
    rw [hvalue, hM, Nat.mod_one]
    exact ⟨rfl, hdigits, fun x hx => hoff x (by omega)⟩
  · next hne =>
    -- a modulus with one digit that is not 1, or with more digits
    have hM : 1 < M := by
      rw [← hmodulus]
      by_cases hn1 : n = 1
      · subst hn1
        have hvalue₁ : c.value p.md 1 = (c p.md).toNat := Digits.value_one _ _
        have hne1 : (c p.md).toNat ≠ 1 := fun h => hne ⟨rfl, BitVec.eq_of_toNat_eq h⟩
        omega
      · obtain ⟨k, rfl⟩ : ∃ k, n = k + 2 := ⟨n - 2, by omega⟩
        have htop' : 0 < (c (p.md + (k + 1))).toNat :=
          Nat.pos_of_ne_zero fun hz => htop (BitVec.eq_of_toNat_eq hz)
        rw [Cells.value_succ, Nat.pow_succ]
        have hpow : 0 < (2 ^ 32) ^ k := Nat.pow_pos (Nat.two_pow_pos 32)
        have hmul : 1 * (1 * 2 ^ 32) ≤ (c (p.md + (k + 1))).toNat * ((2 ^ 32) ^ k * 2 ^ 32) :=
          Nat.mul_le_mul htop' (Nat.mul_le_mul_right _ hpow)
        omega
    have hupdate := Cells.value_update c₁ p.r (k := 0) (n := n) (by omega) 1
    have hcell : c₁ p.r = 0 := hzero 0 (Nat.le_refl 0) (by omega)
    rw [Nat.add_zero, hcell, hvalue, Nat.pow_zero] at hupdate
    refine ⟨?_, fun i hi => ?_, fun x hx => ?_⟩
    · rw [Nat.mod_eq_of_lt hM]
      exact hupdate
    · unfold Cells.digit
      by_cases hi0 : i = 0
      · rw [hi0, Nat.add_zero, Function.update_self]
        decide
      · rw [Function.update_of_ne (by omega)]
        exact hdigits i hi
    · rw [Function.update_of_ne (by omega), hoff x (by omega)]

end

/-- An upper bound on the cells that are allocated. -/
def modexpCells (blen mlen : Nat) : Nat :=
  6 * digitsFor mlen + 3 * max (digitsFor blen) (2 * digitsFor mlen) + 5

theorem beBytes_zero (n : Nat) : beBytes n 0 = List.replicate n 0 := by
  induction n with
  | zero => rfl
  | succ n ih =>
    rw [beBytes, Nat.zero_div, ih, List.replicate_succ']
    rfl

/-- What `modexp` computes: zero for a modulus that is zero. -/
def modPow (b e m : Nat) : Nat := if m = 0 then 0 else b ^ e % m

/-- The base as digits, reduced. -/
theorem loadBase_value {fuel h nmd n big : Nat} {p : Arrays} {c : Cells} {bp : Bytes}
    (hp : Placed h nmd n big p) (hn : 1 ≤ n) (hnmd : n ≤ nmd) (hbig : digitsFor bp.length ≤ big)
    (hfuel : 3 ≤ fuel) (hmd : c.IsDigits p.md n) (htop : c (p.md + (n - 1)) ≠ 0) :
    ∃ c', bnMod fuel p.bd (digitsFor bp.length) p.md n p.base p.q p.un p.vn (bnFromBe bp p.bd c) =
        .ok c' ∧ c'.value p.base n = beNat bp % c.value p.md n ∧ c'.IsDigits p.base n ∧
      (∀ i < n, c' (p.md + i) = c (p.md + i)) ∧ OffArrays p c c' := by
  obtain ⟨h1, h2, h3, h4, h5, h6, h7, h8, h9⟩ := hp
  obtain ⟨hvalue, hdigits, hoff⟩ := bnFromBe_value bp p.bd c
  generalize bnFromBe bp p.bd c = c₁ at *
  have hmd₁ : ∀ i < n, c₁ (p.md + i) = c (p.md + i) := fun i hi => hoff _ (by omega)
  have hlayout : Layout p.q p.base p.bd (digitsFor bp.length) p.md n p.un p.vn :=
    ⟨by omega, by omega, by omega, by omega, by omega, by omega, by omega, by omega, by omega⟩
  obtain ⟨c₂, hrun, hdone⟩ := bnMod_value hlayout (by omega) hn hdigits (hmd.congr hmd₁)
    (by rwa [hmd₁ _ (by omega)]) hfuel
  have hrest := hdone.rest
  rw [hvalue, Cells.value_congr hmd₁] at hrest
  refine ⟨c₂, hrun, hrest, hdone.restDigits, fun i hi => ?_, fun x hx => ?_⟩
  · rw [hdone.off _ (by omega) (by omega) (by omega) (by omega), hmd₁ i hi]
  · rw [hdone.off x (by omega) (by omega) (by omega) (by omega), hoff x (by omega)]

/-- The power of the numbers of the bytes, in as many bytes as the modulus has; the arrays hold
every digit. -/
theorem modexp_value {fuel : Nat} (h : Nat) (bp ep mp : Bytes) (c : Cells) (hfuel : 3 ≤ fuel) :
    ∃ c', modexp fuel h bp ep mp c =
        .ok (beBytes mp.length (modPow (beNat bp) (beNat ep) (beNat mp)), c') ∧
      ∀ x, x < h ∨ h + modexpCells bp.length mp.length ≤ x → c' x = c x := by
  obtain ⟨hvalue, hdigits, hoff⟩ := bnFromBe_value mp h c
  have hcells : modexpCells bp.length mp.length =
      6 * digitsFor mp.length + 3 * max (digitsFor bp.length) (2 * digitsFor mp.length) + 5 := rfl
  unfold modexp
  dsimp only
  generalize bnFromBe mp h c = c₁ at *
  have hnmd := digitsLen_le h (digitsFor mp.length) c₁
  have hM := value_digitsLen h (digitsFor mp.length) c₁
  have htop : digitsLen h (digitsFor mp.length) c₁ ≠ 0 →
      c₁ (h + (digitsLen h (digitsFor mp.length) c₁ - 1)) ≠ 0 := digitsLen_top
  rw [hvalue] at hM
  generalize digitsLen h (digitsFor mp.length) c₁ = n at *
  generalize hnmdEq : digitsFor mp.length = nmd at *
  split
  · next hzero =>
    have hM0 : beNat mp = 0 := by
      rw [← hM, hzero]
      rfl
    refine ⟨c₁, ?_, fun x hx => hoff x (by omega)⟩
    rw [modPow, if_pos hM0, beBytes_zero]
  · next hne =>
    have hn : 1 ≤ n := Nat.pos_of_ne_zero hne
    have hp := placed h nmd n (max (digitsFor bp.length) (2 * n))
    have hmax := Nat.le_max_left (digitsFor bp.length) (2 * n)
    have hmax' := Nat.le_max_right (digitsFor bp.length) (2 * n)
    have hmono : max (digitsFor bp.length) (2 * n) ≤ max (digitsFor bp.length) (2 * nmd) := by omega
    generalize allocArrays h nmd n (max (digitsFor bp.length) (2 * n)) = p at *
    generalize max (digitsFor bp.length) (2 * n) = big at *
    have hmdAt := hp.md
    have htopP : p.top ≤ h + modexpCells bp.length mp.length := by
      obtain ⟨h1, h2, h3, h4, h5, h6, h7, h8, h9⟩ := hp
      omega
    have hmodulus : c₁.IsDigits p.md n := fun i hi => by
      rw [hmdAt]
      exact hdigits i (by omega)
    have hmodulusTop : c₁ (p.md + (n - 1)) ≠ 0 := by
      rw [hmdAt]
      exact htop hne
    have hmodulusValue : c₁.value p.md n = beNat mp := by rw [hmdAt, hM]
    have hMpos : beNat mp ≠ 0 := by
      have hsplit : c₁.value p.md 0 < c₁.value p.md n :=
        Cells.value_lt_of_digits_lt (fun i hi => absurd hi (Nat.not_lt_zero i)) hn hmodulusTop
      rw [hmodulusValue] at hsplit
      exact Nat.ne_zero_of_lt hsplit
    obtain ⟨c₂, hrun₂, hbase, hbaseDigits, hmd₂, hoff₂⟩ :=
      loadBase_value hp hn hnmd hmax hfuel hmodulus hmodulusTop
    rw [hmodulusValue] at hbase
    rw [hrun₂, beTopBit_eq, modPow, if_neg hMpos]
    dsimp only [bind, Except.bind]
    have hframe : ∀ c₃ : Cells, OffArrays p c₂ c₃ →
        ∀ x, x < h ∨ h + modexpCells bp.length mp.length ≤ x → c₃ x = c x := by
      intro c₃ hoff₃ x hx
      rw [hoff₃ x (by omega), hoff₂ x (by omega), hoff x (by omega)]
    have hmodulus₂ : c₂.value p.md n = beNat mp := by rw [Cells.value_congr hmd₂, hmodulusValue]
    have hmodulusTop₂ : c₂ (p.md + (n - 1)) ≠ 0 := by rwa [hmd₂ _ (by omega)]
    by_cases hE : beNat ep = 0
    · have hneg : ((Nat.size (beNat ep) : Int) - 1) < 0 := by
        rw [hE, Nat.size_zero]
        decide
      obtain ⟨hone, honeDigits, hoff₃⟩ := modexpOne_value hp hn hnmd hmodulus₂ hmodulusTop₂
      rw [if_pos hneg, hE, Nat.pow_zero]
      rw [bnToBe_eq honeDigits, hone]
      exact ⟨_, rfl, hframe _ hoff₃⟩
    · obtain ⟨t, ht⟩ : ∃ t, Nat.size (beNat ep) = t + 1 :=
        ⟨Nat.size (beNat ep) - 1, (Nat.sub_add_cancel (Nat.size_pos.mpr (Nat.pos_of_ne_zero hE))).symm⟩
      have hlen : t ≤ 8 * ep.length := by
        have hlt := beNat_lt ep
        rw [show (256 : Nat) = 2 ^ 8 from rfl, ← Nat.pow_mul] at hlt
        have := Nat.size_le.mpr hlt
        omega
      have hdiv : beNat ep / 2 ^ t = 1 := by
        refine Nat.div_eq_of_lt_le ?_ ?_
        · rw [Nat.one_mul]
          exact Nat.lt_size.mp (by omega)
        · have hsize := Nat.lt_size_self (beNat ep)
          rw [ht, Nat.pow_succ'] at hsize
          exact hsize
      -- the modulus and the base after the copy into the result
      have hoffCopy : ∀ x, x < p.r ∨ p.r + n ≤ x → copyDigits p.r p.base n c₂ x = c₂ x :=
        fun x hx => copyDigits_off hx
      have hr := hp.r
      have hbd := hp.bd
      have hbaseAt := hp.base
      have hprod := hp.prod
      have hq := hp.q
      have hun := hp.un
      have hvn := hp.vn
      have htopAt := hp.top
      have hcopy : ∀ i < n, copyDigits p.r p.base n c₂ (p.r + i) = c₂ (p.base + i) :=
        fun i hi => copyDigits_at (by omega) hi
      have hmd₃ : ∀ i < n, copyDigits p.r p.base n c₂ (p.md + i) = c₁ (p.md + i) := fun i hi => by
        rw [hoffCopy _ (by omega), hmd₂ i hi]
      have hbase₃ : ∀ i < n, copyDigits p.r p.base n c₂ (p.base + i) = c₂ (p.base + i) :=
        fun i hi => hoffCopy _ (by omega)
      have hstart : Powering p n (beNat mp) (beNat bp % beNat mp)
          (beNat bp ^ (beNat ep / 2 ^ t) % beNat mp) (copyDigits p.r p.base n c₂) := by
        refine ⟨?_, hmodulus.congr hmd₃, ?_, ?_, hbaseDigits.congr hbase₃, ?_,
          hbaseDigits.congr hcopy⟩
        · rw [Cells.value_congr hmd₃, hmodulusValue]
        · rwa [hmd₃ _ (by omega)]
        · rw [Cells.value_congr hbase₃, hbase]
        · rw [Cells.value_congr hcopy, hbase, hdiv, Nat.pow_one]
      obtain ⟨c₃, hrun₃, hc₃, hoff₃⟩ := modexpLoop_value hp hn hnmd hmax' hfuel hlen hstart
      have hneg : ¬((Nat.size (beNat ep) : Int) - 1) < 0 := by omega
      rw [if_neg hneg, show ((Nat.size (beNat ep) : Int) - 1).toNat = t by omega, hrun₃]
      refine ⟨c₃, ?_, hframe _ fun x hx => ?_⟩
      · dsimp only
        rw [bnToBe_eq hc₃.resultDigits, hc₃.result]
        rfl
      · rw [hoff₃ x hx, hoffCopy x (by omega)]

end StatelessGuest.Limb
