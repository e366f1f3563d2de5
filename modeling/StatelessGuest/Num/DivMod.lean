import StatelessGuest.Num.Divide

/-!
# Quotients of 256-bit integers

The operands are written as digits into the scratch area, 80 words from `ws` on: 18 for the shifted
dividend, 9 for the shifted divisor, 17 for the quotient, 9 for the remainder, 17 for the dividend
and 9 for the divisor.

* `udivmod`, `digitsDivmod`, `u256Divmod`, `u256Addmod`, `u256Mulmod`.
* `Scratch`: what a division keeps.
* `division_exact`: quotients and remainders are exact, and only the scratch area is written.
-/

namespace StatelessGuest.Limb

open Lib

/-! ## The code -/

/-- The quotient and the remainder of two words. -/
def udivmod (a b : Word) : Except Exn (Word × Word) :=
  if b = 0 then .error (.trap 2)
  else if a < b then .ok (0, a)
  else .ok (divBits a b 64 0 0)

/-- All limbs are zero. -/
def U256.IsZero (a : U256) : Prop := (a.l0 ||| a.l1 ||| a.l2 ||| a.l3) = 0

instance (a : U256) : Decidable a.IsZero := inferInstanceAs (Decidable (_ = _))

def u256Lt (a b : U256) : Bool :=
  if a.l3 ≠ b.l3 then a.l3 < b.l3
  else if a.l2 ≠ b.l2 then a.l2 < b.l2
  else if a.l1 ≠ b.l1 then a.l1 < b.l1
  else a.l0 < b.l0

/-- The remainder of the `m` digits at `u` by `d`; the quotient is left in the scratch area. -/
def digitsDivmod (fuel ws u m : Nat) (d : U256) (c : Cells) : Except Exn (U256 × Cells) :=
  let q := ws + 27
  let r := ws + 44
  let v := ws + 70
  let c := u256ToDigits v d c
  let n := digitsLen v 8 c
  let mm := digitsLen u m c
  let c := zeroDigits q 16 c
  if mm < n then .ok (digitsToU256 u c, c)
  else do
    let c := zeroDigits r 8 c
    let c ← divmnu fuel ws q r u mm v n c
    return (digitsToU256 r c, c)

/-- The quotient and the remainder, both 0 for a zero divisor. -/
def u256Divmod (fuel ws : Nat) (a b : U256) (c : Cells) : Except Exn (U512 × Cells) :=
  if b.IsZero then .ok (⟨.zero, .zero⟩, c)
  else if u256Lt a b then .ok (⟨.zero, a⟩, c)
  else if SingleWords a b then do
    let qr ← udivmod a.l0 b.l0
    return (⟨u256FromWord qr.1, u256FromWord qr.2⟩, c)
  else do
    let u := ws + 53
    let s ← digitsDivmod fuel ws u 8 b (u256ToDigits u a c)
    return (⟨digitsToU256 (ws + 27) s.2, s.1⟩, s.2)

def u256Div (fuel ws : Nat) (a b : U256) (c : Cells) : Except Exn (U256 × Cells) := do
  let s ← u256Divmod fuel ws a b c
  return (s.1.lo, s.2)

def u256Mod (fuel ws : Nat) (a b : U256) (c : Cells) : Except Exn (U256 × Cells) := do
  let s ← u256Divmod fuel ws a b c
  return (s.1.hi, s.2)

/-- The remainder of the sum with its carry. -/
def u256Addmod (fuel ws : Nat) (a b m : U256) (c : Cells) : Except Exn (U256 × Cells) :=
  if m.IsZero then .ok (.zero, c)
  else
    let s := u256AddCarry a b
    if s.2 = 0 then u256Mod fuel ws s.1 m c
    else
      let u := ws + 53
      let c := u256ToDigits u s.1 c
      let c := Function.update c (u + 8) 1
      let c := Function.update c (u + 9) 0
      digitsDivmod fuel ws u 10 m c

/-- The remainder of the product of eight words. -/
def u256Mulmod (fuel ws : Nat) (a b m : U256) (c : Cells) : Except Exn (U256 × Cells) :=
  if m.IsZero then .ok (.zero, c)
  else
    let u := ws + 53
    if SingleWords a b then
      let p := mul64x64 a.l0 b.l0
      if p.2 = 0 then u256Mod fuel ws ⟨p.1, 0, 0, 0⟩ m c
      else digitsDivmod fuel ws u 4 m (u256ToDigits u ⟨p.1, p.2, 0, 0⟩ c)
    else
      let f := u256MulFull a b
      let c := u256ToDigits u f.lo c
      let c := u256ToDigits (u + 8) f.hi c
      digitsDivmod fuel ws u 16 m c

/-! ## Words -/

theorem udivmod_value (a : Word) {b : Word} (hb : b ≠ 0) :
    ∃ qr, udivmod a b = .ok qr ∧ qr.1.toNat = a.toNat / b.toNat ∧ qr.2.toNat = a.toNat % b.toNat := by
  have hpos : 0 < b.toNat := Nat.pos_of_ne_zero fun hz => hb (BitVec.eq_of_toNat_eq hz)
  rw [udivmod, if_neg hb]
  split
  · next hlt =>
    rw [BitVec.lt_def] at hlt
    exact ⟨_, rfl, (Nat.div_eq_of_lt hlt).symm, (Nat.mod_eq_of_lt hlt).symm⟩
  · have ha := a.isLt
    have hmod := Nat.mod_eq_of_lt ha
    obtain ⟨hvalue, hrest⟩ := divBits_value a (q := 0) (r := 0) (Nat.le_refl 64) hpos
      (Nat.dvd_zero _) (by rw [show (0 : Word).toNat = 0 from rfl, Nat.zero_mul, hmod]; omega)
    rw [show (0 : Word).toNat = 0 from rfl, Nat.zero_mul, Nat.zero_mul, hmod, Nat.zero_add,
      Nat.add_comm] at hvalue
    obtain ⟨hdiv, hrem⟩ := div_mod_of_split hpos hvalue hrest
    exact ⟨_, rfl, hdiv.symm, hrem.symm⟩

theorem U256.isZero_iff (a : U256) : a.IsZero ↔ a.toNat = 0 := by
  unfold IsZero
  rw [show (0 : Word) = 0#64 from rfl]
  simp only [BitVec.or_eq_zero_iff]
  unfold toNat
  constructor
  · rintro ⟨⟨⟨h0, h1⟩, h2⟩, h3⟩
    rw [h0, h1, h2, h3]
    rfl
  · intro h
    exact ⟨⟨⟨BitVec.eq_of_toNat_eq (by simp; omega), BitVec.eq_of_toNat_eq (by simp; omega)⟩,
      BitVec.eq_of_toNat_eq (by simp; omega)⟩, BitVec.eq_of_toNat_eq (by simp; omega)⟩

/-- The limbs above the lowest are zero. -/
theorem SingleWords.toNat {a b : U256} (h : SingleWords a b) :
    a.toNat = a.l0.toNat ∧ b.toNat = b.l0.toNat := by
  unfold SingleWords at h
  rw [show (0 : Word) = 0#64 from rfl] at h
  simp only [BitVec.or_eq_zero_iff] at h
  obtain ⟨⟨⟨⟨⟨ha1, ha2⟩, ha3⟩, hb1⟩, hb2⟩, hb3⟩ := h
  unfold U256.toNat
  rw [ha1, ha2, ha3, hb1, hb2, hb3]
  exact ⟨rfl, rfl⟩

theorem toNat_u256FromWord (w : Word) : (u256FromWord w).toNat = w.toNat := rfl

/-- The highest limb that differs decides. -/
theorem u256Lt_iff (a b : U256) : u256Lt a b = true ↔ a.toNat < b.toNat := by
  have hne : ∀ x y : Word, x ≠ y → x.toNat ≠ y.toNat := fun x y h h' => h (BitVec.eq_of_toNat_eq h')
  have ha0 := a.l0.isLt
  have ha1 := a.l1.isLt
  have ha2 := a.l2.isLt
  have hb0 := b.l0.isLt
  have hb1 := b.l1.isLt
  have hb2 := b.l2.isLt
  unfold u256Lt U256.toNat
  split
  · next h =>
    have := hne _ _ h
    rw [decide_eq_true_iff, BitVec.lt_def]
    omega
  · next h3 =>
    rw [not_not.mp h3]
    split
    · next h =>
      have := hne _ _ h
      rw [decide_eq_true_iff, BitVec.lt_def]
      omega
    · next h2 =>
      rw [not_not.mp h2]
      split
      · next h =>
        have := hne _ _ h
        rw [decide_eq_true_iff, BitVec.lt_def]
        omega
      · next h1 =>
        rw [not_not.mp h1, decide_eq_true_iff, BitVec.lt_def]
        omega

/-! ## Divisions in the scratch area -/

section

variable {fuel ws q r u v m n : Nat} {c c' : Cells}

/-- The operands of `divmnu` overlap neither each other nor its scratch arrays. -/
structure Operands (q r u m v n ws : Nat) : Prop where
  quotient_dividend : q + m ≤ u ∨ u + m ≤ q
  quotient_rest : q + m ≤ r ∨ r + n ≤ q
  quotient : q + m ≤ ws ∨ ws + 27 ≤ q
  rest : r + n ≤ ws ∨ ws + 27 ≤ r
  dividend : u + m ≤ ws ∨ ws + 27 ≤ u
  divisor : v + n ≤ ws ∨ ws + 27 ≤ v

/-- The shifted digits fit: a divisor of one digit is not shifted. -/
def Fits (m n : Nat) : Prop := n = 1 ∨ m ≤ 17 ∧ n ≤ 9

theorem Operands.layout (h : Operands q r u m v n ws) (hm : m ≤ 17) (hn : n ≤ 9) :
    Layout q r u m v n ws (ws + 18) := by
  have h₁ := h.quotient
  have h₂ := h.rest
  have h₃ := h.dividend
  have h₄ := h.divisor
  exact ⟨h.quotient_dividend, h.quotient_rest, by omega, by omega, by omega, by omega, by omega,
    by omega, by omega⟩

/-- The result of a division with the scratch arrays at `ws`. -/
structure DividedAt (q r u m v n ws : Nat) (c c' : Cells) : Prop where
  quotient : c'.value q m = c.value u m / c.value v n
  quotientDigits : c'.IsDigits q m
  rest : c'.value r n = c.value u m % c.value v n
  restDigits : c'.IsDigits r n
  off : ∀ x, x < q ∨ q + m ≤ x → x < r ∨ r + n ≤ x → x < ws ∨ ws + 27 ≤ x → c' x = c x

theorem divmnu_value (h : Operands q r u m v n ws) (hfits : Fits m n) (hn : 1 ≤ n) (hnm : n ≤ m)
    (hu : c.IsDigits u m) (hv : c.IsDigits v n) (htop : c (v + (n - 1)) ≠ 0) (hfuel : 3 ≤ fuel) :
    ∃ c', divmnu fuel ws q r u m v n c = .ok c' ∧ DividedAt q r u m v n ws c c' := by
  unfold divmnu
  rcases hfits with hone | ⟨hm, hn9⟩
  · subst hone
    have hdone := divDigit_divided ws (ws + 18) h.quotient_dividend h.quotient_rest hu hv htop
    refine ⟨_, if_pos rfl, hdone.quotient, hdone.quotientDigits, hdone.rest, hdone.restDigits,
      fun x hx hx' _ => ?_⟩
    rw [Function.update_of_ne (by omega)]
    exact (divDigit_value 0 (hv 0 (by decide))
      (Nat.pos_of_ne_zero fun hz => htop (BitVec.eq_of_toNat_eq hz)) hu h.quotient_dividend).2.2.2 x hx
  · obtain ⟨c', hrun, hdone⟩ := bnDivmnu_value (h.layout hm hn9) hn hnm hu hv htop hfuel
    exact ⟨c', hrun, hdone.quotient, hdone.quotientDigits, hdone.rest, hdone.restDigits,
      fun x hx hx' hws => hdone.off x hx hx' (by omega) (by omega)⟩

/-- What a division leaves of the memory: everything outside the scratch area. -/
def OffScratch (ws : Nat) (c c' : Cells) : Prop := ∀ x, x < ws ∨ ws + 80 ≤ x → c' x = c x

theorem OffScratch.refl (ws : Nat) (c : Cells) : OffScratch ws c c := fun _ _ => rfl

theorem Cells.value_of_zero_above (hmn : m ≤ n) (h : ∀ i, m ≤ i → i < n → c (q + i) = 0) :
    c.value q n = c.value q m :=
  Digits.value_of_zero_above hmn fun i hi hin => congrArg BitVec.toNat (h i hi hin)

theorem Cells.IsDigits.of_zero_above (hc : c.IsDigits q m)
    (h : ∀ i, m ≤ i → i < n → c (q + i) = 0) : c.IsDigits q n := by
  intro i hi
  by_cases him : i < m
  · exact hc i him
  · unfold digit
    rw [h i (by omega) hi]
    exact Nat.two_pow_pos 32

theorem Cells.IsDigits.congr (hc : c.IsDigits q n) (h : ∀ i < n, c' (r + i) = c (q + i)) :
    c'.IsDigits r n := by
  intro i hi
  unfold digit
  rw [h i hi]
  exact hc i hi

/-- More significant digits make the larger number. -/
theorem Cells.value_lt_of_digits_lt (hc : c.IsDigits q m) (hmn : m < n) (htop : c (r + (n - 1)) ≠ 0) :
    c.value q m < c.value r n := by
  obtain ⟨k, rfl⟩ : ∃ k, n = k + 1 := ⟨n - 1, by omega⟩
  have hpos : 0 < (c (r + k)).toNat := Nat.pos_of_ne_zero fun hz => htop (BitVec.eq_of_toNat_eq hz)
  rw [value_succ]
  refine Nat.lt_of_lt_of_le (value_lt hc) ?_
  refine (Nat.pow_le_pow_right (Nat.two_pow_pos 32) (by omega : m ≤ k)).trans ?_
  exact (Nat.le_mul_of_pos_left _ hpos).trans (Nat.le_add_left _ _)

/-- The operands of `digitsDivmod` in the scratch area. -/
theorem operands_scratch (ws n : Nat) (hm : m ≤ 16) :
    Operands (ws + 27) (ws + 44) (ws + 53) m (ws + 70) n ws :=
  ⟨by omega, by omega, by omega, by omega, by omega, by omega⟩

/-- The `m` digits at `ws + 53` by `d`; at least eight of them are written. -/
theorem digitsDivmod_value {d : U256} (hd : d.toNat ≠ 0) (hm : m ≤ 16)
    (hu : c.IsDigits (ws + 53) m) (hzero : ∀ i, m ≤ i → i < 8 → c (ws + 53 + i) = 0)
    (hfuel : 3 ≤ fuel) :
    ∃ s, digitsDivmod fuel ws (ws + 53) m d c = .ok s ∧
      s.1.toNat = c.value (ws + 53) m % d.toNat ∧
      s.2.value (ws + 27) 16 = c.value (ws + 53) m / d.toNat ∧
      s.2.IsDigits (ws + 27) 16 ∧ OffScratch ws c s.2 := by
  have hV := value_u256ToDigits (ws + 70) d c
  have hVdigits := u256ToDigits_isDigits (ws + 70) d c
  have hoff₁ : ∀ x, x < ws + 70 ∨ ws + 70 + 8 ≤ x → u256ToDigits (ws + 70) d c x = c x :=
    fun x hx => u256ToDigits_off hx
  unfold digitsDivmod
  dsimp only
  generalize u256ToDigits (ws + 70) d c = c₁ at *
  have hu₁ : ∀ i < 16, c₁ (ws + 53 + i) = c (ws + 53 + i) := fun i hi => hoff₁ _ (by omega)
  have hudigits : c₁.IsDigits (ws + 53) m := hu.congr fun i hi => hu₁ i (by omega)
  have hU : c₁.value (ws + 53) m = c.value (ws + 53) m :=
    Cells.value_congr fun i hi => hu₁ i (by omega)
  -- the significant digits of both
  have hn := digitsLen_le (ws + 70) 8 c₁
  have hmm := digitsLen_le (ws + 53) m c₁
  have hVn := value_digitsLen (ws + 70) 8 c₁
  have hUm := value_digitsLen (ws + 53) m c₁
  rw [hV] at hVn
  rw [hU] at hUm
  have hpos : digitsLen (ws + 70) 8 c₁ ≠ 0 := fun hz => by
    rw [hz] at hVn
    exact hd hVn.symm
  have htop := digitsLen_top hpos
  have habove : ∀ i, digitsLen (ws + 53) m c₁ ≤ i → i < m → c₁ (ws + 53 + i) = 0 :=
    fun i hi him => eq_zero_of_digitsLen_le hi him
  generalize digitsLen (ws + 70) 8 c₁ = n at *
  generalize digitsLen (ws + 53) m c₁ = mm at *
  have hq₂ : ∀ i, i < 16 → zeroDigits (ws + 27) 16 c₁ (ws + 27 + i) = 0 :=
    fun i hi => zeroDigits_at (by omega) (by omega)
  have hoff₂ : ∀ x, x < ws + 27 ∨ ws + 27 + 16 ≤ x → zeroDigits (ws + 27) 16 c₁ x = c₁ x :=
    fun x hx => zeroDigits_off hx
  generalize zeroDigits (ws + 27) 16 c₁ = c₂ at *
  have hmmdigits : c₂.IsDigits (ws + 53) mm :=
    Cells.IsDigits.congr (fun i hi => hudigits i (by omega)) fun i hi => hoff₂ _ (by omega)
  have hUmm : c₂.value (ws + 53) mm = c.value (ws + 53) m := by
    rw [← hUm]
    exact Cells.value_congr fun i hi => hoff₂ _ (by omega)
  have hVn₂ : c₂.value (ws + 70) n = d.toNat := by
    rw [← hVn]
    exact Cells.value_congr fun i hi => hoff₂ _ (by omega)
  have htop₂ : c₂ (ws + 70 + (n - 1)) ≠ 0 := by
    rwa [hoff₂ _ (by omega)]
  split
  · next hlt =>
    have hsmall : c.value (ws + 53) m < d.toNat := by
      rw [← hUmm, ← hVn₂]
      exact Cells.value_lt_of_digits_lt hmmdigits hlt htop₂
    have hrest : ∀ i, mm ≤ i → i < 8 → c₂ (ws + 53 + i) = 0 := by
      intro i hi hi8
      rw [hoff₂ _ (by omega)]
      by_cases him : i < m
      · exact habove i hi him
      · rw [hu₁ i (by omega)]
        exact hzero i (by omega) hi8
    refine ⟨_, rfl, ?_, ?_, ?_, fun x hx => ?_⟩
    · rw [toNat_digitsToU256 (hmmdigits.of_zero_above hrest),
        Cells.value_of_zero_above (by omega) hrest, hUmm, Nat.mod_eq_of_lt hsmall]
    · rw [Nat.div_eq_of_lt hsmall, Cells.value_of_zero_above (m := 0) (Nat.zero_le 16)
        fun i _ hi => hq₂ i hi]
      rfl
    · exact Cells.IsDigits.of_zero_above (m := 0) (fun i hi => absurd hi (Nat.not_lt_zero i))
        fun i _ hi => hq₂ i hi
    · dsimp only
      rw [hoff₂ x (by omega), hoff₁ x (by omega)]
  · next hle =>
    have hr₃ : ∀ i, i < 8 → zeroDigits (ws + 44) 8 c₂ (ws + 44 + i) = 0 :=
      fun i hi => zeroDigits_at (by omega) (by omega)
    have hoff₃ : ∀ x, x < ws + 44 ∨ ws + 44 + 8 ≤ x → zeroDigits (ws + 44) 8 c₂ x = c₂ x :=
      fun x hx => zeroDigits_off hx
    generalize zeroDigits (ws + 44) 8 c₂ = c₃ at *
    have hVdigits₃ : c₃.IsDigits (ws + 70) n :=
      Cells.IsDigits.congr (fun i hi => hVdigits i (by omega)) fun i hi => by
        rw [hoff₃ _ (by omega), hoff₂ _ (by omega)]
    obtain ⟨c₄, hrun, hdone⟩ := divmnu_value (operands_scratch ws n (by omega : mm ≤ 16))
      (.inr ⟨by omega, by omega⟩) (by omega) (by omega)
      (hmmdigits.congr fun i hi => hoff₃ _ (by omega)) hVdigits₃
      (by rwa [hoff₃ _ (by omega)]) hfuel
    have hquotient := hdone.quotient
    have hrest := hdone.rest
    rw [Cells.value_congr (c := c₂) fun i hi => hoff₃ (ws + 53 + i) (by omega),
      Cells.value_congr (c := c₂) fun i hi => hoff₃ (ws + 70 + i) (by omega), hUmm, hVn₂]
      at hquotient hrest
    have hqzero : ∀ i, mm ≤ i → i < 16 → c₄ (ws + 27 + i) = 0 := fun i hi hi16 => by
      rw [hdone.off _ (by omega) (by omega) (by omega), hoff₃ _ (by omega), hq₂ i hi16]
    have hrzero : ∀ i, n ≤ i → i < 8 → c₄ (ws + 44 + i) = 0 := fun i hi hi8 => by
      rw [hdone.off _ (by omega) (by omega) (by omega), hr₃ i hi8]
    rw [hrun]
    refine ⟨_, rfl, ?_, ?_, hdone.quotientDigits.of_zero_above hqzero, fun x hx => ?_⟩
    · dsimp only
      rw [toNat_digitsToU256 (hdone.restDigits.of_zero_above hrzero),
        Cells.value_of_zero_above hn hrzero, hrest]
    · dsimp only
      rw [Cells.value_of_zero_above (by omega) hqzero, hquotient]
    · dsimp only
      rw [hdone.off x (by omega) (by omega) (by omega), hoff₃ x (by omega), hoff₂ x (by omega),
        hoff₁ x (by omega)]

/-! ## The operations -/

theorem isDigits_scratch (a : U256) (ws : Nat) (c : Cells) :
    (u256ToDigits (ws + 53) a c).IsDigits (ws + 53) 8 := u256ToDigits_isDigits _ _ _

theorem offScratch_toDigits (a : U256) (ws : Nat) (c : Cells) :
    OffScratch ws c (u256ToDigits (ws + 53) a c) := fun _ hx => u256ToDigits_off (by omega)

theorem OffScratch.trans {c'' : Cells} (h : OffScratch ws c c') (h' : OffScratch ws c' c'') :
    OffScratch ws c c'' := fun x hx => (h' x hx).trans (h x hx)

theorem toNat_zero : U256.zero.toNat = 0 := rfl

/-- The quotient fits in eight digits, so the others are zero. -/
theorem value_quotient {v : Nat} (h : c.value q 16 = v) (hlt : v < 2 ^ 256) : c.value q 8 = v := by
  have hsplit := Cells.value_split c q 8 8
  have hpow : ((2 : Nat) ^ 32) ^ 8 = 2 ^ 256 := by rw [← Nat.pow_mul]
  rw [h, hpow] at hsplit
  have hzero : c.value (q + 8) 8 = 0 := by
    refine Nat.eq_zero_of_not_pos fun hpos => ?_
    have := Nat.mul_le_mul_left (2 ^ 256) hpos
    omega
  rw [hsplit, hzero, Nat.mul_zero, Nat.add_zero]

theorem u256Divmod_value (a b : U256) (ws : Nat) (c : Cells) (hfuel : 3 ≤ fuel) :
    ∃ s, u256Divmod fuel ws a b c = .ok s ∧ s.1.lo.toNat = a.toNat / b.toNat ∧
      s.1.hi.toNat = (if b.toNat = 0 then 0 else a.toNat % b.toNat) ∧ OffScratch ws c s.2 := by
  unfold u256Divmod
  by_cases hb : b.IsZero
  · rw [if_pos hb]
    rw [U256.isZero_iff] at hb
    refine ⟨_, rfl, ?_, ?_, OffScratch.refl ws c⟩
    · rw [hb, Nat.div_zero]
      rfl
    · rw [if_pos hb]
      rfl
  rw [if_neg hb]
  rw [U256.isZero_iff] at hb
  rw [if_neg hb]
  by_cases hlt : u256Lt a b = true
  · rw [if_pos hlt]
    rw [u256Lt_iff] at hlt
    exact ⟨_, rfl, (Nat.div_eq_of_lt hlt).symm, (Nat.mod_eq_of_lt hlt).symm, OffScratch.refl ws c⟩
  rw [if_neg hlt]
  by_cases hsingle : SingleWords a b
  · obtain ⟨ha, hb'⟩ := hsingle.toNat
    have hne : b.l0 ≠ 0 := fun hz => hb (by rw [hb', hz]; rfl)
    obtain ⟨qr, hrun, hq, hr⟩ := udivmod_value a.l0 hne
    rw [if_pos hsingle, hrun, ha, hb']
    exact ⟨_, rfl, hq, hr, OffScratch.refl ws c⟩
  · rw [if_neg hsingle]
    obtain ⟨s, hrun, hr, hq, hdigits, hoff⟩ := digitsDivmod_value (m := 8) hb
      (by decide) (isDigits_scratch a ws c) (fun i hi hi8 => absurd hi8 (Nat.not_lt.mpr hi)) hfuel
    rw [value_u256ToDigits] at hq hr
    dsimp only
    rw [hrun]
    refine ⟨_, rfl, ?_, hr, (offScratch_toDigits a ws c).trans hoff⟩
    dsimp only
    rw [toNat_digitsToU256 fun i hi => hdigits i (by omega)]
    exact value_quotient hq (Nat.lt_of_le_of_lt (Nat.div_le_self _ _) a.toNat_lt)

theorem u256Div_value (a b : U256) (ws : Nat) (c : Cells) (hfuel : 3 ≤ fuel) :
    ∃ s, u256Div fuel ws a b c = .ok s ∧ s.1.toNat = a.toNat / b.toNat ∧ OffScratch ws c s.2 := by
  obtain ⟨s, hrun, hq, -, hoff⟩ := u256Divmod_value a b ws c hfuel
  unfold u256Div
  rw [hrun]
  exact ⟨_, rfl, hq, hoff⟩

theorem u256Mod_value (a b : U256) (ws : Nat) (c : Cells) (hfuel : 3 ≤ fuel) :
    ∃ s, u256Mod fuel ws a b c = .ok s ∧
      s.1.toNat = (if b.toNat = 0 then 0 else a.toNat % b.toNat) ∧ OffScratch ws c s.2 := by
  obtain ⟨s, hrun, -, hr, hoff⟩ := u256Divmod_value a b ws c hfuel
  unfold u256Mod
  rw [hrun]
  exact ⟨_, rfl, hr, hoff⟩

/-- The digits of a sum that carries: those of its lower limbs and a one. -/
theorem u256Addmod_value (a b m : U256) (ws : Nat) (c : Cells) (hfuel : 3 ≤ fuel) :
    ∃ s, u256Addmod fuel ws a b m c = .ok s ∧
      s.1.toNat = (if m.toNat = 0 then 0 else (a.toNat + b.toNat) % m.toNat) ∧
      OffScratch ws c s.2 := by
  unfold u256Addmod
  by_cases hm : m.IsZero
  · rw [if_pos hm]
    rw [U256.isZero_iff] at hm
    rw [if_pos hm]
    exact ⟨_, rfl, rfl, OffScratch.refl ws c⟩
  rw [if_neg hm]
  rw [U256.isZero_iff] at hm
  obtain ⟨hsum, hcarry⟩ := u256AddCarry_value a b
  rw [if_neg hm, ← hsum]
  dsimp only
  generalize u256AddCarry a b = t at *
  split
  · next hzero =>
    rw [hzero, show (0 : Word).toNat = 0 from rfl, Nat.mul_zero, Nat.add_zero]
    have hmod := u256Mod_value t.1 m ws c hfuel
    rwa [if_neg hm] at hmod
  · next hone =>
    have hone' : t.2.toNat = 1 := by
      have : t.2.toNat ≠ 0 := fun hz => hone (BitVec.eq_of_toNat_eq hz)
      omega
    have hdigits := isDigits_scratch t.1 ws c
    have hvalue := value_u256ToDigits (ws + 53) t.1 c
    have hoff := offScratch_toDigits t.1 ws c
    generalize u256ToDigits (ws + 53) t.1 c = c₁ at *
    have hdigits₁ : Cells.IsDigits (Function.update c₁ (ws + 53 + 8) 1) (ws + 53) 9 :=
      isDigits_update_top hdigits (by decide)
    have hvalue₁ : Cells.value (Function.update c₁ (ws + 53 + 8) 1) (ws + 53) 9 =
        t.1.toNat + 1 * (2 ^ 32) ^ 8 := by
      rw [value_update_top, hvalue]
      rfl
    have hdigits₂ : Cells.IsDigits (Function.update (Function.update c₁ (ws + 53 + 8) 1)
        (ws + 53 + 9) 0) (ws + 53) 10 := isDigits_update_top hdigits₁ (by decide)
    have hvalue₂ : Cells.value (Function.update (Function.update c₁ (ws + 53 + 8) 1)
        (ws + 53 + 9) 0) (ws + 53) 10 = t.1.toNat + 2 ^ 256 * t.2.toNat := by
      rw [value_update_top, hvalue₁, hone', show (0 : Word).toNat = 0 from rfl, Nat.zero_mul,
        Nat.add_zero, ← Nat.pow_mul, Nat.mul_comm 1]
    obtain ⟨s, hrun, hr, -, -, hoff₂⟩ := digitsDivmod_value (m := 10) hm (by decide)
      hdigits₂ (fun i hi hi8 => by omega) hfuel
    rw [hvalue₂] at hr
    refine ⟨s, hrun, hr, fun x hx => ?_⟩
    rw [hoff₂ x hx, Function.update_of_ne (by omega), Function.update_of_ne (by omega), hoff x hx]

/-- A product of two words that does not fit in one is divided with four digits. -/
theorem u256Mulmod_value (a b m : U256) (ws : Nat) (c : Cells) (hfuel : 3 ≤ fuel) :
    ∃ s, u256Mulmod fuel ws a b m c = .ok s ∧
      s.1.toNat = (if m.toNat = 0 then 0 else a.toNat * b.toNat % m.toNat) ∧
      OffScratch ws c s.2 := by
  unfold u256Mulmod
  by_cases hm : m.IsZero
  · rw [if_pos hm]
    rw [U256.isZero_iff] at hm
    rw [if_pos hm]
    exact ⟨_, rfl, rfl, OffScratch.refl ws c⟩
  rw [if_neg hm]
  rw [U256.isZero_iff] at hm
  rw [if_neg hm]
  dsimp only
  by_cases hsingle : SingleWords a b
  · obtain ⟨ha, hb⟩ := hsingle.toNat
    have hprod := mul64x64_value a.l0 b.l0
    rw [if_pos hsingle, ha, hb, ← hprod]
    generalize mul64x64 a.l0 b.l0 = p at *
    split
    · next hzero =>
      rw [hzero, show (0 : Word).toNat = 0 from rfl, Nat.mul_zero, Nat.add_zero]
      have hmod := u256Mod_value ⟨p.1, 0, 0, 0⟩ m ws c hfuel
      rwa [if_neg hm] at hmod
    · have hdigits := isDigits_scratch ⟨p.1, p.2, 0, 0⟩ ws c
      have hvalue := value_u256ToDigits (ws + 53) ⟨p.1, p.2, 0, 0⟩ c
      have hoff := offScratch_toDigits ⟨p.1, p.2, 0, 0⟩ ws c
      have hzero : ∀ i, 4 ≤ i → i < 8 →
          u256ToDigits (ws + 53) ⟨p.1, p.2, 0, 0⟩ c (ws + 53 + i) = 0 := by
        intro i hi hi8
        rw [u256ToDigits_at hi8]
        obtain rfl | rfl | rfl | rfl : i = 4 ∨ i = 5 ∨ i = 6 ∨ i = 7 := by omega
        all_goals simp [U256.digit, U256.limb]
      generalize u256ToDigits (ws + 53) ⟨p.1, p.2, 0, 0⟩ c = c₁ at *
      obtain ⟨s, hrun, hr, -, -, hoff₂⟩ := digitsDivmod_value (m := 4) hm (by decide)
        (fun i hi => hdigits i (by omega)) hzero hfuel
      rw [← Cells.value_of_zero_above (by decide : 4 ≤ 8) hzero, hvalue] at hr
      exact ⟨s, hrun, hr, hoff.trans hoff₂⟩
  · rw [if_neg hsingle, ← toNat_u256MulFull a b]
    generalize u256MulFull a b = f at *
    have hlow := value_u256ToDigits (ws + 53) f.lo c
    have hlowDigits := isDigits_scratch f.lo ws c
    have hoff := offScratch_toDigits f.lo ws c
    generalize u256ToDigits (ws + 53) f.lo c = c₁ at *
    have hhigh := value_u256ToDigits (ws + 53 + 8) f.hi c₁
    have hhighDigits := u256ToDigits_isDigits (ws + 53 + 8) f.hi c₁
    have hoff₁ : ∀ x, x < ws + 53 + 8 ∨ ws + 53 + 8 + 8 ≤ x →
        u256ToDigits (ws + 53 + 8) f.hi c₁ x = c₁ x := fun x hx => u256ToDigits_off hx
    generalize u256ToDigits (ws + 53 + 8) f.hi c₁ = c₂ at *
    have hdigits : c₂.IsDigits (ws + 53) 16 := by
      intro i hi
      by_cases hi8 : i < 8
      · unfold Cells.digit
        rw [hoff₁ _ (by omega)]
        exact hlowDigits i hi8
      · have hdigit := hhighDigits (i - 8) (by omega)
        unfold Cells.digit at hdigit ⊢
        rwa [show ws + 53 + 8 + (i - 8) = ws + 53 + i by omega] at hdigit
    obtain ⟨s, hrun, hr, -, -, hoff₂⟩ := digitsDivmod_value hm (Nat.le_refl 16) hdigits
      (fun i hi hi8 => by omega) hfuel
    have hlow₂ : c₂.value (ws + 53) 8 = f.lo.toNat := by
      rw [← hlow]
      exact Cells.value_congr fun i hi => hoff₁ _ (by omega)
    rw [Cells.value_split c₂ (ws + 53) 8 8, hlow₂, hhigh, ← Nat.pow_mul] at hr
    exact ⟨s, hrun, hr, fun x hx => by rw [hoff₂ x hx, hoff₁ x (by omega), hoff x hx]⟩

/-! ## Exact divisions -/

/-- The dividend is the quotient times the divisor and a smaller remainder. -/
def Exact (q r u m v n : Nat) (c c' : Cells) : Prop :=
  c.value u m = c'.value q m * c.value v n + c'.value r n ∧ c'.value r n < c.value v n

/-- Digits, the top one of the divisor not zero. -/
structure Dividable (u m v n : Nat) (c : Cells) : Prop where
  pos : 1 ≤ n
  le : n ≤ m
  dividend : c.IsDigits u m
  divisor : c.IsDigits v n
  top : c (v + (n - 1)) ≠ 0

theorem Dividable.exact (h : Dividable u m v n c) (hq : c'.value q m = c.value u m / c.value v n)
    (hr : c'.value r n = c.value u m % c.value v n) : Exact q r u m v n c c' := by
  have hpos : 0 < c.value v n := by
    have hsplit : c.value v 0 < c.value v n :=
      Cells.value_lt_of_digits_lt (fun i hi => absurd hi (Nat.not_lt_zero i)) h.pos h.top
    exact Nat.zero_lt_of_lt hsplit
  unfold Exact
  rw [hq, hr, Nat.mul_comm, Nat.div_add_mod]
  exact ⟨rfl, Nat.mod_lt _ hpos⟩

/-- Every division is exact and ends, and writes only its results and its scratch area. Two scratch
arrays of fixed length take a dividend of 17 digits and a divisor of 9. -/
theorem division_exact :
    (∀ (fuel q r u m v n un vn : Nat) (c : Cells), Layout q r u m v n un vn →
      Dividable u m v n c → 3 ≤ fuel →
      ∃ c', bnDivmnu fuel q r u m v n un vn c = .ok c' ∧ Exact q r u m v n c c' ∧
        ∀ x, x < q ∨ q + m ≤ x → x < r ∨ r + n ≤ x → x < un ∨ un + m < x →
          x < vn ∨ vn + n ≤ x → c' x = c x) ∧
    (∀ (fuel ws q r u m v n : Nat) (c : Cells), Operands q r u m v n ws → Fits m n →
      Dividable u m v n c → 3 ≤ fuel →
      ∃ c', divmnu fuel ws q r u m v n c = .ok c' ∧ Exact q r u m v n c c' ∧
        ∀ x, x < q ∨ q + m ≤ x → x < r ∨ r + n ≤ x → x < ws ∨ ws + 27 ≤ x → c' x = c x) ∧
    (∀ (fuel ws : Nat) (a b : U256) (c : Cells), 3 ≤ fuel →
      ∃ s, u256Divmod fuel ws a b c = .ok s ∧ s.1.lo.toNat = a.toNat / b.toNat ∧
        s.1.hi.toNat = (if b.toNat = 0 then 0 else a.toNat % b.toNat) ∧ OffScratch ws c s.2) ∧
    (∀ (fuel ws : Nat) (a b m : U256) (c : Cells), 3 ≤ fuel →
      ∃ s, u256Addmod fuel ws a b m c = .ok s ∧
        s.1.toNat = (if m.toNat = 0 then 0 else (a.toNat + b.toNat) % m.toNat) ∧
        OffScratch ws c s.2) ∧
    ∀ (fuel ws : Nat) (a b m : U256) (c : Cells), 3 ≤ fuel →
      ∃ s, u256Mulmod fuel ws a b m c = .ok s ∧
        s.1.toNat = (if m.toNat = 0 then 0 else a.toNat * b.toNat % m.toNat) ∧
        OffScratch ws c s.2 := by
  refine ⟨fun fuel q r u m v n un vn c hlayout h hfuel => ?_,
    fun fuel ws q r u m v n c hops hfits h hfuel => ?_,
    fun fuel ws a b c hfuel => u256Divmod_value a b ws c hfuel,
    fun fuel ws a b m c hfuel => u256Addmod_value a b m ws c hfuel,
    fun fuel ws a b m c hfuel => u256Mulmod_value a b m ws c hfuel⟩
  · obtain ⟨c', hrun, hdone⟩ := bnDivmnu_value hlayout h.pos h.le h.dividend h.divisor h.top hfuel
    exact ⟨c', hrun, h.exact hdone.quotient hdone.rest, hdone.off⟩
  · obtain ⟨c', hrun, hdone⟩ :=
      divmnu_value hops hfits h.pos h.le h.dividend h.divisor h.top hfuel
    exact ⟨c', hrun, h.exact hdone.quotient hdone.rest, hdone.off⟩

end

/-! ## A dividend that does not fit -/

/-- A dividend and a divisor of 18 digits, the dividend the smaller one by its lowest digit. -/
def overlong : Cells := fun x =>
  if x = 117 ∨ x = 217 then 2147483648 else if x = 200 then 1 else 0

theorem shiftedDigit_congr {c c' : Cells} {src i : Nat} {s : Word}
    (h : ∀ k ≤ i, c' (src + k) = c (src + k)) : shiftedDigit c' src s i = shiftedDigit c src s i := by
  cases i with
  | zero => exact congrArg (fun w : Word => (w <<< s.toNat) &&& m32) (h 0 (Nat.le_refl 0))
  | succ i => rw [shiftedDigit, shiftedDigit, h (i + 1) (Nat.le_refl _), h i (Nat.le_succ i)]

theorem shiftedDigit_overlong : ∀ i < 18,
    shiftedDigit overlong 100 0 i = (if i = 17 then 2147483648 else 0) ∧
      (i ≠ 0 → shiftedDigit overlong 200 0 i = (if i = 17 then 2147483648 else 0)) := by
  decide +kernel

/-- The carry of the dividend is written over the lowest digit of the divisor, after which they are
equal. -/
theorem divmnu_overlong_run :
    ∃ c', divmnu 3 0 300 400 100 18 200 18 overlong = .ok c' ∧ c' 300 = 1 := by
  have hoff₁ : ∀ x, x < 18 ∨ 35 < x → shiftUp 18 200 0 17 overlong x = overlong x :=
    fun x hx => shiftUp_off (by omega)
  have hat₁ : ∀ i ≤ 17, shiftUp 18 200 0 17 overlong (18 + i) = shiftedDigit overlong 200 0 i :=
    fun i hi => shiftUp_at (by decide) hi
  have hrun : divmnu 3 0 300 400 100 18 200 18 overlong =
      (quotientDigits 3 300 0 18 18
        (shiftUp 0 100 0 17 (Function.update (shiftUp 18 200 0 17 overlong) 18
          (shiftUp 18 200 0 17 overlong 117 >>> 32)) 35)
        (shiftUp 0 100 0 17 (Function.update (shiftUp 18 200 0 17 overlong) 18
          (shiftUp 18 200 0 17 overlong 117 >>> 32)) 34) 1
        (shiftUp 0 100 0 17 (Function.update (shiftUp 18 200 0 17 overlong) 18
          (shiftUp 18 200 0 17 overlong 117 >>> 32)))).bind
        fun c => .ok (shiftDown 400 0 0 18 (zeroDigits 301 17 c)) := rfl
  rw [hrun]
  generalize shiftUp 18 200 0 17 overlong = c₁ at *
  have hcarry : c₁ 117 >>> 32 = 0 := by
    rw [hoff₁ 117 (by decide)]
    rfl
  rw [hcarry]
  have hoff₂ : ∀ x, 18 ≤ x → shiftUp 0 100 0 17 (Function.update c₁ 18 0) x =
      Function.update c₁ 18 0 x := fun x hx => shiftUp_off (by omega)
  have hat₂ : ∀ i < 18, shiftUp 0 100 0 17 (Function.update c₁ 18 0) (0 + i) =
      if i = 17 then 2147483648 else 0 := fun i hi => by
    rw [shiftUp_at (by decide) (by omega), shiftedDigit_congr (c := overlong) fun k hk => by
      rw [Function.update_of_ne (by omega), hoff₁ _ (by omega)]]
    exact (shiftedDigit_overlong i hi).1
  generalize shiftUp 0 100 0 17 (Function.update c₁ 18 0) = c₂ at *
  have htop : c₂ (0 + 18) = 0 := by
    rw [hoff₂ _ (by decide)]
    exact Function.update_self _ _ _
  have hvn : ∀ i < 18, c₂ (18 + i) = c₂ (0 + i) := fun i hi => by
    rw [hat₂ i hi, hoff₂ _ (by omega)]
    by_cases hzero : i = 0
    · rw [hzero]
      exact Function.update_self _ _ _
    · rw [Function.update_of_ne (by omega), hat₁ i (by omega)]
      exact (shiftedDigit_overlong i hi).2 hzero
  have hdigits : c₂.IsDigits 0 18 := fun i hi => by
    unfold Cells.digit
    rw [hat₂ i hi]
    split <;> decide
  have hvalue : c₂.value 0 19 = c₂.value 18 18 := by
    rw [Cells.value_of_zero_above (by decide : 18 ≤ 19) fun i hi hi19 => by
      obtain rfl : i = 18 := by omega
      exact htop]
    exact (Cells.value_congr hvn).symm
  have hvtop : c₂ (18 + (18 - 1)) = 2147483648 := (hvn 17 (by decide)).trans (hat₂ 17 (by decide))
  have hV : 0 < c₂.value 18 18 := by
    have hsplit : c₂.value 18 0 < c₂.value 18 18 :=
      Cells.value_lt_of_digits_lt (fun i hi => absurd hi (Nat.not_lt_zero i)) (by decide)
        (by rw [hvtop]; decide)
    exact Nat.zero_lt_of_lt hsplit
  have hready : DigitReady 300 0 18 18 0 c₂ :=
    { two := by decide
      window := hdigits.of_zero_above fun i hi hi19 => by
        obtain rfl : i = 18 := by omega
        exact htop
      divisor := hdigits.congr hvn
      top := by rw [hvtop]; decide
      below := by
        rw [hvalue]
        omega
      apart := by decide
      quotient := by decide
      quotient' := by decide }
  obtain ⟨c₃, hdigit, hdone⟩ := quotientDigit_value hready (Nat.le_refl 3)
  have hone : c₃ 300 = 1 := by
    refine BitVec.eq_of_toNat_eq (hdone.digit.trans ?_)
    rw [Nat.zero_add, hvalue, Nat.div_self hV]
    rfl
  refine ⟨shiftDown 400 0 0 18 (zeroDigits 301 17 c₃), ?_, ?_⟩
  · rw [quotientDigits]
    dsimp only [bind, Except.bind] at hdigit ⊢
    rw [hdigit]
    rfl
  · rw [shiftDown_off (by decide), zeroDigits_off (by decide), hone]

/-- With more digits than its scratch arrays hold the division is wrong. -/
theorem divmnu_overlong :
    ¬∀ (fuel ws q r u m v n : Nat) (c : Cells), Operands q r u m v n ws → Dividable u m v n c →
      3 ≤ fuel → ∃ c', divmnu fuel ws q r u m v n c = .ok c' ∧ Exact q r u m v n c c' := by
  intro h
  obtain ⟨c', hrun, hexact, -⟩ := h 3 0 300 400 100 18 200 18 overlong
    ⟨by decide, by decide, by decide, by decide, by decide, by decide⟩
    ⟨by decide, by decide, by unfold Cells.IsDigits; decide +kernel,
      by unfold Cells.IsDigits; decide +kernel, by decide⟩ (Nat.le_refl 3)
  obtain ⟨c₁, hrun₁, hone⟩ := divmnu_overlong_run
  obtain rfl : c₁ = c' := Except.ok.inj (hrun₁.symm.trans hrun)
  have hquotient : 1 ≤ c₁.value 300 18 := by
    have hsplit := Cells.value_split c₁ 300 1 17
    have hlow : c₁.value 300 1 = (c₁ 300).toNat := Digits.value_one _ _
    rw [hlow, hone] at hsplit
    rw [hsplit]
    exact Nat.le_add_right _ _
  have hlt : overlong.value 100 18 < overlong.value 200 18 := by decide +kernel
  have hle := Nat.mul_le_mul_right (overlong.value 200 18) hquotient
  omega

end StatelessGuest.Limb
