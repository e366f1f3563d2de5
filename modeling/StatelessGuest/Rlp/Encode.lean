import StatelessGuest.Base

/-!
# RLP encoding

Strings, scalars and list headers. A payload of at most 55 bytes has a one-byte header, a
longer one spells its length out in minimal big-endian form.

* `rlpBe`: the minimal big-endian form of a number; `beNat_rlpBe`, `rlpBe_beNat` undo it.
-/

namespace StatelessGuest

/-- Count the bytes of a number; every round drops one. -/
def rlpBeLenLoop : Nat → Nat → Nat
  | 0, _ => 0
  | fuel + 1, v => if v = 0 then 0 else rlpBeLenLoop fuel (v / 256) + 1

/-- The length of a number's minimal big-endian form. -/
def rlpBeLen (v : Nat) : Nat := rlpBeLenLoop v v

/-- The minimal big-endian form of a number. -/
def rlpBe (v : Nat) : Bytes := beBytes (rlpBeLen v) v

/-- The header of a payload of `n` bytes, with the base of its short form. -/
def rlpWriteHeader (base n : Nat) : Bytes :=
  if n ≤ 55 then [UInt8.ofNat (base + n)]
  else UInt8.ofNat (base + 55 + rlpBeLen n) :: rlpBe n

/-- The encoding of a byte string. -/
def rlpEncodeBytes (bs : Bytes) : Bytes :=
  match bs with
  | [b] => if b < 128 then [b] else rlpWriteHeader 128 1 ++ [b]
  | bs => rlpWriteHeader 128 bs.length ++ bs

/-- The encoding of a scalar. -/
def rlpEncodeWord (n : Nat) : Bytes :=
  if n = 0 then [128]
  else if n < 128 then [UInt8.ofNat n]
  else UInt8.ofNat (128 + rlpBeLen n) :: rlpBe n

/-- The encoding of a 256-bit integer, as the string of its minimal bytes. -/
def rlpPutU256 (v : BitVec 256) : Bytes := rlpEncodeBytes (rlpBe v.toNat)

def rlpEncodeListHeader (n : Nat) : Bytes := rlpWriteHeader 192 n

/-- The list with an encoded payload. -/
def rlpEncodeList (payload : Bytes) : Bytes := rlpEncodeListHeader payload.length ++ payload

/-! ## Minimal big-endian forms -/

theorem rlpBeLenLoop_eq {n m v : Nat} (hn : v ≤ n) (hm : v ≤ m) :
    rlpBeLenLoop n v = rlpBeLenLoop m v := by
  induction n generalizing m v with
  | zero =>
    obtain rfl := Nat.le_zero.mp hn
    cases m <;> rfl
  | succ n ih =>
    cases m with
    | zero =>
      obtain rfl := Nat.le_zero.mp hm
      rfl
    | succ m =>
      unfold rlpBeLenLoop
      split
      · rfl
      · rw [ih (m := m) (by omega) (by omega)]

@[simp] theorem rlpBeLen_zero : rlpBeLen 0 = 0 := rfl

theorem rlpBeLen_pos {v : Nat} (h : v ≠ 0) : rlpBeLen v = rlpBeLen (v / 256) + 1 := by
  obtain ⟨n, rfl⟩ := Nat.exists_eq_succ_of_ne_zero h
  unfold rlpBeLen
  rw [rlpBeLenLoop, if_neg h, rlpBeLenLoop_eq (m := (n + 1) / 256) (by omega) (Nat.le_refl _)]

/-- The length of a minimal form, by the range of the number. -/
theorem rlpBeLen_eq {n v : Nat} (hlo : 256 ^ n ≤ v) (hhi : v < 256 ^ (n + 1)) :
    rlpBeLen v = n + 1 := by
  induction n generalizing v with
  | zero =>
    rw [rlpBeLen_pos (by omega), Nat.div_eq_of_lt (by omega)]
    rfl
  | succ n ih =>
    rw [Nat.pow_succ] at hlo hhi
    rw [rlpBeLen_pos (by omega), ih (by omega) (by omega)]

theorem rlpBeLen_le {n v : Nat} (h : v < 256 ^ n) : rlpBeLen v ≤ n := by
  induction n generalizing v with
  | zero =>
    obtain rfl := Nat.lt_one_iff.mp h
    exact Nat.le_refl 0
  | succ n ih =>
    by_cases hv : v = 0
    · rw [hv]
      exact Nat.zero_le _
    · rw [Nat.pow_succ] at h
      rw [rlpBeLen_pos hv]
      exact Nat.succ_le_succ (ih (by omega))

theorem lt_rlpBeLen (v : Nat) : v < 256 ^ rlpBeLen v := by
  induction v using Nat.strongRecOn with
  | ind v ih =>
    by_cases hv : v = 0
    · rw [hv]
      exact Nat.one_pos
    · have h := ih (v / 256) (by omega)
      rw [rlpBeLen_pos hv, Nat.pow_succ]
      omega

@[simp] theorem length_rlpBe (v : Nat) : (rlpBe v).length = rlpBeLen v := length_beBytes _ _

@[simp] theorem beNat_rlpBe (v : Nat) : beNat (rlpBe v) = v := beNat_beBytes_of_lt (lt_rlpBeLen v)

/-- A string without a leading zero is the minimal form of its number. -/
theorem rlpBe_beNat {bs : Bytes} (h : bs.head? ≠ some 0) : rlpBe (beNat bs) = bs := by
  cases bs with
  | nil => rfl
  | cons b bs =>
    have hb : b.toNat ≠ 0 := fun hb => h (congrArg some (UInt8.toNat_inj.mp hb))
    have hpow : 256 ^ bs.length ≤ b.toNat * 256 ^ bs.length :=
      Nat.le_mul_of_pos_left _ (Nat.pos_of_ne_zero hb)
    have hlen : rlpBeLen (beNat (b :: bs)) = (b :: bs).length := by
      refine rlpBeLen_eq ?_ (beNat_lt (b :: bs))
      rw [beNat_cons]
      omega
    unfold rlpBe
    rw [hlen, beBytes_beNat]

theorem head_rlpBe (v : Nat) : (rlpBe v).head? ≠ some 0 := by
  intro h
  cases hv : rlpBe v with
  | nil =>
    rw [hv] at h
    cases h
  | cons b bs =>
    rw [hv] at h
    obtain rfl := Option.some.inj h
    have hnat := beNat_rlpBe v
    have hlen := length_rlpBe v
    rw [hv] at hnat hlen
    rw [beNat_cons] at hnat
    have hlt := beNat_lt bs
    have hle : rlpBeLen v ≤ bs.length := rlpBeLen_le (by
      have hzero : (0 : UInt8).toNat = 0 := rfl
      rw [hzero] at hnat
      omega)
    rw [List.length_cons] at hlen
    omega

end StatelessGuest
