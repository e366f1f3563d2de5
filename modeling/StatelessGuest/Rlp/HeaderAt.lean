import StatelessGuest.Rlp.Scan

/-!
# RLP headers in memory

The header checks on addresses are those on byte strings, and read nothing outside of the bytes.

* `Buffer.bytes`, `Buffer.Within`: the bytes at an address, and that they can be read.
* `rlpItemHeader_eq`: the header checks.
-/

namespace StatelessGuest

open Lib

/-! ## Buffers -/

namespace Buffer

/-- The `len` bytes at `p`. -/
def bytes (b : Buffer) (p len : Word) : Bytes :=
  (List.range len.toNat).map fun i => b.byte (p + BitVec.ofNat 64 i)

/-- The `len` bytes at `p` can be read. -/
structure Within (b : Buffer) (p len : Word) : Prop where
  readable : ∀ i < len.toNat, p + BitVec.ofNat 64 i - b.start < b.len

variable {b : Buffer} {p len : Word}

@[simp] theorem length_bytes : (b.bytes p len).length = len.toNat := by
  simp [bytes]

theorem getElem_bytes {i : Nat} (h : i < (b.bytes p len).length) :
    (b.bytes p len)[i] = b.byte (p + BitVec.ofNat 64 i) := by
  simp [bytes]

/-- Bytes at an address. -/
def ofBytes (start : Word) (bs : Bytes) : Buffer where
  byte p := bs.getD (p - start).toNat 0
  start := start
  len := BitVec.ofNat 64 bs.length

theorem bytes_ofBytes (start : Word) {bs : Bytes} (h : bs.length < 2 ^ 64) :
    (ofBytes start bs).bytes start (BitVec.ofNat 64 bs.length) = bs := by
  have hlen : (BitVec.ofNat 64 bs.length).toNat = bs.length := by
    rw [BitVec.toNat_ofNat, Nat.mod_eq_of_lt h]
  refine List.ext_getElem (by rw [length_bytes, hlen]) fun i h₁ h₂ => ?_
  have hi : (start + BitVec.ofNat 64 i - start).toNat = i := by
    rw [BitVec.add_comm, BitVec.add_sub_cancel, BitVec.toNat_ofNat, Nat.mod_eq_of_lt (by omega)]
  rw [getElem_bytes]
  change bs.getD (start + BitVec.ofNat 64 i - start).toNat 0 = _
  rw [hi, List.getD_eq_getElem?_getD, List.getElem?_eq_getElem h₂]
  rfl

theorem toNat_sub_ofNat {k : Nat} (h : k ≤ len.toNat) :
    (len - BitVec.ofNat 64 k).toNat = len.toNat - k := by
  have hlt := len.isLt
  have hk : (BitVec.ofNat 64 k).toNat = k := by
    rw [BitVec.toNat_ofNat, Nat.mod_eq_of_lt (by omega)]
  rw [BitVec.toNat_sub_of_le (by rw [BitVec.le_def, hk]; exact h), hk]

theorem bytes_drop {k : Nat} (h : k ≤ len.toNat) :
    (b.bytes p len).drop k = b.bytes (p + BitVec.ofNat 64 k) (len - BitVec.ofNat 64 k) := by
  refine List.ext_getElem ?_ fun i h₁ h₂ => ?_
  · rw [List.length_drop, length_bytes, length_bytes, toNat_sub_ofNat h]
  · rw [List.getElem_drop, getElem_bytes, getElem_bytes, BitVec.ofNat_add, BitVec.add_assoc]

theorem bytes_take {k : Word} (h : k ≤ len) : (b.bytes p len).take k.toNat = b.bytes p k := by
  refine List.ext_getElem ?_ fun i h₁ h₂ => ?_
  · rw [List.length_take, length_bytes, length_bytes]
    exact Nat.min_eq_left (BitVec.le_def.mp h)
  · rw [List.getElem_take, getElem_bytes, getElem_bytes]

theorem bytes_zero : b.bytes p 0 = [] := rfl

theorem bytes_cons (h : len ≠ 0) : b.bytes p len = b.byte p :: b.bytes (p + 1) (len - 1) := by
  have hpos : 1 ≤ len.toNat := Nat.pos_of_ne_zero fun hz => h (BitVec.eq_of_toNat_eq hz)
  have hdrop := bytes_drop (b := b) (p := p) hpos
  cases hbs : b.bytes p len with
  | nil =>
    have hlen := congrArg List.length hbs
    rw [length_bytes, List.length_nil] at hlen
    omega
  | cons x rest =>
    have hx : (b.bytes p len)[0]? = some x := by
      rw [hbs]
      rfl
    rw [List.getElem?_eq_getElem (by rw [length_bytes]; exact hpos), getElem_bytes] at hx
    have hself : p + BitVec.ofNat 64 0 = p := BitVec.add_zero p
    rw [hself] at hx
    rw [hbs] at hdrop
    have hrest : rest = b.bytes (p + 1) (len - 1) := hdrop
    rw [← Option.some.inj hx, hrest]

theorem within_self (b : Buffer) : b.Within b.start b.len := by
  refine ⟨fun i hi => ?_⟩
  have hlt := b.len.isLt
  rw [BitVec.add_comm, BitVec.add_sub_cancel, BitVec.lt_def, BitVec.toNat_ofNat, Nat.mod_eq_of_lt (by omega)]
  exact hi

theorem Within.drop (h : b.Within p len) {k : Nat} (hk : k ≤ len.toNat) :
    b.Within (p + BitVec.ofNat 64 k) (len - BitVec.ofNat 64 k) := by
  refine ⟨fun i hi => ?_⟩
  rw [toNat_sub_ofNat hk] at hi
  rw [BitVec.add_assoc, ← BitVec.ofNat_add]
  exact h.readable (k + i) (by omega)

theorem Within.take (h : b.Within p len) {k : Word} (hk : k ≤ len) : b.Within p k :=
  ⟨fun i hi => h.readable i (Nat.lt_of_lt_of_le hi (BitVec.le_def.mp hk))⟩

end Buffer

variable [Stray] {b : Buffer} {p len : Word}

/-! ## Headers -/

theorem ld8_eq (h : b.Within p len) {i : Nat} (hi : i < len.toNat) :
    ld8 b (p + BitVec.ofNat 64 i) =
      pure (BitVec.ofNat 64 (b.byte (p + BitVec.ofNat 64 i)).toNat) :=
  if_pos (h.readable i hi)

theorem ld8_first (h : b.Within p len) (hlen : len ≠ 0) :
    ld8 b p = pure (BitVec.ofNat 64 (b.byte p).toNat) := by
  have hself : p + BitVec.ofNat 64 0 = p := BitVec.add_zero p
  have hread := ld8_eq h (Nat.pos_of_ne_zero fun hz => hlen (BitVec.eq_of_toNat_eq hz))
  rwa [hself] at hread

omit [Stray] in
theorem toNat_ofByte (x : UInt8) : (BitVec.ofNat 64 x.toNat).toNat = x.toNat := by
  have hx := x.toNat_lt
  rw [BitVec.toNat_ofNat, Nat.mod_eq_of_lt (by omega)]

omit [Stray] in
/-- One more byte of a number that leaves room for it. -/
theorem shift_or_byte {n : Nat} (h : n < 2 ^ 56) (x : UInt8) :
    (BitVec.ofNat 64 n <<< 8) ||| BitVec.ofNat 64 x.toNat = BitVec.ofNat 64 (n * 256 + x.toNat) := by
  have hx := x.toNat_lt
  refine BitVec.eq_of_toNat_eq ?_
  rw [BitVec.toNat_or, BitVec.toNat_shiftLeft, toNat_ofByte, BitVec.toNat_ofNat,
    BitVec.toNat_ofNat, Nat.mod_eq_of_lt (a := n) (by omega),
    Nat.shiftLeft_eq, Nat.mod_eq_of_lt (a := n * 2 ^ 8) (by omega),
    Nat.mod_eq_of_lt (a := n * 256 + x.toNat) (by omega), Nat.mul_comm,
    ← Nat.two_pow_add_eq_or_of_lt (i := 8) (by omega), Nat.mul_comm]

theorem readBytes_eq {n : Word} (h : b.Within p n) (hle : n.toNat ≤ 8) {k : Nat}
    (hk : k ≤ n.toNat) :
    ((List.range k).foldlM (fun v i => do
      let x ← ld8 b (p + BitVec.ofNat 64 i)
      return (v <<< 8) ||| x) (0 : Word) : RlpM Word) =
      pure (BitVec.ofNat 64 (beNat ((b.bytes p n).take k))) := by
  induction k with
  | zero => rfl
  | succ k ih =>
    have hget : (b.bytes p n)[k]? = some (b.byte (p + BitVec.ofNat 64 k)) := by
      rw [List.getElem?_eq_getElem (by rw [Buffer.length_bytes]; omega), Buffer.getElem_bytes]
    have hlt : beNat ((b.bytes p n).take k) < 2 ^ 56 := by
      refine Nat.lt_of_lt_of_le (beNat_lt _) ?_
      rw [List.length_take, Buffer.length_bytes, Nat.min_eq_left (by omega)]
      exact (Nat.pow_le_pow_right (by decide) (show k ≤ 7 by omega)).trans (by decide)
    rw [List.range_succ, List.foldlM_append, ih (by omega), pure_bind, List.foldlM_cons,
      ld8_eq h (by omega), pure_bind, pure_bind, List.foldlM_nil, shift_or_byte hlt,
      List.take_add_one, hget, Option.toList_some, beNat_append_singleton]

theorem rlpReadLengthAt_eq {n : Word} (h : b.Within p n) (hne : n ≠ 0) (hle : n.toNat ≤ 8) :
    rlpReadLengthAt b p n =
      ofExcept ((fun v => BitVec.ofNat 64 v) <$> rlpReadLength (b.bytes p n)) := by
  have hcons := Buffer.bytes_cons (b := b) (p := p) hne
  have hfirst : BitVec.ofNat 64 (b.byte p).toNat = 0 ↔ (b.bytes p n).head? = some 0 := by
    rw [hcons, List.head?_cons, Option.some.injEq, ← UInt8.toNat_inj, ← BitVec.toNat_inj,
      toNat_ofByte]
    rfl
  have hlen : 1 < n ↔ 1 < (b.bytes p n).length := by
    rw [Buffer.length_bytes, BitVec.lt_def]
    rfl
  have hall : (b.bytes p n).take n.toNat = b.bytes p n := by
    rw [← Buffer.length_bytes (b := b) (p := p), List.take_length]
  unfold rlpReadLengthAt rlpReadLength
  rw [ld8_first h hne, pure_bind, readBytes_eq h hle (Nat.le_refl _), hall]
  by_cases hcanon : 1 < (b.bytes p n).length ∧ (b.bytes p n).head? = some 0
  · rw [if_pos hcanon, if_pos ⟨hlen.mpr hcanon.1, hfirst.mpr hcanon.2⟩]
    rfl
  · rw [if_neg hcanon, if_neg fun hw => hcanon ⟨hlen.mp hw.1, hfirst.mp hw.2⟩]
    rfl

/-- A header in words. -/
def RlpHeader.at (h : RlpHeader) : HeaderAt :=
  ⟨BitVec.ofNat 64 h.size, BitVec.ofNat 64 h.payload, h.isList⟩

omit [Stray] in
theorem byte_lt (x : UInt8) (c : Word) : BitVec.ofNat 64 x.toNat < c ↔ x.toNat < c.toNat := by
  rw [BitVec.lt_def, toNat_ofByte]

omit [Stray] in
theorem byte_le (x : UInt8) (c : Word) : BitVec.ofNat 64 x.toNat ≤ c ↔ x.toNat ≤ c.toNat := by
  rw [BitVec.le_def, toNat_ofByte]

omit [Stray] in
theorem byte_sub {x : UInt8} {c : Word} (h : c.toNat ≤ x.toNat) :
    BitVec.ofNat 64 x.toNat - c = BitVec.ofNat 64 (x.toNat - c.toNat) := by
  have hx := x.toNat_lt
  refine BitVec.eq_of_toNat_eq ?_
  rw [BitVec.toNat_sub_of_le (by rwa [BitVec.le_def, toNat_ofByte]), toNat_ofByte,
    BitVec.toNat_ofNat, Nat.mod_eq_of_lt (by omega)]

omit [Stray] in
theorem toNat_ofNat_small {n : Nat} (h : n < 2 ^ 64) : (BitVec.ofNat 64 n).toNat = n := by
  rw [BitVec.toNat_ofNat, Nat.mod_eq_of_lt h]

/-- The words of a short header of a string. -/
theorem shortString_eq (h : b.Within p len) {n : Nat} (hn : n ≤ 55) :
    (if len < BitVec.ofNat 64 n then throw (.rlp 3)
      else if BitVec.ofNat 64 n = 1 then do
        let second ← ld8 b p
        if second < 128 then throw (.rlp 4) else return ⟨1, BitVec.ofNat 64 n, false⟩
      else return ⟨1, BitVec.ofNat 64 n, false⟩ : RlpM HeaderAt) =
      ofExcept (RlpHeader.at <$> rlpShortHeader false n (b.bytes p len)) := by
  have hnat : (BitVec.ofNat 64 n).toNat = n := toNat_ofNat_small (by omega)
  unfold rlpShortHeader
  rw [Buffer.length_bytes]
  by_cases hcut : len.toNat < n
  · rw [if_pos hcut, if_pos (by rwa [BitVec.lt_def, hnat])]
    rfl
  rw [if_neg hcut, if_neg (by rwa [BitVec.lt_def, hnat])]
  by_cases hone : n = 1
  · have hword : BitVec.ofNat 64 n = 1 := congrArg (BitVec.ofNat 64) hone
    have hne : len ≠ 0 := by
      rintro rfl
      exact hcut (Nat.lt_of_lt_of_eq Nat.one_pos hone.symm)
    have hhead : (b.bytes p len).headD 0 = b.byte p := by
      rw [Buffer.bytes_cons hne]
      rfl
    rw [if_pos hword, ld8_first h hne, pure_bind, hhead]
    by_cases hown : (b.byte p).toNat < 128
    · rw [if_pos ((byte_lt _ 128).mpr hown), if_pos ⟨rfl, hone, hown⟩]
      rfl
    · rw [if_neg fun hw => hown ((byte_lt _ 128).mp hw), if_neg fun hw => hown hw.2.2]
      rfl
  · have hne : BitVec.ofNat 64 n ≠ 1 := fun hw => hone (by rw [← hnat, hw]; rfl)
    rw [if_neg hne, if_neg fun hw => hone hw.2.1]
    rfl

omit [Stray] in
theorem shortList_eq {n : Nat} (hn : n ≤ 55) :
    (if len < BitVec.ofNat 64 n then throw (.rlp 3)
      else return ⟨1, BitVec.ofNat 64 n, true⟩ : RlpM HeaderAt) =
      ofExcept (RlpHeader.at <$> rlpShortHeader true n (b.bytes p len)) := by
  have hnat : (BitVec.ofNat 64 n).toNat = n := toNat_ofNat_small (by omega)
  unfold rlpShortHeader
  rw [Buffer.length_bytes]
  by_cases hcut : len.toNat < n
  · rw [if_pos hcut, if_pos (by rwa [BitVec.lt_def, hnat])]
    rfl
  · rw [if_neg hcut, if_neg (by rwa [BitVec.lt_def, hnat]), if_neg fun hw => nomatch hw.1]
    rfl

theorem long_eq (h : b.Within p len) (isList : Bool) {ll : Nat} (hpos : 1 ≤ ll) (hle : ll ≤ 8) :
    (if len < BitVec.ofNat 64 ll then throw (.rlp 3)
      else do
        let n ← rlpReadLengthAt b p (BitVec.ofNat 64 ll)
        if n ≤ 55 then throw (.rlp 5)
        else if len - BitVec.ofNat 64 ll < n then throw (.rlp 3)
        else return ⟨1 + BitVec.ofNat 64 ll, n, isList⟩ : RlpM HeaderAt) =
      ofExcept (RlpHeader.at <$> rlpLongHeader isList ll (b.bytes p len)) := by
  have hnat : (BitVec.ofNat 64 ll).toNat = ll := toNat_ofNat_small (by omega)
  unfold rlpLongHeader
  rw [Buffer.length_bytes]
  by_cases hcut : len.toNat < ll
  · rw [if_pos hcut, if_pos (by rwa [BitVec.lt_def, hnat])]
    rfl
  have hll : BitVec.ofNat 64 ll ≤ len := by
    rw [BitVec.le_def, hnat]
    exact Nat.not_lt.mp hcut
  have hne : BitVec.ofNat 64 ll ≠ 0 := by
    intro hz
    rw [hz] at hnat
    exact absurd hnat.symm (Nat.pos_iff_ne_zero.mp hpos)
  have htake := Buffer.bytes_take (b := b) (p := p) hll
  rw [hnat] at htake
  rw [if_neg hcut, if_neg (by rwa [BitVec.lt_def, hnat]),
    rlpReadLengthAt_eq (h.take hll) hne (hnat.le.trans hle), ← htake]
  cases hread : rlpReadLength ((b.bytes p len).take ll) with
  | error e => rfl
  | ok n =>
    have hlt : n < 2 ^ 64 := by
      refine Nat.lt_of_lt_of_le (rlpReadLength_lt hread) ?_
      rw [List.length_take]
      exact (Nat.pow_le_pow_right (by decide) (show _ ≤ 8 by omega)).trans (by decide)
    have hn : (BitVec.ofNat 64 n).toNat = n := toNat_ofNat_small hlt
    have hrest : (len - BitVec.ofNat 64 ll).toNat = len.toNat - ll := by
      rw [BitVec.toNat_sub_of_le hll, hnat]
    change (if BitVec.ofNat 64 n ≤ 55 then throw (.rlp 5) else _ : RlpM HeaderAt) =
      ofExcept (RlpHeader.at <$> if n ≤ 55 then .error (.rlp 5) else _)
    by_cases hsmall : n ≤ 55
    · rw [if_pos hsmall, if_pos (by rwa [BitVec.le_def, hn])]
      rfl
    rw [if_neg hsmall, if_neg (by rwa [BitVec.le_def, hn])]
    by_cases hlong : len.toNat - ll < n
    · rw [if_pos hlong, if_pos (by rwa [BitVec.lt_def, hn, hrest])]
      rfl
    · rw [if_neg hlong, if_neg (by rwa [BitVec.lt_def, hn, hrest])]
      change pure _ = pure (RlpHeader.at _)
      rw [RlpHeader.at, BitVec.ofNat_add]
      rfl

/-- The header checks in memory are those on the bytes. -/
theorem rlpItemHeader_eq (h : b.Within p len) :
    rlpItemHeader b p len = ofExcept (RlpHeader.at <$> rlpHeader (b.bytes p len)) := by
  unfold rlpItemHeader
  by_cases hlen : len = 0
  · rw [if_pos hlen, hlen]
    rfl
  have hrest : b.Within (p + 1) (len - 1) :=
    h.drop (k := 1) (Nat.pos_of_ne_zero fun hz => hlen (BitVec.eq_of_toNat_eq hz))
  rw [if_neg hlen, ld8_first h hlen, pure_bind, Buffer.bytes_cons hlen, rlpHeader]
  have hx := (b.byte p).toNat_lt
  generalize b.byte p = x at hx ⊢
  by_cases hself : x.toNat < 128
  · rw [if_pos hself, if_pos ((byte_lt x 128).mpr hself)]
    rfl
  rw [if_neg hself, if_neg fun hw => hself ((byte_lt x 128).mp hw)]
  by_cases hstring : x.toNat ≤ 183
  · rw [if_pos hstring, if_pos ((byte_le x 183).mpr hstring),
      byte_sub (c := 128) (Nat.not_lt.mp hself)]
    exact shortString_eq hrest (Nat.sub_le_of_le_add hstring)
  rw [if_neg hstring, if_neg fun hw => hstring ((byte_le x 183).mp hw)]
  by_cases hlong : x.toNat ≤ 191
  · rw [if_pos hlong, if_pos ((byte_le x 191).mpr hlong),
      byte_sub (c := 183) (Nat.le_of_lt (Nat.not_le.mp hstring))]
    exact long_eq hrest false (Nat.sub_pos_of_lt (Nat.not_le.mp hstring))
      (Nat.sub_le_of_le_add hlong)
  rw [if_neg hlong, if_neg fun hw => hlong ((byte_le x 191).mp hw)]
  by_cases hlist : x.toNat ≤ 247
  · rw [if_pos hlist, if_pos ((byte_le x 247).mpr hlist),
      byte_sub (c := 192) (Nat.not_le.mp hlong)]
    exact shortList_eq (Nat.sub_le_of_le_add hlist)
  · rw [if_neg hlist, if_neg fun hw => hlist ((byte_le x 247).mp hw),
      byte_sub (c := 247) (Nat.le_of_lt (Nat.not_le.mp hlist))]
    exact long_eq hrest true (Nat.sub_pos_of_lt (Nat.not_le.mp hlist))
      (Nat.sub_le_of_le_add (Nat.le_of_lt_succ hx))

end StatelessGuest
