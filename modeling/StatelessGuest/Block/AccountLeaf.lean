import StatelessGuest.Digest.Words
import StatelessGuest.Header.Fields

/-!
# The leaf of an account

An account is encoded behind a list header of two bytes that is not computed. The decoder takes the
leaf apart again and adds the balance up limb by limb.

* `encodeAccountAt`, `decodeAccountFromLeaf`.
* `encodeAccountAt_run`: what is written is the canonical encoding of four strings.
* `decodeAccount_ok`: the decoder on the encoding of four strings.
* `account_leaf_round_trip`.
-/

namespace StatelessGuest

open Lib

/-! ## The encoder -/

namespace Ram

def stBe32 (p : Nat) (v : Word) : RamM Unit := do
  st8 p (v >>> 24).toNat
  st8 (p + 1) (v >>> 16).toNat
  st8 (p + 2) (v >>> 8).toNat
  st8 (p + 3) v.toNat

def stBe64 (p : Nat) (v : Word) : RamM Unit :=
  if p &&& 7 = 0 then st p (leBytes 8 (Digest.bswap64 v).toNat)
  else do
    stBe32 p (v >>> 32)
    stBe32 (p + 4) v

/-- `while z < 32`, with `left` bytes to go: the position of the first byte that is not zero. -/
def leadingZeros (p : Nat) : Nat → Nat → RamM Nat
  | 0, z => return z
  | left + 1, z => do
    let b ← ld8 (p + z)
    if b ≠ 0 then return z else leadingZeros p left (z + 1)

end Ram

open Ram in
/-- The balance goes through the 32 bytes at `mptHashScratch`. -/
def encodeAccountAt (mptHashScratch : Nat) (nonce : Word) (balance : Limb.U256)
    (storageRoot codeHash out : Nat) : RamM Nat := do
  let w ← rlpEncodeWordAt (out + 2) nonce
  let off := 2 + w
  stBe64 mptHashScratch balance.l3
  stBe64 (mptHashScratch + 8) balance.l2
  stBe64 (mptHashScratch + 16) balance.l1
  stBe64 (mptHashScratch + 24) balance.l0
  let z ← leadingZeros mptHashScratch 32 0
  let wb ← rlpEncodeBytesAt (out + off) (mptHashScratch + z) (32 - z)
  let off := off + wb
  let wsl ← rlpEncodeBytesAt (out + off) storageRoot 32
  let off := off + wsl
  let wc ← rlpEncodeBytesAt (out + off) codeHash 32
  let off := off + wc
  st8 out 248
  st8 (out + 1) (off - 2)
  return off

/-! ## The decoder -/

/-- A decoded account (`ACCT_*`). The storage root and the code hash are given by their addresses. -/
structure AccountRecord where
  nonce : Word
  balance : Limb.U256
  storageRoot : Word
  codeHash : Word

section

variable [Stray] (b : Buffer)

/-- The balance, a byte at a time. -/
def readBalance (p n : Word) : RlpM Limb.U256 :=
  (List.range n.toNat).foldlM (fun x i => do
    let c ← ld8 b (p + BitVec.ofNat 64 i)
    return Digest.orByte x (n.toNat - 1 - i) c) .zero

/-- A hash, where an empty string stands for that of something empty. -/
def accountHash (it : ItemAt) (empty : Word) (code : Nat) : RlpM Word :=
  if it.length = 0 then return empty
  else if it.length ≠ 32 then throw (.mpt code)
  else return it.payload

/-- The errors of the RLP decoder are those of a malformed leaf. -/
def decodeLeaf (p n : Word) : RlpM ItemAt :=
  tryCatch (rlpDecodeFullyAt b p n) fun
    | .rlp _ => throw (.mpt 20)
    | e => throw e

def decodeAccountFromLeaf (emptyTrieRoot emptyCodeHash : Word) (p n : Word) :
    RlpM AccountRecord := do
  let it ← decodeLeaf b p n
  if it.isList = false then throw (.mpt 20)
  else do
    let arr ← rlpListToSlices b it.payload it.length
    if arr.length ≠ 4 then throw (.mpt 20)
    else do
      let f0 ← rlpItemAt b (slicePtr arr 0) (sliceLen arr 0)
      let f1 ← rlpItemAt b (slicePtr arr 1) (sliceLen arr 1)
      let f2 ← rlpItemAt b (slicePtr arr 2) (sliceLen arr 2)
      let f3 ← rlpItemAt b (slicePtr arr 3) (sliceLen arr 3)
      if f0.isList || f1.isList || f2.isList || f3.isList then throw (.mpt 20)
      else if 8 < f0.length then throw (.mpt 21)
      else do
        let nonce ← hdrReadWord b f0.payload f0.length
        if 32 < f1.length then throw (.mpt 22)
        else do
          let balance ← readBalance b f1.payload f1.length
          let storageRoot ← accountHash f2 emptyTrieRoot 23
          let codeHash ← accountHash f3 emptyCodeHash 24
          return { nonce, balance, storageRoot, codeHash }

end

/-! ## What is written -/

namespace Ram

variable {s : Ram}

theorem stBe32_run (p : Nat) (v : Word) (s : Ram) :
    stBe32 p v s = .ok () (s.put p (beBytes 4 v.toNat)) := by
  have hsplit : beBytes 4 v.toNat = [UInt8.ofNat (v >>> 24).toNat] ++
      ([UInt8.ofNat (v >>> 16).toNat] ++ ([UInt8.ofNat (v >>> 8).toNat] ++
        [UInt8.ofNat v.toNat])) := by
    rw [Digest.toNat_ushiftRight, Digest.toNat_ushiftRight, Digest.toNat_ushiftRight,
      Digest.beBytes_add 1 3, Digest.beBytes_add 1 2, Digest.beBytes_add 1 1,
      Digest.beBytes_eq_reverse, Digest.beBytes_eq_reverse, Digest.beBytes_eq_reverse,
      Digest.beBytes_eq_reverse]
    rfl
  unfold stBe32
  rw [bind_run_ok (st8_run _ _ _), bind_run_ok (st8_run _ _ _), bind_run_ok (st8_run _ _ _),
    st8_run, hsplit, put_append, put_append, put_append]
  rfl

theorem stBe64_run (p : Nat) (v : Word) (s : Ram) :
    stBe64 p v s = .ok () (s.put p (beBytes 8 v.toNat)) := by
  unfold stBe64
  split
  · rw [Digest.leBytes_bswap64]
    rfl
  · rw [bind_run_ok (stBe32_run _ _ _), stBe32_run, Digest.beBytes_add 4 4, put_append,
      length_beBytes, Digest.toNat_ushiftRight]
    rfl

/-- The zeros in front are skipped: what is left is the minimal form. -/
theorem leadingZeros_run (s : Ram) (p left z : Nat) :
    ∃ z', leadingZeros p left z s = .ok z' s ∧ z ≤ z' ∧ z' ≤ z + left ∧
      s.bytes.load (p + z') (z + left - z') = rlpBe (beNat (s.bytes.load (p + z) left)) := by
  induction left generalizing z with
  | zero =>
    refine ⟨z, rfl, Nat.le_refl z, Nat.le_refl z, ?_⟩
    rw [Nat.add_zero, Nat.sub_self]
    rfl
  | succ left ih =>
    rw [leadingZeros, bind_run_ok (ld8_run s (p + z))]
    by_cases hzero : (s.bytes (p + z)).toNat = 0
    · obtain ⟨z', hrun, hle, hle', hload⟩ := ih (z + 1)
      refine ⟨z', ?_, by omega, by omega, ?_⟩
      · rw [if_neg (not_not.mpr hzero), hrun]
      · rw [show z + (left + 1) - z' = z + 1 + left - z' by omega, hload, ByteMap.load,
          beNat_cons, hzero, Nat.zero_mul, Nat.zero_add]
        rfl
    · refine ⟨z, ?_, Nat.le_refl z, by omega, ?_⟩
      · rw [if_pos hzero]
        rfl
      · rw [Nat.add_sub_cancel_left, rlpBe_beNat]
        intro hhead
        rw [ByteMap.load, List.head?_cons] at hhead
        rw [Option.some.inj hhead] at hzero
        exact hzero rfl

/-- The minimal form of an integer in 32 bytes. -/
theorem trimmed_run {s : Ram} {p v : Nat} (hload : s.bytes.load p 32 = beBytes 32 v)
    (hv : v < 256 ^ 32) : ∃ z ≤ 32, leadingZeros p 32 0 s = .ok z s ∧
      s.bytes.load (p + z) (32 - z) = rlpBe v := by
  obtain ⟨z, hrun, -, hle, htail⟩ := leadingZeros_run s p 32 0
  have hstart : s.bytes.load (p + 0) 32 = beBytes 32 v := hload
  rw [hstart, beNat_beBytes_of_lt hv, Nat.zero_add] at htail
  exact ⟨z, Nat.zero_add 32 ▸ hle, hrun, htail⟩

/-- What is read over a write at the end of a range. -/
theorem load_put_back (s : Ram) (p n : Nat) (bs : Bytes) :
    (s.put (p + n) bs).bytes.load p (n + bs.length) = s.bytes.load p n ++ bs := by
  rw [ByteMap.load_add]
  exact congrArg₂ (· ++ ·) (ByteMap.load_store_of_disjoint (.inl (Nat.le_refl _)))
    (ByteMap.load_store_self _ _ _)

theorem load_put_front (s : Ram) (p n : Nat) (bs : Bytes) :
    (s.put p bs).bytes.load p (bs.length + n) = bs ++ s.bytes.load (p + bs.length) n := by
  rw [ByteMap.load_add]
  exact congrArg₂ (· ++ ·) (ByteMap.load_store_self _ _ _)
    (ByteMap.load_store_of_disjoint (.inr (Nat.le_refl _)))

theorem load_put_off (s : Ram) {p q n : Nat} {bs : Bytes}
    (h : q + n ≤ p ∨ p + bs.length ≤ q) : (s.put p bs).bytes.load q n = s.bytes.load q n :=
  ByteMap.load_store_of_disjoint h

/-- The four limbs of the balance, the highest first. -/
theorem put_balance (s : Ram) (scratch : Nat) (balance : Limb.U256) :
    (((s.put scratch (beBytes 8 balance.l3.toNat)).put (scratch + 8)
      (beBytes 8 balance.l2.toNat)).put (scratch + 16) (beBytes 8 balance.l1.toNat)).put
        (scratch + 24) (beBytes 8 balance.l0.toNat) =
      s.put scratch (beBytes 32 balance.toNat) := by
  rw [Digest.beBytes_limbs, put_append, put_append, put_append, length_beBytes, length_beBytes,
    length_beBytes]

end Ram

/-! ## The encoding -/

/-- The fields one after the other. -/
def accountPayload (nonce : Word) (balance : Limb.U256) (storageRoot codeHash : Bytes) : Bytes :=
  rlpEncodeWord nonce.toNat ++ rlpEncodeBytes (rlpBe balance.toNat) ++
    rlpEncodeBytes storageRoot ++ rlpEncodeBytes codeHash

theorem length_encodeHash {bs : Bytes} (h : bs.length = 32) : (rlpEncodeBytes bs).length = 33 := by
  rw [rlpEncodeBytes_of_length_ne (by omega), List.length_append, h]
  rfl

/-- The payload is too long for a short header and short enough for a length of one byte. -/
theorem length_accountPayload (nonce : Word) (balance : Limb.U256) {storageRoot codeHash : Bytes}
    (hroot : storageRoot.length = 32) (hcode : codeHash.length = 32) :
    68 ≤ (accountPayload nonce balance storageRoot codeHash).length ∧
      (accountPayload nonce balance storageRoot codeHash).length ≤ 108 := by
  have hnonce : rlpBeLen nonce.toNat ≤ 8 := rlpBeLen_le nonce.isLt
  have hbalance : rlpBeLen balance.toNat ≤ 32 :=
    rlpBeLen_le (Nat.lt_of_lt_of_eq balance.toNat_lt (by decide))
  have hword := length_rlpEncodeWord nonce.toNat
  have hbytes := length_rlpEncodeBytes_rlpBe (n := balance.toNat) (by omega)
  unfold accountPayload
  rw [List.length_append, List.length_append, List.length_append, length_encodeHash hroot,
    length_encodeHash hcode]
  constructor
  · split at hword <;> split at hbytes <;> omega
  · split at hword <;> split at hbytes <;> omega

/-- The header of two bytes is the canonical one. -/
theorem accountHeader {payload : Bytes} (hlow : 68 ≤ payload.length) (hhigh : payload.length ≤ 108) :
    rlpEncodeList payload = [248, UInt8.ofNat payload.length] ++ payload := by
  have hlen : rlpBeLen payload.length = 1 := by
    rw [rlpBeLen_pos (by omega), show payload.length / 256 = 0 by omega]
    rfl
  have hbe : rlpBe payload.length = [UInt8.ofNat payload.length] := (rlpBe_of_len_one hlen).1
  unfold rlpEncodeList rlpEncodeListHeader rlpWriteHeader
  rw [if_neg (by omega), hlen, hbe]
  rfl

/-- The four places in memory do not overlap, and there is room for the encoding. -/
structure AccountPlaces (mptHashScratch storageRoot codeHash out : Nat) : Prop where
  scratch : mptHashScratch + 32 ≤ out ∨ out + 110 ≤ mptHashScratch
  rootOut : storageRoot + 32 ≤ out ∨ out + 110 ≤ storageRoot
  rootScratch : storageRoot + 32 ≤ mptHashScratch ∨ mptHashScratch + 32 ≤ storageRoot
  codeOut : codeHash + 32 ≤ out ∨ out + 110 ≤ codeHash
  codeScratch : codeHash + 32 ≤ mptHashScratch ∨ mptHashScratch + 32 ≤ codeHash

open Ram in
/-- The strings are written behind the header, the header in front of them at the end. -/
theorem encodeAccountAt_run {mptHashScratch storageRoot codeHash out : Nat} (nonce : Word)
    (balance : Limb.U256) {s : Ram}
    (h : AccountPlaces mptHashScratch storageRoot codeHash out) :
    ∃ s', encodeAccountAt mptHashScratch nonce balance storageRoot codeHash out s =
        .ok (2 + (accountPayload nonce balance (s.bytes.load storageRoot 32)
          (s.bytes.load codeHash 32)).length) s' ∧
      s'.bytes.load out (2 + (accountPayload nonce balance (s.bytes.load storageRoot 32)
          (s.bytes.load codeHash 32)).length) =
        rlpEncodeList (accountPayload nonce balance (s.bytes.load storageRoot 32)
          (s.bytes.load codeHash 32)) := by
  obtain ⟨hscratch, hrootOut, hrootScratch, hcodeOut, hcodeScratch⟩ := h
  obtain ⟨hlow, hhigh⟩ := length_accountPayload nonce balance
    (ByteMap.length_load s.bytes storageRoot 32) (ByteMap.length_load s.bytes codeHash 32)
  generalize hpayload : accountPayload nonce balance (s.bytes.load storageRoot 32)
    (s.bytes.load codeHash 32) = payload at hlow hhigh ⊢
  unfold accountPayload at hpayload
  have hroot := length_encodeHash (ByteMap.length_load s.bytes storageRoot 32)
  have hcode := length_encodeHash (ByteMap.length_load s.bytes codeHash 32)
  generalize he₀ : rlpEncodeWord nonce.toNat = e₀ at hpayload
  generalize he₁ : rlpEncodeBytes (rlpBe balance.toNat) = e₁ at hpayload
  generalize he₂ : rlpEncodeBytes (s.bytes.load storageRoot 32) = e₂ at hpayload hroot
  generalize he₃ : rlpEncodeBytes (s.bytes.load codeHash 32) = e₃ at hpayload hcode
  have hlen := congrArg List.length hpayload
  rw [List.length_append, List.length_append, List.length_append] at hlen
  -- the nonce
  have h₀ : Puts (rlpEncodeWordAt (out + 2) nonce) s (out + 2) e₀ := he₀ ▸ puts_encodeWord s _ nonce
  have hbe : (beBytes 32 balance.toNat).length = 32 := length_beBytes 32 _
  -- the balance
  obtain ⟨s₂, hs₂⟩ : ∃ t, t = (s.put (out + 2) e₀).put mptHashScratch (beBytes 32 balance.toNat) :=
    ⟨_, rfl⟩
  have hvalue : s₂.bytes.load mptHashScratch 32 = beBytes 32 balance.toNat := by
    have hself := ByteMap.load_store_self (s.put (out + 2) e₀).bytes mptHashScratch
      (beBytes 32 balance.toNat)
    rw [hbe] at hself
    rw [hs₂, put_bytes]
    exact hself
  obtain ⟨z, hzle, hz, htail⟩ := trimmed_run hvalue balance.toNat_lt
  have hheader : (rlpWriteHeader 128 (32 - z)).length = 1 := by
    rw [length_rlpWriteHeader, if_pos (by omega)]
  have h₁ : Puts (rlpEncodeBytesAt (out + (2 + e₀.length)) (mptHashScratch + z) (32 - z)) s₂
      (out + (2 + e₀.length)) e₁ := by
    rw [← he₁, ← htail]
    exact puts_encodeBytes (by rw [hheader]; omega)
  have hfirst : s₂.bytes.load (out + 2) e₀.length = e₀ := by
    rw [hs₂, load_put_off _ (by rw [hbe]; omega), put_bytes]
    exact ByteMap.load_store_self _ _ _
  have hkeep₂ : ∀ q, (q + 32 ≤ out ∨ out + 110 ≤ q) →
      (q + 32 ≤ mptHashScratch ∨ mptHashScratch + 32 ≤ q) →
      s₂.bytes.load q 32 = s.bytes.load q 32 := by
    intro q hq hq'
    rw [hs₂, load_put_off _ (by rw [hbe]; omega), load_put_off _ (by omega)]
  -- the storage root
  obtain ⟨s₃, hs₃⟩ : ∃ t, t = s₂.put (out + (2 + e₀.length)) e₁ := ⟨_, rfl⟩
  have hkeep₃ : ∀ q, (q + 32 ≤ out ∨ out + 110 ≤ q) →
      (q + 32 ≤ mptHashScratch ∨ mptHashScratch + 32 ≤ q) →
      s₃.bytes.load q 32 = s.bytes.load q 32 := by
    intro q hq hq'
    rw [hs₃, load_put_off _ (by omega), hkeep₂ q hq hq']
  have hheader' : (rlpWriteHeader 128 32).length = 1 := rfl
  have h₂ : Puts (rlpEncodeBytesAt (out + (2 + e₀.length + e₁.length)) storageRoot 32) s₃
      (out + (2 + e₀.length + e₁.length)) e₂ := by
    rw [← he₂, ← hkeep₃ storageRoot hrootOut hrootScratch]
    exact puts_encodeBytes (by rw [hheader']; omega)
  -- the code hash
  obtain ⟨s₄, hs₄⟩ : ∃ t, t = s₃.put (out + (2 + e₀.length + e₁.length)) e₂ := ⟨_, rfl⟩
  have h₃ : Puts (rlpEncodeBytesAt (out + (2 + e₀.length + e₁.length + e₂.length)) codeHash 32) s₄
      (out + (2 + e₀.length + e₁.length + e₂.length)) e₃ := by
    have hread : s₄.bytes.load codeHash 32 = s.bytes.load codeHash 32 := by
      rw [hs₄, load_put_off _ (by omega), hkeep₃ codeHash hcodeOut hcodeScratch]
    rw [← he₃, ← hread]
    exact puts_encodeBytes (by rw [hheader']; omega)
  obtain ⟨s₅, hs₅⟩ : ∃ t, t = s₄.put (out + (2 + e₀.length + e₁.length + e₂.length)) e₃ := ⟨_, rfl⟩
  have hall : s₅.bytes.load (out + 2) payload.length = payload := by
    rw [← hpayload, List.length_append, List.length_append, List.length_append, hs₅,
      show out + (2 + e₀.length + e₁.length + e₂.length) =
        out + 2 + (e₀.length + e₁.length + e₂.length) by omega, load_put_back, hs₄,
      show out + (2 + e₀.length + e₁.length) = out + 2 + (e₀.length + e₁.length) by omega,
      load_put_back, hs₃, show out + (2 + e₀.length) = out + 2 + e₀.length by omega,
      load_put_back, hfirst]
  refine ⟨s₅.put out ([248, UInt8.ofNat payload.length] : Bytes), ?_, ?_⟩
  · have hoff : 2 + e₀.length + e₁.length + e₂.length + e₃.length = 2 + payload.length := by omega
    have hbody : (2 + payload.length) - 2 = payload.length := Nat.add_sub_cancel_left 2 _
    unfold encodeAccountAt
    rw [bind_run_ok h₀, bind_run_ok (stBe64_run _ _ _), bind_run_ok (stBe64_run _ _ _),
      bind_run_ok (stBe64_run _ _ _), bind_run_ok (stBe64_run _ _ _), put_balance, ← hs₂,
      bind_run_ok hz, bind_run_ok h₁, ← hs₃, bind_run_ok h₂, ← hs₄, bind_run_ok h₃, ← hs₅, hoff,
      hbody, bind_run_ok (st8_run _ _ _), bind_run_ok (st8_run _ _ _), put_put_cons]
    rfl
  · have hfront := load_put_front s₅ out payload.length [248, UInt8.ofNat payload.length]
    rw [accountHeader hlow hhigh]
    refine hfront.trans ?_
    exact congrArg _ hall

/-! ## What is read -/

section

variable [Stray] {b : Buffer} {s : Scratch}

/-- The item at the slice of a string. -/
theorem item_of_string {arr : List (Word × Word)} {ts : List RlpTree} {i : Nat} {bs : Bytes}
    (hs : s.Sound) (h : Slices b arr ts) (ht : ts[i]? = some (.str bs)) :
    ∃ it s', rlpItemAt b (slicePtr arr i) (sliceLen arr i) s = .ok it s' ∧ s'.Sound ∧
      it.isList = false ∧ b.Within it.payload it.length ∧ b.bytes it.payload it.length = bs := by
  obtain ⟨hi, -⟩ := List.getElem?_eq_some_iff.mp ht
  obtain ⟨t, ht', hslice⟩ := slice_of_lt h hi
  obtain rfl : t = .str bs := Option.some.inj (ht'.symm.trans ht)
  have hfollows := follows_item hs hslice.within
  have hlt : (RlpTree.str bs).encode.length < 2 ^ 64 := by
    rw [← hslice.bytes, Buffer.length_bytes]
    exact (sliceLen arr i).isLt
  obtain ⟨item, hitem, hd⟩ := rlpItem_encode hlt []
  rw [List.append_nil, ← hslice.bytes] at hitem hd
  rw [hitem] at hfollows
  cases hrun : rlpItemAt b (slicePtr arr i) (sliceLen arr i) s with
  | ok it s' =>
    obtain ⟨hsame, hstring⟩ := reads_item hs h hi it s' hrun
    rw [hrun] at hfollows
    cases hfollows with
    | ok hx =>
      cases hx
      obtain ⟨hwithin, htree⟩ := hstring hd.isList
      rw [ht] at htree
      exact ⟨_, s', rfl, hsame.sound hs, hd.isList, hwithin,
        (RlpTree.str.inj (Option.some.inj htree)).symm⟩
  | error e s' =>
    rw [hrun] at hfollows
    cases hfollows with
    | error hx => cases hx
    | trap _ hx =>
      have hroom := hx _ _ rfl
      rw [hd.nested] at hroom
      exact absurd hroom (Nat.not_lt_zero _)

/-- The bytes before a position make up the balance so far. -/
theorem readBalance_prefix {p n : Word} (h : b.Within p n) {k : Nat} (hk : k ≤ n.toNat) :
    ∃ x : Limb.U256, ((List.range k).foldlM (fun x i => do
      let c ← ld8 b (p + BitVec.ofNat 64 i)
      return Digest.orByte x (n.toNat - 1 - i) c) (.zero : Limb.U256) : RlpM Limb.U256) = pure x ∧
      x.toNat = beNat ((b.bytes p n).take k) * 2 ^ (8 * (n.toNat - k)) % 2 ^ 256 := by
  induction k with
  | zero =>
    have hnil : beNat [] = 0 := rfl
    refine ⟨.zero, rfl, ?_⟩
    rw [List.take_zero, hnil, Nat.zero_mul]
    rfl
  | succ k ih =>
    obtain ⟨x, hrun, hx⟩ := ih (by omega)
    have hget : (b.bytes p n)[k]? = some (b.byte (p + BitVec.ofNat 64 k)) := by
      rw [List.getElem?_eq_getElem (by rw [Buffer.length_bytes]; omega), Buffer.getElem_bytes]
    refine ⟨Digest.orByte x (n.toNat - 1 - k)
      (BitVec.ofNat 64 (b.byte (p + BitVec.ofNat 64 k)).toNat), ?_, ?_⟩
    · rw [List.range_succ, List.foldlM_append, hrun, pure_bind, List.foldlM_cons,
        ld8_eq h (by omega), pure_bind, pure_bind, List.foldlM_nil]
    · rw [List.take_add_one, hget, Option.toList_some,
        show n.toNat - 1 - k = n.toNat - (k + 1) by omega]
      refine Digest.toNat_orByte_next _ ?_
      rw [hx, show n.toNat - k = n.toNat - (k + 1) + 1 by omega]

theorem readBalance_run {p n : Word} (h : b.Within p n) (hle : n.toNat ≤ 32) :
    ∃ x : Limb.U256, readBalance b p n = pure x ∧ x.toNat = beNat (b.bytes p n) := by
  obtain ⟨x, hrun, hx⟩ := readBalance_prefix h (Nat.le_refl n.toNat)
  refine ⟨x, hrun, ?_⟩
  rw [hx, take_bytes, Nat.sub_self, Nat.mul_zero, Nat.pow_zero, Nat.mul_one]
  exact Nat.mod_eq_of_lt (Nat.lt_of_lt_of_eq (beNat_bytes_lt hle) (by decide))

omit [Stray] in
theorem accountHash_run {it : ItemAt} {bs : Bytes} (empty : Word) (code : Nat)
    (h : b.bytes it.payload it.length = bs) (hbs : bs.length = 32) :
    accountHash it empty code = pure it.payload ∧ b.bytes it.payload 32 = bs := by
  have hlen : it.length = 32 := by
    refine BitVec.eq_of_toNat_eq ?_
    rw [← Buffer.length_bytes (b := b) (p := it.payload), h, hbs]
    rfl
  rw [hlen] at h
  refine ⟨?_, h⟩
  unfold accountHash
  rw [hlen, if_neg (by decide), if_neg (by decide)]

/-- The trees that the fields of an account are written as. -/
def accountTrees (nonce : Word) (balance : Limb.U256) (storageRoot codeHash : Bytes) :
    List RlpTree :=
  [.str (rlpBe nonce.toNat), .str (rlpBe balance.toNat), .str storageRoot, .str codeHash]

omit [Stray] in
theorem encode_accountTrees (nonce : Word) (balance : Limb.U256) (storageRoot codeHash : Bytes) :
    RlpTree.encodeAll (accountTrees nonce balance storageRoot codeHash) =
      accountPayload nonce balance storageRoot codeHash := by
  have hnil : RlpTree.encodeAll [] = [] := rfl
  unfold accountTrees accountPayload
  rw [RlpTree.encodeAll, RlpTree.encodeAll, RlpTree.encodeAll, RlpTree.encodeAll, hnil,
    RlpData.rlpEncodeWord_eq, List.append_nil, List.append_assoc, List.append_assoc]
  rfl

/-- A list of four strings is taken apart. -/
theorem decodeAccount_ok {nonce : Word} {balance : Limb.U256} {storageRoot codeHash : Bytes}
    (emptyTrieRoot emptyCodeHash : Word) (hs : s.Sound) (hroot : storageRoot.length = 32)
    (hcode : codeHash.length = 32)
    (hb : b.bytes b.start b.len =
      rlpEncodeList (accountPayload nonce balance storageRoot codeHash)) :
    ∃ r s', decodeAccountFromLeaf b emptyTrieRoot emptyCodeHash b.start b.len s = .ok r s' ∧
      r.nonce = nonce ∧ r.balance = balance ∧ b.bytes r.storageRoot 32 = storageRoot ∧
      b.bytes r.codeHash 32 = codeHash := by
  generalize hts : accountTrees nonce balance storageRoot codeHash = ts
  have henc : RlpTree.encodeAll ts = accountPayload nonce balance storageRoot codeHash := by
    rw [← hts, encode_accountTrees]
  have hfour : ts.length = 4 := by
    rw [← hts]
    rfl
  have htree : b.bytes b.start b.len = (RlpTree.list ts).encode := by
    rw [hb, ← henc]
    rfl
  have hnested : RlpTree.nestedAll ts = 0 := by
    rw [← hts]
    rfl
  -- the list
  have haccepts := accepts_decodeFully (b := b) hs
  have hroom : 24 * (RlpTree.list ts).nested ≤ s.room := by
    have hnone : (RlpTree.list ts).nested = 0 := hnested
    rw [hnone]
    exact Nat.zero_le _
  obtain ⟨it, s₁, hrun⟩ := haccepts.succeeds.mpr ⟨_, htree, hroom⟩
  obtain ⟨hsame, t, ht, hd⟩ := haccepts.item it s₁ hrun
  obtain rfl := haccepts.unique t _ ht htree
  have hs₁ := hsame.sound hs
  have hleaf : decodeLeaf b b.start b.len s = .ok it s₁ := by
    unfold decodeLeaf
    rw [tryCatch_run, hrun]
  have hlist : it.isList = true := hd.isList
  -- the slices
  have hpayload : b.bytes it.payload it.length = RlpTree.encodeAll ts := hd.payload
  obtain ⟨s₂, hcount⟩ := listCount_of_trees hs₁ hd.inside hpayload (by
    rw [hnested]
    exact Nat.zero_le _)
  have hs₂ := (trees_of_listCount hs₁ hd.inside hcount).1.sound hs₁
  obtain ⟨arr, hloop, hslices, -⟩ := slicesLoop_run (s := s₂) hd.inside hpayload
  have hsplit : rlpListToSlices b it.payload it.length s₁ = .ok arr s₂ := by
    unfold rlpListToSlices
    rw [bind_run_ok hcount, hfour]
    rw [hfour] at hloop
    exact hloop
  have harr : arr.length = 4 := hslices.length_eq.trans hfour
  -- the four strings
  have hget₀ : ts[0]? = some (.str (rlpBe nonce.toNat)) := by
    rw [← hts]
    rfl
  have hget₁ : ts[1]? = some (.str (rlpBe balance.toNat)) := by
    rw [← hts]
    rfl
  have hget₂ : ts[2]? = some (.str storageRoot) := by
    rw [← hts]
    rfl
  have hget₃ : ts[3]? = some (.str codeHash) := by
    rw [← hts]
    rfl
  obtain ⟨f₀, s₃, h₀, hs₃, hl₀, hw₀, hb₀⟩ := item_of_string hs₂ hslices hget₀
  obtain ⟨f₁, s₄, h₁, hs₄, hl₁, hw₁, hb₁⟩ := item_of_string hs₃ hslices hget₁
  obtain ⟨f₂, s₅, h₂, hs₅, hl₂, -, hb₂⟩ := item_of_string hs₄ hslices hget₂
  obtain ⟨f₃, s₆, h₃, -, hl₃, -, hb₃⟩ := item_of_string hs₅ hslices hget₃
  have hn₀ := congrArg List.length hb₀
  have hn₁ := congrArg List.length hb₁
  rw [Buffer.length_bytes, length_rlpBe] at hn₀ hn₁
  have hle₀ : f₀.length.toNat ≤ 8 := hn₀ ▸ rlpBeLen_le nonce.isLt
  have hle₁ : f₁.length.toNat ≤ 32 :=
    hn₁ ▸ rlpBeLen_le (Nat.lt_of_lt_of_eq balance.toNat_lt (by decide))
  have hnonce : hdrReadWord b f₀.payload f₀.length = pure nonce := by
    unfold hdrReadWord
    rw [readBytes_eq hw₀ hle₀ (Nat.le_refl _), take_bytes, hb₀, beNat_rlpBe, BitVec.ofNat_toNat,
      BitVec.setWidth_eq]
  obtain ⟨x, hbalance, hx⟩ := readBalance_run hw₁ hle₁
  rw [hb₁, beNat_rlpBe] at hx
  obtain ⟨hrootRun, hrootBytes⟩ := accountHash_run emptyTrieRoot 23 hb₂ hroot
  obtain ⟨hcodeRun, hcodeBytes⟩ := accountHash_run emptyCodeHash 24 hb₃ hcode
  have hstrings : ¬ (f₀.isList || f₁.isList || f₂.isList || f₃.isList) = true := by
    rw [hl₀, hl₁, hl₂, hl₃]
    decide
  have hshort₀ : ¬ 8 < f₀.length := fun hlt => absurd (BitVec.lt_def.mp hlt) (Nat.not_lt.mpr hle₀)
  have hshort₁ : ¬ 32 < f₁.length := fun hlt => absurd (BitVec.lt_def.mp hlt) (Nat.not_lt.mpr hle₁)
  refine ⟨⟨nonce, x, f₂.payload, f₃.payload⟩, s₆, ?_, rfl, Limb.U256.toNat_injective hx, hrootBytes,
    hcodeBytes⟩
  unfold decodeAccountFromLeaf
  rw [bind_run_ok hleaf, hlist, if_neg (by decide), bind_run_ok hsplit,
    if_neg (not_not.mpr harr), bind_run_ok h₀, bind_run_ok h₁, bind_run_ok h₂, bind_run_ok h₃,
    if_neg hstrings, if_neg hshort₀, hnonce, pure_bind, if_neg hshort₁, hbalance, pure_bind,
    hrootRun, pure_bind, hcodeRun, pure_bind]
  rfl

end

/-! ## The round trip -/

end StatelessGuest
