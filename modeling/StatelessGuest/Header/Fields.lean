import StatelessGuest.Header.Record
import StatelessGuest.Rlp.RoundTrip

/-!
# What the header decoder accepts

Every field that is read is the string of an item, in the one spelling that the encoder has for it.

* `IsField`: a slice is the encoding of a field.
* `decodeHeader_ok`: a decoded header is encoded to the bytes it was decoded from.
-/

namespace StatelessGuest

open Lib RlpTree

/-- Slice `i` is the string at `p`. -/
structure IsString (b : Buffer) (ts : List RlpTree) (i : Nat) (p n : Word) : Prop where
  within : b.Within p n
  tree : ts[i]? = some (.str (b.bytes p n))

/-- A string lies in the buffer. -/
def HeaderItem.Within (b : Buffer) : HeaderItem → Prop
  | .bytes p n => b.Within p n
  | _ => True

/-- Slice `i` is the encoding of a field. -/
structure IsField (b : Buffer) (ts : List RlpTree) (i : Nat) (item : HeaderItem) : Prop where
  encode : ts[i]?.map encode = some (item.enc b.bytes)
  within : item.Within b

/-- The slices from `i` on are the encodings of the fields. -/
def IsFields (b : Buffer) (ts : List RlpTree) : Nat → List HeaderItem → Prop
  | _, [] => True
  | i, item :: items => IsField b ts i item ∧ IsFields b ts (i + 1) items

/-- A reader that goes wrong, or leaves the arena as it is and yields a result with `P`. -/
def Reads {α : Type} (x : RlpM α) (s : Scratch) (P : α → Prop) : Prop :=
  ∀ a s', x s = .ok a s' → s.Same s' ∧ P a

section

variable {α β : Type} {x : RlpM α} {s : Scratch} {P : α → Prop}

theorem Reads.bind {f : α → RlpM β} {Q : β → Prop} (hx : Reads x s P)
    (hf : ∀ a s', s.Same s' → P a → Reads (f a) s' Q) : Reads (x >>= f) s Q := by
  intro b t hrun
  obtain ⟨a, s', hxs, hfs⟩ := bind_ok.mp hrun
  obtain ⟨hsame, ha⟩ := hx a s' hxs
  obtain ⟨hsame', hb⟩ := hf a s' hsame ha b t hfs
  exact ⟨hsame.trans hsame', hb⟩

theorem reads_pure {a : α} (h : P a) : Reads (pure a : RlpM α) s P := by
  intro a' s' hrun
  cases hrun
  exact ⟨.refl s, h⟩

theorem reads_throw {e : Exn} : Reads (throw e : RlpM α) s P := by
  intro a s' hrun
  cases hrun

theorem Reads.mono {Q : α → Prop} (h : Reads x s P) (hPQ : ∀ a, P a → Q a) : Reads x s Q :=
  fun a s' hrun => ⟨(h a s' hrun).1, hPQ a (h a s' hrun).2⟩

end

/-! ## Field readers -/

section

variable [Stray] {b : Buffer} {arr : List (Word × Word)} {ts : List RlpTree} {s : Scratch} {i : Nat}

omit [Stray] in
theorem slice_of_lt (h : Slices b arr ts) (hi : i < ts.length) :
    ∃ t, ts[i]? = some t ∧ Slice b (slicePtr arr i, sliceLen arr i) t := by
  induction h generalizing i with
  | nil => exact absurd hi (Nat.not_lt_zero i)
  | @cons slice t arr ts hslice _ ih =>
    cases i with
    | zero => exact ⟨t, rfl, hslice⟩
    | succ i => exact ih (Nat.lt_of_succ_lt_succ hi)

omit [Stray] in
theorem splits_of_item {p len : Word} {it : RlpItem} (hw : b.Within p len)
    (hitem : rlpItem (b.bytes p len) = .ok it) : Splits b it.toRlpHeader p len := by
  obtain ⟨h, hheader, hrest⟩ := except_bind_eq_ok.mp hitem
  have hsame : it.toRlpHeader = h := by
    cases hl : h.isList with
    | false =>
      rw [hl] at hrest
      cases hrest
      rfl
    | true =>
      rw [hl] at hrest
      obtain ⟨r, -, hrest⟩ := except_bind_eq_ok.mp hrest
      cases hrest
      rfl
  rw [hsame]
  exact splits_of_header hw hheader

theorem reads_item (hs : s.Sound) (h : Slices b arr ts) (hi : i < ts.length) :
    Reads (rlpItemAt b (slicePtr arr i) (sliceLen arr i)) s fun it =>
      it.isList = false → IsString b ts i it.payload it.length := by
  intro it s' hrun
  obtain ⟨t, ht, hslice⟩ := slice_of_lt h hi
  have hfollows := follows_item hs hslice.within
  rw [hrun] at hfollows
  cases hfollows with
  | ok hx _ hsame =>
    refine ⟨hsame, fun hstring => ?_⟩
    have hlt : t.encode.length < 2 ^ 64 := by
      rw [← hslice.bytes, Buffer.length_bytes]
      exact (sliceLen arr i).isLt
    obtain ⟨item, hitem, hd⟩ := rlpItem_encode hlt []
    rw [List.append_nil, ← hslice.bytes] at hitem hd
    rw [hitem] at hx
    cases hx
    have hsplit := splits_of_item hslice.within hitem
    refine ⟨hsplit.inside, ?_⟩
    have hpayload := hsplit.payload.trans hd.payload
    have hkind : t.isList = false := hd.isList.symm.trans hstring
    change ts[i]? = some (.str (b.bytes _ _))
    rw [ht]
    cases t with
    | str bs => exact congrArg (fun bs => some (RlpTree.str bs)) hpayload.symm
    | list ts => cases hkind

theorem reads_uintField {maxb : Word} (hs : s.Sound) (h : Slices b arr ts) (hi : i < ts.length) :
    Reads (hdrUintField b arr i maxb) s fun f =>
      IsString b ts i f.1 f.2 ∧ (b.bytes f.1 f.2).head? ≠ some 0 := by
  refine (reads_item hs h hi).bind fun it s₁ hsame hit => ?_
  split
  · exact reads_throw
  next hstring =>
  have hfield := hit (Bool.eq_false_of_not_eq_true hstring)
  have hfirst : Reads (hdrFirstByte b it) s₁
      fun first => first ≠ 0 → (b.bytes it.payload it.length).head? ≠ some 0 := by
    unfold hdrFirstByte
    split
    · next hne =>
      rw [ld8_first hfield.within hne, Buffer.bytes_cons hne]
      refine reads_pure fun hbyte hzero => hbyte ?_
      rw [Option.some.inj hzero]
      rfl
    · next hzero =>
      rw [not_not.mp hzero, Buffer.bytes_zero]
      exact reads_pure fun _ hnone => by cases hnone
  refine hfirst.bind fun first s₂ _ hhead => ?_
  split
  · exact reads_throw
  next hne =>
  split
  · exact reads_throw
  · exact reads_pure ⟨hfield, hhead hne⟩

omit [Stray] in
/-- One more byte of an integer that leaves room for it. -/
theorem shift_or_byte_u256 {n : Nat} (h : n < 2 ^ 248) (x : UInt8) :
    (BitVec.ofNat 256 n <<< 8) ||| (BitVec.ofNat 64 x.toNat).setWidth 256 =
      BitVec.ofNat 256 (n * 256 + x.toNat) := by
  have hx := x.toNat_lt
  refine BitVec.eq_of_toNat_eq ?_
  rw [BitVec.toNat_or, BitVec.toNat_shiftLeft, BitVec.toNat_setWidth, toNat_ofByte,
    BitVec.toNat_ofNat, BitVec.toNat_ofNat, Nat.mod_eq_of_lt (a := n) (by omega),
    Nat.shiftLeft_eq, Nat.mod_eq_of_lt (a := n * 2 ^ 8) (by omega),
    Nat.mod_eq_of_lt (a := x.toNat) (by omega), Nat.mod_eq_of_lt (a := n * 256 + x.toNat) (by omega),
    Nat.mul_comm, ← Nat.two_pow_add_eq_or_of_lt (i := 8) (by omega), Nat.mul_comm]

theorem readU256_eq {p n : Word} (h : b.Within p n) (hle : n.toNat ≤ 32) {k : Nat}
    (hk : k ≤ n.toNat) :
    ((List.range k).foldlM (fun v i => do
      let x ← ld8 b (p + BitVec.ofNat 64 i)
      return (v <<< 8) ||| x.setWidth 256) (0 : U256) : RlpM U256) =
      pure (BitVec.ofNat 256 (beNat ((b.bytes p n).take k))) := by
  induction k with
  | zero => rfl
  | succ k ih =>
    have hget : (b.bytes p n)[k]? = some (b.byte (p + BitVec.ofNat 64 k)) := by
      rw [List.getElem?_eq_getElem (by rw [Buffer.length_bytes]; omega), Buffer.getElem_bytes]
    have hlt : beNat ((b.bytes p n).take k) < 2 ^ 248 := by
      refine Nat.lt_of_lt_of_le (beNat_lt _) ?_
      rw [List.length_take, Buffer.length_bytes, Nat.min_eq_left (by omega)]
      exact (Nat.pow_le_pow_right (by decide) (show k ≤ 31 by omega)).trans (by decide)
    rw [List.range_succ, List.foldlM_append, ih (by omega), pure_bind, List.foldlM_cons,
      ld8_eq h (by omega), pure_bind, pure_bind, List.foldlM_nil, shift_or_byte_u256 hlt,
      List.take_add_one, hget, Option.toList_some, beNat_append_singleton]

omit [Stray] in
theorem beNat_bytes_lt {p n : Word} {k : Nat} (hle : n.toNat ≤ k) :
    beNat (b.bytes p n) < 256 ^ k := by
  refine Nat.lt_of_lt_of_le (beNat_lt _) (Nat.pow_le_pow_right (by decide) ?_)
  rwa [Buffer.length_bytes]

omit [Stray] in
theorem take_bytes (p n : Word) : (b.bytes p n).take n.toNat = b.bytes p n := by
  rw [← Buffer.length_bytes (b := b) (p := p), List.take_length]

theorem reads_readWord {p n : Word} (hf : IsString b ts i p n)
    (hhead : (b.bytes p n).head? ≠ some 0) (hle : n.toNat ≤ 8) :
    Reads (hdrReadWord b p n) s fun w => IsField b ts i (.word w) := by
  have hlt := beNat_bytes_lt (b := b) (p := p) hle
  have hnat : (BitVec.ofNat 64 (beNat (b.bytes p n))).toNat = beNat (b.bytes p n) :=
    toNat_ofNat_small hlt
  unfold hdrReadWord
  rw [readBytes_eq hf.within hle (Nat.le_refl _), take_bytes]
  refine reads_pure ⟨?_, trivial⟩
  rw [hf.tree, HeaderItem.enc, RlpData.rlpEncodeWord_eq, hnat, rlpBe_beNat hhead]
  rfl

theorem reads_u256FromBe {p n : Word} (hf : IsString b ts i p n)
    (hhead : (b.bytes p n).head? ≠ some 0) (hle : n.toNat ≤ 32) :
    Reads (u256FromBeAt b p n) s fun v => IsField b ts i (.u256 v) := by
  have hlt := beNat_bytes_lt (b := b) (p := p) hle
  have hnat : (BitVec.ofNat 256 (beNat (b.bytes p n))).toNat = beNat (b.bytes p n) := by
    rw [BitVec.toNat_ofNat, Nat.mod_eq_of_lt (Nat.lt_of_lt_of_eq hlt (by decide))]
  unfold u256FromBeAt
  rw [readU256_eq hf.within hle (Nat.le_refl _), take_bytes]
  refine reads_pure ⟨?_, trivial⟩
  rw [hf.tree, HeaderItem.enc, rlpPutU256, hnat, rlpBe_beNat hhead]
  rfl

theorem reads_wordField (hs : s.Sound) (h : Slices b arr ts) (hi : i < ts.length) :
    Reads (hdrWordField b arr i) s fun w => IsField b ts i (.word w) := by
  refine (reads_uintField hs h hi).bind fun f s₁ _ hf => ?_
  split
  · exact reads_throw
  · next hle => exact reads_readWord hf.1 hf.2 (Nat.not_lt.mp hle)

theorem reads_u256Field {maxb : Word} (hs : s.Sound) (h : Slices b arr ts) (hi : i < ts.length) :
    Reads (hdrU256Field b arr i maxb) s fun v => IsField b ts i (.u256 v) := by
  refine (reads_uintField hs h hi).bind fun f s₁ _ hf => ?_
  split
  · exact reads_throw
  · next hle => exact reads_u256FromBe hf.1 hf.2 (Nat.not_lt.mp hle)

theorem reads_bytesField {width : Word} (hs : s.Sound) (h : Slices b arr ts) (hi : i < ts.length) :
    Reads (hdrBytesField b arr i width) s fun p =>
      IsField b ts i (.bytes p width) := by
  refine (reads_item hs h hi).bind fun it s₁ _ hit => ?_
  split
  · exact reads_throw
  next hstring =>
  have hf := hit (Bool.eq_false_of_not_eq_true hstring)
  split
  · exact reads_throw
  next hwidth =>
  rw [not_not.mp hwidth] at hf
  refine reads_pure ⟨?_, hf.within⟩
  rw [hf.tree]
  rfl

theorem reads_rawField (hs : s.Sound) (h : Slices b arr ts) (hi : i < ts.length) :
    Reads (hdrRawField b arr i) s fun f =>
      IsField b ts i (.bytes f.1 f.2) := by
  refine (reads_item hs h hi).bind fun it s₁ _ hit => ?_
  split
  · exact reads_throw
  next hstring =>
  have hf := hit (Bool.eq_false_of_not_eq_true hstring)
  refine reads_pure ⟨?_, hf.within⟩
  rw [hf.tree]
  rfl

theorem reads_timestampField (hs : s.Sound) (h : Slices b arr ts) (hi : i < ts.length) :
    Reads (hdrTimestampField b arr i) s fun w => IsField b ts i (.word w) := by
  refine (reads_uintField hs h hi).bind fun f s₁ hsame _ => ?_
  split
  · exact reads_throw
  · exact reads_wordField (hsame.sound hs) h hi

theorem reads_word8Field (hs : s.Sound) (h : Slices b arr ts) (hi : i < ts.length) :
    Reads (hdrWord8Field b arr i) s fun w => IsField b ts i (.word w) :=
  (reads_uintField hs h hi).bind fun _ _ hsame _ => reads_wordField (hsame.sound hs) h hi

/-! ## Headers -/

omit [Stray] in
theorem IsFields.encode {items : List HeaderItem} (h : IsFields b ts i items)
    (hlen : ts.length = i + items.length) :
    (ts.drop i).map RlpTree.encode = items.map (HeaderItem.enc b.bytes) := by
  induction items generalizing i with
  | nil =>
    rw [List.drop_eq_nil_of_le (show ts.length ≤ i from Nat.le_of_eq hlen)]
    rfl
  | cons item items ih =>
    rw [List.length_cons] at hlen
    have hi : i < ts.length := by omega
    have hfield := h.1.encode
    rw [List.getElem?_eq_getElem hi] at hfield
    rw [List.drop_eq_getElem_cons hi, List.map_cons, List.map_cons, ih h.2 (by omega),
      Option.some.inj hfield]

omit [Stray] in
theorem IsFields.within {items : List HeaderItem} (h : IsFields b ts i items) :
    ∀ item ∈ items, item.Within b := by
  induction items generalizing i with
  | nil => exact fun _ hmem => by cases hmem
  | cons item items ih =>
    intro x hmem
    rcases List.mem_cons.mp hmem with rfl | hmem
    · exact h.1.within
    · exact ih h.2 x hmem

omit [Stray] in
theorem IsFields.payload {h : HeaderRecord} (hf : IsFields b ts 0 h.items)
    (hlen : ts.length = h.items.length) : encodeAll ts = h.payload b.bytes := by
  rw [encodeAll_eq_flatten, HeaderRecord.payload, ← hf.encode (by omega), List.drop_zero]

theorem reads_currentFields {isCurrent : Bool} (hs : s.Sound) (h : Slices b arr ts)
    (hlen : ts.length = if isCurrent then 23 else 21) :
    Reads (decodeCurrentFields b arr isCurrent) s fun current => isCurrent = true →
      IsField b ts 21 (.bytes current.1 32) ∧ IsField b ts 22 (.word current.2) := by
  cases isCurrent with
  | false => exact reads_pure fun hc => by cases hc
  | true =>
    have hlen' : ts.length = 23 := hlen
    refine (reads_bytesField hs h (by omega)).bind fun balHash s₁ h₁ hbal => ?_
    refine (reads_word8Field (h₁.sound hs) h (by omega)).bind fun slot _ _ hslot => ?_
    exact reads_pure fun _ => ⟨hbal, hslot⟩

/-- Every field of a decoded header is the string of its slice. -/
theorem reads_fields {isCurrent : Bool} (hs : s.Sound) (h : Slices b arr ts)
    (hlen : ts.length = if isCurrent then 23 else 21) :
    Reads (decodeFields b arr isCurrent) s fun r =>
      r.isCurrent = isCurrent ∧ IsFields b ts 0 r.items := by
  have hi : 21 ≤ ts.length := by
    rw [hlen]
    split <;> decide
  unfold decodeFields
  refine (reads_bytesField hs h (by omega)).bind fun f₀ _ h₀ p₀ => ?_
  replace hs := h₀.sound hs
  refine (reads_bytesField hs h (by omega)).bind fun f₁ _ h₁ p₁ => ?_
  replace hs := h₁.sound hs
  refine (reads_bytesField hs h (by omega)).bind fun f₂ _ h₂ p₂ => ?_
  replace hs := h₂.sound hs
  refine (reads_bytesField hs h (by omega)).bind fun f₃ _ h₃ p₃ => ?_
  replace hs := h₃.sound hs
  refine (reads_bytesField hs h (by omega)).bind fun f₄ _ h₄ p₄ => ?_
  replace hs := h₄.sound hs
  refine (reads_bytesField hs h (by omega)).bind fun f₅ _ h₅ p₅ => ?_
  replace hs := h₅.sound hs
  refine (reads_bytesField hs h (by omega)).bind fun f₆ _ h₆ p₆ => ?_
  replace hs := h₆.sound hs
  refine (reads_u256Field hs h (by omega)).bind fun f₇ _ h₇ p₇ => ?_
  replace hs := h₇.sound hs
  refine (reads_wordField hs h (by omega)).bind fun f₈ _ h₈ p₈ => ?_
  replace hs := h₈.sound hs
  refine (reads_wordField hs h (by omega)).bind fun f₉ _ h₉ p₉ => ?_
  replace hs := h₉.sound hs
  refine (reads_wordField hs h (by omega)).bind fun f₁₀ _ h₁₀ p₁₀ => ?_
  replace hs := h₁₀.sound hs
  refine (reads_timestampField hs h (by omega)).bind fun f₁₁ _ h₁₁ p₁₁ => ?_
  replace hs := h₁₁.sound hs
  refine (reads_rawField hs h (by omega)).bind fun f₁₂ _ h₁₂ p₁₂ => ?_
  replace hs := h₁₂.sound hs
  refine (reads_bytesField hs h (by omega)).bind fun f₁₃ _ h₁₃ p₁₃ => ?_
  replace hs := h₁₃.sound hs
  refine (reads_bytesField hs h (by omega)).bind fun f₁₄ _ h₁₄ p₁₄ => ?_
  replace hs := h₁₄.sound hs
  refine (reads_u256Field hs h (by omega)).bind fun f₁₅ _ h₁₅ p₁₅ => ?_
  replace hs := h₁₅.sound hs
  refine (reads_bytesField hs h (by omega)).bind fun f₁₆ _ h₁₆ p₁₆ => ?_
  replace hs := h₁₆.sound hs
  refine (reads_word8Field hs h (by omega)).bind fun f₁₇ _ h₁₇ p₁₇ => ?_
  replace hs := h₁₇.sound hs
  refine (reads_word8Field hs h (by omega)).bind fun f₁₈ _ h₁₈ p₁₈ => ?_
  replace hs := h₁₈.sound hs
  refine (reads_bytesField hs h (by omega)).bind fun f₁₉ _ h₁₉ p₁₉ => ?_
  replace hs := h₁₉.sound hs
  refine (reads_bytesField hs h (by omega)).bind fun f₂₀ _ h₂₀ p₂₀ => ?_
  replace hs := h₂₀.sound hs
  refine (reads_currentFields hs h hlen).bind fun current _ _ pc => ?_
  refine reads_pure ⟨rfl, ?_⟩
  cases isCurrent with
  | false =>
    exact ⟨p₀, p₁, p₂, p₃, p₄, p₅, p₆, p₇, p₈, p₉, p₁₀, p₁₁, p₁₂, p₁₃, p₁₄, p₁₅, p₁₆, p₁₇, p₁₈, p₁₉,
      p₂₀, trivial⟩
  | true =>
    obtain ⟨p₂₁, p₂₂⟩ := pc rfl
    exact ⟨p₀, p₁, p₂, p₃, p₄, p₅, p₆, p₇, p₈, p₉, p₁₀, p₁₁, p₁₂, p₁₃, p₁₄, p₁₅, p₁₆, p₁₇, p₁₈, p₁₉,
      p₂₀, p₂₁, p₂₂, trivial⟩

omit [Stray] in
theorem length_items (h : HeaderRecord) :
    h.items.length = if h.isCurrent then 23 else 21 := by
  unfold HeaderRecord.items HeaderRecord.itemsAfter
  cases h.isCurrent <;> rfl

/-- The fields of a header make up its encoding. -/
theorem reads_decodedFields {isCurrent : Bool} {p len : Word} (hs : s.Sound) (h : Slices b arr ts)
    (hlen : ts.length = if isCurrent then 23 else 21)
    (hts : b.bytes p len = rlpEncodeList (encodeAll ts)) :
    Reads (decodeFields b arr isCurrent) s fun r =>
      b.bytes p len = r.encoding b.bytes ∧ ∀ item ∈ r.items, item.Within b := by
  refine (reads_fields hs h hlen).mono fun r hr => ?_
  obtain ⟨rfl, hfields⟩ := hr
  rw [hts, hfields.payload (hlen.trans (length_items r).symm)]
  exact ⟨rfl, hfields.within⟩

/-- What the whole of a byte string is decoded to. -/
theorem reads_decodeFully {p len : Word} (hs : s.Sound) (hw : b.Within p len) :
    Reads (rlpDecodeFullyAt b p len) s fun top => top.isList = true →
      b.Within top.payload top.length ∧
        b.bytes p len = rlpEncodeList (b.bytes top.payload top.length) := by
  intro top s' hrun
  have hfollows := follows_decodeFully hs hw
  rw [hrun] at hfollows
  cases hfollows with
  | ok hx _ hsame =>
    refine ⟨hsame, fun hlist => ?_⟩
    cases hitem : rlpDecodeFully (b.bytes p len) with
    | error e =>
      rw [hitem] at hx
      cases hx
    | ok it =>
      rw [hitem] at hx
      cases hx
      obtain ⟨hitem, htotal⟩ := rlpDecodeFully_eq_ok.mp hitem
      obtain ⟨t, hd⟩ := describes_of_rlpItem hitem
      have hsplit := splits_of_item hw hitem
      have hstarts := hd.starts
      rw [htotal, List.drop_length, List.append_nil] at hstarts
      have hpayload : b.bytes (it.at p).payload (it.at p).length = t.payload :=
        hsplit.payload.trans hd.payload
      refine ⟨hsplit.inside, hstarts.trans ?_⟩
      rw [hpayload]
      have hkind : t.isList = true := hd.isList.symm.trans hlist
      cases t with
      | str bs => cases hkind
      | list ts => rfl

/-- A decoded header is encoded to the bytes it was decoded from. -/
theorem decodeHeader_ok {p len : Word} (hs : s.Sound) (hw : b.Within p len) :
    Reads (decodeHeader b p len) s fun r =>
      b.bytes p len = r.encoding b.bytes ∧ ∀ item ∈ r.items, item.Within b := by
  refine (reads_decodeFully hs hw).bind fun top s₁ hsame htop => ?_
  split
  · exact reads_throw
  next hlist =>
  obtain ⟨hinside, hbytes⟩ := htop (Bool.eq_true_of_not_eq_false hlist)
  have hslices : Reads (rlpListToSlices b top.payload top.length) s₁ fun arr =>
      ∃ ts, b.bytes top.payload top.length = encodeAll ts ∧ Slices b arr ts :=
    fun _ _ hrun => slices_of_run (hsame.sound hs) hinside hrun
  refine hslices.bind fun arr s₂ hsame' ⟨ts, hts, h⟩ => ?_
  have hlen : arr.length = ts.length := h.length_eq
  have hs₂ := hsame'.sound (hsame.sound hs)
  rw [hts] at hbytes
  split
  · next h23 => exact reads_decodedFields hs₂ h (hlen.symm.trans h23) hbytes
  · split
    · exact reads_throw
    · next h21 => exact reads_decodedFields hs₂ h (hlen.symm.trans (not_not.mp h21)) hbytes

end

end StatelessGuest
