import StatelessGuest.Header.Encode
import StatelessGuest.Header.Fields

/-!
# Chains of headers

The headers of a witness are decoded and hashed, and each has to name the hash of the one before.

* `validateHeaders`: the records and the hashes.
* `Chain`: what an accepted witness holds.
* `header_round_trip`: a record is encoded to the bytes it was decoded from, so that its hash is the
  one that was recorded.
-/

namespace StatelessGuest

open Lib Ram

/-! ## The headers of a witness -/

section

variable [Stray] [Keccak] (b : Buffer)

/-- Every header with the hash of its bytes. -/
def decodeHeaders : List (Word × Word) → RlpM (List (HeaderRecord × Hash))
  | [] => return []
  | slice :: arr => do
    let h ← decodeHeader b slice.1 slice.2
    let rest ← decodeHeaders arr
    return (h, keccak256 (b.bytes slice.1 slice.2)) :: rest

omit [Stray] [Keccak] in
/-- Every header names the hash of the one before. -/
def headersContiguous : List (HeaderRecord × Hash) → RlpM Unit
  | [] => return ()
  | [_] => return ()
  | r :: r' :: rs =>
    if b.bytes r'.1.parentHash 32 = hashBytes r.2 then headersContiguous (r' :: rs)
    else throw (.block 2)

/-- At most 256 headers are accepted. -/
def validateHeaders (arr : List (Word × Word)) : RlpM (List (HeaderRecord × Hash)) :=
  if 256 < arr.length then throw (.block 1)
  else do
    let rs ← decodeHeaders b arr
    headersContiguous b rs
    return rs

end

/-! ## Memory that holds the input -/

/-- The input lies in the memory, below the end of the heap. -/
structure Ram.Holds (s : Ram) (b : Buffer) : Prop where
  byte : ∀ i < b.len.toNat, s.bytes (b.start.toNat + i) = b.byte (b.start + BitVec.ofNat 64 i)
  below : b.start.toNat + b.len.toNat ≤ s.heapPtr
  heap : s.heapPtr ≤ Ram.heapEnd

variable {s : Ram} {b : Buffer} {p n : Word}

theorem Ram.Holds.toNat_add (h : s.Holds b) {i : Nat} (hi : i ≤ b.len.toNat) :
    (b.start + BitVec.ofNat 64 i).toNat = b.start.toNat + i := by
  have hbelow := h.below
  have hheap := h.heap
  unfold Ram.heapEnd at hheap
  rw [BitVec.toNat_add, BitVec.toNat_ofNat, Nat.mod_eq_of_lt (a := i) (by omega),
    Nat.mod_eq_of_lt (by omega)]

/-- A range of the input is at an offset. -/
theorem Buffer.Within.exists_offset (hw : b.Within p n) (hn : n ≠ 0) :
    ∃ k, p = b.start + BitVec.ofNat 64 k ∧ k + n.toNat ≤ b.len.toNat := by
  have hpos : 0 < n.toNat := Nat.pos_of_ne_zero fun hz => hn (BitVec.eq_of_toNat_eq hz)
  have hread : ∀ i < n.toNat, ((p - b.start).toNat + i) % 2 ^ 64 < b.len.toNat := by
    intro i hi
    have hi' := n.isLt
    have hlt : (p + BitVec.ofNat 64 i - b.start).toNat < b.len.toNat := hw.readable i hi
    rwa [add_sub_right_comm, BitVec.toNat_add, BitVec.toNat_ofNat,
      Nat.mod_eq_of_lt (a := i) (by omega)] at hlt
  have hlt := b.len.isLt
  have hk := (p - b.start).isLt
  refine ⟨(p - b.start).toNat, by rw [BitVec.ofNat_toNat, BitVec.setWidth_eq, add_sub_cancel], ?_⟩
  -- the first address behind the input cannot be read
  by_contra hout
  have hbehind := hread (b.len.toNat - (p - b.start).toNat) (by
    have := hread 0 hpos
    rw [Nat.add_zero, Nat.mod_eq_of_lt hk] at this
    omega)
  have hfirst := hread 0 hpos
  rw [Nat.add_zero, Nat.mod_eq_of_lt hk] at hfirst
  rw [Nat.add_sub_cancel' (by omega), Nat.mod_eq_of_lt hlt] at hbehind
  exact absurd hbehind (Nat.lt_irrefl _)

theorem Ram.Holds.below_of_within (h : s.Holds b) (hw : b.Within p n) :
    n = 0 ∨ p.toNat + n.toNat ≤ s.heapPtr := by
  by_cases hn : n = 0
  · exact .inl hn
  · obtain ⟨k, rfl, hk⟩ := hw.exists_offset hn
    have hbelow := h.below
    rw [h.toNat_add (by omega)]
    exact .inr (by omega)

theorem Ram.Holds.read (h : s.Holds b) (hw : b.Within p n) : s.read p n = b.bytes p n := by
  by_cases hn : n = 0
  · subst hn
    rfl
  obtain ⟨k, rfl, hk⟩ := hw.exists_offset hn
  refine List.ext_getElem? fun i => ?_
  by_cases hi : i < n.toNat
  · rw [List.getElem?_eq_getElem (l := b.bytes _ _) (by rwa [Buffer.length_bytes]),
      Buffer.getElem_bytes, Ram.read, ByteMap.getElem?_load hi, h.toNat_add (by omega),
      Nat.add_assoc, h.byte _ (by omega), BitVec.ofNat_add, ← add_assoc]
  · rw [List.getElem?_eq_none (by rw [Ram.read, ByteMap.length_load]; omega),
      List.getElem?_eq_none (by rw [Buffer.length_bytes]; omega)]

theorem enc_of_holds (h : s.Holds b) {item : HeaderItem} (hitem : item.Within b) :
    item.enc s.read = item.enc b.bytes := by
  cases item with
  | bytes p n => exact congrArg rlpEncodeBytes (h.read hitem)
  | _ => rfl

theorem itemsPayload_of_holds (h : s.Holds b) {items : List HeaderItem}
    (hitems : ∀ item ∈ items, item.Within b) :
    itemsPayload s.read items = itemsPayload b.bytes items := by
  unfold itemsPayload
  rw [List.map_congr_left fun item hmem => enc_of_holds h (hitems item hmem)]

theorem itemsBelow_of_holds (h : s.Holds b) {items : List HeaderItem}
    (hitems : ∀ item ∈ items, item.Within b) : ∀ item ∈ items, item.Below s.heapPtr := by
  intro item hmem
  have hitem := hitems item hmem
  cases item with
  | bytes p n => exact h.below_of_within hitem
  | _ => trivial

/-! ## Round trip -/

/-- The encoder leaves `bs`, unless the heap is full. -/
def HeaderRecord.Reencodes (h : HeaderRecord) (s : Ram) (bs : Bytes) : Prop :=
  (∃ start s', encodeHeader h s = .ok (start, bs.length) s' ∧
    s'.bytes.load start bs.length = bs) ∨
    Ram.heapEnd < s.heapPtr + 1070 ∧ ∃ s', encodeHeader h s = .error (.trap 1) s'

/-- The hash of a header is `hash`, unless the heap is full. -/
def HeaderRecord.Rehashes [Keccak] (h : HeaderRecord) (s : Ram) (hash : Hash) : Prop :=
  ∀ out, (∃ s', headerHash h out s = .ok () s' ∧ s'.bytes.load out 32 = hashBytes hash ∧
    s'.heapPtr = s.heapPtr) ∨
    Ram.heapEnd < s.heapPtr + 1070 ∧ ∃ s', headerHash h out s = .error (.trap 1) s'

theorem HeaderRecord.Reencodes.rehashes [Keccak] {h : HeaderRecord} {bs : Bytes}
    (henc : h.Reencodes s bs) : h.Rehashes s (keccak256 bs) := by
  intro out
  unfold headerHash
  rw [bind_run_ok (heapMark_run s)]
  rcases henc with ⟨start, s', hrun, hload⟩ | ⟨hfull, s', hrun⟩
  · left
    have hself := ByteMap.load_store_self s'.bytes out (hashBytes (keccak256 bs))
    rw [length_hashBytes] at hself
    rw [bind_run_ok hrun, bind_run_ok (keccakAt_run s' _ _ _), heapRelease_run]
    dsimp only
    rw [hload]
    exact ⟨_, rfl, hself, rfl⟩
  · exact .inr ⟨hfull, s', bind_run_error hrun⟩

/-- A header that was decoded from the bytes at `p`. -/
structure DecodedFrom (b : Buffer) (p n : Word) (h : HeaderRecord) : Prop where
  bytes : b.bytes p n = h.encoding b.bytes
  within : ∀ item ∈ h.items, item.Within b

namespace DecodedFrom

variable {h : HeaderRecord}

theorem length_payload_lt (hd : DecodedFrom b p n h) : (h.payload b.bytes).length < n.toNat := by
  have hlen := congrArg List.length hd.bytes
  have hpos : 0 < (rlpEncodeListHeader (h.payload b.bytes).length).length := by
    rw [rlpEncodeListHeader, length_rlpWriteHeader]
    split <;> omega
  rw [Buffer.length_bytes, HeaderRecord.encoding, rlpEncodeList, List.length_append] at hlen
  omega

/-- The base fee of a short header ends in the buffer. -/
theorem fits (hd : DecodedFrom b p n h) (hn : n ≤ 1024) : h.FitsBuffer b.bytes := by
  have hlen := hd.length_payload_lt
  have hn' : n.toNat ≤ 1024 := hn
  have hafter : 32 ≤ (itemsPayload b.bytes h.itemsAfter).length := by
    have hroot := length_le_rlpEncodeBytes (b.bytes h.withdrawalsRoot 32)
    rw [Buffer.length_bytes] at hroot
    rw [HeaderRecord.itemsAfter, itemsPayload_append, List.length_append, itemsPayload_cons,
      List.length_append]
    exact Nat.le_trans hroot (by rw [HeaderItem.enc]; omega)
  have hpayload : h.payload b.bytes = itemsPayload b.bytes h.items := rfl
  rw [hpayload, h.items_eq, itemsPayload_append, List.length_append] at hlen
  unfold HeaderRecord.FitsBuffer
  omega

theorem payload_read (hd : DecodedFrom b p n h) (hs : s.Holds b) :
    h.payload s.read = h.payload b.bytes :=
  itemsPayload_of_holds hs hd.within

theorem encoding_read (hd : DecodedFrom b p n h) (hs : s.Holds b) :
    h.encoding s.read = b.bytes p n := by
  rw [hd.bytes, HeaderRecord.encoding, hd.payload_read hs]
  rfl

theorem reencodes (hd : DecodedFrom b p n h) (hfits : h.FitsBuffer b.bytes) (hs : s.Holds b) :
    h.Reencodes s (b.bytes p n) := by
  have hencoding := hd.encoding_read hs
  have hfits' : h.FitsBuffer s.read := by
    unfold HeaderRecord.FitsBuffer
    rwa [itemsPayload_of_holds hs fun item hmem => hd.within item (by
      rw [h.items_eq]
      exact List.mem_append_left _ hmem)]
  have hlt : (h.payload s.read).length < 2 ^ 64 := by
    rw [hd.payload_read hs]
    exact hd.length_payload_lt.trans n.isLt
  rcases encodeHeader_cases (itemsBelow_of_holds hs hd.within) hfits' hlt with
    ⟨start, s', hrun, hload, -⟩ | hfull
  · rw [hencoding] at hrun hload
    exact .inl ⟨start, s', hrun, hload⟩
  · exact .inr hfull

end DecodedFrom

/-! ## The witness -/

section

variable [Stray] [Keccak] {x : Scratch} {arr : List (Word × Word)}

/-- A header that was decoded from a slice, with the hash of the slice. -/
structure RecordedHeader (b : Buffer) (slice : Word × Word) (r : HeaderRecord × Hash) : Prop where
  decoded : DecodedFrom b slice.1 slice.2 r.1
  hash : r.2 = keccak256 (b.bytes slice.1 slice.2)

omit [Stray] [Keccak] in
theorem reads_decoded [Stray] (hx : x.Sound) (hw : b.Within p n) :
    Reads (decodeHeader b p n) x (DecodedFrom b p n) :=
  (decodeHeader_ok hx hw).mono fun _ h => ⟨h.1, h.2⟩

theorem reads_decodeHeaders (hx : x.Sound) (harr : ∀ slice ∈ arr, b.Within slice.1 slice.2) :
    Reads (decodeHeaders b arr) x fun rs => List.Forall₂ (RecordedHeader b) arr rs := by
  induction arr generalizing x with
  | nil => exact reads_pure .nil
  | cons slice arr ih =>
    refine (reads_decoded hx (harr slice List.mem_cons_self)).bind fun h x₁ hsame hd => ?_
    refine (ih (hsame.sound hx) fun slice hmem =>
      harr slice (List.mem_cons_of_mem _ hmem)).bind fun rest x₂ _ hrest => ?_
    exact reads_pure (.cons ⟨hd, rfl⟩ hrest)

/-- A header names the hash of the one before. -/
def NamesHash (b : Buffer) (r r' : HeaderRecord × Hash) : Prop :=
  b.bytes r'.1.parentHash 32 = hashBytes r.2

omit [Stray] [Keccak] in
theorem reads_headersContiguous (rs : List (HeaderRecord × Hash)) :
    Reads (headersContiguous b rs) x fun _ => rs.IsChain (NamesHash b) := by
  induction rs generalizing x with
  | nil => exact reads_pure .nil
  | cons r rs ih =>
    cases rs with
    | nil => exact reads_pure (.singleton r)
    | cons r' rs =>
      unfold headersContiguous
      split
      · next hhash => exact ih.mono fun _ hrest => .cons_cons hhash hrest
      · exact reads_throw

/-- The headers of an accepted witness are hashed as they were sent, and chained. -/
theorem reads_validateHeaders (hx : x.Sound) (harr : ∀ slice ∈ arr, b.Within slice.1 slice.2) :
    Reads (validateHeaders b arr) x fun rs =>
      arr.length ≤ 256 ∧ List.Forall₂ (RecordedHeader b) arr rs ∧ rs.IsChain (NamesHash b) := by
  unfold validateHeaders
  split
  · exact reads_throw
  next hle =>
  refine (reads_decodeHeaders hx harr).bind fun rs x₁ _ hrs => ?_
  refine (reads_headersContiguous rs).bind fun _ x₂ _ hchain => ?_
  exact reads_pure ⟨Nat.not_lt.mp hle, hrs, hchain⟩

/-- What an accepted header of the witness promises: its bytes are encoded again from the record,
and its hash is computed again, as far as its base fee lies in the buffer of the encoder. -/
structure RoundTrips (b : Buffer) (slice : Word × Word) (r : HeaderRecord × Hash) : Prop where
  hash : r.2 = keccak256 (b.bytes slice.1 slice.2)
  short : slice.2 ≤ 1024 → r.1.FitsBuffer b.bytes
  rehashes : r.1.FitsBuffer b.bytes → ∀ s : Ram, s.Holds b → r.1.Rehashes s r.2

omit [Stray] in
theorem RecordedHeader.roundTrips {slice : Word × Word} {r : HeaderRecord × Hash}
    (h : RecordedHeader b slice r) : RoundTrips b slice r where
  hash := h.hash
  short := h.decoded.fits
  rehashes hfits s hs := by
    rw [h.hash]
    exact (h.decoded.reencodes hfits hs).rehashes

end

/-- A header whose base fee is encoded in the buffer, as it is when it has at most 1024 bytes, is
encoded to the bytes it was decoded from; its hash is the one recorded for the witness, which the
next header names. -/
theorem header_round_trip [Stray] [Keccak] {b : Buffer} {x x' : Scratch} (hx : x.Sound) :
    (∀ p n h, b.Within p n → decodeHeader b p n x = .ok h x' →
      (n ≤ 1024 → h.FitsBuffer b.bytes) ∧
        (h.FitsBuffer b.bytes → ∀ s : Ram, s.Holds b → h.Reencodes s (b.bytes p n))) ∧
    ∀ arr rs, (∀ slice ∈ arr, b.Within slice.1 slice.2) → validateHeaders b arr x = .ok rs x' →
      List.Forall₂ (RoundTrips b) arr rs ∧ rs.IsChain (NamesHash b) := by
  refine ⟨fun p n h hw hrun => ?_, fun arr rs harr hrun => ?_⟩
  · obtain ⟨-, hd⟩ := reads_decoded hx hw h x' hrun
    exact ⟨hd.fits, fun hfits s hs => hd.reencodes hfits hs⟩
  · obtain ⟨-, -, hrs, hchain⟩ := reads_validateHeaders hx harr rs x' hrun
    exact ⟨hrs.imp fun _ _ h => h.roundTrips, hchain⟩

/-! ## Extra data behind the buffer -/

theorem putItems_append (items items' : List HeaderItem) (p : Nat) :
    putItems (items ++ items') p = (do
      let p' ← putItems items p
      putItems items' p') := by
  induction items generalizing p with
  | nil => rfl
  | cons item items ih =>
    rw [List.cons_append, putItems, putItems, bind_assoc]
    exact bind_congr fun w => ih (p + w)

/-- A base fee that is encoded behind the buffer is left in the middle of the fields before it. -/
theorem encodeHeader_overwrites {h : HeaderRecord} {q : Nat}
    (halloc : alloc 1024 s = .ok s.heapPtr { s with heapPtr := q }) (hq : s.heapPtr + 9 ≤ q)
    (hroom : q + 39 ≤ Ram.heapEnd) (hbelow : ∀ item ∈ h.items, item.Below s.heapPtr)
    (hfit : ItemsFit { s with heapPtr := q } (s.heapPtr + 9) h.itemsBefore)
    (hfar : q + 32 ≤ s.heapPtr + 9 + (itemsPayload s.read h.itemsBefore).length)
    (hfee : h.baseFee ≠ 0) (hlt : (h.payload s.read).length < 2 ^ 64) :
    ∃ s', encodeHeader h s = .ok (s.heapPtr + 9 -
        (rlpEncodeListHeader (h.payload s.read).length).length, (h.encoding s.read).length) s' ∧
      some (s'.bytes q) = (rlpBe h.baseFee.toNat).head? := by
  generalize hread : Ram.mk s.bytes q = t at halloc hfit
  have htread : t.read = s.read := by rw [← hread]; rfl
  have hheap : t.heapPtr = q := by rw [← hread]
  rw [← htread] at hfar hlt ⊢
  rw [h.items_eq] at hbelow
  have hbefore : ∀ item ∈ h.itemsBefore, item.Below s.heapPtr := fun item hmem =>
    hbelow item (List.mem_append_left _ (List.mem_append_left _ hmem))
  have hafter : ∀ item ∈ h.itemsAfter, item.Below s.heapPtr := fun item hmem =>
    hbelow item (List.mem_append_right _ hmem)
  have hpayload : h.payload t.read = itemsPayload t.read h.itemsBefore ++
      (rlpPutU256 h.baseFee ++ itemsPayload t.read h.itemsAfter) := by
    change itemsPayload t.read h.items = _
    rw [h.items_eq, List.append_assoc, itemsPayload_append]
    rfl
  have hlen := congrArg List.length hpayload
  rw [List.length_append, List.length_append] at hlen
  generalize hp : s.heapPtr + 9 = p at hfar hfit hq ⊢
  generalize hn₀ : (itemsPayload t.read h.itemsBefore).length = n₀ at hfar hlen
  generalize hn₁ : (itemsPayload t.read h.itemsAfter).length = n₁ at hlen
  -- the fields before the base fee
  obtain ⟨s₁, hrun₁, hleaves₁⟩ : ∃ s', putItems h.itemsBefore p t = .ok (p + n₀) s' ∧
      t.Leaves p (itemsPayload t.read h.itemsBefore) s' := by
    have hput := putItems_run hbefore (by omega) hfit
    rw [hn₀] at hput
    exact hput.resolve_right fun hfull => by omega
  have hheap₁ : s₁.heapPtr = q := hleaves₁.heapPtr.trans hheap
  -- the base fee goes through the middle of them
  have hble : rlpBeLen h.baseFee.toNat ≤ 32 :=
    rlpBeLen_le (Nat.lt_of_lt_of_eq h.baseFee.isLt (by decide))
  obtain ⟨s₂, hrun₂, hheap₂, hsame₂, hbyte₂⟩ : ∃ s', rlpPutU256At (p + n₀) h.baseFee s₁ =
      .ok (rlpPutU256 h.baseFee).length s' ∧ s'.heapPtr = q ∧
        ByteMap.SameBelow s.heapPtr t.bytes s'.bytes ∧
          some (s'.bytes q) = (rlpBe h.baseFee.toNat).head? := by
    have hput := @putU256_run (p + n₀) s₁ h.baseFee (by omega)
    refine ⟨_, hput.resolve_right fun hfull => by omega, hheap₁, ?_, ?_⟩
    · exact (hleaves₁.below.mono (by omega)).trans ((ByteMap.sameBelow_store (by omega)).trans
        (ByteMap.sameBelow_store (by omega)))
    · rw [put_bytes, put_bytes, hheap₁, ByteMap.store_below (by omega), List.head?_eq_getElem?]
      have hpos := rlpBeLen_pos fun hz => hfee (BitVec.eq_of_toNat_eq hz)
      exact ByteMap.store_at (i := 0) (by
        rw [length_rlpBe]
        omega)
  -- the fields behind it
  obtain ⟨s₃, hrun₃, hleaves₃⟩ : ∃ s', putItems h.itemsAfter
      (p + n₀ + (rlpPutU256 h.baseFee).length) s₂ =
        .ok (p + n₀ + (rlpPutU256 h.baseFee).length + n₁) s' ∧
      s₂.Leaves (p + n₀ + (rlpPutU256 h.baseFee).length) (itemsPayload t.read h.itemsAfter) s' := by
    have hput := putItems_run (s := s₂) (p := p + n₀ + (rlpPutU256 h.baseFee).length) hafter
      (by omega) (itemsFit_of_short h.itemsAfter_short)
    rw [itemsPayload_congr hsame₂ hafter, hn₁] at hput
    exact hput.resolve_right fun hfull => by omega
  have hle := length_rlpEncodeListHeader_le hlt
  have hhead : (rlpListHeaderLen (BitVec.ofNat 64 (h.payload t.read).length)).toNat =
      (rlpEncodeListHeader (h.payload t.read).length).length := by
    rw [toNat_rlpListHeaderLen, BitVec.toNat_ofNat, Nat.mod_eq_of_lt hlt]
  have hitems : putItems h.items p t = .ok (p + (h.payload t.read).length) s₃ := by
    rw [h.items_eq, List.append_assoc, putItems_append, bind_run_ok hrun₁, List.singleton_append,
      putItems, HeaderItem.put, bind_run_ok hrun₂, hrun₃, hlen]
    simp only [Nat.add_assoc]
  refine ⟨s₃.put (p - (rlpEncodeListHeader (h.payload t.read).length).length)
    (rlpEncodeListHeader (h.payload t.read).length), ?_, ?_⟩
  · unfold encodeHeader
    rw [bind_run_ok halloc, hp, bind_run_ok hitems, Nat.add_sub_cancel_left, hhead,
      bind_run_ok (puts_listHeader s₃ _ _), HeaderRecord.encoding, rlpEncodeList,
      List.length_append, Nat.add_comm (rlpEncodeListHeader _).length]
    rfl
  · rw [put_bytes, ByteMap.store_above (by omega), hleaves₃.below q (by omega), hbyte₂]

/-! ## Headers of zeros -/

/-- The bytes of a header of the previous fork whose strings are zeros and whose numbers are zero,
except for a base fee of one. Its extra data has `256 * k` bytes. -/
def zeroHeaderByte (k off : Nat) : UInt8 :=
  let n := 256 * k
  let marks : List (Nat × Nat) :=
    [(0, 0xf9), (1, 2 + k), (2, 0x55), (3, 0xa0), (36, 0xa0), (69, 0x94), (90, 0xa0),
      (123, 0xa0), (156, 0xa0), (189, 0xb9), (190, 1), (448, 0x80), (449, 0x80), (450, 0x80),
      (451, 0x80), (452, 0x80), (453, 0xb9), (454, k), (456 + n, 0xa0), (489 + n, 0x88),
      (498 + n, 1), (499 + n, 0xa0), (532 + n, 0x80), (533 + n, 0x80), (534 + n, 0xa0),
      (567 + n, 0xa0)]
  UInt8.ofNat ((marks.lookup off).getD 0)

def zeroHeader (k : Nat) : Buffer where
  byte p := zeroHeaderByte k p.toNat
  start := 0
  len := BitVec.ofNat 64 (600 + 256 * k)

def zeroRecord (k : Nat) : HeaderRecord :=
  let n := BitVec.ofNat 64 (256 * k)
  { isCurrent := false, parentHash := 4, ommersHash := 37, coinbase := 70, stateRoot := 91,
    txRoot := 124, receiptRoot := 157, bloom := 192, difficulty := 0, number := 0, gasLimit := 0,
    gasUsed := 0, timestamp := 0, extra := 456, extraN := n, prevRandao := 457 + n,
    nonce := 490 + n, baseFee := 1, withdrawalsRoot := 500 + n, blobGasUsed := 0,
    excessBlobGas := 0, pbbr := 535 + n, requestsHash := 568 + n, balHash := 0, slot := 0 }

/-- The memory with the header at its start. -/
def zeroRam (k : Nat) : Ram where
  bytes q := zeroHeaderByte k q
  heapPtr := 2048

theorem zeroRam_holds {k : Nat} (hk : k ≤ 4) : (zeroRam k).Holds (zeroHeader k) where
  byte i hi := by
    have hlt : i < (BitVec.ofNat 64 (600 + 256 * k)).toNat := hi
    rw [BitVec.toNat_ofNat, Nat.mod_eq_of_lt (by omega)] at hlt
    change zeroHeaderByte k (0 + i) = zeroHeaderByte k ((0 : Word) + BitVec.ofNat 64 i).toNat
    rw [Nat.zero_add, zero_add (BitVec.ofNat 64 i), BitVec.toNat_ofNat,
      Nat.mod_eq_of_lt (by omega)]
  below := by
    change 0 + (BitVec.ofNat 64 (600 + 256 * k)).toNat ≤ 2048
    rw [BitVec.toNat_ofNat, Nat.mod_eq_of_lt (by omega)]
    omega
  heap := show 2048 ≤ Ram.heapEnd by decide

theorem run'_eq_some {ε σ α : Type} {f : EStateM ε σ α} {t : σ} {a : α} (h : f.run' t = some a) :
    ∃ t', f t = .ok a t' := by
  unfold EStateM.run' EStateM.run at h
  split at h
  · next v t' hrun =>
    cases h
    exact ⟨t', hrun⟩
  · cases h

set_option maxRecDepth 4000 in
theorem decode_zeroHeader_short :
    (@decodeHeader ⟨.outOfFuel⟩ (zeroHeader 1) 0 856).run' memInit = some (zeroRecord 1) := by
  decide +kernel

set_option maxRecDepth 4000 in
theorem decode_zeroHeader_long :
    (@decodeHeader ⟨.outOfFuel⟩ (zeroHeader 4) 0 1624).run' memInit = some (zeroRecord 4) := by
  decide +kernel

/-- A header with 256 bytes of extra data is encoded to the bytes it was decoded from. -/
theorem header_round_trip_zeros :
    (zeroRecord 1).Reencodes (zeroRam 1) ((zeroHeader 1).bytes 0 856) := by
  let _ : Stray := ⟨.outOfFuel⟩
  let _ : Keccak := ⟨fun _ => 0⟩
  obtain ⟨t', hrun⟩ := run'_eq_some decode_zeroHeader_short
  have hw : (zeroHeader 1).Within 0 856 := Buffer.within_self (zeroHeader 1)
  obtain ⟨hshort, hround⟩ := (header_round_trip memInit_sound).1 0 856 _ hw hrun
  exact hround (hshort (by decide)) (zeroRam 1) (zeroRam_holds (by decide))

theorem alloc_2048 (bytes : ByteMap) : alloc 1024 ⟨bytes, 2048⟩ = .ok 2048 ⟨bytes, 3072⟩ := by
  unfold alloc
  rw [bind_run_ok (get_run _)]
  dsimp only
  rw [if_neg (by decide), if_neg (by decide)]
  rfl

set_option maxRecDepth 4000 in
theorem length_payload_zeros :
    ((zeroRecord 4).payload (zeroRam 4).read).length = 1621 ∧
      ((zeroRecord 4).itemsBefore.map (HeaderItem.enc (zeroRam 4).read)).flatten.length = 1519 := by
  decide +kernel

/-- With 1024 bytes of extra data the base fee is left in the middle of them. -/
theorem header_overwritten :
    let _ : Stray := ⟨.outOfFuel⟩
    let b := zeroHeader 4
    (∃ t', decodeHeader b b.start b.len memInit = .ok (zeroRecord 4) t') ∧
      (zeroRam 4).Holds b ∧
        ∃ start s', encodeHeader (zeroRecord 4) (zeroRam 4) = .ok (start, 1624) s' ∧
          s'.bytes.load start 1624 ≠ b.bytes b.start b.len := by
  intro _ b
  obtain ⟨t', hrun⟩ := run'_eq_some decode_zeroHeader_long
  have hs : (zeroRam 4).Holds b := zeroRam_holds (Nat.le_refl 4)
  have hd : DecodedFrom b 0 1624 (zeroRecord 4) :=
    (reads_decoded memInit_sound (Buffer.within_self b) _ _ hrun).2
  have hencoding := hd.encoding_read hs
  have hlen : ((zeroRecord 4).encoding (zeroRam 4).read).length = 1624 := by
    rw [hencoding, Buffer.length_bytes]
    rfl
  obtain ⟨hpayload, hbefore⟩ := length_payload_zeros
  obtain ⟨s', henc, hbyte⟩ := encodeHeader_overwrites (s := zeroRam 4) (alloc_2048 _) (by decide)
    (by decide) (itemsBelow_of_holds hs hd.within)
    (by decide +kernel) (by rw [itemsPayload, hbefore]; decide) (by decide) (by rw [hpayload]; decide)
  rw [hpayload, hlen] at henc
  refine ⟨⟨t', hrun⟩, hs, _, s', henc, fun heq => ?_⟩
  have hat : (s'.bytes.load _ 1624)[1018]? = (b.bytes b.start b.len)[1018]? :=
    congrArg (fun bs : Bytes => bs[1018]?) heq
  rw [ByteMap.getElem?_load (by decide),
    List.getElem?_eq_getElem (by rw [Buffer.length_bytes]; decide), Buffer.getElem_bytes] at hat
  have heq' := hat.symm.trans hbyte
  exact absurd heq' (by decide)

end StatelessGuest
