import StatelessGuest.Header.Record
import StatelessGuest.Rlp.RoundTrip

/-!
# The header encoder

The fields are written one after another behind room for the list header, which goes in front of
them at the end. An integer passes through the end of the heap, right behind the buffer.

* `encodeHeader`, `headerHash`.
* `putItems_run`: the fields leave their encodings, one after another.
* `encodeHeader_cases`: the encoder leaves the encoding of the header, as far as the base fee lies
  in the buffer, unless the heap is full.
-/

namespace StatelessGuest

open Lib Ram

/-! ## The encoder -/

def HeaderItem.put (p : Nat) : HeaderItem → RamM Nat
  | .bytes src n => rlpEncodeBytesAt p src.toNat n.toNat
  | .word w => rlpEncodeWordAt p w
  | .u256 v => rlpPutU256At p v

/-- Every field is written behind the one before it; the address behind the last is returned. -/
def putItems : List HeaderItem → Nat → RamM Nat
  | [], p => return p
  | item :: items, p => do
    let w ← item.put p
    putItems items (p + w)

/-- The address and the length of the encoding. -/
def encodeHeader (h : HeaderRecord) : RamM (Nat × Nat) := do
  let buf ← alloc 1024
  let p ← putItems h.items (buf + 9)
  let payloadLen := p - (buf + 9)
  let hl := (rlpListHeaderLen (BitVec.ofNat 64 payloadLen)).toNat
  let start := buf + 9 - hl
  let _ ← rlpEncodeListHeaderAt start payloadLen
  return (start, payloadLen + hl)

/-- The hash of the `n` bytes at `p` goes to `out`. -/
def keccakAt [Keccak] (p n out : Nat) : RamM Unit :=
  modify fun s => s.put out (hashBytes (keccak256 (s.bytes.load p n)))

def headerHash [Keccak] (h : HeaderRecord) (out : Nat) : RamM Unit := do
  let mark ← heapMark
  let e ← encodeHeader h
  keccakAt e.1 e.2 out
  heapRelease mark

theorem keccakAt_run [Keccak] (s : Ram) (p n out : Nat) :
    keccakAt p n out s = .ok () (s.put out (hashBytes (keccak256 (s.bytes.load p n)))) := rfl

theorem length_hashBytes (hash : Hash) : (hashBytes hash).length = 32 := length_beBytes 32 _

/-! ## Fields -/

/-- A string lies below `lo`; one without bytes lies anywhere. -/
def HeaderItem.Below (lo : Nat) : HeaderItem → Prop
  | .bytes src n => n = 0 ∨ src.toNat + n.toNat ≤ lo
  | _ => True

instance HeaderItem.decidableBelow (lo : Nat) : (item : HeaderItem) → Decidable (item.Below lo)
  | .bytes src n => inferInstanceAs (Decidable (n = 0 ∨ src.toNat + n.toNat ≤ lo))
  | .word _ => inferInstanceAs (Decidable True)
  | .u256 _ => inferInstanceAs (Decidable True)

theorem HeaderItem.Below.mono {lo lo' : Nat} {item : HeaderItem} (h : item.Below lo)
    (hle : lo ≤ lo') : item.Below lo' := by
  cases item with
  | bytes src n => exact h.imp_right fun h => Nat.le_trans h hle
  | _ => trivial

/-- The bytes at an address. -/
def Ram.read (s : Ram) (p n : Word) : Bytes := s.bytes.load p.toNat n.toNat

/-- The fields one after the other. -/
def itemsPayload (read : Word → Word → Bytes) (items : List HeaderItem) : Bytes :=
  (items.map (HeaderItem.enc read)).flatten

theorem itemsPayload_cons (read : Word → Word → Bytes) (item : HeaderItem)
    (items : List HeaderItem) :
    itemsPayload read (item :: items) = item.enc read ++ itemsPayload read items := rfl

theorem itemsPayload_append (read : Word → Word → Bytes) (items items' : List HeaderItem) :
    itemsPayload read (items ++ items') = itemsPayload read items ++ itemsPayload read items' := by
  unfold itemsPayload
  rw [List.map_append, List.flatten_append]

variable {s s' : Ram} {p lo : Nat} {item : HeaderItem} {items : List HeaderItem}

theorem enc_congr (hsame : ByteMap.SameBelow lo s.bytes s'.bytes) (hitem : item.Below lo) :
    item.enc s'.read = item.enc s.read := by
  cases item with
  | bytes src n =>
    rcases hitem with rfl | hitem
    · rfl
    · exact congrArg rlpEncodeBytes (hsame.load hitem)
  | word w => rfl
  | u256 v => rfl

theorem itemsPayload_congr (hsame : ByteMap.SameBelow lo s.bytes s'.bytes)
    (hitems : ∀ item ∈ items, item.Below lo) :
    itemsPayload s'.read items = itemsPayload s.read items := by
  unfold itemsPayload
  rw [List.map_congr_left fun item hmem => enc_congr hsame (hitems item hmem)]

/-- A writer leaves an encoding at `p` and returns its length, or the heap is full. -/
def Writes (x : RamM Nat) (s : Ram) (p : Nat) (enc : Bytes) : Prop :=
  (∃ s', x s = .ok enc.length s' ∧ s.Leaves p enc s') ∨
    Ram.heapEnd < s.heapPtr + 39 ∧ ∃ s', x s = .error (.trap 1) s'

theorem Puts.writes {x : RamM Nat} {enc : Bytes} (h : Puts x s p enc) : Writes x s p enc :=
  .inl ⟨_, h, leaves_put s p enc⟩

/-- An integer is written in front of the end of the heap, which it passes through. -/
theorem writes_putU256 (s : Ram) (v : U256) (hp : p + (rlpPutU256 v).length ≤ s.heapPtr) :
    Writes (rlpPutU256At p v) s p (rlpPutU256 v) := by
  have hheader := length_header_le_rlpPutU256 v
  rcases @putU256_run p s v (by omega) with hrun | ⟨hfull, hrun⟩
  · exact .inl ⟨_, hrun, rfl, ByteMap.load_store_self _ _ _,
      (ByteMap.sameBelow_store (by omega)).trans (ByteMap.sameBelow_store (Nat.le_refl p))⟩
  · exact .inr ⟨hfull, s, hrun⟩

/-- An integer fits in front of the end of the heap. -/
def HeaderItem.Fits (s : Ram) (p : Nat) : HeaderItem → Prop
  | .u256 v => p + (rlpPutU256 v).length ≤ s.heapPtr
  | _ => True

theorem writes_item (hbelow : item.Below p) (hfits : item.Fits s p) :
    Writes (item.put p) s p (item.enc s.read) := by
  cases item with
  | bytes src n =>
    rcases hbelow with rfl | hbelow
    · exact (puts_encodeBytes_nil s p src.toNat).writes
    · exact (puts_encodeBytes (.inr hbelow)).writes
  | word w => exact (puts_encodeWord s p w).writes
  | u256 v => exact writes_putU256 s v hfits

instance HeaderItem.decidableFits (s : Ram) (p : Nat) : (item : HeaderItem) →
    Decidable (item.Fits s p)
  | .bytes _ _ => inferInstanceAs (Decidable True)
  | .word _ => inferInstanceAs (Decidable True)
  | .u256 v => inferInstanceAs (Decidable (p + (rlpPutU256 v).length ≤ s.heapPtr))

/-- Every integer of the fields from `p` on fits. -/
def ItemsFit (s : Ram) : Nat → List HeaderItem → Prop
  | _, [] => True
  | p, item :: items => item.Fits s p ∧ ItemsFit s (p + (item.enc s.read).length) items

instance decidableItemsFit (s : Ram) : (p : Nat) → (items : List HeaderItem) →
    Decidable (ItemsFit s p items)
  | _, [] => inferInstanceAs (Decidable True)
  | p, item :: items =>
    have _ := decidableItemsFit s (p + (item.enc s.read).length) items
    inferInstanceAs (Decidable (item.Fits s p ∧ ItemsFit s _ items))

theorem fits_congr (hheap : s'.heapPtr = s.heapPtr) (h : item.Fits s p) : item.Fits s' p := by
  cases item with
  | u256 v => exact Nat.le_trans h (Nat.le_of_eq hheap.symm)
  | _ => trivial

theorem itemsFit_congr (hheap : s'.heapPtr = s.heapPtr)
    (hsame : ByteMap.SameBelow lo s.bytes s'.bytes) (hitems : ∀ item ∈ items, item.Below lo)
    (h : ItemsFit s p items) : ItemsFit s' p items := by
  induction items generalizing p with
  | nil => trivial
  | cons item items ih =>
    refine ⟨fits_congr hheap h.1, ?_⟩
    rw [enc_congr hsame (hitems item List.mem_cons_self)]
    exact ih (fun item hmem => hitems item (List.mem_cons_of_mem _ hmem)) h.2

/-- The fields leave their encodings, one after another. -/
theorem putItems_run (hitems : ∀ item ∈ items, item.Below lo) (hlo : lo ≤ p)
    (hfit : ItemsFit s p items) :
    (∃ s', putItems items p s = .ok (p + (itemsPayload s.read items).length) s' ∧
      s.Leaves p (itemsPayload s.read items) s') ∨
      Ram.heapEnd < s.heapPtr + 39 ∧ ∃ s', putItems items p s = .error (.trap 1) s' := by
  induction items generalizing p s with
  | nil => exact .inl ⟨s, rfl, leaves_nil s p⟩
  | cons item items ih =>
    have hrest : ∀ item ∈ items, item.Below lo := fun item hmem =>
      hitems item (List.mem_cons_of_mem _ hmem)
    have hitem : item.Below p := (hitems item List.mem_cons_self).mono hlo
    rcases writes_item hitem hfit.1 with ⟨s₁, hrun, hleaves⟩ | ⟨hfull, s₁, hrun⟩
    · have hsame : ByteMap.SameBelow lo s.bytes s₁.bytes := hleaves.below.mono hlo
      have hpayload := itemsPayload_congr hsame hrest
      have hfit₁ := itemsFit_congr hleaves.heapPtr hsame hrest hfit.2
      rcases ih hrest (by omega) hfit₁ with ⟨s₂, hrun', hleaves'⟩ | ⟨hfull, s₂, hrun'⟩
      · rw [hpayload] at hrun' hleaves'
        refine .inl ⟨s₂, ?_, hleaves.append hleaves'⟩
        rw [putItems, bind_run_ok hrun, hrun', itemsPayload_cons, List.length_append, Nat.add_assoc]
      · rw [hleaves.heapPtr] at hfull
        exact .inr ⟨hfull, s₂, by rw [putItems, bind_run_ok hrun, hrun']⟩
    · exact .inr ⟨hfull, s₁, bind_run_error hrun⟩

/-! ## Headers -/

theorem itemsFit_append {items' : List HeaderItem} (h : ItemsFit s p items)
    (h' : ItemsFit s (p + (itemsPayload s.read items).length) items') :
    ItemsFit s p (items ++ items') := by
  induction items generalizing p with
  | nil => exact h'
  | cons item items ih =>
    refine ⟨h.1, ih h.2 ?_⟩
    rwa [itemsPayload_cons, List.length_append, ← Nat.add_assoc] at h'

/-- All of the fields end in front of the end of the heap. -/
theorem itemsFit_of_le (h : p + (itemsPayload s.read items).length ≤ s.heapPtr) :
    ItemsFit s p items := by
  induction items generalizing p with
  | nil => trivial
  | cons item items ih =>
    rw [itemsPayload_cons, List.length_append] at h
    refine ⟨?_, ih (by omega)⟩
    cases item with
    | u256 v => exact Nat.le_trans (Nat.le_add_right _ _) (Nat.le_trans (Nat.le_of_eq
        (Nat.add_assoc _ _ _)) h)
    | _ => trivial

/-- None of the fields is an integer of more than a word. -/
theorem itemsFit_of_short (h : ∀ item ∈ items, ∀ v, item ≠ .u256 v) : ItemsFit s p items := by
  induction items generalizing p with
  | nil => trivial
  | cons item items ih =>
    refine ⟨?_, ih fun item hmem => h item (List.mem_cons_of_mem _ hmem)⟩
    cases item with
    | u256 v => exact absurd rfl (h _ List.mem_cons_self v)
    | _ => trivial

namespace HeaderRecord

variable (h : HeaderRecord)

/-- The base fee is encoded in the buffer of the encoder, not behind it. -/
def FitsBuffer (read : Word → Word → Bytes) : Prop :=
  (itemsPayload read (h.itemsBefore ++ [.u256 h.baseFee])).length ≤ 1015

instance (read : Word → Word → Bytes) : Decidable (h.FitsBuffer read) :=
  inferInstanceAs (Decidable (_ ≤ _))

theorem items_eq : h.items = (h.itemsBefore ++ [.u256 h.baseFee]) ++ h.itemsAfter := by
  rw [List.append_assoc]
  rfl

theorem itemsAfter_short : ∀ item ∈ h.itemsAfter, ∀ v, item ≠ .u256 v := by
  intro item hmem v
  rintro rfl
  unfold itemsAfter at hmem
  cases h.isCurrent <;> simp at hmem

end HeaderRecord

theorem length_rlpEncodeListHeader_le {n : Nat} (h : n < 2 ^ 64) :
    (rlpEncodeListHeader n).length ≤ 9 := by
  have hle : rlpBeLen n ≤ 8 := rlpBeLen_le h
  unfold rlpEncodeListHeader
  rw [length_rlpWriteHeader]
  split <;> omega

/-- The header of a list in front of its payload. -/
theorem load_listHeader_in_front {payload : Bytes} (h : s.bytes.load p payload.length = payload)
    (hp : (rlpEncodeListHeader payload.length).length ≤ p) :
    (s.put (p - (rlpEncodeListHeader payload.length).length)
      (rlpEncodeListHeader payload.length)).bytes.load
        (p - (rlpEncodeListHeader payload.length).length) (rlpEncodeList payload).length =
      rlpEncodeList payload := by
  rw [rlpEncodeList, List.length_append, ByteMap.load_add, put_bytes, ByteMap.load_store_self,
    ByteMap.load_store_of_disjoint (by omega), Nat.sub_add_cancel hp, h]

/-- The encoder leaves the encoding of the header, unless the heap is full. -/
theorem encodeHeader_cases {h : HeaderRecord} (hbelow : ∀ item ∈ h.items, item.Below s.heapPtr)
    (hfits : h.FitsBuffer s.read) (hlt : (h.payload s.read).length < 2 ^ 64) :
    (∃ start s', encodeHeader h s = .ok (start, (h.encoding s.read).length) s' ∧
      s'.bytes.load start (h.encoding s.read).length = h.encoding s.read ∧
        ∀ q < s.heapPtr, s'.bytes q = s.bytes q) ∨
      Ram.heapEnd < s.heapPtr + 1070 ∧ ∃ s', encodeHeader h s = .error (.trap 1) s' := by
  unfold encodeHeader
  rcases alloc_cases 1024 s with ⟨q, hq, hq', -, halloc⟩ | ⟨hfull, halloc⟩
  · rw [bind_run_ok halloc]
    generalize hbuf : s.heapPtr = buf at hbelow hq hq' ⊢
    have hfit : ItemsFit { s with heapPtr := q } (buf + 9) h.items := by
      rw [h.items_eq]
      refine itemsFit_append (itemsFit_of_le ?_) (itemsFit_of_short h.itemsAfter_short)
      have hle : (itemsPayload s.read (h.itemsBefore ++ [.u256 h.baseFee])).length ≤ 1015 := hfits
      change buf + 9 + (itemsPayload s.read _).length ≤ q
      omega
    have hpayload : itemsPayload (Ram.mk s.bytes q).read h.items = h.payload s.read := rfl
    have hput := putItems_run hbelow (Nat.le_add_right buf 9) hfit
    rw [hpayload] at hput
    rcases hput with ⟨s₁, hrun, hleaves⟩ | ⟨hfull, s₁, hrun⟩
    · have hcontent := hleaves.content
      have hlen : (h.encoding s.read).length = (h.payload s.read).length +
          (rlpEncodeListHeader (h.payload s.read).length).length := by
        rw [HeaderRecord.encoding, rlpEncodeList, List.length_append, Nat.add_comm]
      have hle := length_rlpEncodeListHeader_le hlt
      have hhead : (rlpListHeaderLen (BitVec.ofNat 64 (h.payload s.read).length)).toNat =
          (rlpEncodeListHeader (h.payload s.read).length).length := by
        rw [toNat_rlpListHeaderLen, BitVec.toNat_ofNat, Nat.mod_eq_of_lt hlt]
      refine .inl ⟨_, s₁.put _ (rlpEncodeListHeader (h.payload s.read).length), ?_,
        load_listHeader_in_front hcontent (by omega), ?_⟩
      · rw [bind_run_ok hrun, Nat.add_sub_cancel_left, hhead, bind_run_ok (puts_listHeader s₁ _ _),
          hlen]
        rfl
      · intro x hx
        rw [put_bytes, ByteMap.store_below (by omega), hleaves.below x (by omega)]
    · refine .inr ⟨?_, s₁, by rw [bind_run_error hrun]⟩
      change Ram.heapEnd < q + 39 at hfull
      omega
  · exact .inr ⟨by omega, s, by rw [bind_run_error halloc]⟩

end StatelessGuest
