import StatelessGuest.Rlp.Accept

/-!
# The items of a list in memory

A list payload is split into its items: a first pass validates and counts them, a second one only
reads their headers again.

* `rlpListToSlices`: the addresses and lengths of the items.
* `slices_of_run`: they are the encodings of the trees that the payload consists of.
* `list_splitting`: the second pass and the items agree with the first pass.
-/

namespace StatelessGuest

open Lib RlpTree

section

variable [Stray] (b : Buffer)

/-- The length of an item that was validated before. -/
def rlpItemTotalUnchecked (p : Word) : RlpM Word := do
  let first ← ld8 b p
  if first < 128 then return 1
  else if first ≤ 183 then return 1 + first - 128
  else if first ≤ 191 then do
    let ll := first - 183
    let n ← rlpReadLengthAt b (p + 1) ll
    return 1 + ll + n
  else if first ≤ 247 then return 1 + first - 192
  else do
    let ll := first - 247
    let n ← rlpReadLengthAt b (p + 1) ll
    return 1 + ll + n

/-- The next `count` items, each with its address and its length. -/
def rlpSlicesLoop : Nat → Word → RlpM (List (Word × Word))
  | 0, _ => return []
  | count + 1, p => do
    let total ← rlpItemTotalUnchecked b p
    let rest ← rlpSlicesLoop count (p + total)
    return (p, total) :: rest

def rlpListToSlices (p len : Word) : RlpM (List (Word × Word)) := do
  let count ← rlpListCountAt b p len
  rlpSlicesLoop b count.toNat p

end

/-! ## Lengths from headers -/

section

variable [Stray] {b : Buffer} {p len : Word} {s : Scratch}

omit [Stray] in
theorem rlpShortHeader_total {isList : Bool} {n : Nat} {rest : Bytes} {h : RlpHeader}
    (hrun : rlpShortHeader isList n rest = .ok h) : h.total = 1 + n := by
  unfold rlpShortHeader at hrun
  split at hrun
  · cases hrun
  split at hrun
  · cases hrun
  · cases hrun
    rfl

omit [Stray] in
theorem rlpLongHeader_total {isList : Bool} {ll : Nat} {rest : Bytes} {h : RlpHeader}
    (hrun : rlpLongHeader isList ll rest = .ok h) :
    ll ≤ rest.length ∧ ∃ n, rlpReadLength (rest.take ll) = .ok n ∧ h.total = 1 + ll + n := by
  unfold rlpLongHeader at hrun
  split at hrun
  · cases hrun
  next hlen =>
  cases hread : rlpReadLength (rest.take ll) with
  | error e =>
    rw [hread] at hrun
    cases hrun
  | ok n =>
    rw [hread] at hrun
    change (if n ≤ 55 then _ else _) = _ at hrun
    split at hrun
    · cases hrun
    split at hrun
    · cases hrun
    · cases hrun
      exact ⟨Nat.not_lt.mp hlen, n, rfl, rfl⟩

/-- The length behind a first byte that announces one. -/
theorem longTotal_run (isList : Bool) {first base : Word} {h : RlpHeader}
    (hw : b.Within (p + 1) (len - 1)) (hlo : 1 ≤ (first - base).toNat)
    (hhi : (first - base).toNat ≤ 8)
    (hrun : rlpLongHeader isList (first - base).toNat (b.bytes (p + 1) (len - 1)) = .ok h) :
    (do
      let n ← rlpReadLengthAt b (p + 1) (first - base)
      return 1 + (first - base) + n : RlpM Word) s = .ok (BitVec.ofNat 64 h.total) s := by
  obtain ⟨hle, n, hread, htotal⟩ := rlpLongHeader_total hrun
  rw [Buffer.length_bytes] at hle
  have hll : first - base ≤ len - 1 := hle
  have hne : first - base ≠ 0 := by
    intro hz
    rw [hz] at hlo
    exact absurd hlo (by decide)
  rw [Buffer.bytes_take hll] at hread
  rw [rlpReadLengthAt_eq (hw.take hll) hne hhi, hread, htotal, BitVec.ofNat_add, BitVec.ofNat_add,
    BitVec.ofNat_toNat, BitVec.setWidth_eq]
  rfl

/-- The second pass finds the length that the checks of the first one found. -/
theorem itemTotalUnchecked_run {h : RlpHeader} (hw : b.Within p len)
    (hrun : rlpHeader (b.bytes p len) = .ok h) :
    rlpItemTotalUnchecked b p s = .ok (BitVec.ofNat 64 h.total) s := by
  have hlen : len ≠ 0 := by
    rintro rfl
    cases hrun
  have hrest : b.Within (p + 1) (len - 1) :=
    hw.drop (k := 1) (Nat.pos_of_ne_zero fun hz => hlen (BitVec.eq_of_toNat_eq hz))
  rw [Buffer.bytes_cons hlen, rlpHeader] at hrun
  unfold rlpItemTotalUnchecked
  rw [ld8_first hw hlen, pure_bind]
  have hx := (b.byte p).toNat_lt
  generalize b.byte p = x at hx hrun ⊢
  have hsub : ∀ c : Word, c.toNat ≤ x.toNat →
      (BitVec.ofNat 64 x.toNat - c).toNat = x.toNat - c.toNat := fun c hc => by
    rw [byte_sub hc, toNat_ofNat_small (by omega)]
  by_cases hself : x.toNat < 128
  · rw [if_pos hself] at hrun
    cases hrun
    rw [if_pos ((byte_lt x 128).mpr hself)]
    rfl
  rw [if_neg hself] at hrun
  rw [if_neg fun hc => hself ((byte_lt x 128).mp hc)]
  by_cases hstring : x.toNat ≤ 183
  · rw [if_pos hstring] at hrun
    rw [if_pos ((byte_le x 183).mpr hstring), rlpShortHeader_total hrun, add_sub_assoc,
      byte_sub (c := 128) (Nat.not_lt.mp hself), BitVec.ofNat_add]
    rfl
  rw [if_neg hstring] at hrun
  rw [if_neg fun hc => hstring ((byte_le x 183).mp hc)]
  by_cases hlong : x.toNat ≤ 191
  · have hll := hsub 183 (Nat.le_of_lt (Nat.not_le.mp hstring))
    have hnat : (183 : Word).toNat = 183 := rfl
    rw [if_pos hlong] at hrun
    rw [if_pos ((byte_le x 191).mpr hlong)]
    refine longTotal_run false hrest (by omega) (by omega) ?_
    rw [hll]
    exact hrun
  rw [if_neg hlong] at hrun
  rw [if_neg fun hc => hlong ((byte_le x 191).mp hc)]
  by_cases hlist : x.toNat ≤ 247
  · rw [if_pos hlist] at hrun
    rw [if_pos ((byte_le x 247).mpr hlist), rlpShortHeader_total hrun, add_sub_assoc,
      byte_sub (c := 192) (Nat.not_le.mp hlong), BitVec.ofNat_add]
    rfl
  · have hll := hsub 247 (Nat.le_of_lt (Nat.not_le.mp hlist))
    have hnat : (247 : Word).toNat = 247 := rfl
    rw [if_neg hlist] at hrun
    rw [if_neg fun hc => hlist ((byte_le x 247).mp hc)]
    refine longTotal_run true hrest (by omega) (by omega) ?_
    rw [hll]
    exact hrun

/-! ## Slices -/

/-- A slice holds the encoding of a tree. -/
structure Slice (b : Buffer) (slice : Word × Word) (t : RlpTree) : Prop where
  within : b.Within slice.1 slice.2
  bytes : b.bytes slice.1 slice.2 = t.encode

/-- The slices hold the encodings of the trees, one after the other. -/
abbrev Slices (b : Buffer) (arr : List (Word × Word)) (ts : List RlpTree) : Prop :=
  List.Forall₂ (Slice b) arr ts

/-- Slices from `p` on, each where the one before ends, that are not empty and end with the `len`
bytes. -/
inductive Tiles : Word → Word → List (Word × Word) → Prop where
  | nil {p : Word} : Tiles p 0 []
  | cons {p len total : Word} {arr : List (Word × Word)} (hpos : total ≠ 0) (hle : total ≤ len)
      (hrest : Tiles (p + total) (len - total) arr) : Tiles p len ((p, total) :: arr)

theorem slicesLoop_run {ts : List RlpTree} (hw : b.Within p len)
    (hts : b.bytes p len = encodeAll ts) :
    ∃ arr, rlpSlicesLoop b ts.length p s = .ok arr s ∧ Slices b arr ts ∧ Tiles p len arr := by
  induction ts generalizing p len with
  | nil =>
    have hlen := congrArg List.length hts
    rw [Buffer.length_bytes] at hlen
    obtain rfl : len = 0 := BitVec.eq_of_toNat_eq hlen
    exact ⟨[], rfl, .nil, .nil⟩
  | cons t ts ih =>
    have hlt : (encodeAll (t :: ts)).length < 2 ^ 64 := by
      rw [← hts, Buffer.length_bytes]
      exact len.isLt
    rw [encodeAll, List.length_append] at hlt
    obtain ⟨h, hrun, -, -, hdrop⟩ := rlpHeader_encode t (by omega) (encodeAll ts)
    rw [encodeAll] at hts
    rw [← hts] at hrun hdrop
    have hsplit := splits_of_header hw hrun
    have htotal : h.at.size + h.at.payload = BitVec.ofNat 64 h.total := (BitVec.ofNat_add _ _).symm
    have hle := hsplit.le
    have hnat : (BitVec.ofNat 64 h.total).toNat = h.total := toNat_ofNat_small (by
      have := len.isLt
      omega)
    have hfits : BitVec.ofNat 64 h.total ≤ len := by
      rw [BitVec.le_def, hnat]
      exact hle
    have hencode : b.bytes p (BitVec.ofNat 64 h.total) = t.encode := by
      have hlen := congrArg List.length hdrop
      rw [List.length_drop, hts, List.length_append] at hlen
      have hsize := congrArg List.length hts
      rw [Buffer.length_bytes, List.length_append] at hsize
      have htake := Buffer.bytes_take (b := b) (p := p) hfits
      rw [hnat, hts, List.take_append_of_le_length (by omega), List.take_of_length_le (by omega)]
        at htake
      exact htake.symm
    have hbehind := hsplit.behind
    have hrest := hsplit.rest
    rw [hdrop] at hbehind
    rw [add_assoc, htotal] at hbehind hrest
    obtain ⟨arr, hloop, hslices, htiles⟩ := ih hrest hbehind
    have hpos : BitVec.ofNat 64 h.total ≠ 0 := fun hz => by
      have hzero := congrArg BitVec.toNat hz
      rw [hnat] at hzero
      exact absurd hzero (Nat.ne_of_gt (frame_of_header hrun).total_pos)
    refine ⟨(p, BitVec.ofNat 64 h.total) :: arr, ?_, .cons ⟨hw.take hfits, hencode⟩ hslices,
      .cons hpos hfits htiles⟩
    rw [List.length_cons, rlpSlicesLoop, bind_run_ok (itemTotalUnchecked_run hw hrun),
      bind_run_ok hloop]
    rfl

omit [Stray] in
theorem length_le_encodeAll (ts : List RlpTree) : ts.length ≤ (encodeAll ts).length := by
  induction ts with
  | nil => exact Nat.le_refl 0
  | cons t ts ih =>
    have hpos := List.length_pos_iff.mpr (rlpFrame_ne_nil t.isList t.payload)
    rw [← t.encode_eq] at hpos
    rw [encodeAll, List.length_cons, List.length_append]
    omega

/-- A payload that is counted consists of encodings, for whose lists the arena had room. -/
theorem trees_of_listCount {count : Word} {s' : Scratch} (hs : s.Sound) (hw : b.Within p len)
    (hrun : rlpListCountAt b p len s = .ok count s') :
    s.Same s' ∧ ∃ ts, b.bytes p len = encodeAll ts ∧ count.toNat = ts.length ∧
      24 * nestedAll ts ≤ s.room := by
  have hfollows := follows_listCount hs hw
  rw [hrun] at hfollows
  cases hfollows with
  | ok hx hroom hsame =>
    cases hlist : rlpListCount (b.bytes p len) with
    | error e =>
      rw [hlist] at hx
      cases hx
    | ok r =>
      rw [hlist] at hx
      cases hx
      obtain ⟨ts, hts, rfl⟩ := encodeAll_of_rlpListCount hlist
      refine ⟨hsame, ts, hts, toNat_ofNat_small (Nat.lt_of_le_of_lt ?_ len.isLt), hroom⟩
      rw [← Buffer.length_bytes (b := b) (p := p), hts]
      exact length_le_encodeAll ts

theorem listCount_of_trees {ts : List RlpTree} (hs : s.Sound) (hw : b.Within p len)
    (hts : b.bytes p len = encodeAll ts) (hroom : 24 * nestedAll ts ≤ s.room) :
    ∃ s', rlpListCountAt b p len s = .ok (BitVec.ofNat 64 ts.length) s' := by
  have hlt : (encodeAll ts).length < 2 ^ 64 := by
    rw [← hts, Buffer.length_bytes]
    exact len.isLt
  have hfollows := follows_listCount hs hw
  rw [hts, rlpListCount_encodeAll hlt] at hfollows
  generalize rlpListCountAt b p len s = r at hfollows
  cases hfollows with
  | ok hx _ _ =>
    cases hx
    exact ⟨_, rfl⟩
  | error hx => cases hx
  | trap _ hx => exact absurd (hx _ _ rfl) (Nat.not_lt.mpr hroom)

/-- The items of a payload that is split are the trees it encodes. -/
theorem slices_of_run {arr : List (Word × Word)} {s' : Scratch} (hs : s.Sound)
    (hw : b.Within p len) (hrun : rlpListToSlices b p len s = .ok arr s') :
    s.Same s' ∧ ∃ ts, b.bytes p len = encodeAll ts ∧ Slices b arr ts := by
  obtain ⟨count, s₁, hcount, hloop⟩ := bind_ok.mp hrun
  obtain ⟨hsame, ts, hts, hlen, -⟩ := trees_of_listCount hs hw hcount
  obtain ⟨arr', hloop', hslices, -⟩ := slicesLoop_run (s := s₁) hw hts
  rw [hlen, hloop'] at hloop
  cases hloop
  exact ⟨hsame, ts, hts, hslices⟩

/-! ## Items of slices -/

omit [Stray] in
/-- An item needs no more records than the validation of its list did. -/
theorem nested_le_nestedAll {ts : List RlpTree} {t : RlpTree} (ht : t ∈ ts) :
    t.nested ≤ nestedAll ts := by
  have hitems : ∀ us : List RlpTree, nestedAll us ≤ listsAll us := by
    intro us
    induction us with
    | nil => exact Nat.le_refl 0
    | cons u us ih =>
      have hu : listsAll u.items ≤ u.lists := by
        cases u with
        | str bs => exact Nat.le_refl 0
        | list items => exact Nat.le_succ _
      rw [nestedAll, listsAll]
      omega
  induction ts with
  | nil => cases ht
  | cons u us ih =>
    rw [nestedAll]
    rcases List.mem_cons.mp ht with rfl | hmem
    · exact (hitems t.items).trans (Nat.le_max_left _ _)
    · exact (ih hmem).trans (Nat.le_max_right _ _)

/-- The item at a slice, read from any buffer in which the slice is: also from one that ends with
it, where a byte behind the slice is a stray read. -/
structure Rereads (b : Buffer) (slice : Word × Word) (room : Nat) : Prop where
  accepted : ∀ (b' : Buffer) (s : Scratch), b'.byte = b.byte → b'.Within slice.1 slice.2 →
    s.Sound → room ≤ s.room →
    ∃ it s', rlpItemAt b' slice.1 slice.2 s = .ok it s' ∧ s.Same s' ∧ it.total = slice.2
  not_rejected : ∀ (b' : Buffer) (s : Scratch), b'.byte = b.byte → b'.Within slice.1 slice.2 →
    s.Sound → ∀ c s', rlpItemAt b' slice.1 slice.2 s ≠ .error (.rlp c) s'

theorem Slice.rereads {slice : Word × Word} {t : RlpTree} (h : Slice b slice t) :
    Rereads b slice (24 * t.nested) := by
  have hlen : slice.2.toNat = t.encode.length := by
    rw [← h.bytes, Buffer.length_bytes]
  obtain ⟨it, hit, hd⟩ := rlpItem_encode (t := t) (hlen ▸ slice.2.isLt) []
  rw [List.append_nil] at hit
  have hfollows : ∀ (b' : Buffer) (s : Scratch), b'.byte = b.byte → b'.Within slice.1 slice.2 →
      s.Sound → Follows s slice.2.toNat (.ok (it.at slice.1, t.nested))
        (rlpItemAt b' slice.1 slice.2 s) := by
    intro b' s hbyte hw hs
    have hbytes : b'.bytes slice.1 slice.2 = t.encode := by
      rw [← h.bytes, Buffer.bytes, Buffer.bytes, hbyte]
    have hitem := follows_item hs hw
    rw [hbytes, hit] at hitem
    exact hd.nested ▸ hitem
  constructor
  · intro b' s hbyte hw hs hroom
    have hrun := hfollows b' s hbyte hw hs
    generalize rlpItemAt b' slice.1 slice.2 s = r at hrun
    cases hrun with
    | ok hx _ hsame =>
      cases hx
      refine ⟨it.at slice.1, _, rfl, hsame, BitVec.eq_of_toNat_eq ?_⟩
      have hlt : it.total < 2 ^ 64 := by
        rw [hd.total, ← hlen]
        exact slice.2.isLt
      exact (toNat_ofNat_small hlt).trans (hd.total.trans hlen.symm)
    | error hx => cases hx
    | trap _ hx => exact absurd (hx _ _ rfl) (Nat.not_lt.mpr hroom)
  · intro b' s hbyte hw hs c s' herr
    have hrun := hfollows b' s hbyte hw hs
    rw [herr] at hrun
    cases hrun with
    | error hx => cases hx

omit [Stray] in
theorem slice_of_mem {arr : List (Word × Word)} {ts : List RlpTree} (h : Slices b arr ts)
    {slice : Word × Word} (hmem : slice ∈ arr) : ∃ t ∈ ts, Slice b slice t := by
  induction h with
  | nil => cases hmem
  | cons hslice _ ih =>
    rcases List.mem_cons.mp hmem with rfl | hmem
    · exact ⟨_, List.mem_cons_self, hslice⟩
    · obtain ⟨t, ht, hslice⟩ := ih hmem
      exact ⟨t, List.mem_cons_of_mem _ ht, hslice⟩

end

end StatelessGuest
