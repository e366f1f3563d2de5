import StatelessGuest.Rlp.Encode

/-!
# RLP decoding

The canonical encodings of trees of byte strings, and the decoder over byte strings: a header
first, then the items of a list, each inside of the payload.

* `RlpTree.encode`: the canonical encoding of a tree.
* `rlpHeader`: what the first bytes of an item say; `rlpHeader_frame`, `frame_of_header` compare it
  to the canonical headers.
* `rlpItems`: items that tile a payload, with the number of lists among and inside of them.
* `rlpItems_eq_ok`, `rlpItem_eq_ok`: what is accepted.
-/

namespace StatelessGuest

/-! ## Headers -/

/-- What a header says: its length, the length of the payload and whether that is a list's. A byte
below 128 has no header and is its own payload. -/
structure RlpHeader where
  size : Nat
  payload : Nat
  isList : Bool
  deriving DecidableEq

def RlpHeader.total (h : RlpHeader) : Nat := h.size + h.payload

/-- The payload of the item that `bs` starts with. -/
def RlpHeader.payloadOf (h : RlpHeader) (bs : Bytes) : Bytes := (bs.drop h.size).take h.payload

/-- A length of more than one byte has no leading zero. -/
def rlpReadLength (bs : Bytes) : Except Exn Nat :=
  if 1 < bs.length ∧ bs.head? = some 0 then .error (.rlp 2) else .ok (beNat bs)

/-- The header of at most 55 bytes; a single byte below 128 has none. -/
def rlpShortHeader (isList : Bool) (n : Nat) (rest : Bytes) : Except Exn RlpHeader :=
  if rest.length < n then .error (.rlp 3)
  else if isList = false ∧ n = 1 ∧ (rest.headD 0).toNat < 128 then .error (.rlp 4)
  else .ok ⟨1, n, isList⟩

/-- The header of more than 55 bytes, whose length takes `ll`. -/
def rlpLongHeader (isList : Bool) (ll : Nat) (rest : Bytes) : Except Exn RlpHeader :=
  if rest.length < ll then .error (.rlp 3)
  else do
    let n ← rlpReadLength (rest.take ll)
    if n ≤ 55 then .error (.rlp 5)
    else if rest.length - ll < n then .error (.rlp 3)
    else .ok ⟨1 + ll, n, isList⟩

def rlpHeader : Bytes → Except Exn RlpHeader
  | [] => .error (.rlp 1)
  | b :: rest =>
    if b.toNat < 128 then .ok ⟨0, 1, false⟩
    else if b.toNat ≤ 183 then rlpShortHeader false (b.toNat - 128) rest
    else if b.toNat ≤ 191 then rlpLongHeader false (b.toNat - 183) rest
    else if b.toNat ≤ 247 then rlpShortHeader true (b.toNat - 192) rest
    else rlpLongHeader true (b.toNat - 247) rest

/-! ## Canonical headers -/

/-- The base of the headers of strings and of lists. -/
def rlpBase (isList : Bool) : Nat := if isList then 192 else 128

/-- A payload with its canonical header. -/
def rlpFrame (isList : Bool) (payload : Bytes) : Bytes :=
  if isList then rlpEncodeList payload else rlpEncodeBytes payload

/-- A single byte below 128, which needs no header. -/
def isOwnEncoding (payload : Bytes) : Prop := ∃ b : UInt8, b.toNat < 128 ∧ payload = [b]

theorem rlpEncodeBytes_own {b : UInt8} (h : b.toNat < 128) : rlpEncodeBytes [b] = [b] :=
  if_pos (UInt8.lt_iff_toNat_lt.mpr h)

theorem rlpEncodeBytes_headed {bs : Bytes} (h : ¬ isOwnEncoding bs) :
    rlpEncodeBytes bs = rlpWriteHeader 128 bs.length ++ bs := by
  unfold rlpEncodeBytes
  split
  · next b =>
    rw [if_neg fun hb => h ⟨b, UInt8.lt_iff_toNat_lt.mp hb, rfl⟩]
    rfl
  · rfl

theorem rlpFrame_headed {isList : Bool} {payload : Bytes}
    (h : isList = true ∨ ¬ isOwnEncoding payload) :
    rlpFrame isList payload = rlpWriteHeader (rlpBase isList) payload.length ++ payload := by
  cases isList with
  | true => rfl
  | false => exact rlpEncodeBytes_headed (h.resolve_left Bool.false_ne_true)

theorem length_le_rlpFrame (isList : Bool) (payload : Bytes) :
    payload.length ≤ (rlpFrame isList payload).length := by
  by_cases h : isList = true ∨ ¬ isOwnEncoding payload
  · rw [rlpFrame_headed h, List.length_append]
    exact Nat.le_add_left _ _
  · push Not at h
    obtain ⟨hl, b, hb, rfl⟩ := h
    obtain rfl := Bool.eq_false_of_not_eq_true hl
    exact Nat.le_of_eq (congrArg List.length (rlpEncodeBytes_own hb)).symm

theorem rlpFrame_ne_nil (isList : Bool) (payload : Bytes) : rlpFrame isList payload ≠ [] := by
  by_cases h : isList = true ∨ ¬ isOwnEncoding payload
  · rw [rlpFrame_headed h]
    unfold rlpWriteHeader
    split <;> simp
  · push Not at h
    obtain ⟨hl, b, hb, rfl⟩ := h
    obtain rfl := Bool.eq_false_of_not_eq_true hl
    intro hnil
    exact List.cons_ne_nil _ _ ((rlpEncodeBytes_own hb).symm.trans hnil)

/-! ## A canonical header is read -/

theorem rlpReadLength_rlpBe (n : Nat) : rlpReadLength (rlpBe n) = .ok n := by
  unfold rlpReadLength
  rw [if_neg fun h => head_rlpBe n h.2, beNat_rlpBe]

theorem rlpShortHeader_frame {isList : Bool} {payload : Bytes}
    (h : isList = true ∨ ¬ isOwnEncoding payload) (rest : Bytes) :
    rlpShortHeader isList payload.length (payload ++ rest) = .ok ⟨1, payload.length, isList⟩ := by
  unfold rlpShortHeader
  rw [if_neg (by rw [List.length_append]; omega), if_neg]
  rintro ⟨rfl, hlen, hlt⟩
  obtain ⟨b, rfl⟩ := List.length_eq_one_iff.mp hlen
  exact h.resolve_left Bool.false_ne_true ⟨b, hlt, rfl⟩

theorem rlpLongHeader_frame (isList : Bool) {payload : Bytes} (h : 55 < payload.length)
    (rest : Bytes) :
    rlpLongHeader isList (rlpBeLen payload.length) (rlpBe payload.length ++ payload ++ rest) =
      .ok ⟨1 + rlpBeLen payload.length, payload.length, isList⟩ := by
  have hlen := length_rlpBe payload.length
  have htake : (rlpBe payload.length ++ payload ++ rest).take (rlpBeLen payload.length) =
      rlpBe payload.length := by
    rw [List.append_assoc, ← hlen, List.take_left]
  unfold rlpLongHeader
  simp only [List.length_append, hlen, htake, rlpReadLength_rlpBe]
  rw [if_neg (by omega)]
  change (if payload.length ≤ 55 then _ else _) = _
  rw [if_neg (Nat.not_le.mpr h), if_neg (by omega)]

theorem rlpBeLen_of_long {n : Nat} (h : 55 < n) (hlt : n < 2 ^ 64) :
    1 ≤ rlpBeLen n ∧ rlpBeLen n ≤ 8 := by
  refine ⟨?_, rlpBeLen_le (by omega)⟩
  rw [rlpBeLen_pos (by omega)]
  exact Nat.le_add_left 1 _

theorem toNat_ofNat_of_lt {n : Nat} (h : n < 256) : (UInt8.ofNat n).toNat = n := by
  simp [Nat.mod_eq_of_lt h]

/-- The first byte of a canonical header leads to the branch it is meant for. -/
theorem rlpHeader_short (isList : Bool) {n : Nat} (h : n ≤ 55) (rest : Bytes) :
    rlpHeader (UInt8.ofNat (rlpBase isList + n) :: rest) = rlpShortHeader isList n rest := by
  unfold rlpHeader
  cases isList with
  | false =>
    have hb : (UInt8.ofNat (128 + n)).toNat = 128 + n := toNat_ofNat_of_lt (by omega)
    simp only [rlpBase, Bool.false_eq_true, if_false, hb]
    rw [if_neg (by omega), if_pos (by omega), Nat.add_sub_cancel_left]
  | true =>
    have hb : (UInt8.ofNat (192 + n)).toNat = 192 + n := toNat_ofNat_of_lt (by omega)
    simp only [rlpBase, if_true, hb]
    rw [if_neg (by omega), if_neg (by omega), if_neg (by omega), if_pos (by omega),
      Nat.add_sub_cancel_left]

theorem rlpHeader_long (isList : Bool) {ll : Nat} (hpos : 1 ≤ ll) (hle : ll ≤ 8) (rest : Bytes) :
    rlpHeader (UInt8.ofNat (rlpBase isList + 55 + ll) :: rest) = rlpLongHeader isList ll rest := by
  unfold rlpHeader
  cases isList with
  | false =>
    have hb : (UInt8.ofNat (128 + 55 + ll)).toNat = 183 + ll := toNat_ofNat_of_lt (by omega)
    simp only [rlpBase, Bool.false_eq_true, if_false, hb]
    rw [if_neg (by omega), if_neg (by omega), if_pos (by omega), Nat.add_sub_cancel_left]
  | true =>
    have hb : (UInt8.ofNat (192 + 55 + ll)).toNat = 247 + ll := toNat_ofNat_of_lt (by omega)
    simp only [rlpBase, if_true, hb]
    rw [if_neg (by omega), if_neg (by omega), if_neg (by omega), if_neg (by omega),
      Nat.add_sub_cancel_left]

/-- A canonical header is read as what it stands for. -/
theorem rlpHeader_frame (isList : Bool) {payload : Bytes} (hlen : payload.length < 2 ^ 64)
    (rest : Bytes) : ∃ h, rlpHeader (rlpFrame isList payload ++ rest) = .ok h ∧
      h.isList = isList ∧ h.payload = payload.length ∧ h.total = (rlpFrame isList payload).length ∧
      h.payloadOf (rlpFrame isList payload ++ rest) = payload := by
  by_cases hown : isList = true ∨ ¬ isOwnEncoding payload
  · rw [rlpFrame_headed hown]
    by_cases hshort : payload.length ≤ 55
    · refine ⟨⟨1, payload.length, isList⟩, ?_, rfl, rfl, ?_, ?_⟩
      · unfold rlpWriteHeader
        rw [if_pos hshort]
        exact (rlpHeader_short isList hshort _).trans (rlpShortHeader_frame hown rest)
      · unfold rlpWriteHeader
        rw [if_pos hshort, List.length_append]
        rfl
      · unfold rlpWriteHeader
        rw [if_pos hshort]
        exact List.take_left
    · have hlong := Nat.not_le.mp hshort
      obtain ⟨hpos, hle⟩ := rlpBeLen_of_long hlong hlen
      have hbe := length_rlpBe payload.length
      refine ⟨⟨1 + rlpBeLen payload.length, payload.length, isList⟩, ?_, rfl, rfl, ?_, ?_⟩
      · unfold rlpWriteHeader
        rw [if_neg hshort]
        exact (rlpHeader_long isList hpos hle _).trans (rlpLongHeader_frame isList hlong rest)
      · unfold rlpWriteHeader RlpHeader.total
        rw [if_neg hshort, List.length_append, List.length_cons, hbe]
        dsimp only
        omega
      · unfold rlpWriteHeader RlpHeader.payloadOf
        rw [if_neg hshort]
        dsimp only
        rw [List.append_assoc, Nat.add_comm, List.cons_append, List.drop_succ_cons, ← hbe,
          List.drop_left, List.take_left]
  · push Not at hown
    obtain ⟨hl, b, hb, rfl⟩ := hown
    obtain rfl := Bool.eq_false_of_not_eq_true hl
    have hframe : rlpFrame false [b] = [b] := rlpEncodeBytes_own hb
    refine ⟨⟨0, 1, false⟩, ?_, rfl, rfl, ?_, ?_⟩
    · rw [hframe]
      exact if_pos hb
    · rw [hframe]
      rfl
    · rw [hframe]
      rfl

/-! ## A header that is read is canonical -/

theorem rlpReadLength_eq_ok {bs : Bytes} {n : Nat} (h : rlpReadLength bs = .ok n) (hn : n ≠ 0) :
    rlpBe n = bs := by
  unfold rlpReadLength at h
  split at h
  · cases h
  next hcanon =>
  cases h
  by_cases hhead : bs.head? = some 0
  · have hlen : bs.length ≤ 1 := Nat.not_lt.mp fun hlt => hcanon ⟨hlt, hhead⟩
    cases bs with
    | nil => cases hhead
    | cons b bs =>
      obtain rfl := Option.some.inj hhead
      have hnil : bs = [] := List.length_eq_zero_iff.mp (Nat.le_zero.mp (Nat.le_of_succ_le_succ hlen))
      rw [hnil] at hn
      exact absurd rfl hn
  · exact rlpBe_beNat hhead

theorem rlpReadLength_lt {bs : Bytes} {n : Nat} (h : rlpReadLength bs = .ok n) :
    n < 256 ^ bs.length := by
  unfold rlpReadLength at h
  split at h
  · cases h
  · cases h
    exact beNat_lt bs

/-- What a header promises about the bytes it was read from. -/
structure RlpHeader.Reads (h : RlpHeader) (bs : Bytes) : Prop where
  le : h.total ≤ bs.length
  frame : bs.take h.total = rlpFrame h.isList (h.payloadOf bs)

theorem RlpHeader.length_payloadOf {h : RlpHeader} {bs : Bytes} (hle : h.total ≤ bs.length) :
    (h.payloadOf bs).length = h.payload := by
  unfold RlpHeader.total at hle
  unfold RlpHeader.payloadOf
  rw [List.length_take, List.length_drop]
  omega

theorem reads_short {isList : Bool} {n : Nat} {b : UInt8} {rest : Bytes} {h : RlpHeader}
    (hn : n ≤ 55) (hb : b.toNat = rlpBase isList + n) (hrun : rlpShortHeader isList n rest = .ok h) :
    h.Reads (b :: rest) := by
  unfold rlpShortHeader at hrun
  split at hrun
  · cases hrun
  next hlen =>
  split at hrun
  · cases hrun
  next hown =>
  cases hrun
  have hlen' : (rest.take n).length = n := by
    rw [List.length_take]
    omega
  refine ⟨?_, ?_⟩
  · change 1 + n ≤ rest.length + 1
    omega
  · have hheaded : isList = true ∨ ¬ isOwnEncoding (rest.take n) := by
      by_contra hcon
      push Not at hcon
      obtain ⟨hl, c, hc, htake⟩ := hcon
      rw [htake] at hlen'
      obtain rfl : 1 = n := hlen'
      refine hown ⟨Bool.eq_false_of_not_eq_true hl, rfl, ?_⟩
      cases rest with
      | nil => cases htake
      | cons d rest =>
        obtain rfl : d = c := List.head_eq_of_cons_eq htake
        exact hc
    have hpayload : (RlpHeader.mk 1 n isList).payloadOf (b :: rest) = rest.take n := rfl
    have htotal : (RlpHeader.mk 1 n isList).total = n + 1 := Nat.add_comm 1 n
    rw [hpayload, htotal, List.take_succ_cons, rlpFrame_headed hheaded, hlen']
    unfold rlpWriteHeader
    rw [if_pos hn, ← hb, UInt8.ofNat_toNat]
    rfl

theorem reads_long {isList : Bool} {ll : Nat} {b : UInt8} {rest : Bytes} {h : RlpHeader}
    (hb : b.toNat = rlpBase isList + 55 + ll) (hrun : rlpLongHeader isList ll rest = .ok h) :
    h.Reads (b :: rest) := by
  unfold rlpLongHeader at hrun
  split at hrun
  · cases hrun
  next hll =>
  cases hread : rlpReadLength (rest.take ll) with
  | error e =>
    rw [hread] at hrun
    cases hrun
  | ok n =>
    rw [hread] at hrun
    change (if n ≤ 55 then _ else _) = _ at hrun
    split at hrun
    · cases hrun
    next hn =>
    split at hrun
    · cases hrun
    next hlen =>
    cases hrun
    have hbe : rlpBe n = rest.take ll := rlpReadLength_eq_ok hread (by omega)
    have hbeLen : rlpBeLen n = ll := by
      rw [← length_rlpBe, hbe, List.length_take]
      omega
    have hpayload : (RlpHeader.mk (1 + ll) n isList).payloadOf (b :: rest) =
        (rest.drop ll).take n := by
      unfold RlpHeader.payloadOf
      rw [Nat.add_comm, List.drop_succ_cons]
    have hsize : ((rest.drop ll).take n).length = n := by
      rw [List.length_take, List.length_drop]
      omega
    have htotal : (RlpHeader.mk (1 + ll) n isList).total = ll + n + 1 := by
      unfold RlpHeader.total
      dsimp only
      omega
    have hheaded : isList = true ∨ ¬ isOwnEncoding ((rest.drop ll).take n) := by
      refine .inr fun ⟨c, _, hc⟩ => ?_
      rw [hc, List.length_singleton] at hsize
      omega
    refine ⟨?_, ?_⟩
    · rw [htotal, List.length_cons]
      omega
    · rw [hpayload, htotal, List.take_succ_cons, rlpFrame_headed hheaded, hsize, List.take_add]
      unfold rlpWriteHeader
      rw [if_neg hn, hbeLen, ← hb, UInt8.ofNat_toNat, hbe]
      rfl

/-- A header that is read is the canonical one of its payload. -/
theorem frame_of_header {bs : Bytes} {h : RlpHeader} (hrun : rlpHeader bs = .ok h) :
    h.Reads bs := by
  cases bs with
  | nil => cases hrun
  | cons b rest =>
    have hb := b.toNat_lt
    rw [rlpHeader] at hrun
    split at hrun
    · next hown =>
      cases hrun
      refine ⟨Nat.le_add_left 1 _, ?_⟩
      exact (rlpEncodeBytes_own hown).symm
    have hstr : rlpBase false = 128 := rfl
    have hlist : rlpBase true = 192 := rfl
    split at hrun
    · exact reads_short (n := b.toNat - 128) (by omega) (by omega) hrun
    split at hrun
    · exact reads_long (by omega) hrun
    split at hrun
    · exact reads_short (n := b.toNat - 192) (by omega) (by omega) hrun
    · exact reads_long (by omega) hrun

theorem RlpHeader.Reads.total_pos {h : RlpHeader} {bs : Bytes} (hr : h.Reads bs) :
    0 < h.total := by
  refine Nat.pos_of_ne_zero fun hzero => rlpFrame_ne_nil h.isList (h.payloadOf bs) ?_
  rw [← hr.frame, hzero, List.take_zero]

theorem RlpHeader.Reads.eq {h : RlpHeader} {bs : Bytes} (hr : h.Reads bs) :
    bs = rlpFrame h.isList (h.payloadOf bs) ++ bs.drop h.total := by
  rw [← hr.frame, List.take_append_drop]

theorem RlpHeader.Reads.drop_lt {h : RlpHeader} {bs : Bytes} (hr : h.Reads bs) :
    (bs.drop h.total).length < bs.length := by
  have hpos := hr.total_pos
  have hle := hr.le
  rw [List.length_drop]
  omega

/-- A list has a header. -/
theorem RlpHeader.Reads.size_pos {h : RlpHeader} {bs : Bytes} (hr : h.Reads bs)
    (hl : h.isList = true) : 0 < h.size := by
  have hframe := congrArg List.length hr.frame
  have hle := hr.le
  have hpayload := RlpHeader.length_payloadOf hle
  rw [hl, rlpFrame_headed (.inl rfl), List.length_take, List.length_append, hpayload] at hframe
  have hpos : 0 < (rlpWriteHeader (rlpBase true) h.payload).length := by
    unfold rlpWriteHeader
    split
    · exact Nat.one_pos
    · exact Nat.succ_pos _
  unfold RlpHeader.total at hframe hle
  omega

/-- The payload of a list is shorter than the list. -/
theorem RlpHeader.Reads.payload_lt {h : RlpHeader} {bs : Bytes} (hr : h.Reads bs)
    (hl : h.isList = true) : (h.payloadOf bs).length < bs.length := by
  have hsize := hr.size_pos hl
  have hle := hr.le
  have hpayload := RlpHeader.length_payloadOf hle
  unfold RlpHeader.total at hle
  omega

/-! ## Items -/

/-- Check that items tile a payload, and count the lists among and inside of them. -/
def rlpItems (bs : Bytes) : Except Exn Nat :=
  if bs = [] then .ok 0
  else match hrun : rlpHeader bs with
    | .error e => .error e
    | .ok h =>
      if hl : h.isList then do
        let inside ← rlpItems (h.payloadOf bs)
        let behind ← rlpItems (bs.drop h.total)
        return inside + 1 + behind
      else rlpItems (bs.drop h.total)
termination_by bs.length
decreasing_by
  · exact (frame_of_header hrun).payload_lt hl
  · exact (frame_of_header hrun).drop_lt
  · exact (frame_of_header hrun).drop_lt

theorem rlpItems_nil : rlpItems [] = .ok 0 := by
  rw [rlpItems, if_pos rfl]

theorem rlpItems_error {bs : Bytes} {e : Exn} (hne : bs ≠ []) (h : rlpHeader bs = .error e) :
    rlpItems bs = .error e := by
  rw [rlpItems, if_neg hne]
  split
  · next e' h' =>
    rw [h] at h'
    cases h'
    rfl
  · next h' =>
    rw [h] at h'
    cases h'

theorem rlpItems_list {bs : Bytes} {h : RlpHeader} (hrun : rlpHeader bs = .ok h)
    (hl : h.isList = true) : rlpItems bs = (do
      let inside ← rlpItems (h.payloadOf bs)
      let behind ← rlpItems (bs.drop h.total)
      return inside + 1 + behind) := by
  have hne : bs ≠ [] := by
    rintro rfl
    cases hrun
  rw [rlpItems, if_neg hne]
  split
  · next h' =>
    rw [hrun] at h'
    cases h'
  · next h' hrun' =>
    rw [hrun] at hrun'
    cases hrun'
    rw [dif_pos hl]

theorem rlpItems_string {bs : Bytes} {h : RlpHeader} (hrun : rlpHeader bs = .ok h)
    (hl : h.isList = false) : rlpItems bs = rlpItems (bs.drop h.total) := by
  have hne : bs ≠ [] := by
    rintro rfl
    cases hrun
  rw [rlpItems, if_neg hne]
  split
  · next h' =>
    rw [hrun] at h'
    cases h'
  · next h' hrun' =>
    rw [hrun] at hrun'
    cases hrun'
    rw [dif_neg (by rw [hl]; exact Bool.false_ne_true)]

/-- The lists inside of the item that `bs` starts with. -/
def rlpInside (h : RlpHeader) (bs : Bytes) : Except Exn Nat :=
  if h.isList then rlpItems (h.payloadOf bs) else .ok 0

/-- The items of a list payload: how many there are, and the most lists inside of one of them. -/
def rlpListCount (bs : Bytes) : Except Exn (Nat × Nat) :=
  if bs = [] then .ok (0, 0)
  else match hrun : rlpHeader bs with
    | .error e => .error e
    | .ok h => do
      let inside ← rlpInside h bs
      let behind ← rlpListCount (bs.drop h.total)
      return (behind.1 + 1, max inside behind.2)
termination_by bs.length
decreasing_by exact (frame_of_header hrun).drop_lt

/-- An item with the most lists inside of one item of its payload. -/
structure RlpItem extends RlpHeader where
  nested : Nat

def rlpItem (bs : Bytes) : Except Exn RlpItem := do
  let h ← rlpHeader bs
  if h.isList then do
    let items ← rlpListCount (h.payloadOf bs)
    return ⟨h, items.2⟩
  else return ⟨h, 0⟩

/-- An item that takes all of its bytes. -/
def rlpDecodeFully (bs : Bytes) : Except Exn RlpItem := do
  let it ← rlpItem bs
  if it.total ≠ bs.length then .error (.rlp 6) else return it

/-! ## Trees -/

/-- What RLP encodes. -/
inductive RlpTree where
  | str (bs : Bytes)
  | list (items : List RlpTree)

namespace RlpTree

mutual

/-- The canonical encoding. -/
def encode : RlpTree → Bytes
  | str bs => rlpEncodeBytes bs
  | list items => rlpEncodeList (encodeAll items)

def encodeAll : List RlpTree → Bytes
  | [] => []
  | t :: ts => encode t ++ encodeAll ts

end

mutual

/-- The number of lists in a tree, itself included. -/
def lists : RlpTree → Nat
  | str _ => 0
  | list items => listsAll items + 1

def listsAll : List RlpTree → Nat
  | [] => 0
  | t :: ts => lists t + listsAll ts

end

def isList : RlpTree → Bool
  | str _ => false
  | list _ => true

/-- What follows the header. -/
def payload : RlpTree → Bytes
  | str bs => bs
  | list items => encodeAll items

def items : RlpTree → List RlpTree
  | str _ => []
  | list items => items

/-- The most lists inside of one of some trees. -/
def nestedAll : List RlpTree → Nat
  | [] => 0
  | t :: ts => max (listsAll t.items) (nestedAll ts)

def nested (t : RlpTree) : Nat := nestedAll t.items

theorem encode_eq (t : RlpTree) : t.encode = rlpFrame t.isList t.payload := by
  cases t <;> rfl

theorem length_payload_le (t : RlpTree) : t.payload.length ≤ t.encode.length := by
  rw [encode_eq]
  exact length_le_rlpFrame _ _

end RlpTree

/-! ## What is accepted -/

open RlpTree

/-- The header of a tree's encoding. -/
theorem rlpHeader_encode (t : RlpTree) (hlt : t.encode.length < 2 ^ 64) (rest : Bytes) :
    ∃ h, rlpHeader (t.encode ++ rest) = .ok h ∧ h.isList = t.isList ∧
      h.payloadOf (t.encode ++ rest) = t.payload ∧ (t.encode ++ rest).drop h.total = rest := by
  rw [t.encode_eq] at hlt ⊢
  obtain ⟨h, hrun, hl, -, htotal, hpayload⟩ := rlpHeader_frame t.isList
    (Nat.lt_of_le_of_lt (length_le_rlpFrame t.isList t.payload) hlt) rest
  refine ⟨h, hrun, hl, hpayload, ?_⟩
  rw [htotal, List.drop_left]

theorem except_bind_eq_ok {α β : Type} {x : Except Exn α} {f : α → Except Exn β} {b : β} :
    (x >>= f) = .ok b ↔ ∃ a, x = .ok a ∧ f a = .ok b := by
  constructor
  · intro h
    cases x with
    | error e => cases h
    | ok a => exact ⟨a, rfl, h⟩
  · rintro ⟨a, rfl, h⟩
    exact h

/-- Items that are accepted are encodings one after the other. -/
theorem encodeAll_of_rlpItems {bs : Bytes} {n : Nat} (h : rlpItems bs = .ok n) :
    ∃ ts, bs = encodeAll ts ∧ n = listsAll ts := by
  induction hlen : bs.length using Nat.strongRecOn generalizing bs n with
  | ind len ih =>
  subst hlen
  by_cases hnil : bs = []
  · subst hnil
    rw [rlpItems_nil] at h
    cases h
    exact ⟨[], rfl, rfl⟩
  cases hrun : rlpHeader bs with
  | error e =>
    rw [rlpItems_error hnil hrun] at h
    cases h
  | ok hd =>
    have hr := frame_of_header hrun
    cases hl : hd.isList with
    | false =>
      rw [rlpItems_string hrun hl] at h
      obtain ⟨ts, hts, hn⟩ := ih _ hr.drop_lt h rfl
      refine ⟨.str (hd.payloadOf bs) :: ts, ?_, ?_⟩
      · have heq := hr.eq
        rw [hl, hts] at heq
        exact heq
      · rw [hn, listsAll, lists, Nat.zero_add]
    | true =>
      rw [rlpItems_list hrun hl] at h
      obtain ⟨inside, hinside, h⟩ := except_bind_eq_ok.mp h
      obtain ⟨behind, hbehind, h⟩ := except_bind_eq_ok.mp h
      cases h
      obtain ⟨us, hus, hin⟩ := ih _ (hr.payload_lt hl) hinside rfl
      obtain ⟨ts, hts, hbe⟩ := ih _ hr.drop_lt hbehind rfl
      refine ⟨.list us :: ts, ?_, ?_⟩
      · have heq := hr.eq
        rw [hl, hts, hus] at heq
        exact heq
      · rw [hin, hbe, listsAll, lists]

theorem rlpItems_encodeAll {ts : List RlpTree} (hlt : (encodeAll ts).length < 2 ^ 64) :
    rlpItems (encodeAll ts) = .ok (listsAll ts) := by
  induction hlen : (encodeAll ts).length using Nat.strongRecOn generalizing ts with
  | ind len ih =>
  subst hlen
  cases ts with
  | nil => exact rlpItems_nil
  | cons t ts =>
    rw [encodeAll, List.length_append] at hlt ih
    rw [encodeAll, listsAll]
    obtain ⟨h, hrun, hl, hpayload, hdrop⟩ := rlpHeader_encode t (by omega) (encodeAll ts)
    have hr := frame_of_header hrun
    have hrest := hr.drop_lt
    rw [hdrop, List.length_append] at hrest
    have hbehind := ih _ hrest (by omega) rfl
    cases t with
    | str bs =>
      rw [rlpItems_string hrun hl, hdrop, hbehind, lists, Nat.zero_add]
    | list us =>
      have hinside := hr.payload_lt hl
      rw [hpayload, List.length_append] at hinside
      have hin := ih (encodeAll us).length hinside (Nat.lt_trans hinside hlt) rfl
      have hus : h.payloadOf ((RlpTree.list us).encode ++ encodeAll ts) = encodeAll us := hpayload
      rw [rlpItems_list hrun hl, hdrop, hbehind, hus, hin, lists]
      rfl

theorem rlpListCount_nil : rlpListCount [] = .ok (0, 0) := by
  rw [rlpListCount, if_pos rfl]

theorem rlpListCount_error {bs : Bytes} {e : Exn} (hne : bs ≠ []) (h : rlpHeader bs = .error e) :
    rlpListCount bs = .error e := by
  rw [rlpListCount, if_neg hne]
  split
  · next h' =>
    rw [h] at h'
    cases h'
    rfl
  · next h' =>
    rw [h] at h'
    cases h'

theorem rlpListCount_item {bs : Bytes} {h : RlpHeader} (hrun : rlpHeader bs = .ok h) :
    rlpListCount bs = (do
      let inside ← rlpInside h bs
      let behind ← rlpListCount (bs.drop h.total)
      return (behind.1 + 1, max inside behind.2)) := by
  have hne : bs ≠ [] := by
    rintro rfl
    cases hrun
  rw [rlpListCount, if_neg hne]
  split
  · next h' =>
    rw [hrun] at h'
    cases h'
  · next h' hrun' =>
    rw [hrun] at hrun'
    cases hrun'
    rfl

/-- The tree of a header whose payload is in order. -/
theorem exists_tree {bs : Bytes} {h : RlpHeader} {inside : Nat} (hrun : rlpHeader bs = .ok h)
    (hinside : rlpInside h bs = .ok inside) :
    ∃ t : RlpTree, t.isList = h.isList ∧ t.payload = h.payloadOf bs ∧
      inside = listsAll t.items ∧ bs = t.encode ++ bs.drop h.total := by
  have heq := (frame_of_header hrun).eq
  unfold rlpInside at hinside
  cases hl : h.isList with
  | false =>
    rw [hl] at hinside heq
    cases hinside
    exact ⟨.str (h.payloadOf bs), rfl, rfl, rfl, heq⟩
  | true =>
    rw [hl, if_pos rfl] at hinside
    obtain ⟨us, hus, hn⟩ := encodeAll_of_rlpItems hinside
    rw [hl, hus] at heq
    exact ⟨.list us, rfl, hus.symm, hn, heq⟩

theorem encodeAll_of_rlpListCount {bs : Bytes} {r : Nat × Nat} (h : rlpListCount bs = .ok r) :
    ∃ ts, bs = encodeAll ts ∧ r = (ts.length, nestedAll ts) := by
  induction hlen : bs.length using Nat.strongRecOn generalizing bs r with
  | ind len ih =>
  subst hlen
  by_cases hnil : bs = []
  · subst hnil
    rw [rlpListCount_nil] at h
    cases h
    exact ⟨[], rfl, rfl⟩
  cases hrun : rlpHeader bs with
  | error e =>
    rw [rlpListCount_error hnil hrun] at h
    cases h
  | ok hd =>
    rw [rlpListCount_item hrun] at h
    obtain ⟨inside, hinside, h⟩ := except_bind_eq_ok.mp h
    obtain ⟨behind, hbehind, h⟩ := except_bind_eq_ok.mp h
    cases h
    obtain ⟨t, -, -, hn, heq⟩ := exists_tree hrun hinside
    obtain ⟨ts, hts, hbe⟩ := ih _ (frame_of_header hrun).drop_lt hbehind rfl
    refine ⟨t :: ts, ?_, ?_⟩
    · rw [encodeAll, ← hts]
      exact heq
    · rw [hbe, hn]
      rfl

theorem rlpInside_payload {t : RlpTree} {h : RlpHeader} {bs : Bytes} (hl : h.isList = t.isList)
    (hp : h.payloadOf bs = t.payload) (hlt : t.payload.length < 2 ^ 64) :
    rlpInside h bs = .ok (listsAll t.items) := by
  unfold rlpInside
  rw [hl, hp]
  cases t with
  | str bs => rfl
  | list us => exact rlpItems_encodeAll hlt

theorem rlpListCount_encodeAll {ts : List RlpTree} (hlt : (encodeAll ts).length < 2 ^ 64) :
    rlpListCount (encodeAll ts) = .ok (ts.length, nestedAll ts) := by
  induction ts with
  | nil => exact rlpListCount_nil
  | cons t ts ih =>
    rw [encodeAll, List.length_append] at hlt
    have hle := t.length_payload_le
    obtain ⟨h, hrun, hl, hpayload, hdrop⟩ := rlpHeader_encode t (by omega) (encodeAll ts)
    rw [encodeAll, rlpListCount_item hrun, hdrop, rlpInside_payload hl hpayload (by omega),
      ih (by omega)]
    rfl

/-- An item describes the tree whose encoding `bs` starts with. -/
structure RlpItem.Describes (it : RlpItem) (t : RlpTree) (bs : Bytes) : Prop where
  isList : it.isList = t.isList
  payload : it.payloadOf bs = t.payload
  length : it.payload = t.payload.length
  total : it.total = t.encode.length
  nested : it.nested = t.nested
  starts : bs = t.encode ++ bs.drop it.total

theorem RlpHeader.Reads.describes {h : RlpHeader} {bs : Bytes} {t : RlpTree} {k : Nat}
    (hr : h.Reads bs) (hl : t.isList = h.isList) (hp : t.payload = h.payloadOf bs)
    (hk : k = t.nested) (heq : bs = t.encode ++ bs.drop h.total) :
    RlpItem.Describes ⟨h, k⟩ t bs := by
  refine ⟨hl.symm, hp.symm, ?_, ?_, hk, heq⟩
  · rw [hp, RlpHeader.length_payloadOf hr.le]
  · have hlen := congrArg List.length heq
    rw [List.length_append, List.length_drop] at hlen
    have hle := hr.le
    change h.total = _
    omega

theorem describes_of_rlpItem {bs : Bytes} {it : RlpItem} (h : rlpItem bs = .ok it) :
    ∃ t, it.Describes t bs := by
  obtain ⟨hd, hrun, h⟩ := except_bind_eq_ok.mp h
  have hr := frame_of_header hrun
  have heq := hr.eq
  cases hl : hd.isList with
  | false =>
    rw [hl] at h heq
    cases h
    exact ⟨.str (hd.payloadOf bs), hr.describes hl.symm rfl rfl heq⟩
  | true =>
    rw [hl] at h
    obtain ⟨r, hcount, h⟩ := except_bind_eq_ok.mp h
    cases h
    obtain ⟨ts, hts, rfl⟩ := encodeAll_of_rlpListCount hcount
    rw [hl, hts] at heq
    exact ⟨.list ts, hr.describes hl.symm hts.symm rfl heq⟩

theorem rlpItem_encode {t : RlpTree} (hlt : t.encode.length < 2 ^ 64) (rest : Bytes) :
    ∃ it, rlpItem (t.encode ++ rest) = .ok it ∧ it.Describes t (t.encode ++ rest) := by
  obtain ⟨h, hrun, hl, hpayload, hdrop⟩ := rlpHeader_encode t hlt rest
  have hr := frame_of_header hrun
  have hle := t.length_payload_le
  refine ⟨⟨h, t.nested⟩, ?_, hr.describes hl.symm hpayload.symm rfl (by rw [hdrop])⟩
  unfold rlpItem
  rw [hrun]
  change (if h.isList = true then _ else _) = _
  rw [hl, hpayload]
  cases t with
  | str bs => rfl
  | list us =>
    have hcount := rlpListCount_encodeAll (Nat.lt_of_le_of_lt hle hlt)
    exact except_bind_eq_ok.mpr ⟨_, hcount, rfl⟩

/-- The whole of the bytes is one item. -/
theorem rlpDecodeFully_eq_ok {bs : Bytes} {it : RlpItem} :
    rlpDecodeFully bs = .ok it ↔ rlpItem bs = .ok it ∧ it.total = bs.length := by
  constructor
  · intro h
    obtain ⟨it', hitem, h⟩ := except_bind_eq_ok.mp h
    split at h
    · cases h
    · next hlen =>
      cases h
      exact ⟨hitem, not_not.mp hlen⟩
  · rintro ⟨hitem, hlen⟩
    refine except_bind_eq_ok.mpr ⟨it, hitem, ?_⟩
    rw [if_neg (not_not.mpr hlen)]
    rfl

/-! ## Encodings are unambiguous -/

theorem encodeAll_injective {ts us : List RlpTree} (hlt : (encodeAll ts).length < 2 ^ 64)
    (heq : encodeAll ts = encodeAll us) : ts = us := by
  induction hlen : (encodeAll ts).length using Nat.strongRecOn generalizing ts us with
  | ind len ih =>
  subst hlen
  cases ts with
  | nil =>
    cases us with
    | nil => rfl
    | cons u us =>
      have hnil := List.append_eq_nil_iff.mp heq.symm
      exact absurd (u.encode_eq.symm.trans hnil.1) (rlpFrame_ne_nil _ _)
  | cons t ts =>
    cases us with
    | nil =>
      have hnil := List.append_eq_nil_iff.mp heq
      exact absurd (t.encode_eq.symm.trans hnil.1) (rlpFrame_ne_nil _ _)
    | cons u us =>
      have hlt' := heq ▸ hlt
      rw [encodeAll, List.length_append] at hlt hlt' ih
      rw [encodeAll, encodeAll] at heq
      obtain ⟨h, hrun, hl, hp, hdrop⟩ := rlpHeader_encode t (by omega) (encodeAll ts)
      obtain ⟨h', hrun', hl', hp', hdrop'⟩ := rlpHeader_encode u (by omega) (encodeAll us)
      rw [heq] at hrun hp hdrop
      obtain rfl : h = h' := Except.ok.inj (hrun.symm.trans hrun')
      have hr := frame_of_header hrun
      have hrest : encodeAll ts = encodeAll us := hdrop.symm.trans hdrop'
      have hpayload : t.payload = u.payload := hp.symm.trans hp'
      have hkind : t.isList = u.isList := hl.symm.trans hl'
      have hlong := hr.drop_lt
      rw [hdrop, ← heq, List.length_append] at hlong
      have hts : ts = us := ih _ hlong (by omega) hrest rfl
      have htu : t = u := by
        cases t with
        | str bs =>
          cases u with
          | str cs => exact congrArg RlpTree.str hpayload
          | list cs => cases hkind
        | list bs =>
          cases u with
          | str cs => cases hkind
          | list cs =>
            have hin := hr.payload_lt hl
            rw [hp, ← heq, List.length_append] at hin
            have hin' : (encodeAll bs).length < _ := hin
            exact congrArg RlpTree.list (ih _ hin' (by omega) hpayload rfl)
      rw [htu, hts]

/-- No encoding is the beginning of another one. -/
theorem encode_prefix_unique {t u : RlpTree} {rest rest' : Bytes} (hlt : t.encode.length < 2 ^ 64)
    (hlt' : u.encode.length < 2 ^ 64) (heq : t.encode ++ rest = u.encode ++ rest') : t = u := by
  obtain ⟨h, hrun, -, -, hdrop⟩ := rlpHeader_encode t hlt rest
  obtain ⟨h', hrun', -, -, hdrop'⟩ := rlpHeader_encode u hlt' rest'
  rw [heq] at hrun hdrop
  obtain rfl : h = h' := Except.ok.inj (hrun.symm.trans hrun')
  obtain rfl : rest = rest' := hdrop.symm.trans hdrop'
  have henc : t.encode = u.encode := List.append_cancel_right heq
  have hall : encodeAll [t] = encodeAll [u] := congrArg (· ++ []) henc
  have hone : (encodeAll [t]).length < 2 ^ 64 := by
    rw [encodeAll, encodeAll, List.append_nil]
    exact hlt
  exact List.head_eq_of_cons_eq (encodeAll_injective hone hall)

/-! ## Errors -/

theorem rlpShortHeader_error {isList : Bool} {n : Nat} {rest : Bytes} {e : Exn}
    (h : rlpShortHeader isList n rest = .error e) : ∃ c, e = .rlp c := by
  unfold rlpShortHeader at h
  split at h
  · cases h
    exact ⟨_, rfl⟩
  split at h
  · cases h
    exact ⟨_, rfl⟩
  · cases h

theorem rlpLongHeader_error {isList : Bool} {ll : Nat} {rest : Bytes} {e : Exn}
    (h : rlpLongHeader isList ll rest = .error e) : ∃ c, e = .rlp c := by
  unfold rlpLongHeader at h
  split at h
  · cases h
    exact ⟨_, rfl⟩
  cases hread : rlpReadLength (rest.take ll) with
  | error e' =>
    rw [hread] at h
    cases h
    unfold rlpReadLength at hread
    split at hread
    · cases hread
      exact ⟨_, rfl⟩
    · cases hread
  | ok n =>
    rw [hread] at h
    change (if n ≤ 55 then _ else _) = _ at h
    split at h
    · cases h
      exact ⟨_, rfl⟩
    split at h
    · cases h
      exact ⟨_, rfl⟩
    · cases h

/-- A header is refused with one of the decoder's own errors. -/
theorem rlpHeader_error {bs : Bytes} {e : Exn} (h : rlpHeader bs = .error e) :
    ∃ c, e = .rlp c := by
  cases bs with
  | nil =>
    cases h
    exact ⟨_, rfl⟩
  | cons b rest =>
    rw [rlpHeader] at h
    split at h
    · cases h
    split at h
    · exact rlpShortHeader_error h
    split at h
    · exact rlpLongHeader_error h
    split at h
    · exact rlpShortHeader_error h
    · exact rlpLongHeader_error h

end StatelessGuest
