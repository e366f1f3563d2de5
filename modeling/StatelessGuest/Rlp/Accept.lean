import StatelessGuest.Rlp.Validate

/-!
# What the RLP decoder accepts

The decoder in memory computes what the decoder over byte strings does, as long as the scratch
arena holds its records.

* `Follows`: a program in memory does what it should, or the arena is too small.
* `follows_listCount`, `follows_item`: the decoder in memory follows the one over byte strings.
* `rlp_acceptance`: what is accepted, and what an item says.
-/

namespace StatelessGuest

open Lib RlpTree

/-! ## Following a decoder over byte strings -/

/-- The arena is where it was. -/
structure Scratch.Same (s s' : Scratch) : Prop where
  ptr : s'.ptr = s.ptr
  frameMem : s'.frameMem = s.frameMem

/-- What a run may do when it should do `x`, a result with the number of lists that need records at
the same time, on `size` bytes. -/
inductive Follows {α : Type} (s : Scratch) (size : Nat) (x : Except Exn (α × Nat)) :
    EStateM.Result Exn Scratch α → Prop where
  | ok {a : α} {n : Nat} {s' : Scratch} (hx : x = .ok (a, n)) (hroom : 24 * n ≤ s.room)
      (hsame : s.Same s') : Follows s size x (.ok a s')
  | error {c : Nat} {s' : Scratch} (hx : x = .error (.rlp c)) (hsame : s.Same s') :
      Follows s size x (.error (.rlp c) s')
  | trap {s' : Scratch} (hsize : s.room < 24 * size)
      (hx : ∀ a n, x = .ok (a, n) → s.room < 24 * n) : Follows s size x (.error (.trap 7) s')

section

variable {α β : Type} {s s' : Scratch} {size : Nat} {x : Except Exn (α × Nat)}

theorem Scratch.Same.refl (s : Scratch) : s.Same s := ⟨rfl, rfl⟩

theorem Scratch.Same.trans {s'' : Scratch} (h : s.Same s') (h' : s'.Same s'') : s.Same s'' :=
  ⟨h'.ptr.trans h.ptr, h'.frameMem.trans h.frameMem⟩

theorem Scratch.Same.sound (h : s.Same s') (hs : s.Sound) : s'.Sound := by
  refine ⟨?_, ?_, ?_⟩
  · rw [h.ptr]
    exact hs.aligned
  · rw [h.frameMem]
    exact hs.base
  · rw [h.ptr, h.frameMem]
    exact hs.le

theorem Scratch.Same.room_eq (h : s.Same s') : s'.room = s.room := by
  unfold Scratch.room
  rw [h.ptr, h.frameMem]

theorem Follows.mono {r : EStateM.Result Exn Scratch α} {size' : Nat} (h : Follows s size x r)
    (hle : size ≤ size') : Follows s size' x r := by
  cases h with
  | ok hx hroom hsame => exact .ok hx hroom hsame
  | error hx hsame => exact .error hx hsame
  | trap hsize hx => exact .trap (by omega) hx

/-- Records are released between two steps, so the larger number of them counts. -/
theorem Follows.bind {p : RlpM α} {f : α → RlpM β} {g : α → Except Exn (β × Nat)}
    (h : Follows s size x (p s))
    (hf : ∀ a n s', x = .ok (a, n) → s.Same s' → Follows s' size (g a) (f a s')) :
    Follows s size (do
      let r ← x
      let t ← g r.1
      return (t.1, max r.2 t.2)) ((p >>= f) s) := by
  generalize hp : p s = r at h
  cases h with
  | @ok a n s' hx hroom hsame =>
    rw [bind_run_ok hp, hx]
    change Follows s size (g a >>= fun t => .ok (t.1, max n t.2)) _
    have hrest := hf a n s' hx hsame
    generalize f a s' = r at hrest
    cases hrest with
    | @ok b m s'' hg hroom' hsame' =>
      rw [hsame.room_eq] at hroom'
      refine .ok (n := max n m) (except_bind_eq_ok.mpr ⟨_, hg, rfl⟩) ?_ (hsame.trans hsame')
      omega
    | error hg hsame' =>
      refine .error ?_ (hsame.trans hsame')
      rw [hg]
      rfl
    | trap hsize hg =>
      rw [hsame.room_eq] at hsize hg
      refine .trap hsize fun b m hm => ?_
      obtain ⟨t, ht, hret⟩ := except_bind_eq_ok.mp hm
      have hneed := hg t.1 t.2 ht
      cases hret
      omega
  | error hx hsame =>
    rw [bind_run_error hp, hx]
    exact .error rfl hsame
  | trap hsize hx =>
    rw [bind_run_error hp]
    refine .trap hsize fun b m hm => ?_
    obtain ⟨r, hr, hret⟩ := except_bind_eq_ok.mp hm
    obtain ⟨t, -, hret⟩ := except_bind_eq_ok.mp hret
    have hneed := hx r.1 r.2 hr
    cases hret
    omega

theorem Follows.congr {y : Except Exn (α × Nat)} {r : EStateM.Result Exn Scratch α}
    (h : Follows s size x r) (hxy : x = y) : Follows s size y r := hxy ▸ h

end

/-! ## The validator -/

section

variable [Stray] {b : Buffer} {p len : Word} {s : Scratch}

omit [Stray] in
theorem pos_add_sub (p len : Word) : p + len - p = len := add_sub_cancel_left p len

theorem ran_validateItemsBody (hs : s.Sound) (hw : b.Within p len) :
    Ran s len.toNat (rlpItems (b.bytes p len)) (rlpValidateItemsBody b p len s) := by
  have hview : b.views [(p, p + len)] = [b.bytes p len] := by
    change [b.bytes p (p + len - p)] = _
    rw [pos_add_sub]
  have htotal : totalLength (b.views [(p, p + len)]) = len.toNat := by
    rw [hview, totalLength_cons, Buffer.length_bytes]
    rfl
  have hwithin : ∀ r ∈ [(p, p + len)], b.Within r.1 (r.2 - r.1) :=
    List.forall_mem_singleton.mpr (by rwa [pos_add_sub])
  have hfuel : 2 * totalLength (b.views [(p, p + len)]) + 0 < 2 * len.toNat + 1 := by
    rw [htotal]
    exact Nat.lt_succ_self _
  have hran := ran_validateLoop hs .nil hwithin hfuel
  have hall : rlpItemsAll [b.bytes p len] = rlpItems (b.bytes p len) := by
    rw [rlpItemsAll, rlpItemsAll]
    cases rlpItems (b.bytes p len) <;> rfl
  rw [htotal, hview, hall] at hran
  exact hran

theorem follows_validateItems (hs : s.Sound) (hw : b.Within p len) :
    Follows s len.toNat (((), ·) <$> rlpItems (b.bytes p len)) (rlpValidateItems b p len s) := by
  have hran := ran_validateItemsBody hs hw
  unfold rlpValidateItems
  rw [bind_run_ok (show scratchMark s = .ok s.ptr s from rfl), bind_run, tryCatch_run]
  generalize rlpValidateItemsBody b p len s = r at hran
  cases hran with
  | ok hx hroom hmem => exact .ok (by rw [hx]; rfl) hroom ⟨rfl, hmem⟩
  | error hx hmem => exact .error (by rw [hx]; rfl) ⟨rfl, hmem⟩
  | trap hsize hx =>
    refine .trap hsize fun a n hn => ?_
    cases hitems : rlpItems (b.bytes p len) with
    | error e =>
      rw [hitems] at hn
      cases hn
    | ok m =>
      rw [hitems] at hn
      cases hn
      exact hx _ hitems

/-! ## Items of a list -/

/-- What `rlp_item_total` should do: the length of the item, and the lists inside of it. -/
def rlpTotal (bs : Bytes) : Except Exn (Word × Nat) := do
  let h ← rlpHeader bs
  let inside ← rlpInside h bs
  return (BitVec.ofNat 64 h.total, inside)

omit [Stray] in
theorem rlpTotal_eq_ok {bs : Bytes} {total : Word} {n : Nat} (hlt : bs.length < 2 ^ 64)
    (h : rlpTotal bs = .ok (total, n)) : 0 < total.toNat ∧ total.toNat ≤ bs.length := by
  obtain ⟨hd, hrun, h⟩ := except_bind_eq_ok.mp h
  obtain ⟨inside, -, h⟩ := except_bind_eq_ok.mp h
  have hr := frame_of_header hrun
  have hpos := hr.total_pos
  have hle := hr.le
  cases h
  rw [toNat_ofNat_small (Nat.lt_of_le_of_lt hle hlt)]
  exact ⟨hpos, hle⟩

theorem follows_itemTotal (hs : s.Sound) (hw : b.Within p len) :
    Follows s len.toNat (rlpTotal (b.bytes p len)) (rlpItemTotal b p len s) := by
  unfold rlpItemTotal rlpTotal
  rw [rlpItemHeader_eq hw]
  cases hrun : rlpHeader (b.bytes p len) with
  | error e =>
    obtain ⟨c, rfl⟩ := rlpHeader_error hrun
    exact .error rfl (.refl s)
  | ok h =>
    have hsplit := splits_of_header hw hrun
    have htotal : h.at.size + h.at.payload = BitVec.ofNat 64 h.total := (BitVec.ofNat_add _ _).symm
    change Follows s len.toNat (rlpInside h (b.bytes p len) >>= fun n => .ok (_, n))
      ((if h.isList = true then _ else _ : RlpM Word) s)
    unfold rlpInside
    cases hl : h.isList with
    | false =>
      refine .ok (n := 0) ?_ (Nat.zero_le _) (.refl s)
      rw [htotal]
      rfl
    | true =>
      rw [if_pos rfl, if_pos rfl, ← hsplit.payload]
      have hle : h.at.payload.toNat ≤ len.toNat := by
        have hlen := congrArg List.length hsplit.payload
        have hpayload := (frame_of_header hrun).payload_lt hl
        rw [Buffer.length_bytes] at hlen hpayload
        omega
      have hitems := (follows_validateItems hs hsplit.inside).mono hle
      refine (hitems.bind (g := fun _ => .ok (BitVec.ofNat 64 h.total, 0)) fun _ _ s' _ _ => ?_).congr ?_
      · rw [htotal]
        exact .ok rfl (Nat.zero_le _) (.refl s')
      · cases rlpItems (b.bytes (p + h.at.size) h.at.payload) with
        | error e => rfl
        | ok n => exact congrArg (fun k => Except.ok (BitVec.ofNat 64 h.total, k)) (Nat.max_zero n)

/-- The items from `off` on, after `count` of them. -/
def rlpCountFrom (b : Buffer) (p len off count : Word) : Except Exn (Word × Nat) :=
  (fun r => (count + BitVec.ofNat 64 r.1, r.2)) <$> rlpListCount (b.bytes (p + off) (len - off))

omit [Stray] in
/-- The count goes on behind an item. -/
theorem rlpCountFrom_item {off count : Word} (hlt : off < len)
    (hw : b.Within (p + off) (len - off)) :
    rlpCountFrom b p len off count = (do
      let r ← rlpTotal (b.bytes (p + off) (len - off))
      let t ← rlpCountFrom b p len (off + r.1) (count + 1)
      return (t.1, max r.2 t.2)) := by
  unfold rlpCountFrom rlpTotal
  cases hrun : rlpHeader (b.bytes (p + off) (len - off)) with
  | error e =>
    have hne : b.bytes (p + off) (len - off) ≠ [] := by
      intro hnil
      have hlen := congrArg List.length hnil
      have hlt' := BitVec.lt_def.mp hlt
      rw [Buffer.length_bytes, List.length_nil,
        BitVec.toNat_sub_of_le (BitVec.le_def.mpr hlt'.le)] at hlen
      omega
    rw [rlpListCount_error hne hrun]
    rfl
  | ok h =>
    have hsplit := splits_of_header hw hrun
    have htotal : h.at.size + h.at.payload = BitVec.ofNat 64 h.total := (BitVec.ofNat_add _ _).symm
    have hrest : b.bytes (p + (off + BitVec.ofNat 64 h.total)) (len - (off + BitVec.ofNat 64 h.total)) =
        (b.bytes (p + off) (len - off)).drop h.total := by
      rw [← hsplit.behind, ← htotal, add_assoc (p + off), add_assoc p, sub_sub]
    rw [rlpListCount_item hrun]
    change (_ <$> (rlpInside h (b.bytes (p + off) (len - off)) >>= _)) =
      (rlpInside h (b.bytes (p + off) (len - off)) >>= fun n => .ok (BitVec.ofNat 64 h.total, n)) >>= _
    cases rlpInside h (b.bytes (p + off) (len - off)) with
    | error e => rfl
    | ok inside =>
      change (_ <$> (rlpListCount ((b.bytes (p + off) (len - off)).drop h.total) >>= _)) =
        ((fun r => (count + 1 + BitVec.ofNat 64 r.1, r.2)) <$> rlpListCount (b.bytes
          (p + (off + BitVec.ofNat 64 h.total)) (len - (off + BitVec.ofNat 64 h.total)))) >>= _
      rw [hrest]
      cases rlpListCount ((b.bytes (p + off) (len - off)).drop h.total) with
      | error e => rfl
      | ok r =>
        change Except.ok (count + BitVec.ofNat 64 (r.1 + 1), max inside r.2) =
          Except.ok (count + 1 + BitVec.ofNat 64 r.1, max inside r.2)
        rw [BitVec.ofNat_add, add_assoc, add_comm (1 : Word)]
        rfl

theorem follows_listCountLoop {fuel : Nat} {off count : Word} (hs : s.Sound) (hw : b.Within p len)
    (hoff : off ≤ len) (hfuel : len.toNat - off.toNat < fuel) :
    Follows s len.toNat (rlpCountFrom b p len off count)
      (rlpListCountLoop b p len fuel off count s) := by
  induction fuel generalizing s off count with
  | zero => exact absurd hfuel (Nat.not_lt_zero _)
  | succ fuel ih =>
    have hle := BitVec.le_def.mp hoff
    have hrestLen : (len - off).toNat = len.toNat - off.toNat := BitVec.toNat_sub_of_le hoff
    have hwin : b.Within (p + off) (len - off) := by
      have hdrop := hw.drop hle
      rwa [BitVec.ofNat_toNat, BitVec.setWidth_eq] at hdrop
    rw [rlpListCountLoop]
    by_cases hlt : off < len
    · rw [if_pos hlt, rlpCountFrom_item hlt hwin]
      have hitem : Follows s len.toNat _ _ := (follows_itemTotal hs hwin).mono (by omega)
      refine hitem.bind (g := fun total => rlpCountFrom b p len (off + total) (count + 1))
        fun total n s' hrun hsame => ?_
      obtain ⟨hpos, hfits⟩ := rlpTotal_eq_ok (Buffer.length_bytes ▸ (len - off).isLt) hrun
      rw [Buffer.length_bytes, hrestLen] at hfits
      have hlen := len.isLt
      have hsum : (off + total).toNat = off.toNat + total.toNat := by
        rw [BitVec.toNat_add, Nat.mod_eq_of_lt (by omega)]
      refine ih (hsame.sound hs) ?_ (by omega)
      rw [BitVec.le_def, hsum]
      omega
    · have heq : off = len := BitVec.eq_of_toNat_eq
        (Nat.le_antisymm hle (Nat.not_lt.mp fun h => hlt (BitVec.lt_def.mpr h)))
      rw [if_neg hlt]
      refine .ok (n := 0) ?_ (Nat.zero_le _) (.refl s)
      unfold rlpCountFrom
      rw [heq, sub_self, Buffer.bytes_zero, rlpListCount_nil]
      exact congrArg (fun c => Except.ok (c, 0)) (add_zero count)

/-- A list's items are counted as on its bytes. -/
theorem follows_listCount (hs : s.Sound) (hw : b.Within p len) :
    Follows s len.toNat ((fun r => (BitVec.ofNat 64 r.1, r.2)) <$> rlpListCount (b.bytes p len))
      (rlpListCountAt b p len s) := by
  have hzero : (0 : Word).toNat = 0 := rfl
  have hloop : Follows s len.toNat (rlpCountFrom b p len 0 0) (rlpListCountAt b p len s) :=
    follows_listCountLoop hs hw (BitVec.le_def.mpr (Nat.zero_le _)) (by omega)
  refine hloop.congr ?_
  unfold rlpCountFrom
  rw [add_zero, sub_zero]
  simp only [zero_add]

/-! ## Items -/

/-- An item in words, which starts at `p`. -/
def RlpItem.at (it : RlpItem) (p : Word) : ItemAt where
  isList := it.isList
  payload := p + BitVec.ofNat 64 it.size
  length := BitVec.ofNat 64 it.payload
  total := BitVec.ofNat 64 it.total

theorem follows_item (hs : s.Sound) (hw : b.Within p len) :
    Follows s len.toNat ((fun it => (it.at p, it.nested)) <$> rlpItem (b.bytes p len))
      (rlpItemAt b p len s) := by
  rw [rlpItemAt_eq, rlpItemHeader_eq hw]
  unfold rlpItem
  cases hrun : rlpHeader (b.bytes p len) with
  | error e =>
    obtain ⟨c, rfl⟩ := rlpHeader_error hrun
    exact .error rfl (.refl s)
  | ok h =>
    have hsplit := splits_of_header hw hrun
    have htotal : h.at.size + h.at.payload = BitVec.ofNat 64 h.total := (BitVec.ofNat_add _ _).symm
    change Follows s len.toNat (_ <$> (if h.isList = true then _ else _ : Except Exn RlpItem))
      ((if h.isList = true then _ else _ : RlpM ItemAt) s)
    cases hl : h.isList with
    | false =>
      refine .ok (n := 0) ?_ (Nat.zero_le _) (.refl s)
      rw [htotal]
      rfl
    | true =>
      rw [if_pos rfl, if_pos rfl, ← hsplit.payload]
      have hle : h.at.payload.toNat ≤ len.toNat := by
        have hlen := congrArg List.length hsplit.payload
        have hpayload := (frame_of_header hrun).payload_lt hl
        rw [Buffer.length_bytes] at hlen hpayload
        omega
      have hcount : Follows s len.toNat _ _ := (follows_listCount hs hsplit.inside).mono hle
      refine (hcount.bind (g := fun _ => .ok ((RlpItem.mk h 0).at p, 0))
        fun _ _ s' _ _ => ?_).congr ?_
      · rw [htotal]
        exact .ok rfl (Nat.zero_le _) (.refl s')
      · cases rlpListCount (b.bytes (p + h.at.size) h.at.payload) with
        | error e => rfl
        | ok r => exact congrArg (fun k => Except.ok ((RlpItem.mk h 0).at p, k)) (Nat.max_zero r.2)

theorem follows_decodeFully (hs : s.Sound) (hw : b.Within p len) :
    Follows s len.toNat ((fun it => (it.at p, it.nested)) <$> rlpDecodeFully (b.bytes p len))
      (rlpDecodeFullyAt b p len s) := by
  refine ((follows_item hs hw).bind (g := fun it => if it.total ≠ len then .error (.rlp 6)
    else .ok (it, 0)) fun it n s' _ _ => ?_).congr ?_
  · split
    · exact .error rfl (.refl s')
    · exact .ok rfl (Nat.zero_le _) (.refl s')
  · unfold rlpDecodeFully
    cases hitem : rlpItem (b.bytes p len) with
    | error e => rfl
    | ok it =>
      obtain ⟨t, hd⟩ := describes_of_rlpItem hitem
      have hle : it.total ≤ len.toNat := by
        have hlen := congrArg List.length hd.starts
        rw [List.length_append, ← hd.total, Buffer.length_bytes] at hlen
        omega
      have htotal : (it.at p).total ≠ len ↔ it.total ≠ (b.bytes p len).length := by
        rw [Buffer.length_bytes]
        refine (not_congr BitVec.toNat_inj).symm.trans ?_
        change (BitVec.ofNat 64 it.total).toNat ≠ _ ↔ _
        rw [toNat_ofNat_small (Nat.lt_of_le_of_lt hle len.isLt)]
      change ((if (it.at p).total ≠ len then Except.error (Exn.rlp 6) else .ok (it.at p, 0)) >>= _) =
        _ <$> (if it.total ≠ (b.bytes p len).length then _ else _)
      by_cases hne : it.total ≠ (b.bytes p len).length
      · rw [if_pos hne, if_pos (htotal.mpr hne)]
        rfl
      · rw [if_neg hne, if_neg fun h => hne (htotal.mp h)]
        exact congrArg (fun k => Except.ok (it.at p, k)) (Nat.max_zero it.nested)

end

/-! ## Acceptance -/

/-- What is said about an item of a buffer is right for a tree. -/
structure ItemAt.Describes (it : ItemAt) (t : RlpTree) (b : Buffer) : Prop where
  isList : it.isList = t.isList
  payload : b.bytes it.payload it.length = t.payload
  inside : b.Within it.payload it.length
  total : it.total.toNat = t.encode.length

/-- How a decoder ends that is to accept some trees: with the item of an accepted tree for whose
lists the arena has room, with an error when there is none, or in the trap of the arena. -/
structure Accepts (b : Buffer) (s : Scratch) (accepted : RlpTree → Prop)
    (r : EStateM.Result Exn Scratch ItemAt) : Prop where
  succeeds : (∃ it s', r = .ok it s') ↔ ∃ t, accepted t ∧ 24 * t.nested ≤ s.room
  item : ∀ it s', r = .ok it s' → s.Same s' ∧ ∃ t, accepted t ∧ it.Describes t b
  fails : ∀ e s', r = .error e s' →
    ((∃ c, e = .rlp c) ∧ s.Same s' ∧ ∀ t, ¬ accepted t) ∨
      e = .trap 7 ∧ s.room < 24 * b.len.toNat ∧ ∀ t, accepted t → s.room < 24 * t.nested
  unique : ∀ t u, accepted t → accepted u → t = u

section

variable {b : Buffer} {s : Scratch}

theorem describes_at {it : RlpItem} {t : RlpTree} (h : it.Describes t (b.bytes b.start b.len)) :
    (it.at b.start).Describes t b := by
  have hlen := congrArg List.length h.starts
  have hlt := b.len.isLt
  rw [List.length_append, ← h.total, Buffer.length_bytes] at hlen
  have hle : it.total ≤ b.len.toNat := by omega
  have hsum : it.size + it.payload ≤ b.len.toNat := hle
  have hpayload : (BitVec.ofNat 64 it.payload).toNat = it.payload := toNat_ofNat_small (by omega)
  have hfits : BitVec.ofNat 64 it.payload ≤ b.len - BitVec.ofNat 64 it.size := by
    rw [BitVec.le_def, hpayload, Buffer.toNat_sub_ofNat (by omega)]
    omega
  refine ⟨h.isList, ?_, ((Buffer.within_self b).drop (by omega)).take hfits, ?_⟩
  · have htake := Buffer.bytes_take (b := b) (p := b.start + BitVec.ofNat 64 it.size) hfits
    rw [hpayload, ← Buffer.bytes_drop (by omega)] at htake
    exact htake.symm.trans h.payload
  · change (BitVec.ofNat 64 it.total).toNat = _
    rw [toNat_ofNat_small (by omega), h.total]

/-- A decoder accepts what the one over byte strings accepts. -/
theorem accepts_of_follows {accepted : RlpTree → Prop} {x : Except Exn RlpItem}
    {r : EStateM.Result Exn Scratch ItemAt}
    (h : Follows s b.len.toNat ((fun it => (it.at b.start, it.nested)) <$> x) r)
    (hsound : ∀ it, x = .ok it → ∃ t, accepted t ∧ it.Describes t (b.bytes b.start b.len))
    (hcomplete : ∀ t, accepted t → ∃ it, x = .ok it ∧ it.nested = t.nested)
    (hunique : ∀ t u, accepted t → accepted u → t = u) : Accepts b s accepted r := by
  have hvalue : ∀ it, x = .ok it →
      (fun it => (it.at b.start, it.nested)) <$> x = Except.ok (it.at b.start, it.nested) := by
    rintro it rfl
    rfl
  cases h with
  | @ok a n s' hx hroom hsame =>
    cases x with
    | error e => cases hx
    | ok it =>
      cases hx
      obtain ⟨t, ht, hd⟩ := hsound it rfl
      refine ⟨⟨fun _ => ⟨t, ht, hd.nested ▸ hroom⟩, fun _ => ⟨_, _, rfl⟩⟩, fun it' s'' heq => ?_,
        fun e s'' heq => (nomatch heq), hunique⟩
      cases heq
      exact ⟨hsame, t, ht, describes_at hd⟩
  | @error c s' hx hsame =>
    have hnone : ∀ t, ¬ accepted t := by
      intro t ht
      obtain ⟨it, hit, -⟩ := hcomplete t ht
      rw [hvalue it hit] at hx
      cases hx
    refine ⟨⟨fun ⟨_, _, heq⟩ => (nomatch heq), fun ⟨t, ht, _⟩ => absurd ht (hnone t)⟩,
      fun it' s'' heq => (nomatch heq), fun e s'' heq => ?_, hunique⟩
    cases heq
    exact .inl ⟨⟨c, rfl⟩, hsame, hnone⟩
  | @trap s' hsize hx =>
    have hneed : ∀ t, accepted t → s.room < 24 * t.nested := by
      intro t ht
      obtain ⟨it, hit, hnested⟩ := hcomplete t ht
      rw [← hnested]
      exact hx _ _ (hvalue it hit)
    refine ⟨⟨fun ⟨_, _, heq⟩ => (nomatch heq), fun ⟨t, ht, hroom⟩ => ?_⟩,
      fun it' s'' heq => (nomatch heq), fun e s'' heq => ?_, hunique⟩
    · have := hneed t ht
      omega
    · cases heq
      exact .inr ⟨rfl, hsize, hneed⟩

variable [Stray]

theorem accepts_item (hs : s.Sound) :
    Accepts b s (fun t => ∃ rest, b.bytes b.start b.len = t.encode ++ rest)
      (rlpItemAt b b.start b.len s) := by
  have hlt : (b.bytes b.start b.len).length < 2 ^ 64 := by
    rw [Buffer.length_bytes]
    exact b.len.isLt
  have hshort : ∀ {t : RlpTree} {rest : Bytes},
      b.bytes b.start b.len = t.encode ++ rest → t.encode.length < 2 ^ 64 := by
    intro t rest ht
    rw [ht, List.length_append] at hlt
    omega
  refine accepts_of_follows (follows_item hs (Buffer.within_self b)) (fun it hit => ?_) ?_ ?_
  · obtain ⟨t, hd⟩ := describes_of_rlpItem hit
    exact ⟨t, ⟨_, hd.starts⟩, hd⟩
  · rintro t ⟨rest, ht⟩
    obtain ⟨it, hit, hd⟩ := rlpItem_encode (hshort ht) rest
    exact ⟨it, by rw [ht, hit], hd.nested⟩
  · rintro t u ⟨rest, ht⟩ ⟨rest', hu⟩
    exact encode_prefix_unique (hshort ht) (hshort hu) (ht.symm.trans hu)

theorem accepts_decodeFully (hs : s.Sound) :
    Accepts b s (fun t => b.bytes b.start b.len = t.encode) (rlpDecodeFullyAt b b.start b.len s) := by
  have hlt : (b.bytes b.start b.len).length < 2 ^ 64 := by
    rw [Buffer.length_bytes]
    exact b.len.isLt
  refine accepts_of_follows (follows_decodeFully hs (Buffer.within_self b)) (fun it hit => ?_)
    (fun t ht => ?_) fun t u ht hu => ?_
  · obtain ⟨hitem, htotal⟩ := rlpDecodeFully_eq_ok.mp hit
    obtain ⟨t, hd⟩ := describes_of_rlpItem hitem
    refine ⟨t, ?_, hd⟩
    have hstarts := hd.starts
    rwa [htotal, List.drop_length, List.append_nil] at hstarts
  · obtain ⟨it, hit, hd⟩ := rlpItem_encode (ht ▸ hlt) []
    rw [List.append_nil, ← ht] at hit
    exact ⟨it, rlpDecodeFully_eq_ok.mpr ⟨hit, hd.total.trans (congrArg List.length ht.symm)⟩,
      hd.nested⟩
  · exact encode_prefix_unique (ht ▸ hlt) (hu ▸ hlt) (congrArg (· ++ []) (ht.symm.trans hu))

/-- The decoder accepts what is canonical, reads nothing else, whatever a stray read would throw,
ends on every input and leaves the arena as it was. The validator does what the recursion on the
bytes does. -/
theorem rlp_acceptance (b : Buffer) (hs : s.Sound) :
    Accepts b s (fun t => b.bytes b.start b.len = t.encode) (rlpDecodeFullyAt b b.start b.len s) ∧
    Accepts b s (fun t => ∃ rest, b.bytes b.start b.len = t.encode ++ rest)
      (rlpItemAt b b.start b.len s) ∧
    ∀ p len, b.Within p len →
      Follows s len.toNat (((), ·) <$> rlpItems (b.bytes p len)) (rlpValidateItems b p len s) :=
  ⟨accepts_decodeFully hs, accepts_item hs, fun _ _ hw => follows_validateItems hs hw⟩

end

theorem memInit_sound : memInit.Sound := ⟨by decide, by decide, by decide⟩

theorem rlp_acceptance_empty_list :
    let _ : Stray := ⟨.outOfFuel⟩
    let b := Buffer.ofBytes 2147483648 [192]
    memInit.Sound ∧ Accepts b memInit (fun t => b.bytes b.start b.len = t.encode)
      (rlpDecodeFullyAt b b.start b.len memInit) := by
  intro _ b
  exact ⟨memInit_sound, (rlp_acceptance b memInit_sound).1⟩

/-! ## A list with too many lists in it -/

theorem listsAll_replicate (n : Nat) : listsAll (List.replicate n (.list [])) = n := by
  induction n with
  | zero => rfl
  | succ n ih =>
    rw [List.replicate_succ, listsAll, ih]
    exact Nat.add_comm 1 n

theorem encodeAll_replicate (n : Nat) :
    encodeAll (List.replicate n (.list [])) = List.replicate n 192 := by
  induction n with
  | zero => rfl
  | succ n ih =>
    rw [List.replicate_succ, encodeAll, ih]
    rfl

theorem length_rlpEncodeList_le (payload : Bytes) (h : payload.length < 2 ^ 64) :
    (rlpEncodeList payload).length ≤ payload.length + 9 := by
  unfold rlpEncodeList rlpEncodeListHeader rlpWriteHeader
  rw [List.length_append]
  split
  · rw [List.length_singleton]
    omega
  · have hle : rlpBeLen payload.length ≤ 8 := rlpBeLen_le h
    rw [List.length_cons, length_rlpBe]
    omega

/-- `n` empty lists in a list that is the only item of a list. -/
def crowded (n : Nat) : RlpTree := .list [.list (List.replicate n (.list []))]

theorem nested_crowded (n : Nat) : (crowded n).nested = n := by
  change max (listsAll (List.replicate n (.list []))) 0 = n
  rw [listsAll_replicate]
  exact Nat.max_zero n

theorem length_crowded_lt {n : Nat} (h : n < 2 ^ 63) : (crowded n).encode.length < 2 ^ 64 := by
  have hinner : (encodeAll (List.replicate n (.list []))).length = n := by
    rw [encodeAll_replicate, List.length_replicate]
  have hlist : (rlpEncodeList (encodeAll (List.replicate n (.list [])))).length ≤ n + 9 := by
    have hle := length_rlpEncodeList_le (encodeAll (List.replicate n (.list [])))
    rw [hinner] at hle
    exact hle (by omega)
  have houter : encodeAll [.list (List.replicate n (.list []))] =
      rlpEncodeList (encodeAll (List.replicate n (.list []))) := by
    rw [encodeAll, encodeAll, List.append_nil, encode]
  rw [crowded, encode, houter]
  have hle := length_rlpEncodeList_le
    (rlpEncodeList (encodeAll (List.replicate n (.list [])))) (by omega)
  omega

/-- The canonical encoding of a list with 521217 lists in its only item is rejected: the records
of the validator do not fit the arena. -/
theorem crowded_list_rejected :
    let _ : Stray := ⟨.outOfFuel⟩
    let b := Buffer.ofBytes 2147483648 (crowded 521217).encode
    b.bytes b.start b.len = (crowded 521217).encode ∧
      ¬ ∃ it s', rlpDecodeFullyAt b b.start b.len memInit = .ok it s' := by
  have hbytes := Buffer.bytes_ofBytes 2147483648 (length_crowded_lt (n := 521217) (by decide))
  intro _ b
  refine ⟨hbytes, fun hok => ?_⟩
  have haccepts := accepts_decodeFully (b := b) memInit_sound
  obtain ⟨t, ht, hroom⟩ := haccepts.succeeds.mp hok
  obtain rfl := haccepts.unique t _ ht hbytes
  rw [nested_crowded] at hroom
  exact absurd hroom (by decide)

end StatelessGuest
