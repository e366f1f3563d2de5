import StatelessGuest.Tx.Encode

/-!
# Transactions round trip

A field is decoded to a value exactly if it is the encoding of the value, so the decoder accepts the
encodings of valid transactions and nothing else.

* `txScalarU256_eq_ok`, `decodeAccess_eq_ok` and others: what a field decoder accepts.
* `Tx.Valid`: what a transaction of a type has.
* `decode_transaction_iff`: a transaction has one envelope, and an envelope one transaction.
-/

namespace StatelessGuest

open RlpTree (encodeAll)
open Mpt (sliceAt rlpSlices rlpItem_tree rlpSlices_encodeAll rlpDecodeFully_tree)

/-! ## Bytes of words -/

theorem foldl_word {bs : Bytes} (h : bs.length ≤ 8) :
    (bs.foldl (fun v b => v <<< 8 ||| BitVec.ofNat 64 b.toNat) 0 : Word) =
      BitVec.ofNat 64 (beNat bs) := by
  induction bs using List.reverseRecOn with
  | nil => rfl
  | append_singleton bs b ih =>
    rw [List.length_append, List.length_singleton] at h
    have hlt : beNat bs < 2 ^ 56 :=
      Nat.lt_of_lt_of_le (beNat_lt bs) (Nat.pow_le_pow_right (by decide) (show _ ≤ 7 by omega))
    rw [List.foldl_append, ih (by omega), beNat_append_singleton]
    exact shift_or_byte hlt b

/-! ## Strings -/

/-- A check passes if its condition does not hold. -/
theorem check_eq_ok {α : Type} {p : Prop} [Decidable p] {e : Exn} {x : Except Exn α} {a : α} :
    (if p then .error e else x) = .ok a ↔ ¬ p ∧ x = .ok a := by
  constructor
  · intro hrun
    split at hrun
    · cases hrun
    · next hp => exact ⟨hp, hrun⟩
  · rintro ⟨hp, hrun⟩
    rw [if_neg hp, hrun]

variable {t : RlpTree} {m : Nat}

/-- The item of a string. -/
theorem rlpItem_str {α : Type} {bs : Bytes} (hlt : (RlpTree.str bs).encode.length < 2 ^ 64)
    (f : RlpItem → Except Exn α) :
    ∃ it, (rlpItem (RlpTree.str bs).encode >>= f) = f it ∧ it.isList = false ∧
      it.payload = bs.length ∧ it.payloadOf (RlpTree.str bs).encode = bs := by
  obtain ⟨it, hrun, hit⟩ := rlpItem_tree hlt
  exact ⟨it, by rw [hrun]; rfl, hit⟩

/-- The item of a list. -/
theorem rlpItem_list {α : Type} {ts : List RlpTree}
    (hlt : (RlpTree.list ts).encode.length < 2 ^ 64) (f : RlpItem → Except Exn α) :
    ∃ it, (rlpItem (RlpTree.list ts).encode >>= f) = f it ∧ it.isList = true ∧
      it.payloadOf (RlpTree.list ts).encode = encodeAll ts := by
  obtain ⟨it, hrun, hl, -, hp⟩ := rlpItem_tree hlt
  exact ⟨it, by rw [hrun]; rfl, hl, hp⟩

theorem txScalarItem_eq_ok {f : Bytes} (hlt : t.encode.length < 2 ^ 64) :
    txScalarItem t.encode m = .ok f ↔
      t = .str f ∧ f.head? ≠ some 0 ∧ (m = 0 ∨ f.length ≤ m) := by
  unfold txScalarItem
  cases t with
  | list ts =>
    obtain ⟨it, hrun, hl, hp⟩ := rlpItem_list hlt (fun it => _)
    rw [hrun, hl]
    simp
  | str bs =>
    obtain ⟨it, hrun, hl, hn, hp⟩ := rlpItem_str hlt (fun it => _)
    have hm : ¬ (m ≠ 0 ∧ m < bs.length) ↔ m = 0 ∨ bs.length ≤ m := by omega
    rw [hrun, hl, hn, hp]
    simp only [RlpTree.str.injEq, Bool.false_eq_true, if_false]
    rw [check_eq_ok, check_eq_ok, hm, Except.ok.injEq]
    constructor
    · rintro ⟨hhead, hlen, rfl⟩
      exact ⟨rfl, hhead, hlen⟩
    · rintro ⟨rfl, hhead, hlen⟩
      exact ⟨hhead, hlen, rfl⟩

theorem txScalarU256_eq_ok {v : U256} (hlt : t.encode.length < 2 ^ 64) (hm : m = 0 ∨ 32 ≤ m) :
    txScalarU256 t.encode m = .ok v ↔ t = u256Tree v := by
  rw [txScalarU256, except_bind_eq_ok]
  constructor
  · rintro ⟨f, hf, h⟩
    obtain ⟨rfl, hhead, -⟩ := (txScalarItem_eq_ok hlt).mp hf
    obtain ⟨hlen, h⟩ := check_eq_ok.mp h
    have hbe : beNat f < 2 ^ 256 := Nat.lt_of_lt_of_le (beNat_lt f)
      (Nat.pow_le_pow_right (n := 256) (by decide) (show _ ≤ 32 by omega))
    rw [← Except.ok.inj h, u256Tree, u256FromBe, BitVec.toNat_ofNat, Nat.mod_eq_of_lt hbe,
      rlpBe_beNat hhead]
  · rintro rfl
    have hle : rlpBeLen v.toNat ≤ 32 := rlpBeLen_le (Nat.lt_of_lt_of_eq v.isLt (by decide))
    have hlen := length_rlpBe v.toNat
    refine ⟨rlpBe v.toNat, (txScalarItem_eq_ok hlt).mpr
      ⟨rfl, head_rlpBe _, hm.imp_right fun h => by omega⟩, ?_⟩
    rw [if_neg (by omega), u256FromBe, beNat_rlpBe, BitVec.ofNat_toNat, BitVec.setWidth_eq]

theorem txScalarWord_eq_ok {w : Word} {code : Nat} (hlt : t.encode.length < 2 ^ 64) :
    txScalarWord t.encode m code = .ok w ↔ t = wordTree w ∧ (m = 0 ∨ rlpBeLen w.toNat ≤ m) := by
  rw [txScalarWord, except_bind_eq_ok]
  constructor
  · rintro ⟨f, hf, h⟩
    obtain ⟨rfl, hhead, hm⟩ := (txScalarItem_eq_ok hlt).mp hf
    obtain ⟨hlen, h⟩ := check_eq_ok.mp h
    have hbe : beNat f < 2 ^ 64 := Nat.lt_of_lt_of_le (beNat_lt f)
      (Nat.pow_le_pow_right (n := 256) (by decide) (show _ ≤ 8 by omega))
    rw [foldl_word (by omega)] at h
    have hw : rlpBe w.toNat = f := by
      rw [← Except.ok.inj h, BitVec.toNat_ofNat, Nat.mod_eq_of_lt hbe, rlpBe_beNat hhead]
    refine ⟨by rw [wordTree, hw], ?_⟩
    rwa [← length_rlpBe, hw]
  · rintro ⟨rfl, hm⟩
    have hle : rlpBeLen w.toNat ≤ 8 := rlpBeLen_le w.isLt
    have hlen := length_rlpBe w.toNat
    refine ⟨rlpBe w.toNat, (txScalarItem_eq_ok hlt).mpr
      ⟨rfl, head_rlpBe _, hm.imp_right fun h => by omega⟩, ?_⟩
    rw [if_neg (by omega), foldl_word (by omega), beNat_rlpBe, BitVec.ofNat_toNat,
      BitVec.setWidth_eq]

theorem txBytesItem_eq_ok {bs : Bytes} (hlt : t.encode.length < 2 ^ 64) :
    txBytesItem t.encode = .ok bs ↔ t = .str bs := by
  unfold txBytesItem
  cases t with
  | list ts =>
    obtain ⟨it, hrun, hl, hp⟩ := rlpItem_list hlt (fun it => _)
    rw [hrun, hl]
    simp
  | str cs =>
    obtain ⟨it, hrun, hl, hn, hp⟩ := rlpItem_str hlt (fun it => _)
    rw [hrun, hl, hp]
    simp

theorem txFixedBytes_eq_ok {bs : Bytes} {width : Nat} (hlt : t.encode.length < 2 ^ 64) :
    txFixedBytes t.encode width = .ok bs ↔ t = .str bs ∧ bs.length = width := by
  unfold txFixedBytes
  cases t with
  | list ts =>
    obtain ⟨it, hrun, hl, hp⟩ := rlpItem_list hlt (fun it => _)
    rw [hrun, hl]
    simp
  | str cs =>
    obtain ⟨it, hrun, hl, hn, hp⟩ := rlpItem_str hlt (fun it => _)
    rw [hrun, hl, hn, hp]
    simp only [RlpTree.str.injEq, Bool.false_eq_true, if_false]
    rw [check_eq_ok, not_not, Except.ok.injEq]
    constructor
    · rintro ⟨hlen, rfl⟩
      exact ⟨rfl, hlen⟩
    · rintro ⟨rfl, hlen⟩
      exact ⟨hlen, rfl⟩

theorem ofNat_eq_address {bs : Bytes} {a : Address} (h : bs.length = 20) :
    BitVec.ofNat 160 (beNat bs) = a ↔ bs = addrBytes a := by
  constructor
  · intro ha
    rw [← ha, addrBytes_ofNat h]
  · intro hbs
    rw [hbs, beNat_addrBytes, BitVec.ofNat_toNat, BitVec.setWidth_eq]

theorem txAddress_eq_ok {a : Address} (hlt : t.encode.length < 2 ^ 64) :
    txAddress t.encode = .ok a ↔ t = .str (addrBytes a) := by
  rw [txAddress, except_bind_eq_ok]
  constructor
  · rintro ⟨bs, hbs, h⟩
    obtain ⟨rfl, hlen⟩ := (txFixedBytes_eq_ok hlt).mp hbs
    rw [← (ofNat_eq_address hlen).mp (Except.ok.inj h)]
  · rintro rfl
    have hlen : (addrBytes a).length = 20 := length_beBytes 20 _
    exact ⟨_, (txFixedBytes_eq_ok hlt).mpr ⟨rfl, hlen⟩,
      congrArg Except.ok ((ofNat_eq_address hlen).mpr rfl)⟩

theorem txHash_eq_ok {h : Hash} (hlt : t.encode.length < 2 ^ 64) :
    txHash t.encode = .ok h ↔ t = hashTree h := by
  rw [txHash, except_bind_eq_ok]
  constructor
  · rintro ⟨bs, hbs, heq⟩
    obtain ⟨rfl, hlen⟩ := (txFixedBytes_eq_ok hlt).mp hbs
    rw [← Except.ok.inj heq, hashTree, hashBytes_ofNat hlen]
  · rintro rfl
    refine ⟨_, (txFixedBytes_eq_ok hlt).mpr ⟨rfl, length_beBytes 32 _⟩, ?_⟩
    rw [beNat_hashBytes, BitVec.ofNat_toNat, BitVec.setWidth_eq]
    rfl

theorem txToItem_eq_ok {dest : Option Address} (hlt : t.encode.length < 2 ^ 64) :
    txToItem t.encode = .ok dest ↔ t = toTree dest := by
  unfold txToItem
  cases t with
  | list ts =>
    obtain ⟨it, hrun, hl, hp⟩ := rlpItem_list hlt (fun it => _)
    rw [hrun, hl]
    cases dest <;> simp [toTree]
  | str bs =>
    obtain ⟨it, hrun, hl, hn, hp⟩ := rlpItem_str hlt (fun it => _)
    rw [hrun, hl, hn, hp]
    simp only [Bool.false_eq_true, if_false]
    by_cases hnil : bs.length = 0
    · obtain rfl := List.length_eq_zero_iff.mp hnil
      rw [if_pos hnil]
      cases dest with
      | none => simp [toTree]
      | some a =>
        have hne : addrBytes a ≠ [] := fun h => by
          have hlen : (addrBytes a).length = 20 := length_beBytes 20 _
          rw [h] at hlen
          cases hlen
        simp [toTree, hne.symm]
    · have hne : bs ≠ [] := fun h => hnil (h ▸ rfl)
      rw [if_neg hnil]
      by_cases hlen : bs.length = 20
      · rw [if_neg (not_not.mpr hlen), Except.ok.injEq]
        cases dest with
        | none => simp [toTree, hne]
        | some a =>
          rw [Option.some.injEq, toTree, RlpTree.str.injEq]
          exact ofNat_eq_address hlen
      · rw [if_pos hlen]
        refine ⟨fun h => (by cases h), fun h => ?_⟩
        cases dest with
        | none => exact absurd (RlpTree.str.inj h) hne
        | some a => exact absurd (RlpTree.str.inj h ▸ length_beBytes 20 _) hlen

/-! ## Lists -/

theorem txListItem_eq_ok {p : Bytes} (hlt : t.encode.length < 2 ^ 64) :
    txListItem t.encode = .ok p ↔ ∃ ts, t = .list ts ∧ p = encodeAll ts := by
  unfold txListItem
  cases t with
  | str bs =>
    obtain ⟨it, hrun, hl, hn, hp⟩ := rlpItem_str hlt (fun it => _)
    rw [hrun, hl]
    simp
  | list ts =>
    obtain ⟨it, hrun, hl, hp⟩ := rlpItem_list hlt (fun it => _)
    rw [hrun, hl, hp]
    simp [eq_comm]

theorem txRecord_eq_ok {n code : Nat} {ent : List Bytes} (hlt : t.encode.length < 2 ^ 64) :
    txRecord t.encode n code = .ok ent ↔
      ∃ ts, t = .list ts ∧ ts.length = n ∧ ent = ts.map RlpTree.encode := by
  unfold txRecord
  cases t with
  | str bs =>
    obtain ⟨it, hrun, hl, hn, hp⟩ := rlpItem_str hlt (fun it => _)
    rw [hrun, hl]
    simp
  | list ts =>
    obtain ⟨it, hrun, hl, hp⟩ := rlpItem_list hlt (fun it => _)
    have hts := Nat.lt_of_le_of_lt (RlpTree.length_payload_le (.list ts)) hlt
    rw [hrun, if_pos hl, hp, rlpSlices_encodeAll hts]
    change (if (ts.map RlpTree.encode).length ≠ n then _ else _) = _ ↔ _
    rw [List.length_map]
    rw [check_eq_ok, not_not, Except.ok.injEq]
    constructor
    · rintro ⟨hlen, rfl⟩
      exact ⟨ts, rfl, hlen, rfl⟩
    · rintro ⟨us, hus, hlen, rfl⟩
      obtain rfl := RlpTree.list.inj hus
      exact ⟨hlen, rfl⟩

/-- The items of a list are decoded in turn. -/
theorem mapM_eq_ok {α : Type} {f : Bytes → Except Exn α} {g : α → RlpTree} {P : α → Prop}
    {ts : List RlpTree} {l : List α}
    (h : ∀ t ∈ ts, ∀ a, f t.encode = .ok a ↔ t = g a ∧ P a) :
    (ts.map RlpTree.encode).mapM f = .ok l ↔ ts = l.map g ∧ ∀ a ∈ l, P a := by
  induction ts generalizing l with
  | nil =>
    rw [List.map_nil, List.mapM_nil]
    cases l with
    | nil => simp [pure, Except.pure]
    | cons a l => simp [pure, Except.pure]
  | cons t ts ih =>
    have ih := fun l => ih (l := l) fun u hu => h u (List.mem_cons_of_mem t hu)
    rw [List.map_cons, List.mapM_cons, except_bind_eq_ok]
    constructor
    · rintro ⟨a, ha, hrest⟩
      obtain ⟨us, hus, hl⟩ := except_bind_eq_ok.mp hrest
      obtain ⟨rfl, hP⟩ := (h t List.mem_cons_self a).mp ha
      obtain ⟨rfl, hall⟩ := (ih us).mp hus
      obtain rfl := Except.ok.inj hl
      exact ⟨rfl, List.forall_mem_cons.mpr ⟨hP, hall⟩⟩
    · rintro ⟨heq, hall⟩
      cases l with
      | nil => cases heq
      | cons a l =>
        obtain ⟨hhead, htail⟩ := List.cons.inj heq
        obtain ⟨hP, hall⟩ := List.forall_mem_cons.mp hall
        exact ⟨a, (h t List.mem_cons_self a).mpr ⟨hhead, hP⟩,
          except_bind_eq_ok.mpr ⟨l, (ih l).mpr ⟨htail, hall⟩, rfl⟩⟩

theorem slices_mapM_eq_ok {α : Type} {f : Bytes → Except Exn α} {g : α → RlpTree} {P : α → Prop}
    {ts : List RlpTree} {l : List α} (hlt : (encodeAll ts).length < 2 ^ 64)
    (h : ∀ t : RlpTree, t.encode.length < 2 ^ 64 → ∀ a, f t.encode = .ok a ↔ t = g a ∧ P a) :
    (do (← rlpSlices (encodeAll ts)).mapM f) = .ok l ↔ ts = l.map g ∧ ∀ a ∈ l, P a := by
  rw [rlpSlices_encodeAll hlt]
  exact mapM_eq_ok fun t ht => h t (Nat.lt_of_le_of_lt (Mpt.encode_mem_length_le ht) hlt)

theorem listOf_eq_ok {α : Type} {f : Bytes → Except Exn α} {g : α → RlpTree} {P : α → Prop}
    {l : List α} (hlt : t.encode.length < 2 ^ 64)
    (h : ∀ t : RlpTree, t.encode.length < 2 ^ 64 → ∀ a, f t.encode = .ok a ↔ t = g a ∧ P a) :
    (txListItem t.encode >>= fun p => rlpSlices p >>= fun arr => arr.mapM f) = .ok l ↔
      t = .list (l.map g) ∧ ∀ a ∈ l, P a := by
  rw [except_bind_eq_ok]
  constructor
  · rintro ⟨p, hp, hrun⟩
    obtain ⟨ts, rfl, rfl⟩ := (txListItem_eq_ok hlt).mp hp
    have hts := Nat.lt_of_le_of_lt (RlpTree.length_payload_le (.list ts)) hlt
    obtain ⟨rfl, hP⟩ := (slices_mapM_eq_ok hts h).mp hrun
    exact ⟨rfl, hP⟩
  · rintro ⟨rfl, hP⟩
    have hts := Nat.lt_of_le_of_lt (RlpTree.length_payload_le (.list (l.map g))) hlt
    exact ⟨_, (txListItem_eq_ok hlt).mpr ⟨_, rfl, rfl⟩, (slices_mapM_eq_ok hts h).mpr ⟨rfl, hP⟩⟩

/-! ## Places -/

variable {ts us vs : List RlpTree} {k : Nat}

/-- The trees from place `k` on begin with `us`. -/
def Takes (ts : List RlpTree) (k : Nat) (us : List RlpTree) : Prop :=
  ts.drop k = us ++ ts.drop (k + us.length)

theorem takes_nil (ts : List RlpTree) (k : Nat) : Takes ts k [] := rfl

theorem takes_append : Takes ts k (us ++ vs) ↔ Takes ts k us ∧ Takes ts (k + us.length) vs := by
  unfold Takes
  rw [List.length_append, ← Nat.add_assoc, List.append_assoc]
  constructor
  · intro h
    have hvs : ts.drop (k + us.length) = vs ++ ts.drop (k + us.length + vs.length) := by
      rw [← List.drop_drop, h, List.drop_left]
    exact ⟨h.trans (congrArg (us ++ ·) hvs.symm), hvs⟩
  · rintro ⟨hus, hvs⟩
    exact hus.trans (congrArg (us ++ ·) hvs)

theorem takes_cons {u : RlpTree} : Takes ts k (u :: us) ↔ Takes ts k [u] ∧ Takes ts (k + 1) us := by
  have h : Takes ts k ([u] ++ us) ↔ _ := takes_append
  exact h

theorem takes_cons_cons {u v : RlpTree} :
    Takes ts k (u :: v :: us) ↔ Takes ts k [u] ∧ Takes ts (k + 1) (v :: us) := takes_cons

theorem takes_all (hlen : ts.length = us.length) : Takes ts 0 us ↔ ts = us := by
  unfold Takes
  rw [Nat.zero_add, ← hlen, List.drop_length, List.append_nil, List.drop_zero]

/-- What is decoded at a place depends on the tree there. -/
theorem at_eq_ok {α : Type} {f : Bytes → Except Exn α} {g : α → RlpTree} {P : α → Prop}
    (hts : (encodeAll ts).length < 2 ^ 64) (hnil : ∀ a, f [] ≠ .ok a)
    (h : ∀ t : RlpTree, t.encode.length < 2 ^ 64 → ∀ a, f t.encode = .ok a ↔ t = g a ∧ P a)
    (k : Nat) (a : α) :
    f (sliceAt (ts.map RlpTree.encode) k) = .ok a ↔ Takes ts k [g a] ∧ P a := by
  have hslice : sliceAt (ts.map RlpTree.encode) k = ((ts.drop k).map RlpTree.encode).headD [] := by
    rw [sliceAt, List.getD_eq_getElem?_getD, List.map_drop, List.headD_eq_head?_getD,
      List.head?_drop]
  have hnext : ts.drop (k + 1) = (ts.drop k).tail := by
    rw [← List.drop_drop, List.drop_one]
  unfold Takes
  rw [hslice, List.length_singleton, hnext]
  cases hk : ts.drop k with
  | nil => exact ⟨fun hf => absurd hf (hnil a), fun hf => (by cases hf.1)⟩
  | cons u rest =>
    have hmem : u ∈ ts := List.mem_of_mem_drop (hk ▸ List.mem_cons_self)
    have hu := h u (Nat.lt_of_le_of_lt (Mpt.encode_mem_length_le hmem) hts) a
    rw [List.map_cons, List.headD_cons, hu, List.tail_cons, List.singleton_append, List.cons.injEq,
      eq_self_iff_true, and_true]

theorem rlpItem_nil_ne {α : Type} (f : RlpItem → Except Exn α) (a : α) :
    (rlpItem [] >>= f) ≠ .ok a := by
  intro h
  obtain ⟨it, hit, -⟩ := except_bind_eq_ok.mp h
  cases hit

theorem bind_ne_ok {α β : Type} {x : Except Exn α} (h : ∀ a, x ≠ .ok a) (f : α → Except Exn β)
    (b : β) : (x >>= f) ≠ .ok b := by
  intro hb
  obtain ⟨a, ha, -⟩ := except_bind_eq_ok.mp hb
  exact h a ha

section

variable (hts : (encodeAll ts).length < 2 ^ 64) (k : Nat)
include hts

theorem u256_at {v : U256} (hm : m = 0 ∨ 32 ≤ m) :
    txScalarU256 (sliceAt (ts.map RlpTree.encode) k) m = .ok v ↔ Takes ts k [u256Tree v] := by
  have h := at_eq_ok (f := fun bs => txScalarU256 bs m) (g := u256Tree) (P := fun _ => True) hts
    (bind_ne_ok (rlpItem_nil_ne _) _)
    (fun t ht v => by rw [txScalarU256_eq_ok ht hm, and_true]) k v
  rwa [and_true] at h

theorem word_at {w : Word} {code : Nat} :
    txScalarWord (sliceAt (ts.map RlpTree.encode) k) m code = .ok w ↔
      Takes ts k [wordTree w] ∧ (m = 0 ∨ rlpBeLen w.toNat ≤ m) :=
  at_eq_ok (f := fun bs => txScalarWord bs m code) (g := wordTree) hts
    (bind_ne_ok (rlpItem_nil_ne _) _) (fun _ ht _ => txScalarWord_eq_ok ht) k w

theorem word8_at {w : Word} {code : Nat} (hm : m = 0 ∨ 8 ≤ m) :
    txScalarWord (sliceAt (ts.map RlpTree.encode) k) m code = .ok w ↔ Takes ts k [wordTree w] := by
  have hle : rlpBeLen w.toNat ≤ 8 := rlpBeLen_le w.isLt
  rw [word_at hts]
  exact ⟨fun h => h.1, fun h => ⟨h, hm.imp_right fun h8 => Nat.le_trans hle h8⟩⟩

theorem address_at {a : Address} :
    txAddress (sliceAt (ts.map RlpTree.encode) k) = .ok a ↔ Takes ts k [.str (addrBytes a)] := by
  have h := at_eq_ok (f := txAddress) (g := fun a => .str (addrBytes a)) (P := fun _ => True) hts
    (bind_ne_ok (rlpItem_nil_ne _) _)
    (fun t ht a => by rw [txAddress_eq_ok ht, and_true]) k a
  rwa [and_true] at h

theorem bytes_at {bs : Bytes} :
    txBytesItem (sliceAt (ts.map RlpTree.encode) k) = .ok bs ↔ Takes ts k [.str bs] := by
  have h := at_eq_ok (f := txBytesItem) (g := .str) (P := fun _ => True) hts (rlpItem_nil_ne _)
    (fun t ht bs => by rw [txBytesItem_eq_ok ht, and_true]) k bs
  rwa [and_true] at h

theorem list_at {α : Type} {f : Bytes → Except Exn α} {g : α → RlpTree} {P : α → Prop} {l : List α}
    (h : ∀ t : RlpTree, t.encode.length < 2 ^ 64 → ∀ a, f t.encode = .ok a ↔ t = g a ∧ P a) :
    (txListItem (sliceAt (ts.map RlpTree.encode) k) >>= fun p => rlpSlices p >>= fun arr =>
      arr.mapM f) = .ok l ↔ Takes ts k [.list (l.map g)] ∧ ∀ a ∈ l, P a :=
  at_eq_ok (f := fun bs => txListItem bs >>= fun p => rlpSlices p >>= fun arr => arr.mapM f)
    (g := fun l => .list (l.map g)) (P := fun l => ∀ a ∈ l, P a) hts
    (bind_ne_ok (rlpItem_nil_ne _) _) (fun _ ht _ => listOf_eq_ok ht h) k l

end

/-! ## Entries and authorizations -/

theorem hash_item (t : RlpTree) (ht : t.encode.length < 2 ^ 64) (h : Hash) :
    txHash t.encode = .ok h ↔ t = hashTree h ∧ True := by
  rw [txHash_eq_ok ht, and_true]

/-- The fields of a record that has `n` of them. -/
theorem record_eq_ok {α : Type} {n code : Nat} {f : List Bytes → Except Exn α} {a : α}
    {items : List RlpTree} {Q : Prop} (hn : items.length = n) (hlt : t.encode.length < 2 ^ 64)
    (h : ∀ ts, (encodeAll ts).length < 2 ^ 64 →
      (f (ts.map RlpTree.encode) = .ok a ↔ Takes ts 0 items ∧ Q)) :
    (txRecord t.encode n code >>= f) = .ok a ↔ t = .list items ∧ Q := by
  rw [except_bind_eq_ok]
  constructor
  · rintro ⟨ent, hent, hrun⟩
    obtain ⟨ts, rfl, hlen, rfl⟩ := (txRecord_eq_ok hlt).mp hent
    have hts := Nat.lt_of_le_of_lt (RlpTree.length_payload_le (.list ts)) hlt
    obtain ⟨htakes, hq⟩ := (h ts hts).mp hrun
    exact ⟨congrArg _ ((takes_all (hlen.trans hn.symm)).mp htakes), hq⟩
  · rintro ⟨rfl, hq⟩
    have hts := Nat.lt_of_le_of_lt (RlpTree.length_payload_le (.list items)) hlt
    exact ⟨_, (txRecord_eq_ok hlt).mpr ⟨_, rfl, hn, rfl⟩,
      (h items hts).mpr ⟨(takes_all rfl).mpr rfl, hq⟩⟩

theorem decodeAccess_eq_ok (t : RlpTree) (hlt : t.encode.length < 2 ^ 64) (a : Access) :
    decodeAccess t.encode = .ok a ↔ t = a.tree ∧ True := by
  refine record_eq_ok rfl hlt fun ts hts => ?_
  have hlist := fun l => list_at (l := l) hts 1 hash_item
  rw [takes_cons]
  constructor
  · intro h
    obtain ⟨addr, haddr, h⟩ := except_bind_eq_ok.mp h
    obtain ⟨p, hp, h⟩ := except_bind_eq_ok.mp h
    obtain ⟨slots, hslots, h⟩ := except_bind_eq_ok.mp h
    obtain ⟨keys, hkeys, h⟩ := except_bind_eq_ok.mp h
    obtain rfl := Except.ok.inj h
    have hall := (hlist keys).mp (except_bind_eq_ok.mpr ⟨p, hp,
      except_bind_eq_ok.mpr ⟨slots, hslots, hkeys⟩⟩)
    exact ⟨⟨(address_at hts 0).mp haddr, hall.1⟩, trivial⟩
  · rintro ⟨⟨haddr, hslots⟩, -⟩
    obtain ⟨p, hp, hrun⟩ := except_bind_eq_ok.mp ((hlist a.slots).mpr ⟨hslots, fun _ _ => trivial⟩)
    obtain ⟨slots, hslots, hkeys⟩ := except_bind_eq_ok.mp hrun
    exact except_bind_eq_ok.mpr ⟨a.addr, (address_at hts 0).mpr haddr,
      except_bind_eq_ok.mpr ⟨p, hp, except_bind_eq_ok.mpr ⟨slots, hslots,
        except_bind_eq_ok.mpr ⟨a.slots, hkeys, rfl⟩⟩⟩⟩

theorem byte_iff (w : Word) : rlpBeLen w.toNat ≤ 1 ↔ w.toNat < 256 := by
  constructor
  · intro h
    have hlt := lt_rlpBeLen w.toNat
    exact Nat.lt_of_lt_of_le hlt (Nat.pow_le_pow_right (n := 256) (by decide) h)
  · intro h
    exact rlpBeLen_le (n := 1) h

theorem decodeAuthorization_eq_ok (t : RlpTree) (hlt : t.encode.length < 2 ^ 64) (a : Auth) :
    decodeAuthorization t.encode = .ok a ↔ t = a.tree ∧ a.yParity.toNat < 256 := by
  refine record_eq_ok rfl hlt fun ts hts => ?_
  have h32 : (32 : Nat) = 0 ∨ 32 ≤ 32 := .inr (Nat.le_refl 32)
  have h8 : (8 : Nat) = 0 ∨ 8 ≤ 8 := .inr (Nat.le_refl 8)
  simp only [except_bind_eq_ok, u256_at hts _ h32, address_at hts, word8_at hts _ h8, word_at hts,
    takes_cons_cons, Nat.zero_add, Nat.add_assoc]
  constructor
  · rintro ⟨c, hc, addr, haddr, n, hn, y, hy, r, hr, s, hs, heq⟩
    obtain rfl := Except.ok.inj heq
    exact ⟨⟨hc, haddr, hn, hy.1, hr, hs⟩, (byte_iff y).mp (hy.2.resolve_left (by decide))⟩
  · rintro ⟨⟨hc, haddr, hn, hy, hr, hs⟩, hbyte⟩
    exact ⟨a.chainId, hc, a.addr, haddr, a.nonce, hn, a.yParity,
      ⟨hy, .inr ((byte_iff a.yParity).mpr hbyte)⟩, a.r, hr, a.s, hs, rfl⟩

/-! ## Fields that depend on the type -/

section

variable (hts : (encodeAll ts).length < 2 ^ 64) (k : Nat) (kind : TxType)
include hts

theorem chainId_at {c : Word} : decodeChainId kind (ts.map RlpTree.encode) = .ok c ↔
    Takes ts 0 (chainItems kind c) ∧ (kind = .legacy → c = 0) := by
  unfold decodeChainId chainItems
  by_cases h : kind = .legacy
  · rw [if_pos h, if_pos h, Except.ok.injEq]
    exact ⟨fun heq => ⟨takes_nil ts 0, fun _ => heq.symm⟩, fun hc => (hc.2 h).symm⟩
  · rw [if_neg h, if_neg h, word8_at hts 0 (.inr (Nat.le_refl 8))]
    exact ⟨fun hc => ⟨hc, fun hl => absurd hl h⟩, fun hc => hc.1⟩

theorem nonce_at {n : U256} : decodeNonce kind (sliceAt (ts.map RlpTree.encode) k) = .ok n ↔
    Takes ts k [u256Tree n] ∧ (kind = .setCode → n.toNat < 2 ^ 64) := by
  unfold decodeNonce
  by_cases h : kind = .setCode
  · rw [if_pos h, except_bind_eq_ok]
    constructor
    · rintro ⟨w, hw, hn⟩
      have hnat : n.toNat = w.toNat := by
        rw [← Except.ok.inj hn, u256FromWord, BitVec.toNat_setWidth,
          Nat.mod_eq_of_lt (Nat.lt_trans w.isLt (by decide))]
      refine ⟨?_, fun _ => hnat ▸ w.isLt⟩
      rw [u256Tree, hnat]
      exact (word8_at hts k (.inr (Nat.le_refl 8))).mp hw
    · rintro ⟨htakes, hn⟩
      have hnat : (n.setWidth 64).toNat = n.toNat := by
        rw [BitVec.toNat_setWidth, Nat.mod_eq_of_lt (hn h)]
      refine ⟨n.setWidth 64, (word8_at hts k (.inr (Nat.le_refl 8))).mpr ?_, ?_⟩
      · rwa [wordTree, hnat]
      · refine congrArg Except.ok (BitVec.eq_of_toNat_eq ?_)
        rw [u256FromWord, BitVec.toNat_setWidth, hnat, Nat.mod_eq_of_lt n.isLt]
  · rw [if_neg h, u256_at hts k (.inr (Nat.le_refl 32))]
    exact ⟨fun hn => ⟨hn, fun hs => absurd hs h⟩, fun hn => hn.1⟩

theorem fees_at {fees : U256 × U256 × U256} :
    decodeFees kind (ts.map RlpTree.encode) k = .ok fees ↔ Takes ts k (feeItems kind fees) ∧
      (kind.num ≤ 1 → fees.2.1 = 0 ∧ fees.2.2 = 0) ∧ (1 < kind.num → fees.1 = 0) := by
  have hzero : (0 : Nat) = 0 ∨ 32 ≤ 0 := .inl rfl
  obtain ⟨price, priority, fee⟩ := fees
  unfold decodeFees feeItems
  by_cases h : kind.num ≤ 1
  · rw [if_pos h, if_pos h, except_bind_eq_ok]
    constructor
    · rintro ⟨v, hv, heq⟩
      cases heq
      exact ⟨(u256_at hts k hzero).mp hv, fun _ => ⟨rfl, rfl⟩,
        fun h' => absurd h (Nat.not_le.mpr h')⟩
    · rintro ⟨htakes, hfees, -⟩
      obtain ⟨rfl, rfl⟩ := hfees h
      exact ⟨price, (u256_at hts k hzero).mpr htakes, rfl⟩
  · rw [if_neg h, if_neg h, except_bind_eq_ok, takes_cons]
    constructor
    · rintro ⟨v, hv, hrest⟩
      obtain ⟨v', hv', heq⟩ := except_bind_eq_ok.mp hrest
      cases heq
      exact ⟨⟨(u256_at hts k hzero).mp hv, (u256_at hts (k + 1) hzero).mp hv'⟩,
        fun h' => absurd h' h, fun _ => rfl⟩
    · rintro ⟨⟨hpriority, hfee⟩, -, hprice⟩
      obtain rfl := hprice (Nat.lt_of_not_le h)
      exact ⟨priority, (u256_at hts k hzero).mpr hpriority,
        except_bind_eq_ok.mpr ⟨fee, (u256_at hts (k + 1) hzero).mpr hfee, rfl⟩⟩

theorem to_at {dest : Option Address} :
    decodeTo kind (sliceAt (ts.map RlpTree.encode) k) = .ok dest ↔
      Takes ts k [toTree dest] ∧ (3 ≤ kind.num → dest ≠ none) := by
  unfold decodeTo
  by_cases h : 3 ≤ kind.num
  · rw [if_pos h, except_bind_eq_ok]
    constructor
    · rintro ⟨a, ha, heq⟩
      obtain rfl := Except.ok.inj heq
      exact ⟨(address_at hts k).mp ha, fun _ => Option.some_ne_none a⟩
    · rintro ⟨htakes, hne⟩
      obtain ⟨a, rfl⟩ := Option.ne_none_iff_exists'.mp (hne h)
      exact ⟨a, (address_at hts k).mpr htakes, rfl⟩
  · have hat := at_eq_ok (f := txToItem) (g := toTree) (P := fun _ => True) hts (rlpItem_nil_ne _)
      (fun t ht dest => by rw [txToItem_eq_ok ht, and_true]) k dest
    rw [and_true] at hat
    rw [if_neg h, hat]
    exact ⟨fun hd => ⟨hd, fun h' => absurd h' h⟩, fun hd => hd.1⟩

theorem accesses_at {recs : List Access} :
    decodeAccesses kind (ts.map RlpTree.encode) k = .ok recs ↔
      Takes ts k (accessItems kind recs) ∧ (kind = .legacy → recs = []) := by
  unfold decodeAccesses accessItems
  by_cases h : kind = .legacy
  · rw [if_pos h, if_pos h, Except.ok.injEq]
    exact ⟨fun heq => ⟨takes_nil ts k, fun _ => heq.symm⟩, fun hc => (hc.2 h).symm⟩
  · rw [if_neg h, if_neg h]
    refine (list_at hts k decodeAccess_eq_ok).trans ?_
    exact ⟨fun hc => ⟨hc.1, fun hl => absurd hl h⟩, fun hc => ⟨hc.1, fun _ _ => trivial⟩⟩

theorem blobs_at {blobs : U256 × List Hash} :
    decodeBlobs kind (ts.map RlpTree.encode) k = .ok blobs ↔
      Takes ts k (blobItems kind blobs) ∧ (kind ≠ .blob → blobs = (0, [])) := by
  unfold decodeBlobs blobItems
  by_cases h : kind = .blob
  · have hlist := fun l => list_at (l := l) hts (k + 1) hash_item
    rw [if_pos h, if_pos h, except_bind_eq_ok, takes_cons]
    constructor
    · rintro ⟨fee, hfee, hrest⟩
      obtain ⟨p, hp, hrest⟩ := except_bind_eq_ok.mp hrest
      obtain ⟨hashes, hhashes, heq⟩ := except_bind_eq_ok.mp hrest
      obtain rfl := Except.ok.inj heq
      exact ⟨⟨(u256_at hts k (.inr (Nat.le_refl 32))).mp hfee,
        ((hlist hashes).mp (except_bind_eq_ok.mpr ⟨p, hp, hhashes⟩)).1⟩, fun hne => absurd h hne⟩
    · rintro ⟨⟨hfee, hhashes⟩, -⟩
      obtain ⟨p, hp, hrun⟩ :=
        except_bind_eq_ok.mp ((hlist blobs.2).mpr ⟨hhashes, fun _ _ => trivial⟩)
      exact ⟨blobs.1, (u256_at hts k (.inr (Nat.le_refl 32))).mpr hfee,
        except_bind_eq_ok.mpr ⟨p, hp, except_bind_eq_ok.mpr ⟨blobs.2, hrun, rfl⟩⟩⟩
  · rw [if_neg h, if_neg h, Except.ok.injEq]
    exact ⟨fun heq => ⟨takes_nil ts k, fun _ => heq.symm⟩, fun hc => (hc.2 h).symm⟩

theorem auths_at {recs : List Auth} :
    decodeAuths kind (ts.map RlpTree.encode) k = .ok recs ↔
      Takes ts k (authItems kind recs) ∧ (kind ≠ .setCode → recs = []) ∧
        ∀ a ∈ recs, a.yParity.toNat < 256 := by
  unfold decodeAuths authItems
  by_cases h : kind = .setCode
  · rw [if_pos h, if_pos h]
    refine (list_at hts k decodeAuthorization_eq_ok).trans ?_
    exact ⟨fun hc => ⟨hc.1, fun hne => absurd h hne, hc.2⟩, fun hc => ⟨hc.1, hc.2.2⟩⟩
  · rw [if_neg h, if_neg h, Except.ok.injEq]
    constructor
    · rintro rfl
      exact ⟨takes_nil ts k, fun _ => rfl, fun a ha => (by cases ha)⟩
    · exact fun hc => (hc.2.1 h).symm

end

/-! ## Transactions -/

/-- A transaction has the fields of its type, and is not too long for a memory. -/
structure Tx.Valid (tx : Tx) : Prop where
  chainId : tx.type = .legacy → tx.chainId = 0
  nonce : tx.type = .setCode → tx.nonce.toNat < 2 ^ 64
  fees : tx.type.num ≤ 1 → tx.maxPriorityFee = 0 ∧ tx.maxFee = 0
  price : 1 < tx.type.num → tx.gasPrice = 0
  receiver : 3 ≤ tx.type.num → tx.toAddr ≠ none
  accessList : tx.type = .legacy → tx.accessList = []
  blobs : tx.type ≠ .blob → (tx.maxFeePerBlobGas, tx.blobHashes) = (0, [])
  authorizations : tx.type ≠ .setCode → tx.authorizations = []
  yParity : ∀ a ∈ tx.authorizations, a.yParity.toNat < 256

theorem length_chainItems (t : TxType) (c : Word) :
    (chainItems t c).length = if t = .legacy then 0 else 1 := by
  unfold chainItems
  split <;> rfl

theorem length_feeItems (t : TxType) (fees : U256 × U256 × U256) :
    (feeItems t fees).length = if t.num ≤ 1 then 1 else 2 := by
  unfold feeItems
  split <;> rfl

theorem length_accessItems (t : TxType) (recs : List Access) :
    (accessItems t recs).length = if t = .legacy then 0 else 1 := by
  unfold accessItems
  split <;> rfl

theorem length_blobItems (t : TxType) (blobs : U256 × List Hash) :
    (blobItems t blobs).length = if t = .blob then 2 else 0 := by
  unfold blobItems
  split <;> rfl

theorem length_authItems (t : TxType) (recs : List Auth) :
    (authItems t recs).length = if t = .setCode then 1 else 0 := by
  unfold authItems
  split <;> rfl

theorem length_txItems (tx : Tx) : (tx.items .full).length = tx.type.fields := by
  unfold Tx.items Tx.signedItems Tx.tailItems
  simp only [List.length_append, length_chainItems, length_feeItems, length_accessItems,
    length_blobItems, length_authItems, List.length_cons, List.length_nil]
  cases tx.type <;> rfl

theorem length_four (a b c d : RlpTree) : [a, b, c, d].length = 4 := rfl

theorem decodeTxFields_eq_ok (hts : (encodeAll ts).length < 2 ^ 64) {kind : TxType} {raw : Bytes}
    {tx : Tx} : decodeTxFields kind (ts.map RlpTree.encode) raw = .ok tx ↔
      (tx.type = kind ∧ tx.raw = raw ∧ tx.Valid) ∧ Takes ts 0 (tx.items .full) := by
  have h32 : (32 : Nat) = 0 ∨ 32 ≤ 32 := .inr (Nat.le_refl 32)
  have h0 : (0 : Nat) = 0 ∨ 8 ≤ 0 := .inl rfl
  simp only [decodeTxFields, except_bind_eq_ok, chainId_at hts, nonce_at hts, fees_at hts,
    word8_at hts _ h0, to_at hts, u256_at hts _ h32, bytes_at hts, accesses_at hts, blobs_at hts,
    auths_at hts, Tx.items, Tx.signedItems, Tx.tailItems, takes_append, takes_cons_cons,
    List.length_append, length_chainItems, length_feeItems, length_accessItems, length_blobItems,
    length_authItems, List.length_singleton, length_four, Nat.zero_add, Nat.add_assoc]
  constructor
  · rintro ⟨c, hc, n, hn, fees, hf, g, hg, d, hd, v, hv, bs, hb, al, hal, bl, hbl, au, hau, y, hy,
      r, hr, s, hs, heq⟩
    obtain rfl := Except.ok.inj heq
    refine ⟨⟨rfl, rfl, ⟨hc.2, hn.2, hf.2.1, hf.2.2, hd.2, hal.2, hbl.2, hau.2.1, hau.2.2⟩⟩, ?_⟩
    exact ⟨⟨⟨⟨⟨⟨⟨hc.1, hn.1⟩, hf.1⟩, hg, hd.1, hv, hb⟩, hal.1⟩, hbl.1⟩, hau.1⟩, hy, hr, hs⟩
  · rintro ⟨⟨rfl, rfl, hv⟩, ⟨⟨⟨⟨⟨⟨hc, hn⟩, hf⟩, hg, hd, hvalue, hb⟩, hal⟩, hbl⟩, hau⟩, hy, hr, hs⟩
    exact ⟨tx.chainId, ⟨hc, hv.chainId⟩, tx.nonce, ⟨hn, hv.nonce⟩, _, ⟨hf, hv.fees, hv.price⟩,
      tx.gas, hg, tx.toAddr, ⟨hd, hv.receiver⟩, tx.value, hvalue, tx.data, hb, tx.accessList,
      ⟨hal, hv.accessList⟩, _, ⟨hbl, hv.blobs⟩, tx.authorizations,
      ⟨hau, hv.authorizations, hv.yParity⟩, tx.v, hy, tx.r, hr, tx.s, hs, rfl⟩

/-! ## Envelopes -/

theorem TxType.ofByte_head {t : TxType} (h : t ≠ .legacy) :
    TxType.ofByte (UInt8.ofNat t.num) = some t := by
  cases t with
  | legacy => exact absurd rfl h
  | accessList => rfl
  | feeMarket => rfl
  | blob => rfl
  | setCode => rfl

theorem TxType.ofByte_eq_some {t : TxType} {b0 : UInt8} (h : TxType.ofByte b0 = some t) :
    t ≠ .legacy → b0 = UInt8.ofNat t.num := by
  unfold TxType.ofByte at h
  intro ht
  split at h
  · next hb =>
    cases h
    exact hb
  split at h
  · next hb =>
    cases h
    exact hb
  split at h
  · next hb =>
    cases h
    exact hb
  split at h
  · next hb =>
    cases h
    exact hb
  split at h
  · cases h
    exact absurd rfl ht
  · cases h

/-- An envelope is the byte of its type and the RLP. -/
theorem TxType.head_body {t : TxType} {b0 : UInt8} {bs : Bytes} (hb : bs.head? = some b0)
    (h : TxType.ofByte b0 = some t) : bs = t.head ++ t.body bs := by
  unfold TxType.head TxType.body
  by_cases ht : t = .legacy
  · rw [if_neg (not_not.mpr ht), if_pos ht, List.nil_append]
  · obtain ⟨rest, rfl⟩ := List.head?_eq_some_iff.mp hb
    rw [if_pos ht, if_neg ht, TxType.ofByte_eq_some h ht]
    rfl

theorem TxType.body_head (t : TxType) (bs : Bytes) : t.body (t.head ++ bs) = bs := by
  unfold TxType.head TxType.body
  by_cases ht : t = .legacy
  · rw [if_neg (not_not.mpr ht), if_pos ht, List.nil_append]
  · rw [if_pos ht, if_neg ht]
    rfl

/-- The first byte of a list that is not too long. -/
theorem ofByte_list {payload : Bytes} (h : payload.length < 2 ^ 56) :
    ∃ b0, (rlpEncodeList payload).head? = some b0 ∧ TxType.ofByte b0 = some .legacy := by
  have hle : rlpBeLen payload.length ≤ 7 := rlpBeLen_le (Nat.lt_of_lt_of_eq h (by decide))
  have hbyte : ∀ n, n ≤ 62 → TxType.ofByte (UInt8.ofNat (192 + n)) = some .legacy := by decide
  unfold rlpEncodeList rlpEncodeListHeader rlpWriteHeader
  split
  · next hshort => exact ⟨_, rfl, hbyte _ (by omega)⟩
  · next hlong =>
    refine ⟨_, rfl, ?_⟩
    have hbyte := hbyte (55 + rlpBeLen payload.length) (by omega)
    rwa [← Nat.add_assoc] at hbyte

theorem ofByte_envelope (t : TxType) {items : List RlpTree}
    (h : (encodeAll items).length < 2 ^ 56) :
    ∃ b0, (t.head ++ (RlpTree.list items).encode).head? = some b0 ∧ TxType.ofByte b0 = some t := by
  by_cases ht : t = .legacy
  · obtain ⟨b0, hhead, hb⟩ := ofByte_list h
    refine ⟨b0, ?_, ht ▸ hb⟩
    rw [TxType.head, if_neg (not_not.mpr ht)]
    exact hhead
  · refine ⟨_, ?_, TxType.ofByte_head ht⟩
    rw [TxType.head, if_pos ht]
    rfl

/-- The bytes of one item. -/
theorem rlpDecodeFully_list {bs : Bytes} {it : RlpItem} (h : rlpDecodeFully bs = .ok it)
    (hl : it.isList = true) :
    ∃ ts, bs = (RlpTree.list ts).encode ∧ it.payloadOf bs = encodeAll ts := by
  obtain ⟨hitem, htotal⟩ := rlpDecodeFully_eq_ok.mp h
  obtain ⟨t, ht⟩ := describes_of_rlpItem hitem
  have hbs : bs = t.encode := by
    have hstarts := ht.starts
    rwa [htotal, List.drop_length, List.append_nil] at hstarts
  cases t with
  | str cs =>
    have hfalse : true = false := hl.symm.trans ht.isList
    cases hfalse
  | list ts => exact ⟨ts, hbs, ht.payload⟩

theorem decodeTransactionRlp_eq_ok {bs : Bytes} {tx : Tx} (hlt : bs.length < 2 ^ 56) :
    decodeTransactionRlp bs = .ok tx ↔ tx.Valid ∧ tx.raw = bs ∧
      bs = tx.type.head ++ (RlpTree.list (tx.items .full)).encode := by
  unfold decodeTransactionRlp
  constructor
  · intro h
    split at h
    · cases h
    next b0 hb =>
    split at h
    · cases h
    next t ht =>
    obtain ⟨top, htop, h⟩ := except_bind_eq_ok.mp h
    split at h
    · next hl =>
      obtain ⟨ts, hbody, hpayload⟩ := rlpDecodeFully_list htop hl
      have hbs := TxType.head_body hb ht
      have hlen := congrArg List.length hbs
      rw [List.length_append, hbody] at hlen
      have hts := RlpTree.length_payload_le (.list ts)
      change (encodeAll ts).length ≤ _ at hts
      obtain ⟨arr, harr, h⟩ := except_bind_eq_ok.mp h
      rw [hpayload, rlpSlices_encodeAll (by omega)] at harr
      obtain rfl := Except.ok.inj harr
      rw [List.length_map] at h
      obtain ⟨hn, h⟩ := check_eq_ok.mp h
      obtain ⟨⟨rfl, hraw, hvalid⟩, htakes⟩ := (decodeTxFields_eq_ok (by omega)).mp h
      obtain rfl := (takes_all ((not_not.mp hn).trans (length_txItems tx).symm)).mp htakes
      exact ⟨hvalid, hraw, hbs.trans (congrArg (tx.type.head ++ ·) hbody)⟩
    · cases h
  · rintro ⟨hvalid, hraw, hbs⟩
    have hlen := congrArg List.length hbs
    rw [List.length_append] at hlen
    have hts := RlpTree.length_payload_le (.list (tx.items .full))
    change (encodeAll (tx.items .full)).length ≤ _ at hts
    have hshort : (encodeAll (tx.items .full)).length < 2 ^ 56 := by omega
    have hfit : (encodeAll (tx.items .full)).length < 2 ^ 64 := by omega
    obtain ⟨b0, hb, ht⟩ := ofByte_envelope tx.type hshort
    rw [← hbs] at hb
    have hbody : tx.type.body bs = (RlpTree.list (tx.items .full)).encode := by
      rw [hbs, TxType.body_head]
    have hfull : (RlpTree.list (tx.items .full)).encode.length < 2 ^ 64 := by omega
    obtain ⟨top, htop, hl, -, hpayload⟩ := rlpDecodeFully_tree hfull
    have hfields := (decodeTxFields_eq_ok hfit).mpr
      ⟨⟨rfl, hraw, hvalid⟩, (takes_all rfl).mpr rfl⟩
    simp only [hb, ht, hbody]
    refine except_bind_eq_ok.mpr ⟨top, htop, ?_⟩
    have hl : top.isList = true := hl
    have hpayload : top.payloadOf _ = encodeAll (tx.items .full) := hpayload
    rw [if_pos hl, hpayload]
    refine except_bind_eq_ok.mpr ⟨_, rlpSlices_encodeAll hfit, ?_⟩
    rw [List.length_map, length_txItems, if_neg (not_not.mpr rfl)]
    exact hfields

theorem decodeTransaction_eq_ok {bs : Bytes} {tx : Tx} :
    decodeTransaction bs = .ok tx ↔ decodeTransactionRlp bs = .ok tx := by
  unfold decodeTransaction
  cases h : decodeTransactionRlp bs with
  | ok tx' => rfl
  | error e => cases e <;> simp

theorem length_le_list (ts : List RlpTree) :
    (encodeAll ts).length ≤ (encodeAll [.list ts]).length := by
  rw [encodeAll, encodeAll, List.append_nil]
  exact RlpTree.length_payload_le (.list ts)

theorem Tx.extent_le {tx : Tx} (h : tx.Valid) (mode : TxMode) :
    tx.extent ≤ (encodeAll (tx.items mode)).length := by
  have haccess : (encodeAll (tx.accessList.map Access.tree)).length ≤
      (encodeAll (accessItems tx.type tx.accessList)).length := by
    unfold accessItems
    split
    · next ht =>
      rw [h.accessList ht]
      exact Nat.le_refl _
    · exact length_le_list _
  have hblobs : (encodeAll (tx.blobHashes.map hashTree)).length ≤
      (encodeAll (blobItems tx.type (tx.maxFeePerBlobGas, tx.blobHashes))).length := by
    unfold blobItems
    split
    · have hle := length_le_list (tx.blobHashes.map hashTree)
      rw [encodeAll, List.length_append]
      exact Nat.le_trans hle (Nat.le_add_left _ _)
    · next ht =>
      rw [(Prod.mk.inj (h.blobs ht)).2]
      exact Nat.zero_le _
  have hauths : (encodeAll (tx.authorizations.map Auth.tree)).length ≤
      (encodeAll (authItems tx.type tx.authorizations)).length := by
    unfold authItems
    split
    · exact length_le_list _
    · next ht =>
      rw [h.authorizations ht]
      exact Nat.zero_le _
  have hdata := length_le_rlpEncodeBytes tx.data
  have hstr : (RlpTree.str tx.data).encode = rlpEncodeBytes tx.data := rfl
  unfold Tx.extent Tx.items Tx.signedItems
  simp only [Mpt.encodeAll_append, encodeAll, List.length_append, hstr]
  omega

/-- An envelope is as long as what is in it. -/
theorem Tx.extent_le_envelope {bs : Bytes} {tx : Tx} (h : tx.Valid)
    (hbs : bs = tx.type.head ++ (RlpTree.list (tx.items .full)).encode) :
    (encodeAll (tx.items .full)).length ≤ bs.length ∧ tx.extent ≤ bs.length := by
  have hlen := congrArg List.length hbs
  have hts := RlpTree.length_payload_le (.list (tx.items .full))
  change (encodeAll (tx.items .full)).length ≤ _ at hts
  have hle := Tx.extent_le h .full
  rw [List.length_append] at hlen
  omega

/-- What an accepted envelope is. -/
theorem accepted_envelope {bs : Bytes} {tx : Tx} (hlt : bs.length < 2 ^ 56)
    (hdec : decodeTransaction bs = .ok tx) :
    tx.Valid ∧ bs = tx.type.head ++ (RlpTree.list (tx.items .full)).encode := by
  obtain ⟨hvalid, -, hbs⟩ := (decodeTransactionRlp_eq_ok hlt).mp (decodeTransaction_eq_ok.mp hdec)
  exact ⟨hvalid, hbs⟩

/-- **Transactions have one envelope.** The decoder accepts an envelope exactly if it is the
encoding of the transaction that it returns, which is valid. -/
theorem decode_transaction_iff {bs : Bytes} {tx : Tx} (hlt : bs.length < 2 ^ 56) :
    decodeTransaction bs = .ok tx ↔
      tx.Valid ∧ tx.extent < 2 ^ 56 ∧ tx.raw = bs ∧ encodeTransaction tx = bs := by
  rw [decodeTransaction_eq_ok, decodeTransactionRlp_eq_ok hlt]
  constructor
  · rintro ⟨hvalid, hraw, hbs⟩
    have hextent := (Tx.extent_le_envelope hvalid hbs).2
    exact ⟨hvalid, by omega, hraw, (txEncodeGeneric_eq (by omega)).trans hbs.symm⟩
  · rintro ⟨hvalid, hextent, hraw, henc⟩
    exact ⟨hvalid, hraw, henc.symm.trans (txEncodeGeneric_eq (by omega))⟩

theorem smallTx_valid : smallTx.Valid := by
  constructor <;> decide

theorem smallTx_decoded : decodeTransaction smallTx.raw = .ok smallTx :=
  decodeTransaction_eq_ok.mpr
    ((decodeTransactionRlp_eq_ok (by decide)).mpr ⟨smallTx_valid, rfl, by decide⟩)

theorem decode_transaction_iff_small : decodeTransaction smallTx.raw = .ok smallTx :=
  (decode_transaction_iff (by decide)).mpr ⟨smallTx_valid, by decide, rfl, by decide⟩

end StatelessGuest
