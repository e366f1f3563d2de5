import StatelessGuest.Rlp.Accept
import StatelessGuest.Rlp.Write

/-!
# RLP round trip

What the writers put together is decoded to what was written, as far as the arena of the decoder
reaches, and the length functions predict what the writers leave.

* `RlpData`: trees of byte strings, words and lists.
* `Written`: the writers leave the encodings.
* `rlp_round_trip`: the encoding is accepted, for one tree only; the lengths are exact.
-/

namespace StatelessGuest

open Lib Ram

/-! ## Trees with words -/

/-- A tree of byte strings, words and lists. -/
inductive RlpData where
  | bytes (bs : Bytes)
  | word (w : Word)
  | list (items : List RlpData)

namespace RlpData

mutual

/-- The bytes of the writers one after the other. -/
def encode : RlpData → Bytes
  | bytes bs => rlpEncodeBytes bs
  | word w => rlpEncodeWord w.toNat
  | list ts => rlpEncodeListHeader (encodeAll ts).length ++ encodeAll ts

def encodeAll : List RlpData → Bytes
  | [] => []
  | t :: ts => encode t ++ encodeAll ts

end

mutual

/-- The tree as the decoder sees it: a word is the string of its minimal bytes. -/
def tree : RlpData → RlpTree
  | bytes bs => .str bs
  | word w => .str (rlpBe w.toNat)
  | list ts => .list (treeAll ts)

def treeAll : List RlpData → List RlpTree
  | [] => []
  | t :: ts => tree t :: treeAll ts

end

theorem rlpEncodeWord_eq (w : Word) : rlpEncodeWord w.toNat = rlpEncodeBytes (rlpBe w.toNat) := by
  have hlt := w.isLt
  have hle : rlpBeLen w.toNat ≤ 8 := rlpBeLen_le hlt
  have hlen := length_rlpBe w.toNat
  unfold rlpEncodeWord
  by_cases h0 : w.toNat = 0
  · rw [if_pos h0, h0]
    rfl
  rw [if_neg h0]
  have hpos : rlpBeLen w.toNat = rlpBeLen (w.toNat / 256) + 1 := rlpBeLen_pos h0
  by_cases hone : rlpBeLen w.toNat = 1
  · obtain ⟨hbe, hb⟩ := rlpBe_of_len_one hone
    rw [hbe, rlpEncodeBytes_single, hone]
    have hsmall : UInt8.ofNat w.toNat < 128 ↔ w.toNat < 128 := by
      rw [UInt8.lt_iff_toNat_lt, UInt8.toNat_ofNat', Nat.mod_eq_of_lt hb]
      rfl
    by_cases h1 : w.toNat < 128
    · rw [if_pos h1, if_pos (hsmall.mpr h1)]
    · rw [if_neg h1, if_neg fun hc => h1 (hsmall.mp hc)]
      rfl
  · have h1 : ¬ w.toNat < 128 := by
      intro h1
      have : rlpBeLen w.toNat ≤ 1 := rlpBeLen_le (by omega)
      omega
    rw [if_neg h1, rlpEncodeBytes_of_length_ne (by rwa [hlen]), hlen]
    unfold rlpWriteHeader
    rw [if_pos (by omega)]
    rfl

mutual

theorem encode_eq : ∀ t : RlpData, t.encode = t.tree.encode
  | bytes bs => rfl
  | word w => rlpEncodeWord_eq w
  | list ts => by
    rw [encode, tree, encodeAll_eq ts]
    rfl

theorem encodeAll_eq : ∀ ts : List RlpData, encodeAll ts = RlpTree.encodeAll (treeAll ts)
  | [] => rfl
  | t :: ts => by
    rw [encodeAll, treeAll, encode_eq t, encodeAll_eq ts]
    rfl

end

end RlpData

theorem RlpTree.encodeAll_eq_flatten (ts : List RlpTree) :
    RlpTree.encodeAll ts = (ts.map RlpTree.encode).flatten := by
  induction ts with
  | nil => rfl
  | cons t ts ih => rw [RlpTree.encodeAll, List.map_cons, List.flatten_cons, ih]

/-! ## The writers -/

/-- Every writer leaves the bytes of an encoding and returns their number. A string is written from
bytes behind its header or before it; an integer goes through the end of the heap, which may be
full. -/
structure Written : Prop where
  bytes : ∀ (s : Ram) (dst src n : Nat),
    dst + (rlpWriteHeader 128 n).length ≤ src ∨ src + n ≤ dst →
      Puts (rlpEncodeBytesAt dst src n) s dst (rlpEncodeBytes (s.bytes.load src n))
  word : ∀ (s : Ram) (dst : Nat) (w : Word),
    Puts (rlpEncodeWordAt dst w) s dst (rlpEncodeWord w.toNat)
  listHeader : ∀ (s : Ram) (dst n : Nat),
    Puts (rlpEncodeListHeaderAt dst n) s dst (rlpEncodeListHeader n)
  u256 : ∀ (s : Ram) (dst : Nat) (v : U256),
    dst + (rlpPutU256 v).length ≤ s.heapPtr ∨ s.heapPtr + 32 ≤ dst →
      txPutU256At dst v s = .ok (rlpPutU256 v).length
          ((s.put s.heapPtr (rlpBe v.toNat)).put dst (rlpPutU256 v)) ∨
        txPutU256At dst v s = .error (.trap 1) s

/-- The length functions return the lengths of the encodings, as words. -/
structure Predicted : Prop where
  header : ∀ (base : Nat) (n : Word),
    (rlpHeaderLen n).toNat = (rlpWriteHeader base n.toNat).length
  listHeader : ∀ n : Word, (rlpListHeaderLen n).toNat = (rlpEncodeListHeader n.toNat).length
  bytes : ∀ (bs : Bytes) (first : Word), (rlpEncodeBytes bs).length < 2 ^ 64 →
    (bs.length = 1 → first.toNat = (bs.headD 0).toNat) →
      (rlpBytesEncodedLen first (BitVec.ofNat 64 bs.length)).toNat = (rlpEncodeBytes bs).length
  word : ∀ w : Word, (rlpWordEncodedLen w).toNat = (rlpEncodeWord w.toNat).length
  u256 : ∀ v : U256, (txU256EncodedLen v).toNat = (rlpPutU256 v).length

theorem length_le_rlpEncodeBytes (bs : Bytes) : bs.length ≤ (rlpEncodeBytes bs).length :=
  length_le_rlpFrame false bs

theorem length_header_le_rlpPutU256 (v : U256) :
    (rlpWriteHeader 128 (rlpBeLen v.toNat)).length ≤ (rlpPutU256 v).length := by
  have hv := v.isLt
  have hle : rlpBeLen v.toNat ≤ 32 := rlpBeLen_le (Nat.lt_of_lt_of_eq hv (by decide))
  unfold rlpPutU256
  rw [length_rlpEncodeBytes_rlpBe (by omega), length_rlpWriteHeader, if_pos (by omega)]
  split <;> omega

theorem writers_written : Written where
  bytes _ _ _ _ h := puts_encodeBytes h
  word := puts_encodeWord
  listHeader := puts_listHeader
  u256 s dst v h := by
    have hv := v.isLt
    have hle : rlpBeLen v.toNat ≤ 32 := rlpBeLen_le (Nat.lt_of_lt_of_eq hv (by decide))
    have hheader := length_header_le_rlpPutU256 v
    exact (putU256_run s v (by omega)).imp_right And.right

theorem lengths_predicted : Predicted where
  header := toNat_rlpHeaderLen
  listHeader := toNat_rlpListHeaderLen
  bytes bs first hlt hfirst := by
    have hle := length_le_rlpEncodeBytes bs
    rw [rlpBytesEncodedLen_eq (by omega) hfirst, BitVec.toNat_ofNat, Nat.mod_eq_of_lt hlt]
  word := toNat_rlpWordEncodedLen
  u256 := toNat_txU256EncodedLen

/-! ## The round trip -/

theorem accepts_encode [Stray] {b : Buffer} {s : Scratch} {t : RlpData} (hs : s.Sound)
    (ht : b.bytes b.start b.len = t.encode) :
    Accepts b s (fun u => u = t.tree) (rlpDecodeFullyAt b b.start b.len s) := by
  have haccepts := accepts_decodeFully (b := b) hs
  rw [t.encode_eq] at ht
  have heq : (fun u : RlpTree => b.bytes b.start b.len = u.encode) = fun u => u = t.tree := by
    funext u
    refine propext ⟨fun hu => haccepts.unique u t.tree hu ht, ?_⟩
    rintro rfl
    exact ht
  rwa [heq] at haccepts

/-- What the writers put together is accepted when the arena has room for its lists, and describes
the tree that was written and no other one; a word is read back from its bytes. -/
theorem rlp_round_trip [Stray] :
    (∀ (t : RlpData) (b : Buffer) (s : Scratch), s.Sound → b.bytes b.start b.len = t.encode →
      Accepts b s (fun u => u = t.tree) (rlpDecodeFullyAt b b.start b.len s)) ∧
    (∀ w : Word, ∃ bs, (RlpData.word w).tree = .str bs ∧ beNat bs = w.toNat) ∧
    Written ∧ Predicted :=
  ⟨fun _ _ _ hs ht => accepts_encode hs ht, fun w => ⟨_, rfl, beNat_rlpBe w.toNat⟩,
    writers_written, lengths_predicted⟩

/-- A word and a string in a list are read back. -/
theorem rlp_round_trip_pair :
    let _ : Stray := ⟨.outOfFuel⟩
    let t := RlpData.list [.word 1024, .bytes [99, 97, 116]]
    let b := Buffer.ofBytes 2147483648 t.encode
    Accepts b memInit (fun u => u = t.tree) (rlpDecodeFullyAt b b.start b.len memInit) := by
  intro _ t b
  exact rlp_round_trip.1 t b memInit memInit_sound
    (Buffer.bytes_ofBytes 2147483648 (by decide))

/-! ## What is too much -/

/-- `n` empty lists in a list that is the only item of a list. -/
def crowdedData (n : Nat) : RlpData := .list [.list (List.replicate n (.list []))]

theorem tree_crowdedData (n : Nat) : (crowdedData n).tree = crowded n := by
  have hall : RlpData.treeAll (List.replicate n (.list [])) = List.replicate n (.list []) := by
    induction n with
    | zero => rfl
    | succ n ih =>
      rw [List.replicate_succ, RlpData.treeAll, ih]
      rfl
  change RlpTree.list [.list (RlpData.treeAll (List.replicate n (.list [])))] = _
  rw [hall]
  rfl

theorem length_crowdedData_lt : (crowdedData 521217).encode.length < 2 ^ 64 := by
  rw [RlpData.encode_eq, tree_crowdedData]
  exact length_crowded_lt (by decide)

theorem crowdedData_rejected [Stray] {b : Buffer}
    (h : b.bytes b.start b.len = (crowdedData 521217).encode) :
    ¬ ∃ it s', rlpDecodeFullyAt b b.start b.len memInit = .ok it s' := by
  intro hok
  obtain ⟨t, rfl, hroom⟩ := (accepts_encode memInit_sound h).succeeds.mp hok
  rw [tree_crowdedData, nested_crowded] at hroom
  exact absurd hroom (by decide)

theorem rlpBeLen_wordMax : rlpBeLen (2 ^ 64 - 1) = 8 := rlpBeLen_eq (n := 7) (by decide) (by decide)

theorem length_rlpEncodeBytes_long {bs : Bytes} (h : 55 < bs.length) :
    (rlpEncodeBytes bs).length = 1 + rlpBeLen bs.length + bs.length := by
  rw [rlpEncodeBytes_of_length_ne (by omega), List.length_append, length_rlpWriteHeader,
    if_neg (by omega)]

theorem rlpBytesEncodedLen_wordMax : (rlpBytesEncodedLen 0 wordMax).toNat = 8 := by
  have hn : wordMax.toNat = 2 ^ 64 - 1 := by decide
  unfold rlpBytesEncodedLen rlpHeaderLen
  rw [if_neg (by decide), if_neg (by decide), hn, rlpBeLen_wordMax]
  decide

/-- The encoding of a tree with 521217 lists in its only item is not accepted, and the length of the
encoding of `2 ^ 64 - 1` bytes leaves the word it is returned in. -/
theorem round_trip_overflows :
    (let _ : Stray := ⟨.outOfFuel⟩
      let b := Buffer.ofBytes 2147483648 (crowdedData 521217).encode
      b.bytes b.start b.len = (crowdedData 521217).encode ∧
        ¬ ∃ it s', rlpDecodeFullyAt b b.start b.len memInit = .ok it s') ∧
    (rlpBytesEncodedLen 0 wordMax).toNat = 8 ∧
    (rlpEncodeBytes (List.replicate (2 ^ 64 - 1) 0)).length = 2 ^ 64 + 8 := by
  have hbytes := Buffer.bytes_ofBytes 2147483648 length_crowdedData_lt
  refine ⟨⟨hbytes, @crowdedData_rejected ⟨.outOfFuel⟩ _ hbytes⟩, rlpBytesEncodedLen_wordMax, ?_⟩
  have hlen : (List.replicate (2 ^ 64 - 1) (0 : UInt8)).length = 2 ^ 64 - 1 :=
    List.length_replicate
  rw [length_rlpEncodeBytes_long (by rw [hlen]; omega), hlen, rlpBeLen_wordMax]
  rfl

end StatelessGuest
