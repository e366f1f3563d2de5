import StatelessGuest.Mpt.Encode
import StatelessGuest.Rlp.Accept

/-!
# Encodings of bounded length

A trie whose keys and values are far shorter than the address space has encodings whose lengths are
words, whatever its shape.

* `Inside.value_eq`: what is inside of a trie holds the values of keys with a common prefix.
* `Small`, `fits_of_small`.
-/

namespace StatelessGuest.Mpt

open Lib

/-- Keys and values that a machine can hold many times over. -/
structure Small (M : Nibbles → Bytes) : Prop where
  key_lt : ∀ k, M k ≠ [] → k.length < 2 ^ 60
  val_lt : ∀ k, (M k).length < 2 ^ 60

variable {t u : MptTrie}

theorem Inside.value_eq (h : Inside u t) : ∃ pre, ∀ k, u.value k = t.value (pre ++ k) := by
  induction h with
  | self => exact ⟨[], fun _ => rfl⟩
  | @ext t seg h ih =>
    obtain ⟨pre, hpre⟩ := ih
    refine ⟨seg ++ pre, fun k => ?_⟩
    rw [List.append_assoc, Trie.value_ext_append, hpre]
  | @branch ch v d h ih =>
    obtain ⟨pre, hpre⟩ := ih
    exact ⟨d :: pre, fun k => hpre k⟩

theorem Inside.full (h : Inside u t) (hfull : t.Full) : u.Full := by
  induction h with
  | self => exact hfull
  | ext seg h ih => exact ih hfull
  | branch v d h ih => exact ih (hfull d)

theorem Inside.wf (h : Inside u t) (hwf : t.Wf) : u.Wf := by
  induction h with
  | self => exact hwf
  | ext seg h ih => exact ih hwf.2.2
  | branch v d h ih => exact ih (hwf.1 d)

theorem length_rlpEncodeBytes_le (bs : Bytes) (h : bs.length < 2 ^ 64) :
    (rlpEncodeBytes bs).length ≤ bs.length + 9 := by
  by_cases hown : isOwnEncoding bs
  · obtain ⟨b, hb, rfl⟩ := hown
    rw [rlpEncodeBytes_own hb]
    exact Nat.le_add_right _ 9
  · have hle := rlpBeLen_le (n := 8) h
    rw [rlpEncodeBytes_headed hown, List.length_append, length_rlpWriteHeader]
    split <;> omega

section

variable [Keccak]

/-- A reference takes at most 33 bytes. -/
theorem length_refBytes_le (hfull : t.Full) : (refBytes t).length ≤ 33 := by
  cases hne : t.isEmpty with
  | true =>
    rw [Trie.eq_empty_of_isEmpty hne, refBytes_empty]
    decide
  | false =>
    unfold refBytes
    rw [refTree_full hfull hne]
    split
    · next h => exact Nat.le_of_lt (Nat.lt_of_lt_of_le h (by decide))
    · rw [encode_hash, List.length_cons, length_beBytes]

theorem length_flatMap_refBytes_le {ch : Nibble → MptTrie} (hfull : ∀ d, (ch d).Full)
    (ds : List Nibble) : (ds.flatMap fun d => refBytes (ch d)).length ≤ 33 * ds.length := by
  induction ds with
  | nil => exact Nat.le_refl _
  | cons d ds ih =>
    have := length_refBytes_le (hfull d)
    rw [List.flatMap_cons, List.length_append, List.length_cons]
    omega

theorem length_nodeRlp_lt (hfull : t.Full) (hwf : t.Wf) (h : Small t.value) :
    (nodeRlp t).length < 2 ^ 64 := by
  have hlist : ∀ {payload : Bytes}, payload.length < 2 ^ 63 →
      (rlpEncodeList payload).length < 2 ^ 64 := by
    intro payload hlt
    have := length_rlpEncodeList_le payload (by omega)
    omega
  have hpath : ∀ {k : Nibbles} {l : Bool}, k.length < 2 ^ 60 →
      (rlpEncodeBytes (nibbleListToCompact k l)).length < 2 ^ 61 := by
    intro k l hk
    have hcompact := length_nibbleListToCompact_le k l
    have := length_rlpEncodeBytes_le (nibbleListToCompact k l) (by omega)
    omega
  have hval : ∀ {v : Bytes}, v.length < 2 ^ 60 → (rlpEncodeBytes v).length < 2 ^ 61 := by
    intro v hv
    have := length_rlpEncodeBytes_le v (by omega)
    omega
  cases t with
  | empty =>
    have hnil : nodeRlp .empty = [128] := refBytes_empty
    rw [hnil]
    decide
  | stub => exact hfull.elim
  | leaf k v =>
    have hk : (Trie.leaf k v : MptTrie).value k = v := if_pos rfl
    have hkey := h.key_lt k (by rw [hk]; exact hwf)
    have hv := h.val_lt k
    rw [hk] at hv
    rw [nodeRlp_leaf]
    refine hlist ?_
    have := hpath (l := true) hkey
    have := hval hv
    rw [List.length_append]
    omega
  | ext seg u =>
    obtain ⟨key, hkey⟩ := Trie.exists_value (t := u) hfull hwf.2.2
      (Trie.not_isEmpty_of_isBranch hwf.2.1)
    have hlen := h.key_lt (seg ++ key) (by rwa [Trie.value_ext_append])
    rw [List.length_append] at hlen
    rw [nodeRlp_ext]
    refine hlist ?_
    have := hpath (l := false) (show seg.length < 2 ^ 60 by omega)
    have := length_refBytes_le (t := u) hfull
    rw [List.length_append]
    omega
  | branch ch v =>
    have hv : v.length < 2 ^ 60 := h.val_lt []
    rw [nodeRlp_branch]
    refine hlist ?_
    have := length_flatMap_refBytes_le hfull (List.finRange 16)
    have := hval hv
    rw [List.length_finRange] at *
    rw [List.length_append]
    omega

/-- **Small tries fit.** -/
theorem fits_of_small (hfull : t.Full) (hwf : t.Wf) (h : Small t.value) : Fits t := by
  rintro e ⟨u, hin, rfl⟩
  obtain ⟨pre, hpre⟩ := hin.value_eq
  refine length_nodeRlp_lt (hin.full hfull) (hin.wf hwf) ⟨fun k hk => ?_, fun k => ?_⟩
  · rw [hpre] at hk
    have := h.key_lt (pre ++ k) hk
    rw [List.length_append] at this
    omega
  · rw [hpre]
    exact h.val_lt _

end

end StatelessGuest.Mpt
