import StatelessGuest.Mpt.Handle
import StatelessGuest.Rlp.RoundTrip

/-!
# Tries of lists

The roots of transactions, receipts and withdrawals are roots of tries from the encoded index of a
value to the value. The trie is built in place, and its memory is given back.

* `buildMptIndexed`: the code.
* `indexed`: the map of a list; `indexed_key`, `indexed_other`.
* `buildMptIndexed_run`: the root that is computed is that of the map, and the heap is as before.
* `indexed_root_binding`: it says which list it is for.
-/

namespace StatelessGuest.Mpt

open Lib Arena

section

variable [Keccak]

/-- Set the values at their encoded indices. -/
def setIndexed [Stray] (values : List (Bytes × Nat)) (m : Handle) : MptM Handle :=
  values.foldlM (fun m v => mptSet m (rlpEncodeWord v.2) v.1) m

def buildMptIndexed [Stray] (fuel : Nat) (values : List Bytes) : MptM Hash := do
  let mark := (← get).next
  let m ← setIndexed values.zipIdx (mptNew none false)
  let root ← mptRoot fuel m.root
  modify fun h => h.release mark
  return root

end

/-! ## The map of a list -/

/-- The path of an index. -/
def indexKey (i : Nat) : Nibbles := keyToNibbles (rlpEncodeWord i)

/-- The map after values are set at their indices. -/
def putIndexed (values : List (Bytes × Nat)) (M : Contents) : Contents :=
  values.foldl (fun M v => Function.update M (indexKey v.2) v.1) M

/-- The map from the encoded indices to the values. -/
def indexed (values : List Bytes) : Contents := putIndexed values.zipIdx fun _ => []

theorem rlpEncodeWord_tree {i : Nat} (hi : i < 2 ^ 64) :
    rlpEncodeWord i = (RlpTree.str (rlpBe i)).encode := by
  have hword := RlpData.rlpEncodeWord_eq (BitVec.ofNat 64 i)
  rw [BitVec.toNat_ofNat, Nat.mod_eq_of_lt hi] at hword
  exact hword

theorem length_rlpEncodeWord_lt {i : Nat} (hi : i < 2 ^ 64) : (rlpEncodeWord i).length < 18 := by
  have hle : rlpBeLen i ≤ 8 := rlpBeLen_le hi
  have hlen := length_rlpEncodeBytes_le (rlpBe i) (by rw [length_rlpBe]; omega)
  rw [length_rlpBe] at hlen
  rw [rlpEncodeWord_tree hi, RlpTree.encode]
  omega

theorem indexKey_injective {i j : Nat} (hi : i < 2 ^ 64) (hj : j < 2 ^ 64)
    (h : indexKey i = indexKey j) : i = j := by
  have hword := keyToNibbles_injective h
  have hlt := length_rlpEncodeWord_lt hi
  have hlt' := length_rlpEncodeWord_lt hj
  rw [rlpEncodeWord_tree hi] at hword hlt
  rw [rlpEncodeWord_tree hj] at hword hlt'
  have htree := encode_injective (Nat.lt_trans hlt (by decide)) (Nat.lt_trans hlt' (by decide))
    hword
  rw [← beNat_rlpBe i, RlpTree.str.inj htree, beNat_rlpBe]

theorem putIndexed_other {values : List Bytes} {n : Nat} {M : Contents} {k : Nibbles}
    (h : ∀ i < values.length, indexKey (n + i) ≠ k) : putIndexed (values.zipIdx n) M k = M k := by
  induction values generalizing n M with
  | nil => rfl
  | cons v values ih =>
    have hk : k ≠ indexKey n := (h 0 (Nat.succ_pos _)).symm
    rw [List.zipIdx_cons, putIndexed, List.foldl_cons, ← putIndexed, ih fun i hi => ?_,
      Function.update_of_ne hk]
    rw [Nat.succ_add_eq_add_succ]
    exact h (i + 1) (Nat.succ_lt_succ hi)

theorem putIndexed_key {values : List Bytes} {n : Nat} (M : Contents)
    (hn : n + values.length ≤ 2 ^ 64) {i : Nat} (hi : i < values.length) :
    putIndexed (values.zipIdx n) M (indexKey (n + i)) = values[i] := by
  induction values generalizing n M i with
  | nil => cases hi
  | cons v values ih =>
    rw [List.length_cons] at hn hi
    rw [List.zipIdx_cons, putIndexed, List.foldl_cons, ← putIndexed]
    cases i with
    | zero =>
      refine (putIndexed_other fun j hj heq => ?_).trans (Function.update_self _ _ _)
      have := indexKey_injective (show n + 1 + j < 2 ^ 64 by omega) (by omega) heq
      omega
    | succ i =>
      have hnext : n + (i + 1) = n + 1 + i := by omega
      rw [hnext]
      exact ih _ (show n + 1 + values.length ≤ 2 ^ 64 by omega) (Nat.lt_of_succ_lt_succ hi)

/-- The value of an index. -/
theorem indexed_key {values : List Bytes} (hlen : values.length < 2 ^ 64) {i : Nat}
    (hi : i < values.length) : indexed values (indexKey i) = values[i] := by
  have hkey := putIndexed_key (fun _ => []) (show 0 + values.length ≤ 2 ^ 64 by omega) hi
  rwa [Nat.zero_add] at hkey

/-- There are no other keys. -/
theorem indexed_other {values : List Bytes} (k : Nibbles)
    (h : ∀ i < values.length, indexKey i ≠ k) : indexed values k = [] :=
  putIndexed_other fun i hi => by
    rw [Nat.zero_add]
    exact h i hi

/-- The values of a list of values that are there can be read off its map. -/
theorem indexed_injective {values values' : List Bytes} (hlen : values.length < 2 ^ 64)
    (hlen' : values'.length < 2 ^ 64) (hne : ∀ v ∈ values, v ≠ []) (hne' : ∀ v ∈ values', v ≠ [])
    (h : indexed values = indexed values') : values = values' := by
  have hle : ∀ {values values' : List Bytes}, values.length < 2 ^ 64 → values'.length < 2 ^ 64 →
      (∀ v ∈ values', v ≠ []) → indexed values = indexed values' →
      values'.length ≤ values.length := by
    intro values values' hlen hlen' hne' h
    by_contra hlt
    rw [Nat.not_le] at hlt
    have hnone : indexed values (indexKey values.length) = [] :=
      indexed_other _ fun i hi heq => by
        have := indexKey_injective (by omega) hlen heq
        omega
    rw [h, indexed_key hlen' hlt] at hnone
    exact hne' _ (List.getElem_mem hlt) hnone
  refine List.ext_getElem (Nat.le_antisymm (hle hlen' hlen hne h.symm) (hle hlen hlen' hne' h))
    fun i hi hi' => ?_
  rw [← indexed_key hlen hi, ← indexed_key hlen' hi', h]

/-! ## The root -/

section

variable [Keccak] [Stray] {a : Arena Node} {m : Handle} {M : Contents} {S : Set Nat}

/-- The values are set one by one. -/
theorem setIndexed_run (values : List (Bytes × Nat)) (h : Whole a m M S)
    (hm : m.secured = false) :
    ∃ c b T, setIndexed values m a = .ok ⟨c, false⟩ b ∧ Whole b ⟨c, false⟩ (putIndexed values M) T ∧
      Renewed a S T ∧ Changes S a b := by
  induction values generalizing a m M S with
  | nil =>
    obtain ⟨root, secured⟩ := m
    obtain rfl : secured = false := hm
    exact ⟨root, a, S, rfl, h, .refl a S, .refl S a⟩
  | cons v values ih =>
    obtain ⟨t, hown, hfull, hwf, rfl⟩ := h.holds
    have hkey : mptNibbleKey m.secured (rlpEncodeWord v.2) = indexKey v.2 := by
      rw [hm]
      rfl
    obtain ⟨t', hput, hfull'⟩ := full_put hfull hwf (indexKey v.2) v.1
    rw [← hkey] at hput
    obtain ⟨c₁, a₁, hrun₁, T₁, hown₁, hren₁, hch₁⟩ :=
      (mptSet_run hown hwf (rlpEncodeWord v.2) v.1).1 t' hput
    have hvalue := value_put hput
    rw [hkey] at hvalue
    obtain ⟨c, b, T, hrun, hw, hren, hch⟩ := ih (a := a₁) (m := ⟨c₁, m.secured⟩)
      (M := Function.update t.value (indexKey v.2) v.1) (S := T₁)
      ⟨t', hown₁, hfull', wf_put hwf hput, hvalue⟩ hm
    refine ⟨c, b, T, ?_, hw, hren₁.trans hch₁ hren, hch₁.trans hren₁ hch⟩
    unfold setIndexed at hrun ⊢
    rw [List.foldlM_cons, bind_run_ok hrun₁, hrun]

omit [Keccak] [Stray] in
theorem small_indexed {values : List Bytes} (hlen : values.length < 2 ^ 64)
    (hval : ∀ v ∈ values, v.length < 2 ^ 60) : Small (indexed values) := by
  have hcase : ∀ k, indexed values k ≠ [] → ∃ i, ∃ hi : i < values.length, k = indexKey i ∧
      indexed values k = values[i] := by
    intro k hk
    by_contra hnone
    refine hk (indexed_other k fun i hi heq => hnone ⟨i, hi, heq.symm, ?_⟩)
    rw [← heq, indexed_key hlen hi]
  refine ⟨fun k hk => ?_, fun k => ?_⟩
  · obtain ⟨i, hi, rfl, -⟩ := hcase k hk
    have hlt := length_rlpEncodeWord_lt (Nat.lt_trans hi hlen)
    rw [indexKey, length_keyToNibbles]
    omega
  · by_cases hk : indexed values k = []
    · rw [hk]
      decide
    · obtain ⟨i, hi, -, heq⟩ := hcase k hk
      rw [heq]
      exact hval _ (List.getElem_mem hi)

theorem buildMptIndexed_tree {values : List Bytes} (hlen : values.length < 2 ^ 64)
    (hval : ∀ v ∈ values, v.length < 2 ^ 60) (a : Arena Node) :
    ∃ n t, (∀ fuel, buildMptIndexed (n + fuel) values a = .ok (rootOf t) a) ∧ t.Full ∧ t.Wf ∧
      t.value = indexed values := by
  obtain ⟨c, b, T, hrun, hw, hren, hch⟩ :=
    setIndexed_run values.zipIdx (whole_new a false) rfl
  obtain ⟨t, hown, hfull, hwf, hvalue⟩ := hw.holds
  have hsmall : Small t.value := hvalue ▸ small_indexed hlen hval
  obtain ⟨n, b', hroot, -, hch'⟩ := mptRoot_run hown (fits_of_small hfull hwf hsmall)
  refine ⟨n, t, fun fuel => ?_, hfull, hwf, hvalue⟩
  have hback := release_of_changes (hch.trans hren hch')
  unfold buildMptIndexed
  rw [bind_run_ok (get_run a), bind_run_ok hrun, bind_run_ok (hroot fuel),
    bind_run_ok (modify_run _ _)]
  exact congrArg (EStateM.Result.ok (rootOf t)) hback

/-- **The root of a list** is the root of its map, and the heap is as it was. -/
theorem buildMptIndexed_run {values : List Bytes} (hlen : values.length < 2 ^ 64)
    (hval : ∀ v ∈ values, v.length < 2 ^ 60) (a : Arena Node) :
    ∃ n, ∀ fuel, buildMptIndexed (n + fuel) values a = .ok (rootOfMap (indexed values)) a := by
  obtain ⟨n, t, hrun, hfull, hwf, hvalue⟩ := buildMptIndexed_tree hlen hval a
  refine ⟨n, fun fuel => ?_⟩
  rw [hrun, ← hvalue, rootOfMap_eq hfull hwf]

/-- **The root says which list it is for**, when no value is empty and no two encodings of the tries
collide. -/
theorem indexed_root_binding {values values' : List Bytes} (hlen : values.length < 2 ^ 64)
    (hlen' : values'.length < 2 ^ 64) (hval : ∀ v ∈ values, v ≠ [] ∧ v.length < 2 ^ 60)
    (hval' : ∀ v ∈ values', v ≠ [] ∧ v.length < 2 ^ 60)
    (hb : Binding (encodings (trieOf (indexed values)) ∪ encodings (trieOf (indexed values'))))
    (a a' : Arena Node) :
    ∃ n r r', (∀ fuel, buildMptIndexed (n + fuel) values a = .ok r a) ∧
      (∀ fuel, buildMptIndexed (n + fuel) values' a' = .ok r' a') ∧
      (r = r' ↔ values = values') := by
  obtain ⟨n, t, hrun, hfull, hwf, hvalue⟩ :=
    buildMptIndexed_tree hlen (fun v hv => (hval v hv).2) a
  obtain ⟨n', t', hrun', hfull', hwf', hvalue'⟩ :=
    buildMptIndexed_tree hlen' (fun v hv => (hval' v hv).2) a'
  rw [← hvalue, ← hvalue', trieOf_value hfull hwf, trieOf_value hfull' hwf'] at hb
  refine ⟨n + n', rootOf t, rootOf t', fun fuel => ?_, fun fuel => ?_, fun h => ?_, fun h => ?_⟩
  · rw [Nat.add_assoc]
    exact hrun _
  · rw [Nat.add_comm n n', Nat.add_assoc]
    exact hrun' _
  · refine indexed_injective hlen hlen' (fun v hv => (hval v hv).1) (fun v hv => (hval' v hv).1) ?_
    rw [← hvalue, ← hvalue', rootOf_injective hb hfull hfull' h]
  · subst h
    rw [Trie.eq_of_value_eq hfull hwf hfull' hwf' (hvalue.trans hvalue'.symm)]

end

theorem indexed_root_binding_one :
    let _ : Keccak := fewHashes
    let _ : Stray := ⟨.outOfFuel⟩
    ∃ n r r', (∀ fuel, buildMptIndexed (n + fuel) [[5]] .empty = .ok r .empty) ∧
      (∀ fuel, buildMptIndexed (n + fuel) [[5]] .empty = .ok r' .empty) ∧
      (r = r' ↔ ([[5]] : List Bytes) = [[5]]) := by
  intro _ _
  have hvalue : (.leaf (indexKey 0) [5] : MptTrie).value = indexed [[5]] := by
    funext k
    rw [Trie.value]
    split
    · next h => rw [← h]; exact (indexed_key (by decide) (show 0 < [[5]].length by decide)).symm
    · next h =>
      exact (indexed_other k fun i hi heq => h (by rwa [Nat.lt_one_iff.mp hi] at heq)).symm
  have hwf : (.leaf (indexKey 0) [5] : MptTrie).Wf := List.cons_ne_nil 5 []
  have hsmall := hvalue ▸ (show Small (indexed [[5]]) from small_indexed (by decide) (by simp))
  have hfits := fits_of_small (t := .leaf (indexKey 0) [5]) trivial hwf hsmall
  have hval : ∀ v ∈ [([5] : Bytes)], v ≠ [] ∧ v.length < 2 ^ 60 := by simp
  refine indexed_root_binding (show [[5]].length < 2 ^ 64 by decide)
    (show [[5]].length < 2 ^ 64 by decide) hval hval ?_ .empty .empty
  rw [← hvalue, trieOf_value (t := .leaf (indexKey 0) [5]) trivial hwf, Set.union_self]
  refine ⟨?_, hfits⟩
  rintro x ⟨u, hu, rfl⟩ y ⟨u', hu', rfl⟩ -
  cases hu
  cases hu'
  rfl

end StatelessGuest.Mpt
