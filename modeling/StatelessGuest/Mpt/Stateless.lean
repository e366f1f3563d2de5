import StatelessGuest.Mpt.Witness

/-!
# Programs on tries from the witness

A trie that was decoded from a witness is a part of the trie that the root is for. A program on the
part answers as one on the trie does, as long as it needs no node that the witness lacks.

* `witnessRun`: a program on a trie from the witness.
* `NoCollision`: what the hash function is trusted with.
* `Complete`: the witness has every node that is not a part of another.
* `decodeWitness_run`: what is decoded.
* `Partly`, `performAll_partly`: programs on a part of a trie.
* `witness_runs`: no witness makes a program answer wrongly, and with one that has all nodes it
  answers.
-/

namespace StatelessGuest.Mpt

open Lib Arena

section

variable [Keccak]

/-- A program on the trie with the root `rootHash`, of which the witness has some nodes. -/
def witnessRun [Stray] (fuel : Nat) (entries : List Bytes) (rootHash : Hash) (secured : Bool)
    (ops : List Op) : MptM (List Answer) := do
  let m ← mptFromWitness fuel (nodedbBuild entries) rootHash secured
  let r ← performAll fuel m ops
  return r.2

/-! ## The witness -/

/-- No two of the nodes of the trie, the entries of the witness and the node of the empty trie have
the same hash. -/
def NoCollision (entries : List Bytes) (u : MptTrie) : Prop :=
  Set.InjOn keccak256 (insert (nodeRlp .empty) (encodings u ∪ {e | e ∈ entries}))

/-- The nodes of the trie that are found by their hashes are in the witness. A node of fewer than 32
bytes is a part of its parent, unless it has none. -/
def Complete (entries : List Bytes) (u : MptTrie) : Prop :=
  u.isEmpty = false → nodeRlp u ∈ entries ∧
    ∀ v, Inside v u → 32 ≤ (nodeRlp v).length → nodeRlp v ∈ entries

variable {entries : List Bytes} {a b : Arena Node} {t u : MptTrie} {S : Set Nat} {db : NodeDb}

theorem mem_of_lookup_foldl {hash : Hash} {e : Bytes} (h : nodedbLookup
      (entries.foldl (fun db entry => db.set (keccak256 entry) entry) db) hash = some e) :
    (e ∈ entries ∧ keccak256 e = hash) ∨ nodedbLookup db hash = some e := by
  induction entries generalizing db with
  | nil => exact .inr h
  | cons entry entries ih =>
    rcases ih h with ⟨he, hk⟩ | hset
    · exact .inl ⟨List.mem_cons_of_mem _ he, hk⟩
    · rw [nodedbLookup, OrdMap.get_set] at hset
      split at hset
      · next hk =>
        cases hset
        exact .inl ⟨List.mem_cons_self, hk.symm⟩
      · exact .inr hset

theorem lookup_foldl_of_mem {hash : Hash} (h : (∃ e ∈ entries, keccak256 e = hash) ∨
      nodedbLookup db hash ≠ none) :
    nodedbLookup (entries.foldl (fun db entry => db.set (keccak256 entry) entry) db) hash ≠
      none := by
  induction entries generalizing db with
  | nil => exact h.resolve_left fun ⟨_, he, _⟩ => nomatch he
  | cons entry entries ih =>
    refine ih ?_
    by_cases hk : hash = keccak256 entry
    · right
      rw [nodedbLookup, OrdMap.get_set, if_pos hk]
      exact Option.some_ne_none _
    · rcases h with ⟨e, he, hke⟩ | h
      · rcases List.mem_cons.mp he with rfl | he
        · exact absurd hke.symm hk
        · exact .inl ⟨e, he, hke⟩
      · right
        rwa [nodedbLookup, OrdMap.get_set, if_neg hk]

/-- What is found in the witness is the node. -/
theorem NoCollision.honest (h : NoCollision entries u) : Honest (nodedbBuild entries) u := by
  intro v hv e he
  rcases mem_of_lookup_foldl he with ⟨hmem, hk⟩ | hnone
  · exact h (.inr (.inr hmem)) (.inr (.inl ⟨v, hv, rfl⟩)) hk
  · cases hnone

theorem NoCollision.lookup_eq_some (h : NoCollision entries u) {v : MptTrie} (hv : Inside v u)
    (hmem : nodeRlp v ∈ entries) :
    nodedbLookup (nodedbBuild entries) (keccak256 (nodeRlp v)) = some (nodeRlp v) := by
  have hne : nodedbLookup (nodedbBuild entries) (keccak256 (nodeRlp v)) ≠ none :=
    lookup_foldl_of_mem (.inl ⟨_, hmem, rfl⟩)
  obtain ⟨e, he⟩ := Option.ne_none_iff_exists'.mp hne
  exact he.trans (congrArg some (h.honest v hv e he))

theorem NoCollision.lookup_eq_none (h : NoCollision entries u) {v : MptTrie} (hv : Inside v u)
    (hmem : nodeRlp v ∉ entries) :
    nodedbLookup (nodedbBuild entries) (keccak256 (nodeRlp v)) = none := by
  cases hl : nodedbLookup (nodedbBuild entries) (keccak256 (nodeRlp v)) with
  | none => rfl
  | some e =>
    rcases mem_of_lookup_foldl hl with ⟨he, -⟩ | hnone
    · exact absurd (h.honest v hv e hl ▸ he) hmem
    · cases hnone

/-- Only the empty trie has the root of the empty trie. -/
theorem NoCollision.root_eq_empty (h : NoCollision entries u) (hfull : u.Full)
    (hlt : (nodeRlp u).length < 2 ^ 64) (hroot : rootOf u = emptyTrieRoot) :
    u.isEmpty = true := by
  rw [rootOf_full hfull, ← rootOf_empty] at hroot
  have henc := h (.inr (.inl nodeRlp_mem)) (.inl rfl) hroot
  have htree := encode_injective hlt (show (RlpTree.str []).encode.length < 2 ^ 64 by decide) henc
  by_contra hne
  have hlist := nodeTree_isList hfull (Bool.eq_false_iff.mpr hne)
  rw [htree] at hlist
  cases hlist

/-- **What is decoded** is a part of the trie; nothing is decoded if the root is missing. -/
theorem decodeWitness_run (hfull : u.Full) (hwf : u.Wf) (hfits : Fits u)
    (hc : NoCollision entries u) (a : Arena Node) :
    (u.isEmpty = true ∨ nodeRlp u ∈ entries → ∃ n r b t T, (∀ fuel,
        decodeWitnessToMpt (n + fuel) (nodedbBuild entries) (rootOf u) a = .ok r b) ∧
      Decoded (nodedbBuild entries) a b r t u T) ∧
    (u.isEmpty = false → nodeRlp u ∉ entries → ∀ fuel,
      decodeWitnessToMpt fuel (nodedbBuild entries) (rootOf u) a = .error (.mpt 1) a) := by
  cases hne : u.isEmpty with
  | true =>
    obtain rfl := Trie.eq_empty_of_isEmpty hne
    refine ⟨fun _ => ⟨0, none, a, .empty, ∅, fun fuel => ?_, .empty, .empty, .refl a ∅,
      .refl ∅ a⟩, nofun⟩
    rw [decodeWitnessToMpt, if_pos rootOf_empty]
    rfl
  | false =>
    have hroot : rootOf u ≠ emptyTrieRoot := fun h => by
      rw [hc.root_eq_empty hfull hfits.self h] at hne
      cases hne
    refine ⟨fun h => ?_, fun _ hmem fuel => ?_⟩
    · have hlookup := hc.lookup_eq_some .self (h.resolve_left Bool.noConfusion)
      obtain ⟨b, p, t, T, ⟨n, hlead⟩, hstub, hd⟩ :=
        decode_run hfull hwf hfits hc.honest hne a []
      obtain ⟨c, hrec, hown, hch⟩ := recordHash_run hd.owns hstub
      rw [nodeRlp_of_prunes hd.prunes hstub, ← rootOf_full hfull] at hrec
      have hloop : ∀ fuel, decodeLoop (nodedbBuild entries) (n + 1 + fuel) []
          (.decode (nodeRlp u)) a = .ok (some p) b := fun fuel => by
        rw [Nat.add_assoc, hlead, Nat.add_comm]
        rfl
      refine ⟨n + 1, some p, c, t, T, fun fuel => ?_, hown, hd.prunes, hd.renewed,
        hd.changes.trans hd.renewed hch⟩
      rw [decodeWitnessToMpt, if_neg hroot, rootOf_full hfull, hlookup]
      dsimp only
      rw [bind_run_ok (hloop fuel), ← rootOf_full hfull, bind_run_ok hrec]
      rfl
    · rw [decodeWitnessToMpt, if_neg hroot, rootOf_full hfull, hc.lookup_eq_none .self hmem]
      rfl

/-- What is decoded from a witness with all nodes is the trie. -/
theorem NoCollision.eq_of_prunes (h : NoCollision entries u) (hall : Complete entries u)
    (hp : Trie.Prunes (StubFor (nodedbBuild entries)) t u) : t = u := by
  refine Mpt.eq_of_prunes hp fun v hv hlong => ?_
  have hne : u.isEmpty = false := by
    cases hu : u.isEmpty with
    | false => rfl
    | true =>
      obtain rfl := Trie.eq_empty_of_isEmpty hu
      cases hv
      have hlen : (nodeRlp .empty).length = 1 := rfl
      omega
  rw [h.lookup_eq_some hv ((hall hne).2 v hv hlong)]
  exact Option.some_ne_none _

/-! ## Programs -/

/-- A part of the trie of a map is in the trie of the handle. -/
structure Partly (db : NodeDb) (a : Arena Node) (m : Handle) (M : Contents) (S : Set Nat) :
    Prop where
  holds : ∃ t u, Owns a m.root t S ∧ Trie.Prunes (StubFor db) t u ∧ u.Full ∧ u.Wf ∧ u.value = M

variable [Stray] {m : Handle} {M : Contents}

/-- One operation: the answer of the map, or the error of a missing node. -/
theorem perform_partly (h : Partly db a m M S) (hM : Small M) (op : Op) :
    ∃ n, (∃ c b T, (∀ fuel, perform (n + fuel) m op a =
          .ok (⟨c, m.secured⟩, op.answer m.secured M) b) ∧
        Partly db b ⟨c, m.secured⟩ (op.effect m.secured M) T ∧ Renewed a S T ∧ Changes S a b) ∨
      ∃ b, ∀ fuel, perform (n + fuel) m op a = .error (.mpt 2) b := by
  obtain ⟨t, u, hown, hp, hfull, hwf, rfl⟩ := h.holds
  have hwft := Trie.wf_of_prunes stubFor_made hp hwf
  cases op with
  | set key val =>
    obtain ⟨hok, hfail⟩ := mptSet_run hown hwft key val
    cases hput : put t (mptNibbleKey m.secured key) val with
    | none =>
      obtain ⟨b, hrun⟩ := hfail hput
      exact ⟨0, .inr ⟨b, fun _ => bind_run_error hrun⟩⟩
    | some t' =>
      obtain ⟨c, b, hrun, T, hownT, hren, hch⟩ := hok t' hput
      obtain ⟨u', hput', hp'⟩ : ∃ u', put u (mptNibbleKey m.secured key) val = some u' ∧
          Trie.Prunes (StubFor db) t' u' := by
        unfold put at hput ⊢
        by_cases hval : val = []
        · rw [if_pos hval] at hput ⊢
          exact Trie.delete_prunes stubFor_made hp hput
        · rw [if_neg hval] at hput ⊢
          exact Trie.insert_prunes hp hput
      obtain ⟨u'', hput'', hfull'⟩ := full_put hfull hwf (mptNibbleKey m.secured key) val
      cases hput'.symm.trans hput''
      refine ⟨0, .inl ⟨c, b, T, fun fuel => ?_, ⟨t', u', hownT, hp', hfull', wf_put hwf hput',
        value_put hput'⟩, hren, hch⟩⟩
      rw [perform, bind_run_ok hrun]
      rfl
  | get key =>
    obtain ⟨hok, hfail⟩ := mptGet_run hown hwft key
    cases hget : t.get (mptNibbleKey m.secured key) with
    | none => exact ⟨0, .inr ⟨a, fun _ => bind_run_error (hfail hget)⟩⟩
    | some v =>
      have hv := Trie.get_eq_some (Trie.get_prunes hp hget)
      refine ⟨0, .inl ⟨m.root, a, S, fun fuel => ?_, ⟨t, u, hown, hp, hfull, hwf, rfl⟩,
        .refl a S, .refl S a⟩⟩
      rw [perform, bind_run_ok (hok v hget), Op.answer, hv]
      rfl
  | root =>
    obtain ⟨n, b, hrun, hownb, hch⟩ :=
      mptRoot_run hown (fits_of_prunes hp (fits_of_small hfull hwf hM))
    refine ⟨n, .inl ⟨m.root, b, S, fun fuel => ?_, ⟨t, u, hownb, hp, hfull, hwf, rfl⟩,
      .refl a S, hch⟩⟩
    rw [perform, bind_run_ok (hrun fuel), Op.answer, rootOfMap_eq hfull hwf,
      rootOf_of_prunes hp hfull]
    rfl

/-- A program on a part of a trie. -/
theorem performAll_partly {ops : List Op} (h : Partly db a m M S) (hM : Small M)
    (hops : ∀ op ∈ ops, op.Small) :
    ∃ n, (∃ r b T, (∀ fuel, performAll (n + fuel) m ops a =
          .ok (r, answers m.secured ops M) b) ∧ Renewed a S T ∧ Changes S a b) ∨
      ∃ b, ∀ fuel, performAll (n + fuel) m ops a = .error (.mpt 2) b := by
  induction ops generalizing a m M S with
  | nil => exact ⟨0, .inl ⟨m, a, S, fun _ => rfl, .refl a S, .refl S a⟩⟩
  | cons op ops ih =>
    obtain ⟨n₁, ⟨c₁, a₁, S₁, hrun₁, h₁, hren₁, hch₁⟩ | ⟨b, hrun₁⟩⟩ :=
      perform_partly h hM op
    · have hM₁ := small_effect hM (hops op List.mem_cons_self) m.secured
      obtain ⟨n₂, hrest⟩ := ih h₁ hM₁ fun op hop => hops op (List.mem_cons_of_mem _ hop)
      have hfirst : ∀ fuel, perform (n₁ + n₂ + fuel) m op a =
          .ok (⟨c₁, m.secured⟩, op.answer m.secured M) a₁ := fun fuel => by
        rw [Nat.add_assoc]
        exact hrun₁ _
      refine ⟨n₁ + n₂, ?_⟩
      rcases hrest with ⟨r, b, T, hrun₂, hren₂, hch₂⟩ | ⟨b, hrun₂⟩
      · refine .inl ⟨r, b, T, fun fuel => ?_, hren₁.trans hch₁ hren₂, hch₁.trans hren₁ hch₂⟩
        have hsecond := hrun₂ (n₁ + fuel)
        rw [← Nat.add_assoc, Nat.add_comm n₂ n₁] at hsecond
        rw [performAll, bind_run_ok (hfirst fuel), bind_run_ok hsecond]
        rfl
      · refine .inr ⟨b, fun fuel => ?_⟩
        have hsecond := hrun₂ (n₁ + fuel)
        rw [← Nat.add_assoc, Nat.add_comm n₂ n₁] at hsecond
        rw [performAll, bind_run_ok (hfirst fuel), bind_run_error hsecond]
    · exact ⟨n₁, .inr ⟨b, fun fuel => by rw [performAll, bind_run_error (hrun₁ fuel)]⟩⟩

/-- **No witness makes a program answer wrongly.** The witness may be any list of byte strings. If
no hashes collide, then every program on the trie that is decoded for the root of a trie answers as
the map of that trie does, roots included, or it fails because of a node of the trie that the
witness lacks. -/
theorem witness_runs (secured : Bool) {ops : List Op} (hfull : u.Full) (hwf : u.Wf)
    (hsmall : Small u.value) (hops : ∀ op ∈ ops, op.Small) (hc : NoCollision entries u)
    (a : Arena Node) :
    ∃ n, (∃ b, (∀ fuel, witnessRun (n + fuel) entries (rootOf u) secured ops a =
          .ok (answers secured ops u.value) b) ∧ Changes ∅ a b) ∨
      ∃ e b, (∀ fuel, witnessRun (n + fuel) entries (rootOf u) secured ops a = .error e b) ∧
        (e = .mpt 1 ∨ e = .mpt 2) ∧ ¬ Complete entries u := by
  have hfits := fits_of_small hfull hwf hsmall
  obtain ⟨hok, hfail⟩ := decodeWitness_run hfull hwf hfits hc a
  by_cases hroot : u.isEmpty = true ∨ nodeRlp u ∈ entries
  · obtain ⟨n₁, r, a₁, t, T, hrun₁, hd⟩ := hok hroot
    have hfirst : ∀ n₂ fuel, mptFromWitness (n₁ + n₂ + fuel) (nodedbBuild entries) (rootOf u)
        secured a = .ok ⟨r, secured⟩ a₁ := fun n₂ fuel => by
      rw [mptFromWitness, Nat.add_assoc, bind_run_ok (hrun₁ _)]
      rfl
    have hmore : ∀ n₂ fuel, n₁ + n₂ + fuel = n₂ + (n₁ + fuel) := fun n₂ fuel => by omega
    by_cases hall : Complete entries u
    · -- nothing is missing, so that what is decoded is the trie itself
      have htu : t = u := hc.eq_of_prunes hall hd.prunes
      have hw : Whole a₁ ⟨r, secured⟩ u.value T := ⟨u, htu ▸ hd.owns, hfull, hwf, rfl⟩
      obtain ⟨n₂, c, b, T', hrun₂, -, hren₂, hch₂⟩ := performAll_run hw hsmall hops
      refine ⟨n₁ + n₂, .inl ⟨b, fun fuel => ?_, hd.changes.trans hd.renewed hch₂⟩⟩
      rw [witnessRun, bind_run_ok (hfirst n₂ fuel), hmore, bind_run_ok (hrun₂ _)]
      rfl
    · have hpart : Partly (nodedbBuild entries) a₁ ⟨r, secured⟩ u.value T :=
        ⟨t, u, hd.owns, hd.prunes, hfull, hwf, rfl⟩
      obtain ⟨n₂, hrest⟩ := performAll_partly hpart hsmall hops
      refine ⟨n₁ + n₂, ?_⟩
      rcases hrest with ⟨m, b, T', hrun₂, -, hch₂⟩ | ⟨b, hrun₂⟩
      · refine .inl ⟨b, fun fuel => ?_, hd.changes.trans hd.renewed hch₂⟩
        rw [witnessRun, bind_run_ok (hfirst n₂ fuel), hmore, bind_run_ok (hrun₂ _)]
        rfl
      · refine .inr ⟨.mpt 2, b, fun fuel => ?_, .inr rfl, hall⟩
        rw [witnessRun, bind_run_ok (hfirst n₂ fuel), hmore, bind_run_error (hrun₂ _)]
  · obtain ⟨hmade, hroot⟩ := not_or.mp hroot
    have hmade := Bool.eq_false_iff.mpr hmade
    refine ⟨0, .inr ⟨.mpt 1, a, fun fuel => ?_, .inl rfl, fun hall => hroot (hall hmade).1⟩⟩
    refine bind_run_error (bind_run_error ?_)
    exact hfail hmade hroot _

end

/-- Two nodes, the first of which is that of the trie with the value `05` at `01`. -/
private def twoEntries : List Bytes := [[196, 130, 32, 1, 5], [196, 130, 32, 128, 5]]

private theorem noCollision_two : @NoCollision fewHashes twoEntries (.leaf [0, 1] [5]) := by
  let _ : Keccak := fewHashes
  have hrlp : nodeRlp (.leaf [0, 1] [5]) = [196, 130, 32, 1, 5] := by decide
  have hcase : ∀ x ∈ insert (nodeRlp .empty) (encodings (.leaf [0, 1] [5]) ∪
      {e | e ∈ twoEntries}),
      x = [128] ∨ x = [196, 130, 32, 1, 5] ∨ x = [196, 130, 32, 128, 5] := by
    rintro x (rfl | ⟨u, hu, rfl⟩ | hx)
    · exact .inl refBytes_empty
    · cases hu
      exact .inr (.inl hrlp)
    · rcases List.mem_cons.mp hx with rfl | hx
      · exact .inr (.inl rfl)
      · exact .inr (.inr (List.mem_singleton.mp hx))
  intro x hx y hy
  rcases hcase x hx with rfl | rfl | rfl <;> rcases hcase y hy with rfl | rfl | rfl <;> decide

private theorem small_one : Small (.leaf [0, 1] [5] : MptTrie).value := by
  refine ⟨fun k hk => ?_, fun k => ?_⟩
  · rw [Trie.value] at hk
    by_cases heq : [0, 1] = k
    · rw [← heq]
      decide
    · exact absurd (if_neg heq) hk
  · rw [Trie.value]
    split <;> decide

theorem decodeWitness_run_one :
    let _ : Keccak := fewHashes
    ((.leaf [0, 1] [5] : MptTrie).isEmpty = true ∨ nodeRlp (.leaf [0, 1] [5]) ∈ twoEntries →
      ∃ n r b t T, (∀ fuel, decodeWitnessToMpt (n + fuel) (nodedbBuild twoEntries)
          (rootOf (.leaf [0, 1] [5])) .empty = .ok r b) ∧
        Decoded (nodedbBuild twoEntries) .empty b r t (.leaf [0, 1] [5]) T) ∧
    ((.leaf [0, 1] [5] : MptTrie).isEmpty = false → nodeRlp (.leaf [0, 1] [5]) ∉ twoEntries →
      ∀ fuel, decodeWitnessToMpt fuel (nodedbBuild twoEntries) (rootOf (.leaf [0, 1] [5]))
        .empty = .error (.mpt 1) .empty) := by
  intro _
  have hwf : (.leaf [0, 1] [5] : MptTrie).Wf := List.cons_ne_nil 5 []
  exact decodeWitness_run (u := .leaf [0, 1] [5]) trivial hwf
    (fits_of_small trivial hwf small_one) noCollision_two .empty

theorem witness_runs_one :
    let _ : Keccak := fewHashes
    let _ : Stray := ⟨.outOfFuel⟩
    ∃ n, (∃ b, (∀ fuel, witnessRun (n + fuel) twoEntries (rootOf (.leaf [0, 1] [5])) false
          [.get [1], .set [1] [], .root] .empty = .ok (answers false
            [.get [1], .set [1] [], .root] (.leaf [0, 1] [5] : MptTrie).value) b) ∧
          Changes ∅ .empty b) ∨
      ∃ e b, (∀ fuel, witnessRun (n + fuel) twoEntries (rootOf (.leaf [0, 1] [5])) false
          [.get [1], .set [1] [], .root] .empty = .error e b) ∧
        (e = .mpt 1 ∨ e = .mpt 2) ∧ ¬ Complete twoEntries (.leaf [0, 1] [5]) := by
  intro _ _
  exact witness_runs (u := .leaf [0, 1] [5]) false trivial (List.cons_ne_nil 5 []) small_one
    (by simp [Op.Small]) noCollision_two .empty

end StatelessGuest.Mpt
