import StatelessGuest.Digest.Strengthen

/-!
# The compression function of BLAKE2b

A round is a foreign call on one array with a row number, the working vector and the message.

* `blake2bF`: the vector is set up, goes through the rounds and is folded into the state.
* `blake2F`: the compression on lists of words, round `i` with row `i % 10`.
* `blake2bF_run`.
-/

namespace StatelessGuest.Digest

open Lib Mem

/-- The round with a row of SIGMA, on the message and the vector. -/
class Blake2Round where
  round : Nat → List Word → List Word → List Word
  length_round : ∀ row ms vs, (round row ms vs).length = 16

/-- The initial values (`b2_iv`) and the array of the foreign call (`b2_round`), two allocations.
The vector (`b2_v`) and the message (`b2_m`) are in the array. -/
structure Blake2Buffers where
  iv : Nat
  round : Nat
  aligned_iv : iv % 8 = 0
  aligned_round : round % 8 = 0
  apart : Apart iv 64 round 264

def Blake2Buffers.v (b : Blake2Buffers) : Nat := b.round + 8

def Blake2Buffers.m (b : Blake2Buffers) : Nat := b.round + 136

/-- Words in eight bytes each. -/
def cells (ws : List Word) : Bytes := pack 8 (ws.map BitVec.toNat)

/-- The words in some bytes. -/
def cellsOf (n : Nat) (bs : Bytes) : List Word := (unpack 8 n bs).map (BitVec.ofNat 64)

def blake2Iv : List Word :=
  [7640891576956012808, -4942790177534073029, 4354685564936845355, -6534734903238641935,
    5840696475078001361, -7276294671716946913, 2270897969802886507, 6620516959819538809]

section

variable [Stray] [Blake2Round]

/-- The effect of the foreign call on its array: the vector goes through a round. -/
def blake2Array (array : Bytes) : Bytes :=
  array.take 8 ++ (cells (Blake2Round.round (leNat (array.take 8)) (cellsOf 16 (array.drop 136))
    (cellsOf 16 ((array.drop 8).take 128))) ++ array.drop 136)

/-- A row number that is not below ten traps. -/
def blake2bround (p : Nat) : MemM Unit := do
  let row ← lds p
  if row < 10 then foreignCall blake2Array p 264 else throw Stray.exn

def xorWord (p : Nat) (x : Word) : MemM Unit := do
  let w ← lds p
  st p (w ^^^ x)

/-- `if f != 0` for the last block. -/
def invertLast (p : Nat) (f : Word) : MemM Unit :=
  if f ≠ 0 then xorWord p (0 - 1) else pure ()

/-- `while r < rounds`, with `left` rounds to go; `row` wraps at ten. -/
def blake2Rounds (p : Nat) : Nat → Word → MemM Unit
  | 0, _ => pure ()
  | left + 1, row => do
    st p row
    blake2bround p
    blake2Rounds p left (if row + 1 = 10 then 0 else row + 1)

def foldWord (h v i : Nat) : MemM Unit := do
  let x ← lds (h + i * 8)
  let y ← lds (v + i * 8)
  let z ← lds (v + (i + 8) * 8)
  st (h + i * 8) (x ^^^ y ^^^ z)

def blake2bF (b : Blake2Buffers) (rounds : Word) (h m : Nat) (t0 t1 f : Word) : MemM Unit := do
  memcpy b.v h 64
  memcpy (b.v + 64) b.iv 64
  xorWord (b.v + 96) t0
  xorWord (b.v + 104) t1
  invertLast (b.v + 112) f
  memcpy b.m m 128
  blake2Rounds b.round rounds.toNat 0
  countLoop 8 1 (foldWord h b.v)

end

/-! ## The function F -/

section

variable [Blake2Round]

/-- The rounds from `i` on. -/
def blake2Loop (ms : List Word) : Nat → Nat → List Word → List Word
  | 0, _, vs => vs
  | left + 1, i, vs => blake2Loop ms left (i + 1) (Blake2Round.round (i % 10) ms vs)

/-- The state, and the initial values with the offset and the flag. -/
def blake2Vector (hs : List Word) (t0 t1 f : Word) : List Word :=
  hs ++ (blake2Iv.take 4 ++ [blake2Iv.getD 4 0 ^^^ t0, blake2Iv.getD 5 0 ^^^ t1,
    if f ≠ 0 then ~~~blake2Iv.getD 6 0 else blake2Iv.getD 6 0, blake2Iv.getD 7 0])

def blake2F (rounds : Nat) (hs ms : List Word) (t0 t1 f : Word) : List Word :=
  let vs := blake2Loop ms rounds 0 (blake2Vector hs t0 t1 f)
  List.zipWith (· ^^^ ·) (List.zipWith (· ^^^ ·) hs (vs.take 8)) (vs.drop 8)

end

/-! ## Words in memory -/

theorem length_cells (ws : List Word) : (cells ws).length = 8 * ws.length := by
  rw [cells, length_pack, List.length_map]

theorem cells_append (vs ws : List Word) : cells (vs ++ ws) = cells vs ++ cells ws := by
  unfold cells
  rw [List.map_append, pack_append]

theorem length_cellsOf (n : Nat) (bs : Bytes) : (cellsOf n bs).length = n := by
  rw [cellsOf, List.length_map, length_unpack]

theorem cellsOf_cells {ws : List Word} {n : Nat} (h : ws.length = n) :
    cellsOf n (cells ws) = ws := by
  have hsmall : ∀ v ∈ ws.map BitVec.toNat, v < 256 ^ 8 := by
    intro v hv
    obtain ⟨w, -, rfl⟩ := List.mem_map.mp hv
    exact w.isLt
  have hback := unpack_pack hsmall
  rw [List.length_map, h] at hback
  unfold cellsOf cells
  rw [hback, List.map_map]
  refine (List.map_congr_left fun w _ => ?_).trans (List.map_id ws)
  exact BitVec.ofNat_toNat 64 w

theorem cells_cellsOf {n : Nat} {bs : Bytes} (h : bs.length = 8 * n) : cells (cellsOf n bs) = bs := by
  have hsmall : ∀ v ∈ unpack 8 n bs, (BitVec.ofNat 64 v).toNat = v := by
    intro v hv
    obtain ⟨i, hi, rfl⟩ := List.getElem_of_mem hv
    have hget := getElem?_unpack (k := 8) bs (show i < n by rwa [length_unpack] at hi)
    rw [List.getElem?_eq_getElem hi] at hget
    have hlt := leNat_lt ((bs.drop (8 * i)).take 8)
    have hpow : 256 ^ ((bs.drop (8 * i)).take 8).length ≤ 256 ^ 8 :=
      Nat.pow_le_pow_right (by decide) (List.length_take_le 8 _)
    rw [Option.some.inj hget, BitVec.toNat_ofNat, Nat.mod_eq_of_lt (by omega)]
  unfold cells cellsOf
  rw [List.map_map]
  refine Eq.trans (congrArg _ ((List.map_congr_left fun v hv => ?_).trans (List.map_id _)))
    (pack_unpack h)
  exact hsmall v hv

section

variable {s : Mem} {p i : Nat} {ws : List Word}

theorem load_cell (h : s.bytes.load p (8 * ws.length) = cells ws) (hi : i < ws.length) :
    s.bytes.load (p + 8 * i) 8 = leBytes 8 ws[i].toNat := by
  have hlen : (ws.map BitVec.toNat).length = ws.length := List.length_map _
  rw [← hlen] at h
  rw [load_packed h (by rwa [hlen]), List.getElem_map]

/-- A word is replaced. -/
theorem load_put_cell (h : s.bytes.load p (8 * ws.length) = cells ws) (hi : i < ws.length)
    (w : Word) : (s.put (p + 8 * i) (leBytes 8 w.toNat)).bytes.load p (8 * ws.length) =
      cells (ws.set i w) := by
  have hsplit : cells ws = cells (ws.take i) ++ (cells [ws[i]] ++ cells (ws.drop (i + 1))) := by
    rw [← cells_append, ← cells_append, List.singleton_append, ← List.drop_eq_getElem_cons hi,
      List.take_append_drop]
  have htake : (cells (ws.take i)).length = 8 * i := by
    rw [length_cells, List.length_take, Nat.min_eq_left (Nat.le_of_lt hi)]
  have hlen : 8 * ws.length = 8 * i + (8 + 8 * (ws.length - (i + 1))) := by omega
  rw [hlen, ByteMap.load_add, ByteMap.load_add, hsplit] at h
  obtain ⟨hfront, hrest⟩ := List.append_inj h (by rw [ByteMap.length_load, htake])
  obtain ⟨-, hback⟩ := List.append_inj hrest (by rw [ByteMap.length_load, length_cells]; rfl)
  have hword : (leBytes 8 w.toNat).length = 8 := length_leBytes _ _
  rw [hlen, ByteMap.load_add, ByteMap.load_add, load_put_off s (by omega), load_put_self s _ hword,
    load_put_off s (by rw [hword]; omega), hfront, hback,
    List.set_eq_take_append_cons_drop, if_pos hi, ← List.singleton_append, cells_append,
    cells_append]
  refine congrArg _ (congrArg (· ++ _) ?_)
  exact (pack_singleton 8 w.toNat).symm

variable [Stray]

theorem lds_cell (hp : p % 8 = 0) (hread : s.Reads p (8 * ws.length))
    (h : s.bytes.load p (8 * ws.length) = cells ws) (hi : i < ws.length) :
    lds (p + 8 * i) s = .ok ws[i] s := by
  rw [lds_run (by omega) (hread.part (Nat.le_add_right p _) (by omega)), load_cell h hi,
    wordOf_leBytes]

theorem xorWord_cell (hp : p % 8 = 0) (hread : s.Reads p (8 * ws.length))
    (h : s.bytes.load p (8 * ws.length) = cells ws) (hi : i < ws.length) (x : Word) :
    ∃ s', xorWord (p + 8 * i) x s = .ok () s' ∧
      s'.bytes.load p (8 * ws.length) = cells (ws.set i (ws[i] ^^^ x)) ∧
      Off (At p (8 * ws.length)) s s' := by
  refine ⟨_, ?_, load_put_cell h hi _, (off_put s (Nat.le_of_eq (length_leBytes 8 _))).mono ?_⟩
  · unfold xorWord
    rw [bind_run_ok (lds_cell hp hread h hi), st_run (by omega)]
  · intro q hq
    unfold At at hq ⊢
    omega

end

/-! ## The rounds -/

/-- The vector and the message are in the array. -/
structure Blake2Buffers.Holds (b : Blake2Buffers) (vs ms : List Word) (s : Mem) : Prop where
  length_vs : vs.length = 16
  length_ms : ms.length = 16
  vector : s.bytes.load b.v 128 = cells vs
  message : s.bytes.load b.m 128 = cells ms

section

variable [Stray] [Blake2Round] {s : Mem} {b : Blake2Buffers} {vs ms : List Word}

omit [Stray] in
theorem blake2Array_cells {row : Word} (hv : vs.length = 16) (hm : ms.length = 16) :
    blake2Array (leBytes 8 row.toNat ++ (cells vs ++ cells ms)) =
      leBytes 8 row.toNat ++ (cells (Blake2Round.round row.toNat ms vs) ++ cells ms) := by
  have hrow : (leBytes 8 row.toNat).length = 8 := length_leBytes _ _
  have hvector : (cells vs).length = 128 := by rw [length_cells, hv]
  have hboth : (leBytes 8 row.toNat ++ cells vs).length = 136 := by
    rw [List.length_append, hrow, hvector]
  have hback : (leBytes 8 row.toNat ++ (cells vs ++ cells ms)).drop 136 = cells ms := by
    rw [← List.append_assoc, List.drop_left' hboth]
  unfold blake2Array
  rw [hback, List.take_left' hrow, List.drop_left' hrow, List.take_left' hvector, cellsOf_cells hv,
    cellsOf_cells hm, leNat_leBytes_of_lt row.isLt]

/-- One round, with a row that there is. -/
theorem blake2bround_run (h : b.Holds vs ms s) (hread : s.Reads b.round 264) {row : Word}
    (hrow : row < 10) :
    ∃ s', (do
        st b.round row
        blake2bround b.round) s = .ok () s' ∧
      b.Holds (Blake2Round.round row.toNat ms vs) ms s' ∧ Off (At b.round 264) s s' := by
  obtain ⟨hv, hm, hvector, hmessage⟩ := h
  have hword : (leBytes 8 row.toNat).length = 8 := length_leBytes _ _
  have hlen := Blake2Round.length_round row.toNat ms vs
  have hstored := st_run b.aligned_round row s
  obtain ⟨s₁, hs₁⟩ : ∃ t, t = s.put b.round (leBytes 8 row.toNat) := ⟨_, rfl⟩
  rw [← hs₁] at hstored
  have hoff₁ : Off (At b.round 264) s s₁ := by
    rw [hs₁]
    exact off_put s (by rw [hword]; decide)
  have harray : s₁.bytes.load b.round 264 = leBytes 8 row.toNat ++ (cells vs ++ cells ms) := by
    rw [hs₁, load_put_front s b.round (m := 256) hword, 
      show 256 = 128 + 128 from rfl, ByteMap.load_add]
    exact congrArg _ (congrArg₂ _ hvector hmessage)
  have hload : lds b.round s₁ = .ok row s₁ := by
    rw [lds_run b.aligned_round ((hoff₁.reads hread).part (Nat.le_refl _) (by omega)), hs₁,
      load_put_self s b.round hword, wordOf_leBytes]
  have hcall := foreignCall_run blake2Array (hoff₁.reads hread)
  rw [harray, blake2Array_cells hv hm] at hcall
  generalize hcs : Blake2Round.round row.toNat ms vs = cs at hlen hcall ⊢
  have hvs : (cells cs).length = 128 := by rw [length_cells, hlen]
  have hms : (cells ms).length = 128 := by rw [length_cells, hm]
  generalize hafter : leBytes 8 row.toNat ++ (cells cs ++ cells ms) = after at hcall
  have hsize : after.length = 264 := by
    rw [← hafter, List.length_append, List.length_append, hword, hvs, hms]
  have hself := load_put_self s₁ b.round hsize
  rw [show 264 = 8 + (128 + 128) from rfl, ByteMap.load_add, ByteMap.load_add] at hself
  obtain ⟨-, hrest⟩ := List.append_inj (hself.trans hafter.symm) (by
    rw [ByteMap.length_load, hword])
  obtain ⟨hfront, hback⟩ := List.append_inj hrest (by rw [ByteMap.length_load, hvs])
  refine ⟨_, ?_, ⟨hlen, hm, hfront, hback⟩, hoff₁.trans (off_put s₁ (Nat.le_of_eq hsize))⟩
  unfold blake2bround
  rw [bind_run_ok hstored, bind_run_ok hload, if_pos hrow, hcall]

/-- The row number follows the number of the round. -/
theorem blake2Rounds_run (hread : s.Reads b.round 264) (h : b.Holds vs ms s) {left i : Nat}
    {row : Word} (hrow : row.toNat = i % 10) :
    ∃ s', blake2Rounds b.round left row s = .ok () s' ∧ b.Holds (blake2Loop ms left i vs) ms s' ∧
      Off (At b.round 264) s s' := by
  induction left generalizing s vs i row with
  | zero => exact ⟨s, rfl, h, .refl _ _⟩
  | succ left ih =>
    have hlt : row < 10 := by
      rw [BitVec.lt_def, hrow]
      exact Nat.mod_lt i (by decide)
    obtain ⟨s₁, hrun₁, hholds₁, hoff₁⟩ := blake2bround_run h hread hlt
    have hten : row + 1 = 10 ↔ row.toNat + 1 = 10 := by
      rw [← BitVec.toNat_inj, BitVec.toNat_add]
      have : row.toNat < 10 := hlt
      change (row.toNat + 1) % 2 ^ 64 = 10 ↔ _
      omega
    have hnext : (if row + 1 = 10 then 0 else row + 1 : Word).toNat = (i + 1) % 10 := by
      split
      · next heq =>
        have := hten.mp heq
        change 0 = _
        omega
      · next hne =>
        have := mt hten.mpr hne
        have : row.toNat < 10 := hlt
        rw [BitVec.toNat_add]
        change (row.toNat + 1) % 2 ^ 64 = _
        omega
    rw [hrow] at hholds₁
    obtain ⟨s₂, hrun₂, hholds₂, hoff₂⟩ := ih (hoff₁.reads hread) hholds₁ hnext
    refine ⟨s₂, ?_, hholds₂, hoff₁.trans hoff₂⟩
    rw [blake2Rounds, ← bind_assoc, bind_run_ok hrun₁, hrun₂]

/-! ## The vector is set up -/

omit [Blake2Round] in
/-- A word behind the state is changed. -/
theorem xorWord_behind {p j : Nat} {hs ws : List Word} (hp : p % 8 = 0)
    (hlen : hs.length + ws.length = 16) (hread : s.Reads p 128)
    (hload : s.bytes.load p 128 = cells (hs ++ ws)) (hj : j < ws.length) (x : Word) :
    ∃ s', xorWord (p + 8 * (hs.length + j)) x s = .ok () s' ∧
      s'.bytes.load p 128 = cells (hs ++ ws.set j (ws[j] ^^^ x)) ∧ Off (At p 128) s s' := by
  have hsize : 8 * (hs ++ ws).length = 128 := by rw [List.length_append, hlen]
  have hi : hs.length + j < (hs ++ ws).length := by
    rw [List.length_append]
    omega
  rw [← hsize] at hread hload ⊢
  obtain ⟨s', hrun, hafter, hoff⟩ := xorWord_cell hp hread hload hi x
  refine ⟨s', hrun, ?_, hoff⟩
  rw [hafter, List.set_append_right _ _ (by omega), List.getElem_append_right (by omega)]
  simp only [Nat.add_sub_cancel_left]

omit [Blake2Round] in
/-- The state and the initial values are in the array, then the offset and the flag are added. -/
theorem blake2Vector_run {hs : List Word} (t0 t1 f : Word) (hlen : hs.length = 8)
    (hread : s.Reads b.v 128) (hload : s.bytes.load b.v 128 = cells (hs ++ blake2Iv)) :
    ∃ s', (do
        xorWord (b.v + 96) t0
        xorWord (b.v + 104) t1
        invertLast (b.v + 112) f) s = .ok () s' ∧
      s'.bytes.load b.v 128 = cells (blake2Vector hs t0 t1 f) ∧ Off (At b.v 128) s s' := by
  have hv : b.v % 8 = 0 := by
    have := b.aligned_round
    unfold Blake2Buffers.v
    omega
  have hiv : blake2Iv.length = 8 := rfl
  obtain ⟨s₁, hrun₁, hload₁, hoff₁⟩ := xorWord_behind (j := 4) hv (by rw [hlen, hiv]) hread hload
    (by rw [hiv]; decide) t0
  obtain ⟨s₂, hrun₂, hload₂, hoff₂⟩ := xorWord_behind (j := 5) hv
    (by rw [hlen, List.length_set, hiv]) (hoff₁.reads hread) hload₁
    (by rw [List.length_set, hiv]; decide) t1
  rw [hlen] at hrun₁ hrun₂
  have hlast : ∃ s', invertLast (b.v + 112) f s₂ = .ok () s' ∧
      s'.bytes.load b.v 128 = cells (blake2Vector hs t0 t1 f) ∧ Off (At b.v 128) s₂ s' := by
    unfold invertLast blake2Vector
    split
    · obtain ⟨s₃, hrun₃, hload₃, hoff₃⟩ := xorWord_behind (j := 6) hv
        (by rw [hlen, List.length_set, List.length_set, hiv]) ((hoff₁.trans hoff₂).reads hread)
        hload₂ (by rw [List.length_set, List.length_set, hiv]; decide) (0 - 1)
      rw [hlen] at hrun₃
      have hones : (blake2Iv.getD 6 0 : Word) ^^^ (0 - 1) = ~~~blake2Iv.getD 6 0 := by decide
      refine ⟨s₃, hrun₃, ?_, hoff₃⟩
      rw [hload₃, ← hones]
      rfl
    · exact ⟨s₂, rfl, hload₂, .refl _ _⟩
  obtain ⟨s₃, hrun₃, hload₃, hoff₃⟩ := hlast
  refine ⟨s₃, ?_, hload₃, hoff₁.trans (hoff₂.trans hoff₃)⟩
  rw [bind_run_ok (show xorWord (b.v + 96) t0 s = _ from hrun₁),
    bind_run_ok (show xorWord (b.v + 104) t1 s₁ = _ from hrun₂), hrun₃]

/-! ## The vector is folded -/

omit [Blake2Round] in
theorem foldWords_run {h v : Nat} {hs : List Word} (hh8 : h % 8 = 0) (hv8 : v % 8 = 0)
    (hh : s.Reads h 64) (hv : s.Reads v 128) (hd : Apart h 64 v 128) (hlen : hs.length = 8)
    (hvs : vs.length = 16) (hstate : s.bytes.load h 64 = cells hs)
    (hvector : s.bytes.load v 128 = cells vs) :
    countLoop 8 1 (foldWord h v) s = .ok () (s.put h (cells (List.zipWith (· ^^^ ·)
      (List.zipWith (· ^^^ ·) hs (vs.take 8)) (vs.drop 8)))) := by
  generalize hout : List.zipWith (· ^^^ ·) (List.zipWith (· ^^^ ·) hs (vs.take 8)) (vs.drop 8) = out
  have hsize : out.length = 8 := by
    rw [← hout, List.length_zipWith, List.length_zipWith, List.length_take, List.length_drop, hlen,
      hvs]
    rfl
  have hdis := hd.disjoint (by decide) (by decide)
  have hrun := countLoop_run (fun k => s.put h (cells (out.take k))) 8 1 (foldWord h v) (by decide)
    fun k hk => by
      have htake : (cells (out.take k)).length = 8 * k := by
        rw [length_cells, List.length_take, Nat.min_eq_left (by omega)]
      have hreadH : (s.put h (cells (out.take k))).Reads (h + k * 8) 8 :=
        hh.part (Nat.le_add_right h _) (by omega)
      have hreadV : ∀ i < 16, (s.put h (cells (out.take k))).Reads (v + i * 8) 8 :=
        fun i hi => hv.part (Nat.le_add_right v _) (by omega)
      have hloadH : (s.put h (cells (out.take k))).bytes.load (h + k * 8) 8 =
          leBytes 8 hs[k].toNat := by
        rw [load_put_off s (by rw [htake]; omega), Nat.mul_comm]
        exact load_cell (by rw [hlen]; exact hstate) (by omega)
      have hloadV : ∀ i, (hi : i < vs.length) →
          (s.put h (cells (out.take k))).bytes.load (v + i * 8) 8 = leBytes 8 vs[i].toNat := by
        intro i hi
        rw [load_put_off s (by rw [htake]; omega), Nat.mul_comm]
        exact load_cell (by rw [hvs]; exact hvector) hi
      have hword : out[k] = hs[k] ^^^ vs[k] ^^^ vs[k + 8] := by
        have hget : out[k]? = some (hs[k] ^^^ vs[k] ^^^ vs[k + 8]) := by
          rw [← hout, List.getElem?_zipWith, List.getElem?_zipWith, List.getElem?_take,
            if_pos hk, List.getElem?_drop, Nat.add_comm 8 k, List.getElem?_eq_getElem (by omega),
            List.getElem?_eq_getElem (by omega), List.getElem?_eq_getElem (by omega)]
        rw [List.getElem?_eq_getElem (by omega)] at hget
        exact Option.some.inj hget
      have hnext : cells (out.take (k + 1)) = cells (out.take k) ++ leBytes 8 out[k].toNat := by
        rw [List.take_succ_eq_append_getElem (by omega), cells_append]
        exact congrArg _ (pack_singleton 8 _)
      unfold foldWord
      rw [Nat.mul_one, bind_run_ok (lds_run (by omega) hreadH),
        bind_run_ok (lds_run (by omega) (hreadV k (by omega))),
        bind_run_ok (lds_run (by omega) (hreadV (k + 8) (by omega))), st_run (by omega), hloadH,
        hloadV k (by omega), hloadV (k + 8) (by omega), wordOf_leBytes, wordOf_leBytes,
        wordOf_leBytes, ← hword, hnext, put_append, htake, Nat.mul_comm k 8]
  have hzero : s.put h (cells (out.take 0)) = s := put_nil s h
  rw [hzero, List.take_of_length_le (by omega)] at hrun
  exact hrun

/-! ## The compression -/

/-- The state is at aligned addresses, the message at any. -/
theorem blake2bF_run (b : Blake2Buffers) {h m : Nat} (rounds t0 t1 f : Word)
    (hiv : s.bytes.load b.iv 64 = cells blake2Iv) (hh8 : h % 8 = 0) (hh : s.Reads h 64)
    (hm : s.Reads m 128) (hivReads : s.Reads b.iv 64) (hread : s.Reads b.round 264)
    (hdh : Apart h 64 b.round 264) (hdm : Apart m 128 b.round 264) :
    ∃ s', blake2bF b rounds h m t0 t1 f s = .ok () s' ∧
      s'.bytes.load h 64 = cells (blake2F rounds.toNat (cellsOf 8 (s.bytes.load h 64))
        (cellsOf 16 (s.bytes.load m 128)) t0 t1 f) ∧
      Off (fun q => At b.round 264 q ∨ At h 64 q) s s' := by
  have hv : b.v = b.round + 8 := rfl
  have hbm : b.m = b.round + 136 := rfl
  have halign := b.aligned_round
  have hapart := b.apart.disjoint (by decide) (by decide)
  have hgapH := hdh.disjoint (by decide) (by decide)
  have hgapM := hdm.disjoint (by decide) (by decide)
  have hhs := length_cellsOf 8 (s.bytes.load h 64)
  have hms := length_cellsOf 16 (s.bytes.load m 128)
  have hcellsH := cells_cellsOf (n := 8) (ByteMap.length_load s.bytes h 64)
  have hcellsM := cells_cellsOf (n := 16) (ByteMap.length_load s.bytes m 128)
  have hsizeH := ByteMap.length_load s.bytes h 64
  have hsizeM := ByteMap.length_load s.bytes m 128
  generalize cellsOf 8 (s.bytes.load h 64) = hs at hhs hcellsH ⊢
  generalize cellsOf 16 (s.bytes.load m 128) = ms at hms hcellsM ⊢
  rw [← hcellsH] at hsizeH
  rw [← hcellsM] at hsizeM
  have hinner : ∀ p n q, b.round ≤ p → p + n ≤ b.round + 264 → At p n q → At b.round 264 q := by
    intro p n q hp hn hq
    unfold At at hq ⊢
    omega
  -- the state and the initial values
  obtain ⟨s₁, hs₁⟩ : ∃ t, t = s.put b.v (cells hs) := ⟨_, rfl⟩
  have hcopyH : memcpy b.v h 64 s = .ok () s₁ := by
    rw [memcpy_run (by omega) hh, ← hcellsH, hs₁]
  have hoff₁ : Off (At b.round 264) s s₁ := by
    rw [hs₁]
    exact (off_put s (Nat.le_of_eq hsizeH)).mono fun q => hinner b.v 64 q (by omega) (by omega)
  have hiv₁ : s₁.bytes.load b.iv 64 = cells blake2Iv := by
    rw [hs₁, load_put_off s (by rw [hsizeH]; omega), hiv]
  obtain ⟨s₂, hs₂⟩ : ∃ t, t = s₁.put (b.v + 64) (cells blake2Iv) := ⟨_, rfl⟩
  have hcopyIv : memcpy (b.v + 64) b.iv 64 s₁ = .ok () s₂ := by
    rw [memcpy_run (by omega) (hoff₁.reads hivReads), hiv₁, hs₂]
  have hjoin : s₂ = s.put b.v (cells (hs ++ blake2Iv)) := by
    rw [hs₂, hs₁, cells_append, put_append, hsizeH]
  have hsize₂ : (cells (hs ++ blake2Iv)).length = 128 := by
    rw [cells_append, List.length_append, hsizeH]
    rfl
  have hoff₂ : Off (At b.round 264) s s₂ := by
    rw [hjoin]
    exact (off_put s (Nat.le_of_eq hsize₂)).mono fun q => hinner b.v 128 q (by omega) (by omega)
  have hload₂ : s₂.bytes.load b.v 128 = cells (hs ++ blake2Iv) := by
    rw [hjoin]
    exact load_put_self s b.v hsize₂
  obtain ⟨s₃, hrun₃, hload₃, hoff₃⟩ := blake2Vector_run t0 t1 f hhs
    ((hoff₂.reads hread).part (by omega) (by omega)) hload₂
  replace hoff₃ : Off (At b.round 264) s s₃ :=
    hoff₂.trans (hoff₃.mono fun q => hinner b.v 128 q (by omega) (by omega))
  -- the message
  have hmessage : s₃.bytes.load m 128 = cells ms := by
    rw [hoff₃.load hdm, hcellsM]
  obtain ⟨s₄, hs₄⟩ : ∃ t, t = s₃.put b.m (cells ms) := ⟨_, rfl⟩
  have hcopyM : memcpy b.m m 128 s₃ = .ok () s₄ := by
    rw [memcpy_run (by omega) (hoff₃.reads hm), hmessage, hs₄]
  have hoff₄ : Off (At b.round 264) s s₄ := by
    rw [hs₄]
    exact hoff₃.trans ((off_put s₃ (Nat.le_of_eq hsizeM)).mono fun q =>
      hinner b.m 128 q (by omega) (by omega))
  have hvector : (blake2Vector hs t0 t1 f).length = 16 := by
    unfold blake2Vector
    rw [List.length_append, hhs]
    rfl
  have hholds₄ : b.Holds (blake2Vector hs t0 t1 f) ms s₄ := by
    refine ⟨hvector, hms, ?_, ?_⟩
    · rw [hs₄, load_put_off s₃ (by omega), hload₃]
    · rw [hs₄]
      exact load_put_self s₃ b.m hsizeM
  -- the rounds and the result
  obtain ⟨s₅, hrun₅, hholds₅, hoff₅⟩ : ∃ t, blake2Rounds b.round rounds.toNat 0 s₄ = .ok () t ∧
      b.Holds (blake2Loop ms rounds.toNat 0 (blake2Vector hs t0 t1 f)) ms t ∧
      Off (At b.round 264) s₄ t :=
    blake2Rounds_run (hoff₄.reads hread) hholds₄ rfl
  replace hoff₅ := hoff₄.trans hoff₅
  have hstate : s₅.bytes.load h 64 = cells hs := by
    rw [hoff₅.load hdh, hcellsH]
  have hfold := foldWords_run hh8 (by omega) (hoff₅.reads hh)
    ((hoff₅.reads hread).part (by omega) (by omega)) (apart_of_disjoint (by omega)) hhs
    hholds₅.length_vs hstate hholds₅.vector
  change countLoop 8 1 (foldWord h b.v) s₅ =
    .ok () (s₅.put h (cells (blake2F rounds.toNat hs ms t0 t1 f))) at hfold
  have hsize : (cells (blake2F rounds.toNat hs ms t0 t1 f)).length = 64 := by
    unfold blake2F
    dsimp only
    rw [length_cells, List.length_zipWith, List.length_zipWith, List.length_take, List.length_drop,
      hhs, hholds₅.length_vs]
    rfl
  refine ⟨_, ?_, load_put_self s₅ h hsize, ?_⟩
  · unfold blake2bF
    obtain ⟨_, u₁, hfirst, hrest⟩ := bind_ok.mp hrun₃
    obtain ⟨_, u₂, hsecond, hlast⟩ := bind_ok.mp hrest
    rw [bind_run_ok hcopyH, bind_run_ok hcopyIv, bind_run_ok hfirst, bind_run_ok hsecond,
      bind_run_ok hlast, bind_run_ok hcopyM, bind_run_ok hrun₅, hfold]
  · exact (hoff₅.mono fun q hq => .inl hq).trans
      ((off_put s₅ (Nat.le_of_eq hsize)).mono fun q hq => .inr hq)

end

end StatelessGuest.Digest
