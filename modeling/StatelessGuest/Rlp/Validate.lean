import StatelessGuest.Rlp.HeaderAt

/-!
# Validating nested lists in memory

The loop with its records in the scratch arena does what the recursion on the bytes does, as long
as the arena has 24 bytes for each list.

* `Pending`: the records of the lists that are not finished.
* `ran_validateLoop`: the loop, against `rlpItems`.
-/

namespace StatelessGuest

open Lib

/-! ## The scratch arena -/

/-- The arena is not empty of addresses below it, and its pointer is a multiple of a word. -/
structure Scratch.Sound (s : Scratch) : Prop where
  aligned : 8 ∣ s.ptr.toNat
  base : 0 < s.frameMem.toNat
  le : s.frameMem.toNat ≤ s.ptr.toNat

/-- The bytes that are left. -/
def Scratch.room (s : Scratch) : Nat := s.ptr.toNat - s.frameMem.toNat

theorem and_aligned {x : Word} (h : 8 ∣ x.toNat) : x &&& (0 - 8) = x := by
  have hmask : ∀ i < 64, (0 - 8 : Word).getLsbD i = decide (3 ≤ i) := by decide
  refine BitVec.eq_of_getLsbD_eq fun i hi => ?_
  rw [BitVec.getLsbD_and, hmask i hi]
  by_cases hlow : 3 ≤ i
  · rw [decide_eq_true hlow, Bool.and_true]
  · obtain ⟨k, hk⟩ := h
    have hbit : x.getLsbD i = false := by
      change x.toNat.testBit i = false
      rw [hk, show 8 = 2 ^ 3 from rfl, Nat.testBit_two_pow_mul, decide_eq_false hlow,
        Bool.false_and]
    rw [hbit, Bool.false_and]

section

variable {s : Scratch}

theorem Scratch.sub_toNat (s : Scratch) (hroom : 24 ≤ s.room) :
    (s.ptr - 24).toNat = s.ptr.toNat - 24 := by
  unfold Scratch.room at hroom
  have h24 : (24 : Word).toNat = 24 := rfl
  rw [BitVec.toNat_sub_of_le (by rw [BitVec.le_def, h24]; omega), h24]

/-- The arena after a record was taken. -/
def Scratch.taken (s : Scratch) : Scratch := { s with ptr := s.ptr - 24 }

theorem Scratch.Sound.taken (h : s.Sound) (hroom : 24 ≤ s.room) :
    s.taken.Sound ∧ s.taken.room + 24 = s.room := by
  have hsub := s.sub_toNat hroom
  have hle := h.le
  unfold Scratch.room at hroom
  refine ⟨⟨?_, h.base, ?_⟩, ?_⟩
  · rw [Scratch.taken, hsub]
    exact Nat.dvd_sub h.aligned (by decide)
  · rw [Scratch.taken, hsub]
    dsimp only
    omega
  · rw [Scratch.room, Scratch.room, Scratch.taken, hsub]
    dsimp only
    omega

theorem scratchAlloc_run (h : s.Sound) (hroom : 24 ≤ s.room) :
    scratchAlloc 24 s = .ok (s.ptr - 24) s.taken := by
  have hsub := s.sub_toNat hroom
  have hle := h.le
  have h24 : (24 : Word).toNat = 24 := rfl
  have hfits : ¬ s.ptr - s.frameMem < 24 := by
    rw [BitVec.lt_def, BitVec.toNat_sub_of_le (BitVec.le_def.mpr hle), h24]
    unfold Scratch.room at hroom
    omega
  have halign : (s.ptr - 24) &&& (0 - 8) = s.ptr - 24 := by
    refine and_aligned ?_
    rw [hsub]
    exact Nat.dvd_sub h.aligned (by decide)
  have hbase : ¬ s.ptr - 24 < s.frameMem := by
    rw [BitVec.lt_def, hsub]
    unfold Scratch.room at hroom
    omega
  unfold scratchAlloc
  rw [bind_run_ok (get_run s), if_neg hfits, halign, if_neg hbase]
  rfl

theorem scratchAlloc_trap (h : s.Sound) (hroom : s.room < 24) :
    scratchAlloc 24 s = .error (.trap 7) s := by
  have hle := h.le
  have h24 : (24 : Word).toNat = 24 := rfl
  have hfull : s.ptr - s.frameMem < 24 := by
    rw [BitVec.lt_def, BitVec.toNat_sub_of_le (BitVec.le_def.mpr hle), h24]
    exact hroom
  unfold scratchAlloc
  rw [bind_run_ok (get_run s), if_pos hfull]
  rfl

/-! ## Pending continuations -/

/-- The records from `top` on, the last one first, and what they say. -/
inductive Pending (s : Scratch) : Word → List (Word × Word) → Prop where
  | nil : Pending s 0 []
  | cons {top below : Word} {after stop : Word} {rest : List (Word × Word)}
      (hne : top ≠ 0) (hle : s.ptr.toNat ≤ top.toNat) (hlt : top.toNat + 24 ≤ 2 ^ 64)
      (hafter : s.cells top = after) (hstop : s.cells (top + 8) = stop)
      (hbelow : s.cells (top + 16) = below) (hrest : Pending s below rest) :
      Pending s top ((after, stop) :: rest)

/-- Records stay as long as the words in them do. -/
theorem Pending.keep {s s' : Scratch} {top : Word} {rest : List (Word × Word)}
    (h : Pending s top rest) (hptr : s'.ptr.toNat ≤ s.ptr.toNat)
    (hcells : ∀ a : Word, s.ptr.toNat ≤ a.toNat → s'.cells a = s.cells a) :
    Pending s' top rest := by
  induction h with
  | nil => exact .nil
  | @cons top below after stop rest hne hle hlt hafter hstop hbelow _ ih =>
    have h8 : (top + 8).toNat = top.toNat + 8 := by
      rw [BitVec.toNat_add]
      exact Nat.mod_eq_of_lt (by change top.toNat + 8 < 2 ^ 64; omega)
    have h16 : (top + 16).toNat = top.toNat + 16 := by
      rw [BitVec.toNat_add]
      exact Nat.mod_eq_of_lt (by change top.toNat + 16 < 2 ^ 64; omega)
    refine .cons hne (hptr.trans hle) hlt ?_ ?_ ?_ ih
    · rw [hcells top hle, hafter]
    · rw [hcells (top + 8) (by omega), hstop]
    · rw [hcells (top + 16) (by omega), hbelow]

/-- The arena with a new record. -/
def Scratch.pushed (s : Scratch) (top after stop : Word) : Scratch :=
  { s.taken with
    cells := fun a =>
      if a = s.ptr - 24 + 16 then top
      else if a = s.ptr - 24 + 8 then stop
      else if a = s.ptr - 24 then after
      else s.cells a }

theorem Pending.push {top after stop : Word} {rest : List (Word × Word)} (h : Pending s top rest)
    (hs : s.Sound) (hroom : 24 ≤ s.room) :
    Pending (s.pushed top after stop) (s.ptr - 24) ((after, stop) :: rest) := by
  have hsub := s.sub_toNat hroom
  have hbase := hs.base
  have hlt := s.ptr.isLt
  unfold Scratch.room at hroom
  have h8 : (s.ptr - 24 + 8).toNat = s.ptr.toNat - 24 + 8 := by
    rw [BitVec.toNat_add, hsub]
    exact Nat.mod_eq_of_lt (by change s.ptr.toNat - 24 + 8 < 2 ^ 64; omega)
  have h16 : (s.ptr - 24 + 16).toNat = s.ptr.toNat - 24 + 16 := by
    rw [BitVec.toNat_add, hsub]
    exact Nat.mod_eq_of_lt (by change s.ptr.toNat - 24 + 16 < 2 ^ 64; omega)
  have hne : ∀ {a c : Word}, a.toNat ≠ c.toNat → a ≠ c := fun hac heq => hac (heq ▸ rfl)
  refine .cons (hne (by rw [hsub]; change _ ≠ 0; omega)) (Nat.le_refl _)
    (by rw [hsub]; omega) ?_ ?_ ?_ (h.keep ?_ fun a ha => ?_)
  · unfold Scratch.pushed
    dsimp only
    rw [if_neg (hne (by omega)), if_neg (hne (by omega)), if_pos rfl]
  · unfold Scratch.pushed
    dsimp only
    rw [if_neg (hne (by omega)), if_pos rfl]
  · unfold Scratch.pushed
    dsimp only
    rw [if_pos rfl]
  · change (s.ptr - 24).toNat ≤ s.ptr.toNat
    omega
  · unfold Scratch.pushed
    dsimp only
    rw [if_neg (hne (by omega)), if_neg (hne (by omega)), if_neg (hne (by omega))]

end

/-! ## The validator's loop -/

/-- Payloads one after the other, and the lists in all of them. -/
def rlpItemsAll : List Bytes → Except Exn Nat
  | [] => .ok 0
  | bs :: rest => do
    let inside ← rlpItems bs
    let behind ← rlpItemsAll rest
    return inside + behind

theorem rlpItemsAll_nil (rest : List Bytes) : rlpItemsAll ([] :: rest) = rlpItemsAll rest := by
  rw [rlpItemsAll, rlpItems_nil]
  change (rlpItemsAll rest >>= fun n => .ok (0 + n)) = _
  cases rlpItemsAll rest with
  | error e => rfl
  | ok n => exact congrArg Except.ok (Nat.zero_add n)

theorem rlpItemsAll_error {bs : Bytes} {e : Exn} (hne : bs ≠ []) (h : rlpHeader bs = .error e)
    (rest : List Bytes) : rlpItemsAll (bs :: rest) = .error e := by
  rw [rlpItemsAll, rlpItems_error hne h]
  rfl

theorem rlpItemsAll_string {bs : Bytes} {h : RlpHeader} (hrun : rlpHeader bs = .ok h)
    (hl : h.isList = false) (rest : List Bytes) :
    rlpItemsAll (bs :: rest) = rlpItemsAll (bs.drop h.total :: rest) := by
  rw [rlpItemsAll, rlpItemsAll, rlpItems_string hrun hl]

theorem rlpItemsAll_list {bs : Bytes} {h : RlpHeader} (hrun : rlpHeader bs = .ok h)
    (hl : h.isList = true) (rest : List Bytes) :
    rlpItemsAll (bs :: rest) =
      (· + 1) <$> rlpItemsAll (h.payloadOf bs :: bs.drop h.total :: rest) := by
  rw [rlpItemsAll, rlpItemsAll, rlpItemsAll, rlpItems_list hrun hl]
  cases rlpItems (h.payloadOf bs) with
  | error e => rfl
  | ok inside =>
    cases rlpItems (bs.drop h.total) with
    | error e => rfl
    | ok behind =>
      cases rlpItemsAll rest with
      | error e => rfl
      | ok n =>
        refine congrArg Except.ok ?_
        change inside + 1 + behind + n = inside + (behind + n) + 1
        omega

/-- What a run of the loop may do, when it should do `x` on `size` bytes: it needs 24 bytes of the
arena for each list. -/
inductive Ran (s : Scratch) (size : Nat) (x : Except Exn Nat) :
    EStateM.Result Exn Scratch Unit → Prop where
  | ok {n : Nat} {s' : Scratch} (hx : x = .ok n) (hroom : 24 * n ≤ s.room)
      (hmem : s'.frameMem = s.frameMem) : Ran s size x (.ok () s')
  | error {c : Nat} {s' : Scratch} (hx : x = .error (.rlp c)) (hmem : s'.frameMem = s.frameMem) :
      Ran s size x (.error (.rlp c) s')
  | trap {s' : Scratch} (hsize : s.room < 24 * size) (hx : ∀ n, x = .ok n → s.room < 24 * n) :
      Ran s size x (.error (.trap 7) s')

theorem Ran.mono {s : Scratch} {size size' : Nat} {x : Except Exn Nat}
    {r : EStateM.Result Exn Scratch Unit} (h : Ran s size x r) (hle : size ≤ size') :
    Ran s size' x r := by
  cases h with
  | ok hx hroom hmem => exact .ok hx hroom hmem
  | error hx hmem => exact .error hx hmem
  | trap hsize hx => exact .trap (by omega) hx

/-- The loop took a record for a list. -/
theorem Ran.record {s s' : Scratch} {size : Nat} {x : Except Exn Nat}
    {r : EStateM.Result Exn Scratch Unit} (h : Ran s' size x r) (hroom : s'.room + 24 = s.room)
    (hmem : s'.frameMem = s.frameMem) : Ran s (size + 1) ((· + 1) <$> x) r := by
  cases h with
  | ok hx hle hmem' =>
    refine .ok (n := _ + 1) (by rw [hx]; rfl) ?_ (hmem'.trans hmem)
    omega
  | error hx hmem' => exact .error (by rw [hx]; rfl) (hmem'.trans hmem)
  | trap hsize hx =>
    refine .trap (by omega) fun n hn => ?_
    cases x with
    | error e => cases hn
    | ok m =>
      cases hn
      have hm := hx m rfl
      change s.room < 24 * (m + 1)
      omega

/-- What the pending payloads are in the buffer. -/
def Buffer.views (b : Buffer) (ranges : List (Word × Word)) : List Bytes :=
  ranges.map fun r => b.bytes r.1 (r.2 - r.1)

def totalLength (bss : List Bytes) : Nat := (bss.map List.length).sum

/-- The payload of a header and what follows it, in words. -/
structure Splits (b : Buffer) (h : RlpHeader) (pos len : Word) : Prop where
  payload : b.bytes (pos + h.at.size) h.at.payload = h.payloadOf (b.bytes pos len)
  inside : b.Within (pos + h.at.size) h.at.payload
  behind : b.bytes (pos + h.at.size + h.at.payload) (len - (h.at.size + h.at.payload)) =
    (b.bytes pos len).drop h.total
  rest : b.Within (pos + h.at.size + h.at.payload) (len - (h.at.size + h.at.payload))
  le : h.total ≤ len.toNat

theorem splits_of_header {b : Buffer} {pos len : Word} {h : RlpHeader} (hw : b.Within pos len)
    (hrun : rlpHeader (b.bytes pos len) = .ok h) : Splits b h pos len := by
  have hr := frame_of_header hrun
  have hle := hr.le
  rw [Buffer.length_bytes] at hle
  have hlt := len.isLt
  have hsum : h.size + h.payload ≤ len.toNat := hle
  have hpayload : (BitVec.ofNat 64 h.payload).toNat = h.payload := toNat_ofNat_small (by omega)
  have hdrop : (b.bytes pos len).drop h.size =
      b.bytes (pos + BitVec.ofNat 64 h.size) (len - BitVec.ofNat 64 h.size) :=
    Buffer.bytes_drop (by omega)
  have hrest : (len - BitVec.ofNat 64 h.size).toNat = len.toNat - h.size :=
    Buffer.toNat_sub_ofNat (by omega)
  have hfits : BitVec.ofNat 64 h.payload ≤ len - BitVec.ofNat 64 h.size := by
    rw [BitVec.le_def, hpayload, hrest]
    omega
  have htotal : h.at.size + h.at.payload = BitVec.ofNat 64 h.total := (BitVec.ofNat_add _ _).symm
  refine ⟨?_, (hw.drop (by omega)).take hfits, ?_, ?_, hle⟩
  · have htake := Buffer.bytes_take (b := b) (p := pos + BitVec.ofNat 64 h.size) hfits
    rw [hpayload, ← hdrop] at htake
    exact htake.symm
  · rw [BitVec.add_assoc, htotal]
    exact (Buffer.bytes_drop hle).symm
  · rw [BitVec.add_assoc, htotal]
    exact hw.drop hle

/-! ## One round -/

section

variable [Stray] {b : Buffer} {s : Scratch} {fuel : Nat} {top pos stop : Word}

theorem validateLoop_end :
    rlpValidateLoop b (fuel + 1) 0 pos pos s = .ok () s := by
  rw [rlpValidateLoop, if_pos rfl, if_pos rfl]
  rfl

theorem validateLoop_pop {after stop : Word} {rest : List (Word × Word)}
    (h : Pending s top ((after, stop) :: rest)) : ∃ below, Pending s below rest ∧
      rlpValidateLoop b (fuel + 1) top pos pos s = rlpValidateLoop b fuel below after stop s := by
  cases h with
  | @cons _ below _ _ _ hne _ _ hafter hstop hbelow hrest =>
    refine ⟨below, hrest, ?_⟩
    rw [rlpValidateLoop, if_pos rfl, if_neg hne]
    change rlpValidateLoop b fuel (s.cells (top + 16)) (s.cells top) (s.cells (top + 8)) s = _
    rw [hafter, hstop, hbelow]

theorem validateLoop_item (hne : pos ≠ stop) (hw : b.Within pos (stop - pos)) :
    rlpValidateLoop b (fuel + 1) top pos stop s =
      (ofExcept (RlpHeader.at <$> rlpHeader (b.bytes pos (stop - pos))) >>= fun h =>
        if h.isList then do
          let record ← scratchAlloc 24
          st record (pos + h.size + h.payload)
          st (record + 8) stop
          st (record + 16) top
          rlpValidateLoop b fuel record (pos + h.size) (pos + h.size + h.payload)
        else rlpValidateLoop b fuel top (pos + h.size + h.payload) stop : RlpM Unit) s := by
  rw [rlpValidateLoop, if_neg hne, rlpItemHeader_eq hw]

theorem validateLoop_error {e : Exn} (hne : pos ≠ stop) (hw : b.Within pos (stop - pos))
    (hrun : rlpHeader (b.bytes pos (stop - pos)) = .error e) :
    rlpValidateLoop b (fuel + 1) top pos stop s = .error e s := by
  rw [validateLoop_item hne hw, hrun]
  rfl

theorem validateLoop_string {h : RlpHeader} (hne : pos ≠ stop) (hw : b.Within pos (stop - pos))
    (hrun : rlpHeader (b.bytes pos (stop - pos)) = .ok h) (hl : h.isList = false) :
    rlpValidateLoop b (fuel + 1) top pos stop s =
      rlpValidateLoop b fuel top (pos + h.at.size + h.at.payload) stop s := by
  rw [validateLoop_item hne hw, hrun]
  change (if h.isList = true then _ else _ : RlpM Unit) s = _
  rw [hl]
  rfl

theorem validateLoop_full {h : RlpHeader} (hs : s.Sound) (hroom : s.room < 24) (hne : pos ≠ stop)
    (hw : b.Within pos (stop - pos)) (hrun : rlpHeader (b.bytes pos (stop - pos)) = .ok h)
    (hl : h.isList = true) :
    rlpValidateLoop b (fuel + 1) top pos stop s = .error (.trap 7) s := by
  rw [validateLoop_item hne hw, hrun]
  change (if h.isList = true then _ else _ : RlpM Unit) s = _
  rw [hl]
  exact bind_run_error (scratchAlloc_trap hs hroom)

theorem validateLoop_list {h : RlpHeader} (hs : s.Sound) (hroom : 24 ≤ s.room) (hne : pos ≠ stop)
    (hw : b.Within pos (stop - pos)) (hrun : rlpHeader (b.bytes pos (stop - pos)) = .ok h)
    (hl : h.isList = true) :
    rlpValidateLoop b (fuel + 1) top pos stop s =
      rlpValidateLoop b fuel (s.ptr - 24) (pos + h.at.size) (pos + h.at.size + h.at.payload)
        (s.pushed top (pos + h.at.size + h.at.payload) stop) := by
  rw [validateLoop_item hne hw, hrun]
  change (if h.isList = true then _ else _ : RlpM Unit) s = _
  rw [hl]
  exact bind_run_ok (scratchAlloc_run hs hroom)

end

/-! ## The loop -/

theorem totalLength_cons (bs : Bytes) (rest : List Bytes) :
    totalLength (bs :: rest) = bs.length + totalLength rest := by
  simp [totalLength]

/-- The loop in a payload up to `stop`, with the pending lists around it. -/
theorem ran_validateLoop [Stray] {b : Buffer} {fuel : Nat} {s : Scratch} {top pos stop : Word}
    {stack : List (Word × Word)} (hs : s.Sound) (hp : Pending s top stack)
    (hw : ∀ r ∈ (pos, stop) :: stack, b.Within r.1 (r.2 - r.1))
    (hfuel : 2 * totalLength (b.views ((pos, stop) :: stack)) + stack.length < fuel) :
    Ran s (totalLength (b.views ((pos, stop) :: stack)))
      (rlpItemsAll (b.views ((pos, stop) :: stack))) (rlpValidateLoop b fuel top pos stop s) := by
  induction fuel generalizing s top pos stop stack with
  | zero => exact absurd hfuel (Nat.not_lt_zero _)
  | succ fuel ih =>
  obtain ⟨hfirst, hrest⟩ := List.forall_mem_cons.mp hw
  dsimp only at hfirst
  have hviews : ∀ pos stop, b.views ((pos, stop) :: stack) =
      b.bytes pos (stop - pos) :: b.views stack := fun _ _ => rfl
  rw [hviews, totalLength_cons, Buffer.length_bytes] at hfuel ⊢
  by_cases hend : pos = stop
  · -- The payload ends here, and the list around it goes on.
    subst hend
    have hzero : pos - pos = 0 := BitVec.sub_self pos
    rw [hzero] at hfuel ⊢
    rw [Buffer.bytes_zero, rlpItemsAll_nil]
    cases stack with
    | nil =>
      cases hp
      rw [validateLoop_end]
      exact .ok rfl (Nat.zero_le _) rfl
    | cons range rest =>
      obtain ⟨after, stop⟩ := range
      obtain ⟨below, hbelow, hrun⟩ := validateLoop_pop hp
      rw [hrun]
      refine (ih hs hbelow hrest ?_).mono (Nat.le_add_left _ _)
      rw [List.length_cons] at hfuel
      have hz : (0 : Word).toNat = 0 := rfl
      omega
  have hpos : 0 < (stop - pos).toNat := by
    refine Nat.pos_of_ne_zero fun hz => hend ?_
    have hsub : stop - pos = 0 := BitVec.eq_of_toNat_eq hz
    exact (sub_eq_zero.mp hsub).symm
  cases hrun : rlpHeader (b.bytes pos (stop - pos)) with
  | error e =>
    obtain ⟨c, rfl⟩ := rlpHeader_error hrun
    have hne : b.bytes pos (stop - pos) ≠ [] := by
      intro hnil
      have hlen := congrArg List.length hnil
      rw [Buffer.length_bytes, List.length_nil] at hlen
      omega
    rw [validateLoop_error hend hfirst hrun]
    exact .error (rlpItemsAll_error hne hrun _) rfl
  | ok h =>
    have hsplit := splits_of_header hfirst hrun
    have htotal := (frame_of_header hrun).total_pos
    have hle := hsplit.le
    have hbehind : stop - (pos + h.at.size + h.at.payload) =
        stop - pos - (h.at.size + h.at.payload) := by
      rw [add_assoc, sub_sub]
    have hviewRest : b.bytes (pos + h.at.size + h.at.payload)
        (stop - (pos + h.at.size + h.at.payload)) = (b.bytes pos (stop - pos)).drop h.total := by
      rw [hbehind, hsplit.behind]
    have hwRest : b.Within (pos + h.at.size + h.at.payload)
        (stop - (pos + h.at.size + h.at.payload)) := by
      rw [hbehind]
      exact hsplit.rest
    have hlenRest : (stop - (pos + h.at.size + h.at.payload)).toNat =
        (stop - pos).toNat - h.total := by
      have hlen := congrArg List.length hviewRest
      rwa [Buffer.length_bytes, List.length_drop, Buffer.length_bytes] at hlen
    cases hl : h.isList with
    | false =>
      rw [validateLoop_string hend hfirst hrun hl, rlpItemsAll_string hrun hl, ← hviewRest]
      refine (ih hs hp (List.forall_mem_cons.mpr ⟨hwRest, hrest⟩) ?_).mono ?_
      · rw [hviews, totalLength_cons, Buffer.length_bytes, hlenRest]
        omega
      · rw [hviews, totalLength_cons, Buffer.length_bytes, hlenRest]
        omega
    | true =>
      have hsize := (frame_of_header hrun).size_pos hl
      by_cases hroom : 24 ≤ s.room
      · rw [validateLoop_list hs hroom hend hfirst hrun hl]
        obtain ⟨hsound, htaken⟩ := hs.taken hroom
        have hinside : pos + h.at.size + h.at.payload - (pos + h.at.size) = h.at.payload :=
          add_sub_cancel_left _ _
        have hlist : b.views ((pos + h.at.size, pos + h.at.size + h.at.payload) ::
            (pos + h.at.size + h.at.payload, stop) :: stack) =
              h.payloadOf (b.bytes pos (stop - pos)) ::
                (b.bytes pos (stop - pos)).drop h.total :: b.views stack := by
          rw [← hsplit.payload, ← hviewRest]
          change b.bytes _ (_ - _) :: _ = _
          rw [hinside]
          rfl
        have hlen : totalLength (b.views ((pos + h.at.size, pos + h.at.size + h.at.payload) ::
            (pos + h.at.size + h.at.payload, stop) :: stack)) + 1 ≤
              (stop - pos).toNat + totalLength (b.views stack) := by
          rw [hlist, totalLength_cons, totalLength_cons, List.length_drop, Buffer.length_bytes,
            RlpHeader.length_payloadOf (by rw [Buffer.length_bytes]; exact hle)]
          unfold RlpHeader.total at hle ⊢
          omega
        have hih := ih (s := s.pushed top (pos + h.at.size + h.at.payload) stop)
          ⟨hsound.aligned, hsound.base, hsound.le⟩ (hp.push hs hroom)
          (List.forall_mem_cons.mpr ⟨by rw [hinside]; exact hsplit.inside,
            List.forall_mem_cons.mpr ⟨hwRest, hrest⟩⟩)
          (by rw [List.length_cons]; omega)
        rw [hlist] at hih
        rw [rlpItemsAll_list hrun hl]
        exact (hih.record htaken rfl).mono (hlist ▸ hlen)
      · rw [validateLoop_full hs (Nat.not_le.mp hroom) hend hfirst hrun hl,
          rlpItemsAll_list hrun hl]
        refine .trap (by omega) fun n hn => ?_
        cases hx : rlpItemsAll (h.payloadOf (b.bytes pos (stop - pos)) ::
            (b.bytes pos (stop - pos)).drop h.total :: b.views stack) with
        | error e =>
          rw [hx] at hn
          cases hn
        | ok m =>
          rw [hx] at hn
          obtain rfl : m + 1 = n := Except.ok.inj hn
          omega

end StatelessGuest
