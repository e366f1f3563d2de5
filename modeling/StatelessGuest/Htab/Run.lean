import StatelessGuest.Htab.Delete

/-!
# Runs of table operations

A table answers any sequence of operations as the finite map does, until an allocation traps.

* `htab_refines_map`: every run of a new table.
* `insertions`: the keys in the order in which they were inserted.
-/

namespace StatelessGuest

open Lib Heap

namespace Htab

variable {t : Htab} {m : OrdMap Bytes Word} {i : Word}

/-! ## New tables and copies -/

theorem newIn_spec {alloc : Word → HeapM Word} {code : Nat} (ha : Allocates alloc code)
    (hcode : code = 1 ∨ code = 7) {keyLen cap : Word} (hcap : ∃ k, cap.toNat = 2 ^ k) {s : Heap}
    (hs : s.Sound) :
    Outcome (fun t => t.Holds .empty ∧ t.keyLen = keyLen ∧ t.cap = cap) True
      (htabNewIn alloc keyLen cap s) := by
  unfold htabNewIn
  refine ha.bind hs (fun _ _ hs _ => ?_) fun _ => .trap hcode trivial
  refine ha.bind hs (fun keys _ hs _ => ?_) fun _ => .trap hcode trivial
  refine ha.bind hs (fun _ _ hs _ => ?_) fun _ => .trap hcode trivial
  refine ha.bind hs (fun _ _ hs hsmall => ?_) fun _ => .trap hcode trivial
  refine ha.bind hs (fun _ _ hs _ => ?_) fun _ => .trap hcode trivial
  refine ha.bind hs (fun _ s hs _ => ?_) fun _ => .trap hcode trivial
  rw [bind_run_ok (leftover_run s)]
  have hpow : IsPow cap := by
    obtain ⟨k, hk⟩ := hcap
    have hlt : 2 ^ k < 2 ^ 32 := hk ▸ hsmall
    exact ⟨k, by have := (Nat.pow_lt_pow_iff_right (by decide)).mp hlt; omega, hk⟩
  refine .ok ⟨hs.heap, hs.scratch, hs.small⟩ ⟨⟨?_, Nat.zero_le _, hsmall⟩, rfl, rfl⟩
  exact stores_empty hpow rfl fun i hi => memzero_eq hi

theorem copyIn_spec {alloc : Word → HeapM Word} {code : Nat} (ha : Allocates alloc code)
    (hcode : code = 1 ∨ code = 7) (h : t.Holds m) {s : Heap} (hs : s.Sound) :
    Outcome (fun t' => t'.Holds m ∧ t'.keyLen = t.keyLen) True (htabCopyIn alloc t s) := by
  unfold htabCopyIn
  refine ha.bind hs (fun _ _ hs _ => ?_) fun _ => .trap hcode trivial
  refine ha.bind hs (fun keys _ hs _ => ?_) fun _ => .trap hcode trivial
  refine ha.bind hs (fun _ _ hs _ => ?_) fun _ => .trap hcode trivial
  refine ha.bind hs (fun _ _ hs _ => ?_) fun _ => .trap hcode trivial
  refine ha.bind hs (fun _ _ hs _ => ?_) fun _ => .trap hcode trivial
  refine ha.bind hs (fun _ s hs _ => ?_) fun _ => .trap hcode trivial
  rw [bind_run_ok (leftover_run s)]
  refine .ok ⟨hs.heap, hs.scratch, hs.small⟩ ⟨⟨⟨h.pow, h.count, ?_, ?_⟩, h.load, h.small⟩, rfl⟩
  all_goals
    have hentry : Htab.entry { t with
        keys := memcpy (s.stale 0).keys t.keys t.cap
        vals := memcpy (s.stale 0).vals t.vals t.cap
        used := memcpy (s.stale 0).used t.used t.cap
        order := memcpy (s.stale 0).order t.order t.cap
        orderPos := memcpy (s.stale 0).orderPos t.orderPos t.cap
        keysPtr := keys } = t.entry := by
      funext i
      by_cases hi : i < t.cap
      · simp [entry, keyOf, keyAt, memcpy, hi, KeyAt.bytes]
      · simp [entry, hi]
  · rw [hentry]
    have hload := h.load
    have hsmall := h.small
    have hcopy : ∀ {a b : Word → Word} {i : Word}, i < t.cap → memcpy a b t.cap i = b i :=
      fun hi => if_pos hi
    apply h.linked.congr
    · intro k hk
      apply hcopy
      have hlen : m.entries.length = m.count := rfl
      rw [BitVec.lt_def, BitVec.toNat_ofNat, Nat.mod_eq_of_lt (by omega)]
      omega
    · intro p x hp
      exact congrArg BitVec.toNat (hcopy (entry_eq_some hp).1)
  · rw [hentry]
    exact h.chained

/-! ## Iteration -/

/-- What a client reads of an item. -/
def itemOf (t : Htab) (item : Word × KeyAt × Word) : Bytes × Word := (t.keyOf item.2.1, item.2.2)

/-- The loop over the ordinals meets each binding once, in the order of the map. -/
theorem Holds.items (h : t.Holds m) :
    (htabItems t).map t.itemOf = m.entries ∧ ∀ item ∈ htabItems t, item.1 ≠ 0 := by
  have hslot : ∀ k (hk : k < m.entries.length), t.entry (t.order (BitVec.ofNat 64 k)) =
      some m.entries[k] := fun k hk => (h.linked.slot k hk).1
  have hcount : t.count.toNat = m.entries.length := h.count
  constructor
  · apply List.ext_getElem
    · simp [htabItems, hcount]
    · intro k hk hk'
      obtain ⟨-, -, hentry⟩ := entry_eq_some (hslot k hk')
      simp [htabItems, htabItem, htabSlot, itemOf, hentry]
  · intro item hitem
    obtain ⟨k, hk, rfl⟩ := List.mem_map.mp hitem
    rw [List.mem_range, hcount] at hk
    obtain ⟨-, hused, -⟩ := entry_eq_some (hslot k hk)
    intro hzero
    apply hused
    have hnat := congrArg BitVec.toNat hzero
    have hlt := (t.used (t.order (BitVec.ofNat 64 k))).toNat_lt
    change (BitVec.ofNat 64 _).toNat = 0 at hnat
    rw [BitVec.toNat_ofNat, Nat.mod_eq_of_lt (by omega)] at hnat
    exact UInt8.toNat_inj.mp hnat

/-- The packed keys begin with the keys of the map. -/
theorem Holds.packedKeys (h : t.Holds m) (hstride : t.keyLen.toNat ≤ t.keyStride.toNat) {s : Heap}
    (hs : s.Sound) :
    Outcome (fun r => r.1.map (·.take t.keyLen.toNat) = m.keys ∧ r.2.toNat = m.count) True
      (htabKeys t s) := by
  unfold htabKeys
  refine heapAlloc_allocates.bind hs (fun _ _ hs _ => ?_) fun _ => .trap (.inl rfl) trivial
  have hcount : t.count.toNat = m.entries.length := h.count
  refine .ok hs ⟨?_, h.count⟩
  apply List.ext_getElem
  · simp [OrdMap.keys, hcount]
  · intro k hk hk'
    have hlt : k < m.entries.length := by simpa [OrdMap.keys] using hk'
    have hentry := (entry_eq_some (h.linked.slot k hlt).1).2.2
    simp only [OrdMap.keys, List.getElem_map, List.getElem_range, hentry,
      KeyAt.take_bytes _ hstride]
    rfl

end Htab

/-! ## Operations -/

/-- The operations on a table. After a copy, the run goes on with the copy. -/
inductive HtabOp where
  | get (key : KeyAt)
  | has (key : KeyAt)
  | set (key : KeyAt) (value : Word)
  | del (key : KeyAt)
  | truncate (n : Word)
  | copy
  | copyScratch
  | items

/-- What an operation answers. -/
inductive HtabAnswer where
  | value (found value : Word)
  | flag (b : Word)
  | done
  | items (es : List (Bytes × Word))
  deriving DecidableEq

namespace HtabOp

/-- The operation on a table. -/
def run (op : HtabOp) (t : Htab) : HeapM (HtabAnswer × Htab) :=
  match op with
  | get key => do
    let r ← ofExcept (htabGet t key)
    return (.value r.1 r.2, t)
  | has key => do
    let b ← ofExcept (htabHas t key)
    return (.flag b, t)
  | set key value => do
    let t ← htabSet t key value
    return (.done, t)
  | del key => do
    let r ← ofExcept (htabDel t key)
    return (.flag r.1, r.2)
  | truncate n => do
    let t ← ofExcept (htabTruncate t n)
    return (.done, t)
  | copy => do
    let t ← htabCopy t
    return (.done, t)
  | copyScratch => do
    let t ← htabCopyScratch t
    return (.done, t)
  | items => return (.items ((htabItems t).map t.itemOf), t)

/-- The operation on a finite map, for keys of `n` bytes. -/
def onMap (n : Nat) (op : HtabOp) (m : OrdMap Bytes Word) : HtabAnswer × OrdMap Bytes Word :=
  match op with
  | get key => (.value (Htab.found (m.get (key.bytes n))).1 (Htab.found (m.get (key.bytes n))).2, m)
  | has key => (.flag (if key.bytes n ∈ m.keys then 1 else 0), m)
  | set key value => (.done, m.set (key.bytes n) value)
  | del key => (.flag (if key.bytes n ∈ m.keys then 1 else 0), m.del (key.bytes n))
  | truncate k => (.done, m.truncate k.toNat)
  | copy => (.done, m)
  | copyScratch => (.done, m)
  | items => (.items m.entries, m)

/-- Whether an operation can allocate: a copy, or an insertion into a table that is half full. -/
def allocates (op : HtabOp) (t : Htab) (m : OrdMap Bytes Word) : Prop :=
  match op with
  | set key _ => t.keyOf key ∉ m.keys ∧ t.cap.toNat < 2 * (m.count + 1)
  | copy => True
  | copyScratch => True
  | _ => False

end HtabOp

theorem Htab.Outcome.done {P : Htab → Prop} {allocates : Prop} {x : HeapM Htab} {s : Heap}
    (h : Outcome P allocates (x s)) :
    Outcome (fun r => r.1 = .done ∧ P r.2) allocates
      ((x >>= fun t => pure (HtabAnswer.done, t)) s) := by
  generalize hrun : x s = r at h
  cases h with
  | ok hs hp =>
    rw [bind_run_ok hrun]
    exact .ok hs ⟨rfl, hp⟩
  | trap hcode hmay =>
    rw [bind_run_error hrun]
    exact .trap hcode hmay

namespace HtabOp

open Htab

/-- An operation keeps the table in step with the map. -/
theorem run_spec (op : HtabOp) {t : Htab} {m : OrdMap Bytes Word} (h : t.Holds m) {s : Heap}
    (hs : s.Sound) :
    Outcome (fun r => r.1 = (op.onMap t.keyLen.toNat m).1 ∧
      r.2.Holds (op.onMap t.keyLen.toNat m).2 ∧ r.2.keyLen = t.keyLen) (op.allocates t m)
      (op.run t s) := by
  cases op with
  | get key =>
    change Outcome _ _ ((ofExcept (htabGet t key) >>= _ : HeapM _) s)
    rw [h.get key]
    exact .ok hs ⟨rfl, h, rfl⟩
  | has key =>
    change Outcome _ _ ((ofExcept (htabHas t key) >>= _ : HeapM _) s)
    rw [h.has key]
    exact .ok hs ⟨rfl, h, rfl⟩
  | set key value => exact (h.set key value hs).done
  | del key =>
    obtain ⟨t', hrun, hholds, hlen⟩ := h.del key
    change Outcome _ _ ((ofExcept (htabDel t key) >>= _ : HeapM _) s)
    rw [hrun]
    exact .ok hs ⟨rfl, hholds, hlen⟩
  | truncate n =>
    obtain ⟨t', hrun, hholds, hlen⟩ := h.truncate n
    change Outcome _ _ ((ofExcept (htabTruncate t n) >>= _ : HeapM _) s)
    rw [hrun]
    exact .ok hs ⟨rfl, hholds, hlen⟩
  | copy => exact (copyIn_spec heapAlloc_allocates (.inl rfl) h hs).done
  | copyScratch => exact (copyIn_spec scratchAlloc_allocates (.inr rfl) h hs).done
  | items =>
    refine .ok hs ⟨?_, h, rfl⟩
    exact congrArg HtabAnswer.items h.items.1

end HtabOp

/-! ## Runs -/

/-- The operations one after the other, with their answers. -/
def runHtabOps : List HtabOp → Htab → HeapM (List HtabAnswer × Htab)
  | [], t => return ([], t)
  | op :: ops, t => do
    let r ← op.run t
    let rest ← runHtabOps ops r.2
    return (r.1 :: rest.1, rest.2)

/-- The operations on a finite map. -/
def mapOps (n : Nat) : List HtabOp → OrdMap Bytes Word → List HtabAnswer × OrdMap Bytes Word
  | [], m => ([], m)
  | op :: ops, m =>
    let r := op.onMap n m
    let rest := mapOps n ops r.2
    (r.1 :: rest.1, rest.2)

theorem runHtabOps_spec (ops : List HtabOp) {t : Htab} {m : OrdMap Bytes Word} (h : t.Holds m)
    {s : Heap} (hs : s.Sound) :
    Htab.Outcome (fun r => r.1 = (mapOps t.keyLen.toNat ops m).1 ∧
      r.2.Holds (mapOps t.keyLen.toNat ops m).2) True (runHtabOps ops t s) := by
  induction ops generalizing t m s with
  | nil => exact .ok hs ⟨rfl, h⟩
  | cons op ops ih =>
    have hop := op.run_spec h hs
    rw [runHtabOps]
    generalize hrun : op.run t s = r at hop
    cases hop with
    | trap hcode _ =>
      rw [bind_run_error hrun]
      exact .trap hcode trivial
    | @ok r s' hs' hp =>
      obtain ⟨hanswer, hholds, hlen⟩ := hp
      rw [bind_run_ok hrun]
      have hrest := ih hholds hs'
      rw [hlen] at hrest
      generalize hrun' : runHtabOps ops r.2 s' = r' at hrest
      cases hrest with
      | trap hcode _ =>
        rw [bind_run_error hrun']
        exact .trap hcode trivial
      | ok hs'' hp' =>
        rw [bind_run_ok hrun']
        refine .ok hs'' ⟨?_, hp'.2⟩
        rw [mapOps, hanswer, hp'.1]

/-! ## The order of insertion -/

/-- No key is deleted alone. -/
def HtabOp.isDel : HtabOp → Bool
  | del _ => true
  | _ => false

/-- The keys in the order in which they were inserted, without those that were dropped. -/
def insertions (n : Nat) : List HtabOp → List Bytes → List Bytes
  | [], ks => ks
  | .set key _ :: ops, ks =>
    insertions n ops (if key.bytes n ∈ ks then ks else ks ++ [key.bytes n])
  | .truncate k :: ops, ks => insertions n ops (ks.take k.toNat)
  | _ :: ops, ks => insertions n ops ks

theorem keys_truncate (m : OrdMap Bytes Word) (k : Nat) : (m.truncate k).keys = m.keys.take k := by
  unfold OrdMap.keys
  rw [OrdMap.entries_truncate, List.map_take]

theorem keys_mapOps {n : Nat} {ops : List HtabOp} (hops : ∀ op ∈ ops, op.isDel = false)
    (m : OrdMap Bytes Word) : (mapOps n ops m).2.keys = insertions n ops m.keys := by
  induction ops generalizing m with
  | nil => rfl
  | cons op ops ih =>
    have hih := fun m => ih (fun op hop => hops op (List.mem_cons_of_mem _ hop)) m
    cases op with
    | get key => exact hih m
    | has key => exact hih m
    | set key value =>
      change (mapOps n ops (m.set (key.bytes n) value)).2.keys = _
      rw [hih, OrdMap.keys_set, insertions]
      split <;> rfl
    | del key => exact nomatch (show true = false from hops _ List.mem_cons_self)
    | truncate k =>
      change (mapOps n ops (m.truncate k.toNat)).2.keys = _
      rw [hih, keys_truncate]
      rfl
    | copy => exact hih m
    | copyScratch => exact hih m
    | items => exact hih m

/-- An operation that keeps the first `k` entries: it deletes none of them and binds other keys
than theirs. -/
def HtabOp.After (n : Nat) (m : OrdMap Bytes Word) : HtabOp → Prop
  | set key _ => key.bytes n ∉ m.keys
  | del _ => False
  | truncate k => m.count ≤ k.toNat
  | _ => True

theorem entries_mapOps {n : Nat} {ops : List HtabOp} {m m' : OrdMap Bytes Word}
    (hops : ∀ op ∈ ops, op.After n m) (hm' : m.entries <+: m'.entries) :
    m.entries <+: (mapOps n ops m').2.entries := by
  induction ops generalizing m' with
  | nil => exact hm'
  | cons op ops ih =>
    obtain ⟨hop, hrest⟩ := List.forall_mem_cons.mp hops
    apply ih hrest
    cases op with
    | get key => exact hm'
    | has key => exact hm'
    | set key value =>
      change m.entries <+: (m'.set (key.bytes n) value).entries
      by_cases hmem : key.bytes n ∈ m'.keys
      · obtain ⟨⟨k, w⟩, he, hk⟩ := List.mem_map.mp hmem
        obtain ⟨j, hj, hget⟩ := List.getElem_of_mem he
        change k = key.bytes n at hk
        subst hk
        rw [OrdMap.entries_set_of_getElem (List.getElem?_eq_some_iff.mpr ⟨hj, hget⟩)]
        obtain ⟨tail, htail⟩ := hm'
        have hge : m.entries.length ≤ j := by
          apply Nat.le_of_not_lt
          intro hlt
          apply hop
          refine List.mem_map.mpr ⟨m.entries[j], List.getElem_mem hlt, ?_⟩
          have hsame : m'.entries[j] = m.entries[j] := by
            simp only [← htail, List.getElem_append_left hlt]
          rw [← hsame, hget]
        rw [← htail, List.set_append_right _ _ hge]
        exact List.prefix_append _ _
      · rw [OrdMap.entries_set_of_notMem _ hmem]
        exact hm'.trans (List.prefix_append _ _)
    | del key => exact absurd hop id
    | truncate k =>
      change m.entries <+: (m'.truncate k.toNat).entries
      rw [OrdMap.entries_truncate]
      exact List.prefix_take_iff.mpr ⟨hm', hop⟩
    | copy => exact hm'
    | copyScratch => exact hm'
    | items => exact hm'

theorem mapOps_append (n : Nat) (ops ops' : List HtabOp) (m : OrdMap Bytes Word) :
    (mapOps n (ops ++ ops') m).2 = (mapOps n ops' (mapOps n ops m).2).2 := by
  induction ops generalizing m with
  | nil => rfl
  | cons op ops ih => exact ih _

theorem mapOps_truncate (n : Nat) (k : Word) (m : OrdMap Bytes Word) :
    (mapOps n [.truncate k] m).2 = m.truncate k.toNat := rfl

/-- A new table of one of the two arenas. -/
def newTable (scratch : Bool) : Word → Word → HeapM Htab :=
  if scratch then htabNewScratch else htabNew

theorem newTable_spec (scratch : Bool) {keyLen cap : Word} (hcap : ∃ k, cap.toNat = 2 ^ k)
    {s : Heap} (hs : s.Sound) :
    Htab.Outcome (fun t => t.Holds .empty ∧ t.keyLen = keyLen ∧ t.cap = cap) True
      (newTable scratch keyLen cap s) := by
  unfold newTable
  cases scratch with
  | false =>
    rw [if_neg Bool.false_ne_true, htabNew]
    exact Htab.newIn_spec heapAlloc_allocates (.inl rfl) hcap hs
  | true =>
    rw [if_pos rfl, htabNewScratch]
    exact Htab.newIn_spec scratchAlloc_allocates (.inr rfl) hcap hs

theorem newTable_run (scratch : Bool) {keyLen cap : Word} (hcap : ∃ k, cap.toNat = 2 ^ k)
    (ops : List HtabOp) {s : Heap} (hs : s.Sound) :
    Htab.Outcome (fun r => r.1 = (mapOps keyLen.toNat ops .empty).1 ∧
        r.2.Holds (mapOps keyLen.toNat ops .empty).2) True
      ((newTable scratch keyLen cap >>= runHtabOps ops) s) := by
  have hnew : Htab.Outcome (fun t : Htab => t.Holds .empty ∧ t.keyLen = keyLen ∧ t.cap = cap) True
      (newTable scratch keyLen cap s) := newTable_spec scratch hcap hs
  generalize hrun : newTable scratch keyLen cap s = r at hnew
  cases hnew with
  | trap hcode _ =>
    rw [bind_run_error hrun]
    exact .trap hcode trivial
  | ok hs' hp =>
    obtain ⟨hholds, hlen, -⟩ := hp
    rw [bind_run_ok hrun, ← hlen]
    exact runHtabOps_spec ops hholds hs'

theorem mapOps_restore {n : Nat} {ops ops' : List HtabOp} {k : Word}
    (hk : k.toNat = (mapOps n ops .empty).2.count)
    (hops' : ∀ op ∈ ops', op.After n (mapOps n ops .empty).2) :
    (mapOps n (ops ++ ops' ++ [.truncate k]) .empty).2 = (mapOps n ops .empty).2 := by
  apply OrdMap.ext
  rw [mapOps_append, mapOps_append, mapOps_truncate, OrdMap.entries_truncate, hk]
  exact (List.prefix_iff_eq_take.mp (entries_mapOps hops' List.prefix_rfl)).symm

/-- The arenas at the start of the guest. -/
def heapInit (stale : Nat → TableArrays) : Heap where
  heapPtr := 2701131776
  scratchPtr := 2701127680
  frameMem := 2688618496
  stale := stale

theorem heapInit_sound (stale : Nat → TableArrays) : (heapInit stale).Sound :=
  ⟨show (2701131776 : Word) ≤ heapEnd by decide,
    show (2688618496 : Word) ≤ 2701127680 by decide, show (2701127680 : Word).toNat < 2 ^ 32 by decide⟩

end StatelessGuest
