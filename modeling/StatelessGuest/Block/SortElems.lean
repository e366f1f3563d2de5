import StatelessGuest.Lib.LittleEndian
import StatelessGuest.Lib.MergePass
import StatelessGuest.Ram.Heap

/-!
# Sorting the lists of the block access list

The elements of an array are sorted by their first word, by the address or by the 32-byte string
that they start with. Runs of elements are merged between the array and a buffer on the heap, and
the sorted elements are copied back when they ended in the buffer.

* `balSortGt`, `sortElems`: the comparison and the sort.
* `keyOf`: the key as a number; `balSortGt_run`: the comparison is that of the keys.
* `sortElems_sorts`: the sort is stable, and no other memory is left changed.
-/

namespace StatelessGuest.Ram

open Lib

/-! ## The programs -/

/-- `while k < len`, with `left` bytes to go. -/
def balSortGtLoop (a b len : Nat) : Nat → RamM Nat
  | 0 => return 0
  | left + 1 => do
    let ca ← ld8 (a + (len - (left + 1)))
    let cb ← ld8 (b + (len - (left + 1)))
    if ca ≠ cb then
      if ca > cb then return 1 else return 0
    else balSortGtLoop a b len left

def balSortGt (a b kind : Nat) : RamM Nat :=
  if kind = 0 then do
    let va ← lds a
    let vb ← lds b
    if leNat va > leNat vb then return 1 else return 0
  else
    let len := if kind = 2 then 32 else 20
    balSortGtLoop a b len len

/-- `while (i < mid) && (j < right)`. -/
def mergeLoop (src dst esz kind mid right : Nat) : Nat → Nat → Nat → Nat → RamM (Nat × Nat × Nat)
  | 0, i, j, k => if i < mid ∧ j < right then throw .outOfFuel else return (i, j, k)
  | fuel + 1, i, j, k =>
    if i < mid ∧ j < right then do
      let a := src + i * esz
      let b := src + j * esz
      let gt ← balSortGt a b kind
      if gt = 0 then do
        memcpy (dst + k * esz) a esz
        mergeLoop src dst esz kind mid right fuel (i + 1) j (k + 1)
      else do
        memcpy (dst + k * esz) b esz
        mergeLoop src dst esz kind mid right fuel i (j + 1) (k + 1)
    else return (i, j, k)

/-- `while i < stop`: the elements that are left of one run. -/
def restLoop (src dst esz stop : Nat) : Nat → Nat → Nat → RamM Nat
  | 0, i, k => if i < stop then throw .outOfFuel else return k
  | fuel + 1, i, k =>
    if i < stop then do
      memcpy (dst + k * esz) (src + i * esz) esz
      restLoop src dst esz stop fuel (i + 1) (k + 1)
    else return k

/-- Two neighbouring runs. -/
def mergePair (src dst n esz kind left mid right : Nat) : RamM Unit := do
  let (i, j, k) ← mergeLoop src dst esz kind mid right n left mid left
  let k ← restLoop src dst esz mid n i k
  let _ ← restLoop src dst esz right n j k

/-- `while left < n`: the runs in pairs. -/
def pairLoop (src dst n esz kind width : Nat) : Nat → Nat → RamM Unit
  | 0, left => if left < n then throw .outOfFuel else return ()
  | fuel + 1, left =>
    if left < n then do
      let mid := if left + width > n then n else left + width
      let right := if mid + width > n then n else mid + width
      mergePair src dst n esz kind left mid right
      pairLoop src dst n esz kind width fuel right
    else return ()

/-- `while width < n`, with the array that the elements are in at the end. -/
def widthLoop (n esz kind : Nat) : Nat → Nat → Nat → Nat → RamM Nat
  | 0, src, _, width => if width < n then throw .outOfFuel else return src
  | fuel + 1, src, dst, width =>
    if width < n then do
      pairLoop src dst n esz kind width n 0
      widthLoop n esz kind fuel dst src (width * 2)
    else return src

/-- `if src != p`. -/
def copyBack (p src n : Nat) : RamM Unit := if src ≠ p then memcpy p src n else return ()

def sortElems (p n esz kind _tmp : Nat) : RamM Unit :=
  if n < 2 then return ()
  else do
    let mark ← heapMark
    let aux ← alloc (n * esz)
    let src ← widthLoop n esz kind n p aux 1
    copyBack p src (n * esz)
    heapRelease mark

/-! ## Keys -/

/-- The length of the key. -/
def keyLen (kind : Nat) : Nat := if kind = 0 then 8 else if kind = 2 then 32 else 20

/-- The key as a number: a word, or a big-endian string. -/
def keyOf (kind : Nat) (x : Bytes) : Nat :=
  if kind = 0 then leNat (x.take (keyLen kind)) else beNat (x.take (keyLen kind))

/-- The elements of an array. -/
def elems (m : ByteMap) (p esz : Nat) : Nat → List Bytes
  | 0 => []
  | n + 1 => m.load p esz :: elems m (p + esz) esz n

variable {s : Ram} {m m' : ByteMap} {p n esz kind a b src dst : Nat} {xs out : List Bytes}

theorem take_load (m : ByteMap) (p : Nat) {i n : Nat} (h : i ≤ n) :
    (m.load p n).take i = m.load p i := by
  obtain ⟨k, rfl⟩ := Nat.exists_eq_add_of_le h
  rw [ByteMap.load_add, List.take_left' (ByteMap.length_load _ _ _)]

/-- The first difference decides between two strings of one length. -/
theorem balSortGtLoop_run (s : Ram) (a b len : Nat) {left : Nat} (hleft : left ≤ len) :
    balSortGtLoop a b len left s =
      .ok (if beNat (s.bytes.load (b + (len - left)) left) <
        beNat (s.bytes.load (a + (len - left)) left) then 1 else 0) s := by
  induction left with
  | zero => rfl
  | succ left ih =>
    have hnext : ∀ q, q + (len - (left + 1)) + 1 = q + (len - left) := by omega
    rw [balSortGtLoop, bind_run_ok (ld8_run _ _), bind_run_ok (ld8_run _ _), ByteMap.load,
      ByteMap.load, beNat_cons, beNat_cons, hnext, hnext, ByteMap.length_load, ByteMap.length_load]
    have hra := beNat_lt (s.bytes.load (a + (len - left)) left)
    have hrb := beNat_lt (s.bytes.load (b + (len - left)) left)
    rw [ByteMap.length_load] at hra hrb
    generalize hca : (s.bytes (a + (len - (left + 1)))).toNat = ca
    generalize hcb : (s.bytes (b + (len - (left + 1)))).toNat = cb
    split
    · next hne =>
      rcases Nat.lt_or_ge cb ca with hgt | hle
      · have hmul : (cb + 1) * 256 ^ left ≤ ca * 256 ^ left := Nat.mul_le_mul_right _ hgt
        rw [Nat.succ_mul] at hmul
        rw [if_pos hgt, if_pos (by omega)]
        rfl
      · have hlt : ca < cb := by omega
        have hmul : (ca + 1) * 256 ^ left ≤ cb * 256 ^ left := Nat.mul_le_mul_right _ hlt
        rw [Nat.succ_mul] at hmul
        rw [if_neg (by omega), if_neg (by omega)]
        rfl
    · next heq =>
      rw [not_not] at heq
      subst heq
      rw [ih (by omega)]
      refine congrArg (EStateM.Result.ok · s) (if_congr ?_ rfl rfl)
      omega

/-- One element sorts behind another one if its key is larger. -/
theorem balSortGt_run (s : Ram) (a b : Nat) (hkey : keyLen kind ≤ esz) :
    balSortGt a b kind s = .ok (if keyOf kind (s.bytes.load b esz) <
      keyOf kind (s.bytes.load a esz) then 1 else 0) s := by
  have hlds : ∀ q, lds q s = .ok (s.bytes.load q 8) s := fun q => rfl
  unfold balSortGt keyOf
  rw [take_load _ _ hkey, take_load _ _ hkey]
  unfold keyLen
  by_cases hkind : kind = 0
  · rw [if_pos hkind, if_pos hkind, if_pos hkind, if_pos hkind, bind_run_ok (hlds a),
      bind_run_ok (hlds b)]
    by_cases hgt : leNat (s.bytes.load b 8) < leNat (s.bytes.load a 8)
    · rw [if_pos hgt, if_pos hgt]
      rfl
    · rw [if_neg hgt, if_neg hgt]
      rfl
  · rw [if_neg hkind, if_neg hkind, if_neg hkind, if_neg hkind,
      balSortGtLoop_run s a b _ (Nat.le_refl _), Nat.sub_self, Nat.add_zero, Nat.add_zero]

/-! ## Arrays of elements -/

@[simp] theorem length_elems (m : ByteMap) (p esz n : Nat) : (elems m p esz n).length = n := by
  induction n generalizing p with
  | zero => rfl
  | succ n ih => rw [elems, List.length_cons, ih]

theorem getElem?_elems {i : Nat} (hi : i < n) :
    (elems m p esz n)[i]? = some (m.load (p + i * esz) esz) := by
  induction n generalizing p i with
  | zero => exact absurd hi (Nat.not_lt_zero i)
  | succ n ih =>
    cases i with
    | zero =>
      rw [Nat.zero_mul]
      rfl
    | succ i =>
      rw [elems, List.getElem?_cons_succ, ih (Nat.lt_of_succ_lt_succ hi), Nat.succ_mul,
        Nat.add_assoc, Nat.add_comm esz]

theorem length_of_mem_elems {x : Bytes} (h : x ∈ elems m p esz n) : x.length = esz := by
  induction n generalizing p with
  | zero => exact absurd h List.not_mem_nil
  | succ n ih =>
    rcases List.mem_cons.mp h with rfl | h
    · exact ByteMap.length_load _ _ _
    · exact ih h

theorem flatten_elems (m : ByteMap) (p esz n : Nat) :
    (elems m p esz n).flatten = m.load p (n * esz) := by
  induction n generalizing p with
  | zero =>
    rw [Nat.zero_mul]
    rfl
  | succ n ih =>
    rw [elems, List.flatten_cons, ih, Nat.succ_mul, Nat.add_comm (n * esz), ByteMap.load_add]

theorem elems_congr (h : m'.load p (n * esz) = m.load p (n * esz)) :
    elems m' p esz n = elems m p esz n := by
  induction n generalizing p with
  | zero => rfl
  | succ n ih =>
    rw [Nat.succ_mul, Nat.add_comm, ByteMap.load_add, ByteMap.load_add] at h
    obtain ⟨hfirst, hrest⟩ := List.append_inj h (by rw [ByteMap.length_load, ByteMap.length_load])
    rw [elems, elems, hfirst, ih hrest]

theorem length_flatten (h : ∀ x ∈ out, x.length = esz) :
    out.flatten.length = out.length * esz := by
  induction out with
  | nil =>
    rw [List.length_nil, Nat.zero_mul]
    rfl
  | cons x out ih =>
    rw [List.flatten_cons, List.length_append, h x List.mem_cons_self,
      ih fun y hy => h y (List.mem_cons_of_mem x hy), List.length_cons, Nat.succ_mul, Nat.add_comm]

/-- What was written is there. -/
theorem elems_put (s : Ram) (p : Nat) (h : ∀ x ∈ out, x.length = esz) :
    elems (s.put p out.flatten).bytes p esz out.length = out := by
  induction out generalizing s p with
  | nil => rfl
  | cons x out ih =>
    have hx := h x List.mem_cons_self
    have hrest := fun y hy => h y (List.mem_cons_of_mem x hy)
    have hfirst : (s.put p (x :: out).flatten).bytes.load p esz = x := by
      rw [List.flatten_cons, put_append, hx, put_bytes,
        ByteMap.load_store_of_disjoint (.inl (Nat.le_refl _)), ← hx]
      exact ByteMap.load_store_self _ _ _
    rw [List.length_cons, elems, hfirst, List.flatten_cons, put_append, hx, ih _ _ hrest]

/-- The elements from `i` up to `j`. -/
def slice (xs : List Bytes) (i j : Nat) : List Bytes := (xs.take j).drop i

theorem slice_nil {i j : Nat} (h : j ≤ i) : slice xs i j = [] := by
  refine List.drop_eq_nil_of_le ?_
  rw [List.length_take]
  omega

theorem slice_cons {i j : Nat} {x : Bytes} (hx : xs[i]? = some x) (hij : i < j) :
    slice xs i j = x :: slice xs (i + 1) j := by
  obtain ⟨hi, rfl⟩ := List.getElem?_eq_some_iff.mp hx
  unfold slice
  rw [List.drop_eq_getElem_cons (by rw [List.length_take]; omega), List.getElem_take]

/-! ## One pass -/

/-- The elements are written at the front of an array. -/
def filled (s : Ram) (dst : Nat) (out : List Bytes) : Ram := s.put dst out.flatten

@[simp] theorem filled_heapPtr (s : Ram) (dst : Nat) (out : List Bytes) :
    (s.filled dst out).heapPtr = s.heapPtr := rfl

theorem filled_nil (s : Ram) (dst : Nat) : s.filled dst [] = s := by
  unfold filled put
  rw [List.flatten_nil, ByteMap.store_nil]

theorem filled_snoc (hout : ∀ x ∈ out, x.length = esz) (x : Bytes) :
    (s.filled dst out).put (dst + out.length * esz) x = s.filled dst (out ++ [x]) := by
  unfold filled
  rw [List.flatten_append, put_append, length_flatten hout, List.flatten_singleton]

section

variable {i j k mid right : Nat}

/-- An element behind `i` others. -/
theorem elem_le (esz : Nat) (hi : i < n) : i * esz + esz ≤ n * esz := by
  have hle : (i + 1) * esz ≤ n * esz := Nat.mul_le_mul_right esz hi
  rwa [Nat.succ_mul] at hle

theorem filled_read (hap : src + n * esz ≤ dst ∨ dst + n * esz ≤ src)
    (hout : ∀ x ∈ out, x.length = esz) (hk : out.length ≤ n) (hi : i < n) :
    (s.filled dst out).bytes.load (src + i * esz) esz = s.bytes.load (src + i * esz) esz := by
  have hle := elem_le esz hi
  have hlen : out.length * esz ≤ n * esz := Nat.mul_le_mul_right esz hk
  refine ByteMap.load_store_of_disjoint ?_
  rw [length_flatten hout]
  omega

/-- One element is moved behind the others. -/
theorem move_run (hap : src + n * esz ≤ dst ∨ dst + n * esz ≤ src)
    (hout : ∀ x ∈ out, x.length = esz) (hk : out.length < n) (hi : i < n) :
    memcpy (dst + out.length * esz) (src + i * esz) esz (s.filled dst out) =
      .ok () (s.filled dst (out ++ [s.bytes.load (src + i * esz) esz])) := by
  have hsrc := elem_le esz hi
  have hdst := elem_le esz hk
  rw [memcpy_run (by omega), filled_read hap hout (Nat.le_of_lt hk) hi, filled_snoc hout]

/-- The elements that are left of one run are moved. -/
theorem restLoop_run (hap : src + n * esz ≤ dst ∨ dst + n * esz ≤ src) {stop fuel : Nat}
    (hstop : stop ≤ n) (hfuel : stop ≤ fuel + i) (hout : ∀ x ∈ out, x.length = esz)
    (hroom : out.length + (stop - i) ≤ n) :
    restLoop src dst esz stop fuel i out.length (s.filled dst out) =
      .ok (out ++ slice (elems s.bytes src esz n) i stop).length
        (s.filled dst (out ++ slice (elems s.bytes src esz n) i stop)) := by
  induction fuel generalizing i out with
  | zero =>
    have hend : stop ≤ i := by omega
    rw [restLoop, if_neg (Nat.not_lt.mpr hend), slice_nil hend, List.append_nil]
    rfl
  | succ fuel ih =>
    rw [restLoop]
    split
    · next hlt =>
      have hi : i < n := by omega
      have hget : (elems s.bytes src esz n)[i]? = some (s.bytes.load (src + i * esz) esz) :=
        getElem?_elems hi
      have hout' : ∀ x ∈ out ++ [s.bytes.load (src + i * esz) esz], x.length = esz := by
        intro x hx
        rcases List.mem_append.mp hx with hx | hx
        · exact hout x hx
        · rw [List.mem_singleton.mp hx, ByteMap.length_load]
      have hlen : out.length + 1 = (out ++ [s.bytes.load (src + i * esz) esz]).length := by
        rw [List.length_append, List.length_singleton]
      rw [bind_run_ok (move_run hap hout (by omega) hi), hlen, ih (by omega) hout' (by omega),
        slice_cons hget hlt, List.append_assoc, List.singleton_append]
    · next hend =>
      rw [slice_nil (Nat.not_lt.mp hend), List.append_nil]
      rfl

/-- The elements are merged until one of the runs is empty. -/
theorem mergeLoop_run (hkey : keyLen kind ≤ esz) (hap : src + n * esz ≤ dst ∨ dst + n * esz ≤ src)
    (hmid : mid ≤ n) (hright : right ≤ n) {fuel : Nat} (hi : i ≤ mid) (hj : j ≤ right)
    (hfuel : (mid - i) + (right - j) ≤ fuel) (hout : ∀ x ∈ out, x.length = esz)
    (hroom : out.length + ((mid - i) + (right - j)) ≤ n) :
    ∃ i' j' out', mergeLoop src dst esz kind mid right fuel i j out.length (s.filled dst out) =
        .ok (i', j', out'.length) (s.filled dst out') ∧
      (∀ x ∈ out', x.length = esz) ∧ i' ≤ mid ∧ j' ≤ right ∧ (mid ≤ i' ∨ right ≤ j') ∧
      out'.length + ((mid - i') + (right - j')) = out.length + ((mid - i) + (right - j)) ∧
      out' ++ mergeBy (keyOf kind) (slice (elems s.bytes src esz n) i' mid)
          (slice (elems s.bytes src esz n) j' right) =
        out ++ mergeBy (keyOf kind) (slice (elems s.bytes src esz n) i mid)
          (slice (elems s.bytes src esz n) j right) := by
  induction fuel generalizing i j out with
  | zero =>
    refine ⟨i, j, out, ?_, hout, hi, hj, .inl (by omega), rfl, rfl⟩
    rw [mergeLoop, if_neg (by omega)]
    rfl
  | succ fuel ih =>
    rw [mergeLoop]
    split
    · next hboth =>
      have hin : i < n := by omega
      have hjn : j < n := by omega
      have hgeti : (elems s.bytes src esz n)[i]? = some (s.bytes.load (src + i * esz) esz) :=
        getElem?_elems hin
      have hgetj : (elems s.bytes src esz n)[j]? = some (s.bytes.load (src + j * esz) esz) :=
        getElem?_elems hjn
      have hsnoc : ∀ q, (∀ x ∈ out ++ [s.bytes.load q esz], x.length = esz) ∧
          out.length + 1 = (out ++ [s.bytes.load q esz]).length := by
        intro q
        refine ⟨fun x hx => ?_, by rw [List.length_append, List.length_singleton]⟩
        rcases List.mem_append.mp hx with hx | hx
        · exact hout x hx
        · rw [List.mem_singleton.mp hx, ByteMap.length_load]
      have hgt := balSortGt_run (s.filled dst out) (src + i * esz) (src + j * esz) hkey
      rw [filled_read hap hout (by omega) hin, filled_read hap hout (by omega) hjn] at hgt
      rw [bind_run_ok hgt, slice_cons hgeti hboth.1, slice_cons hgetj hboth.2]
      unfold mergeBy
      rw [List.cons_merge_cons]
      by_cases hlt : keyOf kind (s.bytes.load (src + j * esz) esz) <
          keyOf kind (s.bytes.load (src + i * esz) esz)
      · -- the element of the second run is smaller
        obtain ⟨hout', hlen⟩ := hsnoc (src + j * esz)
        obtain ⟨i', j', out', hrun, hall, hi', hj', hend, hcount, hmerge⟩ :=
          ih (j := j + 1) hi (by omega) (by omega) hout' (by omega)
        refine ⟨i', j', out', ?_, hall, hi', hj', hend, by omega, ?_⟩
        · rw [if_pos hlt, if_neg (by decide), bind_run_ok (move_run hap hout (by omega) hjn), hlen,
            hrun]
        · rw [if_neg (by rwa [decide_eq_true_eq, not_le]), ← slice_cons hgeti hboth.1]
          rw [List.append_assoc, List.singleton_append] at hmerge
          exact hmerge
      · obtain ⟨hout', hlen⟩ := hsnoc (src + i * esz)
        obtain ⟨i', j', out', hrun, hall, hi', hj', hend, hcount, hmerge⟩ :=
          ih (i := i + 1) (by omega) hj (by omega) hout' (by omega)
        refine ⟨i', j', out', ?_, hall, hi', hj', hend, by omega, ?_⟩
        · rw [if_neg hlt, if_pos rfl, bind_run_ok (move_run hap hout (by omega) hin), hlen, hrun]
        · rw [if_pos (by rwa [decide_eq_true_eq, ← not_lt]), ← slice_cons hgetj hboth.2]
          rw [List.append_assoc, List.singleton_append] at hmerge
          exact hmerge
    · next hend => exact ⟨i, j, out, rfl, hout, hi, hj, by omega, rfl, rfl⟩

/-- The last element that a clamped run has. -/
theorem slice_eq_take {w j : Nat} (hj : j = min (i + w) xs.length) :
    slice xs i j = (xs.drop i).take w := by
  unfold slice
  rw [List.drop_take, List.take_eq_take_iff, List.length_drop]
  omega

theorem drop_clamp (h : i = min j xs.length) : xs.drop i = xs.drop j := by
  rcases Nat.le_total j xs.length with hle | hle
  · rw [h, Nat.min_eq_left hle]
  · rw [h, Nat.min_eq_right hle, List.drop_length, List.drop_eq_nil_of_le hle]

/-- Two runs are merged behind what is there. -/
theorem mergePair_run (hkey : keyLen kind ≤ esz)
    (hap : src + n * esz ≤ dst ∨ dst + n * esz ≤ src) (hmid : out.length ≤ mid)
    (hright : mid ≤ right) (hn : right ≤ n) (hout : ∀ x ∈ out, x.length = esz) :
    mergePair src dst n esz kind out.length mid right (s.filled dst out) =
      .ok () (s.filled dst (out ++ mergeBy (keyOf kind)
        (slice (elems s.bytes src esz n) out.length mid)
        (slice (elems s.bytes src esz n) mid right))) := by
  have hroom : out.length + ((mid - out.length) + (right - mid)) ≤ n := by omega
  obtain ⟨i, j, out', hmerge, hall, hi, hj, hend, hcount, heq⟩ :=
    mergeLoop_run (s := s) hkey hap (hright.trans hn) hn hmid hright
      (Nat.le_of_add_left_le hroom) hout hroom
  have hfirst := restLoop_run (s := s) hap (hright.trans hn) (Nat.le_add_right_of_le
    (hright.trans hn) : mid ≤ n + i) hall (by omega)
  have hall' : ∀ x ∈ out' ++ slice (elems s.bytes src esz n) i mid, x.length = esz := by
    intro x hx
    rcases List.mem_append.mp hx with hx | hx
    · exact hall x hx
    · exact length_of_mem_elems (List.mem_of_mem_take (List.mem_of_mem_drop hx))
  have hlen : (slice (elems s.bytes src esz n) i mid).length = mid - i := by
    unfold slice
    rw [List.length_drop, List.length_take, length_elems]
    omega
  have hsecond := restLoop_run (s := s) (i := j) hap hn (Nat.le_add_right_of_le hn : right ≤ n + j)
    hall' (by rw [List.length_append, hlen]; omega)
  have hrest : mergeBy (keyOf kind) (slice (elems s.bytes src esz n) i mid)
      (slice (elems s.bytes src esz n) j right) =
        slice (elems s.bytes src esz n) i mid ++ slice (elems s.bytes src esz n) j right := by
    rcases hend with hend | hend
    · rw [slice_nil hend, mergeBy_nil_left, List.nil_append]
    · rw [slice_nil hend, mergeBy_nil_right, List.append_nil]
  unfold mergePair
  rw [bind_run_ok hmerge]
  dsimp only
  rw [bind_run_ok hfirst, bind_run_ok hsecond, ← heq, hrest, List.append_assoc]
  rfl

/-- A pair of runs with its ends clamped, and the elements `rest` from its start on. -/
theorem clampedPair_run (hkey : keyLen kind ≤ esz)
    (hap : src + n * esz ≤ dst ∨ dst + n * esz ≤ src) {width : Nat} {rest : List Bytes}
    (hle : out.length ≤ n) (hout : ∀ x ∈ out, x.length = esz)
    (hrest : rest = (elems s.bytes src esz n).drop out.length)
    (hmid : mid = min (out.length + width) n) (hright : right = min (mid + width) n) :
    ∃ merged, merged = mergeBy (keyOf kind) (rest.take width) ((rest.drop width).take width) ∧
      mergePair src dst n esz kind out.length mid right (s.filled dst out) =
        .ok () (s.filled dst (out ++ merged)) ∧
      (∀ x ∈ out ++ merged, x.length = esz) ∧ (out ++ merged).length = right ∧
      (elems s.bytes src esz n).drop right = rest.drop (2 * width) := by
  have hlen := length_elems s.bytes src esz n
  have hrun := mergePair_run (s := s) hkey hap (show out.length ≤ mid by omega)
    (show mid ≤ right by omega) (show right ≤ n by omega) hout
  have hmid' : mid = min (out.length + width) (elems s.bytes src esz n).length := by rwa [hlen]
  have hright' : right = min (mid + width) (elems s.bytes src esz n).length := by rwa [hlen]
  rw [slice_eq_take hmid', slice_eq_take hright', drop_clamp hmid', ← List.drop_drop,
    ← hrest] at hrun
  have hperm := mergeBy_perm (keyOf kind) (rest.take width) ((rest.drop width).take width)
  have hcount := hperm.length_eq
  have hlong : rest.length = n - out.length := by rw [hrest, List.length_drop, hlen]
  rw [List.length_append, List.length_take, List.length_take, List.length_drop, hlong] at hcount
  have hmem : ∀ x ∈ rest, x.length = esz := fun x hx =>
    length_of_mem_elems (List.mem_of_mem_drop (hrest ▸ hx))
  refine ⟨_, rfl, hrun, fun x hx => ?_, ?_, ?_⟩
  · rcases List.mem_append.mp hx with hx | hx
    · exact hout x hx
    · rcases List.mem_append.mp (hperm.mem_iff.mp hx) with hx | hx
      · exact hmem x (List.mem_of_mem_take hx)
      · exact hmem x (List.mem_of_mem_drop (List.mem_of_mem_take hx))
  · rw [List.length_append]
    omega
  · rw [hrest, List.drop_drop]
    exact drop_clamp (by omega)

/-- Every pair of runs is merged. -/
theorem pairLoop_run (hkey : keyLen kind ≤ esz) (hap : src + n * esz ≤ dst ∨ dst + n * esz ≤ src)
    {width fuel : Nat} (hwidth : 0 < width) (hle : out.length ≤ n) (hfuel : n ≤ fuel + out.length)
    (hout : ∀ x ∈ out, x.length = esz) :
    ∃ ys, Passes (keyOf kind) width ((elems s.bytes src esz n).drop out.length) ys ∧
      pairLoop src dst n esz kind width fuel out.length (s.filled dst out) =
        .ok () (s.filled dst (out ++ ys)) := by
  have hlen := length_elems s.bytes src esz n
  induction fuel generalizing out with
  | zero =>
    refine ⟨[], ?_, ?_⟩
    · rw [List.drop_eq_nil_of_le (by omega)]
      exact .nil
    · rw [pairLoop, if_neg (by omega), List.append_nil]
      rfl
  | succ fuel ih =>
    rw [pairLoop]
    split
    · next hlt =>
      have hclamp : ∀ k, (if k > n then n else k) = min k n := by
        intro k
        split <;> omega
      dsimp only
      rw [hclamp, hclamp]
      obtain ⟨merged, hmerged, hrun, hall, hlast, hdrop⟩ :=
        clampedPair_run (s := s) hkey hap hle hout rfl rfl (Eq.refl (min (_ + width) n))
      obtain ⟨ys, hpass, hloop⟩ := ih (by omega) (by omega) hall
      rw [hlast, hdrop] at hpass
      rw [hlast] at hloop
      refine ⟨merged ++ ys, ?_, ?_⟩
      · rw [hmerged]
        exact .step hpass
      · rw [bind_run_ok hrun, hloop, List.append_assoc]
    · next hend =>
      refine ⟨[], ?_, ?_⟩
      · rw [List.drop_eq_nil_of_le (by omega)]
        exact .nil
      · rw [List.append_nil]
        rfl

/-! ## All passes -/

/-- What a run may change: two arrays. -/
structure Between (n esz src dst : Nat) (s s' : Ram) : Prop where
  heapPtr : s'.heapPtr = s.heapPtr
  bytes : ∀ q, (q < src ∨ src + n * esz ≤ q) → (q < dst ∨ dst + n * esz ≤ q) →
    s'.bytes q = s.bytes q

/-- One pass from one array to the other. -/
theorem pass_run (hkey : keyLen kind ≤ esz) (hap : src + n * esz ≤ dst ∨ dst + n * esz ≤ src)
    {width : Nat} (hwidth : 0 < width) (s : Ram) :
    ∃ t, pairLoop src dst n esz kind width n 0 s = .ok () t ∧ Between n esz src dst s t ∧
      Passes (keyOf kind) width (elems s.bytes src esz n) (elems t.bytes dst esz n) := by
  have hnone : ∀ x ∈ ([] : List Bytes), x.length = esz := fun _ h => absurd h List.not_mem_nil
  have hzero : ([] : List Bytes).length ≤ n := Nat.zero_le n
  have hfuel : n ≤ n + ([] : List Bytes).length := Nat.le_refl n
  obtain ⟨ys, hpass, hrun⟩ := pairLoop_run (s := s) hkey hap hwidth hzero hfuel hnone
  rw [List.length_nil, List.drop_zero] at hpass
  rw [filled_nil, List.length_nil, List.nil_append] at hrun
  have hlen : ys.length = n := hpass.perm.length_eq.trans (length_elems _ _ _ _)
  have hall : ∀ x ∈ ys, x.length = esz := fun x hx =>
    length_of_mem_elems (hpass.perm.mem_iff.mp hx)
  refine ⟨s.filled dst ys, hrun, ⟨rfl, fun q _ hq => ByteMap.store_off ?_⟩, ?_⟩
  · rwa [length_flatten hall, hlen]
  · have hput := elems_put s dst hall
    rw [hlen] at hput
    exact hput.symm ▸ hpass

/-- The passes go back and forth until one run is left. -/
theorem widthLoop_run (hkey : keyLen kind ≤ esz)
    (hap : src + n * esz ≤ dst ∨ dst + n * esz ≤ src) {width fuel : Nat} (hwidth : 0 < width)
    (hfuel : n ≤ fuel + width) {s : Ram}
    (hruns : Runs (keyOf kind) width (elems s.bytes src esz n)) :
    ∃ last t, widthLoop n esz kind fuel src dst width s = .ok last t ∧
      (last = src ∨ last = dst) ∧ Between n esz src dst s t ∧
      StableSort (keyOf kind) (elems s.bytes src esz n) (elems t.bytes last esz n) := by
  have hsorted : ∀ {src width : Nat} {s : Ram}, n ≤ width →
      Runs (keyOf kind) width (elems s.bytes src esz n) →
      StableSort (keyOf kind) (elems s.bytes src esz n) (elems s.bytes src esz n) :=
    fun hle hruns => ⟨.refl _, hruns.sorted (by rwa [length_elems]), fun _ => rfl⟩
  induction fuel generalizing src dst width s with
  | zero =>
    refine ⟨src, s, ?_, .inl rfl, ⟨rfl, fun _ _ _ => rfl⟩, hsorted (by omega) hruns⟩
    rw [widthLoop, if_neg (by omega)]
    rfl
  | succ fuel ih =>
    rw [widthLoop]
    split
    · obtain ⟨t, hrun, hbetween, hpass⟩ := pass_run hkey hap hwidth s
      have hruns' := hpass.runs hruns
      rw [Nat.mul_comm] at hruns'
      obtain ⟨last, u, hloop, hlast, hbetween', hsort⟩ :=
        ih hap.symm (by omega) (by omega) hruns'
      refine ⟨last, u, ?_, hlast.symm, ⟨hbetween'.heapPtr.trans hbetween.heapPtr,
        fun q hsrc hdst => (hbetween'.bytes q hdst hsrc).trans (hbetween.bytes q hsrc hdst)⟩,
        ⟨hsort.perm.trans hpass.perm, hsort.sorted, fun k => ?_⟩⟩
      · rw [bind_run_ok hrun, hloop]
      · rw [hsort.stable k, hpass.filter hruns k]
    · next hend =>
      exact ⟨src, s, rfl, .inl rfl, ⟨rfl, fun _ _ _ => rfl⟩, hsorted (Nat.not_lt.mp hend) hruns⟩

/-- The sorted elements are at the array in the end, also when the last pass wrote to the buffer. -/
theorem copyBack_run (n esz : Nat) {last : Nat} (h : last = p ∨ p ≤ last) (s : Ram) :
    ∃ t, copyBack p last (n * esz) s = .ok () t ∧
      t.heapPtr = s.heapPtr ∧ (∀ q, (q < p ∨ p + n * esz ≤ q) → t.bytes q = s.bytes q) ∧
      elems t.bytes p esz n = elems s.bytes last esz n := by
  unfold copyBack
  by_cases heq : last = p
  · refine ⟨s, ?_, rfl, fun _ _ => rfl, by rw [heq]⟩
    rw [if_neg (not_not.mpr heq)]
    rfl
  · refine ⟨s.put p (s.bytes.load last (n * esz)), ?_, rfl, fun q hq => ?_, ?_⟩
    · rw [if_pos heq, memcpy_run (.inl (h.resolve_left heq))]
    · refine ByteMap.store_off ?_
      rwa [ByteMap.length_load]
    · have hput := elems_put s p fun x (hx : x ∈ elems s.bytes last esz n) =>
        length_of_mem_elems hx
      rwa [length_elems, flatten_elems] at hput

end

/-! ## The sort -/

/-- The sort ends with the elements sorted by their keys, equal keys in the order they had, and
changes nothing else that is allocated; it traps when the heap has no room for the buffer. -/
theorem sortElems_sorts {p n esz kind : Nat} (tmp : Nat) {s : Ram} (hkey : keyLen kind ≤ esz)
    (hp : p + n * esz ≤ s.heapPtr) :
    (∃ t, sortElems p n esz kind tmp s = .ok () t ∧ t.heapPtr = s.heapPtr ∧
      StableSort (keyOf kind) (elems s.bytes p esz n) (elems t.bytes p esz n) ∧
      ∀ q < s.heapPtr, (q < p ∨ p + n * esz ≤ q) → t.bytes q = s.bytes q) ∨
    2 ≤ n ∧ heapEnd < s.heapPtr + n * esz + 7 ∧
      sortElems p n esz kind tmp s = .error (.trap 1) s := by
  unfold sortElems
  by_cases hn : n < 2
  · refine .inl ⟨s, ?_, rfl, ⟨.refl _, ?_, fun _ => rfl⟩, fun _ _ _ => rfl⟩
    · rw [if_pos hn]
      rfl
    · exact (runs_one (keyOf kind) _).sorted (by rw [length_elems]; omega)
  rw [if_neg hn, bind_run_ok (heapMark_run s)]
  rcases alloc_cases (n * esz) s with ⟨q, hroom, -, -, halloc⟩ | ⟨hfull, halloc⟩
  · refine .inl ?_
    rw [bind_run_ok halloc]
    generalize hs' : ({ s with heapPtr := q } : Ram) = s'
    have hbytes : s'.bytes = s.bytes := by rw [← hs']
    have hap : p + n * esz ≤ s.heapPtr ∨ s.heapPtr + n * esz ≤ p := .inl hp
    obtain ⟨last, t, hloop, hlast, hbetween, hsort⟩ := widthLoop_run (s := s') hkey hap
      Nat.one_pos (Nat.le_add_right n 1) (runs_one (keyOf kind) _)
    have hback : last = p ∨ p ≤ last := by omega
    obtain ⟨u, hcopy, hheap, hrest, helems⟩ := copyBack_run n esz hback t
    refine ⟨{ u with heapPtr := s.heapPtr }, ?_, rfl, ?_, fun r hr hoff => ?_⟩
    · rw [bind_run_ok hloop]
      exact (bind_run_ok hcopy).trans rfl
    · change StableSort _ _ (elems u.bytes p esz n)
      rw [helems, ← hbytes]
      exact hsort
    · change u.bytes r = _
      rw [hrest r hoff, hbetween.bytes r hoff (.inl hr), hbytes]
  · refine .inr ⟨by omega, hfull, ?_⟩
    rw [bind_run_error halloc]

/-- Two elements of a word each, the larger one first. -/
theorem sortElems_sorts_two :
    ∃ t, sortElems 0 2 8 0 0 ⟨fun q => if q = 0 then 5 else 0, 16⟩ = .ok () t ∧
      (elems t.bytes 0 8 2).Perm [[5, 0, 0, 0, 0, 0, 0, 0], [0, 0, 0, 0, 0, 0, 0, 0]] ∧
      SortedBy (keyOf 0) (elems t.bytes 0 8 2) := by
  rcases sortElems_sorts (p := 0) (n := 2) (s := ⟨fun q => if q = 0 then 5 else 0, 16⟩) 0
    (show keyLen 0 ≤ 8 by decide) (by decide) with ⟨t, hrun, -, hsort, -⟩ | ⟨-, hfull, -⟩
  · exact ⟨t, hrun, hsort.perm, hsort.sorted⟩
  · exact absurd hfull (by decide)

end StatelessGuest.Ram
