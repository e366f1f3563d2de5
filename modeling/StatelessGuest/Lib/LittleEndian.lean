import Mathlib.Algebra.Group.Nat.Defs
import Mathlib.Data.List.Basic

/-!
# Numbers in little-endian bytes

The lowest byte of a number comes first.

* `leBytes`, `leNat`: the bytes of a number and back.
* `leBytes_add`, `leNat_append`: numbers in parts.
* `leBytes_xor`: an exclusive or byte by byte.
* `pack`: numbers of one width after each other.
-/

namespace StatelessGuest.Lib

/-- The `k` lowest bytes of `v`. -/
def leBytes : Nat → Nat → List UInt8
  | 0, _ => []
  | k + 1, v => UInt8.ofNat v :: leBytes k (v / 256)

/-- The number that some bytes denote. -/
def leNat : List UInt8 → Nat
  | [] => 0
  | b :: bs => b.toNat + 256 * leNat bs

@[simp] theorem length_leBytes (k v : Nat) : (leBytes k v).length = k := by
  induction k generalizing v with
  | zero => rfl
  | succ k ih => rw [leBytes, List.length_cons, ih]

theorem leNat_lt (bs : List UInt8) : leNat bs < 256 ^ bs.length := by
  induction bs with
  | nil => exact Nat.one_pos
  | cons b bs ih =>
    have hb := b.toNat_lt
    rw [leNat, List.length_cons, Nat.pow_succ]
    omega

theorem leNat_leBytes (k v : Nat) : leNat (leBytes k v) = v % 256 ^ k := by
  induction k generalizing v with
  | zero => rw [leBytes, leNat, Nat.pow_zero, Nat.mod_one]
  | succ k ih =>
    have hb : (UInt8.ofNat v).toNat = v % 256 := rfl
    rw [leBytes, leNat, ih, hb, Nat.pow_succ', Nat.mod_mul]

theorem leNat_leBytes_of_lt {k v : Nat} (h : v < 256 ^ k) : leNat (leBytes k v) = v := by
  rw [leNat_leBytes, Nat.mod_eq_of_lt h]

theorem leBytes_leNat (bs : List UInt8) : leBytes bs.length (leNat bs) = bs := by
  induction bs with
  | nil => rfl
  | cons b bs ih =>
    have hb := b.toNat_lt
    have hlow : UInt8.ofNat (b.toNat + 256 * leNat bs) = b := by
      apply UInt8.toNat_inj.mp
      change (b.toNat + 256 * leNat bs) % 256 = b.toNat
      omega
    have hrest : (b.toNat + 256 * leNat bs) / 256 = leNat bs := by omega
    rw [List.length_cons, leNat, leBytes, hlow, hrest, ih]

theorem leBytes_mod {j k : Nat} (h : j ≤ k) (v : Nat) : leBytes j (v % 256 ^ k) = leBytes j v := by
  induction j generalizing k v with
  | zero => rfl
  | succ j ih =>
    obtain ⟨k, rfl⟩ : ∃ l, k = l + 1 := ⟨k - 1, by omega⟩
    have hrest : v % 256 ^ (k + 1) / 256 = v / 256 % 256 ^ k := by
      rw [Nat.pow_succ', Nat.mod_mul_right_div_self]
    have hlow : UInt8.ofNat (v % 256 ^ (k + 1)) = UInt8.ofNat v := by
      apply UInt8.toNat_inj.mp
      change v % 256 ^ (k + 1) % 256 = v % 256
      rw [Nat.pow_succ', Nat.mod_mul_right_mod]
    rw [leBytes, hlow, hrest, ih (by omega), leBytes]

theorem leBytes_add (j k v : Nat) : leBytes (j + k) v = leBytes j v ++ leBytes k (v / 256 ^ j) := by
  induction j generalizing v with
  | zero => rw [Nat.zero_add, Nat.pow_zero, Nat.div_one]; rfl
  | succ j ih =>
    rw [Nat.succ_add, leBytes, ih, leBytes, List.cons_append, Nat.div_div_eq_div_mul,
      Nat.pow_succ']

theorem leNat_append (as bs : List UInt8) :
    leNat (as ++ bs) = leNat as + 256 ^ as.length * leNat bs := by
  induction as with
  | nil => rw [List.nil_append, leNat, List.length_nil, Nat.pow_zero, Nat.one_mul, Nat.zero_add]
  | cons a as ih =>
    rw [List.cons_append, leNat, ih, leNat, List.length_cons, Nat.pow_succ', Nat.mul_add,
      Nat.mul_assoc, Nat.add_assoc]

theorem leBytes_xor (k u v : Nat) :
    leBytes k (u ^^^ v) = List.zipWith (· ^^^ ·) (leBytes k u) (leBytes k v) := by
  induction k generalizing u v with
  | zero => rfl
  | succ k ih =>
    have hrest : (u ^^^ v) / 256 = u / 256 ^^^ v / 256 := Nat.xor_div_two_pow (n := 8)
    rw [leBytes, leBytes, leBytes, List.zipWith_cons_cons, hrest, ih, UInt8.ofNat_xor]

/-- A byte alone. -/
theorem leBytes_one (v : Nat) : leBytes 1 v = [UInt8.ofNat v] := rfl

/-! ## Several numbers -/

/-- The numbers in `k` bytes each. -/
def pack (k : Nat) (vs : List Nat) : List UInt8 := vs.flatMap (leBytes k)

variable {k v : Nat} {us vs : List Nat}

@[simp] theorem pack_nil (k : Nat) : pack k [] = [] := rfl

theorem pack_cons (k v : Nat) (vs : List Nat) : pack k (v :: vs) = leBytes k v ++ pack k vs := rfl

theorem pack_append (k : Nat) (us vs : List Nat) : pack k (us ++ vs) = pack k us ++ pack k vs :=
  List.flatMap_append

theorem pack_singleton (k v : Nat) : pack k [v] = leBytes k v := by
  rw [pack_cons, pack_nil, List.append_nil]

@[simp] theorem length_pack (k : Nat) (vs : List Nat) : (pack k vs).length = k * vs.length := by
  induction vs with
  | nil => rfl
  | cons v vs ih =>
    rw [pack_cons, List.length_append, ih, length_leBytes, List.length_cons, Nat.mul_succ,
      Nat.add_comm]

/-- The numbers of `k` bytes each. -/
def unpack (k : Nat) : Nat → List UInt8 → List Nat
  | 0, _ => []
  | n + 1, bs => leNat (bs.take k) :: unpack k n (bs.drop k)

@[simp] theorem length_unpack (k n : Nat) (bs : List UInt8) : (unpack k n bs).length = n := by
  induction n generalizing bs with
  | zero => rfl
  | succ n ih => rw [unpack, List.length_cons, ih]

theorem unpack_pack (h : ∀ v ∈ vs, v < 256 ^ k) : unpack k vs.length (pack k vs) = vs := by
  induction vs with
  | nil => rfl
  | cons v vs ih =>
    have hlen := length_leBytes k v
    rw [List.length_cons, unpack, pack_cons, List.take_left' hlen, List.drop_left' hlen,
      ih fun u hu => h u (List.mem_cons_of_mem _ hu),
      leNat_leBytes_of_lt (h v List.mem_cons_self)]

theorem pack_unpack {n : Nat} {bs : List UInt8} (h : bs.length = k * n) :
    pack k (unpack k n bs) = bs := by
  induction n generalizing bs with
  | zero => exact (List.length_eq_zero_iff.mp (h.trans (Nat.mul_zero k))).symm
  | succ n ih =>
    rw [Nat.mul_succ] at h
    have hfront : (bs.take k).length = k := by rw [List.length_take, Nat.min_eq_left (by omega)]
    have hback := leBytes_leNat (bs.take k)
    rw [hfront] at hback
    rw [unpack, pack_cons, hback, ih (by rw [List.length_drop]; omega), List.take_append_drop]

theorem unpack_append (k n : Nat) {as : List UInt8} (bs : List UInt8) (h : as.length = k * n) :
    unpack k n (as ++ bs) = unpack k n as := by
  induction n generalizing as with
  | zero => rfl
  | succ n ih =>
    rw [Nat.mul_succ] at h
    rw [unpack, unpack, List.take_append_of_le_length (by omega),
      List.drop_append_of_le_length (by omega), ih (by rw [List.length_drop]; omega)]

theorem getElem?_unpack {n i : Nat} (bs : List UInt8) (h : i < n) :
    (unpack k n bs)[i]? = some (leNat ((bs.drop (k * i)).take k)) := by
  induction n generalizing i bs with
  | zero => exact absurd h (Nat.not_lt_zero i)
  | succ n ih =>
    cases i with
    | zero => rw [unpack, List.getElem?_cons_zero, Nat.mul_zero, List.drop_zero]
    | succ i =>
      rw [unpack, List.getElem?_cons_succ, ih _ (Nat.lt_of_succ_lt_succ h), List.drop_drop,
        Nat.mul_succ, Nat.add_comm k]

end StatelessGuest.Lib
