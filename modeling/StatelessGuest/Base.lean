import Mathlib.Data.BitVec

/-!
# Words, byte strings and exceptions of the guest

The guest computes on 64-bit words, 256-bit integers and byte strings in memory. A word is
a `BitVec 64`, a 256-bit integer a `BitVec 256`, a 20-byte address a `BitVec 160` and a
32-byte string (a hash, a storage key) a `BitVec 256`; a buffer is a list of bytes.

The keccak permutation and the compression of SHA-256 are foreign calls, so the hash functions are
parameters.
-/

namespace StatelessGuest

/-- A machine word. -/
abbrev Word := BitVec 64

/-- A 256-bit integer. -/
abbrev U256 := BitVec 256

/-- A 20-byte address. -/
abbrev Address := BitVec 160

/-- A 32-byte string: a hash or a storage key. -/
abbrev Hash := BitVec 256

/-- The contents of a buffer. -/
abbrev Bytes := List UInt8

/-- The errors an EVM frame can end with (`E_*`). -/
inductive EvmErr where
  | revert
  | stackUnderflow
  | stackOverflow
  | outOfGas
  | invalidOpcode
  | invalidJumpdest
  | stackDepthLimit
  | writeInStatic
  | outOfBoundsRead
  | invalidParameter
  | invalidContractPrefix
  | addressCollision
  | kzgProof
  deriving DecidableEq, Repr

/-- What the guest can throw. Everything but `evm` carries the code the source throws with;
`trap` halts the machine and is never caught, `outOfFuel` marks a loop cut short. -/
inductive Exn where
  | evm (e : EvmErr)
  | state (code : Nat)
  | mpt (code : Nat)
  | rlp (code : Nat)
  | hdr (code : Nat)
  | block (code : Nat)
  | tx (code : Nat)
  | trap (code : Nat)
  | outOfFuel
  deriving DecidableEq, Repr

/-- An error that no frame can end with. -/
def Exn.Fatal : Exn → Prop
  | .evm _ => False
  | _ => True

theorem Exn.fatal_or (e : Exn) : e.Fatal ∨ ∃ err, e = .evm err := by
  cases e with
  | evm err => exact .inr ⟨err, rfl⟩
  | _ => exact .inl trivial

/-- What an access outside of its memory ends in. A program whose runs do not depend on it makes no
such access. -/
class Stray where
  exn : Exn

/-! ## Big-endian byte strings -/

/-- The `n` big-endian bytes of `v`, higher bytes dropped. -/
def beBytes : Nat → Nat → Bytes
  | 0, _ => []
  | n + 1, v => beBytes n (v / 256) ++ [UInt8.ofNat (v % 256)]

/-- The number a big-endian byte string denotes. -/
def beNat (bs : Bytes) : Nat := bs.foldl (fun acc b => acc * 256 + b.toNat) 0

@[simp] theorem length_beBytes (n v : Nat) : (beBytes n v).length = n := by
  induction n generalizing v with
  | zero => rfl
  | succ n ih => simp [beBytes, ih]

theorem beNat_append_singleton (bs : Bytes) (b : UInt8) :
    beNat (bs ++ [b]) = beNat bs * 256 + b.toNat := by
  simp [beNat]

theorem beNat_beBytes (n v : Nat) : beNat (beBytes n v) = v % 256 ^ n := by
  induction n generalizing v with
  | zero => simp [beBytes, beNat, Nat.mod_one]
  | succ n ih =>
    have hb : (UInt8.ofNat (v % 256)).toNat = v % 256 := by simp
    rw [beBytes, beNat_append_singleton, ih, hb, Nat.pow_succ', Nat.mod_mul]
    omega

theorem beNat_cons (b : UInt8) (bs : Bytes) :
    beNat (b :: bs) = b.toNat * 256 ^ bs.length + beNat bs := by
  induction bs using List.reverseRecOn with
  | nil => simp [beNat]
  | append_singleton bs c ih =>
    rw [← List.cons_append, beNat_append_singleton, beNat_append_singleton, ih,
      List.length_append, List.length_singleton, Nat.pow_succ, Nat.add_mul, Nat.mul_assoc,
      Nat.add_assoc]

theorem beNat_lt (bs : Bytes) : beNat bs < 256 ^ bs.length := by
  induction bs using List.reverseRecOn with
  | nil => exact Nat.one_pos
  | append_singleton bs c ih =>
    have hc := c.toNat_lt
    rw [beNat_append_singleton, List.length_append, List.length_singleton, Nat.pow_succ]
    omega

theorem beBytes_beNat (bs : Bytes) : beBytes bs.length (beNat bs) = bs := by
  induction bs using List.reverseRecOn with
  | nil => rfl
  | append_singleton bs c ih =>
    have hc := c.toNat_lt
    rw [List.length_append, List.length_singleton, beNat_append_singleton, beBytes]
    have hdiv : (beNat bs * 256 + c.toNat) / 256 = beNat bs := by omega
    have hmod : (beNat bs * 256 + c.toNat) % 256 = c.toNat := by omega
    rw [hdiv, hmod, ih, UInt8.ofNat_toNat]

theorem getElem?_beBytes {n i : Nat} (h : i < n) (v : Nat) :
    (beBytes n v)[i]? = some (UInt8.ofNat (v / 256 ^ (n - 1 - i) % 256)) := by
  induction n generalizing v with
  | zero => exact absurd h (Nat.not_lt_zero i)
  | succ n ih =>
    rw [beBytes]
    by_cases hlast : i = n
    · subst hlast
      rw [List.getElem?_append_right (by rw [length_beBytes]), length_beBytes, Nat.sub_self,
        Nat.add_sub_cancel, Nat.sub_self, Nat.pow_zero, Nat.div_one]
      rfl
    · rw [List.getElem?_append_left (by rw [length_beBytes]; omega), ih (by omega),
        Nat.div_div_eq_div_mul, ← Nat.pow_succ', show (n - 1 - i).succ = n + 1 - 1 - i by omega]

/-- A byte from the end is a part of the number. -/
theorem beNat_byte (bs : Bytes) {k : Nat} (hk : k < bs.length) :
    (bs.getD (bs.length - 1 - k) 0).toNat = beNat bs / 256 ^ k % 256 := by
  have hget := getElem?_beBytes (show bs.length - 1 - k < bs.length by omega) (beNat bs)
  rw [beBytes_beNat, show bs.length - 1 - (bs.length - 1 - k) = k by omega] at hget
  rw [List.getD_eq_getElem?_getD, hget, Option.getD_some, UInt8.toNat_ofNat', Nat.mod_mod]

/-- The bytes of an address. -/
def addrBytes (a : Address) : Bytes := beBytes 20 a.toNat

/-- The bytes of a 32-byte string. -/
def hashBytes (h : Hash) : Bytes := beBytes 32 h.toNat

theorem beNat_beBytes_of_lt {n v : Nat} (h : v < 256 ^ n) : beNat (beBytes n v) = v := by
  rw [beNat_beBytes, Nat.mod_eq_of_lt h]

@[simp] theorem beNat_addrBytes (a : Address) : beNat (addrBytes a) = a.toNat :=
  beNat_beBytes_of_lt (Nat.lt_of_lt_of_eq a.isLt (by decide))

@[simp] theorem beNat_hashBytes (h : Hash) : beNat (hashBytes h) = h.toNat :=
  beNat_beBytes_of_lt (Nat.lt_of_lt_of_eq h.isLt (by decide))

theorem addrBytes_injective : Function.Injective addrBytes := by
  intro a b h
  have := congrArg beNat h
  simp only [beNat_addrBytes] at this
  exact BitVec.eq_of_toNat_eq this

theorem hashBytes_injective : Function.Injective hashBytes := by
  intro a b h
  have := congrArg beNat h
  simp only [beNat_hashBytes] at this
  exact BitVec.eq_of_toNat_eq this

/-! ## The hash functions -/

/-- Keccak-256, whose permutation is computed outside the guest. -/
class Keccak where
  keccak256 : Bytes → Hash

export Keccak (keccak256)

/-- SHA-256, whose compression is computed outside the guest. -/
class Sha256 where
  sha256 : Bytes → Hash

/-- The hash of the empty string. -/
def emptyCodeHash [Keccak] : Hash := keccak256 []

/-- The hash of the empty trie's encoding. -/
def emptyTrieRoot [Keccak] : Hash := keccak256 [0x80]

end StatelessGuest
