import StatelessGuest.Digest.Blake2
import StatelessGuest.Digest.Keccak
import StatelessGuest.Digest.Ripemd160
import StatelessGuest.Digest.Sha256

/-!
# The hash drivers

* `hash_drivers_exact`: every driver computes the function it is named for.
-/

namespace StatelessGuest.Digest

open Lib Mem

/-- A message of any length at any address, which the output may overlap, is hashed, and no byte
besides it and the buffers of the driver is read. -/
def Hashes [Stray] (hash : Nat → Nat → Nat → MemM Unit) (digest : Bytes → Bytes) (size : Nat)
    (own : Nat → Prop) : Prop :=
  ∀ (s : Mem) (p n out : Nat), s.Reads p n → (∀ q, own q → s.readable q = true) →
    (∀ q, At p n q → ¬own q) → (∀ q, At out size q → ¬own q) →
    ∃ s', hash p n out s = .ok () s' ∧ s'.bytes.load out size = digest (s.bytes.load p n) ∧
      Off (fun q => own q ∨ At out size q) s s'

theorem hash_drivers_exact [Stray] [KeccakF] [Sha256Compression] [Blake2Round] :
    (∀ k : KeccakBuffers, Hashes (keccak256 k) keccakDigest 32 k.Own) ∧
    (∀ b : Sha256Buffers, Hashes (sha256 b) sha256Digest 32 b.Own) ∧
    (∀ b : RipemdBuffers, Hashes (ripemd160 b) ripemd160Digest 20 b.Own) ∧
    (∀ (b : Sha256Buffers) (s : Mem) (inputA inputB out : Nat), s.Reads inputA 32 →
      s.Reads inputB 32 → (∀ q, b.Own q → s.readable q = true) → (∀ q, At inputA 32 q → ¬b.Own q) →
      (∀ q, At inputB 32 q → ¬b.Own q) → (∀ q, At out 32 q → ¬b.Own q) →
      ∃ s', sha256Pair b inputA inputB out s = .ok () s' ∧
        s'.bytes.load out 32 =
          sha256Digest (s.bytes.load inputA 32 ++ s.bytes.load inputB 32) ∧
        Off (fun q => b.Own q ∨ At out 32 q) s s') ∧
    ∀ (b : Blake2Buffers) (s : Mem) (h m : Nat) (rounds t0 t1 f : Word),
      s.bytes.load b.iv 64 = cells blake2Iv → h % 8 = 0 → s.Reads h 64 → s.Reads m 128 →
      s.Reads b.iv 64 → s.Reads b.round 264 → Apart h 64 b.round 264 → Apart m 128 b.round 264 →
      ∃ s', blake2bF b rounds h m t0 t1 f s = .ok () s' ∧
        s'.bytes.load h 64 = cells (blake2F rounds.toNat (cellsOf 8 (s.bytes.load h 64))
          (cellsOf 16 (s.bytes.load m 128)) t0 t1 f) ∧
        Off (fun q => At b.round 264 q ∨ At h 64 q) s s' := by
  refine ⟨?_, ?_, ?_, ?_, ?_⟩
  · intro k s p n out hmsg hown hin hout
    exact keccak256_run k hmsg hown hin hout
  · intro b s p n out hmsg hown hin hout
    exact sha256_run b hmsg hown hin hout
  · intro b s p n out hmsg hown hin hout
    exact ripemd160_run b hmsg hown hin hout
  · intro b s inputA inputB out hA hB hown hinA hinB hout
    exact sha256Pair_run b hA hB hown hinA hinB hout
  · intro b s h m rounds t0 t1 f hiv hh8 hh hm hivReads hread hdh hdm
    exact blake2bF_run b rounds t0 t1 f hiv hh8 hh hm hivReads hread hdh hdm

end StatelessGuest.Digest
