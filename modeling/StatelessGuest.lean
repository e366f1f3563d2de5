import StatelessGuest.State.Rollback
import StatelessGuest.Evm.Conservation
import StatelessGuest.Evm.Copies
import StatelessGuest.Evm.Meter
import StatelessGuest.Evm.Rounds
import StatelessGuest.Evm.Paying
import StatelessGuest.Evm.Termination
import StatelessGuest.Evm.Ideal
import StatelessGuest.Evm.Exact
import StatelessGuest.Evm.Reached
import StatelessGuest.Evm.MemorySafety
import StatelessGuest.Rlp.Decode
import StatelessGuest.Rlp.Scan
import StatelessGuest.Rlp.Accept
import StatelessGuest.Htab.Hash
import StatelessGuest.Htab.Table
import StatelessGuest.Lib.Circle
import StatelessGuest.Htab.Stores
import StatelessGuest.Htab.Insert
import StatelessGuest.Htab.Delete
import StatelessGuest.Htab.Run
import StatelessGuest.Evm.CodeScan
import StatelessGuest.Evm.Lenient
import StatelessGuest.Evm.CodeReads
import StatelessGuest.Evm.Positions
import StatelessGuest.State.View
import StatelessGuest.State.Writes
import StatelessGuest.State.Effects
import StatelessGuest.Evm.Tracked
import StatelessGuest.State.Merge
import StatelessGuest.State.Scopes
import StatelessGuest.State.Layers
import StatelessGuest.Block.StateRoot
import StatelessGuest.Evm.Snapshots
import StatelessGuest.Evm.Requests
import StatelessGuest.Evm.Static
import StatelessGuest.Evm.StaticFrames
import StatelessGuest.Evm.Delegation
import StatelessGuest.Evm.Authorizations
import StatelessGuest.Header.BlobPrice
import StatelessGuest.Lib.ByteMap
import StatelessGuest.Ram.Heap
import StatelessGuest.Rlp.RoundTrip
import StatelessGuest.Rlp.Slices
import StatelessGuest.Header.Record
import StatelessGuest.Header.Fields
import StatelessGuest.Header.Chain
import StatelessGuest.Header.Rules
import StatelessGuest.Header.Validate
import StatelessGuest.Block.Bloom
import StatelessGuest.Block.Receipt
import StatelessGuest.Block.Withdrawal
import StatelessGuest.Block.Payload
import StatelessGuest.Lib.Merkle
import StatelessGuest.Ssz.Merkleize
import StatelessGuest.Num.Limbs
import StatelessGuest.Num.Mul
import StatelessGuest.Lib.Digits
import StatelessGuest.Num.Digits
import StatelessGuest.Num.Divide
import StatelessGuest.Num.DivMod
import StatelessGuest.Num.Shift
import StatelessGuest.Num.Modexp
import StatelessGuest.Evm.Modexp
import StatelessGuest.Lib.BinaryEuclid
import StatelessGuest.Num.Inverse
import StatelessGuest.Num.Fp384
import StatelessGuest.Num.P256
import StatelessGuest.Curve.Store
import StatelessGuest.Curve.Points
import StatelessGuest.Curve.Bn254
import StatelessGuest.Curve.Tower
import StatelessGuest.Lib.Primality
import StatelessGuest.Curve.FinalExp
import StatelessGuest.Curve.BlsPoints
import StatelessGuest.Digest.Memory
import StatelessGuest.Lib.Absorb
import StatelessGuest.Digest.Runs
import StatelessGuest.Digest.Keccak
import StatelessGuest.Digest.Strengthen
import StatelessGuest.Digest.Sha256
import StatelessGuest.Num.Window
import StatelessGuest.Lib.Bump
import StatelessGuest.Ram.Allocators
import StatelessGuest.Digest.Words
import StatelessGuest.Block.SortElems
import StatelessGuest.Block.AccountLeaf
import StatelessGuest.Digest.Blake2
import StatelessGuest.Digest.Drivers
import StatelessGuest.Num.Residue
import StatelessGuest.Lib.CountDown
import StatelessGuest.Curve.P256
import StatelessGuest.Lib.Patricia
import StatelessGuest.Mpt.Indexed
import StatelessGuest.Mpt.Stateless
import StatelessGuest.Block.WitnessReads
import StatelessGuest.Block.PostState
import StatelessGuest.Tx.Decode
import StatelessGuest.Tx.Encode
import StatelessGuest.Tx.RoundTrip
import StatelessGuest.Tx.Signing
import StatelessGuest.Tx.Cost
