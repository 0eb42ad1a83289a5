import HazmatSha256.Foundation.Exec
import HazmatSha256.Foundation.Script
import HazmatSha256.Foundation.Settlement
import HazmatSha256.Foundation.Memory
import HazmatSha256.Foundation.History
import HazmatSha256.Foundation.Shape
import HazmatSha256.Foundation.Tree
import HazmatSha256.Foundation.Object
import HazmatSha256.Foundation.Bytes
import HazmatSha256.Foundation.Opening
import HazmatSha256.Foundation.Dealing
import HazmatSha256.Spec.Sha256
import HazmatSha256.Boxed.Object
import HazmatSha256.Isal.Interface
import HazmatSha256.Isal.Log
import HazmatSha256.Isal.State
import HazmatSha256.Isal.Program
import HazmatSha256.Isal.Accounts
import HazmatSha256.Isal.Outcome
import HazmatSha256.Isal.Invariant
import HazmatSha256.Isal.Chunk
import HazmatSha256.Isal.Lanes
import HazmatSha256.Isal.Batch
import HazmatSha256.Evp.Interface
import HazmatSha256.Evp.Program
import HazmatSha256.Evp.Runs
import HazmatSha256.Shim.Entry
import HazmatSha256.Shim.Session
import HazmatSha256.Merkle.Layer
import HazmatSha256.Merkle.Native
import HazmatSha256.Merkle.Root
import HazmatSha256.Ssz.Type
import HazmatSha256.Ssz.HashTreeRoot
import HazmatSha256.Ssz.Tree
import HazmatSha256.Ssz.Root
import HazmatSha256.Ssz.Deserialize
import HazmatSha256.Ssz.Number
import HazmatSha256.Ssz.Bits
import HazmatSha256.Ssz.Wire
import HazmatSha256.Ssz.Decodes
import HazmatSha256.Ssz.Codec
import HazmatSha256.Ssz.MaxByteLength
import HazmatSha256.Ssz.Leaves
import HazmatSha256.Ssz.Binding
import HazmatSha256.Cache.Node
import HazmatSha256.Cache.HashCons
import HazmatSha256.Cache.Calls
import HazmatSha256.Cache.Walk
import HazmatSha256.Cache.Build
import HazmatSha256.Cache.SetAt
import HazmatSha256.Cache.Path
import HazmatSha256.Cache.PathWrites
import HazmatSha256.Cache.TreeBacked
import HazmatSha256.Cache.Box
import HazmatSha256.Cache.Process
import HazmatSha256.Cache.PathLaws
import HazmatSha256.Cache.Stale
import HazmatSha256.Opening.GeneralizedIndex
import HazmatSha256.Opening.Branch
import HazmatSha256.Opening.Proof
import HazmatSha256.Signing.Root
import HazmatSha256.Committees.Shuffle
import HazmatSha256.Committees.Assignment
import HazmatSha256.Committees.Proposers
