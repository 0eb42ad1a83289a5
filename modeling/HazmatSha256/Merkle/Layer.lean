import HazmatSha256.Spec.Sha256
set_option autoImplicit false

/-!
# Merkle: the caller of the batched call

`SizzLean.Spec.HashTreeRoot` from the chunks up: a tree is climbed level by level, and
each level is handed to the hasher as one batch.  The functions are written over the
monad in which the hasher runs; every call of the hasher stands where the pure text has
it.
-/

namespace HazmatSha256.Merkle

variable {m : Type → Type} [Monad m]

/-- `Hasher`, over the monad of its methods. -/
structure Hasher (m : Type → Type) where
  hash : ByteArray → m ByteArray
  combine : ByteArray → ByteArray → m ByteArray
  batchCombine : Array ByteArray → Array ByteArray → m (Array ByteArray)

/-! ## Chunks -/

def bytesPerChunk : Nat := 32

/-- Push `k` zero bytes. -/
def pushZeros : (k : Nat) → ByteArray → ByteArray
  | 0, acc => acc
  | k + 1, acc => pushZeros k (acc.push 0)

def zero32 : ByteArray := pushZeros bytesPerChunk ByteArray.empty

def padToChunk (b : ByteArray) : ByteArray :=
  if b.size ≥ bytesPerChunk then b else pushZeros (bytesPerChunk - b.size) b

/-- The first `k` chunks of `b`, in front of `acc`. -/
def chunksBefore (b : ByteArray) : (k : Nat) → (acc : List ByteArray) → List ByteArray
  | 0, acc => acc
  | k + 1, acc =>
      let off := k * bytesPerChunk
      let raw := b.extract off (off + bytesPerChunk)
      chunksBefore b k (padToChunk raw :: acc)

def bytesToChunkCount (n : Nat) : Nat := (n + bytesPerChunk - 1) / bytesPerChunk

def chunkify (b : ByteArray) : List ByteArray :=
  let total := (b.size + bytesPerChunk - 1) / bytesPerChunk
  if total = 0 then [] else chunksBefore b total []

/-- Push the `k` low bytes of `n`, the lowest first. -/
def pushBytesLE : (k n : Nat) → ByteArray → ByteArray
  | 0, _, acc => acc
  | k + 1, n, acc => pushBytesLE k (n / 256) (acc.push (n % 256).toUInt8)

def natToChunk (n : Nat) : ByteArray := pushBytesLE bytesPerChunk n ByteArray.empty

/-! ## The zero tower -/

def zeroHashAt (H : Hasher m) : (depth : Nat) → m ByteArray
  | 0 => pure zero32
  | d + 1 => do
      let z ← zeroHashAt H d
      H.combine z z

/-! ## One level -/

/-- Pair the nodes of level `lvl` up and hash the pairs in one batch; the right sibling
of a lone tail is the root of an all-zero subtree of depth `lvl`. -/
def combineLayerAt (H : Hasher m) (lvl : Nat) (cs : List ByteArray) : m (List ByteArray) := do
  let src := cs.toArray
  let nodes := (src.size + 1) / 2
  let lefts := Array.ofFn (n := nodes) fun i => src[2 * i.val]!
  let rights ← (List.range nodes).mapM fun i =>
    if 2 * i + 1 < src.size then pure src[2 * i + 1]! else zeroHashAt H lvl
  let above ← H.batchCombine lefts rights.toArray
  pure above.toList

/-! ## A whole tree -/

def promoteThroughZeros (H : Hasher m) :
    (current : ByteArray) → (startLvl remaining : Nat) → m ByteArray
  | c, _, 0 => pure c
  | c, startLvl, k + 1 => do
      let z ← zeroHashAt H startLvl
      let parent ← H.combine c z
      promoteThroughZeros H parent (startLvl + 1) k

/-- With levels exhausted and more than one chunk left the first chunk is the answer. -/
def merkleizeAt (H : Hasher m) : List ByteArray → (curLvl remaining : Nat) → m ByteArray
  | [], _, remaining => zeroHashAt H remaining
  | [c], curLvl, remaining => promoteThroughZeros H c curLvl remaining
  | cs, _, 0 => pure (cs.head?.getD zero32)
  | cs, curLvl, remaining + 1 => do
      let above ← combineLayerAt H curLvl cs
      merkleizeAt H above (curLvl + 1) remaining

def merkleize (H : Hasher m) (chunks : List ByteArray) (depth : Nat) : m ByteArray :=
  merkleizeAt H chunks 0 depth

/-- Double `cur` until it reaches `n`, counting in `acc`. -/
def chunkDepthFrom (n : Nat) : (fuel acc cur : Nat) → Nat
  | 0, acc, _ => acc
  | f + 1, acc, cur => if cur ≥ n then acc else chunkDepthFrom n f (acc + 1) (cur * 2)

/-- The depth of a tree with room for `n` leaves. -/
def chunkDepth (n : Nat) : Nat := chunkDepthFrom n n 0 1

def mixInLength (H : Hasher m) (root : ByteArray) (n : Nat) : m ByteArray :=
  H.combine root (natToChunk n)

/-! ## Arms of `SSZType.hashTreeRoot` -/

/-- A vector of basic elements, serialized to `body`. -/
def vectorOfBytes (H : Hasher m) (body : ByteArray) : m ByteArray :=
  merkleize H (chunkify body) (chunkDepth (bytesToChunkCount body.size))

/-- A container with these field roots. -/
def containerOfRoots (H : Hasher m) (roots : List ByteArray) : m ByteArray :=
  merkleize H roots (chunkDepth roots.length)

/-- A list of composite elements with these roots and room for `cap`. -/
def listOfRoots (H : Hasher m) (cap : Nat) (roots : List ByteArray) : m ByteArray := do
  let bodyRoot ← merkleize H roots (chunkDepth cap)
  mixInLength H bodyRoot roots.length

end HazmatSha256.Merkle
