import HazmatSha256.Ssz.Type
set_option autoImplicit false

/-!
# Ssz: roots of values

`SizzLean.Spec.HashTreeRoot` from the chunks of a value to its root, over the monad in
which the hasher runs.
-/

namespace HazmatSha256.Ssz

open Merkle

variable {m : Type → Type} [Monad m]

/-! ## Progressive trees -/

/-- A shelf of `numLeaves` chunks, next to the tree of the rest with shelves four times as
wide. -/
def merkleizeProgressiveAux (H : Hasher m) :
    (fuel : Nat) → List ByteArray → (numLeaves : Nat) → m ByteArray
  | _, [], _ => pure zero32
  | 0, _, _ => pure zero32
  | fuel + 1, chunks, numLeaves => do
      let n := max numLeaves 1
      let shelf ← merkleize H (chunks.take n) (chunkDepth n)
      let rest ← merkleizeProgressiveAux H fuel (chunks.drop n) (n * 4)
      H.combine shelf rest

def merkleizeProgressive (H : Hasher m) (chunks : List ByteArray) : m ByteArray :=
  merkleizeProgressiveAux H chunks.length chunks 1

/-- A zero chunk for every inactive field. -/
def placeActiveChunks : (active : List Bool) → (roots : List ByteArray) → List ByteArray
  | [], _ => []
  | false :: bits, roots => zero32 :: placeActiveChunks bits roots
  | true :: bits, r :: rs => r :: placeActiveChunks bits rs
  | true :: bits, [] => zero32 :: placeActiveChunks bits []

def mixInActiveFields (H : Hasher m) (root : ByteArray) (active : List Bool) : m ByteArray :=
  H.combine root (padToChunk (packBitsLE active))

/-! ## Bits -/

def bitsToNatLE : List Bool → Nat
  | [] => 0
  | b :: rest => (if b then 1 else 0) + 2 * bitsToNatLE rest

def bitsToChunkCount (n : Nat) : Nat := (n + 256 - 1) / 256

/-- The bits of a bit list without the one that says where they end. -/
def bitBody (xs : Array Bool) : ByteArray :=
  let bv : BitVec xs.size := BitVec.ofNat xs.size (bitsToNatLE xs.toList)
  SSZType.serialize (.bitvector xs.size) bv

/-! ## The merkleizer -/

/-- The arms of `hashTreeRoot` for `uintN`. -/
def uintRoot : (n : Nat) → SSZType.uintNInterp n → ByteArray
  | 8, x => padToChunk (ByteArray.empty.push x)
  | 16, x => padToChunk (uint16LE x)
  | 32, x => padToChunk (uint32LE x)
  | 64, x => padToChunk (uint64LE x)
  | 128, x =>
      let x' : BitVec 128 := x
      padToChunk (natToChunk x'.toNat)
  | 256, x =>
      let x' : BitVec 256 := x
      padToChunk (natToChunk x'.toNat)
  | _, _ => zero32

def boolRoot (b : Bool) : ByteArray := padToChunk (ByteArray.empty.push (if b then 1 else 0))

namespace SSZType

mutual

def hashTreeRoot (H : Hasher m) : (s : SSZType) → s.interp → m ByteArray
  | .uintN n, x => pure (uintRoot n x)
  | .bool, b => pure (boolRoot b)
  | .bitvector n, bv =>
      let body := serialize (.bitvector n) bv
      merkleize H (chunkify body) (chunkDepth (bytesToChunkCount ((n + 7) / 8)))
  | .bitlist cap, bs => do
      let xs := bs.val
      let bodyRoot ← merkleize H (chunkify (bitBody xs)) (chunkDepth (bitsToChunkCount cap))
      mixInLength H bodyRoot xs.size
  | .vector t n, v =>
      if t.isBasicType then
        let body := serialize (.vector t n) v
        merkleize H (chunkify body) (chunkDepth (bytesToChunkCount body.size))
      else do
        let roots ← hashTreeRootListComposite H t v.toList []
        merkleize H roots (chunkDepth n)
  | .list t cap, xs =>
      let actualLen := xs.val.size
      if t.isBasicType then do
        let body := serializeFixedElems t xs.val.toList
        let capChunks := bytesToChunkCount (cap * t.fixedByteSize)
        let bodyRoot ← merkleize H (chunkify body) (chunkDepth capChunks)
        mixInLength H bodyRoot actualLen
      else do
        let roots ← hashTreeRootListComposite H t xs.val.toList []
        let bodyRoot ← merkleize H roots (chunkDepth cap)
        mixInLength H bodyRoot actualLen
  | .container fs, vs => do
      let roots ← hashTreeRootFields H fs vs
      merkleize H roots (chunkDepth fs.length)
  | .progressiveList t, xs =>
      if t.isBasicType then do
        let body := serializeFixedElems t xs.toList
        let bodyRoot ← merkleizeProgressive H (chunkify body)
        mixInLength H bodyRoot xs.size
      else do
        let roots ← hashTreeRootListComposite H t xs.toList []
        let bodyRoot ← merkleizeProgressive H roots
        mixInLength H bodyRoot xs.size
  | .progressiveBitlist, bs => do
      let bodyRoot ← merkleizeProgressive H (chunkify (bitBody bs))
      mixInLength H bodyRoot bs.size
  | .progressiveContainer active fs, vs => do
      let roots ← hashTreeRootFields H fs vs
      let bodyRoot ← merkleizeProgressive H (placeActiveChunks active roots)
      mixInActiveFields H bodyRoot active

def hashTreeRootFields (H : Hasher m) :
    (fs : List SSZType) → interpFields fs → m (List ByteArray)
  | [], _ => pure []
  | t :: ts, vs => do
      let root ← t.hashTreeRoot H vs.1
      let roots ← hashTreeRootFields H ts vs.2
      pure (root :: roots)

/-- The roots of the elements, behind those in `acc`. -/
def hashTreeRootListComposite (H : Hasher m) :
    (t : SSZType) → List t.interp → (acc : List ByteArray) → m (List ByteArray)
  | _, [], acc => pure acc.reverse
  | t, x :: xs, acc => do
      let root ← t.hashTreeRoot H x
      hashTreeRootListComposite H t xs (root :: acc)

end

end SSZType

end HazmatSha256.Ssz
