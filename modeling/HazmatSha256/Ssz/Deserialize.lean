import HazmatSha256.Ssz.Type
set_option autoImplicit false

/-!
# Ssz: values from bytes

`SizzLean.Spec.Deserialize`: the decoder.  It answers the value and how many bytes of the
buffer it took, or why the buffer is no value of the shape.
-/

namespace HazmatSha256.Ssz

open Merkle

inductive SSZError where
  | tooShort
  | invalidOffset
  | invalidSelector
  | trailingBytes
  | bitlistMissingDelimiter
  | outOfRange
  deriving Repr, DecidableEq

open SSZType (bytesPerLengthOffset)

/-! ## Numbers -/

def readUInt8At (b : ByteArray) (off : Nat) : Option UInt8 :=
  if h : off < b.size then some b[off] else none

def readUInt16LE (b : ByteArray) (off : Nat) : Option UInt16 :=
  if h : off + 2 ≤ b.size then
    let b0 : UInt16 := b[off].toUInt16
    let b1 : UInt16 := b[off + 1].toUInt16
    some (b0 ||| (b1 <<< 8))
  else none

def readUInt32LE (b : ByteArray) (off : Nat) : Option UInt32 :=
  if h : off + 4 ≤ b.size then
    let b0 : UInt32 := b[off].toUInt32
    let b1 : UInt32 := b[off + 1].toUInt32
    let b2 : UInt32 := b[off + 2].toUInt32
    let b3 : UInt32 := b[off + 3].toUInt32
    some (b0 ||| (b1 <<< 8) ||| (b2 <<< 16) ||| (b3 <<< 24))
  else none

def readUInt64LE (b : ByteArray) (off : Nat) : Option UInt64 :=
  if h : off + 8 ≤ b.size then
    let g (i : Nat) (h' : off + i < b.size) : UInt64 := b[off + i].toUInt64
    some (g 0 (by omega) |||
      (g 1 (by omega) <<< 8) ||| (g 2 (by omega) <<< 16) ||| (g 3 (by omega) <<< 24) |||
      (g 4 (by omega) <<< 32) ||| (g 5 (by omega) <<< 40) ||| (g 6 (by omega) <<< 48) |||
      (g 7 (by omega) <<< 56))
  else none

/-- Bytes `off + k - 1` down to `off`, below those in `acc`. -/
def readNatLEAux (b : ByteArray) (off : Nat) : (k acc : Nat) → Nat
  | 0, acc => acc
  | k + 1, acc =>
      if h : off + k < b.size then readNatLEAux b off k (acc * 256 + b[off + k].toNat)
      else acc * 256

def readNatLE (b : ByteArray) (off width : Nat) : Option Nat :=
  if off + width > b.size then none else some (readNatLEAux b off width 0)

/-! ## Offsets -/

/-- The offsets of the variable-size fields, in the order of the fields. -/
def extractFieldOffsets (b : ByteArray) :
    (fs : List SSZType) → (off : Nat) → Except SSZError (List Nat)
  | [], _ => .ok []
  | t :: ts, off =>
      if t.isFixedSize then extractFieldOffsets b ts (off + t.fixedByteSize)
      else
        match readUInt32LE b off with
        | none => .error .tooShort
        | some o =>
            match extractFieldOffsets b ts (off + bytesPerLengthOffset) with
            | .ok rest => .ok (o.toNat :: rest)
            | .error e => .error e

def extractCollOffsets (b : ByteArray) : (count off : Nat) → Except SSZError (List Nat)
  | 0, _ => .ok []
  | k + 1, off =>
      match readUInt32LE b off with
      | none => .error .tooShort
      | some o =>
          match extractCollOffsets b k (off + bytesPerLengthOffset) with
          | .ok rest => .ok (o.toNat :: rest)
          | .error e => .error e

/-! ## Bits -/

def byteToBits (b : UInt8) : List Bool :=
  (List.range 8).map fun i => decide (((b >>> Nat.toUInt8 i) &&& 1) = 1)

def unpackBitsLEAux (b : ByteArray) : (count off : Nat) → List Bool
  | 0, _ => []
  | k + 1, off => byteToBits (b.get! off) ++ unpackBitsLEAux b k (off + 1)

def bitsToNat : List Bool → Nat
  | [] => 0
  | b :: rest => (if b then 1 else 0) + 2 * bitsToNat rest

/-- The highest bit that is set, among the lowest `k + 1`. -/
def msbPosAux (byte : UInt8) : Nat → Option Nat
  | 0 => if (byte &&& 1) = 1 then some 0 else none
  | k + 1 =>
      if ((byte >>> Nat.toUInt8 (k + 1)) &&& 1) = 1 then some (k + 1) else msbPosAux byte k

def msbPos (byte : UInt8) : Option Nat := msbPosAux byte 7

/-- The bits beyond the last one must be zero. -/
def deserializeBitvector (n : Nat) (b : ByteArray) : Except SSZError (BitVec n × Nat) :=
  if n = 0 then .error .outOfRange
  else
    let need := (n + 7) / 8
    if b.size = need then
      let unusedBits := need * 8 - n
      if unusedBits > 0 then
        let lastByte := b.get! (b.size - 1)
        let mask : UInt8 := (1 <<< Nat.toUInt8 unusedBits) - 1
        let shifted : UInt8 := lastByte >>> Nat.toUInt8 (8 - unusedBits)
        if shifted &&& mask ≠ 0 then .error .invalidOffset
        else
          let bits := (unpackBitsLEAux b need 0).take n
          .ok (BitVec.ofNat n (bitsToNat bits), need)
      else
        let bits := (unpackBitsLEAux b need 0).take n
        .ok (BitVec.ofNat n (bitsToNat bits), need)
    else if b.size < need then .error .tooShort
    else .error .trailingBytes

/-- The highest bit of the last byte says where the bits end. -/
def deserializeBitlist (cap : Nat) (b : ByteArray) :
    Except SSZError ({ bs : Array Bool // bs.size ≤ cap } × Nat) :=
  if b.size = 0 then .error .bitlistMissingDelimiter
  else
    let last := b.get! (b.size - 1)
    match msbPos last with
    | none => .error .bitlistMissingDelimiter
    | some pos =>
        let totalBits := (b.size - 1) * 8 + pos
        if totalBits > cap then .error .outOfRange
        else
          let bits := (unpackBitsLEAux b b.size 0).take totalBits
          let arr := bits.toArray
          if hsz : arr.size ≤ cap then .ok (⟨arr, hsz⟩, b.size) else .error .outOfRange

def deserializeProgressiveBitlist (b : ByteArray) : Except SSZError (Array Bool × Nat) :=
  if b.size = 0 then .error .bitlistMissingDelimiter
  else
    let last := b.get! (b.size - 1)
    match msbPos last with
    | none => .error .bitlistMissingDelimiter
    | some pos =>
        let totalBits := (b.size - 1) * 8 + pos
        let bits := (unpackBitsLEAux b b.size 0).take totalBits
        .ok (bits.toArray, b.size)

/-! ## The decoder -/

/-- The arms of `deserialize` for `uintN`. -/
def deserializeUint : (n : Nat) → ByteArray → Except SSZError (SSZType.uintNInterp n × Nat)
  | 8, b => match readUInt8At b 0 with
      | some x => .ok (x, 1)
      | none => .error .tooShort
  | 16, b => match readUInt16LE b 0 with
      | some x => .ok (x, 2)
      | none => .error .tooShort
  | 32, b => match readUInt32LE b 0 with
      | some x => .ok (x, 4)
      | none => .error .tooShort
  | 64, b => match readUInt64LE b 0 with
      | some x => .ok (x, 8)
      | none => .error .tooShort
  | 128, b => match readNatLE b 0 16 with
      | some n => .ok (BitVec.ofNat 128 n, 16)
      | none => .error .tooShort
  | 256, b => match readNatLE b 0 32 with
      | some n => .ok (BitVec.ofNat 256 n, 32)
      | none => .error .tooShort
  | _, _ => .error .tooShort

def deserializeBool (b : ByteArray) : Except SSZError (Bool × Nat) :=
  match readUInt8At b 0 with
  | some 0 => .ok (false, 1)
  | some 1 => .ok (true, 1)
  | some _ => .error .invalidOffset
  | none => .error .tooShort

section Walkers

variable {α : Type}

/-- `count` elements of `elemSize` bytes each, behind those in `acc`. -/
def deserializeFixedElems (decode : ByteArray → Except SSZError (α × Nat)) :
    (count : Nat) → ByteArray → (off elemSize : Nat) → (acc : List α) → (accSz : Nat) →
    Except SSZError (List α × Nat)
  | 0, _, _, _, acc, accSz => .ok (acc.reverse, accSz)
  | k + 1, b, off, sz, acc, accSz =>
      let chunk := b.extract off (off + sz)
      match decode chunk with
      | .error e => .error e
      | .ok (x, used) =>
          if used ≠ sz then .error .trailingBytes
          else deserializeFixedElems decode k b (off + sz) sz (x :: acc) (accSz + sz)

/-- One element an offset, to the next one or to the end of the buffer. -/
def deserializeVarElems (decode : ByteArray → Except SSZError (α × Nat)) :
    (offs : List Nat) → (bufEnd : Nat) → ByteArray → Except SSZError (List α)
  | [], _, _ => .ok []
  | curOff :: rest, bufEnd, b =>
      let nextOff := rest.head?.getD bufEnd
      if curOff > nextOff || nextOff > bufEnd then .error .invalidOffset
      else
        let body := b.extract curOff nextOff
        match decode body with
        | .error e => .error e
        | .ok (x, _) =>
            match deserializeVarElems decode rest bufEnd b with
            | .error e => .error e
            | .ok xs => .ok (x :: xs)

/-- The arm of `deserialize` for `vector`. -/
def deserializeVector (t : SSZType) (decode : ByteArray → Except SSZError (α × Nat)) (n : Nat)
    (b : ByteArray) : Except SSZError (Vector α n × Nat) :=
  if n = 0 then .error .outOfRange
  else if t.isFixedSize then
    let sz := t.fixedByteSize
    match deserializeFixedElems decode n b 0 sz [] 0 with
    | .error e => .error e
    | .ok (xs, used) =>
        let arr := xs.toArray
        if h : arr.size = n then .ok (⟨arr, h⟩, used) else .error .tooShort
  else if b.size < n * bytesPerLengthOffset then .error .tooShort
  else
    match extractCollOffsets b n 0 with
    | .error e => .error e
    | .ok offs =>
        match deserializeVarElems decode offs b.size b with
        | .error e => .error e
        | .ok xs =>
            let arr := xs.toArray
            if h : arr.size = n then .ok (⟨arr, h⟩, b.size) else .error .tooShort

/-- The arm for `list`. -/
def deserializeList (t : SSZType) (decode : ByteArray → Except SSZError (α × Nat)) (cap : Nat)
    (b : ByteArray) : Except SSZError ({ xs : Array α // xs.size ≤ cap } × Nat) :=
  if t.isFixedSize then
    let sz := t.fixedByteSize
    if sz = 0 then .error .tooShort
    else
      let count := b.size / sz
      if count > cap then .error .outOfRange
      else if count * sz ≠ b.size then .error .trailingBytes
      else
        match deserializeFixedElems decode count b 0 sz [] 0 with
        | .error e => .error e
        | .ok (xs, used) =>
            let arr := xs.toArray
            if h : arr.size ≤ cap then .ok (⟨arr, h⟩, used) else .error .outOfRange
  else if b.size = 0 then .ok (⟨#[], Nat.zero_le cap⟩, 0)
  else
    match readUInt32LE b 0 with
    | none => .error .tooShort
    | some firstOff =>
        let firstOffN := firstOff.toNat
        if firstOffN % bytesPerLengthOffset ≠ 0 then .error .invalidOffset
        else
          let count := firstOffN / bytesPerLengthOffset
          if count > cap then .error .outOfRange
          else
            match extractCollOffsets b count 0 with
            | .error e => .error e
            | .ok offs =>
                match deserializeVarElems decode offs b.size b with
                | .error e => .error e
                | .ok xs =>
                    let arr := xs.toArray
                    if h : arr.size ≤ cap then .ok (⟨arr, h⟩, b.size) else .error .outOfRange

/-- The arm for `progressiveList`: a first offset of zero is refused here. -/
def deserializeProgressiveList (t : SSZType) (decode : ByteArray → Except SSZError (α × Nat))
    (b : ByteArray) : Except SSZError (Array α × Nat) :=
  if t.isFixedSize then
    let sz := t.fixedByteSize
    if sz = 0 then .error .tooShort
    else
      let count := b.size / sz
      if count * sz ≠ b.size then .error .trailingBytes
      else
        match deserializeFixedElems decode count b 0 sz [] 0 with
        | .error e => .error e
        | .ok (xs, used) => .ok (xs.toArray, used)
  else if b.size = 0 then .ok (#[], 0)
  else
    match readUInt32LE b 0 with
    | none => .error .tooShort
    | some firstOff =>
        let firstOffN := firstOff.toNat
        if firstOffN = 0 || firstOffN % bytesPerLengthOffset ≠ 0 then .error .invalidOffset
        else
          let count := firstOffN / bytesPerLengthOffset
          match extractCollOffsets b count 0 with
          | .error e => .error e
          | .ok offs =>
              match deserializeVarElems decode offs b.size b with
              | .error e => .error e
              | .ok xs => if xs.length ≠ count then .error .tooShort else .ok (xs.toArray, b.size)

/-- The arms for the two containers, over the walkers of their fields. -/
def deserializeContainer (fs : List SSZType) (b : ByteArray)
    (fixedFields : (off : Nat) → Except SSZError (α × Nat))
    (varFields : (prefixOff : Nat) → (varOffs : List Nat) → (bufEnd : Nat) → Except SSZError α) :
    Except SSZError (α × Nat) :=
  if SSZType.allFixedSize fs then fixedFields 0
  else
    let prefixSize := SSZType.fixedSectionSizeFields fs
    if b.size < prefixSize then .error .tooShort
    else
      match extractFieldOffsets b fs 0 with
      | .error e => .error e
      | .ok offs =>
          match offs.head? with
          | some firstOff =>
              if firstOff ≠ prefixSize then .error .invalidOffset
              else
                match varFields 0 offs b.size with
                | .error e => .error e
                | .ok v => .ok (v, b.size)
          | none => fixedFields 0

end Walkers

namespace SSZType

mutual

def deserialize : (s : SSZType) → ByteArray → Except SSZError (s.interp × Nat)
  | .uintN n, b => deserializeUint n b
  | .bool, b => deserializeBool b
  | .vector t n, b => deserializeVector t (deserialize t) n b
  | .list t cap, b => deserializeList t (deserialize t) cap b
  | .bitvector n, b => deserializeBitvector n b
  | .bitlist cap, b => deserializeBitlist cap b
  | .container fs, b =>
      deserializeContainer fs b (deserializeFixedFields fs b) (deserializeVarFields fs b)
  | .progressiveList t, b => deserializeProgressiveList t (deserialize t) b
  | .progressiveBitlist, b => deserializeProgressiveBitlist b
  | .progressiveContainer _ fs, b =>
      deserializeContainer fs b (deserializeFixedFields fs b) (deserializeVarFields fs b)

def deserializeFixedFields : (fs : List SSZType) → ByteArray → (off : Nat) →
    Except SSZError (interpFields fs × Nat)
  | [], _, _ => .ok (⟨⟩, 0)
  | t :: ts, b, off =>
      let sz := t.fixedByteSize
      let chunk := b.extract off (off + sz)
      match deserialize t chunk with
      | .error e => .error e
      | .ok (x, used) =>
          if used ≠ sz then .error .trailingBytes
          else
            match deserializeFixedFields ts b (off + sz) with
            | .error e => .error e
            | .ok (rest, total) => .ok ((x, rest), sz + total)

/-- A fixed-size field stands in the prefix; a variable-size one runs from its offset to the
next, the last to the end of the buffer. -/
def deserializeVarFields : (fs : List SSZType) → ByteArray → (prefixOff : Nat) →
    (varOffs : List Nat) → (bufEnd : Nat) → Except SSZError (interpFields fs)
  | [], _, _, _, _ => .ok ⟨⟩
  | t :: ts, b, prefixOff, varOffs, bufEnd =>
      if t.isFixedSize then
        let sz := t.fixedByteSize
        let chunk := b.extract prefixOff (prefixOff + sz)
        match deserialize t chunk with
        | .error e => .error e
        | .ok (x, used) =>
            if used ≠ sz then .error .trailingBytes
            else
              match deserializeVarFields ts b (prefixOff + sz) varOffs bufEnd with
              | .error e => .error e
              | .ok rest => .ok (x, rest)
      else
        match varOffs with
        | [] => .error .invalidOffset
        | curOff :: restOffs =>
            let nextOff := restOffs.head?.getD bufEnd
            if curOff > nextOff || nextOff > bufEnd then .error .invalidOffset
            else
              let body := b.extract curOff nextOff
              match deserialize t body with
              | .error e => .error e
              | .ok (x, _) =>
                  match deserializeVarFields ts b (prefixOff + bytesPerLengthOffset) restOffs
                      bufEnd with
                  | .error e => .error e
                  | .ok rest => .ok (x, rest)

end

end SSZType

end HazmatSha256.Ssz
