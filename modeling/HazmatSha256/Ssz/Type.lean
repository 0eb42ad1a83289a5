import HazmatSha256.Merkle.Layer
set_option autoImplicit false

/-!
# Ssz: shapes, values and bytes

`SizzLean.Spec.Type`, `Interp` and `Serialize`: the universe of shapes, the type of the
values of each shape, and the bytes of a value.
-/

namespace HazmatSha256.Ssz

open Merkle

/-! ## Shapes -/

inductive SSZType where
  | uintN (bits : Nat)
  | bool
  | vector (t : SSZType) (n : Nat)
  | list (t : SSZType) (cap : Nat)
  | bitvector (n : Nat)
  | bitlist (cap : Nat)
  | container (fs : List SSZType)
  | progressiveList (t : SSZType)
  | progressiveBitlist
  /-- `fs` are the active fields; `active` places them among zero chunks. -/
  | progressiveContainer (active : List Bool) (fs : List SSZType)

namespace SSZType

@[reducible] def uintNInterp (n : Nat) : Type :=
  match n.beq 8, n.beq 16, n.beq 32, n.beq 64 with
  | true, _, _, _ => UInt8
  | _, true, _, _ => UInt16
  | _, _, true, _ => UInt32
  | _, _, _, true => UInt64
  | _, _, _, _ => BitVec n

mutual

/-- The values of a shape. -/
@[reducible] def interp : SSZType → Type
  | .uintN n => uintNInterp n
  | .bool => Bool
  | .vector t n => Vector t.interp n
  | .list t cap => { xs : Array t.interp // xs.size ≤ cap }
  | .bitvector n => BitVec n
  | .bitlist cap => { bs : Array Bool // bs.size ≤ cap }
  | .container fs => interpFields fs
  | .progressiveList t => Array t.interp
  | .progressiveBitlist => Array Bool
  | .progressiveContainer _ fs => interpFields fs

@[reducible] def interpFields : List SSZType → Type
  | [] => PUnit
  | t :: ts => t.interp × interpFields ts

end

/-! ## Layout -/

mutual

/-- Is the number of bytes a function of the shape? -/
def isFixedSize : SSZType → Bool
  | .uintN _ => true
  | .bool => true
  | .vector t _ => t.isFixedSize
  | .list _ _ => false
  | .bitvector _ => true
  | .bitlist _ => false
  | .container fs => allFixedSize fs
  | .progressiveList _ => false
  | .progressiveBitlist => false
  | .progressiveContainer _ fs => allFixedSize fs

def allFixedSize : List SSZType → Bool
  | [] => true
  | t :: ts => t.isFixedSize && allFixedSize ts

end

/-- Elements of these shapes are packed into chunks; all others have a root each. -/
def isBasicType : SSZType → Bool
  | .uintN _ => true
  | .bool => true
  | _ => false

mutual

def fixedByteSize : SSZType → Nat
  | .uintN n => (n + 7) / 8
  | .bool => 1
  | .vector t n => t.fixedByteSize * n
  | .list _ _ => 0
  | .bitvector n => (n + 7) / 8
  | .bitlist _ => 0
  | .container fs => fixedByteSizeFields fs
  | .progressiveList _ => 0
  | .progressiveBitlist => 0
  | .progressiveContainer _ fs => fixedByteSizeFields fs

def fixedByteSizeFields : List SSZType → Nat
  | [] => 0
  | t :: ts => t.fixedByteSize + fixedByteSizeFields ts

end

def bytesPerLengthOffset : Nat := 4

def fixedSectionSize (t : SSZType) : Nat :=
  if t.isFixedSize then t.fixedByteSize else bytesPerLengthOffset

def fixedSectionSizeFields : List SSZType → Nat
  | [] => 0
  | t :: ts => t.fixedSectionSize + fixedSectionSizeFields ts

end SSZType

/-! ## Bytes of numbers and bits -/

def uint16LE (x : UInt16) : ByteArray :=
  (ByteArray.empty.push x.toUInt8).push (x >>> 8).toUInt8

def uint32LE (x : UInt32) : ByteArray :=
  (((ByteArray.empty.push x.toUInt8).push (x >>> 8).toUInt8).push (x >>> 16).toUInt8).push
    (x >>> 24).toUInt8

def uint64LE (x : UInt64) : ByteArray :=
  (((((((ByteArray.empty.push x.toUInt8).push (x >>> 8).toUInt8).push (x >>> 16).toUInt8).push
    (x >>> 24).toUInt8).push (x >>> 32).toUInt8).push (x >>> 40).toUInt8).push
    (x >>> 48).toUInt8).push (x >>> 56).toUInt8

def natToLEBytes (width n : Nat) (acc : ByteArray) : ByteArray := pushBytesLE width n acc

/-- Bit `k` and those after it, the first of them in the lowest place. -/
def bitsToByte : List Bool → (k : Nat) → (acc : UInt8) → UInt8
  | [], _, acc => acc
  | true :: rest, k, acc => bitsToByte rest (k + 1) (acc ||| ((1 : UInt8) <<< k.toUInt8))
  | false :: rest, k, acc => bitsToByte rest (k + 1) acc

def packBitsLE : List Bool → ByteArray
  | [] => .empty
  | b0 :: b1 :: b2 :: b3 :: b4 :: b5 :: b6 :: b7 :: rest =>
      ByteArray.empty.push (bitsToByte [b0, b1, b2, b3, b4, b5, b6, b7] 0 0) ++ packBitsLE rest
  | bs => ByteArray.empty.push (bitsToByte bs 0 0)

def bitvecToBytes (n : Nat) (bv : BitVec n) : ByteArray :=
  packBitsLE ((List.range n).map fun i => bv.getLsbD i)

/-- The bits, and one more that says where they end. -/
def bitlistToBytes (bs : Array Bool) : ByteArray := packBitsLE (bs.toList ++ [true])

/-! ## The serializer -/

/-- The arms of `serialize` for `uintN`; a width that is none of the six has no bytes. -/
def serializeUint : (n : Nat) → SSZType.uintNInterp n → ByteArray
  | 8, x => ByteArray.empty.push x
  | 16, x => uint16LE x
  | 32, x => uint32LE x
  | 64, x => uint64LE x
  | 128, x =>
      let x' : BitVec 128 := x
      natToLEBytes 16 x'.toNat .empty
  | 256, x =>
      let x' : BitVec 256 := x
      natToLEBytes 32 x'.toNat .empty
  | _, _ => .empty

namespace SSZType

mutual

def serialize : (s : SSZType) → s.interp → ByteArray
  | .uintN n, x => serializeUint n x
  | .bool, b => ByteArray.empty.push (if b then 1 else 0)
  | .vector t _, v =>
      if t.isFixedSize then serializeFixedElems t v.toList
      else
        let xs := v.toList
        let varOff := xs.length * bytesPerLengthOffset
        let (offs, bodies) := serializeVarElemsAux t xs varOff
        offs ++ bodies
  | .list t _, xs =>
      if t.isFixedSize then serializeFixedElems t xs.val.toList
      else
        let ys := xs.val.toList
        let varOff := ys.length * bytesPerLengthOffset
        let (offs, bodies) := serializeVarElemsAux t ys varOff
        offs ++ bodies
  | .bitvector n, bv => bitvecToBytes n bv
  | .bitlist _, bs => bitlistToBytes bs.val
  | .container fs, vs =>
      let (fix, var) := serializeFieldsAux fs vs (fixedSectionSizeFields fs)
      fix ++ var
  | .progressiveList t, xs =>
      if t.isFixedSize then serializeFixedElems t xs.toList
      else
        let ys := xs.toList
        let varOff := ys.length * bytesPerLengthOffset
        let (offs, bodies) := serializeVarElemsAux t ys varOff
        offs ++ bodies
  | .progressiveBitlist, bs => bitlistToBytes bs
  | .progressiveContainer _ fs, vs =>
      let (fix, var) := serializeFieldsAux fs vs (fixedSectionSizeFields fs)
      fix ++ var

def serializeFixedElems : (t : SSZType) → List t.interp → ByteArray
  | _, [] => .empty
  | t, x :: xs => t.serialize x ++ serializeFixedElems t xs

/-- The table of offsets and the bodies; `varOff` is where the next body begins. -/
def serializeVarElemsAux : (t : SSZType) → List t.interp → (varOff : Nat) → ByteArray × ByteArray
  | _, [], _ => (.empty, .empty)
  | t, x :: xs, varOff =>
      let xBytes := t.serialize x
      let offBytes := uint32LE varOff.toUInt32
      let (offs, bodies) := serializeVarElemsAux t xs (varOff + xBytes.size)
      (offBytes ++ offs, xBytes ++ bodies)

def serializeFieldsAux : (fs : List SSZType) → interpFields fs → (varOff : Nat) →
    ByteArray × ByteArray
  | [], _, _ => (.empty, .empty)
  | t :: ts, vs, varOff =>
      let xBytes := t.serialize vs.1
      if t.isFixedSize then
        let (fix, var) := serializeFieldsAux ts vs.2 varOff
        (xBytes ++ fix, var)
      else
        let offBytes := uint32LE varOff.toUInt32
        let (fix, var) := serializeFieldsAux ts vs.2 (varOff + xBytes.size)
        (offBytes ++ fix, xBytes ++ var)

end

end SSZType

end HazmatSha256.Ssz
