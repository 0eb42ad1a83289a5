import HazmatSha256.Cache.SetAt
set_option autoImplicit false

/-!
# Cache: paths into a value

The paths of `sszUpdate` and `sszGet` as `SizzLean.Cache.Update` elaborates them: what a
path reads and writes in the view, which index it checks, and which node of the tree it
writes.  A path that does not fit the shape cannot be written down.
-/

namespace HazmatSha256.Cache

open Foundation Shape Boxed Isal Evp Shim Merkle Ssz

/-- An index past the current length. -/
inductive IndexError where
  | indexError (idx bound : Nat)
  deriving Repr, DecidableEq

mutual

/-- A path into values of a shape, to a part of another shape.  A `checked` index is written
`[i]`, any other `[i]!`. -/
inductive Path : SSZType → SSZType → Type where
  | here {s : SSZType} : Path s s
  | field {fs : List SSZType} {u : SSZType} (p : FieldPath fs u) : Path (.container fs) u
  | progressiveField {active : List Bool} {fs : List SSZType} {u : SSZType} (p : FieldPath fs u) :
      Path (.progressiveContainer active fs) u
  | vectorAt {t : SSZType} {n : Nat} {u : SSZType} (i : Nat) (checked : Bool) (p : Path t u) :
      Path (.vector t n) u
  | listAt {t : SSZType} {cap : Nat} {u : SSZType} (i : Nat) (checked : Bool) (p : Path t u) :
      Path (.list t cap) u
  /-- No path goes on past an element of a progressive list. -/
  | progressiveListAt {t : SSZType} (i : Nat) (checked : Bool) : Path (.progressiveList t) t
  | progressiveBitAt (i : Nat) (checked : Bool) : Path .progressiveBitlist .bool

/-- A path through one of these fields. -/
inductive FieldPath : List SSZType → SSZType → Type where
  | head {t : SSZType} {ts : List SSZType} {u : SSZType} (p : Path t u) : FieldPath (t :: ts) u
  | tail {t : SSZType} {ts : List SSZType} {u : SSZType} (p : FieldPath ts u) :
      FieldPath (t :: ts) u

end

/-- Which field. -/
def FieldPath.index {u : SSZType} : {fs : List SSZType} → FieldPath fs u → Nat
  | _, .head _ => 0
  | _, .tail p => p.index + 1

/-! ## The node a path writes -/

mutual

/-- `walkPath`: the way to the node that is rebuilt.  An element that is packed into a chunk
has no node of its own, nor has one of a progressive list, so that there the whole list or
vector is rebuilt. -/
def Path.bits : {s u : SSZType} → Path s u → List Bool
  | _, _, .here => []
  | _, _, @Path.field fs _ p => gindexBits (2 ^ chunkDepth fs.length + p.index) ++ p.bits
  | _, _, @Path.progressiveField _ fs _ p =>
      gindexBits (2 ^ chunkDepth fs.length + p.index) ++ p.bits
  | _, _, @Path.vectorAt t n _ i _ p =>
      if t.isBasicType then [] else gindexBits (2 ^ chunkDepth n + i) ++ p.bits
  | _, _, @Path.listAt t cap _ i _ p =>
      if t.isBasicType then [] else [false] ++ gindexBits (2 ^ chunkDepth cap + i) ++ p.bits
  | _, _, .progressiveListAt _ _ => []
  | _, _, .progressiveBitAt _ _ => []

def FieldPath.bits : {fs : List SSZType} → {u : SSZType} → FieldPath fs u → List Bool
  | _, _, .head p => p.bits
  | _, _, .tail p => p.bits

end

/-- A value, with its shape. -/
abbrev Part : Type := (s : SSZType) × s.interp

mutual

/-- `viewProjectionOption`: the part of the view that the node is rebuilt from; none where an
index on the way is past the end. -/
def Path.part : {s u : SSZType} → Path s u → s.interp → Option Part
  | s, _, .here, x => some ⟨s, x⟩
  | _, _, .field p, x => p.part x
  | _, _, .progressiveField p, x => p.part x
  | _, _, @Path.vectorAt t n _ i _ p, v =>
      if t.isBasicType then some ⟨.vector t n, v⟩
      else if h : i < n then p.part v[i] else none
  | _, _, @Path.listAt t cap _ i _ p, xs =>
      if t.isBasicType then some ⟨.list t cap, xs⟩
      else if h : i < xs.val.size then p.part xs.val[i] else none
  | _, _, @Path.progressiveListAt t _ _, xs => some ⟨.progressiveList t, xs⟩
  | _, _, .progressiveBitAt _ _, bs => some ⟨.progressiveBitlist, bs⟩

def FieldPath.part : {fs : List SSZType} → {u : SSZType} → FieldPath fs u →
    SSZType.interpFields fs → Option Part
  | _, _, .head p, vs => p.part vs.1
  | _, _, .tail p, vs => p.part vs.2

end

/-! ## Reading and writing the view -/

/-- The value of `[i]!` past the end. -/
abbrev Defaults : Type := (s : SSZType) → s.interp

def zeroUint (n : Nat) : SSZType.uintNInterp n := by
  unfold SSZType.uintNInterp
  split
  · exact (0 : UInt8)
  · exact (0 : UInt16)
  · exact (0 : UInt32)
  · exact (0 : UInt64)
  · exact (0 : BitVec n)

mutual

/-- The derived `Inhabited` instances. -/
def zeros : Defaults
  | .uintN n => zeroUint n
  | .bool => false
  | .vector t n => Vector.replicate n (zeros t)
  | .list _ _ => ⟨#[], Nat.zero_le _⟩
  | .bitvector n => (0 : BitVec n)
  | .bitlist _ => ⟨#[], Nat.zero_le _⟩
  | .container fs => zerosFields fs
  | .progressiveList _ => #[]
  | .progressiveBitlist => #[]
  | .progressiveContainer _ fs => zerosFields fs

def zerosFields : (fs : List SSZType) → SSZType.interpFields fs
  | [] => ⟨⟩
  | t :: ts => (zeros t, zerosFields ts)

end

mutual

/-- `sszGet`, with every index read as `[i]!`. -/
def Path.get (dflt : Defaults) : {s u : SSZType} → Path s u → s.interp → u.interp
  | _, _, .here, x => x
  | _, _, .field p, x => p.get dflt x
  | _, _, .progressiveField p, x => p.get dflt x
  | _, _, @Path.vectorAt t _ _ i _ p, v => p.get dflt (v[i]?.getD (dflt t))
  | _, _, @Path.listAt t _ _ i _ p, xs => p.get dflt (xs.val[i]?.getD (dflt t))
  | _, u, .progressiveListAt i _, xs => xs[i]?.getD (dflt u)
  | _, _, .progressiveBitAt i _, bs => bs[i]?.getD (dflt .bool)

def FieldPath.get (dflt : Defaults) : {fs : List SSZType} → {u : SSZType} → FieldPath fs u →
    SSZType.interpFields fs → u.interp
  | _, _, .head p, vs => p.get dflt vs.1
  | _, _, .tail p, vs => p.get dflt vs.2

end

/-- `SSZList.set!`. -/
def listSet {α : Type} {cap : Nat} (xs : { xs : Array α // xs.size ≤ cap }) (i : Nat) (y : α) :
    { xs : Array α // xs.size ≤ cap } :=
  ⟨xs.val.setIfInBounds i y, by rw [Array.size_setIfInBounds]; exact xs.property⟩

mutual

/-- `nestedViewUpdate`: an index past the end changes nothing. -/
def Path.write (dflt : Defaults) : {s u : SSZType} → Path s u → u.interp → s.interp → s.interp
  | _, _, .here, y, _ => y
  | _, _, .field p, y, x => p.write dflt y x
  | _, _, .progressiveField p, y, x => p.write dflt y x
  | _, _, @Path.vectorAt t _ _ i _ p, y, v =>
      v.setIfInBounds i (p.write dflt y (v[i]?.getD (dflt t)))
  | _, _, @Path.listAt t _ _ i _ p, y, xs =>
      listSet xs i (p.write dflt y (xs.val[i]?.getD (dflt t)))
  | _, _, .progressiveListAt i _, y, xs => xs.setIfInBounds i y
  | _, _, .progressiveBitAt i _, y, bs => bs.setIfInBounds i y

def FieldPath.write (dflt : Defaults) : {fs : List SSZType} → {u : SSZType} → FieldPath fs u →
    u.interp → SSZType.interpFields fs → SSZType.interpFields fs
  | _, _, .head p, y, vs => (p.write dflt y vs.1, vs.2)
  | _, _, .tail p, y, vs => (vs.1, p.write dflt y vs.2)

end

/-- `[i]` past the end is an error, `[i]!` is not. -/
def guardIndex (checked : Bool) (i bound : Nat) (inner : Except IndexError Unit) :
    Except IndexError Unit :=
  if checked then
    if i < bound then inner else .error (.indexError i bound)
  else inner

mutual

/-- `pathGuardExcept`: the first checked index that is past the end. -/
def Path.check (dflt : Defaults) : {s u : SSZType} → Path s u → s.interp → Except IndexError Unit
  | _, _, .here, _ => .ok ()
  | _, _, .field p, x => p.check dflt x
  | _, _, .progressiveField p, x => p.check dflt x
  | _, _, @Path.vectorAt t n _ i checked p, v =>
      guardIndex checked i n (p.check dflt (v[i]?.getD (dflt t)))
  | _, _, @Path.listAt t _ _ i checked p, xs =>
      guardIndex checked i xs.val.size (p.check dflt (xs.val[i]?.getD (dflt t)))
  | _, _, .progressiveListAt i checked, xs => guardIndex checked i xs.size (.ok ())
  | _, _, .progressiveBitAt i checked, bs => guardIndex checked i bs.size (.ok ())

def FieldPath.check (dflt : Defaults) : {fs : List SSZType} → {u : SSZType} → FieldPath fs u →
    SSZType.interpFields fs → Except IndexError Unit
  | _, _, .head p, vs => p.check dflt vs.1
  | _, _, .tail p, vs => p.check dflt vs.2

end

end HazmatSha256.Cache
