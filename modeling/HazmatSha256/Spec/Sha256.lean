import Mathlib.Data.List.Basic

set_option autoImplicit false

/-!
# Spec: the SHA-256 reference (`LeanSha256`)

The pure-Lean reference of the repository, on which every backend is measured.
It is carried over definition by definition; the chaining state after the last
block has a name of its own here, `finalState`, because a multi-buffer engine
hands back exactly that state and leaves its serialisation to the caller.
-/

namespace HazmatSha256.Spec

/-! ## Constants (FIPS 180-4 §4.2.2, §5.3.3) -/

def kConstants : Array UInt32 := #[
  0x428a2f98, 0x71374491, 0xb5c0fbcf, 0xe9b5dba5, 0x3956c25b, 0x59f111f1, 0x923f82a4, 0xab1c5ed5,
  0xd807aa98, 0x12835b01, 0x243185be, 0x550c7dc3, 0x72be5d74, 0x80deb1fe, 0x9bdc06a7, 0xc19bf174,
  0xe49b69c1, 0xefbe4786, 0x0fc19dc6, 0x240ca1cc, 0x2de92c6f, 0x4a7484aa, 0x5cb0a9dc, 0x76f988da,
  0x983e5152, 0xa831c66d, 0xb00327c8, 0xbf597fc7, 0xc6e00bf3, 0xd5a79147, 0x06ca6351, 0x14292967,
  0x27b70a85, 0x2e1b2138, 0x4d2c6dfc, 0x53380d13, 0x650a7354, 0x766a0abb, 0x81c2c92e, 0x92722c85,
  0xa2bfe8a1, 0xa81a664b, 0xc24b8b70, 0xc76c51a3, 0xd192e819, 0xd6990624, 0xf40e3585, 0x106aa070,
  0x19a4c116, 0x1e376c08, 0x2748774c, 0x34b0bcb5, 0x391c0cb3, 0x4ed8aa4a, 0x5b9cca4f, 0x682e6ff3,
  0x748f82ee, 0x78a5636f, 0x84c87814, 0x8cc70208, 0x90befffa, 0xa4506ceb, 0xbef9a3f7, 0xc67178f2]

def h0Constants : Array UInt32 := #[
  0x6a09e667, 0xbb67ae85, 0x3c6ef372, 0xa54ff53a, 0x510e527f, 0x9b05688c, 0x1f83d9ab, 0x5be0cd19]

/-! ## Round functions (§3.2, §4.1.2) -/

def rotr (x n : UInt32) : UInt32 := (x >>> n) ||| (x <<< (32 - n))

def ch (x y z : UInt32) : UInt32 := (x &&& y) ^^^ ((~~~x) &&& z)

def maj (x y z : UInt32) : UInt32 := (x &&& y) ^^^ (x &&& z) ^^^ (y &&& z)

def bigSigma0 (x : UInt32) : UInt32 := rotr x 2 ^^^ rotr x 13 ^^^ rotr x 22

def bigSigma1 (x : UInt32) : UInt32 := rotr x 6 ^^^ rotr x 11 ^^^ rotr x 25

def smallSigma0 (x : UInt32) : UInt32 := rotr x 7 ^^^ rotr x 18 ^^^ (x >>> 3)

def smallSigma1 (x : UInt32) : UInt32 := rotr x 17 ^^^ rotr x 19 ^^^ (x >>> 10)

/-! ## Message schedule and compression (§6.2) -/

/-- Push `steps` more round words onto the schedule. -/
def extendSchedule (acc : Array UInt32) : (steps : Nat) → Array UInt32
  | 0 => acc
  | k + 1 =>
      let t := acc.size
      let next := smallSigma1 acc[t - 2]! + acc[t - 7]! + smallSigma0 acc[t - 15]! + acc[t - 16]!
      extendSchedule (acc.push next) k

def messageSchedule (block : Array UInt32) : Array UInt32 := extendSchedule block 48

def oneRound (state : Array UInt32) (w k : UInt32) : Array UInt32 :=
  let a := state[0]!
  let b := state[1]!
  let c := state[2]!
  let d := state[3]!
  let e := state[4]!
  let f := state[5]!
  let g := state[6]!
  let h := state[7]!
  let t1 := h + bigSigma1 e + ch e f g + k + w
  let t2 := bigSigma0 a + maj a b c
  #[t1 + t2, a, b, c, d + t1, e, f, g]

def compressBlock (hIn block : Array UInt32) : Array UInt32 :=
  let schedule := messageSchedule block
  let finalState := Nat.fold 64 (fun t _ s => oneRound s schedule[t]! kConstants[t]!) hIn
  Array.ofFn (n := 8) fun i => hIn[i.val]! + finalState[i.val]!

/-! ## Padding and byte order (§5.1, §5.2) -/

def uint64ToBytesBE (n : Nat) : ByteArray :=
  ⟨#[((n >>> 56) &&& 0xff).toUInt8, ((n >>> 48) &&& 0xff).toUInt8,
     ((n >>> 40) &&& 0xff).toUInt8, ((n >>> 32) &&& 0xff).toUInt8,
     ((n >>> 24) &&& 0xff).toUInt8, ((n >>> 16) &&& 0xff).toUInt8,
     ((n >>> 8) &&& 0xff).toUInt8, (n &&& 0xff).toUInt8]⟩

def pad (input : ByteArray) : ByteArray :=
  let bitLen := input.size * 8
  let withMark := input.push 0x80
  let modLen := withMark.size % 64
  let zeroBytes := if modLen ≤ 56 then 56 - modLen else 56 + 64 - modLen
  withMark ++ ⟨Array.replicate zeroBytes 0⟩ ++ uint64ToBytesBE bitLen

def bytesToWordBE (b0 b1 b2 b3 : UInt8) : UInt32 :=
  (b0.toUInt32 <<< 24) ||| (b1.toUInt32 <<< 16) ||| (b2.toUInt32 <<< 8) ||| b3.toUInt32

def wordToBytesBE (w : UInt32) : ByteArray :=
  ⟨#[(w >>> 24).toUInt8, (w >>> 16).toUInt8, (w >>> 8).toUInt8, w.toUInt8]⟩

def extractBlock (padded : ByteArray) (blockIdx : Nat) : Array UInt32 :=
  Array.ofFn (n := 16) fun j =>
    let off := blockIdx * 64 + j.val * 4
    bytesToWordBE padded[off]! padded[off + 1]! padded[off + 2]! padded[off + 3]!

def packState (state : Array UInt32) : ByteArray :=
  state.foldl (fun acc w => acc ++ wordToBytesBE w) ByteArray.empty

/-! ## The digest -/

/-- The chaining state after the last block of the padded input. -/
def finalState (input : ByteArray) : Array UInt32 :=
  let padded := pad input
  Nat.fold (padded.size / 64)
    (fun blockIdx _ st => compressBlock st (extractBlock padded blockIdx)) h0Constants

def hash (input : ByteArray) : ByteArray := packState (finalState input)

def combine (left right : ByteArray) : ByteArray := hash (left ++ right)

/-- The reference for a whole batch: pair the inputs up and combine each pair. -/
def sha256BatchCombineSpec (lefts rights : Array ByteArray) : Array ByteArray :=
  (lefts.zip rights).map fun (l, r) => combine l r

/-! ## Shape of the final state -/

theorem compressBlock_size (hIn block : Array UInt32) : (compressBlock hIn block).size = 8 := by
  simp [compressBlock]

/-- Whatever the number of blocks, the chaining state has eight words. -/
theorem finalState_size (input : ByteArray) : (finalState input).size = 8 := by
  have hfold : ∀ blocks : Nat,
      (Nat.fold blocks (fun blockIdx _ st => compressBlock st (extractBlock (pad input) blockIdx))
        h0Constants).size = 8 := by
    intro blocks
    cases blocks with
    | zero => rfl
    | succ k =>
        rw [Nat.fold_succ]
        exact compressBlock_size _ _
  exact hfold _

/-- `packState` writes the words one after another. -/
theorem packState_toList (state : Array UInt32) :
    (packState state).data.toList =
      state.toList.flatMap fun w => (wordToBytesBE w).data.toList := by
  have happend : ∀ (words : List UInt32) (acc : ByteArray),
      (words.foldl (fun acc w => acc ++ wordToBytesBE w) acc).data.toList =
        acc.data.toList ++ words.flatMap fun w => (wordToBytesBE w).data.toList := by
    intro words
    induction words with
    | nil => simp
    | cons w rest ih =>
        intro acc
        rw [List.foldl_cons, ih, ByteArray.data_append, Array.toList_append, List.flatMap_cons,
          List.append_assoc]
  rw [packState, ← Array.foldl_toList, happend]
  rfl

/-- Eight words of four bytes each. -/
theorem length_hash (input : ByteArray) : (hash input).data.toList.length = 32 := by
  have hwords : ∀ words : List UInt32,
      (words.flatMap fun w => (wordToBytesBE w).data.toList).length = 4 * words.length := by
    intro words
    induction words with
    | nil => rfl
    | cons w rest ih =>
        rw [List.flatMap_cons, List.length_append, ih, List.length_cons]
        have hword : (wordToBytesBE w).data.toList.length = 4 := rfl
        omega
  rw [hash, packState_toList, hwords, Array.length_toList, finalState_size]

/-- A batch is hashed pair by pair. -/
theorem sha256BatchCombineSpec_eq_zipWith (lefts rights : Array ByteArray) :
    sha256BatchCombineSpec lefts rights = Array.zipWith combine lefts rights := by
  rw [sha256BatchCombineSpec, Array.zip, Array.map_zipWith]

end HazmatSha256.Spec
