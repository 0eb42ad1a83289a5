import HazmatSha256.Foundation.Bytes
import HazmatSha256.Ssz.Deserialize
set_option autoImplicit false

/-!
# Ssz: numbers on the wire

The readers of `Deserialize` undo the writers of `Serialize`, and they read nothing else.
-/

namespace HazmatSha256.Ssz

open Foundation Merkle

/-! ## Numbers -/

theorem pushBytesLE_eq : ∀ (k n : Nat) (acc : ByteArray),
    pushBytesLE k n acc = acc ++ leBytes k n := by
  intro k
  induction k with
  | zero =>
      intro n acc
      exact ByteArray.append_empty.symm
  | succ k ih =>
      intro n acc
      rw [pushBytesLE, ih, leBytes, ← ByteArray.append_assoc]
      congr 1
      exact ByteArray.ext (by simp)

theorem natToLEBytes_eq (k n : Nat) : natToLEBytes k n .empty = leBytes k n := by
  rw [natToLEBytes, pushBytesLE_eq, ByteArray.empty_append]

theorem uint16LE_eq (x : UInt16) : uint16LE x = leBytes 2 x.toNat := by
  rw [← natToLEBytes_eq, uint16LE, natToLEBytes]
  simp only [pushBytesLE]
  congr 2 <;> · apply UInt8.toNat_inj.mp; simp [Nat.shiftRight_eq_div_pow]

theorem uint32LE_eq (x : UInt32) : uint32LE x = leBytes 4 x.toNat := by
  rw [← natToLEBytes_eq, uint32LE, natToLEBytes]
  simp only [pushBytesLE, Nat.div_div_eq_div_mul]
  congr 4 <;> · apply UInt8.toNat_inj.mp; simp [Nat.shiftRight_eq_div_pow]

theorem uint64LE_eq (x : UInt64) : uint64LE x = leBytes 8 x.toNat := by
  rw [← natToLEBytes_eq, uint64LE, natToLEBytes]
  simp only [pushBytesLE, Nat.div_div_eq_div_mul]
  congr 8 <;> · apply UInt8.toNat_inj.mp; simp [Nat.shiftRight_eq_div_pow]

/-- The lowest byte, and the number of the bytes behind it. -/
theorem leValue_extract_succ {b : ByteArray} {off stop : Nat} (h : off < stop) (hoff : off < b.size) :
    leValue (b.extract off stop) = b[off].toNat + 256 * leValue (b.extract (off + 1) stop) := by
  have hbyte : b.extract off (off + 1) = ByteArray.empty.push b[off] :=
    ByteArray.extract_add_one (by omega)
  rw [ByteArray.extract_eq_extract_append_extract (off + 1) (by omega) h, leValue_append, hbyte,
    leValue_push]
  rfl

/-- Bits beyond those of `a` are added to it. -/
theorem or_shiftLeft {a k : Nat} (h : a < 2 ^ k) (g : Nat) : a ||| g <<< k = a + 2 ^ k * g := by
  rw [Nat.or_comm, ← Nat.shiftLeft_add_eq_or_of_lt h, Nat.shiftLeft_eq, Nat.mul_comm, Nat.add_comm]

/-- A byte that is shifted within the width loses nothing. -/
theorem shiftLeft_mod {x k w : Nat} (hx : x < 256) (hk : k + 8 ≤ w) :
    x <<< k % 2 ^ w = x <<< k := by
  apply Nat.mod_eq_of_lt
  calc x <<< k = x * 2 ^ k := Nat.shiftLeft_eq x k
    _ < 2 ^ 8 * 2 ^ k := Nat.mul_lt_mul_of_pos_right hx (by positivity)
    _ = 2 ^ (k + 8) := by rw [← Nat.pow_add, Nat.add_comm]
    _ ≤ 2 ^ w := Nat.pow_le_pow_right (by decide) hk

theorem readNatLEAux_eq (b : ByteArray) (off : Nat) : ∀ k acc : Nat, off + k ≤ b.size →
    readNatLEAux b off k acc = leValue (b.extract off (off + k)) + 256 ^ k * acc := by
  intro k
  induction k with
  | zero =>
      intro acc _
      simp [readNatLEAux]
  | succ k ih =>
      intro acc hk
      have hlast : b.extract off (off + (k + 1)) =
          b.extract off (off + k) ++ b.extract (off + k) (off + k + 1) :=
        ByteArray.extract_eq_extract_append_extract _ (by omega) (by omega)
      have hsize : (b.extract off (off + k)).size = k := by
        rw [ByteArray.size_extract]
        omega
      have hbyte : leValue (b.extract (off + k) (off + k + 1)) = b[off + k].toNat := by
        rw [leValue_extract_succ (by omega) (by omega), ByteArray.extract_same]
        rfl
      rw [readNatLEAux, dif_pos (by omega), ih _ (by omega), hlast, leValue_append, hsize, hbyte]
      ring

theorem readNatLE_eq (b : ByteArray) (off width : Nat) : readNatLE b off width =
    if off + width ≤ b.size then some (leValue (b.extract off (off + width))) else none := by
  by_cases h : off + width ≤ b.size
  · rw [readNatLE, if_neg (by omega), if_pos h, readNatLEAux_eq b off width 0 h]
    simp
  · rw [readNatLE, if_pos (by omega), if_neg h]

theorem readUInt16LE_eq (b : ByteArray) (off : Nat) : readUInt16LE b off =
    if off + 2 ≤ b.size then some (UInt16.ofNat (leValue (b.extract off (off + 2)))) else none := by
  by_cases h : off + 2 ≤ b.size
  · rw [readUInt16LE, dif_pos h, if_pos h]
    refine congrArg some (UInt16.toNat_inj.mp ?_)
    have h0 : b[off].toNat < 256 := b[off].toNat_lt
    have h1 : b[off + 1].toNat < 256 := b[off + 1].toNat_lt
    iterate 2 rw [leValue_extract_succ (by omega) (by omega)]
    rw [ByteArray.extract_same, leValue_empty]
    simp (disch := omega) only [UInt16.toNat_or, UInt16.toNat_shiftLeft, UInt8.toNat_toUInt16,
      UInt16.reduceToNat, Nat.reduceMod, shiftLeft_mod, or_shiftLeft, UInt16.toNat_ofNat']
    omega
  · rw [readUInt16LE, dif_neg h, if_neg h]

theorem readUInt32LE_eq (b : ByteArray) (off : Nat) : readUInt32LE b off =
    if off + 4 ≤ b.size then some (UInt32.ofNat (leValue (b.extract off (off + 4)))) else none := by
  by_cases h : off + 4 ≤ b.size
  · rw [readUInt32LE, dif_pos h, if_pos h]
    refine congrArg some (UInt32.toNat_inj.mp ?_)
    have h0 : b[off].toNat < 256 := b[off].toNat_lt
    have h1 : b[off + 1].toNat < 256 := b[off + 1].toNat_lt
    have h2 : b[off + 2].toNat < 256 := b[off + 2].toNat_lt
    have h3 : b[off + 3].toNat < 256 := b[off + 3].toNat_lt
    iterate 4 rw [leValue_extract_succ (by omega) (by omega)]
    rw [ByteArray.extract_same, leValue_empty]
    simp (disch := omega) only [UInt32.toNat_or, UInt32.toNat_shiftLeft, UInt8.toNat_toUInt32,
      UInt32.reduceToNat, Nat.reduceMod, shiftLeft_mod, or_shiftLeft, UInt32.toNat_ofNat',
      Nat.add_assoc, Nat.reduceAdd]
    omega
  · rw [readUInt32LE, dif_neg h, if_neg h]

theorem readUInt64LE_eq (b : ByteArray) (off : Nat) : readUInt64LE b off =
    if off + 8 ≤ b.size then some (UInt64.ofNat (leValue (b.extract off (off + 8)))) else none := by
  by_cases h : off + 8 ≤ b.size
  · rw [readUInt64LE, dif_pos h, if_pos h]
    refine congrArg some (UInt64.toNat_inj.mp ?_)
    have h0 : b[off].toNat < 256 := b[off].toNat_lt
    have h1 : b[off + 1].toNat < 256 := b[off + 1].toNat_lt
    have h2 : b[off + 2].toNat < 256 := b[off + 2].toNat_lt
    have h3 : b[off + 3].toNat < 256 := b[off + 3].toNat_lt
    have h4 : b[off + 4].toNat < 256 := b[off + 4].toNat_lt
    have h5 : b[off + 5].toNat < 256 := b[off + 5].toNat_lt
    have h6 : b[off + 6].toNat < 256 := b[off + 6].toNat_lt
    have h7 : b[off + 7].toNat < 256 := b[off + 7].toNat_lt
    iterate 8 rw [leValue_extract_succ (by omega) (by omega)]
    rw [ByteArray.extract_same, leValue_empty]
    simp (disch := omega) only [UInt64.toNat_or, UInt64.toNat_shiftLeft, UInt8.toNat_toUInt64,
      UInt64.reduceToNat, Nat.reduceMod, shiftLeft_mod, or_shiftLeft, UInt64.toNat_ofNat',
      Nat.add_assoc, Nat.reduceAdd, Nat.add_zero]
    omega
  · rw [readUInt64LE, dif_neg h, if_neg h]

/-- A reader that answers the number in the next bytes reads what a writer of it wrote. -/
theorem some_ofNat_leValue_iff {α : Type} {ofNat : Nat → α} {toNat : α → Nat} {w : Nat}
    (hlt : ∀ x, toNat x < 256 ^ w) (hof : ∀ x, ofNat (toNat x) = x)
    (hto : ∀ n, n < 256 ^ w → toNat (ofNat n) = n) {b : ByteArray} {off : Nat} {x : α} :
    (if off + w ≤ b.size then some (ofNat (leValue (b.extract off (off + w)))) else none) = some x ↔
      off + w ≤ b.size ∧ b.extract off (off + w) = leBytes w (toNat x) := by
  by_cases h : off + w ≤ b.size
  · have hsize : (b.extract off (off + w)).size = w := by
      rw [ByteArray.size_extract]
      omega
    rw [if_pos h, Option.some.injEq, eq_leBytes_iff (hlt x)]
    constructor
    · rintro rfl
      refine ⟨h, hsize, (hto _ ?_).symm⟩
      have := leValue_lt (b.extract off (off + w))
      rwa [hsize] at this
    · rintro ⟨-, -, hvalue⟩
      rw [hvalue, hof]
  · rw [if_neg h]
    constructor
    · intro hnone
      cases hnone
    · rintro ⟨hle, -⟩
      exact absurd hle h

theorem readUInt8At_iff {b : ByteArray} {x : UInt8} :
    readUInt8At b 0 = some x ↔ 1 ≤ b.size ∧ b.extract 0 1 = ByteArray.empty.push x := by
  by_cases h : 0 < b.size
  · have hbyte : b.extract 0 1 = ByteArray.empty.push b[0] := ByteArray.extract_add_one (by omega)
    rw [readUInt8At, dif_pos h, Option.some.injEq, hbyte]
    constructor
    · rintro rfl
      exact ⟨h, rfl⟩
    · rintro ⟨-, heq⟩
      have := congrArg leValue heq
      rw [leValue_push, leValue_push] at this
      exact UInt8.toNat_inj.mp this
  · rw [readUInt8At, dif_neg h]
    constructor
    · intro hnone
      cases hnone
    · rintro ⟨hle, -⟩
      exact absurd hle h

theorem readUInt16LE_iff {b : ByteArray} {off : Nat} {x : UInt16} :
    readUInt16LE b off = some x ↔ off + 2 ≤ b.size ∧ b.extract off (off + 2) = uint16LE x := by
  rw [readUInt16LE_eq, uint16LE_eq]
  exact some_ofNat_leValue_iff UInt16.toNat_lt (fun x => UInt16.ofNat_toNat)
    fun n hn => UInt16.toNat_ofNat_of_lt' hn

theorem readUInt32LE_iff {b : ByteArray} {off : Nat} {x : UInt32} :
    readUInt32LE b off = some x ↔ off + 4 ≤ b.size ∧ b.extract off (off + 4) = uint32LE x := by
  rw [readUInt32LE_eq, uint32LE_eq]
  exact some_ofNat_leValue_iff UInt32.toNat_lt (fun x => UInt32.ofNat_toNat)
    fun n hn => UInt32.toNat_ofNat_of_lt' hn

theorem readUInt64LE_iff {b : ByteArray} {off : Nat} {x : UInt64} :
    readUInt64LE b off = some x ↔ off + 8 ≤ b.size ∧ b.extract off (off + 8) = uint64LE x := by
  rw [readUInt64LE_eq, uint64LE_eq]
  exact some_ofNat_leValue_iff UInt64.toNat_lt (fun x => UInt64.ofNat_toNat)
    fun n hn => UInt64.toNat_ofNat_of_lt' hn

/-- The two wide widths go through numbers of any size. -/
theorem readNatLE_iff {w : Nat} {b : ByteArray} {off : Nat} {x : BitVec (8 * w)} :
    (readNatLE b off w).map (BitVec.ofNat (8 * w)) = some x ↔
      off + w ≤ b.size ∧ b.extract off (off + w) = natToLEBytes w x.toNat .empty := by
  have hpow : 256 ^ w = 2 ^ (8 * w) := by rw [Nat.pow_mul]
  rw [readNatLE_eq, natToLEBytes_eq]
  have hmap : ∀ v : Nat, (if off + w ≤ b.size then some v else none).map (BitVec.ofNat (8 * w)) =
      if off + w ≤ b.size then some (BitVec.ofNat (8 * w) v) else none := by
    intro v
    split <;> rfl
  rw [hmap]
  refine some_ofNat_leValue_iff (fun x => ?_) (fun x => ?_) fun n hn => ?_
  · rw [hpow]
    exact x.isLt
  · rw [BitVec.ofNat_toNat, BitVec.setWidth_eq]
  · rw [hpow] at hn
    rw [BitVec.toNat_ofNat, Nat.mod_eq_of_lt hn]

/-- The widths that the encoder and the decoder both know. -/
def isWidth (n : Nat) : Bool :=
  n = 8 || n = 16 || n = 32 || n = 64 || n = 128 || n = 256

theorem isWidth_iff {n : Nat} :
    isWidth n = true ↔ n = 8 ∨ n = 16 ∨ n = 32 ∨ n = 64 ∨ n = 128 ∨ n = 256 := by
  simp [isWidth, or_assoc]

theorem size_serializeUint_of_isWidth {n : Nat} (hn : isWidth n = true)
    (x : SSZType.uintNInterp n) : (serializeUint n x).size = (n + 7) / 8 := by
  rcases isWidth_iff.mp hn with rfl | rfl | rfl | rfl | rfl | rfl
  · rfl
  · rw [serializeUint, uint16LE_eq, size_leBytes]
  · rw [serializeUint, uint32LE_eq, size_leBytes]
  · rw [serializeUint, uint64LE_eq, size_leBytes]
  · rw [serializeUint, natToLEBytes_eq, size_leBytes]
  · rw [serializeUint, natToLEBytes_eq, size_leBytes]

/-- The first bytes are a word, or so many of them are as the word is long. -/
theorem first_word_iff {b word : ByteArray} {w k : Nat} (hsize : word.size = w) :
    (0 + w ≤ b.size ∧ b.extract 0 (0 + w) = word) ∧ k = w ↔ k ≤ b.size ∧ b.extract 0 k = word := by
  rw [Nat.zero_add]
  constructor
  · rintro ⟨⟨hle, heq⟩, rfl⟩
    exact ⟨hle, heq⟩
  · rintro ⟨hle, heq⟩
    have hk : k = w := by
      have := congrArg ByteArray.size heq
      rw [hsize, ByteArray.size_extract] at this
      omega
    subst hk
    exact ⟨⟨hle, heq⟩, rfl⟩

/-- An arm that answers what a reader of `w` bytes reads, or that some of them miss. -/
theorem ok_iff_of_read {α : Type} {read : Option α} {write : α → ByteArray} {w : Nat}
    {b : ByteArray} {d : Except SSZError (α × Nat)}
    (hread : ∀ x, read = some x ↔ 0 + w ≤ b.size ∧ b.extract 0 (0 + w) = write x)
    (hsome : ∀ x, read = some x → d = .ok (x, w)) (hnone : read = none → d = .error .tooShort)
    (hsize : ∀ x, (write x).size = w) {x : α} {k : Nat} :
    d = .ok (x, k) ↔ k ≤ b.size ∧ b.extract 0 k = write x := by
  have hok : d = .ok (x, k) ↔ read = some x ∧ k = w := by
    cases h : read with
    | none => simp [hnone h]
    | some y => simp [hsome y h, eq_comm]
  rw [hok, hread]
  exact first_word_iff (hsize x)

/-- A number is read from exactly the bytes that it is written to. -/
theorem deserializeUint_iff {n : Nat} {b : ByteArray} {x : SSZType.uintNInterp n} {k : Nat} :
    deserializeUint n b = .ok (x, k) ↔
      isWidth n = true ∧ k ≤ b.size ∧ b.extract 0 k = serializeUint n x := by
  by_cases hn : isWidth n = true
  · rw [and_iff_right hn]
    have hsize := size_serializeUint_of_isWidth hn
    rcases isWidth_iff.mp hn with rfl | rfl | rfl | rfl | rfl | rfl
    · exact ok_iff_of_read (fun x => readUInt8At_iff) (fun x h => by rw [deserializeUint, h])
        (fun h => by rw [deserializeUint, h]) hsize
    · exact ok_iff_of_read (fun x => readUInt16LE_iff) (fun x h => by rw [deserializeUint, h])
        (fun h => by rw [deserializeUint, h]) hsize
    · exact ok_iff_of_read (fun x => readUInt32LE_iff) (fun x h => by rw [deserializeUint, h])
        (fun h => by rw [deserializeUint, h]) hsize
    · exact ok_iff_of_read (fun x => readUInt64LE_iff) (fun x h => by rw [deserializeUint, h])
        (fun h => by rw [deserializeUint, h]) hsize
    · refine ok_iff_of_read (fun x => readNatLE_iff (w := 16)) (fun x h => ?_) (fun h => ?_) hsize
      · obtain ⟨v, hv, rfl⟩ := Option.map_eq_some_iff.mp h
        rw [deserializeUint, hv]
      · rw [deserializeUint, Option.map_eq_none_iff.mp h]
    · refine ok_iff_of_read (fun x => readNatLE_iff (w := 32)) (fun x h => ?_) (fun h => ?_) hsize
      · obtain ⟨v, hv, rfl⟩ := Option.map_eq_some_iff.mp h
        rw [deserializeUint, hv]
      · rw [deserializeUint, Option.map_eq_none_iff.mp h]
  · unfold deserializeUint
    split <;> simp_all [isWidth]

theorem deserializeBool_iff {b : ByteArray} {x : Bool} {k : Nat} :
    deserializeBool b = .ok (x, k) ↔
      k ≤ b.size ∧ b.extract 0 k = ByteArray.empty.push (if x then 1 else 0) := by
  have hok : deserializeBool b = .ok (x, k) ↔
      readUInt8At b 0 = some (if x then 1 else 0) ∧ k = 1 := by
    unfold deserializeBool
    split
    case h_1 h => cases x <;> simp [h, eq_comm (a := k)]
    case h_2 h => cases x <;> simp [h, eq_comm (a := k)]
    case h_3 v h0 h1 h => cases x <;> simp [h] <;> tauto
    case h_4 h => simp [h]
  rw [hok, readUInt8At_iff]
  exact first_word_iff (w := 1) rfl

end HazmatSha256.Ssz
