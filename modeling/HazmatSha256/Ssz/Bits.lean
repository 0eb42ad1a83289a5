import HazmatSha256.Ssz.Number
import Mathlib.Data.List.GetD
set_option autoImplicit false

/-!
# Ssz: bits on the wire

A bit vector and a bit list are read from exactly the bytes that they are written to: the
spare bits of the last byte are clear, and a bit list ends where its highest bit says.
-/

namespace HazmatSha256.Ssz

open Foundation

/-! ## Bytes and their bits -/

/-- The bits of a byte string, of each byte the lowest first. -/
def bits (b : ByteArray) : List Bool := b.data.toList.flatMap byteToBits

@[simp] theorem length_byteToBits (x : UInt8) : (byteToBits x).length = 8 := rfl

@[simp] theorem bits_empty : bits .empty = [] := rfl

theorem bits_push (x : UInt8) : bits (ByteArray.empty.push x) = byteToBits x := by
  simp [bits]

theorem bits_append (a b : ByteArray) : bits (a ++ b) = bits a ++ bits b := by
  rw [bits, ByteArray.toList_data_append, List.flatMap_append]
  rfl

@[simp] theorem length_bits (b : ByteArray) : (bits b).length = 8 * b.size := by
  rw [bits, List.length_flatMap]
  simp [ByteArray.size_data, Nat.mul_comm]

/-- What is checked of each of the 256 bytes. -/
theorem byte_cases {P : UInt8 → Prop} (h : ∀ i : Fin 256, P (UInt8.ofFin i)) : ∀ x, P x :=
  fun x => h x.toFin

theorem bitsToByte_byteToBits : ∀ x : UInt8, bitsToByte (byteToBits x) 0 0 = x :=
  byte_cases (by decide +kernel)

/-- Bits that are not set add nothing to a byte. -/
theorem bitsToByte_append_replicate : ∀ (bs : List Bool) (n k : Nat) (acc : UInt8),
    bitsToByte (bs ++ List.replicate n false) k acc = bitsToByte bs k acc := by
  intro bs
  induction bs with
  | nil =>
      intro n
      induction n with
      | zero =>
          intro k acc
          rfl
      | succ n ih =>
          intro k acc
          exact ih (k + 1) acc
  | cons b bs ih =>
      intro n k acc
      cases b with
      | true => exact ih n (k + 1) _
      | false => exact ih n (k + 1) acc

theorem byteToBits_eight : ∀ b0 b1 b2 b3 b4 b5 b6 b7 : Bool,
    byteToBits (bitsToByte [b0, b1, b2, b3, b4, b5, b6, b7] 0 0) =
      [b0, b1, b2, b3, b4, b5, b6, b7] := by
  decide +kernel

theorem byteToBits_bitsToByte {bs : List Bool} (h : bs.length = 8) :
    byteToBits (bitsToByte bs 0 0) = bs := by
  match bs, h with
  | [b0, b1, b2, b3, b4, b5, b6, b7], _ => exact byteToBits_eight b0 b1 b2 b3 b4 b5 b6 b7

/-- The bits of two strings differ when the strings do. -/
theorem eq_of_bits_eq : ∀ {a b : ByteArray}, bits a = bits b → a = b := by
  have hlist : ∀ xs ys : List UInt8, xs.flatMap byteToBits = ys.flatMap byteToBits → xs = ys := by
    intro xs
    induction xs with
    | nil =>
        intro ys h
        cases ys with
        | nil => rfl
        | cons y ys =>
            have := congrArg List.length h
            simp at this
            omega
    | cons x xs ih =>
        intro ys h
        cases ys with
        | nil =>
            have := congrArg List.length h
            simp at this
        | cons y ys =>
            rw [List.flatMap_cons, List.flatMap_cons] at h
            obtain ⟨hbyte, hrest⟩ := List.append_inj h rfl
            have hxy : x = y := by
              rw [← bitsToByte_byteToBits x, hbyte, bitsToByte_byteToBits]
            rw [hxy, ih ys hrest]
  intro a b h
  exact ByteArray.ext (Array.toList_inj.mp (hlist _ _ h))

/-! ## Packing -/

/-- How many bits are missing in the last byte of `n` bits. -/
def spare (n : Nat) : Nat := (n + 7) / 8 * 8 - n

theorem spare_lt (n : Nat) : spare n < 8 := by
  unfold spare
  omega

theorem packBitsLE_short {bs : List Bool} (h0 : bs ≠ []) (h : bs.length < 8) :
    packBitsLE bs = ByteArray.empty.push (bitsToByte bs 0 0) := by
  match bs with
  | [] => exact absurd rfl h0
  | [_] | [_, _] | [_, _, _] | [_, _, _, _] | [_, _, _, _, _] | [_, _, _, _, _, _]
  | [_, _, _, _, _, _, _] => rfl
  | _ :: _ :: _ :: _ :: _ :: _ :: _ :: _ :: _ => simp at h; omega

theorem packBitsLE_long {bs : List Bool} (h : 8 ≤ bs.length) : packBitsLE bs =
    ByteArray.empty.push (bitsToByte (bs.take 8) 0 0) ++ packBitsLE (bs.drop 8) := by
  match bs, h with
  | _ :: _ :: _ :: _ :: _ :: _ :: _ :: _ :: _, _ => rfl

/-- Packed bits are read back, followed by those that are spare. -/
theorem bits_packBitsLE (bs : List Bool) :
    bits (packBitsLE bs) = bs ++ List.replicate (spare bs.length) false := by
  by_cases hlong : 8 ≤ bs.length
  · have hspare : spare (bs.drop 8).length = spare bs.length := by
      rw [List.length_drop, spare, spare]
      omega
    rw [packBitsLE_long hlong, bits_append, bits_push,
      byteToBits_bitsToByte (by rw [List.length_take]; omega), bits_packBitsLE (bs.drop 8), hspare,
      ← List.append_assoc, List.take_append_drop]
  · by_cases hnil : bs = []
    · rw [hnil]
      rfl
    · have hpos : 0 < bs.length := List.length_pos_iff.mpr hnil
      have hspare : bs.length + spare bs.length = 8 := by
        unfold spare
        omega
      rw [packBitsLE_short hnil (by omega), bits_push,
        ← bitsToByte_append_replicate bs (spare bs.length) 0 0]
      exact byteToBits_bitsToByte (by rw [List.length_append, List.length_replicate, hspare])
termination_by bs.length
decreasing_by
  rw [List.length_drop]
  omega

/-- A string packs the bits that it holds up to the spare ones of its last byte. -/
theorem eq_packBitsLE_iff {b : ByteArray} {bs : List Bool} :
    b = packBitsLE bs ↔ ∃ k < 8, bits b = bs ++ List.replicate k false := by
  constructor
  · rintro rfl
    exact ⟨spare bs.length, spare_lt _, bits_packBitsLE bs⟩
  · rintro ⟨k, hk, hbits⟩
    have hlen := congrArg List.length hbits
    rw [length_bits, List.length_append, List.length_replicate] at hlen
    have hspare : k = spare bs.length := by
      unfold spare
      omega
    apply eq_of_bits_eq
    rw [bits_packBitsLE, hbits, hspare]

/-! ## Reading -/

theorem get!_eq {b : ByteArray} {i : Nat} (h : i < b.size) : b.get! i = b[i] :=
  getElem!_pos b.data i h

theorem unpackBitsLEAux_eq (b : ByteArray) : ∀ k off : Nat, off + k ≤ b.size →
    unpackBitsLEAux b k off = bits (b.extract off (off + k)) := by
  intro k
  induction k with
  | zero =>
      intro off _
      simp [unpackBitsLEAux]
  | succ k ih =>
      intro off h
      have hoff : off < b.size := by omega
      have hbyte : b.extract off (off + 1) = ByteArray.empty.push b[off] :=
        ByteArray.extract_add_one (by omega)
      rw [unpackBitsLEAux, ih (off + 1) (by omega), get!_eq hoff,
        ByteArray.extract_eq_extract_append_extract (i := off) (off + 1) (by omega) (by omega),
        bits_append, hbyte, bits_push]
      congr 3
      omega

theorem unpackBitsLEAux_all (b : ByteArray) : unpackBitsLEAux b b.size 0 = bits b := by
  rw [unpackBitsLEAux_eq b _ _ (by omega), Nat.zero_add, ByteArray.extract_zero_size]

/-- The bits of the last byte stand behind all others. -/
theorem bits_eq_last {b : ByteArray} (h : 0 < b.size) : bits b =
    bits (b.extract 0 (b.size - 1)) ++ byteToBits (b.get! (b.size - 1)) := by
  have hlast : b.size - 1 < b.size := by omega
  have hbyte : b.extract (b.size - 1) (b.size - 1 + 1) = ByteArray.empty.push b[b.size - 1] :=
    ByteArray.extract_add_one (by omega)
  rw [get!_eq hlast, ← bits_push, ← hbyte, ← bits_append, Nat.sub_add_cancel h,
    ByteArray.extract_append_extract, Nat.zero_min, Nat.max_eq_right (by omega),
    ByteArray.extract_zero_size]

theorem drop_bits {b : ByteArray} (h : 0 < b.size) (p : Nat) :
    (bits b).drop (8 * (b.size - 1) + p) = (byteToBits (b.get! (b.size - 1))).drop p := by
  have hsize : (b.extract 0 (b.size - 1)).size = b.size - 1 := by
    rw [ByteArray.size_extract]
    omega
  rw [bits_eq_last h, List.drop_append, List.drop_eq_nil_of_le, length_bits, hsize,
    Nat.add_sub_cancel_left, List.nil_append]
  rw [length_bits, hsize]
  omega

/-- The test of the spare bits of the last byte. -/
theorem spareMask_iff : ∀ (x : UInt8) (u : Fin 8),
    (x >>> Nat.toUInt8 (8 - u.val)) &&& ((1 <<< Nat.toUInt8 u.val) - 1) = 0 ↔ u.val = 0 ∨
      (byteToBits x).drop (8 - u.val) = List.replicate u.val false :=
  byte_cases (by decide +kernel)

theorem msbPos_iff : ∀ (x : UInt8) (p : Fin 8), msbPos x = some p.val ↔
    (byteToBits x).drop p.val = true :: List.replicate (7 - p.val) false :=
  byte_cases (by decide +kernel)

theorem msbPos_lt : ∀ x : UInt8, ∀ p ∈ msbPos x, p < 8 :=
  byte_cases (by decide +kernel)

/-! ## Bit vectors -/

theorem testBit_bitsToNat : ∀ (bs : List Bool) (i : Nat),
    (bitsToNat bs).testBit i = bs.getD i false := by
  intro bs
  induction bs with
  | nil =>
      intro i
      simp [bitsToNat]
  | cons b bs ih =>
      intro i
      cases i with
      | zero => cases b <;> simp [bitsToNat, Nat.testBit_zero]
      | succ i =>
          have hhalf : bitsToNat (b :: bs) / 2 = bitsToNat bs := by
            rw [bitsToNat]
            split <;> omega
          rw [Nat.testBit_succ, hhalf, ih, List.getD_cons_succ]

/-- A bit vector is made of the bits that it holds. -/
theorem ofNat_bitsToNat_iff {n : Nat} {bs : List Bool} (h : bs.length = n) {bv : BitVec n} :
    BitVec.ofNat n (bitsToNat bs) = bv ↔ bs = (List.range n).map fun i => bv.getLsbD i := by
  have hbit : ∀ i, i < n → (BitVec.ofNat n (bitsToNat bs)).getLsbD i = bs.getD i false := by
    intro i hi
    rw [BitVec.getLsbD_ofNat, testBit_bitsToNat]
    simp [hi]
  constructor
  · rintro rfl
    refine List.ext_getElem (by simp [h]) fun i h1 h2 => ?_
    rw [List.getElem_map, List.getElem_range, hbit i (h ▸ h1), List.getD_eq_getElem _ _ h1]
  · intro hbs
    apply BitVec.eq_of_getLsbD_eq
    intro i hi
    rw [hbit i hi, hbs, List.getD_eq_getElem _ _ (by simpa using hi)]
    simp

/-- The bytes of a bit vector: enough of them, its bits, and none beyond. -/
theorem eq_bitvecToBytes_iff {n : Nat} {b : ByteArray} {bv : BitVec n} :
    b = bitvecToBytes n bv ↔ b.size = (n + 7) / 8 ∧
      (bits b).drop n = List.replicate (spare n) false ∧
      BitVec.ofNat n (bitsToNat ((bits b).take n)) = bv := by
  have hlen : ((List.range n).map fun i => bv.getLsbD i).length = n := by simp
  rw [bitvecToBytes, eq_packBitsLE_iff]
  constructor
  · rintro ⟨k, hk, hbits⟩
    have hsize := congrArg List.length hbits
    rw [length_bits, List.length_append, hlen, List.length_replicate] at hsize
    have hspare : k = spare n := by
      unfold spare
      omega
    have htake : (bits b).take n = (List.range n).map fun i => bv.getLsbD i := by
      rw [hbits, List.take_left' hlen]
    refine ⟨by omega, ?_, (ofNat_bitsToNat_iff (by rw [htake, hlen])).mpr htake⟩
    rw [hbits, List.drop_left' hlen, hspare]
  · rintro ⟨hsize, hdrop, hvalue⟩
    have htake : ((bits b).take n).length = n := by
      rw [List.length_take, length_bits]
      omega
    refine ⟨spare n, spare_lt n, ?_⟩
    rw [← (ofNat_bitsToNat_iff htake).mp hvalue, ← hdrop, List.take_append_drop]

/-- The decoder looks for spare bits that are set in the last byte. -/
theorem spare_clear_iff {n : Nat} {b : ByteArray} (hsize : b.size = (n + 7) / 8) :
    (bits b).drop n = List.replicate (spare n) false ↔ spare n = 0 ∨
      (b.get! (b.size - 1) >>> Nat.toUInt8 (8 - spare n)) &&&
        ((1 <<< Nat.toUInt8 (spare n)) - 1) = 0 := by
  have hlt := spare_lt n
  by_cases hzero : spare n = 0
  · have hdrop : (bits b).drop n = [] := by
      apply List.drop_eq_nil_of_le
      rw [length_bits, hsize]
      unfold spare at hzero
      omega
    simp [hzero, hdrop]
  · have hplace : n = 8 * (b.size - 1) + (8 - spare n) := by
      rw [hsize]
      unfold spare
      unfold spare at hzero
      omega
    have hmask := spareMask_iff (b.get! (b.size - 1)) ⟨spare n, hlt⟩
    rw [or_iff_right hzero, hmask, or_iff_right hzero, ← drop_bits (by omega), ← hplace]

theorem ok_pair_iff {α : Type} {x y : α} {k m : Nat} :
    (.ok (y, m) : Except SSZError (α × Nat)) = .ok (x, k) ↔ k = m ∧ y = x := by
  simp [eq_comm, and_comm]

/-- A bit vector is read from exactly the bytes that it is written to. -/
theorem deserializeBitvector_iff {n : Nat} {b : ByteArray} {bv : BitVec n} {k : Nat} :
    deserializeBitvector n b = .ok (bv, k) ↔ n ≠ 0 ∧ k = b.size ∧ b = bitvecToBytes n bv := by
  unfold deserializeBitvector
  dsimp only
  split
  · simp_all
  next hn =>
    rw [and_iff_right hn, eq_bitvecToBytes_iff]
    split
    next hsize =>
      have hunused : (n + 7) / 8 * 8 - n = spare n := rfl
      rw [spare_clear_iff hsize, ← hsize, unpackBitsLEAux_all, hsize, hunused, ← hsize]
      split
      next hpos =>
        rw [or_iff_right (Nat.ne_of_gt hpos)]
        split
        next hset => simp [hset]
        next hclear =>
          rw [ok_pair_iff]
          exact and_congr_right fun _ =>
            ((and_iff_right rfl).trans (and_iff_right (not_not.mp hclear))).symm
      next hzero =>
        rw [ok_pair_iff]
        exact and_congr_right fun _ =>
          ((and_iff_right rfl).trans (and_iff_right (.inl (Nat.eq_zero_of_not_pos hzero)))).symm
    next hsize =>
      split <;> simp [hsize]

/-! ## Bit lists -/

/-- The end of a bit list is found where it was marked. -/
theorem msbPos_last_iff {b : ByteArray} (h : 0 < b.size) {bs : List Bool} :
    (∃ pos, msbPos (b.get! (b.size - 1)) = some pos ∧
      bs = (unpackBitsLEAux b b.size 0).take ((b.size - 1) * 8 + pos)) ↔
    b = packBitsLE (bs ++ [true]) := by
  rw [unpackBitsLEAux_all, eq_packBitsLE_iff]
  constructor
  · rintro ⟨pos, hpos, rfl⟩
    have hlt := msbPos_lt _ _ hpos
    have hdrop := (msbPos_iff _ ⟨pos, hlt⟩).mp hpos
    rw [← drop_bits h, Nat.mul_comm] at hdrop
    refine ⟨7 - pos, by omega, ?_⟩
    rw [List.append_assoc, List.singleton_append, ← hdrop, List.take_append_drop]
  · rintro ⟨k, hk, hbits⟩
    have hlen := congrArg List.length hbits
    simp only [length_bits, List.length_append, List.length_replicate, List.length_singleton] at hlen
    have hplace : bs.length = 8 * (b.size - 1) + (7 - k) := by omega
    refine ⟨7 - k, (msbPos_iff _ ⟨7 - k, by omega⟩).mpr ?_, ?_⟩
    · have hback : 7 - (7 - k) = k := by omega
      rw [← drop_bits h, ← hplace, hbits, List.append_assoc, List.drop_left, hback]
      rfl
    · rw [Nat.mul_comm, ← hplace, hbits, List.append_assoc, List.take_left]

theorem toArray_eq_iff {α : Type} {xs : List α} {ys : Array α} :
    xs.toArray = ys ↔ ys.toList = xs := by
  constructor
  · rintro rfl
    rfl
  · rintro rfl
    rfl

/-- No string without a byte is that of a bit list. -/
theorem ne_packBitsLE_of_empty {b : ByteArray} (h : b.size = 0) (bs : List Bool) :
    b ≠ packBitsLE (bs ++ [true]) := by
  intro heq
  obtain ⟨k, -, hbits⟩ := eq_packBitsLE_iff.mp heq
  have hlen := congrArg List.length hbits
  simp only [length_bits, List.length_append, List.length_singleton] at hlen
  omega

theorem deserializeBitlist_iff {cap : Nat} {b : ByteArray}
    {bs : { bs : Array Bool // bs.size ≤ cap }} {k : Nat} :
    deserializeBitlist cap b = .ok (bs, k) ↔ k = b.size ∧ b = bitlistToBytes bs.val := by
  unfold deserializeBitlist
  dsimp only
  split
  next h => simp [bitlistToBytes, ne_packBitsLE_of_empty h]
  next h =>
    rw [bitlistToBytes, ← msbPos_last_iff (by omega)]
    split
    next hnone => simp [hnone]
    next pos hpos =>
      simp only [hpos, Option.some.injEq, exists_eq_left', unpackBitsLEAux_all]
      have hlen : ((bits b).take ((b.size - 1) * 8 + pos)).length = (b.size - 1) * 8 + pos := by
        have := msbPos_lt _ pos hpos
        rw [List.length_take, length_bits]
        omega
      have hsize := bs.property
      rw [← Array.length_toList] at hsize
      split
      next hover =>
        refine iff_of_false (by simp) ?_
        rintro ⟨-, heq⟩
        rw [heq, hlen] at hsize
        omega
      next hunder =>
        rw [dif_pos (by rw [List.size_toArray, hlen]; omega), ok_pair_iff, Subtype.ext_iff,
          toArray_eq_iff]

theorem deserializeProgressiveBitlist_iff {b : ByteArray} {bs : Array Bool} {k : Nat} :
    deserializeProgressiveBitlist b = .ok (bs, k) ↔ k = b.size ∧ b = bitlistToBytes bs := by
  unfold deserializeProgressiveBitlist
  dsimp only
  split
  next h => simp [bitlistToBytes, ne_packBitsLE_of_empty h]
  next h =>
    rw [bitlistToBytes, ← msbPos_last_iff (by omega)]
    split
    next hnone => simp [hnone]
    next pos hpos =>
      simp only [hpos, Option.some.injEq, exists_eq_left', unpackBitsLEAux_all, ok_pair_iff,
        toArray_eq_iff]

end HazmatSha256.Ssz
