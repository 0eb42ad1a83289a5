import HazmatSha256.Ssz.Codec
import HazmatSha256.Ssz.Tree
import Mathlib.Order.Bounds.Defs
import Mathlib.Data.Set.Operations
set_option autoImplicit false

/-!
# Ssz: the longest encoding

`SizzLean.Spec.MaxByteLength`: the bound that is read off a shape, which is met for shapes with
a capacity everywhere, and what it says about buffers that are decoded.
-/

namespace HazmatSha256.Ssz

open Foundation SSZType

namespace SSZType

/-- Offsets have 32 bits. -/
def maxLength : Nat := 2 ^ 32

mutual

def maxByteLength : SSZType → Nat
  | .uintN n => (n + 7) / 8
  | .bool => 1
  | .vector t n =>
      if t.isFixedSize then n * t.maxByteLength
      else n * (bytesPerLengthOffset + t.maxByteLength)
  | .list t cap =>
      if t.isFixedSize then cap * t.maxByteLength
      else cap * (bytesPerLengthOffset + t.maxByteLength)
  | .bitvector n => (n + 7) / 8
  | .bitlist cap => (cap + 1 + 7) / 8
  | .container fs => maxByteLengthFields fs
  | .progressiveList _ => maxLength
  | .progressiveBitlist => maxLength
  | .progressiveContainer _ fs => maxByteLengthFields fs

def maxByteLengthFields : List SSZType → Nat
  | [] => 0
  | t :: ts =>
      let head := if t.isFixedSize then t.maxByteLength
        else bytesPerLengthOffset + t.maxByteLength
      head + maxByteLengthFields ts

end

mutual

/-- No part is of a shape that grows without a capacity. -/
def capped : SSZType → Bool
  | .vector t _ => t.capped
  | .list t _ => t.capped
  | .container fs => allCapped fs
  | .progressiveList _ => false
  | .progressiveBitlist => false
  | .progressiveContainer _ fs => allCapped fs
  | _ => true

def allCapped : List SSZType → Bool
  | [] => true
  | t :: ts => t.capped && allCapped ts

end

end SSZType

/-! ## The bound -/

theorem size_cat_le {m : Nat} : ∀ {ws : List ByteArray}, (∀ w ∈ ws, w.size ≤ m) →
    (cat ws).size ≤ ws.length * m := by
  intro ws
  induction ws with
  | nil =>
      intro _
      rw [cat_nil]
      exact Nat.zero_le _
  | cons w ws ih =>
      intro h
      have hhead := h w List.mem_cons_self
      have htail := ih fun v hv => h v (List.mem_cons_of_mem w hv)
      rw [cat_cons, ByteArray.size_append, List.length_cons, Nat.succ_mul]
      omega

theorem size_varElems (t : SSZType) (xs : List t.interp) : (varElems t xs).size =
    bytesPerLengthOffset * xs.length + (cat (xs.map (serialize t))).size := by
  rw [← gapped_empty, size_gapped, ByteArray.size_empty, Nat.add_zero]

theorem size_bitlistToBytes (bs : Array Bool) : (bitlistToBytes bs).size = (bs.size + 1 + 7) / 8 := by
  rw [bitlistToBytes, size_packBitsLE, List.length_append, Array.length_toList]
  rfl

section Elements

variable {t : SSZType} {m : Nat}

theorem size_fixedElems_le (h : ∀ x : t.interp, (serialize t x).size ≤ m) (xs : List t.interp) :
    (cat (xs.map (serialize t))).size ≤ xs.length * m := by
  have hwords : ∀ w ∈ xs.map (serialize t), w.size ≤ m := by
    intro w hw
    obtain ⟨x, -, rfl⟩ := List.mem_map.mp hw
    exact h x
  simpa using size_cat_le hwords

/-- Every element also has a place in the table. -/
theorem size_varElems_le (h : ∀ x : t.interp, (serialize t x).size ≤ m) (xs : List t.interp) :
    (varElems t xs).size ≤ xs.length * (bytesPerLengthOffset + m) := by
  have hbodies := size_fixedElems_le h xs
  rw [size_varElems, Nat.mul_add, Nat.mul_comm bytesPerLengthOffset]
  exact Nat.add_le_add_left hbodies _

end Elements

mutual

/-- No encoding is longer. -/
theorem size_serialize_le : ∀ (s : SSZType) (x : s.interp), s.capped = true →
    (serialize s x).size ≤ s.maxByteLength
  | .uintN n, x, _ => by
      rw [serialize, maxByteLength]
      exact (size_serializeUint n x).1
  | .bool, x, _ => by
      rw [serialize, maxByteLength]
      exact Nat.le_refl 1
  | .vector t n, v, hs => by
      rw [capped] at hs
      have helem := fun x => size_serialize_le t x hs
      have hlength : v.toList.length = n := by simp
      rw [serialize_vector, maxByteLength]
      split
      · simpa only [hlength] using size_fixedElems_le helem v.toList
      · simpa only [hlength] using size_varElems_le helem v.toList
  | .list t cap, xs, hs => by
      rw [capped] at hs
      have helem := fun x => size_serialize_le t x hs
      have hlength : xs.val.toList.length ≤ cap := by simpa using xs.property
      rw [serialize_list, maxByteLength]
      split
      · exact Nat.le_trans (size_fixedElems_le helem _) (Nat.mul_le_mul_right _ hlength)
      · exact Nat.le_trans (size_varElems_le helem _) (Nat.mul_le_mul_right _ hlength)
  | .bitvector n, bv, _ => by
      rw [size_serialize_bitvector, maxByteLength]
  | .bitlist cap, bs, _ => by
      have hcap := bs.property
      rw [serialize, maxByteLength, size_bitlistToBytes]
      omega
  | .container fs, vs, hs => by
      rw [capped] at hs
      rw [serialize, maxByteLength, ByteArray.size_append]
      exact size_serializeFieldsAux_le fs vs _ hs
  | .progressiveContainer active fs, vs, hs => by
      rw [capped] at hs
      rw [serialize, maxByteLength, ByteArray.size_append]
      exact size_serializeFieldsAux_le fs vs _ hs
  | .progressiveList t, _, hs => by
      rw [capped] at hs
      cases hs
  | .progressiveBitlist, _, hs => by
      rw [capped] at hs
      cases hs

theorem size_serializeFieldsAux_le : ∀ (fs : List SSZType) (vs : interpFields fs) (o : Nat),
    allCapped fs = true →
    (serializeFieldsAux fs vs o).1.size + (serializeFieldsAux fs vs o).2.size ≤
      maxByteLengthFields fs
  | [], vs, o, _ => by
      rw [serializeFieldsAux]
      exact Nat.zero_le _
  | t :: ts, vs, o, hs => by
      rw [allCapped, Bool.and_eq_true] at hs
      have hhead := size_serialize_le t vs.1 hs.1
      rw [serializeFieldsAux, maxByteLengthFields]
      dsimp only
      split
      next ht =>
        have htail := size_serializeFieldsAux_le ts vs.2 o hs.2
        dsimp only
        rw [ByteArray.size_append]
        omega
      next ht =>
        have htail := size_serializeFieldsAux_le ts vs.2 (o + (serialize t vs.1).size) hs.2
        dsimp only
        rw [ByteArray.size_append, ByteArray.size_append, size_uint32LE]
        omega

end

/-! ## The longest encodings -/

theorem nonempty_uintNInterp (n : Nat) : Nonempty (uintNInterp n) := by
  unfold uintNInterp
  split <;> exact ⟨0⟩

theorem size_cat_replicate (t : SSZType) (n : Nat) (x : t.interp) :
    (cat ((List.replicate n x).map (serialize t))).size = n * (serialize t x).size := by
  have hsizes : ∀ w ∈ (List.replicate n x).map (serialize t), w.size = (serialize t x).size := by
    intro w hw
    rw [List.map_replicate] at hw
    rw [List.eq_of_mem_replicate hw]
  rw [size_cat_of_sizes hsizes, List.length_map, List.length_replicate]

mutual

/-- Full lists of the longest elements are the longest. -/
theorem exists_size_eq : ∀ s : SSZType, s.capped = true → s.codable = true →
    ∃ x : s.interp, (serialize s x).size = s.maxByteLength
  | .uintN n, _, hs => by
      obtain ⟨x⟩ := nonempty_uintNInterp n
      refine ⟨x, ?_⟩
      rw [serialize, maxByteLength]
      exact size_serializeUint_of_isWidth hs x
  | .bool, _, _ => by
      refine ⟨false, ?_⟩
      rw [serialize, maxByteLength]
      rfl
  | .vector t n, hcap, hs => by
      rw [capped] at hcap
      rw [codable, Bool.and_eq_true] at hs
      obtain ⟨x, hx⟩ := exists_size_eq t hcap hs.2
      refine ⟨Vector.replicate n x, ?_⟩
      rw [serialize_vector, maxByteLength, Vector.toList_replicate]
      split
      · rw [size_cat_replicate, hx]
      · rw [size_varElems, size_cat_replicate, hx, List.length_replicate, Nat.mul_add,
          Nat.mul_comm]
  | .list t cap, hcap, hs => by
      rw [capped] at hcap
      rw [codable, Bool.and_eq_true] at hs
      obtain ⟨x, hx⟩ := exists_size_eq t hcap hs.1
      refine ⟨⟨Array.replicate cap x, Nat.le_of_eq Array.size_replicate⟩, ?_⟩
      rw [serialize_list, maxByteLength, Array.toList_replicate]
      split
      · rw [size_cat_replicate, hx]
      · rw [size_varElems, size_cat_replicate, hx, List.length_replicate, Nat.mul_add,
          Nat.mul_comm]
  | .bitvector n, _, _ => by
      refine ⟨(0 : BitVec n), ?_⟩
      rw [size_serialize_bitvector, maxByteLength]
  | .bitlist cap, _, _ => by
      refine ⟨⟨Array.replicate cap false, Nat.le_of_eq Array.size_replicate⟩, ?_⟩
      rw [serialize, maxByteLength, size_bitlistToBytes, Array.size_replicate]
  | .container fs, hcap, hs => by
      rw [capped] at hcap
      rw [codable] at hs
      obtain ⟨vs, hvs⟩ := exists_sizes_eq fs hcap hs
      refine ⟨vs, ?_⟩
      rw [serialize, maxByteLength, ByteArray.size_append]
      exact hvs _
  | .progressiveContainer active fs, hcap, hs => by
      rw [capped] at hcap
      rw [codable] at hs
      obtain ⟨vs, hvs⟩ := exists_sizes_eq fs hcap hs
      refine ⟨vs, ?_⟩
      rw [serialize, maxByteLength, ByteArray.size_append]
      exact hvs _
  | .progressiveList t, hcap, _ => by
      rw [capped] at hcap
      cases hcap
  | .progressiveBitlist, hcap, _ => by
      rw [capped] at hcap
      cases hcap

theorem exists_sizes_eq : ∀ fs : List SSZType, allCapped fs = true → allCodable fs = true →
    ∃ vs : interpFields fs, ∀ o, (serializeFieldsAux fs vs o).1.size +
      (serializeFieldsAux fs vs o).2.size = maxByteLengthFields fs
  | [], _, _ => by
      refine ⟨⟨⟩, fun o => ?_⟩
      rw [serializeFieldsAux, maxByteLengthFields]
      rfl
  | t :: ts, hcap, hs => by
      rw [allCapped, Bool.and_eq_true] at hcap
      rw [allCodable, Bool.and_eq_true] at hs
      obtain ⟨x, hx⟩ := exists_size_eq t hcap.1 hs.1
      obtain ⟨vs, hvs⟩ := exists_sizes_eq ts hcap.2 hs.2
      refine ⟨(x, vs), fun o => ?_⟩
      rw [serializeFieldsAux, maxByteLengthFields]
      dsimp only
      split
      · have htail := hvs o
        dsimp only
        rw [ByteArray.size_append]
        omega
      · have htail := hvs (o + (serialize t x).size)
        dsimp only
        rw [ByteArray.size_append, ByteArray.size_append, size_uint32LE]
        omega

end

/-- Over the values of a codable shape with a capacity everywhere, the bound is the length of
the longest encoding. -/
theorem maxByteLength_isGreatest {s : SSZType} (hcap : s.capped = true) (hs : s.codable = true) :
    IsGreatest (Set.range fun x : s.interp => (serialize s x).size) s.maxByteLength := by
  refine ⟨exists_size_eq s hcap hs, ?_⟩
  intro n hn
  obtain ⟨x, rfl⟩ := hn
  exact size_serialize_le s x hcap

theorem maxByteLength_isGreatest_sample :
    IsGreatest (Set.range fun x : (SSZType.container [.uintN 8, .bitlist 8]).interp =>
      (serialize (.container [.uintN 8, .bitlist 8]) x).size) 7 :=
  maxByteLength_isGreatest rfl rfl

/-! ## What is decoded -/

/-- On strict shapes the decoder takes at most so many bytes for a value, of whatever buffer; and
where the shape is codable and offsets reach as far as the bound, of some buffer it takes as
many. -/
theorem deserialize_maxByteLength {s : SSZType} (hcap : s.capped = true)
    (hstrict : s.strict = true) :
    (∀ b x n, deserialize s b = .ok (x, n) → n ≤ s.maxByteLength) ∧
      (s.codable = true → s.maxByteLength < maxLength →
        ∃ b x, deserialize s b = .ok (x, s.maxByteLength)) := by
  constructor
  · intro b x n hread
    obtain ⟨hle, -, hwire⟩ := (deserialize_decodes s b x n).mp hread
    have hsize : (b.extract 0 n).size = n := by
      rw [ByteArray.size_extract]
      omega
    rw [← hsize, serialize_of_wire s (.inr hstrict) hwire]
    exact size_serialize_le s x hcap
  · intro hs hsmall
    obtain ⟨x, hx⟩ := exists_size_eq s hcap hs
    have hwire := wire_serialize (d := .decoder) s x hs (by rwa [hx])
    have hread := deserialize_of_wire hwire fun _ => rfl
    rw [ByteArray.append_empty, hx] at hread
    exact ⟨serialize s x, x, hread⟩

theorem deserialize_maxByteLength_sample :
    (∀ b x n, deserialize (.container [.uintN 8, .bitlist 8]) b = .ok (x, n) → n ≤ 7) ∧
      (codable (.container [.uintN 8, .bitlist 8]) = true → 7 < maxLength →
        ∃ b x, deserialize (.container [.uintN 8, .bitlist 8]) b = .ok (x, 7)) :=
  deserialize_maxByteLength rfl rfl

/-- Vectors of elements of no fixed length are not strict, and for them the bound does not hold:
every value is decoded from buffers of every length between the bound and the reach of the
offsets. -/
theorem deserialize_overlong {t : SSZType} (hvar : t.isFixedSize = false) (ht : t.codable = true)
    (hcap : t.capped = true) {n : Nat} (hn : n ≠ 0) (v : Vector t.interp n) {k : Nat}
    (hlong : (SSZType.vector t n).maxByteLength < k) (hsmall : k < maxLength) :
    ∃ b : ByteArray, b.size = k ∧ deserialize (.vector t n) b = .ok (v, k) := by
  have hvalue := size_serialize_le (.vector t n) v (by rwa [capped])
  rw [serialize_vector, if_neg (by simp [hvar])] at hvalue
  -- what is missing to `k` stands between the table and the first element
  obtain ⟨gap, hgap⟩ : ∃ gap : ByteArray, gap.size = k - (varElems t v.toList).size :=
    ⟨⟨Array.replicate _ 0⟩, Array.size_replicate⟩
  have hsize : (gapped t v.toList gap).size = k := by
    rw [size_varElems] at hvalue hgap
    rw [size_gapped, hgap]
    omega
  have hwire := wire_gapped hvar ht hn v (by rwa [hsize])
  have hread := deserialize_of_wire hwire fun _ => rfl
  rw [ByteArray.append_empty, hsize] at hread
  exact ⟨_, hsize, hread⟩

end HazmatSha256.Ssz
