import HazmatSha256.Foundation.Opening
import HazmatSha256.Ssz.Codec
import HazmatSha256.Ssz.Tree
set_option autoImplicit false

/-!
# Ssz: the leaves of a tree

Where they stand, and what they say: the chunks of a body of known size determine the body,
and the chunk of a number, of a truth value or of a length determines it.
-/

namespace HazmatSha256.Ssz

open Foundation Shape Merkle SSZType

/-! ## Rows -/

theorem sub_row {subs : List (Shape ByteArray)} {d k : Nat} (hk : k < 2 ^ d) (p : List Bool) :
    (perfect subs d).sub (steps d k ++ p) = (padded subs (leaf zero32) k).sub p := by
  rw [sub_append, perfect, sub_node, Nat.mul_zero, Nat.zero_add, Nat.mod_eq_of_lt hk,
    Option.bind_some]

theorem sub_row_of_getElem? {subs : List (Shape ByteArray)} {d k : Nat} {t : Shape ByteArray}
    (hk : k < 2 ^ d) (ht : subs[k]? = some t) (p : List Bool) :
    (perfect subs d).sub (steps d k ++ p) = t.sub p := by
  rw [sub_row hk, padded, List.getD_eq_getElem?_getD, ht, Option.getD_some]

/-- The values next to the way to a place of a row are chunks. -/
theorem size_siblings_row {subs : List (Shape ByteArray)}
    (h : ∀ t ∈ subs, (root t).size = bytesPerChunk) (d k : Nat) :
    ∀ b ∈ (perfect subs d).siblings Spec.combine (steps d k), b.size = bytesPerChunk := by
  refine siblings_node (fun e i => ?_) d 0 k
  have hroots : (fun k => (padded subs (leaf zero32) k).value Spec.combine) =
      padded (subs.map root) zero32 := funext (padded_map root subs (leaf zero32))
  rw [hroots]
  refine size_node (size_padded (fun b hb => ?_) size_zero32) e i
  obtain ⟨t, ht, rfl⟩ := List.mem_map.mp hb
  exact h t ht

/-! ## Chunks -/

theorem pushZeros_eq : ∀ (k : Nat) (acc : ByteArray), pushZeros k acc = acc ++ pushZeros k .empty := by
  intro k
  induction k with
  | zero =>
      intro acc
      exact ByteArray.append_empty.symm
  | succ k ih =>
      intro acc
      rw [pushZeros, pushZeros, ih, ih (ByteArray.empty.push 0), ← ByteArray.append_assoc]
      congr 1
      exact ByteArray.ext (by simp)

theorem padToChunk_inj {a b : ByteArray} (hsize : a.size = b.size)
    (h : padToChunk a = padToChunk b) : a = b := by
  unfold padToChunk at h
  rw [hsize] at h
  split at h
  · exact h
  · rw [pushZeros_eq _ a, pushZeros_eq _ b] at h
    exact ByteArray.append_inj_left h hsize

/-- Bodies of one size with the same chunks are the same. -/
theorem chunkify_inj {a b : ByteArray} (hsize : a.size = b.size)
    (h : chunkify a = chunkify b) : a = b := by
  rw [chunkify_eq, chunkify_eq, ← hsize, List.map_inj_left] at h
  refine ByteArray.ext_getElem hsize fun i hi hi' => ?_
  -- byte `i` is byte `i % 32` of its chunk
  have hchunk : i / bytesPerChunk ∈ List.range (bytesToChunkCount a.size) := by
    rw [List.mem_range]
    simp only [bytesToChunkCount, bytesPerChunk]
    omega
  have hraw := padToChunk_inj (by simp only [ByteArray.size_extract, hsize]) (h _ hchunk)
  have hbyte : ∀ {body : ByteArray} (hc : i < body.size)
      (hplace : i % bytesPerChunk < (body.extract (i / bytesPerChunk * bytesPerChunk)
        (i / bytesPerChunk * bytesPerChunk + bytesPerChunk)).size),
      (body.extract (i / bytesPerChunk * bytesPerChunk)
        (i / bytesPerChunk * bytesPerChunk + bytesPerChunk))[i % bytesPerChunk] = body[i] := by
    intro body hc hplace
    rw [ByteArray.getElem_extract]
    congr 1
    exact Nat.div_add_mod' i bytesPerChunk
  have hplace : ∀ {body : ByteArray}, i < body.size → i % bytesPerChunk <
      (body.extract (i / bytesPerChunk * bytesPerChunk)
        (i / bytesPerChunk * bytesPerChunk + bytesPerChunk)).size := by
    intro body hc
    rw [ByteArray.size_extract]
    simp only [bytesPerChunk]
    omega
  rw [← hbyte hi (hplace hi), ← hbyte hi' (hplace hi')]
  simp only [hraw]

/-! ## Numbers -/

theorem natToChunk_inj {m n : Nat} (hm : m < 256 ^ bytesPerChunk) (hn : n < 256 ^ bytesPerChunk)
    (h : natToChunk m = natToChunk n) : m = n := by
  rw [natToChunk, natToChunk, pushBytesLE_eq, pushBytesLE_eq, ByteArray.empty_append,
    ByteArray.empty_append] at h
  rw [← leValue_leBytes_of_lt hm, h, leValue_leBytes_of_lt hn]

theorem padToChunk_natToChunk (n : Nat) : padToChunk (natToChunk n) = natToChunk n := by
  rw [padToChunk, if_pos (Nat.le_of_eq (size_natToChunk n).symm)]

theorem serializeUint_inj {n : Nat} (hn : isWidth n = true) {x y : uintNInterp n}
    (h : serializeUint n x = serializeUint n y) : x = y := by
  have hsmall : (serialize (.uintN n) x).size < 2 ^ 32 := by
    rw [serialize]
    exact Nat.lt_of_le_of_lt (size_serializeUint n x).2 (by decide)
  refine serialize_injective (s := .uintN n) (by rwa [codable]) hsmall ?_
  rwa [serialize, serialize]

theorem uintRoot_inj {n : Nat} (hn : isWidth n = true) {x y : uintNInterp n}
    (h : uintRoot n x = uintRoot n y) : x = y := by
  have hwide : ∀ {w : Nat}, w ≤ 256 → ∀ {a b : BitVec w},
      padToChunk (natToChunk a.toNat) = padToChunk (natToChunk b.toNat) → a = b := by
    intro w hw a b heq
    have hlt : ∀ c : BitVec w, c.toNat < 256 ^ bytesPerChunk := fun c =>
      Nat.lt_of_lt_of_le c.isLt (Nat.pow_le_pow_right (by decide) hw)
    rw [padToChunk_natToChunk, padToChunk_natToChunk] at heq
    exact BitVec.eq_of_toNat_eq (natToChunk_inj (hlt a) (hlt b) heq)
  rcases isWidth_iff.mp hn with rfl | rfl | rfl | rfl | rfl | rfl
  · exact serializeUint_inj hn (padToChunk_inj rfl h)
  · exact serializeUint_inj hn (padToChunk_inj rfl h)
  · exact serializeUint_inj hn (padToChunk_inj rfl h)
  · exact serializeUint_inj hn (padToChunk_inj rfl h)
  · exact hwide (by decide) h
  · exact hwide (by decide) h

theorem boolRoot_inj {a b : Bool} (h : boolRoot a = boolRoot b) : a = b := by
  have hbyte : ByteArray.empty.push (if a then 1 else 0) =
      ByteArray.empty.push (if b then 1 else 0) := padToChunk_inj rfl h
  cases a <;> cases b
  · rfl
  · exact absurd (congrArg leValue hbyte) (by decide)
  · exact absurd (congrArg leValue hbyte) (by decide)
  · rfl

/-! ## Packed elements -/

theorem serialize_inj_of_basic {t : SSZType} (hbasic : t.isBasicType = true)
    (ht : t.codable = true) {x y : t.interp} (h : serialize t x = serialize t y) : x = y := by
  refine serialize_injective ht ?_ h
  cases t with
  | uintN n =>
      rw [serialize]
      exact Nat.lt_of_le_of_lt (size_serializeUint n x).2 (by decide)
  | bool =>
      rw [serialize, ByteArray.size_push]
      decide
  | _ => cases hbasic

theorem isFixedSize_of_isBasicType {t : SSZType} (h : t.isBasicType = true) :
    t.isFixedSize = true := by
  cases t with
  | uintN n => rfl
  | bool => rfl
  | _ => cases h

theorem size_serialize_of_basic {t : SSZType} (hbasic : t.isBasicType = true)
    (ht : t.codable = true) (x : t.interp) : (serialize t x).size = t.fixedByteSize :=
  size_serialize t x ht (isFixedSize_of_isBasicType hbasic)

theorem size_serializeFixedElems_of_basic {t : SSZType} (hbasic : t.isBasicType = true)
    (ht : t.codable = true) (xs : List t.interp) :
    (serializeFixedElems t xs).size = xs.length * t.fixedByteSize := by
  induction xs with
  | nil =>
      rw [serializeFixedElems, List.length_nil, Nat.zero_mul]
      rfl
  | cons x xs ih =>
      rw [serializeFixedElems, ByteArray.size_append, size_serialize_of_basic hbasic ht, ih,
        List.length_cons, Nat.succ_mul, Nat.add_comm]

theorem storableElems_of_basic {t : SSZType} (hbasic : t.isBasicType = true)
    (xs : List t.interp) : StorableElems t xs := by
  induction xs with
  | nil =>
      rw [StorableElems]
      trivial
  | cons x xs ih =>
      rw [StorableElems]
      refine ⟨?_, ih⟩
      cases t with
      | uintN n =>
          rw [Storable]
          trivial
      | bool =>
          rw [Storable]
          trivial
      | _ => cases hbasic

/-- Rows of as many packed elements with the same bytes are the same. -/
theorem serializeFixedElems_inj {t : SSZType} (hbasic : t.isBasicType = true)
    (ht : t.codable = true) : ∀ {xs ys : List t.interp}, xs.length = ys.length →
    serializeFixedElems t xs = serializeFixedElems t ys → xs = ys := by
  intro xs
  induction xs with
  | nil =>
      intro ys hlength _
      exact (List.length_eq_zero_iff.mp hlength.symm).symm
  | cons x xs ih =>
      intro ys hlength h
      cases ys with
      | nil => cases hlength
      | cons y ys =>
          rw [serializeFixedElems, serializeFixedElems] at h
          have hhead := ByteArray.append_inj_left h (by
            rw [size_serialize_of_basic hbasic ht, size_serialize_of_basic hbasic ht])
          obtain rfl := serialize_inj_of_basic hbasic ht hhead
          rw [ih (Nat.succ.inj hlength) ((ByteArray.append_right_inj _).mp h)]

/-! ## Bits -/

theorem bitvecToBytes_inj {n : Nat} {a b : BitVec n} (h : bitvecToBytes n a = bitvecToBytes n b) :
    a = b := by
  obtain ⟨-, -, ha⟩ := eq_bitvecToBytes_iff.mp (rfl : bitvecToBytes n a = _)
  obtain ⟨-, -, hb⟩ := eq_bitvecToBytes_iff.mp h
  rw [← ha, hb]

theorem bitsToNatLE_eq (bs : List Bool) : bitsToNatLE bs = bitsToNat bs := by
  induction bs with
  | nil => rfl
  | cons b bs ih => rw [bitsToNatLE, bitsToNat, ih]

theorem bitBody_eq (xs : Array Bool) : bitBody xs = packBitsLE xs.toList := by
  rw [bitBody, serialize, bitvecToBytes, bitsToNatLE_eq]
  exact congrArg packBitsLE ((ofNat_bitsToNat_iff (Array.length_toList)).mp rfl).symm

theorem bitBody_inj {xs ys : Array Bool} (hsize : xs.size = ys.size)
    (h : bitBody xs = bitBody ys) : xs = ys := by
  rw [bitBody_eq, bitBody_eq] at h
  have hbits := congrArg bits h
  rw [bits_packBitsLE, bits_packBitsLE, Array.length_toList, Array.length_toList, hsize] at hbits
  exact Array.toList_inj.mp (List.append_inj_left' hbits rfl)

end HazmatSha256.Ssz
