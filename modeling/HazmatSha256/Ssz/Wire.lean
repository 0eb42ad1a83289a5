import HazmatSha256.Ssz.Bits
set_option autoImplicit false

/-!
# Ssz: the wire format

`Wire .none s x w` says that the bytes `w` stand for the value `x` of the shape `s`.  It mentions
neither the encoder nor the decoder of collections: parts stand one behind another, and parts
whose length the shape does not fix are found through a table of offsets, right behind which they
begin.  The decoder departs from this in two places; each has a name, and `Wire .decoder` is the
format with both.
-/

namespace HazmatSha256.Ssz

open Foundation SSZType

/-! ## Parts in a string -/

section Parts

variable {α : Type} (R : α → ByteArray → Prop)

/-- A word for each element, one behind another. -/
def Rows (xs : List α) (w : ByteArray) : Prop := ∃ ws, List.Forall₂ R xs ws ∧ w = cat ws

/-- The offsets, four bytes each. -/
def table (os : List Nat) : ByteArray := cat (os.map fun o => uint32LE o.toUInt32)

/-- The string begins with the table of the words, which stand from `o` on. -/
structure Laid (o : Nat) (xs : List α) (w : ByteArray) (ws : List ByteArray) : Prop where
  words : List.Forall₂ R xs ws
  small : ∀ p ∈ starts o ws, p < 2 ^ 32
  room : bytesPerLengthOffset * xs.length ≤ w.size
  offsets : w.extract 0 (bytesPerLengthOffset * xs.length) = table (starts o ws)
  first : o ≤ w.size
  bodies : w.extract o w.size = cat ws

variable {R} {S : α → ByteArray → Prop} {xs : List α} {w : ByteArray}

theorem Rows.imp (h : Rows R xs w) (himp : ∀ x u, R x u → S x u) : Rows S xs w := by
  obtain ⟨ws, hws, rfl⟩ := h
  exact ⟨ws, hws.imp himp, rfl⟩

theorem Laid.imp {o : Nat} {ws : List ByteArray} (h : Laid R o xs w ws)
    (himp : ∀ x u, R x u → S x u) : Laid S o xs w ws :=
  { h with words := h.words.imp himp }

end Parts

namespace SSZType

/-- Does the decoder refuse bytes behind those of the value? -/
def takesAll : SSZType → Bool
  | .bitvector _ => true
  | s => !s.isFixedSize

end SSZType

/-- What bytes may stand for a value beside those of the format. -/
structure Deviations where
  /-- The first offset of a vector may be any: it is not compared with the end of the table. -/
  looseVectors : Bool
  /-- A first offset of zero makes a capped list empty, whatever follows. -/
  zeroOffsets : Bool
  deriving DecidableEq

namespace Deviations

/-- The format. -/
def none : Deviations := ⟨false, false⟩

/-- What `SSZType.deserialize` accepts. -/
def decoder : Deviations := ⟨true, true⟩

end Deviations

namespace SSZType

mutual

def Wire (d : Deviations) : (s : SSZType) → s.interp → ByteArray → Prop
  | .uintN n, x, w => isWidth n = true ∧ w = serializeUint n x
  | .bool, x, w => w = ByteArray.empty.push (if x then 1 else 0)
  | .vector t n, v, w =>
      n ≠ 0 ∧ if t.isFixedSize then Rows (Wire d t) v.toList w
        else ∃ o ws, (d.looseVectors = true ∨ o = bytesPerLengthOffset * v.toList.length) ∧
          Laid (Wire d t) o v.toList w ws
  | .list t _, xs, w =>
      if t.isFixedSize then t.fixedByteSize ≠ 0 ∧ Rows (Wire d t) xs.val.toList w
      else if xs.val.toList = [] then
        w = .empty ∨ d.zeroOffsets = true ∧ 4 ≤ w.size ∧ w.extract 0 4 = uint32LE 0
      else ∃ ws, Laid (Wire d t) (bytesPerLengthOffset * xs.val.toList.length) xs.val.toList w ws
  | .bitvector n, bv, w => n ≠ 0 ∧ w = bitvecToBytes n bv
  | .bitlist _, bs, w => w = bitlistToBytes bs.val
  | .container fs, vs, w =>
      ∃ fix var, WireFields d fs vs (fixedSectionSizeFields fs) fix var ∧ w = fix ++ var
  | .progressiveList t, xs, w =>
      if t.isFixedSize then t.fixedByteSize ≠ 0 ∧ Rows (Wire d t) xs.toList w
      else if xs.toList = [] then w = .empty
      else ∃ ws, Laid (Wire d t) (bytesPerLengthOffset * xs.toList.length) xs.toList w ws
  | .progressiveBitlist, bs, w => w = bitlistToBytes bs
  | .progressiveContainer _ fs, vs, w =>
      ∃ fix var, WireFields d fs vs (fixedSectionSizeFields fs) fix var ∧ w = fix ++ var

/-- The fields of fixed length and the offsets of the others in `fix`, these others in `var`;
`o` is where the next of them begins. -/
def WireFields (d : Deviations) :
    (fs : List SSZType) → interpFields fs → (o : Nat) → (fix var : ByteArray) → Prop
  | [], _, _, fix, var => fix = .empty ∧ var = .empty
  | t :: ts, vs, o, fix, var =>
      ∃ w, Wire d t vs.1 w ∧
        if t.isFixedSize then ∃ fix', fix = w ++ fix' ∧ WireFields d ts vs.2 o fix' var
        else ∃ fix' var', o < 2 ^ 32 ∧ fix = uint32LE o.toUInt32 ++ fix' ∧ var = w ++ var' ∧
          WireFields d ts vs.2 (o + w.size) fix' var'

end

end SSZType

/-! ## Sizes -/

variable {d : Deviations}

theorem size_cat_of_sizes {sz : Nat} : ∀ {ws : List ByteArray}, (∀ w ∈ ws, w.size = sz) →
    (cat ws).size = ws.length * sz := by
  intro ws
  induction ws with
  | nil =>
      intro _
      rw [cat_nil, ByteArray.size_empty, List.length_nil, Nat.zero_mul]
  | cons w ws ih =>
      intro h
      rw [cat_cons, ByteArray.size_append, h w List.mem_cons_self,
        ih fun u hu => h u (List.mem_cons_of_mem w hu), List.length_cons, Nat.succ_mul, Nat.add_comm]

theorem Rows.size {α : Type} {R : α → ByteArray → Prop} {sz : Nat}
    (hsize : ∀ x w, R x w → w.size = sz) {xs : List α} {w : ByteArray} (h : Rows R xs w) :
    w.size = xs.length * sz := by
  obtain ⟨ws, hws, rfl⟩ := h
  rw [hws.length_eq]
  refine size_cat_of_sizes fun u hu => ?_
  obtain ⟨i, hi, rfl⟩ := List.mem_iff_getElem.mp hu
  exact hsize _ _ (hws.get (by rw [hws.length_eq]; exact hi) hi)

mutual

/-- Words of a shape of fixed length have that length. -/
theorem size_of_wire : ∀ (s : SSZType) {x : s.interp} {w : ByteArray}, s.isFixedSize = true →
    Wire d s x w → w.size = s.fixedByteSize
  | .uintN n, x, w, _, h => by
      rw [Wire] at h
      obtain ⟨hn, rfl⟩ := h
      rw [fixedByteSize]
      exact size_serializeUint_of_isWidth hn x
  | .bool, x, w, _, h => by
      rw [Wire] at h
      rw [h, fixedByteSize]
      rfl
  | .vector t n, v, w, hfix, h => by
      rw [isFixedSize] at hfix
      rw [Wire, if_pos hfix] at h
      rw [fixedByteSize, h.2.size fun x w => size_of_wire t hfix, Nat.mul_comm]
      simp
  | .list t cap, xs, w, hfix, h => by simp [isFixedSize] at hfix
  | .bitvector n, bv, w, _, h => by
      rw [Wire] at h
      rw [fixedByteSize]
      exact (eq_bitvecToBytes_iff.mp h.2).1
  | .bitlist cap, bs, w, hfix, h => by simp [isFixedSize] at hfix
  | .container fs, vs, w, hfix, h => by
      rw [isFixedSize] at hfix
      rw [Wire] at h
      obtain ⟨fix, var, hw, rfl⟩ := h
      obtain ⟨hsize, rfl⟩ := size_of_wireFields fs hfix hw
      rw [ByteArray.append_empty, fixedByteSize, hsize]
  | .progressiveList t, xs, w, hfix, h => by simp [isFixedSize] at hfix
  | .progressiveBitlist, bs, w, hfix, h => by simp [isFixedSize] at hfix
  | .progressiveContainer active fs, vs, w, hfix, h => by
      rw [isFixedSize] at hfix
      rw [Wire] at h
      obtain ⟨fix, var, hw, rfl⟩ := h
      obtain ⟨hsize, rfl⟩ := size_of_wireFields fs hfix hw
      rw [ByteArray.append_empty, fixedByteSize, hsize]

theorem size_of_wireFields : ∀ (fs : List SSZType) {vs : interpFields fs} {o : Nat}
    {fix var : ByteArray}, allFixedSize fs = true → WireFields d fs vs o fix var →
    fix.size = fixedByteSizeFields fs ∧ var = .empty
  | [], vs, o, fix, var, _, h => by
      rw [WireFields] at h
      rw [h.1, fixedByteSizeFields]
      exact ⟨rfl, h.2⟩
  | t :: ts, vs, o, fix, var, hall, h => by
      rw [allFixedSize, Bool.and_eq_true] at hall
      rw [WireFields] at h
      obtain ⟨w, hw, h⟩ := h
      rw [if_pos hall.1] at h
      obtain ⟨fix', rfl, hrest⟩ := h
      obtain ⟨hsize, hvar⟩ := size_of_wireFields ts hall.2 hrest
      rw [ByteArray.size_append, size_of_wire t hall.1 hw, hsize, fixedByteSizeFields]
      exact ⟨rfl, hvar⟩

end

end HazmatSha256.Ssz
