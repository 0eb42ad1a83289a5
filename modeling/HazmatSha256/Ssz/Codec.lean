import HazmatSha256.Ssz.Decodes
set_option autoImplicit false

/-!
# Ssz: the encoder and the decoder

The bytes of a value stand for it, so the decoder reads them back.  What else stands for a
value is what the decoder accepts besides: nothing for most shapes; for vectors and lists of
elements of no fixed length there is more.
-/

namespace HazmatSha256.Ssz

open Foundation SSZType

/-! ## What the encoder can write -/

namespace SSZType

mutual

/-- Shapes whose values the decoder can read: their widths are known, and no vector is empty. -/
def codable : SSZType → Bool
  | .uintN n => isWidth n
  | .bool => true
  | .vector t n => n != 0 && t.codable
  | .list t _ => t.codable && !(t.isFixedSize && t.fixedByteSize == 0)
  | .bitvector n => n != 0
  | .bitlist _ => true
  | .container fs => allCodable fs
  | .progressiveList t => t.codable && !(t.isFixedSize && t.fixedByteSize == 0)
  | .progressiveBitlist => true
  | .progressiveContainer _ fs => allCodable fs

def allCodable : List SSZType → Bool
  | [] => true
  | t :: ts => t.codable && allCodable ts

end

mutual

/-- Shapes without a vector or a capped list of elements of no fixed length. -/
def strict : SSZType → Bool
  | .vector t _ => t.isFixedSize && t.strict
  | .list t _ => t.isFixedSize && t.strict
  | .container fs => allStrict fs
  | .progressiveList t => t.strict
  | .progressiveContainer _ fs => allStrict fs
  | _ => true

def allStrict : List SSZType → Bool
  | [] => true
  | t :: ts => t.strict && allStrict ts

end

end SSZType

variable {d : Deviations}

/-! ## The walkers of the encoder -/

theorem serializeFixedElems_eq (t : SSZType) (xs : List t.interp) :
    serializeFixedElems t xs = cat (xs.map (serialize t)) := by
  induction xs with
  | nil => rw [serializeFixedElems, List.map_nil, cat_nil]
  | cons x xs ih => rw [serializeFixedElems, ih, List.map_cons, cat_cons]

theorem serializeVarElemsAux_eq (t : SSZType) (xs : List t.interp) : ∀ o : Nat,
    serializeVarElemsAux t xs o =
      (table (starts o (xs.map (serialize t))), cat (xs.map (serialize t))) := by
  induction xs with
  | nil =>
      intro o
      rw [serializeVarElemsAux]
      rfl
  | cons x xs ih =>
      intro o
      rw [serializeVarElemsAux, ih]
      rfl

/-- The bytes of elements that have no fixed length. -/
def varElems (t : SSZType) (xs : List t.interp) : ByteArray :=
  table (starts (bytesPerLengthOffset * xs.length) (xs.map (serialize t))) ++
    cat (xs.map (serialize t))

theorem serialize_vector (t : SSZType) (n : Nat) (v : Vector t.interp n) :
    serialize (.vector t n) v = if t.isFixedSize then cat (v.toList.map (serialize t))
      else varElems t v.toList := by
  rw [serialize, serializeFixedElems_eq]
  dsimp only
  rw [serializeVarElemsAux_eq, Nat.mul_comm]
  rfl

theorem serialize_list (t : SSZType) (cap : Nat) (xs : (SSZType.list t cap).interp) :
    serialize (.list t cap) xs = if t.isFixedSize then cat (xs.val.toList.map (serialize t))
      else varElems t xs.val.toList := by
  rw [serialize, serializeFixedElems_eq]
  dsimp only
  rw [serializeVarElemsAux_eq, Nat.mul_comm]
  rfl

theorem serialize_progressiveList (t : SSZType) (xs : Array t.interp) :
    serialize (.progressiveList t) xs = if t.isFixedSize then cat (xs.toList.map (serialize t))
      else varElems t xs.toList := by
  rw [serialize, serializeFixedElems_eq]
  dsimp only
  rw [serializeVarElemsAux_eq, Nat.mul_comm]
  rfl

theorem size_le_size_cat {w : ByteArray} : ∀ {ws : List ByteArray}, w ∈ ws →
    w.size ≤ (cat ws).size := by
  intro ws
  induction ws with
  | nil =>
      intro h
      cases h
  | cons u ws ih =>
      intro h
      rw [cat_cons, ByteArray.size_append]
      rcases List.mem_cons.mp h with rfl | h
      · omega
      · have := ih h
        omega

section Elements

variable {t : SSZType} {xs : List t.interp}

/-- Elements that each are written right are written right one behind another. -/
theorem forall₂_serialize (h : ∀ x ∈ xs, Wire d t x (serialize t x)) :
    List.Forall₂ (Wire d t) xs (xs.map (serialize t)) := by
  induction xs with
  | nil => exact .nil
  | cons x xs ih =>
      exact .cons (h x List.mem_cons_self) (ih fun y hy => h y (List.mem_cons_of_mem x hy))

/-- Elements that can be written in one way only are written so. -/
theorem eq_map_serialize {ws : List ByteArray} (hws : List.Forall₂ (Wire d t) xs ws)
    (h : ∀ x w, Wire d t x w → w = serialize t x) : ws = xs.map (serialize t) := by
  induction hws with
  | nil => rfl
  | cons hx _ ih => rw [List.map_cons, h _ _ hx, ih]

/-- A table and the words behind it, with anything between them. -/
theorem laid_of_table {R : t.interp → ByteArray → Prop} {ws : List ByteArray}
    (hws : List.Forall₂ R xs ws) {gap : ByteArray}
    (hsmall : bytesPerLengthOffset * xs.length + gap.size + (cat ws).size < 2 ^ 32) :
    Laid R (bytesPerLengthOffset * xs.length + gap.size) xs
      (table (starts (bytesPerLengthOffset * xs.length + gap.size) ws) ++ gap ++ cat ws) ws := by
  have htable : (table (starts (bytesPerLengthOffset * xs.length + gap.size) ws)).size =
      bytesPerLengthOffset * xs.length := by
    rw [size_table, length_starts, hws.length_eq]
  refine ⟨hws, fun p hp => ?_, ?_, ?_, ?_, ?_⟩
  · have := le_of_mem_starts hp
    omega
  · rw [ByteArray.size_append, ByteArray.size_append]
    omega
  · rw [ByteArray.append_assoc, ByteArray.extract_append_eq_left htable.symm]
  · rw [ByteArray.size_append, ByteArray.size_append]
    omega
  · have hfront : bytesPerLengthOffset * xs.length + gap.size =
        (table (starts (bytesPerLengthOffset * xs.length + gap.size) ws) ++ gap).size := by
      rw [ByteArray.size_append, htable]
    exact ByteArray.extract_append_eq_right hfront (by rw [ByteArray.size_append])

/-- With the first word right behind the table there is nothing else. -/
theorem Laid.eq {R : t.interp → ByteArray → Prop} {w : ByteArray} {ws : List ByteArray}
    (h : Laid R (bytesPerLengthOffset * xs.length) xs w ws) :
    w = table (starts (bytesPerLengthOffset * xs.length) ws) ++ cat ws := by
  rw [← h.offsets, ← h.bodies, ByteArray.extract_append_extract, Nat.zero_min,
    Nat.max_eq_right h.room, ByteArray.extract_zero_size]

/-- Elements that can be written in one way only have one layout. -/
theorem Laid.eq_varElems {w : ByteArray} {ws : List ByteArray}
    (h : Laid (Wire d t) (bytesPerLengthOffset * xs.length) xs w ws)
    (helem : ∀ x w, Wire d t x w → w = serialize t x) : w = varElems t xs := by
  rw [h.eq, eq_map_serialize h.words helem]
  rfl

end Elements

/-! ## The encoder and the wire format -/

/-- The bytes of elements that have no fixed length, with `gap` between the table and the first
of them. -/
def gapped (t : SSZType) (xs : List t.interp) (gap : ByteArray) : ByteArray :=
  table (starts (bytesPerLengthOffset * xs.length + gap.size) (xs.map (serialize t))) ++ gap ++
    cat (xs.map (serialize t))

theorem gapped_empty (t : SSZType) (xs : List t.interp) : gapped t xs .empty = varElems t xs := by
  rw [gapped, ByteArray.append_empty]
  rfl

theorem size_gapped (t : SSZType) (xs : List t.interp) (gap : ByteArray) : (gapped t xs gap).size =
    bytesPerLengthOffset * xs.length + gap.size + (cat (xs.map (serialize t))).size := by
  rw [gapped, ByteArray.size_append, ByteArray.size_append, size_table, length_starts,
    List.length_map]

/-- Elements of a codable shape that fit are laid out as the wire format says. -/
theorem laid_gapped {t : SSZType} {xs : List t.interp} {gap : ByteArray}
    (hsmall : (gapped t xs gap).size < 2 ^ 32)
    (h : ∀ x : t.interp, (serialize t x).size < 2 ^ 32 → Wire d t x (serialize t x)) :
    ∃ ws, Laid (Wire d t) (bytesPerLengthOffset * xs.length + gap.size) xs (gapped t xs gap) ws := by
  rw [size_gapped] at hsmall
  refine ⟨_, laid_of_table (forall₂_serialize fun x hx => h x ?_) hsmall⟩
  have := size_le_size_cat (List.mem_map_of_mem (f := serialize t) hx)
  omega

theorem laid_varElems {t : SSZType} {xs : List t.interp} (hsmall : (varElems t xs).size < 2 ^ 32)
    (h : ∀ x : t.interp, (serialize t x).size < 2 ^ 32 → Wire d t x (serialize t x)) :
    ∃ ws, Laid (Wire d t) (bytesPerLengthOffset * xs.length) xs (varElems t xs) ws := by
  rw [← gapped_empty] at hsmall ⊢
  exact laid_gapped hsmall h

theorem rows_serialize {t : SSZType} {xs : List t.interp}
    (hsmall : (cat (xs.map (serialize t))).size < 2 ^ 32)
    (h : ∀ x : t.interp, (serialize t x).size < 2 ^ 32 → Wire d t x (serialize t x)) :
    Rows (Wire d t) xs (cat (xs.map (serialize t))) := by
  refine ⟨_, forall₂_serialize fun x hx => h x ?_, rfl⟩
  have := size_le_size_cat (List.mem_map_of_mem (f := serialize t) hx)
  omega

mutual

/-- The bytes of a shape of fixed length have that length. -/
theorem size_serialize : ∀ (s : SSZType) (x : s.interp), s.codable = true → s.isFixedSize = true →
    (serialize s x).size = s.fixedByteSize
  | .uintN n, x, hs, _ => by
      rw [serialize, fixedByteSize]
      exact size_serializeUint_of_isWidth hs x
  | .bool, x, _, _ => by
      rw [serialize, fixedByteSize]
      rfl
  | .vector t n, v, hs, hfix => by
      rw [codable, Bool.and_eq_true] at hs
      rw [isFixedSize] at hfix
      have hsizes : ∀ w ∈ v.toList.map (serialize t), w.size = t.fixedByteSize := by
        intro w hw
        obtain ⟨x, -, rfl⟩ := List.mem_map.mp hw
        exact size_serialize t x hs.2 hfix
      rw [serialize_vector, if_pos hfix, size_cat_of_sizes hsizes, fixedByteSize, Nat.mul_comm]
      simp
  | .list t cap, xs, _, hfix => by simp [isFixedSize] at hfix
  | .bitvector n, bv, _, _ => by
      rw [serialize, fixedByteSize]
      exact (eq_bitvecToBytes_iff.mp rfl).1
  | .bitlist cap, bs, _, hfix => by simp [isFixedSize] at hfix
  | .container fs, vs, hs, hfix => by
      rw [codable] at hs
      rw [isFixedSize] at hfix
      rw [serialize, ByteArray.size_append, fixedByteSize]
      obtain ⟨hsize, hvar⟩ := size_serializeFieldsAux fs vs _ hs
      rw [hsize, (hvar hfix).1, (hvar hfix).2, ByteArray.size_empty, Nat.add_zero]
  | .progressiveList t, xs, _, hfix => by simp [isFixedSize] at hfix
  | .progressiveBitlist, bs, _, hfix => by simp [isFixedSize] at hfix
  | .progressiveContainer active fs, vs, hs, hfix => by
      rw [codable] at hs
      rw [isFixedSize] at hfix
      rw [serialize, ByteArray.size_append, fixedByteSize]
      obtain ⟨hsize, hvar⟩ := size_serializeFieldsAux fs vs _ hs
      rw [hsize, (hvar hfix).1, (hvar hfix).2, ByteArray.size_empty, Nat.add_zero]

theorem size_serializeFieldsAux : ∀ (fs : List SSZType) (vs : interpFields fs) (o : Nat),
    allCodable fs = true →
    (serializeFieldsAux fs vs o).1.size = fixedSectionSizeFields fs ∧
      (allFixedSize fs = true → (serializeFieldsAux fs vs o).2 = .empty ∧
        fixedSectionSizeFields fs = fixedByteSizeFields fs)
  | [], vs, o, _ => by
      rw [serializeFieldsAux, fixedSectionSizeFields, fixedByteSizeFields]
      exact ⟨rfl, fun _ => ⟨rfl, rfl⟩⟩
  | t :: ts, vs, o, hs => by
      rw [allCodable, Bool.and_eq_true] at hs
      rw [serializeFieldsAux, fixedSectionSizeFields, fixedSectionSize, fixedByteSizeFields,
        allFixedSize]
      dsimp only
      split
      next ht =>
        obtain ⟨hsize, hvar⟩ := size_serializeFieldsAux ts vs.2 o hs.2
        rw [ByteArray.size_append, hsize, size_serialize t vs.1 hs.1 ht, ht, Bool.true_and]
        exact ⟨rfl, fun hall => ⟨(hvar hall).1, by rw [(hvar hall).2]⟩⟩
      next ht =>
        obtain ⟨hsize, -⟩ := size_serializeFieldsAux ts vs.2 (o + (serialize t vs.1).size) hs.2
        rw [ByteArray.size_append, hsize, size_uint32LE]
        refine ⟨rfl, fun hall => ?_⟩
        simp [ht] at hall

end

mutual

/-- What the encoder writes stands for the value. -/
theorem wire_serialize : ∀ (s : SSZType) (x : s.interp), s.codable = true →
    (serialize s x).size < 2 ^ 32 → Wire d s x (serialize s x)
  | .uintN n, x, hs, _ => by
      rw [Wire, serialize]
      exact ⟨hs, rfl⟩
  | .bool, x, _, _ => by rw [Wire, serialize]
  | .vector t n, v, hs, hsmall => by
      rw [codable, Bool.and_eq_true, bne_iff_ne] at hs
      have ih := fun x => wire_serialize t x hs.2
      rw [serialize_vector] at hsmall ⊢
      rw [Wire]
      refine ⟨hs.1, ?_⟩
      split at hsmall
      next hfix => simpa only [if_pos hfix] using rows_serialize hsmall ih
      next hvar =>
        obtain ⟨ws, hlaid⟩ := laid_varElems hsmall ih
        simp only [if_neg hvar]
        exact ⟨_, ws, .inr rfl, hlaid⟩
  | .list t cap, xs, hs, hsmall => by
      rw [codable, Bool.and_eq_true] at hs
      have ih := fun x => wire_serialize t x hs.1
      rw [serialize_list] at hsmall ⊢
      rw [Wire]
      split at hsmall
      next hfix =>
        simp only [if_pos hfix]
        exact ⟨by simpa [hfix] using hs.2, rows_serialize hsmall ih⟩
      next hvar =>
        simp only [if_neg hvar]
        split
        next hnil =>
          rw [hnil]
          exact .inl rfl
        next hne => exact laid_varElems hsmall ih
  | .bitvector n, bv, hs, _ => by
      rw [codable, bne_iff_ne] at hs
      rw [Wire, serialize]
      exact ⟨hs, rfl⟩
  | .bitlist cap, bs, _, _ => by rw [Wire, serialize]
  | .container fs, vs, hs, hsmall => by
      rw [codable] at hs
      rw [serialize] at hsmall ⊢
      rw [Wire]
      rw [ByteArray.size_append] at hsmall
      have hsize := (size_serializeFieldsAux fs vs (fixedSectionSizeFields fs) hs).1
      exact ⟨_, _, wireFields_serialize fs vs _ hs (by omega) (by omega), rfl⟩
  | .progressiveList t, xs, hs, hsmall => by
      rw [codable, Bool.and_eq_true] at hs
      have ih := fun x => wire_serialize t x hs.1
      rw [serialize_progressiveList] at hsmall ⊢
      rw [Wire]
      split at hsmall
      next hfix =>
        simp only [if_pos hfix]
        exact ⟨by simpa [hfix] using hs.2, rows_serialize hsmall ih⟩
      next hvar =>
        simp only [if_neg hvar]
        split
        next hnil =>
          rw [hnil]
          rfl
        next hne => exact laid_varElems hsmall ih
  | .progressiveBitlist, bs, _, _ => by rw [Wire, serialize]
  | .progressiveContainer active fs, vs, hs, hsmall => by
      rw [codable] at hs
      rw [serialize] at hsmall ⊢
      rw [Wire]
      rw [ByteArray.size_append] at hsmall
      have hsize := (size_serializeFieldsAux fs vs (fixedSectionSizeFields fs) hs).1
      exact ⟨_, _, wireFields_serialize fs vs _ hs (by omega) (by omega), rfl⟩

theorem wireFields_serialize : ∀ (fs : List SSZType) (vs : interpFields fs) (o : Nat),
    allCodable fs = true → (serializeFieldsAux fs vs o).1.size < 2 ^ 32 →
    o + (serializeFieldsAux fs vs o).2.size < 2 ^ 32 →
    WireFields d fs vs o (serializeFieldsAux fs vs o).1 (serializeFieldsAux fs vs o).2
  | [], vs, o, _, _, _ => by
      rw [WireFields, serializeFieldsAux]
      exact ⟨rfl, rfl⟩
  | t :: ts, vs, o, hs, hfix, hvar => by
      rw [allCodable, Bool.and_eq_true] at hs
      rw [serializeFieldsAux] at hfix hvar ⊢
      rw [WireFields]
      dsimp only at hfix hvar ⊢
      split at hfix
      next ht =>
        simp only [if_pos ht] at hfix hvar ⊢
        rw [ByteArray.size_append] at hfix
        exact ⟨_, wire_serialize t vs.1 hs.1 (by omega), _, rfl,
          wireFields_serialize ts vs.2 o hs.2 (by omega) hvar⟩
      next ht =>
        simp only [if_neg ht] at hfix hvar ⊢
        rw [ByteArray.size_append] at hfix hvar
        exact ⟨_, wire_serialize t vs.1 hs.1 (by omega), _, _, by omega, rfl, rfl,
          wireFields_serialize ts vs.2 _ hs.2 (by omega) (by omega)⟩

end

mutual

/-- Without deviations, or where the shape has no place for one, a value has no other bytes than
those that the encoder writes. -/
theorem serialize_of_wire : ∀ (s : SSZType) {x : s.interp} {w : ByteArray},
    d = .none ∨ s.strict = true → Wire d s x w → w = serialize s x
  | .uintN n, x, w, _, h => by
      rw [Wire] at h
      rw [serialize]
      exact h.2
  | .bool, x, w, _, h => by
      rw [Wire] at h
      rw [serialize]
      exact h
  | .vector t n, v, w, hs, h => by
      rw [strict, Bool.and_eq_true] at hs
      have ih : ∀ x w, Wire d t x w → w = serialize t x :=
        fun x w => serialize_of_wire t (hs.imp_right And.right)
      rw [Wire] at h
      rw [serialize_vector]
      obtain ⟨-, h⟩ := h
      split at h
      next hfix =>
        obtain ⟨ws, hws, rfl⟩ := h
        rw [if_pos hfix, eq_map_serialize hws ih]
      next hvar =>
        obtain ⟨o, ws, hfirst, hlaid⟩ := h
        obtain rfl := hs.resolve_right fun h => hvar h.1
        obtain rfl := hfirst.resolve_left nofun
        rw [if_neg hvar]
        exact hlaid.eq_varElems ih
  | .list t cap, xs, w, hs, h => by
      rw [strict, Bool.and_eq_true] at hs
      have ih : ∀ x w, Wire d t x w → w = serialize t x :=
        fun x w => serialize_of_wire t (hs.imp_right And.right)
      rw [Wire] at h
      rw [serialize_list]
      split at h
      next hfix =>
        obtain ⟨-, ws, hws, rfl⟩ := h
        rw [if_pos hfix, eq_map_serialize hws ih]
      next hvar =>
        obtain rfl := hs.resolve_right fun h => hvar h.1
        rw [if_neg hvar]
        split at h
        next hnil =>
          rw [h.resolve_right nofun, hnil]
          rfl
        next hne =>
          obtain ⟨ws, hlaid⟩ := h
          exact hlaid.eq_varElems ih
  | .bitvector n, bv, w, _, h => by
      rw [Wire] at h
      rw [serialize]
      exact h.2
  | .bitlist cap, bs, w, _, h => by
      rw [Wire] at h
      rw [serialize]
      exact h
  | .container fs, vs, w, hs, h => by
      rw [strict] at hs
      rw [Wire] at h
      obtain ⟨fix, var, hw, rfl⟩ := h
      rw [serialize, ← serializeFieldsAux_of_wire fs hs hw]
  | .progressiveList t, xs, w, hs, h => by
      rw [strict] at hs
      have ih : ∀ x w, Wire d t x w → w = serialize t x := fun x w => serialize_of_wire t hs
      rw [Wire] at h
      rw [serialize_progressiveList]
      split at h
      next hfix =>
        obtain ⟨-, ws, hws, rfl⟩ := h
        rw [if_pos hfix, eq_map_serialize hws ih]
      next hvar =>
        rw [if_neg hvar]
        split at h
        next hnil =>
          rw [h, hnil]
          rfl
        next hne =>
          obtain ⟨ws, hlaid⟩ := h
          exact hlaid.eq_varElems ih
  | .progressiveBitlist, bs, w, _, h => by
      rw [Wire] at h
      rw [serialize]
      exact h
  | .progressiveContainer active fs, vs, w, hs, h => by
      rw [strict] at hs
      rw [Wire] at h
      obtain ⟨fix, var, hw, rfl⟩ := h
      rw [serialize, ← serializeFieldsAux_of_wire fs hs hw]

theorem serializeFieldsAux_of_wire : ∀ (fs : List SSZType) {vs : interpFields fs} {o : Nat}
    {fix var : ByteArray}, d = .none ∨ allStrict fs = true → WireFields d fs vs o fix var →
    (fix, var) = serializeFieldsAux fs vs o
  | [], vs, o, fix, var, _, h => by
      rw [WireFields] at h
      rw [serializeFieldsAux, h.1, h.2]
  | t :: ts, vs, o, fix, var, hs, h => by
      rw [allStrict, Bool.and_eq_true] at hs
      rw [WireFields] at h
      obtain ⟨w, hw, h⟩ := h
      obtain rfl := serialize_of_wire t (hs.imp_right And.left) hw
      rw [serializeFieldsAux]
      dsimp only
      split at h
      next ht =>
        obtain ⟨fix', rfl, hrest⟩ := h
        rw [if_pos ht, ← serializeFieldsAux_of_wire ts (hs.imp_right And.right) hrest]
      next ht =>
        obtain ⟨fix', var', -, rfl, rfl, hrest⟩ := h
        rw [if_neg ht, ← serializeFieldsAux_of_wire ts (hs.imp_right And.right) hrest]

end

mutual

/-- What is written without deviations, or where the shape has no place for one, may be read with
any. -/
theorem Wire.imp {d d' : Deviations} : ∀ (s : SSZType) {x : s.interp} {w : ByteArray},
    d = .none ∨ s.strict = true → Wire d s x w → Wire d' s x w
  | .uintN n, x, w, _, h => by
      rw [Wire] at h ⊢
      exact h
  | .bool, x, w, _, h => by
      rw [Wire] at h ⊢
      exact h
  | .vector t n, v, w, hs, h => by
      rw [strict, Bool.and_eq_true] at hs
      have ih : ∀ x w, Wire d t x w → Wire d' t x w :=
        fun x w => Wire.imp t (hs.imp_right And.right)
      rw [Wire] at h ⊢
      refine ⟨h.1, ?_⟩
      obtain ⟨-, h⟩ := h
      split at h
      next hfix =>
        rw [if_pos hfix]
        exact h.imp ih
      next hvar =>
        obtain ⟨o, ws, hfirst, hlaid⟩ := h
        obtain rfl := hs.resolve_right fun h => hvar h.1
        rw [if_neg hvar]
        exact ⟨o, ws, .inr (hfirst.resolve_left nofun), hlaid.imp ih⟩
  | .list t cap, xs, w, hs, h => by
      rw [strict, Bool.and_eq_true] at hs
      have ih : ∀ x w, Wire d t x w → Wire d' t x w :=
        fun x w => Wire.imp t (hs.imp_right And.right)
      rw [Wire] at h ⊢
      split at h
      next hfix =>
        rw [if_pos hfix]
        exact ⟨h.1, h.2.imp ih⟩
      next hvar =>
        obtain rfl := hs.resolve_right fun h => hvar h.1
        rw [if_neg hvar]
        split at h
        next hnil =>
          rw [if_pos hnil]
          exact .inl (h.resolve_right nofun)
        next hne =>
          obtain ⟨ws, hlaid⟩ := h
          rw [if_neg hne]
          exact ⟨ws, hlaid.imp ih⟩
  | .bitvector n, bv, w, _, h => by
      rw [Wire] at h ⊢
      exact h
  | .bitlist cap, bs, w, _, h => by
      rw [Wire] at h ⊢
      exact h
  | .container fs, vs, w, hs, h => by
      rw [strict] at hs
      rw [Wire] at h ⊢
      obtain ⟨fix, var, hw, rfl⟩ := h
      exact ⟨fix, var, WireFields.imp fs hs hw, rfl⟩
  | .progressiveList t, xs, w, hs, h => by
      rw [strict] at hs
      have ih : ∀ x w, Wire d t x w → Wire d' t x w := fun x w => Wire.imp t hs
      rw [Wire] at h ⊢
      split at h
      next hfix =>
        rw [if_pos hfix]
        exact ⟨h.1, h.2.imp ih⟩
      next hvar =>
        rw [if_neg hvar]
        split at h
        next hnil =>
          rw [if_pos hnil]
          exact h
        next hne =>
          obtain ⟨ws, hlaid⟩ := h
          rw [if_neg hne]
          exact ⟨ws, hlaid.imp ih⟩
  | .progressiveBitlist, bs, w, _, h => by
      rw [Wire] at h ⊢
      exact h
  | .progressiveContainer active fs, vs, w, hs, h => by
      rw [strict] at hs
      rw [Wire] at h ⊢
      obtain ⟨fix, var, hw, rfl⟩ := h
      exact ⟨fix, var, WireFields.imp fs hs hw, rfl⟩

theorem WireFields.imp {d d' : Deviations} : ∀ (fs : List SSZType) {vs : interpFields fs} {o : Nat}
    {fix var : ByteArray}, d = .none ∨ allStrict fs = true → WireFields d fs vs o fix var →
    WireFields d' fs vs o fix var
  | [], vs, o, fix, var, _, h => by
      rw [WireFields] at h ⊢
      exact h
  | t :: ts, vs, o, fix, var, hs, h => by
      rw [allStrict, Bool.and_eq_true] at hs
      rw [WireFields] at h ⊢
      obtain ⟨w, hw, h⟩ := h
      refine ⟨w, Wire.imp t (hs.imp_right And.left) hw, ?_⟩
      split at h
      next hfix =>
        obtain ⟨fix', rfl, hrest⟩ := h
        rw [if_pos hfix]
        exact ⟨fix', rfl, WireFields.imp ts (hs.imp_right And.right) hrest⟩
      next hvar =>
        obtain ⟨fix', var', ho, rfl, rfl, hrest⟩ := h
        rw [if_neg hvar]
        exact ⟨fix', var', ho, rfl, rfl, WireFields.imp ts (hs.imp_right And.right) hrest⟩

end

/-! ## Round trips -/

/-- `SSZ.deserialize`: how many bytes the value took is forgotten. -/
def sszDeserialize (s : SSZType) (b : ByteArray) : Except SSZError s.interp :=
  match deserialize s b with
  | .ok (x, _) => .ok x
  | .error e => .error e

theorem sszDeserialize_iff {s : SSZType} {b : ByteArray} {x : s.interp} :
    sszDeserialize s b = .ok x ↔ ∃ n, deserialize s b = .ok (x, n) := by
  unfold sszDeserialize
  cases deserialize s b with
  | error e => simp
  | ok p => simp [Prod.ext_iff]

/-- The bytes of a value are read back, also in front of others where the shape allows any. -/
theorem deserialize_of_wire {s : SSZType} {x : s.interp} {w : ByteArray} (h : Wire .decoder s x w)
    {tail : ByteArray} (htail : s.takesAll = true → tail = .empty) :
    deserialize s (w ++ tail) = .ok (x, w.size) := by
  rw [deserialize_decodes, ByteArray.extract_append_eq_left rfl]
  refine ⟨by rw [ByteArray.size_append]; omega, fun hall => ?_, h⟩
  rw [htail hall, ByteArray.append_empty]

/-- Two values with the same bytes are one value. -/
theorem serialize_injective {s : SSZType} (hs : s.codable = true) {x y : s.interp}
    (hsmall : (serialize s x).size < 2 ^ 32) (heq : serialize s x = serialize s y) : x = y := by
  have hx := deserialize_of_wire (wire_serialize s x hs hsmall) fun _ => rfl
  have hy := deserialize_of_wire (wire_serialize s y hs (heq ▸ hsmall)) fun _ => rfl
  rw [heq, hy] at hx
  cases hx
  rfl

/-- The format has one string for a value, the one that the encoder writes. -/
theorem wire_none_iff {s : SSZType} (hs : s.codable = true) {x : s.interp} {w : ByteArray}
    (hsmall : w.size < 2 ^ 32) : Wire .none s x w ↔ w = serialize s x := by
  refine ⟨serialize_of_wire s (.inl rfl), ?_⟩
  rintro rfl
  exact wire_serialize s x hs hsmall

/-- The decoder answers exactly the values that the bytes stand for in the format with its two
deviations.  These add to the format, and add nothing on strict shapes. -/
theorem deserialize_eq_ok_iff (s : SSZType) (b : ByteArray) (x : s.interp) (n : Nat) :
    (deserialize s b = .ok (x, n) ↔
      n ≤ b.size ∧ (s.takesAll = true → n = b.size) ∧ Wire .decoder s x (b.extract 0 n)) ∧
      (Wire .none s x (b.extract 0 n) → Wire .decoder s x (b.extract 0 n)) ∧
      (s.strict = true → Wire .decoder s x (b.extract 0 n) → Wire .none s x (b.extract 0 n)) :=
  ⟨deserialize_decodes s b x n, Wire.imp s (.inl rfl), fun hs => Wire.imp s (.inr hs)⟩

theorem deserialize_serialize {s : SSZType} (hs : s.codable = true) {x : s.interp}
    (hsmall : (serialize s x).size < 2 ^ 32) {tail : ByteArray}
    (htail : s.takesAll = true → tail = .empty) :
    deserialize s (serialize s x ++ tail) = .ok (x, (serialize s x).size) :=
  deserialize_of_wire (wire_serialize s x hs hsmall) htail

/-- A shape with numbers, bits, a list of lists and a vector of lists. -/
abbrev sampleShape : SSZType :=
  .container [.uintN 16, .list (.list (.uintN 8) 4) 4, .bitlist 8,
    .vector (.list .bool 2) 2]

def sampleFields : sampleShape.interp :=
  (0x0102, ⟨#[⟨#[7, 8], by decide⟩, ⟨#[], by decide⟩], by decide⟩, ⟨#[true, false, true], by decide⟩,
    #v[⟨#[true], by decide⟩, ⟨#[], by decide⟩], ⟨⟩)

theorem size_sampleFields : (serialize sampleShape sampleFields).size = 34 := by
  simp [sampleFields, serialize, serializeFieldsAux, serializeFixedElems_eq,
    serializeVarElemsAux_eq, isFixedSize, ByteArray.size_append, size_uint32LE, serializeUint,
    uint16LE, bitlistToBytes, packBitsLE, bytesPerLengthOffset]

/-- A shape of fixed length, with a bit vector inside. -/
abbrev fixedShape : SSZType := .container [.uintN 16, .bitvector 4, .vector .bool 2]

def fixedFields : fixedShape.interp := ((0x0102 : UInt16), (5 : BitVec 4), #v[true, false], ⟨⟩)

theorem size_fixedFields : (serialize fixedShape fixedFields).size = 5 :=
  size_serialize fixedShape fixedFields rfl rfl

/-- The one fills its buffer, and the other stands in front of two more bytes. -/
theorem deserialize_serialize_sample :
    deserialize sampleShape (serialize sampleShape sampleFields ++ .empty) =
      .ok (sampleFields, (serialize sampleShape sampleFields).size) ∧
    deserialize fixedShape (serialize fixedShape fixedFields ++ ⟨#[7, 9]⟩) =
      .ok (fixedFields, (serialize fixedShape fixedFields).size) :=
  ⟨deserialize_serialize (by decide) (by rw [size_sampleFields]; decide) fun _ => rfl,
    deserialize_serialize rfl (by rw [size_fixedFields]; decide) nofun⟩

/-- On strict shapes the user's decoder accepts the encodings and nothing else, except that
behind a value of fixed length it ignores all that follows. -/
theorem sszDeserialize_eq_ok_iff {s : SSZType} (hstrict : s.strict = true)
    (hs : s.codable = true) {b : ByteArray} (hsmall : b.size < 2 ^ 32) {x : s.interp} :
    sszDeserialize s b = .ok x ↔
      ∃ tail, b = serialize s x ++ tail ∧ (s.takesAll = true → tail = .empty) := by
  rw [sszDeserialize_iff]
  constructor
  · rintro ⟨n, hn⟩
    obtain ⟨hle, hall, hwire⟩ := (deserialize_decodes s b x n).mp hn
    refine ⟨b.extract n b.size, ?_, fun htakes => ?_⟩
    · rw [← serialize_of_wire s (.inr hstrict) hwire, ByteArray.extract_append_extract, Nat.zero_min,
        Nat.max_eq_right hle, ByteArray.extract_zero_size]
    · rw [hall htakes, ByteArray.extract_same]
  · rintro ⟨tail, rfl, htail⟩
    rw [ByteArray.size_append] at hsmall
    exact ⟨_, deserialize_of_wire (wire_serialize s x hs (by omega)) htail⟩

/-- A number with a byte behind it. -/
theorem sszDeserialize_eq_ok_iff_flag :
    sszDeserialize (.container [.bool, .bool]) ⟨#[1, 0, 9]⟩ = .ok (true, false, ⟨⟩) ↔
      ∃ tail, (⟨#[1, 0, 9]⟩ : ByteArray) =
        serialize (.container [.bool, .bool]) (true, false, ⟨⟩) ++ tail ∧
        (takesAll (.container [.bool, .bool]) = true → tail = .empty) :=
  sszDeserialize_eq_ok_iff (by decide) (by decide) (by decide)

/-! ## What is accepted besides -/

/-- A capped list of elements of no fixed length is decoded as empty from every string that
begins with four zero bytes, whatever follows them; a progressive one from the empty string
only. -/
theorem deserialize_empty_iff {t : SSZType} (hvar : t.isFixedSize = false) (cap : Nat)
    (b : ByteArray) :
    ((∃ n, deserialize (.list t cap) b = .ok (⟨#[], Nat.zero_le cap⟩, n)) ↔
      b = .empty ∨ 4 ≤ b.size ∧ b.extract 0 4 = uint32LE 0) ∧
    ((∃ n, deserialize (.progressiveList t) b = .ok (#[], n)) ↔ b = .empty) := by
  have hlist := (deserialize_decodes (.list t cap)).all (w := b) (x := ⟨#[], Nat.zero_le cap⟩)
  have hprog := (deserialize_decodes (.progressiveList t)).all (w := b) (x := #[])
  rw [hlist, hprog, Wire, Wire]
  simp [hvar, Deviations.decoder]

theorem deserialize_empty_iff_lists :
    ((∃ n, deserialize (.list (.list .bool 2) 4) ⟨#[0, 0, 0, 0, 7]⟩ =
        .ok (⟨#[], Nat.zero_le 4⟩, n)) ↔
      (⟨#[0, 0, 0, 0, 7]⟩ : ByteArray) = .empty ∨
        4 ≤ (⟨#[0, 0, 0, 0, 7]⟩ : ByteArray).size ∧
          (⟨#[0, 0, 0, 0, 7]⟩ : ByteArray).extract 0 4 = uint32LE 0) ∧
    ((∃ n, deserialize (.progressiveList (.list .bool 2)) ⟨#[0, 0, 0, 0, 7]⟩ = .ok (#[], n)) ↔
      (⟨#[0, 0, 0, 0, 7]⟩ : ByteArray) = .empty) :=
  deserialize_empty_iff (by decide) 4 _

theorem wire_gapped {t : SSZType} (hvar : t.isFixedSize = false) (ht : t.codable = true)
    {n : Nat} (hn : n ≠ 0) (v : Vector t.interp n) {gap : ByteArray}
    (hsmall : (gapped t v.toList gap).size < 2 ^ 32) :
    Wire .decoder (.vector t n) v (gapped t v.toList gap) := by
  obtain ⟨ws, hlaid⟩ := laid_gapped hsmall fun x => wire_serialize t x ht
  rw [Wire, if_neg (by simp [hvar])]
  exact ⟨hn, _, ws, .inl rfl, hlaid⟩

/-- A vector of elements of no fixed length is also decoded from bytes in which anything stands
between the table and the first element. -/
theorem deserialize_gapped {t : SSZType} (hvar : t.isFixedSize = false) (ht : t.codable = true)
    {n : Nat} (hn : n ≠ 0) (v : Vector t.interp n) (gap : ByteArray)
    (hsmall : (gapped t v.toList gap).size < 2 ^ 32) :
    deserialize (.vector t n) (gapped t v.toList gap) = .ok (v, (gapped t v.toList gap).size) ∧
      (gapped t v.toList gap = serialize (.vector t n) v ↔ gap = .empty) := by
  have hnot : ¬ t.isFixedSize = true := by simp [hvar]
  constructor
  · have hread := deserialize_of_wire (wire_gapped hvar ht hn v hsmall) fun _ => rfl
    rwa [ByteArray.append_empty] at hread
  · rw [serialize_vector, if_neg hnot, ← gapped_empty]
    constructor
    · intro heq
      have hsize := congrArg ByteArray.size heq
      rw [size_gapped, size_gapped, ByteArray.size_empty] at hsize
      exact ByteArray.size_eq_zero_iff.mp (by omega)
    · rintro rfl
      rfl

abbrev lists : Vector (SSZType.list .bool 2).interp 1 := #v[⟨#[true], by decide⟩]

theorem size_gapped_lists : (gapped (.list .bool 2) lists.toList ⟨#[7, 7]⟩).size = 7 := by
  simp [size_gapped, serialize, serializeFixedElems_eq, isFixedSize, bytesPerLengthOffset]
  rfl

theorem deserialize_gapped_lists :
    deserialize (.vector (.list .bool 2) 1) (gapped (.list .bool 2) lists.toList ⟨#[7, 7]⟩) =
      .ok (lists, (gapped (.list .bool 2) lists.toList ⟨#[7, 7]⟩).size) ∧
    (gapped (.list .bool 2) lists.toList ⟨#[7, 7]⟩ =
      serialize (.vector (.list .bool 2) 1) lists ↔ (⟨#[7, 7]⟩ : ByteArray) = .empty) :=
  deserialize_gapped (by decide) (by decide) (by decide) lists ⟨#[7, 7]⟩
    (by rw [size_gapped_lists]; decide)

end HazmatSha256.Ssz
