import HazmatSha256.Ssz.Wire
set_option autoImplicit false

/-!
# Ssz: the decoder and the wire format

The decoder answers a value if and only if a prefix of the buffer stands for it, and the
length of that prefix.  The walkers of the decoder are followed one step at a time; what a step
does is said for any decoder of the elements that is itself right.
-/

namespace HazmatSha256.Ssz

open Foundation SSZType

/-- `decode` answers the values that a prefix of the buffer stands for; with `whole`, the prefix
must be all of it. -/
def Decodes {α : Type} (R : α → ByteArray → Prop) (whole : Bool)
    (decode : ByteArray → Except SSZError (α × Nat)) : Prop :=
  ∀ b x n, decode b = .ok (x, n) ↔
    n ≤ b.size ∧ (whole = true → n = b.size) ∧ R x (b.extract 0 n)

/-- A decoder that takes all bytes reads no prefix but the whole. -/
theorem Decodes.of_all {α : Type} {R : α → ByteArray → Prop}
    {decode : ByteArray → Except SSZError (α × Nat)}
    (h : ∀ b x n, decode b = .ok (x, n) ↔ n = b.size ∧ R x b) : Decodes R true decode := by
  intro b x n
  rw [h]
  constructor
  · rintro ⟨rfl, hx⟩
    rw [ByteArray.extract_zero_size]
    exact ⟨Nat.le_refl _, fun _ => rfl, hx⟩
  · rintro ⟨-, hn, hx⟩
    obtain rfl := hn rfl
    rw [ByteArray.extract_zero_size] at hx
    exact ⟨rfl, hx⟩

theorem extract_zero_of_size {w : ByteArray} {n : Nat} (h : w.size = n) : w.extract 0 n = w := by
  rw [← h, ByteArray.extract_zero_size]

theorem vector_eq_iff {α : Type} {n : Nat} {xs : List α} (h : xs.toArray.size = n)
    {v : Vector α n} : (⟨xs.toArray, h⟩ : Vector α n) = v ↔ xs = v.toList := by
  constructor
  · rintro rfl
    rfl
  · intro heq
    apply Vector.toArray_inj.mp
    rw [toArray_eq_iff, heq]
    rfl

section Walkers

variable {α : Type} {R : α → ByteArray → Prop} {whole : Bool}
  {decode : ByteArray → Except SSZError (α × Nat)}

/-! ## Elements of fixed length -/

/-- An element that takes all its bytes stands for them. -/
theorem Decodes.chunk (hdec : Decodes R whole decode) {sz : Nat} {b : ByteArray} {off : Nat}
    (hoff : off ≤ b.size) {x : α} :
    decode (b.extract off (off + sz)) = .ok (x, sz) ↔
      off + sz ≤ b.size ∧ R x (b.extract off (off + sz)) := by
  have hext : off + sz ≤ b.size → (b.extract off (off + sz)).size = sz := by
    intro h
    rw [ByteArray.size_extract]
    omega
  rw [hdec]
  constructor
  · rintro ⟨hle, -, hx⟩
    have hroom : off + sz ≤ b.size := by
      rw [ByteArray.size_extract] at hle
      omega
    rw [extract_zero_of_size (hext hroom)] at hx
    exact ⟨hroom, hx⟩
  · rintro ⟨hroom, hx⟩
    rw [extract_zero_of_size (hext hroom)]
    exact ⟨Nat.le_of_eq (hext hroom).symm, fun _ => (hext hroom).symm, hx⟩

/-- What one step of the walker over elements of fixed length does. -/
theorem deserializeFixedElems_succ {k : Nat} {b : ByteArray} {off sz : Nat} {acc : List α}
    {accSz : Nat} {r : List α × Nat} :
    deserializeFixedElems decode (k + 1) b off sz acc accSz = .ok r ↔
      ∃ x, decode (b.extract off (off + sz)) = .ok (x, sz) ∧
        deserializeFixedElems decode k b (off + sz) sz (x :: acc) (accSz + sz) = .ok r := by
  rw [deserializeFixedElems]
  split
  next e he => simp [he]
  next x used hx =>
    split
    next hne =>
      refine iff_of_false (by simp) ?_
      rintro ⟨y, hy, -⟩
      rw [hx] at hy
      cases hy
      exact hne rfl
    next heq =>
      rw [not_not] at heq
      subst heq
      constructor
      · intro h
        exact ⟨x, hx, h⟩
      · rintro ⟨y, hy, h⟩
        rw [hx] at hy
        cases hy
        exact h

/-- The first word of a row of words of one length. -/
theorem rows_cons_iff {sz : Nat} (hsize : ∀ x w, R x w → w.size = sz) {x : α} {xs : List α}
    {b : ByteArray} {off stop : Nat} (hle : off + sz ≤ stop) (hstop : stop ≤ b.size) :
    Rows R (x :: xs) (b.extract off stop) ↔
      R x (b.extract off (off + sz)) ∧ Rows R xs (b.extract (off + sz) stop) := by
  have hsplit : b.extract off stop = b.extract off (off + sz) ++ b.extract (off + sz) stop :=
    ByteArray.extract_eq_extract_append_extract _ (by omega) hle
  constructor
  · rintro ⟨ws, hws, hcat⟩
    cases hws with
    | cons hx hxs =>
        rename_i w ws
        rw [hsplit, cat_cons] at hcat
        have hlen : (b.extract off (off + sz)).size = w.size := by
          rw [ByteArray.size_extract, hsize x w hx]
          omega
        have hw := ByteArray.append_inj_left hcat hlen
        rw [hw] at hcat ⊢
        exact ⟨hx, ws, hxs, (ByteArray.append_right_inj w).mp hcat⟩
  · rintro ⟨hx, ws, hws, hcat⟩
    exact ⟨_ :: ws, .cons hx hws, by rw [cat_cons, ← hcat, ← hsplit]⟩

theorem deserializeFixedElems_iff (hdec : Decodes R whole decode) {sz : Nat}
    (hsize : ∀ x w, R x w → w.size = sz) {b : ByteArray} {m : Nat} {ys : List α} :
    ∀ {k off : Nat} {acc : List α} {accSz : Nat}, off ≤ b.size →
    (deserializeFixedElems decode k b off sz acc accSz = .ok (ys, m) ↔
      ∃ xs, ys = acc.reverse ++ xs ∧ xs.length = k ∧ m = accSz + k * sz ∧
        off + k * sz ≤ b.size ∧ Rows R xs (b.extract off (off + k * sz))) := by
  intro k
  induction k with
  | zero =>
      intro off acc accSz hoff
      rw [deserializeFixedElems, ok_pair_iff]
      constructor
      · rintro ⟨rfl, rfl⟩
        refine ⟨[], by simp, rfl, by simp, by simpa using hoff, [], .nil, ?_⟩
        simp
      · rintro ⟨xs, rfl, hlen, rfl, -, -⟩
        rw [List.eq_nil_of_length_eq_zero hlen]
        simp
  | succ k ih =>
      intro off acc accSz hoff
      have hmul : (k + 1) * sz = sz + k * sz := by rw [Nat.succ_mul, Nat.add_comm]
      rw [deserializeFixedElems_succ, hmul, ← Nat.add_assoc, ← Nat.add_assoc]
      constructor
      · rintro ⟨x, hx, hrest⟩
        obtain ⟨hroom, hx⟩ := (hdec.chunk hoff).mp hx
        obtain ⟨xs, rfl, rfl, rfl, hend, hrows⟩ := (ih hroom).mp hrest
        refine ⟨x :: xs, by simp, rfl, rfl, hend, ?_⟩
        exact (rows_cons_iff hsize (by omega) hend).mpr ⟨hx, hrows⟩
      · rintro ⟨xs, rfl, hlen, rfl, hend, hrows⟩
        cases xs with
        | nil => cases hlen
        | cons x xs =>
            have hroom : off + sz ≤ b.size := by omega
            obtain ⟨hx, hrest⟩ := (rows_cons_iff hsize (by omega) hend).mp hrows
            refine ⟨x, (hdec.chunk hoff).mpr ⟨hroom, hx⟩, (ih hroom).mpr ?_⟩
            exact ⟨xs, by simp, Nat.succ.inj hlen, rfl, hend, hrest⟩

/-! ## Offsets -/

theorem size_uint32LE (x : UInt32) : (uint32LE x).size = bytesPerLengthOffset := rfl

@[simp] theorem size_table (os : List Nat) :
    (table os).size = bytesPerLengthOffset * os.length := by
  have hsizes : ∀ w ∈ os.map fun o => uint32LE o.toUInt32, w.size = bytesPerLengthOffset := by
    intro w hw
    obtain ⟨o, -, rfl⟩ := List.mem_map.mp hw
    exact size_uint32LE _
  rw [table, size_cat_of_sizes hsizes, List.length_map, Nat.mul_comm]

theorem toNat_toUInt32 {o : Nat} (h : o < 2 ^ 32) : o.toUInt32.toNat = o :=
  UInt32.toNat_ofNat_of_lt' h

/-- The offset that is read next, if it is there. -/
theorem readUInt32LE_eq_toUInt32_iff {b : ByteArray} {off o : Nat} :
    (∃ x, readUInt32LE b off = some x ∧ x.toNat = o) ↔
      o < 2 ^ 32 ∧ off + bytesPerLengthOffset ≤ b.size ∧
        b.extract off (off + bytesPerLengthOffset) = uint32LE o.toUInt32 := by
  constructor
  · rintro ⟨x, hx, rfl⟩
    rw [Nat.toUInt32, UInt32.ofNat_toNat]
    exact ⟨x.toNat_lt, readUInt32LE_iff.mp hx⟩
  · rintro ⟨ho, hread⟩
    exact ⟨o.toUInt32, readUInt32LE_iff.mpr hread, toNat_toUInt32 ho⟩

theorem extractCollOffsets_succ {b : ByteArray} {k off : Nat} {os : List Nat} :
    extractCollOffsets b (k + 1) off = .ok os ↔
      ∃ o os', os = o :: os' ∧ (∃ x, readUInt32LE b off = some x ∧ x.toNat = o) ∧
        extractCollOffsets b k (off + bytesPerLengthOffset) = .ok os' := by
  rw [extractCollOffsets]
  split
  next hnone => simp [hnone]
  next x hx =>
    split
    next rest hrest => simp [hx, hrest, eq_comm]
    next e he => simp [he]

theorem extractCollOffsets_iff {b : ByteArray} : ∀ {k off : Nat} {os : List Nat}, off ≤ b.size →
    (extractCollOffsets b k off = .ok os ↔ os.length = k ∧ (∀ o ∈ os, o < 2 ^ 32) ∧
      off + bytesPerLengthOffset * k ≤ b.size ∧
      b.extract off (off + bytesPerLengthOffset * k) = table os) := by
  intro k
  induction k with
  | zero =>
      intro off os hoff
      rw [extractCollOffsets]
      constructor
      · rintro h
        cases h
        exact ⟨rfl, by simp, by simpa using hoff, by simp [table]⟩
      · rintro ⟨hlen, -⟩
        rw [List.eq_nil_of_length_eq_zero hlen]
  | succ k ih =>
      intro off os hoff
      have hmul : off + bytesPerLengthOffset * (k + 1) =
          off + bytesPerLengthOffset + bytesPerLengthOffset * k := by
        rw [Nat.mul_succ, Nat.add_assoc, Nat.add_comm bytesPerLengthOffset]
      rw [extractCollOffsets_succ, hmul]
      constructor
      · rintro ⟨o, os', rfl, hread, hrest⟩
        obtain ⟨ho, hroom, hfirst⟩ := readUInt32LE_eq_toUInt32_iff.mp hread
        obtain ⟨rfl, hsmall, hend, htable⟩ := (ih hroom).mp hrest
        refine ⟨rfl, List.forall_mem_cons.mpr ⟨ho, hsmall⟩, hend, ?_⟩
        rw [ByteArray.extract_eq_extract_append_extract (off + bytesPerLengthOffset) (by omega)
          (by omega), hfirst, htable]
        rfl
      · rintro ⟨hlen, hsmall, hend, htable⟩
        cases os with
        | nil => cases hlen
        | cons o os =>
            obtain ⟨ho, hsmall⟩ := List.forall_mem_cons.mp hsmall
            have hroom : off + bytesPerLengthOffset ≤ b.size := by omega
            have hsplit : b.extract off (off + bytesPerLengthOffset) ++
                b.extract (off + bytesPerLengthOffset)
                  (off + bytesPerLengthOffset + bytesPerLengthOffset * k) =
                uint32LE o.toUInt32 ++ table os := by
              rw [← ByteArray.extract_eq_extract_append_extract _ (by omega) (by omega), htable]
              rfl
            have hlen' : (b.extract off (off + bytesPerLengthOffset)).size =
                (uint32LE o.toUInt32).size := by
              rw [ByteArray.size_extract, size_uint32LE]
              omega
            have hfirst := ByteArray.append_inj_left hsplit hlen'
            rw [hfirst] at hsplit
            exact ⟨o, os, rfl, readUInt32LE_eq_toUInt32_iff.mpr ⟨ho, hroom, hfirst⟩,
              (ih hroom).mpr ⟨Nat.succ.inj hlen, hsmall, hend,
                (ByteArray.append_right_inj _).mp hsplit⟩⟩

/-! ## Elements behind a table -/

/-- A decoder that takes all bytes answers what they stand for. -/
theorem Decodes.all (hdec : Decodes R true decode) {w : ByteArray} {x : α} :
    (∃ n, decode w = .ok (x, n)) ↔ R x w := by
  constructor
  · rintro ⟨n, hn⟩
    obtain ⟨-, hsize, hx⟩ := (hdec w x n).mp hn
    rwa [extract_zero_of_size (hsize rfl).symm] at hx
  · intro hx
    refine ⟨w.size, (hdec w x w.size).mpr ⟨Nat.le_refl _, fun _ => rfl, ?_⟩⟩
    rwa [ByteArray.extract_zero_size]

theorem deserializeVarElems_cons {o : Nat} {os : List Nat} {stop : Nat} {b : ByteArray}
    {ys : List α} :
    deserializeVarElems decode (o :: os) stop b = .ok ys ↔
      o ≤ next os stop ∧ next os stop ≤ stop ∧ ∃ x xs, ys = x :: xs ∧
        (∃ n, decode (b.extract o (next os stop)) = .ok (x, n)) ∧
        deserializeVarElems decode os stop b = .ok xs := by
  rw [deserializeVarElems, ← next]
  split
  next hbad =>
    simp only [Bool.or_eq_true, decide_eq_true_eq] at hbad
    refine iff_of_false (by simp) ?_
    rintro ⟨h1, h2, -⟩
    omega
  next hgood =>
    simp only [Bool.or_eq_true, decide_eq_true_eq, not_or, Nat.not_lt] at hgood
    rw [and_iff_right hgood.1, and_iff_right hgood.2]
    dsimp only
    cases hx : decode (b.extract o (next os stop)) with
    | error e => simp
    | ok p =>
        cases hxs : deserializeVarElems decode os stop b with
        | error e => simp
        | ok xs => simp [Prod.ext_iff, eq_comm]

theorem deserializeVarElems_iff (hdec : Decodes R true decode) {b : ByteArray} {stop : Nat} :
    ∀ {os : List Nat} {xs : List α}, deserializeVarElems decode os stop b = .ok xs ↔
      Climbs stop os ∧ List.Forall₂ R xs (slices b stop os) := by
  intro os
  induction os with
  | nil =>
      intro xs
      simp [deserializeVarElems, Climbs, slices, eq_comm]
  | cons o os ih =>
      intro xs
      rw [deserializeVarElems_cons, slices, Climbs, List.forall₂_cons_right_iff]
      simp only [ih, hdec.all]
      constructor
      · rintro ⟨h1, h2, x, xs, rfl, hx, hclimbs, hxs⟩
        exact ⟨⟨h1, h2, hclimbs⟩, x, xs, hx, hxs, rfl⟩
      · rintro ⟨⟨h1, h2, hclimbs⟩, x, xs, hx, hxs, rfl⟩
        exact ⟨h1, h2, x, xs, rfl, hx, hclimbs, hxs⟩

/-- Reading the table and then the elements finds what is laid out. -/
theorem laid_iff (hdec : Decodes R true decode) {b : ByteArray} {k o : Nat} {xs : List α} :
    (∃ os, extractCollOffsets b k 0 = .ok os ∧ deserializeVarElems decode os b.size b = .ok xs ∧
      next os b.size = o) ↔ xs.length = k ∧ ∃ ws, Laid R o xs b ws := by
  constructor
  · rintro ⟨os, hos, hxs, rfl⟩
    obtain ⟨rfl, hsmall, hroom, htable⟩ := (extractCollOffsets_iff (Nat.zero_le _)).mp hos
    obtain ⟨hclimbs, hwords⟩ := (deserializeVarElems_iff hdec).mp hxs
    obtain ⟨hstarts, hcat⟩ := starts_slices (Nat.le_refl b.size) hclimbs
    have hlen : xs.length = os.length := by
      rw [hwords.length_eq, ← length_starts (next os b.size), hstarts]
    rw [Nat.zero_add] at hroom htable
    refine ⟨hlen, slices b b.size os, hwords, ?_, ?_, ?_, hclimbs.next_le, hcat.symm⟩
    · rwa [hstarts]
    · rwa [hlen]
    · rwa [hlen, hstarts]
  · rintro ⟨rfl, ws, hlaid⟩
    obtain ⟨hclimbs, hslices⟩ := slices_starts (Nat.le_refl b.size) hlaid.bodies hlaid.first
    have hlen : (starts o ws).length = xs.length := by
      rw [length_starts, hlaid.words.length_eq]
    refine ⟨starts o ws, ?_, ?_, ?_⟩
    · rw [extractCollOffsets_iff (Nat.zero_le _), Nat.zero_add]
      exact ⟨hlen, hlaid.small, hlaid.room, hlaid.offsets⟩
    · exact (deserializeVarElems_iff hdec).mpr ⟨hclimbs, by rw [hslices]; exact hlaid.words⟩
    · have hsize := congrArg ByteArray.size hlaid.bodies
      have hfirst := hlaid.first
      rw [ByteArray.size_extract] at hsize
      have hend : b.size = o + (cat ws).size := by omega
      rw [hend, next_starts]

/-! ## Vectors and lists -/

theorem takesAll_of_var {t : SSZType} (h : t.isFixedSize = false) : t.takesAll = true := by
  cases t <;> simp_all [takesAll, isFixedSize]

/-- What an arm that checks the count of elements answers. -/
theorem ok_vector_iff {n m k : Nat} {xs : List α} {v : Vector α n} :
    (if h : xs.toArray.size = n then (.ok (⟨xs.toArray, h⟩, m) : Except SSZError (Vector α n × Nat))
      else .error .tooShort) = .ok (v, k) ↔ k = m ∧ xs = v.toList := by
  by_cases h : xs.toArray.size = n
  · rw [dif_pos h, ok_pair_iff, vector_eq_iff]
  · rw [dif_neg h]
    refine iff_of_false (by simp) ?_
    rintro ⟨-, rfl⟩
    exact h (by simp)

theorem ok_list_iff {cap m k : Nat} {xs : List α} {ys : { ys : Array α // ys.size ≤ cap }} :
    (if h : xs.toArray.size ≤ cap then
        (.ok (⟨xs.toArray, h⟩, m) : Except SSZError ({ ys : Array α // ys.size ≤ cap } × Nat))
      else .error .outOfRange) = .ok (ys, k) ↔ k = m ∧ xs = ys.val.toList := by
  by_cases h : xs.toArray.size ≤ cap
  · rw [dif_pos h, ok_pair_iff, Subtype.ext_iff, toArray_eq_iff, eq_comm (a := xs)]
  · rw [dif_neg h]
    refine iff_of_false (by simp) ?_
    rintro ⟨-, rfl⟩
    exact h (by simpa using ys.property)

theorem deserializeVector_fixed {t : SSZType} (hfix : t.isFixedSize = true) {n k : Nat}
    {b : ByteArray} {v : Vector α n} :
    deserializeVector t decode n b = .ok (v, k) ↔ n ≠ 0 ∧
      deserializeFixedElems decode n b 0 t.fixedByteSize [] 0 = .ok (v.toList, k) := by
  unfold deserializeVector
  rw [if_pos hfix]
  split
  next h => simp [h]
  next h =>
    rw [and_iff_right h]
    dsimp only
    split
    next e he => simp [he]
    next xs used hxs =>
      rw [ok_vector_iff, hxs, ok_pair_iff]

theorem deserializeVector_var {t : SSZType} (hvar : t.isFixedSize = false) {n k : Nat}
    {b : ByteArray} {v : Vector α n} :
    deserializeVector t decode n b = .ok (v, k) ↔ n ≠ 0 ∧ n * bytesPerLengthOffset ≤ b.size ∧
      k = b.size ∧ ∃ os, extractCollOffsets b n 0 = .ok os ∧
        deserializeVarElems decode os b.size b = .ok v.toList := by
  have hnot : ¬ t.isFixedSize = true := by simp [hvar]
  unfold deserializeVector
  rw [if_neg hnot]
  split
  next h => simp [h]
  next h =>
    rw [and_iff_right h]
    split
    next hshort =>
      refine iff_of_false (by simp) ?_
      rintro ⟨hroom, -⟩
      omega
    next hroom =>
      rw [and_iff_right (Nat.le_of_not_lt hroom)]
      split
      next e he => simp [he]
      next os hos =>
        split
        next e he => simp [hos, he]
        next xs hxs =>
          rw [ok_vector_iff]
          simp [hos, hxs]

theorem deserializeList_fixed {t : SSZType} (hfix : t.isFixedSize = true) {cap k : Nat}
    {b : ByteArray} {ys : { ys : Array α // ys.size ≤ cap }} :
    deserializeList t decode cap b = .ok (ys, k) ↔ t.fixedByteSize ≠ 0 ∧
      b.size / t.fixedByteSize ≤ cap ∧ b.size / t.fixedByteSize * t.fixedByteSize = b.size ∧
      deserializeFixedElems decode (b.size / t.fixedByteSize) b 0 t.fixedByteSize [] 0 =
        .ok (ys.val.toList, k) := by
  unfold deserializeList
  rw [if_pos hfix]
  dsimp only
  split
  next h => simp [h]
  next h =>
    rw [and_iff_right h]
    split
    next hover => simp [Nat.not_le.mpr hover]
    next hcap =>
      rw [and_iff_right (Nat.le_of_not_gt hcap)]
      split
      next hne => simp [hne]
      next heq =>
        rw [and_iff_right (not_not.mp heq)]
        split
        next e he => simp [he]
        next xs used hxs => rw [ok_list_iff, hxs, ok_pair_iff]

theorem deserializeProgressiveList_fixed {t : SSZType} (hfix : t.isFixedSize = true) {k : Nat}
    {b : ByteArray} {ys : Array α} :
    deserializeProgressiveList t decode b = .ok (ys, k) ↔ t.fixedByteSize ≠ 0 ∧
      b.size / t.fixedByteSize * t.fixedByteSize = b.size ∧
      deserializeFixedElems decode (b.size / t.fixedByteSize) b 0 t.fixedByteSize [] 0 =
        .ok (ys.toList, k) := by
  unfold deserializeProgressiveList
  rw [if_pos hfix]
  dsimp only
  split
  next h => simp [h]
  next h =>
    rw [and_iff_right h]
    split
    next hne => simp [hne]
    next heq =>
      rw [and_iff_right (not_not.mp heq)]
      split
      next e he => simp [he]
      next xs used hxs =>
        rw [ok_pair_iff, hxs, ok_pair_iff, toArray_eq_iff, eq_comm (a := ys.toList)]

/-- The count of elements is read off the first offset. -/
theorem count_iff {b : ByteArray} {x : UInt32} (hx : readUInt32LE b 0 = some x) {count : Nat} :
    (∃ y, readUInt32LE b 0 = some y ∧ y.toNat = bytesPerLengthOffset * count) ↔
      x.toNat % bytesPerLengthOffset = 0 ∧ x.toNat / bytesPerLengthOffset = count := by
  simp only [hx, Option.some.injEq, exists_eq_left']
  unfold bytesPerLengthOffset
  omega

theorem deserializeList_var {t : SSZType} (hvar : t.isFixedSize = false) {cap k : Nat}
    {b : ByteArray} {ys : { ys : Array α // ys.size ≤ cap }} :
    deserializeList t decode cap b = .ok (ys, k) ↔ k = b.size ∧
      (b.size = 0 ∧ ys.val.toList = [] ∨ b.size ≠ 0 ∧ ∃ count,
        (∃ x, readUInt32LE b 0 = some x ∧ x.toNat = bytesPerLengthOffset * count) ∧
        count ≤ cap ∧ ∃ os, extractCollOffsets b count 0 = .ok os ∧
          deserializeVarElems decode os b.size b = .ok ys.val.toList) := by
  have hnot : ¬ t.isFixedSize = true := by simp [hvar]
  unfold deserializeList
  rw [if_neg hnot]
  split
  next h =>
    rw [ok_pair_iff, Subtype.ext_iff, h]
    simp [eq_comm]
  next h =>
    split
    next hnone => simp [h, hnone]
    next x hx =>
      simp only [count_iff hx, h, false_and, false_or, and_assoc, exists_and_left,
        exists_eq_left', ne_eq, not_false_eq_true, true_and]
      split
      next hmod => simp [hmod]
      next hmod =>
        rw [and_iff_right (not_not.mp hmod)]
        split
        next hover => simp [Nat.not_le.mpr hover]
        next hcap =>
          rw [and_iff_right (Nat.le_of_not_gt hcap)]
          split
          next e he => simp [he]
          next os hos =>
            split
            next e he => simp [hos, he]
            next xs hxs =>
              rw [ok_list_iff]
              simp [hos, hxs]

theorem deserializeProgressiveList_var {t : SSZType} (hvar : t.isFixedSize = false) {k : Nat}
    {b : ByteArray} {ys : Array α} :
    deserializeProgressiveList t decode b = .ok (ys, k) ↔ k = b.size ∧
      (b.size = 0 ∧ ys.toList = [] ∨ b.size ≠ 0 ∧ ∃ count,
        (∃ x, readUInt32LE b 0 = some x ∧ x.toNat = bytesPerLengthOffset * count) ∧
        (count ≠ 0 ∧ ys.toList.length = count) ∧ ∃ os, extractCollOffsets b count 0 = .ok os ∧
          deserializeVarElems decode os b.size b = .ok ys.toList) := by
  have hnot : ¬ t.isFixedSize = true := by simp [hvar]
  unfold deserializeProgressiveList
  rw [if_neg hnot]
  split
  next h =>
    rw [ok_pair_iff, h]
    simp [eq_comm]
  next h =>
    split
    next hnone => simp [h, hnone]
    next x hx =>
      simp only [count_iff hx, h, false_and, false_or, and_assoc, exists_and_left,
        exists_eq_left', ne_eq, not_false_eq_true, true_and]
      split
      next hbad =>
        refine iff_of_false (by simp) ?_
        rintro ⟨-, hmod, hzero, -⟩
        simp only [Bool.or_eq_true, decide_eq_true_eq] at hbad
        rcases hbad with hfirst | hodd
        · exact hzero (by rw [hfirst, Nat.zero_div])
        · exact hodd hmod
      next hgood =>
        simp only [Bool.or_eq_true, decide_eq_true_eq, not_or, not_not] at hgood
        have hzero : x.toNat / bytesPerLengthOffset ≠ 0 := by
          unfold bytesPerLengthOffset at hgood ⊢
          omega
        rw [and_iff_right hgood.2, and_iff_right hzero]
        split
        next e he => simp [he]
        next os hos =>
          split
          next e he => simp [hos, he]
          next xs hxs =>
            split
            next hlen =>
              refine iff_of_false (by simp) ?_
              rintro ⟨-, hcount, os', hos', hys⟩
              rw [hos] at hos'
              cases hos'
              rw [hxs] at hys
              cases hys
              exact hlen hcount
            next hlen =>
              rw [ok_pair_iff, toArray_eq_iff]
              simp only [hos, hxs, Except.ok.injEq, exists_eq_left']
              constructor
              · rintro ⟨rfl, rfl⟩
                exact ⟨rfl, not_not.mp hlen, rfl⟩
              · rintro ⟨rfl, -, rfl⟩
                exact ⟨rfl, rfl⟩

/-! ## What the bytes of a list are -/

/-- The first word of a table that is not empty begins where its first offset says. -/
theorem next_eq_iff {b : ByteArray} {count stop v : Nat} {os : List Nat} (hcount : count ≠ 0)
    (hos : extractCollOffsets b count 0 = .ok os) :
    next os stop = v ↔ ∃ x, readUInt32LE b 0 = some x ∧ x.toNat = v := by
  obtain ⟨k, rfl⟩ := Nat.exists_eq_succ_of_ne_zero hcount
  obtain ⟨o, os', rfl, ⟨x, hx, rfl⟩, -⟩ := extractCollOffsets_succ.mp hos
  simp [hx]

/-- The first offset of a list that is not empty says how long its table is. -/
theorem laid_count_iff (hdec : Decodes R true decode) {b : ByteArray} {xs : List α}
    (hne : xs ≠ []) {C : Nat → Prop} (hC : C xs.length) :
    (∃ count, (∃ x, readUInt32LE b 0 = some x ∧ x.toNat = bytesPerLengthOffset * count) ∧
      C count ∧ ∃ os, extractCollOffsets b count 0 = .ok os ∧
        deserializeVarElems decode os b.size b = .ok xs) ↔
    ∃ ws, Laid R (bytesPerLengthOffset * xs.length) xs b ws := by
  have hlen : xs.length ≠ 0 := fun h => hne (List.eq_nil_of_length_eq_zero h)
  constructor
  · rintro ⟨count, hread, -, os, hos, hxs⟩
    obtain ⟨rfl, hlaid⟩ := (laid_iff hdec).mp ⟨os, hos, hxs, rfl⟩
    rwa [(next_eq_iff hlen hos).mpr hread] at hlaid
  · intro hlaid
    obtain ⟨os, hos, hxs, hnext⟩ := (laid_iff hdec).mpr ⟨rfl, hlaid⟩
    exact ⟨xs.length, (next_eq_iff hlen hos).mp hnext, hC, os, hos, hxs⟩

/-- An empty list is also a string that begins with an offset of zero. -/
theorem laid_zero_iff (hdec : Decodes R true decode) {b : ByteArray} {C : Nat → Prop}
    (hC : C 0) :
    (∃ count, (∃ x, readUInt32LE b 0 = some x ∧ x.toNat = bytesPerLengthOffset * count) ∧
      C count ∧ ∃ os, extractCollOffsets b count 0 = .ok os ∧
        deserializeVarElems decode os b.size b = .ok []) ↔
    4 ≤ b.size ∧ b.extract 0 4 = uint32LE 0 := by
  have hzero : (∃ x, readUInt32LE b 0 = some x ∧ x.toNat = 0) ↔ _ := readUInt32LE_eq_toUInt32_iff
  constructor
  · rintro ⟨count, hread, -, os, hos, hxs⟩
    obtain ⟨hcount, -⟩ := (laid_iff hdec).mp ⟨os, hos, hxs, rfl⟩
    rw [List.length_nil] at hcount
    subst hcount
    exact (hzero.mp hread).2
  · intro h
    exact ⟨0, hzero.mpr ⟨by decide, h⟩, hC, [], rfl, rfl⟩

end Walkers

/-! ## The arms over a decoder of the elements -/

section Arms

variable {t : SSZType} {decode : ByteArray → Except SSZError (t.interp × Nat)}

/-- Elements of one length, as many as the bytes hold. -/
theorem fixedElems_all_iff (hdec : Decodes (Wire .decoder t) t.takesAll decode)
    (hfix : t.isFixedSize = true) {b : ByteArray} {k m : Nat} {xs : List t.interp} :
    deserializeFixedElems decode k b 0 t.fixedByteSize [] 0 = .ok (xs, m) ↔
      xs.length = k ∧ m ≤ b.size ∧ Rows (Wire .decoder t) xs (b.extract 0 m) := by
  have hsize : ∀ x w, Wire .decoder t x w → w.size = t.fixedByteSize :=
    fun x w => size_of_wire t hfix
  rw [deserializeFixedElems_iff hdec hsize (Nat.zero_le _)]
  simp only [List.reverse_nil, List.nil_append, Nat.zero_add, exists_eq_left']
  constructor
  · rintro ⟨rfl, rfl, hroom, hrows⟩
    exact ⟨rfl, hroom, hrows⟩
  · rintro ⟨rfl, hroom, hrows⟩
    have hm : m = xs.length * t.fixedByteSize := by
      rw [← hrows.size hsize, ByteArray.size_extract]
      omega
    rw [← hm]
    exact ⟨rfl, rfl, hroom, hrows⟩

/-- A row of words of one length fills a string if it has as many of them as fit. -/
theorem rows_fill_iff (hfix : t.isFixedSize = true) (hpos : t.fixedByteSize ≠ 0) {b : ByteArray}
    {m : Nat} {xs : List t.interp} :
    (b.size / t.fixedByteSize * t.fixedByteSize = b.size ∧ xs.length = b.size / t.fixedByteSize ∧
      m ≤ b.size ∧ Rows (Wire .decoder t) xs (b.extract 0 m)) ↔
    m = b.size ∧ Rows (Wire .decoder t) xs b := by
  have hsize : ∀ x w, Wire .decoder t x w → w.size = t.fixedByteSize :=
    fun x w => size_of_wire t hfix
  constructor
  · rintro ⟨hfill, hlen, hroom, hrows⟩
    have hm : m = b.size := by
      rw [← hfill, ← hlen, ← hrows.size hsize, ByteArray.size_extract]
      omega
    rw [extract_zero_of_size hm.symm] at hrows
    exact ⟨hm, hrows⟩
  · rintro ⟨rfl, hrows⟩
    have hb := hrows.size hsize
    rw [extract_zero_of_size rfl, hb, Nat.mul_div_cancel _ (Nat.pos_of_ne_zero hpos)]
    exact ⟨rfl, rfl, Nat.le_refl _, hrows⟩

theorem vector_decodes (hdec : Decodes (Wire .decoder t) t.takesAll decode) (n : Nat) :
    Decodes (Wire .decoder (.vector t n)) (!t.isFixedSize) (deserializeVector t decode n) := by
  intro b v m
  rw [Wire]
  cases hfix : t.isFixedSize with
  | true =>
      rw [deserializeVector_fixed hfix, fixedElems_all_iff hdec hfix]
      simp [and_left_comm]
  | false =>
      rw [takesAll_of_var hfix] at hdec
      rw [deserializeVector_var hfix]
      simp only [Bool.not_false, if_neg Bool.false_ne_true, true_implies]
      constructor
      · rintro ⟨hn, hroom, rfl, os, hos, hxs⟩
        obtain ⟨hlen, hlaid⟩ := (laid_iff hdec).mp ⟨os, hos, hxs, rfl⟩
        rw [ByteArray.extract_zero_size]
        obtain ⟨ws, hlaid⟩ := hlaid
        exact ⟨Nat.le_refl _, rfl, hn, _, ws, .inl rfl, hlaid⟩
      · rintro ⟨-, rfl, hn, o, ws, -, hlaid⟩
        rw [ByteArray.extract_zero_size] at hlaid
        have hroom := hlaid.room
        rw [Vector.length_toList, Nat.mul_comm] at hroom
        obtain ⟨os, hos, hxs, -⟩ := (laid_iff hdec).mpr ⟨Vector.length_toList, ws, hlaid⟩
        exact ⟨hn, hroom, rfl, os, hos, hxs⟩

/-- A list with elements has a table, so it is no empty string. -/
theorem nonempty_laid_iff {b : ByteArray} {xs : List t.interp} (hne : xs ≠ []) {o : Nat} :
    (b.size = 0 ∧ xs = [] ∨ b.size ≠ 0 ∧ ∃ ws, Laid (Wire .decoder t) o xs b ws) ↔
      ∃ ws, Laid (Wire .decoder t) o xs b ws := by
  rw [or_iff_right fun h => hne h.2, and_iff_right_iff_imp]
  rintro ⟨ws, hlaid⟩ hzero
  have hroom := hlaid.room
  have hlen : xs.length ≠ 0 := fun h => hne (List.eq_nil_of_length_eq_zero h)
  unfold bytesPerLengthOffset at hroom
  omega

theorem list_decodes (hdec : Decodes (Wire .decoder t) t.takesAll decode) (cap : Nat) :
    Decodes (Wire .decoder (.list t cap)) true (deserializeList t decode cap) := by
  refine .of_all fun b ys m => ?_
  have hcap : ys.val.toList.length ≤ cap := by simpa using ys.property
  rw [Wire]
  cases hfix : t.isFixedSize with
  | true =>
      rw [deserializeList_fixed hfix, fixedElems_all_iff hdec hfix]
      simp only [if_true]
      constructor
      · rintro ⟨hpos, -, h⟩
        obtain ⟨hm, hrows⟩ := (rows_fill_iff hfix hpos).mp h
        exact ⟨hm, hpos, hrows⟩
      · rintro ⟨hm, hpos, hrows⟩
        obtain ⟨hfill, hlen, h⟩ := (rows_fill_iff hfix hpos).mpr ⟨hm, hrows⟩
        exact ⟨hpos, hlen ▸ hcap, hfill, hlen, h⟩
  | false =>
      rw [takesAll_of_var hfix] at hdec
      rw [deserializeList_var hfix]
      simp only [if_neg Bool.false_ne_true]
      refine and_congr_right fun _ => ?_
      split
      next hnil =>
        have hzero := laid_zero_iff (b := b) hdec (C := fun count => count ≤ cap) (Nat.zero_le cap)
        rw [hnil, hzero, ← ByteArray.size_eq_zero_iff]
        constructor
        · rintro (⟨h, -⟩ | ⟨-, h⟩)
          · exact .inl h
          · exact .inr ⟨rfl, h⟩
        · rintro (h | ⟨-, h⟩)
          · exact .inl ⟨h, rfl⟩
          · exact .inr ⟨by omega, h⟩
      next hne =>
        rw [laid_count_iff hdec hne hcap]
        exact nonempty_laid_iff hne

theorem progressiveList_decodes (hdec : Decodes (Wire .decoder t) t.takesAll decode) :
    Decodes (Wire .decoder (.progressiveList t)) true (deserializeProgressiveList t decode) := by
  refine .of_all fun b ys m => ?_
  rw [Wire]
  cases hfix : t.isFixedSize with
  | true =>
      rw [deserializeProgressiveList_fixed hfix, fixedElems_all_iff hdec hfix]
      simp only [if_true]
      constructor
      · rintro ⟨hpos, h⟩
        obtain ⟨hm, hrows⟩ := (rows_fill_iff hfix hpos).mp h
        exact ⟨hm, hpos, hrows⟩
      · rintro ⟨hm, hpos, hrows⟩
        exact ⟨hpos, (rows_fill_iff hfix hpos).mpr ⟨hm, hrows⟩⟩
  | false =>
      rw [takesAll_of_var hfix] at hdec
      rw [deserializeProgressiveList_var hfix]
      simp only [if_neg Bool.false_ne_true]
      refine and_congr_right fun _ => ?_
      split
      next hnil =>
        rw [hnil, ← ByteArray.size_eq_zero_iff]
        constructor
        · rintro (⟨h, -⟩ | ⟨-, count, -, ⟨hcount, hlen⟩, -⟩)
          · exact h
          · exact absurd hlen.symm hcount
        · intro h
          exact .inl ⟨h, rfl⟩
      next hne =>
        have hlen : ys.toList.length ≠ 0 := fun h => hne (List.eq_nil_of_length_eq_zero h)
        have hcount := laid_count_iff (b := b) hdec hne
          (C := fun count => count ≠ 0 ∧ ys.toList.length = count) ⟨hlen, rfl⟩
        rw [hcount]
        exact nonempty_laid_iff hne

end Arms

/-! ## Fields -/

theorem size_fix_of_wireFields : ∀ (fs : List SSZType) {vs : interpFields fs} {o : Nat}
    {fix var : ByteArray}, WireFields .decoder fs vs o fix var →
    fix.size = fixedSectionSizeFields fs := by
  intro fs
  induction fs with
  | nil =>
      intro vs o fix var h
      rw [WireFields] at h
      rw [h.1]
      rfl
  | cons t ts ih =>
      intro vs o fix var h
      rw [WireFields] at h
      obtain ⟨w, hw, h⟩ := h
      rw [fixedSectionSizeFields, fixedSectionSize]
      split at h
      next hfix =>
        obtain ⟨fix', rfl, hrest⟩ := h
        rw [ByteArray.size_append, size_of_wire t hfix hw, ih hrest, if_pos hfix]
      next hvar =>
        obtain ⟨fix', var', -, rfl, -, hrest⟩ := h
        rw [ByteArray.size_append, size_uint32LE, ih hrest, if_neg hvar]

theorem extractFieldOffsets_var {t : SSZType} (hvar : ¬ t.isFixedSize = true) {ts : List SSZType}
    {b : ByteArray} {off : Nat} {os : List Nat} :
    extractFieldOffsets b (t :: ts) off = .ok os ↔
      ∃ o os', os = o :: os' ∧ (∃ x, readUInt32LE b off = some x ∧ x.toNat = o) ∧
        extractFieldOffsets b ts (off + bytesPerLengthOffset) = .ok os' := by
  rw [extractFieldOffsets, if_neg hvar]
  split
  next hnone => simp [hnone]
  next x hx =>
    split
    next rest hrest => simp [hx, hrest, eq_comm]
    next e he => simp [he]

/-- Some field has an offset when some field is of no fixed length. -/
theorem extractFieldOffsets_ne_nil {b : ByteArray} : ∀ {fs : List SSZType} {off : Nat}
    {os : List Nat}, allFixedSize fs = false → extractFieldOffsets b fs off = .ok os → os ≠ [] := by
  intro fs
  induction fs with
  | nil =>
      intro off os h
      simp [allFixedSize] at h
  | cons t ts ih =>
      intro off os h hos
      rw [allFixedSize, Bool.and_eq_false_iff] at h
      by_cases hfix : t.isFixedSize = true
      · rw [extractFieldOffsets, if_pos hfix] at hos
        exact ih (h.resolve_left (by simp [hfix])) hos
      · obtain ⟨o, os', rfl, -⟩ := (extractFieldOffsets_var hfix).mp hos
        simp

/-- Splitting a section of a buffer at the end of its first part. -/
theorem extract_append_iff {b u v : ByteArray} {off stop : Nat} (hle : off + u.size ≤ stop)
    (hstop : stop ≤ b.size) :
    b.extract off stop = u ++ v ↔
      b.extract off (off + u.size) = u ∧ b.extract (off + u.size) stop = v := by
  rw [ByteArray.extract_eq_extract_append_extract (i := off) (off + u.size) (by omega) hle]
  constructor
  · intro h
    have hu : b.extract off (off + u.size) = u := by
      refine ByteArray.append_inj_left h ?_
      rw [ByteArray.size_extract]
      omega
    rw [hu] at h
    exact ⟨hu, (ByteArray.append_right_inj u).mp h⟩
  · rintro ⟨hu, rfl⟩
    rw [hu]

/-- The offsets that the fields were written with are found again. -/
theorem extractFieldOffsets_of_wire {b : ByteArray} : ∀ {fs : List SSZType} {vs : interpFields fs}
    {o p : Nat} {var : ByteArray}, p + fixedSectionSizeFields fs ≤ b.size →
    WireFields .decoder fs vs o (b.extract p (p + fixedSectionSizeFields fs)) var →
    ∃ os, extractFieldOffsets b fs p = .ok os ∧ next os (o + var.size) = o := by
  intro fs
  induction fs with
  | nil =>
      intro vs o p var _ h
      rw [WireFields] at h
      refine ⟨[], rfl, ?_⟩
      rw [h.2]
      rfl
  | cons t ts ih =>
      intro vs o p var hroom h
      rw [WireFields] at h
      obtain ⟨w, hw, h⟩ := h
      rw [fixedSectionSizeFields, fixedSectionSize] at hroom h
      split at h
      next hfix =>
        obtain ⟨fix', heq, hrest⟩ := h
        rw [if_pos hfix, ← size_of_wire t hfix hw] at hroom
        rw [← size_of_wire t hfix hw] at heq
        obtain ⟨-, rfl⟩ := (extract_append_iff (by omega) (by omega)).mp heq
        rw [← Nat.add_assoc] at hroom hrest
        obtain ⟨os, hos, hnext⟩ := ih hroom hrest
        refine ⟨os, ?_, hnext⟩
        rw [extractFieldOffsets, if_pos hfix, ← size_of_wire t hfix hw, hos]
      next hvar =>
        obtain ⟨fix', var', ho, heq, rfl, hrest⟩ := h
        rw [if_neg hvar, ← size_uint32LE o.toUInt32] at hroom
        rw [← size_uint32LE o.toUInt32] at heq
        obtain ⟨hfirst, rfl⟩ := (extract_append_iff (by omega) (by omega)).mp heq
        rw [size_uint32LE] at hroom hfirst hrest
        rw [← Nat.add_assoc] at hroom hrest
        obtain ⟨os, hos, -⟩ := ih hroom hrest
        refine ⟨o :: os, (extractFieldOffsets_var hvar).mpr ⟨o, os, rfl, ?_, hos⟩, rfl⟩
        exact readUInt32LE_eq_toUInt32_iff.mpr ⟨ho, by omega, hfirst⟩

theorem deserializeFixedFields_cons {t : SSZType} {ts : List SSZType} {b : ByteArray} {off m : Nat}
    {vs : interpFields (t :: ts)} :
    deserializeFixedFields (t :: ts) b off = .ok (vs, m) ↔
      deserialize t (b.extract off (off + t.fixedByteSize)) = .ok (vs.1, t.fixedByteSize) ∧
      ∃ m', m = t.fixedByteSize + m' ∧
        deserializeFixedFields ts b (off + t.fixedByteSize) = .ok (vs.2, m') := by
  rw [deserializeFixedFields]
  split
  next e he => simp [he]
  next x used hx =>
    split
    next hne =>
      refine iff_of_false (by simp) ?_
      rintro ⟨h, -⟩
      rw [hx] at h
      cases h
      exact hne rfl
    next heq =>
      obtain rfl := not_not.mp heq
      split
      next e he => simp [he]
      next rest total hrest =>
        rw [ok_pair_iff, hx, ok_pair_iff, hrest]
        simp only [ok_pair_iff, true_and]
        constructor
        · rintro ⟨rfl, rfl⟩
          exact ⟨rfl, total, rfl, rfl, rfl⟩
        · rintro ⟨hhead, m', rfl, rfl, htail⟩
          exact ⟨rfl, Prod.ext hhead htail⟩

theorem deserializeVarFields_fixed {t : SSZType} (hfix : t.isFixedSize = true) {ts : List SSZType}
    {b : ByteArray} {p stop : Nat} {os : List Nat} {vs : interpFields (t :: ts)} :
    deserializeVarFields (t :: ts) b p os stop = .ok vs ↔
      deserialize t (b.extract p (p + t.fixedByteSize)) = .ok (vs.1, t.fixedByteSize) ∧
        deserializeVarFields ts b (p + t.fixedByteSize) os stop = .ok vs.2 := by
  rw [deserializeVarFields.eq_def]
  dsimp only
  rw [if_pos hfix]
  split
  next e he => simp [he]
  next x used hx =>
    split
    next hne =>
      refine iff_of_false (by simp) ?_
      rintro ⟨h, -⟩
      rw [hx] at h
      cases h
      exact hne rfl
    next heq =>
      obtain rfl := not_not.mp heq
      split
      next e he => simp [he]
      next rest hrest =>
        rw [hx, ok_pair_iff, hrest]
        simp [Prod.ext_iff]

theorem deserializeVarFields_var {t : SSZType} (hvar : ¬ t.isFixedSize = true) {ts : List SSZType}
    {b : ByteArray} {p stop o : Nat} {os : List Nat} {vs : interpFields (t :: ts)} :
    deserializeVarFields (t :: ts) b p (o :: os) stop = .ok vs ↔
      o ≤ next os stop ∧ next os stop ≤ stop ∧
        (∃ n, deserialize t (b.extract o (next os stop)) = .ok (vs.1, n)) ∧
        deserializeVarFields ts b (p + bytesPerLengthOffset) os stop = .ok vs.2 := by
  rw [deserializeVarFields, if_neg hvar]
  dsimp only
  rw [← next]
  split
  next hbad =>
    simp only [Bool.or_eq_true, decide_eq_true_eq] at hbad
    refine iff_of_false (by simp) ?_
    rintro ⟨h1, h2, -⟩
    omega
  next hgood =>
    simp only [Bool.or_eq_true, decide_eq_true_eq, not_or, Nat.not_lt] at hgood
    rw [and_iff_right hgood.1, and_iff_right hgood.2]
    cases hx : deserialize t (b.extract o (next os stop)) with
    | error e => simp
    | ok q =>
        cases hrest : deserializeVarFields ts b (p + bytesPerLengthOffset) os stop with
        | error e => simp
        | ok rest => simp [Prod.ext_iff]

/-- The walker over fields of fixed length answers what their words stand for. -/
def FixedFieldsDecode (fs : List SSZType) : Prop :=
  ∀ {b : ByteArray} {off o m : Nat} {vs : interpFields fs}, allFixedSize fs = true →
    off ≤ b.size → (deserializeFixedFields fs b off = .ok (vs, m) ↔
      off + m ≤ b.size ∧ WireFields .decoder fs vs o (b.extract off (off + m)) .empty)

/-- The walker over all fields answers what their words stand for, from the section at `p` and
the offsets that stand in it. -/
def VarFieldsDecode (fs : List SSZType) : Prop :=
  ∀ {b : ByteArray} {p : Nat} {os : List Nat} {vs : interpFields fs},
    extractFieldOffsets b fs p = .ok os → p + fixedSectionSizeFields fs ≤ b.size →
    (deserializeVarFields fs b p os b.size = .ok vs ↔ next os b.size ≤ b.size ∧
      WireFields .decoder fs vs (next os b.size) (b.extract p (p + fixedSectionSizeFields fs))
        (b.extract (next os b.size) b.size))

theorem fixedFieldsDecode_nil : FixedFieldsDecode [] := by
  intro b off o m vs _ hoff
  rw [deserializeFixedFields, WireFields, ok_pair_iff]
  constructor
  · rintro ⟨rfl, -⟩
    exact ⟨hoff, ByteArray.extract_same, rfl⟩
  · rintro ⟨hroom, h, -⟩
    have := congrArg ByteArray.size h
    rw [ByteArray.size_extract, ByteArray.size_empty] at this
    exact ⟨by omega, rfl⟩

theorem fixedFieldsDecode_cons {t : SSZType} {ts : List SSZType}
    (hdec : Decodes (Wire .decoder t) t.takesAll (deserialize t)) (hrest : FixedFieldsDecode ts) :
    FixedFieldsDecode (t :: ts) := by
  intro b off o m vs hall hoff
  rw [allFixedSize, Bool.and_eq_true] at hall
  rw [deserializeFixedFields_cons, hdec.chunk hoff, WireFields]
  simp only [if_pos hall.1]
  constructor
  · rintro ⟨⟨hroom, hx⟩, m', rfl, h⟩
    obtain ⟨hend, hfields⟩ := (hrest (o := o) hall.2 hroom).mp h
    rw [← Nat.add_assoc]
    refine ⟨hend, _, hx, _, ?_, hfields⟩
    exact ByteArray.extract_eq_extract_append_extract _ (by omega) (by omega)
  · rintro ⟨hend, w, hw, fix', heq, hfields⟩
    have hsize := size_of_wire t hall.1 hw
    have hm : m = t.fixedByteSize + fix'.size := by
      have := congrArg ByteArray.size heq
      rw [ByteArray.size_extract, ByteArray.size_append] at this
      omega
    subst hm
    rw [← Nat.add_assoc] at hend heq
    rw [← hsize] at hend heq ⊢
    obtain ⟨hfirst, hsecond⟩ := (extract_append_iff (by omega) hend).mp heq
    refine ⟨⟨by omega, by rwa [hfirst]⟩, fix'.size, rfl, ?_⟩
    refine (hrest (o := o) hall.2 (by omega)).mpr ⟨hend, ?_⟩
    rwa [hsecond]

theorem varFieldsDecode_nil : VarFieldsDecode [] := by
  intro b p os vs hos _
  cases hos
  rw [deserializeVarFields, WireFields]
  simp [fixedSectionSizeFields]

theorem varFieldsDecode_cons {t : SSZType} {ts : List SSZType}
    (hdec : Decodes (Wire .decoder t) t.takesAll (deserialize t)) (hrest : VarFieldsDecode ts) :
    VarFieldsDecode (t :: ts) := by
  intro b p os vs hos hroom
  rw [fixedSectionSizeFields, fixedSectionSize] at hroom ⊢
  rw [WireFields]
  by_cases hfix : t.isFixedSize = true
  · rw [extractFieldOffsets, if_pos hfix] at hos
    rw [if_pos hfix, ← Nat.add_assoc] at hroom
    rw [deserializeVarFields_fixed hfix, hdec.chunk (by omega), hrest hos hroom]
    simp only [if_pos hfix, ← Nat.add_assoc]
    constructor
    · rintro ⟨⟨-, hx⟩, hnext, hfields⟩
      refine ⟨hnext, _, hx, _, ?_, hfields⟩
      exact ByteArray.extract_eq_extract_append_extract _ (by omega) (by omega)
    · rintro ⟨hnext, w, hw, fix', heq, hfields⟩
      rw [← size_of_wire t hfix hw] at heq hroom ⊢
      obtain ⟨hfirst, hsecond⟩ := (extract_append_iff (by omega) hroom).mp heq
      rw [hfirst, hsecond]
      exact ⟨⟨by omega, hw⟩, hnext, hfields⟩
  · obtain ⟨o, os', rfl, hread, hos'⟩ := (extractFieldOffsets_var hfix).mp hos
    rw [if_neg hfix, ← Nat.add_assoc] at hroom
    rw [takesAll_of_var (by simpa using hfix)] at hdec
    rw [deserializeVarFields_var hfix, hdec.all, hrest hos' hroom]
    simp only [if_neg hfix, ← Nat.add_assoc, next_cons]
    obtain ⟨ho, hplace, hfirst⟩ := readUInt32LE_eq_toUInt32_iff.mp hread
    constructor
    · rintro ⟨hle, hnext, hx, -, hfields⟩
      refine ⟨by omega, _, hx,
        b.extract (p + bytesPerLengthOffset) (p + bytesPerLengthOffset + fixedSectionSizeFields ts),
        b.extract (next os' b.size) b.size, ho, ?_, ?_, ?_⟩
      · rw [← hfirst]
        exact ByteArray.extract_eq_extract_append_extract _ (by omega) (by omega)
      · exact ByteArray.extract_eq_extract_append_extract _ hle hnext
      · have hsize : o + (b.extract o (next os' b.size)).size = next os' b.size := by
          rw [ByteArray.size_extract]
          omega
        rwa [hsize]
    · rintro ⟨hle, w, hw, fix', var', -, heq, hvar, hfields⟩
      rw [← size_uint32LE o.toUInt32] at heq hroom
      obtain ⟨-, rfl⟩ := (extract_append_iff (by omega) hroom).mp heq
      rw [size_uint32LE] at hroom hfields
      have hend : b.size = o + w.size + var'.size := by
        have := congrArg ByteArray.size hvar
        rw [ByteArray.size_extract, ByteArray.size_append] at this
        omega
      -- The next offset stands where the word ends.
      have hnext : next os' b.size = o + w.size := by
        obtain ⟨os'', hos'', hnext⟩ := extractFieldOffsets_of_wire hroom hfields
        rw [hos'] at hos''
        cases hos''
        rwa [hend]
      obtain ⟨hfirst, rfl⟩ := (extract_append_iff (by omega) (Nat.le_refl _)).mp hvar
      rw [hnext, hfirst]
      exact ⟨by omega, by omega, hw, by omega, hfields⟩

theorem deserializeContainer_var {α : Type} {fs : List SSZType} (hall : allFixedSize fs = false)
    {b : ByteArray} {fixedFields : Nat → Except SSZError (α × Nat)}
    {varFields : Nat → List Nat → Nat → Except SSZError α} {x : α} {m : Nat} :
    deserializeContainer fs b fixedFields varFields = .ok (x, m) ↔
      m = b.size ∧ fixedSectionSizeFields fs ≤ b.size ∧ ∃ os, extractFieldOffsets b fs 0 = .ok os ∧
        next os b.size = fixedSectionSizeFields fs ∧ varFields 0 os b.size = .ok x := by
  rw [deserializeContainer, if_neg (by simp [hall])]
  dsimp only
  by_cases hroom : b.size < fixedSectionSizeFields fs
  · rw [if_pos hroom]
    refine iff_of_false (by simp) ?_
    rintro ⟨-, hle, -⟩
    omega
  · rw [if_neg hroom, and_iff_right (Nat.le_of_not_lt hroom)]
    split
    next e he => simp [he]
    next os hos =>
      simp only [hos, Except.ok.injEq, exists_eq_left']
      cases os with
      | nil => exact absurd rfl (extractFieldOffsets_ne_nil hall hos)
      | cons o os =>
          rw [List.head?_cons, next_cons]
          dsimp only
          split
          next hne => simp [hne]
          next heq =>
            rw [and_iff_right (not_not.mp heq)]
            split
            next e he => simp [he]
            next v hv => rw [ok_pair_iff, hv, Except.ok.injEq]

theorem container_decodes {fs : List SSZType} (hfixed : FixedFieldsDecode fs)
    (hvar : VarFieldsDecode fs) :
    Decodes (fun vs w => ∃ fix var, WireFields .decoder fs vs (fixedSectionSizeFields fs) fix var ∧
        w = fix ++ var)
      (!allFixedSize fs)
      (fun b => deserializeContainer fs b (deserializeFixedFields fs b)
        (deserializeVarFields fs b)) := by
  cases hall : allFixedSize fs with
  | true =>
      intro b vs m
      beta_reduce
      rw [deserializeContainer, if_pos hall,
        hfixed (o := fixedSectionSizeFields fs) hall (Nat.zero_le _), Nat.zero_add]
      refine and_congr_right fun hroom => ?_
      rw [and_iff_right (by simp)]
      constructor
      · intro h
        exact ⟨_, _, h, ByteArray.append_empty.symm⟩
      · rintro ⟨fix, var, h, heq⟩
        obtain ⟨-, rfl⟩ := size_of_wireFields fs hall h
        rw [heq, ByteArray.append_empty]
        exact h
  | false =>
      refine .of_all fun b vs m => ?_
      rw [deserializeContainer_var hall]
      refine and_congr_right fun _ => ?_
      constructor
      · rintro ⟨hroom, os, hos, hnext, hfields⟩
        obtain ⟨-, hwire⟩ := (hvar hos (by rwa [Nat.zero_add])).mp hfields
        rw [hnext, Nat.zero_add] at hwire
        refine ⟨_, _, hwire, ?_⟩
        rw [ByteArray.extract_append_extract, Nat.zero_min, Nat.max_eq_right hroom,
          ByteArray.extract_zero_size]
      · rintro ⟨fix, var, hwire, rfl⟩
        have hsize := size_fix_of_wireFields fs hwire
        have hfix : (fix ++ var).extract 0 (0 + fixedSectionSizeFields fs) = fix := by
          rw [Nat.zero_add, ByteArray.extract_append_eq_left hsize.symm]
        have hbody : (fix ++ var).extract (fixedSectionSizeFields fs) (fix ++ var).size = var := by
          exact ByteArray.extract_append_eq_right hsize.symm ByteArray.size_append
        have hroom : fixedSectionSizeFields fs ≤ (fix ++ var).size := by
          rw [ByteArray.size_append]
          omega
        obtain ⟨os, hos, hnext⟩ := extractFieldOffsets_of_wire (p := 0) (by rwa [Nat.zero_add])
          (by rwa [hfix])
        have hend : next os (fix ++ var).size = fixedSectionSizeFields fs := by
          rw [ByteArray.size_append, hsize, hnext]
        refine ⟨hroom, os, hos, hend, (hvar hos (by rwa [Nat.zero_add])).mpr ?_⟩
        rw [hend, hfix, hbody]
        exact ⟨hroom, hwire⟩

mutual

/-- The decoder answers what the bytes stand for, and nothing else. -/
theorem deserialize_decodes : ∀ s : SSZType, Decodes (Wire .decoder s) s.takesAll (deserialize s)
  | .uintN n => by
      intro b x k
      rw [deserialize, deserializeUint_iff, Wire]
      simp [takesAll, isFixedSize, and_left_comm]
  | .bool => by
      intro b x k
      rw [deserialize, deserializeBool_iff, Wire]
      simp [takesAll, isFixedSize]
  | .vector t n => vector_decodes (deserialize_decodes t) n
  | .list t cap => list_decodes (deserialize_decodes t) cap
  | .bitvector n => by
      refine .of_all fun b x k => ?_
      rw [deserialize, deserializeBitvector_iff, Wire, and_left_comm]
  | .bitlist cap => by
      refine .of_all fun b x k => ?_
      rw [deserialize, deserializeBitlist_iff, Wire]
  | .container fs => container_decodes (fixedFieldsDecode fs) (varFieldsDecode fs)
  | .progressiveList t => progressiveList_decodes (deserialize_decodes t)
  | .progressiveBitlist => by
      refine .of_all fun b x k => ?_
      rw [deserialize, deserializeProgressiveBitlist_iff, Wire]
  | .progressiveContainer _ fs => container_decodes (fixedFieldsDecode fs) (varFieldsDecode fs)

theorem fixedFieldsDecode : ∀ fs : List SSZType, FixedFieldsDecode fs
  | [] => fixedFieldsDecode_nil
  | t :: ts => fixedFieldsDecode_cons (deserialize_decodes t) (fixedFieldsDecode ts)

theorem varFieldsDecode : ∀ fs : List SSZType, VarFieldsDecode fs
  | [] => varFieldsDecode_nil
  | t :: ts => varFieldsDecode_cons (deserialize_decodes t) (varFieldsDecode ts)

end

end HazmatSha256.Ssz
