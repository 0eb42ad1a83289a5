import HazmatSha256.Cache.PathWrites
import HazmatSha256.Ssz.Leaves
set_option autoImplicit false

/-!
# Opening: generalized indices

`SizzLean.Spec.GeneralizedIndex`: the index that a path of steps is folded to, and the node
of the tree of a value to which that index leads.
-/

namespace HazmatSha256.Opening

open Foundation Shape Merkle Ssz Ssz.SSZType Cache

/-! ## Paths of steps -/

inductive PathStep where
  | field (k : Nat)
  | elem (i : Nat)
  | length

/-- The bytes of an element: its own if it is packed, and a chunk for its root if not. -/
def itemLength (t : SSZType) : Nat :=
  if t.isBasicType then t.fixedByteSize else bytesPerChunk

def chunkCount : SSZType → Nat
  | .uintN _ => 1
  | .bool => 1
  | .bitvector n => bitsToChunkCount n
  | .bitlist cap => bitsToChunkCount cap
  | .vector t n => bytesToChunkCount (n * itemLength t)
  | .list t cap => bytesToChunkCount (cap * itemLength t)
  | .container fs => fs.length
  | .progressiveList _ => 1
  | .progressiveBitlist => 1
  | .progressiveContainer active _ => active.length

/-- The place in the row of the part, the height of that row, and the shape of the part. -/
def stepInto (s : SSZType) (step : PathStep) : Option (Nat × Nat × SSZType) :=
  if s.isBasicType then none
  else
    match s, step with
    | .container fs, .field k =>
        if hk : k < fs.length then some (k, chunkDepth fs.length, fs.get ⟨k, hk⟩) else none
    | .vector t n, .elem i =>
        if i < n then
          some (i * itemLength t / bytesPerChunk, chunkDepth (chunkCount (.vector t n)), t)
        else none
    | .list t cap, .elem i =>
        if i < cap then
          some (i * itemLength t / bytesPerChunk, chunkDepth (chunkCount (.list t cap)) + 1, t)
        else none
    | .list _ _, .length => some (1, 1, .uintN 64)
    | _, _ => none

def generalizedIndexAux (s : SSZType) : List PathStep → Nat → Option Nat
  | [], acc => some acc
  | step :: rest, acc =>
      match stepInto s step with
      | none => none
      | some (pos, d, s') => generalizedIndexAux s' rest (acc * 2 ^ d + pos)

def generalizedIndex (s : SSZType) (path : List PathStep) : Option Nat :=
  generalizedIndexAux s path 1

def pathBits : (s : SSZType) → List PathStep → List Bool
  | _, [] => []
  | s, step :: rest =>
      match stepInto s step with
      | none => []
      | some (pos, d, s') => (List.range d).reverse.map (pos.testBit ·) ++ pathBits s' rest

/-! ## The bits of an index -/

theorem steps_succ (d k : Nat) : steps (d + 1) k = steps d (k / 2) ++ [k.testBit 0] := by
  induction d with
  | zero => rfl
  | succ d ih => rw [steps, ih, steps, Nat.testBit_succ, List.cons_append]

/-- One row further down. -/
theorem gindexBits_row {acc : Nat} (hacc : 0 < acc) : ∀ {d pos : Nat}, pos < 2 ^ d →
    gindexBits (acc * 2 ^ d + pos) = gindexBits acc ++ steps d pos := by
  intro d
  induction d with
  | zero =>
      intro pos hpos
      obtain rfl : pos = 0 := Nat.lt_one_iff.mp hpos
      rw [steps, List.append_nil, Nat.pow_zero, Nat.mul_one, Nat.add_zero]
  | succ d ih =>
      intro pos hpos
      rw [Nat.pow_succ] at hpos
      have hsplit : acc * 2 ^ (d + 1) + pos =
          2 * (acc * 2 ^ d + pos / 2) + (pos.testBit 0).toNat := by
        rw [Nat.toNat_testBit, Nat.pow_zero, Nat.div_one, Nat.pow_succ, ← Nat.mul_assoc]
        omega
      have hhigh : 0 < acc * 2 ^ d + pos / 2 :=
        Nat.add_pos_left (Nat.mul_pos hacc (Nat.two_pow_pos d)) _
      rw [hsplit, gindexBits_child hhigh, ih (by omega), steps_succ, List.append_assoc]

theorem place_lt_chunkCount {i n w : Nat} (hi : i < n) :
    i * w / bytesPerChunk < 2 ^ chunkDepth (bytesToChunkCount (n * w)) := by
  rcases Nat.eq_zero_or_pos w with rfl | hw
  · rw [Nat.mul_zero, Nat.zero_div]
    exact Nat.two_pow_pos _
  · have hbytes : i * w + w ≤ n * w := by
      rw [← Nat.succ_mul]
      exact Nat.mul_le_mul_right w hi
    refine lt_two_pow_chunkDepth ?_
    simp only [bytesToChunkCount, bytesPerChunk]
    omega

/-- A step leads to one of the places of its row. -/
theorem place_lt {s s' : SSZType} {step : PathStep} {pos d : Nat}
    (h : stepInto s step = some (pos, d, s')) : pos < 2 ^ d := by
  unfold stepInto at h
  split at h
  · cases h
  · split at h
    · split at h
      · cases h
        exact lt_two_pow_chunkDepth ‹_›
      · cases h
    · split at h
      · cases h
        exact place_lt_chunkCount ‹_›
      · cases h
    · split at h
      · cases h
        rw [Nat.pow_succ]
        exact Nat.lt_of_lt_of_le (place_lt_chunkCount ‹_›) (Nat.le_mul_of_pos_right _ Nat.two_pos)
      · cases h
    · cases h
      decide
    · cases h

theorem pathBits_cons {s s' : SSZType} {step : PathStep} {pos d : Nat}
    (h : stepInto s step = some (pos, d, s')) (rest : List PathStep) :
    pathBits s (step :: rest) = steps d pos ++ pathBits s' rest := by
  rw [pathBits, h, steps_eq]

/-- The bits of the index are those of the path, behind the bits of where it began. -/
theorem gindexBits_generalizedIndexAux : ∀ {path : List PathStep} {s : SSZType} {acc g : Nat},
    0 < acc → generalizedIndexAux s path acc = some g →
    gindexBits g = gindexBits acc ++ pathBits s path := by
  intro path
  induction path with
  | nil =>
      intro s acc g _ h
      cases h
      rw [pathBits, List.append_nil]
  | cons step rest ih =>
      intro s acc g hacc h
      rw [generalizedIndexAux] at h
      split at h
      · cases h
      · next pos d s' hstep =>
        have hpos := place_lt hstep
        have hnext : 0 < acc * 2 ^ d + pos :=
          Nat.add_pos_left (Nat.mul_pos hacc (Nat.two_pow_pos d)) pos
        rw [ih hnext h, gindexBits_row hacc hpos, pathBits_cons hstep, List.append_assoc]

theorem gindexBits_generalizedIndex {path : List PathStep} {s : SSZType} {g : Nat}
    (h : generalizedIndex s path = some g) : gindexBits g = pathBits s path :=
  gindexBits_generalizedIndexAux Nat.one_pos h

/-! ## The nodes of a value -/

/-- A node that a path can lead to: that of a part, or a chunk, which may hold several elements,
the number of elements, or nothing. -/
inductive Spot where
  | part (w : Part)
  | chunk (b : ByteArray)

def Spot.tree : Spot → Shape ByteArray
  | .part w => Ssz.tree w.1 w.2
  | .chunk b => leaf b

def fieldAt : (fs : List SSZType) → interpFields fs → Nat → Option Part
  | [], _, _ => none
  | t :: _, vs, 0 => some ⟨t, vs.1⟩
  | _ :: ts, vs, k + 1 => fieldAt ts vs.2 k

/-- The chunk in which element `i` of packed elements stands. -/
def packedAt (t : SSZType) (body : ByteArray) (i : Nat) : ByteArray :=
  padded (chunkify body) zero32 (i * itemLength t / bytesPerChunk)

/-- One step further down in a value: into a field of a container, an element of a vector or a
list, or the length of a list.  A place of a list that no element fills is a zero chunk, and
nothing is below a chunk.  As `stepInto`, it goes down into no progressive container, no
progressive list and no bits, whose chunks stand elsewhere. -/
def Spot.step : Spot → PathStep → Option Spot
  | .part ⟨.container fs, vs⟩, .field k => (fieldAt fs vs k).map .part
  | .part ⟨.vector t n, v⟩, .elem i =>
      if h : i < n then
        if t.isBasicType then some (.chunk (packedAt t (serialize (.vector t n) v) i))
        else some (.part ⟨t, v[i]⟩)
      else none
  | .part ⟨.list t cap, xs⟩, .elem i =>
      if i < cap then
        if t.isBasicType then some (.chunk (packedAt t (serializeFixedElems t xs.val.toList) i))
        else if h : i < xs.val.size then some (.part ⟨t, xs.val[i]⟩)
        else some (.chunk zero32)
      else none
  | .part ⟨.list _ _, xs⟩, .length => some (.chunk (natToChunk xs.val.size))
  | _, _ => none

/-- What a path leads to in a value. -/
def spotAt (w : Spot) (path : List PathStep) : Option Spot := path.foldlM Spot.step w

/-- A part has this shape, which is one that the decoder can read; a chunk has its width. -/
def Spot.Of (s : SSZType) : Spot → Prop
  | .part w => w.1 = s ∧ s.codable = true
  | .chunk b => b.size = bytesPerChunk

theorem Spot.Of.size_root {s : SSZType} {w : Spot} (hw : w.Of s) :
    (root w.tree).size = bytesPerChunk := by
  cases w with
  | part w => exact size_root_tree w.1 w.2
  | chunk b => exact hw

theorem size_packedAt (t : SSZType) (body : ByteArray) (i : Nat) :
    (packedAt t body i).size = bytesPerChunk :=
  size_padded (size_chunkify body) size_zero32 _

theorem getElem?_fieldTrees : ∀ (fs : List SSZType) (vs : interpFields fs) (k : Nat),
    (fieldTrees fs vs)[k]? = (fieldAt fs vs k).map fun w => Ssz.tree w.1 w.2 := by
  intro fs
  induction fs with
  | nil =>
      intro vs k
      rw [fieldTrees, fieldAt]
      rfl
  | cons t ts ih =>
      intro vs k
      rw [fieldTrees]
      cases k with
      | zero => rfl
      | succ k => exact ih vs.2 k

/-- The shape of a field is the one that the container declares. -/
theorem shape_fieldAt : ∀ {fs : List SSZType} {vs : interpFields fs} {k : Nat} {w : Part},
    fieldAt fs vs k = some w → fs[k]? = some w.1 ∧ (allCodable fs = true → w.1.codable = true) := by
  intro fs
  induction fs with
  | nil =>
      intro vs k w h
      cases h
  | cons t ts ih =>
      intro vs k w h
      rw [allCodable, Bool.and_eq_true]
      cases k with
      | zero =>
          cases h
          exact ⟨rfl, And.left⟩
      | succ k => exact ⟨(ih h).1, fun hall => (ih h).2 hall.2⟩

theorem sub_packed {t : SSZType} {body : ByteArray} {d i : Nat}
    (hi : i * itemLength t / bytesPerChunk < 2 ^ d) (p : List Bool) :
    (perfect (leaves (chunkify body)) d).sub (steps d (i * itemLength t / bytesPerChunk) ++ p) =
      (leaf (packedAt t body i)).sub p := by
  rw [sub_row hi, packedAt, padded_map leaf]
  rfl

theorem itemLength_of_basic {t : SSZType} (h : t.isBasicType = true) :
    itemLength t = t.fixedByteSize := if_pos h

theorem itemLength_of_composite {t : SSZType} (h : ¬ t.isBasicType = true) (i : Nat) :
    i * itemLength t / bytesPerChunk = i := by
  rw [itemLength, if_neg h]
  exact Nat.mul_div_cancel i (by decide)

theorem chunkCount_of_composite {t : SSZType} (h : ¬ t.isBasicType = true) (n : Nat) :
    bytesToChunkCount (n * itemLength t) = n := by
  rw [itemLength, if_neg h]
  simp only [bytesToChunkCount, bytesPerChunk]
  omega

/-- The row of a packed vector is as high as its declared length says. -/
theorem size_vector_packed {t : SSZType} {n : Nat} (hbasic : t.isBasicType = true)
    (hs : (SSZType.vector t n).codable = true) (v : Vector t.interp n) :
    (serialize (.vector t n) v).size = n * itemLength t := by
  have hfixed : (SSZType.vector t n).isFixedSize = true := by
    rw [isFixedSize]
    exact isFixedSize_of_isBasicType hbasic
  rw [size_serialize _ _ hs hfixed, fixedByteSize, itemLength_of_basic hbasic, Nat.mul_comm]

/-- The body is the left side of a counted tree, and its length stands next to it. -/
theorem sub_counted (body : Shape ByteArray) (n : Nat) {pos d : Nat} (hpos : pos < 2 ^ d)
    (p : List Bool) : (counted body n).sub (steps (d + 1) pos ++ p) = body.sub (steps d pos ++ p) := by
  rw [steps, Nat.testBit_lt_two_pow hpos]
  rfl

theorem size_siblings_counted {subs : List (Shape ByteArray)}
    (h : ∀ t ∈ subs, (root t).size = bytesPerChunk) {d pos : Nat} (hpos : pos < 2 ^ d) (n : Nat) :
    ∀ b ∈ (counted (perfect subs d) n).siblings Spec.combine (steps (d + 1) pos),
      b.size = bytesPerChunk := by
  intro b hb
  rw [steps, Nat.testBit_lt_two_pow hpos] at hb
  rcases List.mem_cons.mp hb with rfl | hb
  · exact size_natToChunk n
  · exact size_siblings_row h d pos b hb

/-- From `w` to `w'` the fold takes a step from shape `s` that leads one row down in the tree,
past chunks. -/
def Leads (s : SSZType) (w w' : Spot) (a : PathStep) : Prop :=
  ∃ pos d s', stepInto s a = some (pos, d, s') ∧ w'.Of s' ∧
    (∀ p, w.tree.sub (steps d pos ++ p) = w'.tree.sub p) ∧
    ∀ b ∈ w.tree.siblings Spec.combine (steps d pos), b.size = bytesPerChunk

theorem leads_field {fs : List SSZType} {vs : interpFields fs} {k : Nat} {w : Part}
    (hs : (SSZType.container fs).codable = true) (hfield : fieldAt fs vs k = some w) :
    Leads (.container fs) (.part ⟨.container fs, vs⟩) (.part w) (.field k) := by
  obtain ⟨hshape, hcodable⟩ := shape_fieldAt hfield
  obtain ⟨hk, hget⟩ := List.getElem?_eq_some_iff.mp hshape
  have ht := getElem?_fieldTrees fs vs k
  rw [hfield] at ht
  rw [codable] at hs
  refine ⟨k, chunkDepth fs.length, w.1, ?_, ⟨rfl, hcodable hs⟩, ?_⟩
  · simp [stepInto, isBasicType, hk, hget]
  · rw [Spot.tree, Ssz.tree]
    exact ⟨sub_row_of_getElem? (lt_two_pow_chunkDepth hk) ht,
      size_siblings_row (size_root_fieldTrees fs vs) _ _⟩

section Elements

variable {t : SSZType} {n cap i : Nat}

theorem leads_vector_packed (hs : (SSZType.vector t n).codable = true) (v : Vector t.interp n)
    (hi : i < n) (hbasic : t.isBasicType = true) : Leads (.vector t n) (.part ⟨.vector t n, v⟩)
      (.chunk (packedAt t (serialize (.vector t n) v) i)) (.elem i) := by
  refine ⟨i * itemLength t / bytesPerChunk, chunkDepth (chunkCount (.vector t n)), t, ?_,
    size_packedAt _ _ _, ?_⟩
  · simp [stepInto, isBasicType, hi]
  · rw [Spot.tree, Ssz.tree, if_pos hbasic, chunkCount]
    dsimp only
    rw [size_vector_packed hbasic hs]
    exact ⟨sub_packed (place_lt_chunkCount hi),
      size_siblings_row (size_root_leaves (size_chunkify _)) _ _⟩

theorem leads_vector (hs : (SSZType.vector t n).codable = true) (v : Vector t.interp n)
    (hi : i < n) (hbasic : ¬ t.isBasicType = true) :
    Leads (.vector t n) (.part ⟨.vector t n, v⟩) (.part ⟨t, v[i]⟩) (.elem i) := by
  have ht : (trees t v.toList)[i]? = some (Ssz.tree t v[i]) := by simp [trees_eq, hi]
  rw [codable, Bool.and_eq_true] at hs
  refine ⟨i * itemLength t / bytesPerChunk, chunkDepth (chunkCount (.vector t n)), t, ?_,
    ⟨rfl, hs.2⟩, ?_⟩
  · simp [stepInto, isBasicType, hi]
  · rw [Spot.tree, Ssz.tree, if_neg hbasic, chunkCount, chunkCount_of_composite hbasic,
      itemLength_of_composite hbasic]
    exact ⟨sub_row_of_getElem? (lt_two_pow_chunkDepth hi) ht,
      size_siblings_row (size_root_trees t _) _ _⟩

theorem leads_list_packed (xs : (SSZType.list t cap).interp) (hi : i < cap)
    (hbasic : t.isBasicType = true) : Leads (.list t cap) (.part ⟨.list t cap, xs⟩)
      (.chunk (packedAt t (serializeFixedElems t xs.val.toList) i)) (.elem i) := by
  have hplace := place_lt_chunkCount (w := itemLength t) hi
  refine ⟨i * itemLength t / bytesPerChunk, chunkDepth (chunkCount (.list t cap)) + 1, t, ?_,
    size_packedAt _ _ _, ?_⟩
  · simp [stepInto, isBasicType, hi]
  · rw [Spot.tree, Ssz.tree, if_pos hbasic, chunkCount, ← itemLength_of_basic hbasic]
    exact ⟨fun p => (sub_counted _ _ hplace p).trans (sub_packed hplace p),
      size_siblings_counted (size_root_leaves (size_chunkify _)) hplace _⟩

/-- Place `i` of a list of composite elements, filled or not. -/
theorem leads_place {xs : (SSZType.list t cap).interp} {w : Spot} (hi : i < cap)
    (hbasic : ¬ t.isBasicType = true) (hw : w.Of t)
    (hplace : padded (trees t xs.val.toList) (leaf zero32) i = w.tree) :
    Leads (.list t cap) (.part ⟨.list t cap, xs⟩) w (.elem i) := by
  refine ⟨i * itemLength t / bytesPerChunk, chunkDepth (chunkCount (.list t cap)) + 1, t, ?_, hw,
    ?_⟩
  · simp [stepInto, isBasicType, hi]
  · rw [Spot.tree, Ssz.tree, if_neg hbasic, chunkCount, chunkCount_of_composite hbasic,
      itemLength_of_composite hbasic]
    refine ⟨fun p => ?_, size_siblings_counted (size_root_trees t _) (lt_two_pow_chunkDepth hi) _⟩
    rw [sub_counted _ _ (lt_two_pow_chunkDepth hi), sub_row (lt_two_pow_chunkDepth hi), hplace]

theorem leads_list (hs : (SSZType.list t cap).codable = true) (xs : (SSZType.list t cap).interp)
    (hi : i < xs.val.size) (hbasic : ¬ t.isBasicType = true) :
    Leads (.list t cap) (.part ⟨.list t cap, xs⟩) (.part ⟨t, xs.val[i]⟩) (.elem i) := by
  rw [codable, Bool.and_eq_true] at hs
  refine leads_place (Nat.lt_of_lt_of_le hi xs.property) hbasic ⟨rfl, hs.1⟩ ?_
  simp [padded, trees_eq, hi, Spot.tree]

theorem leads_list_padding (xs : (SSZType.list t cap).interp) (hi : i < cap)
    (hsize : ¬ i < xs.val.size) (hbasic : ¬ t.isBasicType = true) :
    Leads (.list t cap) (.part ⟨.list t cap, xs⟩) (.chunk zero32) (.elem i) := by
  refine leads_place hi hbasic size_zero32 ?_
  rw [padded_of_le _ (by simpa [trees_eq] using hsize)]
  rfl

theorem leads_length (xs : (SSZType.list t cap).interp) : Leads (.list t cap)
    (.part ⟨.list t cap, xs⟩) (.chunk (natToChunk xs.val.size)) .length := by
  have hcounted : ∃ body, Ssz.tree (.list t cap) xs = counted body xs.val.size ∧
      (root body).size = bytesPerChunk := by
    rw [Ssz.tree]
    split
    · exact ⟨_, rfl, size_root_perfect (size_root_leaves (size_chunkify _)) _⟩
    · exact ⟨_, rfl, size_root_perfect (size_root_trees t _) _⟩
  obtain ⟨body, htree, hbody⟩ := hcounted
  refine ⟨1, 1, .uintN 64, rfl, size_natToChunk _, ?_⟩
  rw [Spot.tree, htree]
  refine ⟨fun p => rfl, fun b hb => ?_⟩
  obtain rfl : b = root body := by simpa [steps, counted, siblings] using hb
  exact hbody

end Elements

/-- One step in a value is one step of the fold, and leads one row down in the tree. -/
theorem Spot.step_leads {s : SSZType} {w w' : Spot} {a : PathStep} (hw : w.Of s)
    (h : w.step a = some w') : Leads s w w' a := by
  unfold Spot.step at h
  split at h
  · obtain ⟨rfl, hs⟩ := hw
    obtain ⟨w, hfield, rfl⟩ := Option.map_eq_some_iff.mp h
    exact leads_field hs hfield
  · obtain ⟨rfl, hs⟩ := hw
    split at h
    · split at h
      · cases h
        exact leads_vector_packed hs _ ‹_› ‹_›
      · cases h
        exact leads_vector hs _ ‹_› ‹_›
    · cases h
  · obtain ⟨rfl, hs⟩ := hw
    split at h
    · split at h
      · cases h
        exact leads_list_packed _ ‹_› ‹_›
      · split at h
        · cases h
          exact leads_list hs _ ‹_› ‹_›
        · cases h
          exact leads_list_padding _ ‹_› ‹_› ‹_›
    · cases h
  · obtain ⟨rfl, -⟩ := hw
    cases h
    exact leads_length _
  · cases h

/-- A path that leads somewhere in a value has an index, and the index leads there in the tree,
past chunks. -/
theorem spotAt_leads : ∀ {path : List PathStep} {s : SSZType} {w w' : Spot} (acc : Nat),
    w.Of s → spotAt w path = some w' → (generalizedIndexAux s path acc).isSome = true ∧
      (∃ s', w'.Of s') ∧ w.tree.sub (pathBits s path) = some w'.tree ∧
      ∀ b ∈ w.tree.siblings Spec.combine (pathBits s path), b.size = bytesPerChunk := by
  intro path
  induction path with
  | nil =>
      intro s w w' acc hw h
      cases h
      rw [pathBits, sub_nil, siblings_nil]
      exact ⟨rfl, ⟨s, hw⟩, rfl, fun b hb => absurd hb List.not_mem_nil⟩
  | cons a rest ih =>
      intro s w w' acc hw h
      obtain ⟨v, hstep, hrest⟩ := Option.bind_eq_some_iff.mp h
      obtain ⟨pos, d, s', hinto, hv, hsub, hrow⟩ := Spot.step_leads hw hstep
      obtain ⟨hindex, hof, hleads, hbelow⟩ := ih (acc * 2 ^ d + pos) hv hrest
      have hnode : w.tree.sub (steps d pos) = some v.tree := by
        have hroot := hsub []
        rwa [List.append_nil, sub_nil] at hroot
      rw [generalizedIndexAux, hinto, pathBits_cons hinto, hsub, siblings_append hnode]
      refine ⟨hindex, hof, hleads, fun b hb => ?_⟩
      rcases List.mem_append.mp hb with hb | hb
      · exact hrow b hb
      · exact hbelow b hb

/-- For any codable shape, any value of it and any path that leads, through containers, vectors and
lists, to a part of the value, to a chunk of packed elements or of padding or to the length of a
list: the path has a generalized index, and the way that index describes leads in the tree of the
value to the tree of the part, or to that chunk. -/
theorem generalizedIndex_leads {s : SSZType} (hs : s.codable = true) (x : s.interp)
    {path : List PathStep} {w : Spot} (h : spotAt (.part ⟨s, x⟩) path = some w) :
    ∃ g, generalizedIndex s path = some g ∧ (tree s x).sub (gindexBits g) = some w.tree := by
  have hw : Spot.Of s (.part ⟨s, x⟩) := ⟨rfl, hs⟩
  obtain ⟨hindex, -, hleads, -⟩ := spotAt_leads 1 hw h
  obtain ⟨g, hg⟩ := Option.isSome_iff_exists.mp hindex
  refine ⟨g, hg, ?_⟩
  rw [gindexBits_generalizedIndex hg]
  exact hleads

/-- A number and a list of numbers. -/
abbrev sampleElemShape : SSZType := .container [.uintN 64, .list (.uintN 16) 20]

/-- A flag, and room for four elements. -/
abbrev sampleShape : SSZType := .container [.bool, .list sampleElemShape 4]

def sampleElem : sampleElemShape.interp :=
  ((8 : UInt64), ⟨Array.replicate 17 (5 : UInt16), by decide⟩, ⟨⟩)

def sampleValue : sampleShape.interp :=
  (true, ⟨#[((7 : UInt64), ⟨#[1, 2], by decide⟩, ⟨⟩), sampleElem], by decide⟩, ⟨⟩)

/-- To element 16 of the list in the second element. -/
def samplePath : List PathStep := [.field 1, .elem 1, .field 1, .elem 16]

def sampleChunk : ByteArray := packedAt (.uintN 16)
  (serializeFixedElems (.uintN 16) (Array.replicate 17 (5 : UInt16)).toList) 16

theorem sample_spotAt : spotAt (.part ⟨sampleShape, sampleValue⟩) samplePath =
    some (.chunk sampleChunk) := rfl

theorem generalizedIndex_leads_sample : ∃ g, generalizedIndex sampleShape samplePath = some g ∧
    (tree sampleShape sampleValue).sub (gindexBits g) = some (leaf sampleChunk) :=
  generalizedIndex_leads rfl sampleValue sample_spotAt

end HazmatSha256.Opening
