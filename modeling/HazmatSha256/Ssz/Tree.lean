import HazmatSha256.Foundation.Shape
import HazmatSha256.Merkle.Root
import HazmatSha256.Ssz.HashTreeRoot
set_option autoImplicit false

/-!
# Ssz: the tree of a value

The Merkle tree that a value stands for, with its chunks at the leaves and nothing cached.
The merkleizer, which never builds it, computes its root through the shims.
-/

namespace HazmatSha256.Ssz

open Foundation Shape Boxed Isal Evp Shim Merkle

variable {σ κ : Type} {host : Host σ κ} {legal : Prop}

/-! ## Trees -/

/-- The root, with the reference at the pairs. -/
abbrev root (t : Shape ByteArray) : ByteArray := t.value Spec.combine

def leaves (chunks : List ByteArray) : List (Shape ByteArray) := chunks.map leaf

/-- The perfect tree over these subtrees, and zero chunks for the rest. -/
def perfect (subs : List (Shape ByteArray)) (depth : Nat) : Shape ByteArray :=
  node pair (padded subs (leaf zero32)) depth 0

/-- The tree of shelves. -/
def shelves : (fuel : Nat) → List ByteArray → (numLeaves : Nat) → Shape ByteArray
  | _, [], _ => leaf zero32
  | 0, _, _ => leaf zero32
  | fuel + 1, chunks, numLeaves =>
      let n := max numLeaves 1
      pair (perfect (leaves (chunks.take n)) (chunkDepth n)) (shelves fuel (chunks.drop n) (n * 4))

def progressive (chunks : List ByteArray) : Shape ByteArray := shelves chunks.length chunks 1

/-- Next to its length. -/
def counted (body : Shape ByteArray) (n : Nat) : Shape ByteArray :=
  pair body (leaf (natToChunk n))

mutual

def tree : (s : SSZType) → s.interp → Shape ByteArray
  | .uintN n, x => leaf (uintRoot n x)
  | .bool, b => leaf (boolRoot b)
  | .bitvector n, bv =>
      perfect (leaves (chunkify (SSZType.serialize (.bitvector n) bv)))
        (chunkDepth (bytesToChunkCount ((n + 7) / 8)))
  | .bitlist cap, bs =>
      counted (perfect (leaves (chunkify (bitBody bs.val))) (chunkDepth (bitsToChunkCount cap)))
        bs.val.size
  | .vector t n, v =>
      if t.isBasicType then
        let body := SSZType.serialize (.vector t n) v
        perfect (leaves (chunkify body)) (chunkDepth (bytesToChunkCount body.size))
      else perfect (trees t v.toList) (chunkDepth n)
  | .list t cap, xs =>
      if t.isBasicType then
        counted (perfect (leaves (chunkify (SSZType.serializeFixedElems t xs.val.toList)))
          (chunkDepth (bytesToChunkCount (cap * t.fixedByteSize)))) xs.val.size
      else counted (perfect (trees t xs.val.toList) (chunkDepth cap)) xs.val.size
  | .container fs, vs => perfect (fieldTrees fs vs) (chunkDepth fs.length)
  | .progressiveList t, xs =>
      if t.isBasicType then
        counted (progressive (chunkify (SSZType.serializeFixedElems t xs.toList))) xs.size
      else counted (progressive ((trees t xs.toList).map root)) xs.size
  | .progressiveBitlist, bs => counted (progressive (chunkify (bitBody bs))) bs.size
  | .progressiveContainer active fs, vs =>
      pair (progressive (placeActiveChunks active ((fieldTrees fs vs).map root)))
        (leaf (padToChunk (packBitsLE active)))

def fieldTrees : (fs : List SSZType) → SSZType.interpFields fs → List (Shape ByteArray)
  | [], _ => []
  | t :: ts, vs => tree t vs.1 :: fieldTrees ts vs.2

def trees : (t : SSZType) → List t.interp → List (Shape ByteArray)
  | _, [] => []
  | t, x :: xs => tree t x :: trees t xs

end

theorem trees_eq (t : SSZType) (xs : List t.interp) : trees t xs = xs.map (tree t) := by
  induction xs with
  | nil => rw [trees, List.map_nil]
  | cons x xs ih => rw [trees, List.map_cons, ih]

@[simp] theorem length_fieldTrees : ∀ (fs : List SSZType) (vs : SSZType.interpFields fs),
    (fieldTrees fs vs).length = fs.length := by
  intro fs
  induction fs with
  | nil =>
      intro vs
      rw [fieldTrees, List.length_nil, List.length_nil]
  | cons t ts ih =>
      intro vs
      rw [fieldTrees, List.length_cons, List.length_cons, ih]

theorem padded_map {α β : Type} (g : α → β) (xs : List α) (z : α) (i : Nat) :
    g (padded xs z i) = padded (xs.map g) (g z) i := by
  by_cases hi : i < xs.length
  · rw [padded_of_lt z hi, padded_of_lt (g z) (by rwa [List.length_map]), List.getElem_map]
  · rw [padded_of_le z (Nat.le_of_not_lt hi),
      padded_of_le (g z) (by rw [List.length_map]; exact Nat.le_of_not_lt hi)]

/-- The root of a perfect tree is climbed over the roots of its subtrees. -/
theorem root_perfect (subs : List (Shape ByteArray)) (depth : Nat) :
    root (perfect subs depth) = node Spec.combine (padded (subs.map root) zero32) depth 0 := by
  rw [root, perfect, value_node]
  congr 1
  funext i
  exact padded_map root subs (leaf zero32) i

@[simp] theorem map_root_leaves (chunks : List ByteArray) :
    (leaves chunks).map root = chunks := by
  rw [leaves, List.map_map]
  exact List.map_id chunks

/-! ## Widths -/

theorem size_root_pair (l r : Shape ByteArray) : (root (pair l r)).size = bytesPerChunk :=
  size_combine _ _

theorem size_root_perfect {subs : List (Shape ByteArray)}
    (h : ∀ t ∈ subs, (root t).size = bytesPerChunk) (depth : Nat) :
    (root (perfect subs depth)).size = bytesPerChunk := by
  rw [root_perfect]
  refine size_node (size_padded ?_ size_zero32) depth 0
  intro b hb
  obtain ⟨t, ht, rfl⟩ := List.mem_map.mp hb
  exact h t ht

theorem size_root_leaves {chunks : List ByteArray} (h : ∀ b ∈ chunks, b.size = bytesPerChunk) :
    ∀ t ∈ leaves chunks, (root t).size = bytesPerChunk := by
  intro t ht
  obtain ⟨b, hb, rfl⟩ := List.mem_map.mp ht
  exact h b hb

theorem size_root_shelves (fuel : Nat) (chunks : List ByteArray) (numLeaves : Nat) :
    (root (shelves fuel chunks numLeaves)).size = bytesPerChunk := by
  cases chunks with
  | nil => cases fuel <;> exact size_zero32
  | cons b rest =>
      cases fuel with
      | zero => exact size_zero32
      | succ fuel => exact size_root_pair _ _

theorem size_chunkify (body : ByteArray) : ∀ b ∈ chunkify body, b.size = bytesPerChunk := by
  intro b hb
  rw [chunkify_eq] at hb
  obtain ⟨i, -, rfl⟩ := List.mem_map.mp hb
  apply size_padToChunk
  rw [ByteArray.size_extract]
  omega

theorem size_placeActiveChunks : ∀ (active : List Bool) {roots : List ByteArray},
    (∀ b ∈ roots, b.size = bytesPerChunk) →
    ∀ b ∈ placeActiveChunks active roots, b.size = bytesPerChunk := by
  intro active
  induction active with
  | nil =>
      intro roots _ b hb
      exact absurd hb List.not_mem_nil
  | cons bit bits ih =>
      intro roots h b hb
      have hzero : ∀ {rs : List ByteArray}, (∀ b ∈ rs, b.size = bytesPerChunk) →
          b ∈ zero32 :: placeActiveChunks bits rs → b.size = bytesPerChunk := by
        intro rs hrs hmem
        obtain rfl | hmem := List.mem_cons.mp hmem
        · exact size_zero32
        · exact ih hrs b hmem
      cases bit with
      | false => exact hzero h hb
      | true =>
          cases roots with
          | nil => exact hzero h hb
          | cons r rs =>
              obtain rfl | hmem := List.mem_cons.mp hb
              · exact h _ List.mem_cons_self
              · exact ih (fun x hx => h x (List.mem_cons_of_mem r hx)) b hmem

/-- No number is wider than a chunk. -/
theorem size_serializeUint : ∀ (n : Nat) (x : SSZType.uintNInterp n),
    (serializeUint n x).size ≤ (n + 7) / 8 ∧ (serializeUint n x).size ≤ bytesPerChunk := by
  intro n x
  unfold serializeUint
  split
  case h_5 => simp [natToLEBytes, size_pushBytesLE, bytesPerChunk]
  case h_6 => simp [natToLEBytes, size_pushBytesLE, bytesPerChunk]
  all_goals simp [uint16LE, uint32LE, uint64LE, ByteArray.size_push, bytesPerChunk]

theorem size_uintRoot : ∀ (n : Nat) (x : SSZType.uintNInterp n),
    (uintRoot n x).size = bytesPerChunk := by
  intro n x
  unfold uintRoot
  split
  case h_1 x => exact size_padToChunk (size_serializeUint 8 x).2
  case h_2 x => exact size_padToChunk (size_serializeUint 16 x).2
  case h_3 x => exact size_padToChunk (size_serializeUint 32 x).2
  case h_4 x => exact size_padToChunk (size_serializeUint 64 x).2
  case h_5 => exact size_padToChunk (Nat.le_of_eq (size_natToChunk _))
  case h_6 => exact size_padToChunk (Nat.le_of_eq (size_natToChunk _))
  case h_7 => exact size_zero32

theorem size_boolRoot (b : Bool) : (boolRoot b).size = bytesPerChunk := by
  apply size_padToChunk
  rw [ByteArray.size_push]
  decide

mutual

theorem size_root_tree : ∀ (s : SSZType) (x : s.interp), (root (tree s x)).size = bytesPerChunk
  | .uintN n, x => by
      rw [tree]
      exact size_uintRoot n x
  | .bool, b => by
      rw [tree]
      exact size_boolRoot b
  | .bitvector n, bv => by
      rw [tree]
      exact size_root_perfect (size_root_leaves (size_chunkify _)) _
  | .bitlist _, _ => by
      rw [tree]
      exact size_root_pair _ _
  | .vector t n, v => by
      rw [tree]
      split
      · exact size_root_perfect (size_root_leaves (size_chunkify _)) _
      · exact size_root_perfect (size_root_trees t v.toList) _
  | .list _ _, _ => by
      rw [tree]
      split <;> exact size_root_pair _ _
  | .container fs, vs => by
      rw [tree]
      exact size_root_perfect (size_root_fieldTrees fs vs) _
  | .progressiveList _, _ => by
      rw [tree]
      split <;> exact size_root_pair _ _
  | .progressiveBitlist, _ => by
      rw [tree]
      exact size_root_pair _ _
  | .progressiveContainer _ _, _ => by
      rw [tree]
      exact size_root_pair _ _

theorem size_root_fieldTrees : ∀ (fs : List SSZType) (vs : SSZType.interpFields fs),
    ∀ t ∈ fieldTrees fs vs, (root t).size = bytesPerChunk
  | [], _ => by
      intro t ht
      rw [fieldTrees] at ht
      exact absurd ht List.not_mem_nil
  | f :: fs, vs => by
      intro t ht
      rw [fieldTrees] at ht
      obtain rfl | ht := List.mem_cons.mp ht
      · exact size_root_tree f vs.1
      · exact size_root_fieldTrees fs vs.2 t ht

theorem size_root_trees : ∀ (s : SSZType) (xs : List s.interp),
    ∀ t ∈ trees s xs, (root t).size = bytesPerChunk
  | _, [] => by
      intro t ht
      rw [trees] at ht
      exact absurd ht List.not_mem_nil
  | s, x :: xs => by
      intro t ht
      rw [trees] at ht
      obtain rfl | ht := List.mem_cons.mp ht
      · exact size_root_tree s x
      · exact size_root_trees s xs t ht

end

/-! ## Room -/

/-- An array of that many objects can exist. -/
def Roomy (n : Nat) : Prop := objectHeader + 8 * n ≤ ptrdiffMax

theorem Roomy.mono {m n : Nat} (h : Roomy n) (hmn : m ≤ n) : Roomy m := by
  unfold Roomy at h ⊢
  omega

mutual

/-- Every array in the value is one that can exist. -/
def Storable : (s : SSZType) → s.interp → Prop
  | .uintN _, _ => True
  | .bool, _ => True
  | .bitvector n, _ => Roomy (bytesToChunkCount ((n + 7) / 8))
  | .bitlist _, bs => Roomy bs.val.size
  | .vector t n, v => Roomy n ∧ StorableElems t v.toList
  | .list t _, xs => Roomy xs.val.size ∧ StorableElems t xs.val.toList
  | .container fs, vs => Roomy fs.length ∧ StorableFields fs vs
  | .progressiveList t, xs => Roomy xs.size ∧ StorableElems t xs.toList
  | .progressiveBitlist, bs => Roomy bs.size
  | .progressiveContainer active fs, vs => Roomy active.length ∧ StorableFields fs vs

def StorableFields : (fs : List SSZType) → SSZType.interpFields fs → Prop
  | [], _ => True
  | t :: ts, vs => Storable t vs.1 ∧ StorableFields ts vs.2

def StorableElems : (t : SSZType) → List t.interp → Prop
  | _, [] => True
  | t, x :: xs => Storable t x ∧ StorableElems t xs

end

/-- Eight bits a byte, rounded up. -/
theorem size_packBitsLE : ∀ bs : List Bool, (packBitsLE bs).size = (bs.length + 7) / 8
  | [] => rfl
  | [_] => by simp [packBitsLE]
  | [_, _] => by simp [packBitsLE]
  | [_, _, _] => by simp [packBitsLE]
  | [_, _, _, _] => by simp [packBitsLE]
  | [_, _, _, _, _] => by simp [packBitsLE]
  | [_, _, _, _, _, _] => by simp [packBitsLE]
  | [_, _, _, _, _, _, _] => by simp [packBitsLE]
  | _ :: _ :: _ :: _ :: _ :: _ :: _ :: _ :: rest => by
      rw [packBitsLE, ByteArray.size_append, size_packBitsLE rest]
      simp only [ByteArray.size_push, ByteArray.size_empty, List.length_cons]
      omega

theorem size_bitvecToBytes (n : Nat) (bv : BitVec n) :
    (bitvecToBytes n bv).size = (n + 7) / 8 := by
  rw [bitvecToBytes, size_packBitsLE, List.length_map, List.length_range]

theorem size_serialize_bitvector (n : Nat) (bv : BitVec n) :
    (SSZType.serialize (.bitvector n) bv).size = (n + 7) / 8 := by
  rw [SSZType.serialize]
  exact size_bitvecToBytes n bv

theorem size_bitBody (xs : Array Bool) : (bitBody xs).size = (xs.size + 7) / 8 :=
  size_serialize_bitvector _ _

/-- Basic elements take their width each, which is at most a chunk. -/
theorem size_serializeFixedElems {t : SSZType} (ht : t.isBasicType = true) :
    ∀ xs : List t.interp, (SSZType.serializeFixedElems t xs).size ≤ xs.length * t.fixedByteSize ∧
      (SSZType.serializeFixedElems t xs).size ≤ xs.length * bytesPerChunk := by
  have hone : ∀ x : t.interp, (t.serialize x).size ≤ t.fixedByteSize ∧
      (t.serialize x).size ≤ bytesPerChunk := by
    intro x
    cases t with
    | uintN n =>
        rw [SSZType.serialize, SSZType.fixedByteSize]
        exact size_serializeUint n x
    | bool =>
        rw [SSZType.serialize, SSZType.fixedByteSize, ByteArray.size_push]
        exact ⟨Nat.le_refl 1, by decide⟩
    | _ => exact Bool.noConfusion ht
  intro xs
  induction xs with
  | nil =>
      rw [SSZType.serializeFixedElems]
      simp
  | cons x xs ih =>
      obtain ⟨hwidth, hchunk⟩ := hone x
      rw [SSZType.serializeFixedElems, ByteArray.size_append, List.length_cons, Nat.succ_mul,
        Nat.succ_mul]
      omega

theorem bytesToChunkCount_mono {m n : Nat} (h : m ≤ n) :
    bytesToChunkCount m ≤ bytesToChunkCount n :=
  Nat.div_le_div_right (by omega)

/-- Packed, a row of basic elements has no more chunks than elements. -/
theorem bytesToChunkCount_le {n k : Nat} (h : k ≤ n * bytesPerChunk) : bytesToChunkCount k ≤ n := by
  simp only [bytesToChunkCount, bytesPerChunk] at h ⊢
  omega

/-- The leaves of a tree can be handed over as objects. -/
abbrev Handy (t : Shape ByteArray) : Prop := t.Leaves Fits

theorem handy_leaf {b : ByteArray} (h : b.size = bytesPerChunk) : Handy (leaf b) := fits_of_size h

theorem handy_perfect {subs : List (Shape ByteArray)} (h : ∀ t ∈ subs, Handy t) (depth : Nat) :
    Handy (perfect subs depth) := by
  apply leaves_node
  intro k
  by_cases hk : k < subs.length
  · rw [padded_of_lt _ hk]
    exact h _ (List.getElem_mem hk)
  · rw [padded_of_le _ (Nat.le_of_not_lt hk)]
    exact handy_leaf size_zero32

theorem handy_leaves {chunks : List ByteArray} (h : ∀ b ∈ chunks, b.size = bytesPerChunk) :
    ∀ t ∈ leaves chunks, Handy t := by
  intro t ht
  obtain ⟨b, hb, rfl⟩ := List.mem_map.mp ht
  exact handy_leaf (h b hb)

theorem handy_shelves : ∀ (fuel : Nat) {chunks : List ByteArray} (numLeaves : Nat),
    (∀ b ∈ chunks, b.size = bytesPerChunk) → Handy (shelves fuel chunks numLeaves) := by
  intro fuel
  induction fuel with
  | zero =>
      intro chunks numLeaves _
      cases chunks <;> exact handy_leaf size_zero32
  | succ fuel ih =>
      intro chunks numLeaves h
      cases chunks with
      | nil => exact handy_leaf size_zero32
      | cons b rest =>
          refine ⟨handy_perfect (handy_leaves ?_) _, ih _ ?_⟩
          · exact fun x hx => h x (List.mem_of_mem_take hx)
          · exact fun x hx => h x (List.mem_of_mem_drop hx)

theorem handy_counted {body : Shape ByteArray} (h : Handy body) (n : Nat) :
    Handy (counted body n) :=
  ⟨h, handy_leaf (size_natToChunk n)⟩

/-- The mask of a progressive container: it is the one leaf that may be wider than a chunk. -/
theorem fits_mask {active : List Bool} (h : Roomy active.length) :
    Fits (padToChunk (packBitsLE active)) := by
  by_cases hwide : (packBitsLE active).size ≤ bytesPerChunk
  · exact fits_of_size (size_padToChunk hwide)
  · rw [padToChunk, if_pos (Nat.le_of_not_le hwide), Fits, size_packBitsLE]
    unfold Roomy at h
    omega

mutual

theorem handy_tree : ∀ (s : SSZType) (x : s.interp), Storable s x → Handy (tree s x)
  | .uintN n, x, _ => by
      rw [tree]
      exact handy_leaf (size_uintRoot n x)
  | .bool, b, _ => by
      rw [tree]
      exact handy_leaf (size_boolRoot b)
  | .bitvector n, bv, _ => by
      rw [tree]
      exact handy_perfect (handy_leaves (size_chunkify _)) _
  | .bitlist _, _, _ => by
      rw [tree]
      exact handy_counted (handy_perfect (handy_leaves (size_chunkify _)) _) _
  | .vector t n, v, h => by
      rw [tree]
      rw [Storable] at h
      split
      · exact handy_perfect (handy_leaves (size_chunkify _)) _
      · exact handy_perfect (handy_trees t v.toList h.2) _
  | .list t _, xs, h => by
      rw [tree]
      rw [Storable] at h
      split
      · exact handy_counted (handy_perfect (handy_leaves (size_chunkify _)) _) _
      · exact handy_counted (handy_perfect (handy_trees t xs.val.toList h.2) _) _
  | .container fs, vs, h => by
      rw [tree]
      rw [Storable] at h
      exact handy_perfect (handy_fieldTrees fs vs h.2) _
  | .progressiveList t, xs, _ => by
      rw [tree]
      split
      · exact handy_counted (handy_shelves _ _ (size_chunkify _)) _
      · refine handy_counted (handy_shelves _ _ ?_) _
        intro b hb
        obtain ⟨u, hu, rfl⟩ := List.mem_map.mp hb
        exact size_root_trees t xs.toList u hu
  | .progressiveBitlist, _, _ => by
      rw [tree]
      exact handy_counted (handy_shelves _ _ (size_chunkify _)) _
  | .progressiveContainer active fs, vs, h => by
      rw [tree]
      rw [Storable] at h
      refine ⟨handy_shelves _ _ (size_placeActiveChunks active ?_), fits_mask h.1⟩
      intro b hb
      obtain ⟨u, hu, rfl⟩ := List.mem_map.mp hb
      exact size_root_fieldTrees fs vs u hu

theorem handy_fieldTrees : ∀ (fs : List SSZType) (vs : SSZType.interpFields fs),
    StorableFields fs vs → ∀ t ∈ fieldTrees fs vs, Handy t
  | [], _, _ => by
      intro t ht
      rw [fieldTrees] at ht
      exact absurd ht List.not_mem_nil
  | f :: fs, vs, h => by
      intro t ht
      rw [fieldTrees] at ht
      rw [StorableFields] at h
      obtain rfl | ht := List.mem_cons.mp ht
      · exact handy_tree f vs.1 h.1
      · exact handy_fieldTrees fs vs.2 h.2 t ht

theorem handy_trees : ∀ (s : SSZType) (xs : List s.interp),
    StorableElems s xs → ∀ t ∈ trees s xs, Handy t
  | _, [], _ => by
      intro t ht
      rw [trees] at ht
      exact absurd ht List.not_mem_nil
  | s, x :: xs, h => by
      intro t ht
      rw [trees] at ht
      rw [StorableElems] at h
      obtain rfl | ht := List.mem_cons.mp ht
      · exact handy_tree s x h.1
      · exact handy_trees s xs h.2 t ht

end

end HazmatSha256.Ssz
