import HazmatSha256.Ssz.Tree
set_option autoImplicit false

/-!
# Ssz: roots computed through the shims

`hashTreeRoot`, run by a thread with one batched call a level, computes the root of the
tree of its value.
-/

namespace HazmatSha256.Ssz

open Foundation Shape Boxed Isal Evp Shim Merkle

variable {σ κ : Type} {host : Host σ κ} {legal : Prop}

/-! ## Bodies -/

/-- Merkleized, the roots of some trees give the root of the perfect tree over them. -/
theorem perfect_computes (sound : host.Sound) {subs : List (Shape ByteArray)} {depth : Nat}
    (hdeep : subs.length ≤ 2 ^ depth) (hsize : ∀ t ∈ subs, (root t).size = bytesPerChunk)
    (hroom : legal → Roomy subs.length) :
    Computes host legal (merkleize (native host) (subs.map root) depth)
      (root (perfect subs depth)) := by
  rw [root_perfect]
  refine (merkleize_computes sound (by rwa [List.length_map])).weaken ?_
  intro hlegal
  refine ⟨?_, ?_⟩
  · intro b hb
    obtain ⟨t, ht, rfl⟩ := List.mem_map.mp hb
    exact hsize t ht
  · rw [List.length_map]
    exact hroom hlegal

theorem leaves_computes (sound : host.Sound) {chunks : List ByteArray} {depth : Nat}
    (hdeep : chunks.length ≤ 2 ^ depth) (hsize : ∀ b ∈ chunks, b.size = bytesPerChunk)
    (hroom : legal → Roomy chunks.length) :
    Computes host legal (merkleize (native host) chunks depth)
      (root (perfect (leaves chunks) depth)) := by
  have hlength : (leaves chunks).length = chunks.length := List.length_map leaf
  have hperfect : Computes host legal _ _ := perfect_computes sound (by rwa [hlength])
    (size_root_leaves hsize) (by rwa [hlength])
  rwa [map_root_leaves] at hperfect

theorem chunkify_computes (sound : host.Sound) {body : ByteArray} {depth : Nat}
    (hdeep : bytesToChunkCount body.size ≤ 2 ^ depth)
    (hroom : legal → Roomy (bytesToChunkCount body.size)) :
    Computes host legal (merkleize (native host) (chunkify body) depth)
      (root (perfect (leaves (chunkify body)) depth)) := by
  rw [← length_chunkify] at hdeep hroom
  exact leaves_computes sound hdeep (size_chunkify body) hroom

/-- Shelf by shelf. -/
theorem shelves_computes (sound : host.Sound) : ∀ (fuel : Nat) {chunks : List ByteArray}
    (numLeaves : Nat), (∀ b ∈ chunks, b.size = bytesPerChunk) → (legal → Roomy chunks.length) →
    Computes host legal (merkleizeProgressiveAux (native host) fuel chunks numLeaves)
      (root (shelves fuel chunks numLeaves)) := by
  intro fuel
  induction fuel with
  | zero =>
      intro chunks numLeaves _ _
      cases chunks <;> exact Computes.ret _
  | succ fuel ih =>
      intro chunks numLeaves hsize hroom
      cases chunks with
      | nil => exact Computes.ret _
      | cons b rest =>
          simp only [merkleizeProgressiveAux, shelves]
          have hwidth : (List.take (max numLeaves 1) (b :: rest)).length ≤
              2 ^ chunkDepth (max numLeaves 1) :=
            Nat.le_trans (List.length_take_le _ _) (le_two_pow_chunkDepth _)
          refine (leaves_computes sound hwidth
            (fun x hx => hsize x (List.mem_of_mem_take hx)) fun hlegal =>
              (hroom hlegal).mono (List.length_take_le' _ _)).bind ?_
          refine (ih (max numLeaves 1 * 4) (fun x hx => hsize x (List.mem_of_mem_drop hx))
            fun hlegal => (hroom hlegal).mono ?_).bind ?_
          · rw [List.length_drop]
            exact Nat.sub_le _ _
          · refine native_combine_computes sound (fun _ => fits_of_size ?_)
              fun _ => fits_of_size (size_root_shelves _ _ _)
            exact size_root_perfect
              (size_root_leaves fun x hx => hsize x (List.mem_of_mem_take hx)) _

theorem progressive_computes (sound : host.Sound) {chunks : List ByteArray}
    (hsize : ∀ b ∈ chunks, b.size = bytesPerChunk) (hroom : legal → Roomy chunks.length) :
    Computes host legal (merkleizeProgressive (native host) chunks) (root (progressive chunks)) :=
  shelves_computes sound chunks.length 1 hsize hroom

theorem mixInLength_computes (sound : host.Sound) {body : Shape ByteArray} (n : Nat)
    (hbody : (root body).size = bytesPerChunk) :
    Computes host legal (mixInLength (native host) (root body) n) (root (counted body n)) :=
  native_combine_computes sound (fun _ => fits_of_size hbody)
    fun _ => fits_of_size (size_natToChunk n)

/-! ## Values -/

theorem bitsToChunkCount_le {n cap : Nat} (h : n ≤ cap) :
    bytesToChunkCount ((n + 7) / 8) ≤ bitsToChunkCount cap := by
  simp only [bytesToChunkCount, bitsToChunkCount, bytesPerChunk]
  omega

theorem bytesToChunkCount_bits_le (n : Nat) : bytesToChunkCount ((n + 7) / 8) ≤ n := by
  simp only [bytesToChunkCount, bytesPerChunk]
  omega

theorem length_placeActiveChunks : ∀ (active : List Bool) (roots : List ByteArray),
    (placeActiveChunks active roots).length = active.length := by
  intro active
  induction active with
  | nil =>
      intro roots
      rfl
  | cons bit bits ih =>
      intro roots
      cases bit with
      | false => simp [placeActiveChunks, ih]
      | true => cases roots <;> simp [placeActiveChunks, ih]

theorem size_roots {subs : List (Shape ByteArray)}
    (h : ∀ t ∈ subs, (root t).size = bytesPerChunk) :
    ∀ b ∈ subs.map root, b.size = bytesPerChunk := by
  intro b hb
  obtain ⟨t, ht, rfl⟩ := List.mem_map.mp hb
  exact h t ht

theorem length_trees (t : SSZType) (xs : List t.interp) : (trees t xs).length = xs.length := by
  rw [trees_eq, List.length_map]

theorem chunkCount_vector_le {t : SSZType} {n : Nat} (ht : t.isBasicType = true)
    (v : Vector t.interp n) :
    bytesToChunkCount (SSZType.serialize (.vector t n) v).size ≤ n := by
  have hfixed : t.isFixedSize = true := by
    cases t with
    | uintN bits => rfl
    | bool => rfl
    | _ => exact Bool.noConfusion ht
  have hsize := size_serializeFixedElems ht v.toList
  rw [Vector.length_toList] at hsize
  rw [SSZType.serialize, if_pos hfixed]
  exact bytesToChunkCount_le hsize.2

mutual

theorem hashTreeRoot_computes (sound : host.Sound) : ∀ (s : SSZType) (x : s.interp),
    Computes host (Storable s x) (s.hashTreeRoot (native host) x) (root (tree s x))
  | .uintN n, x => by
      rw [SSZType.hashTreeRoot, tree]
      exact Computes.ret _
  | .bool, b => by
      rw [SSZType.hashTreeRoot, tree]
      exact Computes.ret _
  | .bitvector n, bv => by
      rw [SSZType.hashTreeRoot, tree]
      refine chunkify_computes sound ?_ ?_
      · rw [size_serialize_bitvector]
        exact le_two_pow_chunkDepth _
      · intro hroom
        rw [Storable] at hroom
        rwa [size_serialize_bitvector]
  | .bitlist cap, bs => by
      rw [SSZType.hashTreeRoot, tree]
      refine (chunkify_computes sound ?_ ?_).bind ?_
      · rw [size_bitBody]
        exact Nat.le_trans (bitsToChunkCount_le bs.property) (le_two_pow_chunkDepth _)
      · intro hroom
        rw [Storable] at hroom
        rw [size_bitBody]
        exact hroom.mono (bytesToChunkCount_bits_le _)
      · exact mixInLength_computes sound _
          (size_root_perfect (size_root_leaves (size_chunkify _)) _)
  | .vector t n, v => by
      rw [SSZType.hashTreeRoot, tree]
      split
      case isTrue ht =>
        refine chunkify_computes sound (le_two_pow_chunkDepth _) ?_
        intro hstore
        rw [Storable] at hstore
        exact hstore.1.mono (chunkCount_vector_le ht v)
      case isFalse =>
        refine ((hashTreeRootListComposite_computes sound t v.toList []).weaken ?_).bind ?_
        · intro hstore
          rw [Storable] at hstore
          exact hstore.2
        refine perfect_computes sound ?_ (size_root_trees t v.toList) ?_
        · rw [length_trees, Vector.length_toList]
          exact le_two_pow_chunkDepth n
        · intro hstore
          rw [Storable] at hstore
          rw [length_trees, Vector.length_toList]
          exact hstore.1
  | .list t cap, xs => by
      rw [SSZType.hashTreeRoot, tree]
      split
      case isTrue ht =>
        have hsize := size_serializeFixedElems ht xs.val.toList
        rw [Array.length_toList] at hsize
        refine (chunkify_computes sound ?_ ?_).bind ?_
        · refine Nat.le_trans (bytesToChunkCount_mono ?_) (le_two_pow_chunkDepth _)
          exact Nat.le_trans hsize.1 (Nat.mul_le_mul_right _ xs.property)
        · intro hstore
          rw [Storable] at hstore
          exact hstore.1.mono (bytesToChunkCount_le hsize.2)
        · exact mixInLength_computes sound _
            (size_root_perfect (size_root_leaves (size_chunkify _)) _)
      case isFalse =>
        refine ((hashTreeRootListComposite_computes sound t xs.val.toList []).weaken ?_).bind ?_
        · intro hstore
          rw [Storable] at hstore
          exact hstore.2
        refine (perfect_computes sound ?_ (size_root_trees t xs.val.toList) ?_).bind ?_
        · rw [length_trees, Array.length_toList]
          exact Nat.le_trans xs.property (le_two_pow_chunkDepth cap)
        · intro hstore
          rw [Storable] at hstore
          rw [length_trees, Array.length_toList]
          exact hstore.1
        · exact mixInLength_computes sound _ (size_root_perfect (size_root_trees t _) _)
  | .container fs, vs => by
      rw [SSZType.hashTreeRoot, tree]
      refine ((hashTreeRootFields_computes sound fs vs).weaken ?_).bind ?_
      · intro hstore
        rw [Storable] at hstore
        exact hstore.2
      refine perfect_computes sound ?_ (size_root_fieldTrees fs vs) ?_
      · rw [length_fieldTrees]
        exact le_two_pow_chunkDepth _
      · intro hstore
        rw [Storable] at hstore
        rw [length_fieldTrees]
        exact hstore.1
  | .progressiveList t, xs => by
      rw [SSZType.hashTreeRoot, tree]
      split
      case isTrue ht =>
        have hsize := size_serializeFixedElems ht xs.toList
        rw [Array.length_toList] at hsize
        refine (progressive_computes sound (size_chunkify _) ?_).bind ?_
        · intro hstore
          rw [Storable] at hstore
          rw [length_chunkify]
          exact hstore.1.mono (bytesToChunkCount_le hsize.2)
        · exact mixInLength_computes sound _ (size_root_shelves _ _ _)
      case isFalse =>
        refine ((hashTreeRootListComposite_computes sound t xs.toList []).weaken ?_).bind ?_
        · intro hstore
          rw [Storable] at hstore
          exact hstore.2
        refine (progressive_computes sound ?_ ?_).bind ?_
        · exact size_roots (size_root_trees t xs.toList)
        · intro hstore
          rw [Storable] at hstore
          change Roomy ((trees t xs.toList).map root).length
          rw [List.length_map, length_trees, Array.length_toList]
          exact hstore.1
        · exact mixInLength_computes sound _ (size_root_shelves _ _ _)
  | .progressiveBitlist, bs => by
      rw [SSZType.hashTreeRoot, tree]
      refine (progressive_computes sound (size_chunkify _) ?_).bind ?_
      · intro hstore
        rw [Storable] at hstore
        rw [length_chunkify, size_bitBody]
        exact hstore.mono (bytesToChunkCount_bits_le _)
      · exact mixInLength_computes sound _ (size_root_shelves _ _ _)
  | .progressiveContainer active fs, vs => by
      rw [SSZType.hashTreeRoot, tree]
      refine ((hashTreeRootFields_computes sound fs vs).weaken ?_).bind ?_
      · intro hstore
        rw [Storable] at hstore
        exact hstore.2
      refine (progressive_computes sound ?_ ?_).bind ?_
      · exact size_placeActiveChunks active (size_roots (size_root_fieldTrees fs vs))
      · intro hstore
        rw [Storable] at hstore
        rw [length_placeActiveChunks]
        exact hstore.1
      · refine native_combine_computes sound (fun _ => fits_of_size (size_root_shelves _ _ _)) ?_
        intro hstore
        rw [Storable] at hstore
        exact fits_mask hstore.1

theorem hashTreeRootFields_computes (sound : host.Sound) : ∀ (fs : List SSZType)
    (vs : SSZType.interpFields fs), Computes host (StorableFields fs vs)
      (SSZType.hashTreeRootFields (native host) fs vs) ((fieldTrees fs vs).map root)
  | [], _ => by
      rw [SSZType.hashTreeRootFields, fieldTrees]
      exact Computes.ret _
  | t :: ts, vs => by
      rw [SSZType.hashTreeRootFields, fieldTrees, List.map_cons]
      refine ((hashTreeRoot_computes sound t vs.1).weaken ?_).bind ?_
      · intro hstore
        rw [StorableFields] at hstore
        exact hstore.1
      refine ((hashTreeRootFields_computes sound ts vs.2).weaken ?_).bind (Computes.ret _)
      intro hstore
      rw [StorableFields] at hstore
      exact hstore.2

theorem hashTreeRootListComposite_computes (sound : host.Sound) : ∀ (t : SSZType)
    (xs : List t.interp) (acc : List ByteArray), Computes host (StorableElems t xs)
      (SSZType.hashTreeRootListComposite (native host) t xs acc)
      (acc.reverse ++ (trees t xs).map root)
  | _, [], acc => by
      rw [SSZType.hashTreeRootListComposite, trees, List.map_nil, List.append_nil]
      exact Computes.ret _
  | t, x :: xs, acc => by
      rw [SSZType.hashTreeRootListComposite, trees, List.map_cons]
      refine ((hashTreeRoot_computes sound t x).weaken ?_).bind ?_
      · intro hstore
        rw [StorableElems] at hstore
        exact hstore.1
      have hrest := hashTreeRootListComposite_computes sound t xs (root (tree t x) :: acc)
      rw [List.reverse_cons, List.append_assoc] at hrest
      refine hrest.weaken ?_
      intro hstore
      rw [StorableElems] at hstore
      exact hstore.2

end

/-- For a thread between calls, any shape and any value of it: where the host serves and the
arrays in the value can exist the root is computed; if a root is returned, it is that of the
tree of the value, whichever backend hashed it, and the thread is between calls again; and
if none is, the process panicked. -/
theorem hashTreeRoot_delivers (sound : host.Sound) (s : SSZType) (x : s.interp) {t : Thread σ}
    (resting : t.Resting) :
    (host.Serves → Storable s x → ∃ r t', s.hashTreeRoot (native host) x t = .ok r t') ∧
    (∀ r t', s.hashTreeRoot (native host) x t = .ok r t' → r = root (tree s x) ∧ t'.Resting) ∧
    ∀ e t', s.hashTreeRoot (native host) x t = .error e t' →
      (∃ msg, e = .panic msg) ∧ ¬ (host.Serves ∧ Storable s x) := by
  have hrun := hashTreeRoot_computes sound s x t resting
  refine ⟨?_, fun r t' hok => hrun.of_ok hok, fun e t' herr => hrun.of_error herr⟩
  intro serves hstore
  obtain ⟨r, t', hok, -⟩ := (hashTreeRoot_computes sound s x).returns serves hstore resting
  exact ⟨r, t', hok⟩

/-- A progressive list with a bit vector and a bit list in each element. -/
abbrev sampleType : SSZType := .progressiveList (.container [.bitvector 9, .bitlist 4])

def sampleValue : sampleType.interp :=
  #[(0x101#9, ⟨#[true], by decide⟩, ⟨⟩), (0#9, ⟨#[], by decide⟩, ⟨⟩)]

theorem sampleValue_storable : Storable sampleType sampleValue := by
  have hroomy : ∀ n, n ≤ 4 → Roomy n := by
    intro n hn
    simp only [Roomy, objectHeader, ptrdiffMax]
    omega
  have helem : ∀ x : (SSZType.container [.bitvector 9, .bitlist 4]).interp, Storable _ x := by
    intro x
    rw [Storable, StorableFields, StorableFields, StorableFields, Storable, Storable]
    exact ⟨hroomy _ (by decide), hroomy _ (by decide), hroomy _ x.2.1.property, trivial⟩
  rw [Storable]
  refine ⟨hroomy _ (by decide), ?_⟩
  change StorableElems _ [_, _]
  rw [StorableElems, StorableElems, StorableElems]
  exact ⟨helem _, helem _, trivial⟩

theorem hashTreeRoot_delivers_sample :
    ∃ t', SSZType.hashTreeRoot (native (referenceHost true 2 [1, 0, 1])) sampleType sampleValue
      (newThread 0) = .ok (root (tree sampleType sampleValue)) t' := by
  obtain ⟨hreturns, hroot, -⟩ := hashTreeRoot_delivers (referenceHost_sound true 2 [1, 0, 1])
    sampleType sampleValue (newThread_ready 0).resting
  obtain ⟨r, t', hok⟩ := hreturns (referenceHost_serves true 2 [1, 0, 1]) sampleValue_storable
  obtain ⟨rfl, -⟩ := hroot r t' hok
  exact ⟨t', hok⟩

end HazmatSha256.Ssz
