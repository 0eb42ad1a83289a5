import HazmatSha256.Foundation.Opening
import HazmatSha256.Ssz.Leaves
import HazmatSha256.Ssz.Root
set_option autoImplicit false

/-!
# Ssz: a root determines its value

Values of one shape with the same root are the same, unless among the messages that are hashed
for the one and for the other there are two that differ and have the same digest.
-/

namespace HazmatSha256.Ssz

open Foundation Shape Boxed Isal Evp Shim Merkle SSZType

/-! ## Collisions -/

/-- The message that is hashed for a pair. -/
def messages (us : List (ByteArray × ByteArray)) : List ByteArray := us.map fun u => u.1 ++ u.2

/-- Two of the messages differ and have the same digest. -/
def Collide (ms ms' : List ByteArray) : Prop :=
  ∃ m ∈ ms, ∃ m' ∈ ms', m ≠ m' ∧ Spec.hash m = Spec.hash m'

theorem Collide.mono {us vs us' vs' : List (ByteArray × ByteArray)}
    (h : Collide (messages us) (messages vs)) (hu : us ⊆ us') (hv : vs ⊆ vs') :
    Collide (messages us') (messages vs') := by
  obtain ⟨m, hmem, m', hmem', hne, heq⟩ := h
  exact ⟨m, List.map_subset _ hu hmem, m', List.map_subset _ hv hmem', hne, heq⟩

/-- All left halves are chunks. -/
def Aligned (us : List (ByteArray × ByteArray)) : Prop := ∀ u ∈ us, u.1.size = bytesPerChunk

/-- With halves of known width, different pairs are different messages. -/
theorem Collide.of_clash {us vs : List (ByteArray × ByteArray)} (hu : Aligned us) (hv : Aligned vs)
    (h : Clash Spec.combine us vs) : Collide (messages us) (messages vs) := by
  obtain ⟨u, hmem, v, hmem', hne, heq⟩ := h
  refine ⟨_, List.mem_map_of_mem hmem, _, List.mem_map_of_mem hmem', fun hsame => hne ?_, heq⟩
  have hleft := ByteArray.append_inj_left hsame ((hu u hmem).trans (hv v hmem').symm)
  have hright : u.2 = v.2 := by
    rw [hleft] at hsame
    exact (ByteArray.append_right_inj _).mp hsame
  exact Prod.ext hleft hright

/-! ## What is hashed -/

mutual

/-- The pairs that are combined for the parts of a value. -/
def hashedParts : (s : SSZType) → s.interp → List (ByteArray × ByteArray)
  | .uintN _, _ => []
  | .bool, _ => []
  | .bitvector _, _ => []
  | .bitlist _, _ => []
  | .vector t _, v => hashedElems t v.toList
  | .list t _, xs => hashedElems t xs.val.toList
  | .container fs, vs => hashedFields fs vs
  | .progressiveList t, xs => hashedElems t xs.toList
  | .progressiveBitlist, _ => []
  | .progressiveContainer _ fs, vs => hashedFields fs vs

def hashedElems : (t : SSZType) → List t.interp → List (ByteArray × ByteArray)
  | _, [] => []
  | t, x :: xs => (tree t x).pairs Spec.combine ++ hashedParts t x ++ hashedElems t xs

def hashedFields : (fs : List SSZType) → interpFields fs → List (ByteArray × ByteArray)
  | [], _ => []
  | t :: ts, vs => (tree t vs.1).pairs Spec.combine ++ hashedParts t vs.1 ++ hashedFields ts vs.2

end

/-- The pairs that are combined for the root of a value. -/
def hashed (s : SSZType) (x : s.interp) : List (ByteArray × ByteArray) :=
  (tree s x).pairs Spec.combine ++ hashedParts s x

/-! ## Widths -/

theorem Aligned.append {us vs : List (ByteArray × ByteArray)} (hu : Aligned us) (hv : Aligned vs) :
    Aligned (us ++ vs) := by
  intro w hw
  rcases List.mem_append.mp hw with h | h
  · exact hu w h
  · exact hv w h

theorem aligned_leaf (b : ByteArray) : Aligned ((leaf b).pairs Spec.combine) :=
  fun _ hu => absurd hu List.not_mem_nil

theorem aligned_pair {l r : Shape ByteArray} (hsize : (root l).size = bytesPerChunk)
    (hl : Aligned (l.pairs Spec.combine)) (hr : Aligned (r.pairs Spec.combine)) :
    Aligned ((pair l r).pairs Spec.combine) := by
  intro u hu
  rcases List.mem_cons.mp hu with rfl | hu
  · exact hsize
  · exact hl.append hr u hu

theorem aligned_perfect {subs : List (Shape ByteArray)} (depth : Nat)
    (hsize : ∀ t ∈ subs, (root t).size = bytesPerChunk)
    (h : ∀ t ∈ subs, Aligned (t.pairs Spec.combine)) :
    Aligned ((perfect subs depth).pairs Spec.combine) := by
  have hplace : ∀ k, (root (padded subs (leaf zero32) k)).size = bytesPerChunk ∧
      Aligned ((padded subs (leaf zero32) k).pairs Spec.combine) := by
    intro k
    rcases Nat.lt_or_ge k subs.length with hk | hk
    · rw [padded_of_lt _ hk]
      exact ⟨hsize _ (List.getElem_mem hk), h _ (List.getElem_mem hk)⟩
    · rw [padded_of_le _ hk]
      exact ⟨size_zero32, aligned_leaf _⟩
  have hnode : ∀ d i, Aligned ((node pair (padded subs (leaf zero32)) d i).pairs Spec.combine) := by
    intro d
    induction d with
    | zero =>
        intro i
        exact (hplace i).2
    | succ d ih =>
        intro i
        refine aligned_pair ?_ (ih _) (ih _)
        rw [root, value_node]
        exact size_node (fun k => (hplace k).1) d _
  exact hnode depth 0

theorem aligned_leaves {chunks : List ByteArray} (h : ∀ b ∈ chunks, b.size = bytesPerChunk)
    (depth : Nat) : Aligned ((perfect (leaves chunks) depth).pairs Spec.combine) := by
  refine aligned_perfect depth (size_root_leaves h) fun t ht => ?_
  obtain ⟨b, -, rfl⟩ := List.mem_map.mp ht
  exact aligned_leaf b

theorem aligned_shelves : ∀ (fuel : Nat) {chunks : List ByteArray} (numLeaves : Nat),
    (∀ b ∈ chunks, b.size = bytesPerChunk) →
    Aligned ((shelves fuel chunks numLeaves).pairs Spec.combine) := by
  intro fuel
  induction fuel with
  | zero =>
      intro chunks numLeaves _
      cases chunks <;> exact aligned_leaf _
  | succ fuel ih =>
      intro chunks numLeaves h
      cases chunks with
      | nil => exact aligned_leaf _
      | cons b rest =>
          have hshelf : ∀ x ∈ (b :: rest).take (max numLeaves 1), x.size = bytesPerChunk :=
            fun x hx => h x (List.mem_of_mem_take hx)
          refine aligned_pair (size_root_perfect (size_root_leaves hshelf) _)
            (aligned_leaves hshelf _) (ih _ fun x hx => h x (List.mem_of_mem_drop hx))

mutual

theorem aligned_tree : ∀ (s : SSZType) (x : s.interp), Aligned ((tree s x).pairs Spec.combine)
  | .uintN _, _ => by
      rw [tree]
      exact aligned_leaf _
  | .bool, _ => by
      rw [tree]
      exact aligned_leaf _
  | .bitvector _, _ => by
      rw [tree]
      exact aligned_leaves (size_chunkify _) _
  | .bitlist _, _ => by
      rw [tree]
      exact aligned_pair (size_root_perfect (size_root_leaves (size_chunkify _)) _)
        (aligned_leaves (size_chunkify _) _) (aligned_leaf _)
  | .vector t _, v => by
      rw [tree]
      split
      · exact aligned_leaves (size_chunkify _) _
      · exact aligned_perfect _ (size_root_trees t _) (aligned_trees t _)
  | .list t _, xs => by
      rw [tree]
      split
      · exact aligned_pair (size_root_perfect (size_root_leaves (size_chunkify _)) _)
          (aligned_leaves (size_chunkify _) _) (aligned_leaf _)
      · exact aligned_pair (size_root_perfect (size_root_trees t _) _)
          (aligned_perfect _ (size_root_trees t _) (aligned_trees t _)) (aligned_leaf _)
  | .container fs, vs => by
      rw [tree]
      exact aligned_perfect _ (size_root_fieldTrees fs vs) (aligned_fieldTrees fs vs)
  | .progressiveList t, xs => by
      rw [tree]
      split
      · exact aligned_pair (size_root_shelves _ _ _) (aligned_shelves _ _ (size_chunkify _))
          (aligned_leaf _)
      · exact aligned_pair (size_root_shelves _ _ _)
          (aligned_shelves _ _ (size_roots (size_root_trees t _))) (aligned_leaf _)
  | .progressiveBitlist, _ => by
      rw [tree]
      exact aligned_pair (size_root_shelves _ _ _) (aligned_shelves _ _ (size_chunkify _))
        (aligned_leaf _)
  | .progressiveContainer active fs, vs => by
      rw [tree]
      refine aligned_pair (size_root_shelves _ _ _) (aligned_shelves _ _ ?_) (aligned_leaf _)
      exact size_placeActiveChunks active (size_roots (size_root_fieldTrees fs vs))

theorem aligned_fieldTrees : ∀ (fs : List SSZType) (vs : interpFields fs),
    ∀ t ∈ fieldTrees fs vs, Aligned (t.pairs Spec.combine)
  | [], _ => by
      intro t ht
      rw [fieldTrees] at ht
      exact absurd ht List.not_mem_nil
  | f :: fs, vs => by
      intro t ht
      rw [fieldTrees] at ht
      rcases List.mem_cons.mp ht with rfl | ht
      · exact aligned_tree f vs.1
      · exact aligned_fieldTrees fs vs.2 t ht

theorem aligned_trees : ∀ (s : SSZType) (xs : List s.interp),
    ∀ t ∈ trees s xs, Aligned (t.pairs Spec.combine)
  | _, [] => by
      intro t ht
      rw [trees] at ht
      exact absurd ht List.not_mem_nil
  | s, x :: xs => by
      intro t ht
      rw [trees] at ht
      rcases List.mem_cons.mp ht with rfl | ht
      · exact aligned_tree s x
      · exact aligned_trees s xs t ht

end

mutual

theorem aligned_hashedParts : ∀ (s : SSZType) (x : s.interp), Aligned (hashedParts s x)
  | .uintN _, _ | .bool, _ | .bitvector _, _ | .bitlist _, _ | .progressiveBitlist, _ => by
      rw [hashedParts]
      exact fun _ hu => absurd hu List.not_mem_nil
  | .vector t _, v => by
      rw [hashedParts]
      exact aligned_hashedElems t v.toList
  | .list t _, xs => by
      rw [hashedParts]
      exact aligned_hashedElems t xs.val.toList
  | .container fs, vs => by
      rw [hashedParts]
      exact aligned_hashedFields fs vs
  | .progressiveList t, xs => by
      rw [hashedParts]
      exact aligned_hashedElems t xs.toList
  | .progressiveContainer _ fs, vs => by
      rw [hashedParts]
      exact aligned_hashedFields fs vs

theorem aligned_hashedElems : ∀ (t : SSZType) (xs : List t.interp), Aligned (hashedElems t xs)
  | _, [] => by
      rw [hashedElems]
      exact fun _ hu => absurd hu List.not_mem_nil
  | t, x :: xs => by
      rw [hashedElems]
      exact ((aligned_tree t x).append (aligned_hashedParts t x)).append (aligned_hashedElems t xs)

theorem aligned_hashedFields : ∀ (fs : List SSZType) (vs : interpFields fs),
    Aligned (hashedFields fs vs)
  | [], _ => by
      rw [hashedFields]
      exact fun _ hu => absurd hu List.not_mem_nil
  | t :: ts, vs => by
      rw [hashedFields]
      exact ((aligned_tree t vs.1).append (aligned_hashedParts t vs.1)).append
        (aligned_hashedFields ts vs.2)

end

theorem aligned_hashed (s : SSZType) (x : s.interp) : Aligned (hashed s x) :=
  (aligned_tree s x).append (aligned_hashedParts s x)

/-! ## Rows and shelves -/

/-- No pair of one tree clashes with a pair of the other. -/
abbrev Free (t t' : Shape ByteArray) : Prop :=
  ¬ Clash Spec.combine (t.pairs Spec.combine) (t'.pairs Spec.combine)

theorem map_root_eq {subs subs' : List (Shape ByteArray)} {d : Nat}
    (hlength : subs.length = subs'.length) (hdeep : subs.length ≤ 2 ^ d)
    (free : Free (perfect subs d) (perfect subs' d))
    (h : root (perfect subs d) = root (perfect subs' d)) : subs.map root = subs'.map root := by
  refine List.ext_getElem (by rw [List.length_map, List.length_map, hlength]) fun k hk hk' => ?_
  rw [List.length_map] at hk hk'
  have hplace : k < 2 ^ d := Nat.lt_of_lt_of_le hk hdeep
  have hsub := sub_row_of_getElem? hplace (List.getElem?_eq_getElem hk) []
  have hsub' := sub_row_of_getElem? hplace (List.getElem?_eq_getElem hk') []
  rw [sub_nil] at hsub hsub'
  rw [List.getElem_map, List.getElem_map]
  exact value_sub_eq free h hsub hsub'

theorem chunks_eq {chunks chunks' : List ByteArray} {d : Nat}
    (hlength : chunks.length = chunks'.length) (hdeep : chunks.length ≤ 2 ^ d)
    (free : Free (perfect (leaves chunks) d) (perfect (leaves chunks') d))
    (h : root (perfect (leaves chunks) d) = root (perfect (leaves chunks') d)) :
    chunks = chunks' := by
  have hlen : ∀ cs : List ByteArray, (leaves cs).length = cs.length := fun cs => List.length_map leaf
  have hroots := map_root_eq (by rw [hlen, hlen, hlength]) (by rwa [hlen]) free h
  rwa [map_root_leaves, map_root_leaves] at hroots

/-- Shelf by shelf. -/
theorem shelves_eq : ∀ {fuel : Nat} {chunks chunks' : List ByteArray} {numLeaves : Nat},
    chunks.length = chunks'.length → chunks.length ≤ fuel →
    Free (shelves fuel chunks numLeaves) (shelves fuel chunks' numLeaves) →
    root (shelves fuel chunks numLeaves) = root (shelves fuel chunks' numLeaves) →
    chunks = chunks' := by
  intro fuel
  induction fuel with
  | zero =>
      intro chunks chunks' numLeaves hlength hfuel _ _
      have hnil : chunks = [] := List.length_eq_zero_iff.mp (Nat.le_zero.mp hfuel)
      subst hnil
      exact (List.length_eq_zero_iff.mp hlength.symm).symm
  | succ fuel ih =>
      intro chunks chunks' numLeaves hlength hfuel free h
      cases chunks with
      | nil => exact (List.length_eq_zero_iff.mp hlength.symm).symm
      | cons b rest =>
          cases chunks' with
          | nil => cases hlength
          | cons b' rest' =>
              simp only [shelves] at free h
              obtain ⟨hshelf, hbelow⟩ := sides_eq free h
              have htake : (b :: rest).take (max numLeaves 1) =
                  (b' :: rest').take (max numLeaves 1) := by
                refine chunks_eq ?_ ?_ (free_left (free_tail free)) hshelf
                · rw [List.length_take, List.length_take, hlength]
                · exact Nat.le_trans (List.length_take_le _ _) (le_two_pow_chunkDepth _)
              have hdrop : (b :: rest).drop (max numLeaves 1) =
                  (b' :: rest').drop (max numLeaves 1) := by
                refine ih ?_ ?_ (free_right (free_tail free)) hbelow
                · rw [List.length_drop, List.length_drop, hlength]
                · rw [List.length_drop]
                  omega
              rw [← List.take_append_drop (max numLeaves 1) (b :: rest), htake, hdrop,
                List.take_append_drop]

theorem progressive_eq {chunks chunks' : List ByteArray} (hlength : chunks.length = chunks'.length)
    (free : Free (progressive chunks) (progressive chunks'))
    (h : root (progressive chunks) = root (progressive chunks')) : chunks = chunks' := by
  rw [progressive, progressive, ← hlength] at free h
  exact shelves_eq hlength (Nat.le_refl _) free h

theorem Roomy.lt {n : Nat} (h : Roomy n) : n < 256 ^ bytesPerChunk := by
  have hbound : ptrdiffMax < 256 ^ bytesPerChunk := by decide
  unfold Roomy at h
  omega

/-- Counted trees with one root count the same over bodies with one root. -/
theorem counted_eq {body body' : Shape ByteArray} {n n' : Nat} (hn : Roomy n) (hn' : Roomy n')
    (free : Free (counted body n) (counted body' n'))
    (h : root (counted body n) = root (counted body' n')) :
    n = n' ∧ root body = root body' ∧ Free body body' := by
  obtain ⟨hbody, hlength⟩ := sides_eq free h
  exact ⟨natToChunk_inj hn.lt hn'.lt hlength, hbody, free_left (free_tail free)⟩

theorem placeActiveChunks_inj : ∀ {active : List Bool} {rs rs' : List ByteArray},
    rs.length = rs'.length → rs.length ≤ active.count true →
    placeActiveChunks active rs = placeActiveChunks active rs' → rs = rs' := by
  intro active
  induction active with
  | nil =>
      intro rs rs' hlength hcount _
      have hnil : rs = [] := List.length_eq_zero_iff.mp (Nat.le_zero.mp hcount)
      subst hnil
      exact (List.length_eq_zero_iff.mp hlength.symm).symm
  | cons bit bits ih =>
      intro rs rs' hlength hcount h
      cases bit with
      | false => exact ih hlength hcount (List.cons.inj h).2
      | true =>
          cases rs with
          | nil => exact (List.length_eq_zero_iff.mp hlength.symm).symm
          | cons r rs =>
              cases rs' with
              | nil => cases hlength
              | cons r' rs' =>
                  obtain ⟨rfl, hrest⟩ := List.cons.inj h
                  rw [List.count_cons_self] at hcount
                  rw [ih (Nat.succ.inj hlength) (Nat.le_of_succ_le_succ hcount) hrest]

/-! ## Values -/

namespace SSZType

mutual

/-- Every field of a progressive container has an active place. -/
def placed : SSZType → Bool
  | .vector t _ => t.placed
  | .list t _ => t.placed
  | .container fs => allPlaced fs
  | .progressiveList t => t.placed
  | .progressiveContainer active fs => decide (fs.length ≤ active.count true) && allPlaced fs
  | _ => true

def allPlaced : List SSZType → Bool
  | [] => true
  | t :: ts => t.placed && allPlaced ts

end

end SSZType

theorem size_serialize_list {t : SSZType} (hbasic : t.isBasicType = true) (ht : t.codable = true)
    {xs ys : List t.interp} (h : xs.length = ys.length) :
    (serializeFixedElems t xs).size = (serializeFixedElems t ys).size := by
  rw [size_serializeFixedElems_of_basic hbasic ht, size_serializeFixedElems_of_basic hbasic ht, h]

theorem length_chunks_eq {a b : ByteArray} (h : a.size = b.size) :
    (chunkify a).length = (chunkify b).length := by
  rw [length_chunkify, length_chunkify, h]

/-- Perfect trees over bodies of one size. -/
theorem body_eq {a b : ByteArray} {d : Nat} (hsize : a.size = b.size)
    (hdeep : bytesToChunkCount a.size ≤ 2 ^ d)
    (free : Free (perfect (leaves (chunkify a)) d) (perfect (leaves (chunkify b)) d))
    (h : root (perfect (leaves (chunkify a)) d) = root (perfect (leaves (chunkify b)) d)) :
    a = b :=
  chunkify_inj hsize (chunks_eq (length_chunks_eq hsize) (by rwa [length_chunkify]) free h)

/-- Perfect trees over as many packed elements. -/
theorem packed_eq {t : SSZType} (hbasic : t.isBasicType = true) (ht : t.codable = true)
    {xs ys : List t.interp} (hlength : xs.length = ys.length) {d : Nat}
    (hdeep : bytesToChunkCount (serializeFixedElems t xs).size ≤ 2 ^ d)
    (free : Free (perfect (leaves (chunkify (serializeFixedElems t xs))) d)
      (perfect (leaves (chunkify (serializeFixedElems t ys))) d))
    (h : root (perfect (leaves (chunkify (serializeFixedElems t xs))) d) =
      root (perfect (leaves (chunkify (serializeFixedElems t ys))) d)) : xs = ys := by
  have hsize := size_serialize_list hbasic ht hlength
  exact serializeFixedElems_inj hbasic ht hlength (body_eq hsize hdeep free h)

mutual

/-- Values with one root are the same, where no two of the pairs clash. -/
theorem eq_of_root_eq : ∀ (s : SSZType) (x y : s.interp), s.codable = true → s.placed = true →
    Storable s x → Storable s y → ¬ Clash Spec.combine (hashed s x) (hashed s y) →
    root (tree s x) = root (tree s y) → x = y
  | .uintN n, x, y, hs, _, _, _, _, h => by
      rw [codable] at hs
      rw [tree, tree] at h
      exact uintRoot_inj hs h
  | .bool, x, y, _, _, _, _, _, h => by
      rw [tree, tree] at h
      exact boolRoot_inj h
  | .bitvector n, x, y, _, _, _, _, free, h => by
      have free := free_left free
      rw [tree, tree] at free h
      have hbody := body_eq (by rw [size_serialize_bitvector, size_serialize_bitvector])
        (by rw [size_serialize_bitvector]; exact le_two_pow_chunkDepth _) free h
      rw [serialize, serialize] at hbody
      exact bitvecToBytes_inj hbody
  | .bitlist cap, x, y, _, _, hx, hy, free, h => by
      have free := free_left free
      rw [Storable] at hx hy
      rw [tree, tree] at free h
      obtain ⟨hsize, hbody, free⟩ := counted_eq hx hy free h
      refine Subtype.ext (bitBody_inj hsize (body_eq ?_ ?_ free hbody))
      · rw [size_bitBody, size_bitBody, hsize]
      · rw [size_bitBody]
        exact Nat.le_trans (bitsToChunkCount_le x.property) (le_two_pow_chunkDepth _)
  | .vector t n, x, y, hs, hp, hx, hy, free, h => by
      have freeTree := free_left free
      have freeParts := free_right free
      rw [codable, Bool.and_eq_true] at hs
      rw [placed] at hp
      rw [Storable] at hx hy
      rw [tree, tree] at freeTree h
      rw [hashedParts, hashedParts] at freeParts
      have hlength : x.toList.length = y.toList.length := by simp
      by_cases hbasic : t.isBasicType = true
      · have hfixed := isFixedSize_of_isBasicType hbasic
        rw [if_pos hbasic, if_pos hbasic] at freeTree h
        dsimp only at freeTree h
        rw [serialize, serialize, if_pos hfixed, if_pos hfixed] at freeTree h
        have hsize := size_serialize_list hbasic hs.2 hlength
        rw [← hsize] at freeTree h
        exact Vector.toList_inj.mp
          (packed_eq hbasic hs.2 hlength (le_two_pow_chunkDepth _) freeTree h)
      · rw [if_neg hbasic, if_neg hbasic] at freeTree h
        have hroots := map_root_eq (by rw [length_trees, length_trees, hlength])
          (by rw [length_trees, Vector.length_toList]; exact le_two_pow_chunkDepth n) freeTree h
        exact Vector.toList_inj.mp
          (elems_eq_of_roots_eq t _ _ hs.2 hp hx.2 hy.2 freeParts hroots)
  | .list t cap, x, y, hs, hp, hx, hy, free, h => by
      have freeTree := free_left free
      have freeParts := free_right free
      rw [codable, Bool.and_eq_true] at hs
      rw [placed] at hp
      rw [Storable] at hx hy
      rw [tree, tree] at freeTree h
      rw [hashedParts, hashedParts] at freeParts
      by_cases hbasic : t.isBasicType = true
      · rw [if_pos hbasic, if_pos hbasic] at freeTree h
        obtain ⟨hcount, hbody, freeBody⟩ := counted_eq hx.1 hy.1 freeTree h
        have hlength : x.val.toList.length = y.val.toList.length := by simpa using hcount
        have hdeep : bytesToChunkCount (serializeFixedElems t x.val.toList).size ≤
            2 ^ chunkDepth (bytesToChunkCount (cap * t.fixedByteSize)) := by
          rw [size_serializeFixedElems_of_basic hbasic hs.1, Array.length_toList]
          exact Nat.le_trans (bytesToChunkCount_mono (Nat.mul_le_mul_right _ x.property))
            (le_two_pow_chunkDepth _)
        exact Subtype.ext (Array.toList_inj.mp
          (packed_eq hbasic hs.1 hlength hdeep freeBody hbody))
      · rw [if_neg hbasic, if_neg hbasic] at freeTree h
        obtain ⟨hcount, hbody, freeBody⟩ := counted_eq hx.1 hy.1 freeTree h
        have hlength : x.val.toList.length = y.val.toList.length := by simpa using hcount
        have hdeep : (trees t x.val.toList).length ≤ 2 ^ chunkDepth cap := by
          rw [length_trees, Array.length_toList]
          exact Nat.le_trans x.property (le_two_pow_chunkDepth cap)
        have hroots := map_root_eq (by rw [length_trees, length_trees, hlength]) hdeep freeBody
          hbody
        exact Subtype.ext (Array.toList_inj.mp
          (elems_eq_of_roots_eq t _ _ hs.1 hp hx.2 hy.2 freeParts hroots))
  | .container fs, x, y, hs, hp, hx, hy, free, h => by
      have freeTree := free_left free
      have freeParts := free_right free
      rw [codable] at hs
      rw [placed] at hp
      rw [Storable] at hx hy
      rw [tree, tree] at freeTree h
      rw [hashedParts, hashedParts] at freeParts
      refine fields_eq_of_roots_eq fs x y hs hp hx.2 hy.2 freeParts
        (map_root_eq ?_ ?_ freeTree h)
      · rw [length_fieldTrees, length_fieldTrees]
      · rw [length_fieldTrees]
        exact le_two_pow_chunkDepth _
  | .progressiveList t, x, y, hs, hp, hx, hy, free, h => by
      have freeTree := free_left free
      have freeParts := free_right free
      rw [codable, Bool.and_eq_true] at hs
      rw [placed] at hp
      rw [Storable] at hx hy
      rw [tree, tree] at freeTree h
      rw [hashedParts, hashedParts] at freeParts
      by_cases hbasic : t.isBasicType = true
      · rw [if_pos hbasic, if_pos hbasic] at freeTree h
        obtain ⟨hcount, hbody, freeBody⟩ := counted_eq hx.1 hy.1 freeTree h
        have hlength : x.toList.length = y.toList.length := by simpa using hcount
        have hsize := size_serialize_list hbasic hs.1 hlength
        have hbytes := chunkify_inj hsize (progressive_eq (length_chunks_eq hsize) freeBody hbody)
        exact Array.toList_inj.mp (serializeFixedElems_inj hbasic hs.1 hlength hbytes)
      · rw [if_neg hbasic, if_neg hbasic] at freeTree h
        obtain ⟨hcount, hbody, freeBody⟩ := counted_eq hx.1 hy.1 freeTree h
        have hlength : x.toList.length = y.toList.length := by simpa using hcount
        have hroots := progressive_eq (by simp [length_trees, hlength]) freeBody hbody
        exact Array.toList_inj.mp
          (elems_eq_of_roots_eq t _ _ hs.1 hp hx.2 hy.2 freeParts hroots)
  | .progressiveBitlist, x, y, _, _, hx, hy, free, h => by
      have free := free_left free
      rw [Storable] at hx hy
      rw [tree, tree] at free h
      obtain ⟨hsize, hbody, free⟩ := counted_eq hx hy free h
      have hbytes : (bitBody x).size = (bitBody y).size := by
        rw [size_bitBody, size_bitBody, hsize]
      exact bitBody_inj hsize (chunkify_inj hbytes
        (progressive_eq (length_chunks_eq hbytes) free hbody))
  | .progressiveContainer active fs, x, y, hs, hp, hx, hy, free, h => by
      have freeTree := free_left free
      have freeParts := free_right free
      rw [codable] at hs
      rw [placed, Bool.and_eq_true, decide_eq_true_eq] at hp
      rw [Storable] at hx hy
      rw [tree, tree] at freeTree h
      rw [hashedParts, hashedParts] at freeParts
      have hbody := progressive_eq (by
        rw [length_placeActiveChunks, length_placeActiveChunks])
        (free_left (free_tail freeTree)) (sides_eq freeTree h).1
      refine fields_eq_of_roots_eq fs x y hs hp.2 hx.2 hy.2 freeParts
        (placeActiveChunks_inj ?_ ?_ hbody)
      · rw [List.length_map, List.length_map, length_fieldTrees, length_fieldTrees]
      · rw [List.length_map, length_fieldTrees]
        exact hp.1

theorem fields_eq_of_roots_eq : ∀ (fs : List SSZType) (vs ws : interpFields fs),
    allCodable fs = true → allPlaced fs = true → StorableFields fs vs → StorableFields fs ws →
    ¬ Clash Spec.combine (hashedFields fs vs) (hashedFields fs ws) →
    (fieldTrees fs vs).map root = (fieldTrees fs ws).map root → vs = ws
  | [], _, _, _, _, _, _, _, _ => rfl
  | t :: ts, vs, ws, hs, hp, hvs, hws, free, h => by
      rw [allCodable, Bool.and_eq_true] at hs
      rw [allPlaced, Bool.and_eq_true] at hp
      rw [StorableFields] at hvs hws
      rw [hashedFields, hashedFields] at free
      rw [fieldTrees, fieldTrees, List.map_cons, List.map_cons] at h
      obtain ⟨hhead, htail⟩ := List.cons.inj h
      have hfirst := eq_of_root_eq t vs.1 ws.1 hs.1 hp.1 hvs.1 hws.1 (free_left free) hhead
      have hrest := fields_eq_of_roots_eq ts vs.2 ws.2 hs.2 hp.2 hvs.2 hws.2 (free_right free) htail
      exact Prod.ext hfirst hrest

theorem elems_eq_of_roots_eq : ∀ (t : SSZType) (xs ys : List t.interp), t.codable = true →
    t.placed = true → StorableElems t xs → StorableElems t ys →
    ¬ Clash Spec.combine (hashedElems t xs) (hashedElems t ys) →
    (trees t xs).map root = (trees t ys).map root → xs = ys
  | t, [], ys, _, _, _, _, _, h => by
      have hlength := congrArg List.length h
      rw [List.length_map, List.length_map, length_trees, length_trees] at hlength
      exact (List.length_eq_zero_iff.mp hlength.symm).symm
  | t, x :: xs, [], _, _, _, _, _, h => by
      rw [trees, trees] at h
      cases h
  | t, x :: xs, y :: ys, hs, hp, hxs, hys, free, h => by
      rw [StorableElems] at hxs hys
      rw [hashedElems, hashedElems] at free
      rw [trees, trees, List.map_cons, List.map_cons] at h
      obtain ⟨hhead, htail⟩ := List.cons.inj h
      rw [eq_of_root_eq t x y hs hp hxs.1 hys.1 (free_left free) hhead,
        elems_eq_of_roots_eq t xs ys hs hp hxs.2 hys.2 (free_right free) htail]

end

/-- Values with one root are the same, or two messages collide. -/
theorem eq_or_collide {s : SSZType} (hs : s.codable = true) (hp : s.placed = true)
    {x y : s.interp} (hx : Storable s x) (hy : Storable s y)
    (h : root (tree s x) = root (tree s y)) :
    x = y ∨ Collide (messages (hashed s x)) (messages (hashed s y)) := by
  by_cases clash : Clash Spec.combine (hashed s x) (hashed s y)
  · exact .inr (.of_clash (aligned_hashed s x) (aligned_hashed s y) clash)
  · exact .inl (eq_of_root_eq s x y hs hp hx hy clash h)

section Runs

variable {σ κ σ₂ κ₂ : Type} {host : Host σ κ} {host₂ : Host σ₂ κ₂}

/-- For any codable shape whose progressive containers have a place for every field, and any two
values of it that can exist: if two threads between calls, of whatever processes and with
whatever backends, return the same root for them, then the values are the same, or one of the
messages hashed for the first differs from one of those hashed for the second and has the same
digest. -/
theorem hashTreeRoot_binds (sound : host.Sound) (sound₂ : host₂.Sound) {s : SSZType}
    (hs : s.codable = true) (hp : s.placed = true) {x y : s.interp} (hx : Storable s x)
    (hy : Storable s y) {t t₁ : Thread σ} {u u₁ : Thread σ₂} (resting : t.Resting)
    (resting₂ : u.Resting) {r : ByteArray}
    (hrun : s.hashTreeRoot (native host) x t = .ok r t₁)
    (hrun₂ : s.hashTreeRoot (native host₂) y u = .ok r u₁) :
    x = y ∨ Collide (messages (hashed s x)) (messages (hashed s y)) := by
  have hrx : r = root (tree s x) := ((hashTreeRoot_computes sound s x t resting).of_ok hrun).1
  have hry : r = root (tree s y) := ((hashTreeRoot_computes sound₂ s y u resting₂).of_ok hrun₂).1
  exact eq_or_collide hs hp hx hy (hrx.symm.trans hry)

theorem hashTreeRoot_binds_sample : ∃ r t₁ u₁,
    SSZType.hashTreeRoot (native (referenceHost true 2 [1, 0, 1])) sampleType sampleValue
        (newThread 0) = .ok r t₁ ∧
      SSZType.hashTreeRoot (native (referenceHost false 2 [])) sampleType sampleValue
        (newThread 0) = .ok r u₁ ∧
      (sampleValue = sampleValue ∨ Collide (messages (hashed sampleType sampleValue))
        (messages (hashed sampleType sampleValue))) := by
  have resting := (newThread_ready 0).resting
  have sound := referenceHost_sound true 2 [1, 0, 1]
  have sound₂ := referenceHost_sound false 2 []
  obtain ⟨r, t₁, hrun, hr, -⟩ := (hashTreeRoot_computes sound sampleType sampleValue).returns
    (referenceHost_serves true 2 [1, 0, 1]) sampleValue_storable resting
  obtain ⟨r₂, u₁, hrun₂, hr₂, -⟩ := (hashTreeRoot_computes sound₂ sampleType sampleValue).returns
    (referenceHost_serves false 2 []) sampleValue_storable resting
  have hsame : r₂ = r := hr₂.trans hr.symm
  rw [hsame] at hrun₂
  exact ⟨r, t₁, u₁, hrun, hrun₂, hashTreeRoot_binds sound sound₂ rfl rfl
    sampleValue_storable sampleValue_storable resting resting hrun hrun₂⟩

end Runs

end HazmatSha256.Ssz
