import HazmatSha256.Cache.Walk
set_option autoImplicit false

/-!
# Cache: the tree of a value, with its roots

`SizzLean.Cache.MerkleTree.Build`: `ofShape` walks a shape and a value and leaves a tree
with every slot filled, the one that `hashTreeRoot` never builds.
-/

namespace HazmatSha256.Cache

open Foundation Shape Boxed Isal Evp Shim Merkle Ssz

section Source

variable {m : Type → Type} [Monad m]

/-- The root of the pair is in its slot. -/
def Node.mixInLength (H : Hasher m) (n : Node) (count : Nat) : m Node :=
  filledPair H n (.leaf (natToChunk count))

def Node.mixInActiveFields (H : Hasher m) (n : Node) (active : List Bool) : m Node :=
  filledPair H n (.leaf (padToChunk (packBitsLE active)))

def Node.ofProgressiveAux (H : Hasher m) :
    (fuel : Nat) → List ByteArray → (numLeaves : Nat) → m Node
  | _, [], _ => pure (.leaf zero32)
  | 0, _, _ => pure (.leaf zero32)
  | fuel + 1, chunks, numLeaves => do
      let n := max numLeaves 1
      let left ← Node.ofLeaves H (chunks.take n) (chunkDepth n)
      let right ← Node.ofProgressiveAux H fuel (chunks.drop n) (n * 4)
      filledPair H left right

def Node.ofProgressive (H : Hasher m) (chunks : List ByteArray) : m Node :=
  Node.ofProgressiveAux H chunks.length chunks 1

/-- A zero chunk for every inactive field. -/
def placeActiveRoots (H : Hasher m) : (active : List Bool) → List Node → m (List ByteArray)
  | [], _ => pure []
  | false :: bits, nodes => do
      let rest ← placeActiveRoots H bits nodes
      pure (zero32 :: rest)
  | true :: bits, n :: ns => do
      let r ← n.rootOf H
      let rest ← placeActiveRoots H bits ns
      pure (r :: rest)
  | true :: bits, [] => do
      let rest ← placeActiveRoots H bits []
      pure (zero32 :: rest)

/-- The arms of `ofShape` for `uintN`. -/
def uintLeaf : (n : Nat) → SSZType.uintNInterp n → Node
  | 8, x => .leaf (padToChunk (ByteArray.empty.push x))
  | 16, x => .leaf (padToChunk (SSZType.serialize (.uintN 16) x))
  | 32, x => .leaf (padToChunk (SSZType.serialize (.uintN 32) x))
  | 64, x => .leaf (padToChunk (SSZType.serialize (.uintN 64) x))
  | 128, x =>
      let x' : BitVec 128 := x
      .leaf (padToChunk (natToChunk x'.toNat))
  | 256, x =>
      let x' : BitVec 256 := x
      .leaf (padToChunk (natToChunk x'.toNat))
  | _, _ => .leaf (padToChunk .empty)

mutual

def Node.ofShape (H : Hasher m) : (s : SSZType) → s.interp → m Node
  | .uintN n, x => pure (uintLeaf n x)
  | .bool, b => pure (.leaf (padToChunk (ByteArray.empty.push (if b then 1 else 0))))
  | .bitvector n, bv =>
      let body := SSZType.serialize (.bitvector n) bv
      Node.ofLeaves H (chunkify body) (chunkDepth (bytesToChunkCount ((n + 7) / 8)))
  | .bitlist cap, bs => do
      let xs := bs.val
      let bodyTree ← Node.ofLeaves H (chunkify (bitBody xs)) (chunkDepth (bitsToChunkCount cap))
      Node.mixInLength H bodyTree xs.size
  | .vector t n, v =>
      if t.isBasicType then
        let body := SSZType.serialize (.vector t n) v
        Node.ofLeaves H (chunkify body) (chunkDepth (bytesToChunkCount body.size))
      else do
        let subs ← Node.subtreesForListComposite H t v.toList []
        Node.ofSubtrees H subs (chunkDepth n)
  | .list t cap, xs =>
      let actualLen := xs.val.size
      if t.isBasicType then do
        let body := SSZType.serializeFixedElems t xs.val.toList
        let perElem := t.fixedByteSize
        let capChunks := bytesToChunkCount (cap * perElem)
        let bodyTree ← Node.ofLeaves H (chunkify body) (chunkDepth capChunks)
        Node.mixInLength H bodyTree actualLen
      else do
        let subs ← Node.subtreesForListComposite H t xs.val.toList []
        let bodyTree ← Node.ofSubtrees H subs (chunkDepth cap)
        Node.mixInLength H bodyTree actualLen
  | .container fs, vs => do
      let subs ← Node.subtreesForFields H fs vs
      Node.ofSubtrees H subs (chunkDepth fs.length)
  | .progressiveList t, xs =>
      if t.isBasicType then do
        let body := SSZType.serializeFixedElems t xs.toList
        let bodyTree ← Node.ofProgressive H (chunkify body)
        Node.mixInLength H bodyTree xs.size
      else do
        let subs ← Node.subtreesForListComposite H t xs.toList []
        let chunks ← subs.mapM (Node.rootOf H)
        let bodyTree ← Node.ofProgressive H chunks
        Node.mixInLength H bodyTree xs.size
  | .progressiveBitlist, bs => do
      let bodyTree ← Node.ofProgressive H (chunkify (bitBody bs))
      Node.mixInLength H bodyTree bs.size
  | .progressiveContainer active fs, vs => do
      let subs ← Node.subtreesForFields H fs vs
      let chunks ← placeActiveRoots H active subs
      let body ← Node.ofProgressive H chunks
      Node.mixInActiveFields H body active

def Node.subtreesForFields (H : Hasher m) :
    (fs : List SSZType) → SSZType.interpFields fs → m (List Node)
  | [], _ => pure []
  | t :: ts, vs => do
      let n ← Node.ofShape H t vs.1
      let rest ← Node.subtreesForFields H ts vs.2
      pure (n :: rest)

/-- The trees of the elements, behind those in `acc`. -/
def Node.subtreesForListComposite (H : Hasher m) :
    (t : SSZType) → List t.interp → (acc : List Node) → m (List Node)
  | _, [], acc => pure acc.reverse
  | t, x :: xs, acc => do
      let n ← Node.ofShape H t x
      Node.subtreesForListComposite H t xs (n :: acc)

end

end Source

/-! ## Bodies -/

variable {σ κ : Type} {host : Host σ κ} {legal : Prop} {D : Shape ByteArray → Prop}

theorem mixInLength_meets {body : Shape ByteArray} {n : Node} (hn : Built body n) (count : Nat)
    (handy : legal → Handy body) :
    (n.mixInLength hasher count).Meets (contract host legal D) (Built (counted body count)) :=
  filledPair_meets hn (Built.leaf _) fun hlegal => handy_counted (handy hlegal) count

theorem ofProgressiveAux_meets : ∀ (fuel : Nat) {chunks : List ByteArray} (numLeaves : Nat),
    (∀ b ∈ chunks, b.size = bytesPerChunk) →
    (Node.ofProgressiveAux hasher fuel chunks numLeaves).Meets (contract host legal D)
      (Built (shelves fuel chunks numLeaves)) := by
  intro fuel
  induction fuel with
  | zero =>
      intro chunks numLeaves _
      cases chunks <;> exact Built.leaf zero32
  | succ fuel ih =>
      intro chunks numLeaves hsize
      cases chunks with
      | nil => exact Built.leaf zero32
      | cons b rest =>
          have hhandy := handy_shelves (fuel + 1) numLeaves hsize
          simp only [Node.ofProgressiveAux, shelves] at hhandy ⊢
          refine (ofLeaves_meets _ _ fun x hx => hsize x (List.mem_of_mem_take hx)).bind ?_
          intro left hleft
          refine (ih _ fun x hx => hsize x (List.mem_of_mem_drop hx)).bind ?_
          intro right hright
          exact filledPair_meets hleft hright fun _ => hhandy

theorem ofProgressive_meets {chunks : List ByteArray}
    (hsize : ∀ b ∈ chunks, b.size = bytesPerChunk) :
    (Node.ofProgressive hasher chunks).Meets (contract host legal D)
      (Built (progressive chunks)) :=
  ofProgressiveAux_meets chunks.length 1 hsize

/-- Reading the root of a node that is built. -/
theorem Built.rootOf_meets {t : Shape ByteArray} {n : Node} (h : Built t n)
    (handy : legal → Handy t) :
    (n.rootOf hasher).Meets (contract host legal D) fun d => d = root t := by
  obtain ⟨hn, rfl, -⟩ := h
  exact Cache.rootOf_meets hn handy

theorem mapRootOf_meets {ts : List (Shape ByteArray)} {ns : List Node}
    (hbuilt : List.Forall₂ Built ts ns) (handy : legal → ∀ t ∈ ts, Handy t) :
    (ns.mapM (Node.rootOf hasher)).Meets (contract host legal D) fun rs => rs = ts.map root := by
  induction hbuilt with
  | nil => exact rfl
  | cons hn _ ih =>
      rw [List.mapM_cons]
      refine (hn.rootOf_meets fun hlegal => handy hlegal _ List.mem_cons_self).bind ?_
      rintro _ rfl
      refine (ih fun hlegal t ht => handy hlegal t (List.mem_cons_of_mem _ ht)).bind ?_
      rintro _ rfl
      exact rfl

theorem placeActiveRoots_meets : ∀ (active : List Bool) {ts : List (Shape ByteArray)}
    {ns : List Node}, List.Forall₂ Built ts ns → (legal → ∀ t ∈ ts, Handy t) →
    (placeActiveRoots hasher active ns).Meets (contract host legal D)
      fun rs => rs = placeActiveChunks active (ts.map root) := by
  intro active
  induction active with
  | nil =>
      intro ts ns _ _
      exact rfl
  | cons bit bits ih =>
      intro ts ns hbuilt handy
      cases bit with
      | false =>
          refine (ih hbuilt handy).bind ?_
          rintro _ rfl
          exact rfl
      | true =>
          cases hbuilt with
          | nil =>
              refine (ih .nil handy).bind ?_
              rintro _ rfl
              exact rfl
          | cons hn hrest =>
              refine (hn.rootOf_meets fun hlegal => handy hlegal _ List.mem_cons_self).bind ?_
              rintro _ rfl
              refine (ih hrest fun hlegal t ht =>
                handy hlegal t (List.mem_cons_of_mem _ ht)).bind ?_
              rintro _ rfl
              exact rfl

theorem uintLeaf_eq : ∀ (n : Nat) (x : SSZType.uintNInterp n),
    uintLeaf n x = .leaf (uintRoot n x) := by
  intro n x
  unfold uintLeaf
  split
  case h_1 x => rfl
  case h_2 x => rw [SSZType.serialize]; rfl
  case h_3 x => rw [SSZType.serialize]; rfl
  case h_4 x => rw [SSZType.serialize]; rfl
  case h_5 => rfl
  case h_6 => rfl
  case h_7 =>
    simp only [uintRoot]
    rfl

/-! ## Values -/

mutual

theorem ofShape_meets : ∀ (s : SSZType) (x : s.interp), (legal → Storable s x) →
    (Node.ofShape hasher s x).Meets (contract host legal D) (Built (tree s x))
  | .uintN n, x, _ => by
      rw [Node.ofShape, tree, uintLeaf_eq]
      exact Built.leaf _
  | .bool, b, _ => by
      rw [Node.ofShape, tree]
      exact Built.leaf _
  | .bitvector n, bv, _ => by
      rw [Node.ofShape, tree]
      exact ofLeaves_meets _ _ (size_chunkify _)
  | .bitlist cap, bs, _ => by
      rw [Node.ofShape, tree]
      refine (ofLeaves_meets _ _ (size_chunkify _)).bind ?_
      intro body hbody
      exact mixInLength_meets hbody _ fun _ => handy_perfect (handy_leaves (size_chunkify _)) _
  | .vector t n, v, h => by
      rw [Node.ofShape, tree]
      simp only [Storable] at h
      split
      · exact ofLeaves_meets _ _ (size_chunkify _)
      · refine (subtreesForListComposite_meets t v.toList (fun hlegal => (h hlegal).2) .nil).bind ?_
        intro subs hsubs
        exact ofSubtrees_meets _ hsubs fun hlegal => handy_trees t v.toList (h hlegal).2
  | .list t cap, xs, h => by
      rw [Node.ofShape, tree]
      simp only [Storable] at h
      split
      · refine (ofLeaves_meets _ _ (size_chunkify _)).bind ?_
        intro body hbody
        exact mixInLength_meets hbody _ fun _ => handy_perfect (handy_leaves (size_chunkify _)) _
      · have handy : legal → ∀ u ∈ trees t xs.val.toList, Handy u :=
          fun hlegal => handy_trees t xs.val.toList (h hlegal).2
        refine (subtreesForListComposite_meets t xs.val.toList (fun hlegal => (h hlegal).2)
          .nil).bind ?_
        intro subs hsubs
        refine (ofSubtrees_meets _ hsubs handy).bind ?_
        intro body hbody
        exact mixInLength_meets hbody _ fun hlegal => handy_perfect (handy hlegal) _
  | .container fs, vs, h => by
      rw [Node.ofShape, tree]
      simp only [Storable] at h
      refine (subtreesForFields_meets fs vs fun hlegal => (h hlegal).2).bind ?_
      intro subs hsubs
      exact ofSubtrees_meets _ hsubs fun hlegal => handy_fieldTrees fs vs (h hlegal).2
  | .progressiveList t, xs, h => by
      rw [Node.ofShape, tree]
      simp only [Storable] at h
      split
      · refine (ofProgressive_meets (size_chunkify _)).bind ?_
        intro body hbody
        exact mixInLength_meets hbody _ fun _ => handy_shelves _ _ (size_chunkify _)
      · have hsize := size_roots (size_root_trees t xs.toList)
        refine (subtreesForListComposite_meets t xs.toList (fun hlegal => (h hlegal).2)
          .nil).bind ?_
        intro subs hsubs
        refine (mapRootOf_meets hsubs fun hlegal => handy_trees t xs.toList (h hlegal).2).bind ?_
        rintro _ rfl
        refine (ofProgressive_meets hsize).bind ?_
        intro body hbody
        exact mixInLength_meets hbody _ fun _ => handy_shelves _ _ hsize
  | .progressiveBitlist, bs, _ => by
      rw [Node.ofShape, tree]
      refine (ofProgressive_meets (size_chunkify _)).bind ?_
      intro body hbody
      exact mixInLength_meets hbody _ fun _ => handy_shelves _ _ (size_chunkify _)
  | .progressiveContainer active fs, vs, h => by
      have handy := fun hlegal => handy_tree (.progressiveContainer active fs) vs (h hlegal)
      rw [Node.ofShape, tree]
      rw [tree] at handy
      simp only [Storable] at h
      have hsize := size_placeActiveChunks active (size_roots (size_root_fieldTrees fs vs))
      refine (subtreesForFields_meets fs vs fun hlegal => (h hlegal).2).bind ?_
      intro subs hsubs
      refine (placeActiveRoots_meets active hsubs
        fun hlegal => handy_fieldTrees fs vs (h hlegal).2).bind ?_
      rintro _ rfl
      refine (ofProgressive_meets hsize).bind ?_
      intro body hbody
      exact filledPair_meets hbody (Built.leaf _) handy

theorem subtreesForFields_meets : ∀ (fs : List SSZType) (vs : SSZType.interpFields fs),
    (legal → StorableFields fs vs) → (Node.subtreesForFields hasher fs vs).Meets
      (contract host legal D) (List.Forall₂ Built (fieldTrees fs vs))
  | [], _, _ => by
      rw [Node.subtreesForFields, fieldTrees]
      exact List.Forall₂.nil
  | t :: ts, vs, h => by
      rw [Node.subtreesForFields, fieldTrees]
      simp only [StorableFields] at h
      refine (ofShape_meets t vs.1 fun hlegal => (h hlegal).1).bind ?_
      intro n hn
      refine (subtreesForFields_meets ts vs.2 fun hlegal => (h hlegal).2).bind ?_
      intro rest hrest
      exact List.Forall₂.cons hn hrest

theorem subtreesForListComposite_meets : ∀ (t : SSZType) (xs : List t.interp)
    {us : List (Shape ByteArray)} {acc : List Node}, (legal → StorableElems t xs) →
    List.Forall₂ Built us acc → (Node.subtreesForListComposite hasher t xs acc).Meets
      (contract host legal D) (List.Forall₂ Built (us.reverse ++ trees t xs))
  | t, [], us, acc, _, hacc => by
      rw [Node.subtreesForListComposite, trees, List.append_nil]
      exact List.rel_reverse hacc
  | t, x :: xs, us, acc, h, hacc => by
      rw [Node.subtreesForListComposite, trees]
      simp only [StorableElems] at h
      refine (ofShape_meets t x fun hlegal => (h hlegal).1).bind ?_
      intro n hn
      have hrest := subtreesForListComposite_meets t xs (fun hlegal => (h hlegal).2)
        (List.Forall₂.cons hn hacc)
      rwa [List.reverse_cons, List.append_assoc] at hrest

end

end HazmatSha256.Cache
