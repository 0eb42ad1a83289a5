import HazmatSha256.Opening.Branch
import HazmatSha256.Opening.GeneralizedIndex
import HazmatSha256.Ssz.Binding
set_option autoImplicit false

/-!
# Opening: proofs of parts

A branch of the values next to the way to a part proves the part against the root of the whole,
and no other branch and no other leaf does, unless two hashed messages collide.
-/

namespace HazmatSha256.Opening

open Foundation Shape Boxed Isal Evp Shim Merkle Ssz Ssz.SSZType Cache

/-! ## Honest branches -/

/-- The values next to a path, from the bottom up. -/
def branchOf (t : Shape ByteArray) (p : List Bool) : Array (Vector UInt8 32) :=
  ((t.siblings Spec.combine p).reverse.map bytesToRoot).toArray

/-- The way of an index is that of its lowest bits. -/
theorem steps_mod (h k : Nat) : steps h (k % 2 ^ h) = steps h k := by
  rw [steps_eq, steps_eq]
  refine List.map_congr_left fun i hi => ?_
  rw [List.mem_reverse, List.mem_range] at hi
  simp [Nat.testBit_mod_two_pow, hi]

theorem gindexBits_eq_steps {g index : Nat} (h : index % 2 ^ g.log2 = g % 2 ^ g.log2) :
    gindexBits g = steps g.log2 index := by
  rw [← steps_mod, h, steps_mod, steps_eq]
  rfl

theorem lowest_all {branch : Array (Vector UInt8 32)} {depth : Nat} (h : branch.size = depth) :
    lowest branch depth = (branch.toList.map vecToBytes).reverse := by
  rw [lowest, List.take_of_length_le (by rw [Array.length_toList, h])]

/-- The branch of a path, the topmost first, is read back. -/
theorem lowest_branchOf {t s : Shape ByteArray} {p : List Bool} (hs : t.sub p = some s)
    (hsize : ∀ b ∈ t.siblings Spec.combine p, b.size = bytesPerChunk) :
    (branchOf t p).size = p.length ∧ lowest (branchOf t p) p.length = t.siblings Spec.combine p := by
  have hlength : (branchOf t p).size = p.length := by
    rw [branchOf, List.size_toArray, List.length_map, List.length_reverse, length_siblings hs]
  refine ⟨hlength, ?_⟩
  rw [lowest_all hlength, branchOf, List.map_map, ← List.map_reverse, List.reverse_reverse]
  refine (List.map_congr_left fun b hb => ?_).trans (List.map_id _)
  exact vecToBytes_bytesToRoot (hsize b hb)

/-- A branch that reads as the values next to a path is the branch of the path. -/
theorem eq_branchOf {branch : Array (Vector UInt8 32)} {t : Shape ByteArray} {p : List Bool}
    (h : (branch.toList.map vecToBytes).reverse = t.siblings Spec.combine p) :
    branch = branchOf t p := by
  rw [branchOf, ← h, List.reverse_reverse, List.map_map]
  have hid : bytesToRoot ∘ vecToBytes = id := funext fun v => bytesToVec_vecToBytes v
  rw [hid, List.map_id]

/-- The messages that are hashed on the way from a leaf. -/
def wayMessages (leaf : Vector UInt8 32) (branch : Array (Vector UInt8 32)) (index depth : Nat) :
    List ByteArray :=
  messages (climbed Spec.combine (vecToBytes leaf) (way branch index depth))

theorem aligned_climbed {v : ByteArray} (hv : v.size = bytesPerChunk) :
    ∀ {steps : List (Bool × ByteArray)}, (∀ s ∈ steps, s.2.size = bytesPerChunk) →
    Aligned (climbed Spec.combine v steps) := by
  intro steps
  induction steps with
  | nil => exact fun _ u hu => absurd hu List.not_mem_nil
  | cons step rest ih =>
      intro hsize u hu
      obtain ⟨d, s⟩ := step
      have hbelow : (climb Spec.combine v rest).size = bytesPerChunk := by
        cases rest with
        | nil => exact hv
        | cons step rest => exact size_combine _ _
      rcases List.mem_cons.mp hu with rfl | hu
      · cases d with
        | false => exact hbelow
        | true => exact hsize _ List.mem_cons_self
      · exact ih (fun s hs => hsize s (List.mem_cons_of_mem _ hs)) u hu

theorem aligned_way (leaf : Vector UInt8 32) (branch : Array (Vector UInt8 32))
    (index depth : Nat) :
    Aligned (climbed Spec.combine (vecToBytes leaf) (way branch index depth)) := by
  refine aligned_climbed (size_vecToBytes leaf) fun s hs => ?_
  have hmem : s.2 ∈ lowest branch depth := (List.of_mem_zip hs).2
  rw [lowest, List.mem_reverse] at hmem
  obtain ⟨v, -, hv⟩ := List.mem_map.mp hmem
  rw [← hv]
  exact size_vecToBytes v

/-! ## Proofs in a tree -/

section Tree

variable {t s : Shape ByteArray} {g index : Nat}

/-- From the value of a subtree the values next to its path climb to the root. -/
theorem climbTo_branchOf (hs : t.sub (gindexBits g) = some s)
    (hsize : ∀ b ∈ t.siblings Spec.combine (gindexBits g), b.size = bytesPerChunk)
    (hleaf : (root s).size = bytesPerChunk) (hindex : index % 2 ^ g.log2 = g % 2 ^ g.log2) :
    (branchOf t (gindexBits g)).size = g.log2 ∧
      climbTo (bytesToRoot (root s)) (branchOf t (gindexBits g)) index g.log2 = root t := by
  have hlength : (gindexBits g).length = g.log2 := by simp [gindexBits]
  obtain ⟨hcount, hlowest⟩ := lowest_branchOf hs hsize
  rw [hlength] at hcount hlowest
  refine ⟨hcount, ?_⟩
  rw [climbTo, way, hlowest, vecToBytes_bytesToRoot hleaf, ← gindexBits_eq_steps hindex]
  exact climb_siblings hs

/-- What climbs to the root is the value of the subtree and the values next to its path, or two
messages collide. -/
theorem eq_of_climbTo {leaf : Vector UInt8 32} {branch : Array (Vector UInt8 32)}
    {us : List (ByteArray × ByteArray)} (hs : t.sub (gindexBits g) = some s)
    (hindex : index % 2 ^ g.log2 = g % 2 ^ g.log2) (hbranch : branch.size = g.log2)
    (haligned : Aligned us) (hpairs : t.pairs Spec.combine ⊆ us)
    (h : climbTo leaf branch index g.log2 = root t) :
    (leaf = bytesToRoot (root s) ∧ branch = branchOf t (gindexBits g)) ∨
      Collide (wayMessages leaf branch index g.log2) (messages us) := by
  by_cases clash : Clash Spec.combine
      (climbed Spec.combine (vecToBytes leaf) (way branch index g.log2)) us
  · exact .inr (.of_clash (aligned_way leaf branch index g.log2) haligned clash)
  · have free : ¬ Clash Spec.combine
        (climbed Spec.combine (vecToBytes leaf) (way branch index g.log2))
        (t.pairs Spec.combine) := fun h =>
      clash (h.mono (List.Subset.refl _) hpairs)
    rw [climbTo] at h
    rw [way, lowest_all hbranch, ← gindexBits_eq_steps hindex] at free h
    have hlength : (branch.toList.map vecToBytes).reverse.length = (gindexBits g).length := by
      simp [gindexBits, hbranch]
    obtain ⟨hleaf, hsiblings⟩ := eq_of_climb hs hlength free h
    refine .inl ⟨?_, eq_branchOf hsiblings⟩
    rw [← bytesToVec_vecToBytes leaf, hleaf]
    rfl

end Tree

/-! ## What a step keeps -/

/-- The shape of a part is codable, with a place for every field, and the part can exist. -/
def Spot.Good : Spot → Prop
  | .part w => w.1.codable = true ∧ w.1.placed = true ∧ Storable w.1 w.2
  | .chunk _ => True

theorem good_fieldAt : ∀ {fs : List SSZType} {vs : interpFields fs} {k : Nat} {w : Part},
    fieldAt fs vs k = some w → allCodable fs = true → allPlaced fs = true →
    StorableFields fs vs → (Spot.part w).Good := by
  intro fs
  induction fs with
  | nil =>
      intro vs k w h
      cases h
  | cons t ts ih =>
      intro vs k w h hs hp hstore
      rw [allCodable, Bool.and_eq_true] at hs
      rw [allPlaced, Bool.and_eq_true] at hp
      rw [StorableFields] at hstore
      cases k with
      | zero =>
          cases h
          exact ⟨hs.1, hp.1, hstore.1⟩
      | succ k => exact ih h hs.2 hp.2 hstore.2

theorem Spot.step_good {w w' : Spot} {a : PathStep} (hw : w.Good) (h : w.step a = some w') :
    w'.Good := by
  unfold Spot.step at h
  split at h
  · obtain ⟨hs, hp, hstore⟩ := hw
    rw [codable] at hs
    rw [placed] at hp
    rw [Storable] at hstore
    obtain ⟨v, hfield, rfl⟩ := Option.map_eq_some_iff.mp h
    exact good_fieldAt hfield hs hp hstore.2
  · obtain ⟨hs, hp, hstore⟩ := hw
    rw [codable, Bool.and_eq_true] at hs
    rw [placed] at hp
    rw [Storable] at hstore
    split at h
    · split at h
      · cases h
        trivial
      · cases h
        exact ⟨hs.2, hp, storable_of_mem hstore.2 (by simp)⟩
    · cases h
  · obtain ⟨hs, hp, hstore⟩ := hw
    rw [codable, Bool.and_eq_true] at hs
    rw [placed] at hp
    rw [Storable] at hstore
    split at h
    · split at h
      · cases h
        trivial
      · split at h
        · cases h
          exact ⟨hs.1, hp, storable_of_mem hstore.2 (by simp)⟩
        · cases h
          trivial
    · cases h
  · cases h
    trivial
  · cases h

theorem spotAt_good : ∀ {path : List PathStep} {w w' : Spot}, w.Good → spotAt w path = some w' →
    w'.Good := by
  intro path
  induction path with
  | nil =>
      intro w w' hw h
      cases h
      exact hw
  | cons a rest ih =>
      intro w w' hw h
      obtain ⟨v, hstep, hrest⟩ := Option.bind_eq_some_iff.mp h
      exact ih (Spot.step_good hw hstep) hrest

/-! ## Proofs of parts -/

section Runs

variable {σ κ σ₂ κ₂ : Type} {host : Host σ κ} {host₂ : Host σ₂ κ₂} {s : SSZType} {x : s.interp}
  {path : List PathStep} {w : Spot} {g index : Nat} {r : ByteArray} {t t₁ : Thread σ}
  {u : Thread σ₂}

/-- The branch of the values next to the way of a generalized index. -/
def honestBranch (s : SSZType) (x : s.interp) (g : Nat) : Array (Vector UInt8 32) :=
  branchOf (tree s x) (gindexBits g)

/-- What a path leads to stands at the end of the way of its index. -/
theorem leads_of_index (hs : s.codable = true) (hspot : spotAt (.part ⟨s, x⟩) path = some w)
    (hg : generalizedIndex s path = some g) :
    (∃ s', w.Of s') ∧ (tree s x).sub (gindexBits g) = some w.tree ∧
      ∀ b ∈ (tree s x).siblings Spec.combine (gindexBits g), b.size = bytesPerChunk := by
  have hw : Spot.Of s (.part ⟨s, x⟩) := ⟨rfl, hs⟩
  rw [gindexBits_generalizedIndex hg]
  exact (spotAt_leads 1 hw hspot).2

/-- The check of the honest branch. -/
theorem honest_computes (sound₂ : host₂.Sound) (hs : s.codable = true)
    (hspot : spotAt (.part ⟨s, x⟩) path = some w) (hg : generalizedIndex s path = some g)
    (hindex : index % 2 ^ g.log2 = g % 2 ^ g.log2) : Computes host₂ True
      (isValidMerkleBranch (native host₂) (bytesToRoot (root w.tree)) (honestBranch s x g) g.log2
        index (bytesToRoot (root (tree s x)))) true := by
  obtain ⟨⟨s', hof⟩, hsub, hsize⟩ := leads_of_index hs hspot hg
  obtain ⟨hcount, hclimb⟩ := climbTo_branchOf hsub hsize hof.size_root hindex
  have haccepts : accepts (bytesToRoot (root w.tree)) (honestBranch s x g) g.log2 index
      (bytesToRoot (root (tree s x))) = true :=
    accepts_iff.mpr ⟨hcount, hclimb.trans (vecToBytes_bytesToRoot (size_root_tree s x)).symm⟩
  rw [← haccepts]
  exact isValidMerkleBranch_computes sound₂ _ _ _ _ _

/-- For any codable shape, any value and any path that leads somewhere in it: against the root
that one thread returns for the value, another thread, of whatever process and with whatever
backend, accepts the root of what the path leads to with the values next to its way, at the depth
of the generalized index of the path and at any index with the same bits below that depth.  Where
its host serves it does; and it never answers that the branch is not valid. -/
theorem isValidMerkleBranch_accepts (sound : host.Sound) (sound₂ : host₂.Sound)
    (hs : s.codable = true) (hspot : spotAt (.part ⟨s, x⟩) path = some w)
    (hg : generalizedIndex s path = some g) (hindex : index % 2 ^ g.log2 = g % 2 ^ g.log2)
    (resting : t.Resting) (hrun : s.hashTreeRoot (native host) x t = .ok r t₁)
    (resting₂ : u.Resting) :
    (host₂.Serves → ∃ u₁, isValidMerkleBranch (native host₂) (bytesToRoot (root w.tree))
      (honestBranch s x g) g.log2 index (bytesToRoot r) u = .ok true u₁) ∧
    ∀ b u₁, isValidMerkleBranch (native host₂) (bytesToRoot (root w.tree)) (honestBranch s x g)
      g.log2 index (bytesToRoot r) u = .ok b u₁ → b = true := by
  obtain ⟨rfl, -⟩ := (hashTreeRoot_computes sound s x t resting).of_ok hrun
  have hcheck := honest_computes sound₂ hs hspot hg hindex
  refine ⟨fun serves => ?_, fun b u₁ hok => ((hcheck u resting₂).of_ok hok).1⟩
  obtain ⟨b, u₁, hok, rfl, -⟩ := hcheck.returns serves trivial resting₂
  exact ⟨u₁, hok⟩

/-- A branch that is accepted climbs to the root of the tree of the value. -/
theorem climb_of_check (sound : host.Sound) (sound₂ : host₂.Sound) (resting : t.Resting)
    (hrun : s.hashTreeRoot (native host) x t = .ok r t₁) (resting₂ : u.Resting)
    {leaf : Vector UInt8 32} {branch : Array (Vector UInt8 32)} {depth : Nat} {u₁ : Thread σ₂}
    (hcheck : isValidMerkleBranch (native host₂) leaf branch depth index (bytesToRoot r) u =
      .ok true u₁) :
    branch.size = depth ∧ climbTo leaf branch index depth = root (tree s x) := by
  have hr : r = root (tree s x) := ((hashTreeRoot_computes sound s x t resting).of_ok hrun).1
  have haccepts := ((isValidMerkleBranch_computes sound₂ leaf branch depth index (bytesToRoot r) u
    resting₂).of_ok hcheck).1
  obtain ⟨hcount, hclimb⟩ := accepts_iff.mp haccepts.symm
  rw [hr, vecToBytes_bytesToRoot (size_root_tree s x)] at hclimb
  exact ⟨hcount, hclimb⟩

/-- The converse: against the root that one thread returns for the value, another accepts, at the
depth of the index of a path, no leaf but the root of what the path leads to and no branch but
that of the values next to its way, unless one of the messages it hashes differs from one of
those hashed for the value and has the same digest. -/
theorem isValidMerkleBranch_proves (sound : host.Sound) (sound₂ : host₂.Sound)
    (hs : s.codable = true) (hspot : spotAt (.part ⟨s, x⟩) path = some w)
    (hg : generalizedIndex s path = some g) (hindex : index % 2 ^ g.log2 = g % 2 ^ g.log2)
    (resting : t.Resting) (hrun : s.hashTreeRoot (native host) x t = .ok r t₁)
    (resting₂ : u.Resting) {leaf : Vector UInt8 32} {branch : Array (Vector UInt8 32)}
    {u₁ : Thread σ₂} (hcheck : isValidMerkleBranch (native host₂) leaf branch g.log2 index
      (bytesToRoot r) u = .ok true u₁) :
    (leaf = bytesToRoot (root w.tree) ∧ branch = honestBranch s x g) ∨
      Collide (wayMessages leaf branch index g.log2) (messages (hashed s x)) := by
  obtain ⟨-, hsub, -⟩ := leads_of_index hs hspot hg
  obtain ⟨hcount, hclimb⟩ := climb_of_check sound sound₂ resting hrun resting₂ hcheck
  exact eq_of_climbTo hsub hindex hcount (aligned_hashed s x) (List.subset_append_left _ _) hclimb

/-- A part can be proved and nothing else in its place: where the path leads to a part and the
leaf is the root that a thread returned for any value of the shape of that part, that value is the
part, unless two messages collide, of the check and the whole or of the two values. -/
theorem isValidMerkleBranch_proves_part {σ₃ κ₃ : Type} {host₃ : Host σ₃ κ₃} (sound : host.Sound)
    (sound₂ : host₂.Sound) (sound₃ : host₃.Sound) (hs : s.codable = true) (hp : s.placed = true)
    (hx : Storable s x) {v : SSZType} {y z : v.interp} (hy : Storable v y)
    (hspot : spotAt (.part ⟨s, x⟩) path = some (.part ⟨v, z⟩))
    (hg : generalizedIndex s path = some g) (hindex : index % 2 ^ g.log2 = g % 2 ^ g.log2)
    (resting : t.Resting) (hrun : s.hashTreeRoot (native host) x t = .ok r t₁)
    {t₃ t₄ : Thread σ₃} (resting₃ : t₃.Resting) {ry : ByteArray}
    (hrun₃ : v.hashTreeRoot (native host₃) y t₃ = .ok ry t₄) (resting₂ : u.Resting)
    {branch : Array (Vector UInt8 32)} {u₁ : Thread σ₂}
    (hcheck : isValidMerkleBranch (native host₂) (bytesToRoot ry) branch g.log2 index
      (bytesToRoot r) u = .ok true u₁) :
    y = z ∨ Collide (wayMessages (bytesToRoot ry) branch index g.log2) (messages (hashed s x)) ∨
      Collide (messages (hashed v y)) (messages (hashed v z)) := by
  have hry : ry = root (tree v y) := ((hashTreeRoot_computes sound₃ v y t₃ resting₃).of_ok hrun₃).1
  obtain ⟨-, hsub, -⟩ := leads_of_index hs hspot hg
  obtain ⟨hcount, hclimb⟩ := climb_of_check sound sound₂ resting hrun resting₂ hcheck
  rcases eq_of_climbTo hsub hindex hcount (aligned_hashed s x) (List.subset_append_left _ _) hclimb
    with ⟨hleaf, -⟩ | hcollide
  · have hroots : root (tree v y) = root (tree v z) := by
      rw [hry] at hleaf
      exact bytesToRoot_inj (size_root_tree v y) (size_root_tree v z) hleaf
    have hgood : (Spot.part ⟨s, x⟩).Good := ⟨hs, hp, hx⟩
    obtain ⟨hv, hvp, hz⟩ := spotAt_good hgood hspot
    rcases eq_or_collide hv hvp hy hz hroots with heq | hcollide
    · exact .inl heq
    · exact .inr (.inr hcollide)
  · exact .inr (.inl hcollide)

end Runs

/-! ## A sample -/

theorem roomy_of_le {n : Nat} (hn : n ≤ 20) : Roomy n := by
  simp only [Roomy, objectHeader, ptrdiffMax]
  omega

theorem sampleElem_storable (x : sampleElemShape.interp) : Storable sampleElemShape x := by
  rw [Storable, StorableFields, StorableFields, StorableFields, Storable, Storable]
  exact ⟨roomy_of_le (by decide), trivial,
    ⟨roomy_of_le x.2.1.property, storableElems_of_basic rfl _⟩, trivial⟩

theorem sampleValue_storable : Storable sampleShape sampleValue := by
  rw [Storable, StorableFields, StorableFields, StorableFields, Storable, Storable]
  refine ⟨roomy_of_le (by decide), trivial, ⟨roomy_of_le (by decide), ?_⟩, trivial⟩
  change StorableElems _ [_, _]
  rw [StorableElems, StorableElems, StorableElems]
  exact ⟨sampleElem_storable _, sampleElem_storable _, trivial⟩

/-- A thread that hashes a value. -/
theorem reference_run {s : SSZType} {x : s.interp} (hx : Storable s x) : ∃ t₁,
    s.hashTreeRoot (native (referenceHost true 2 [1, 0, 1])) x (newThread 0) =
      .ok (root (tree s x)) t₁ := by
  obtain ⟨r, t₁, hrun, rfl, -⟩ := (hashTreeRoot_computes (referenceHost_sound true 2 [1, 0, 1])
    s x).returns (referenceHost_serves true 2 [1, 0, 1]) hx (newThread_ready 0).resting
  exact ⟨t₁, hrun⟩

theorem isValidMerkleBranch_accepts_sample : ∃ u₁,
    isValidMerkleBranch (native (referenceHost false 2 [])) (bytesToRoot sampleChunk)
      (honestBranch sampleShape sampleValue 205) 7 77
      (bytesToRoot (root (tree sampleShape sampleValue))) (newThread 0) = .ok true u₁ := by
  obtain ⟨t₁, hrun⟩ := reference_run sampleValue_storable
  -- seven levels up only the low seven bits of an index are read
  have hindex : 77 % 2 ^ Nat.log2 205 = 205 % 2 ^ Nat.log2 205 := rfl
  exact (isValidMerkleBranch_accepts (referenceHost_sound true 2 [1, 0, 1])
    (referenceHost_sound false 2 []) rfl sample_spotAt rfl hindex
    (newThread_ready 0).resting hrun (newThread_ready 0).resting).1
    (referenceHost_serves false 2 [])

/-- A thread that checks a branch of the sample. -/
theorem sample_check {path : List PathStep} {w : Spot} {g : Nat}
    (hspot : spotAt (.part ⟨sampleShape, sampleValue⟩) path = some w)
    (hg : generalizedIndex sampleShape path = some g) : ∃ u₁,
    isValidMerkleBranch (native (referenceHost false 2 [])) (bytesToRoot (root w.tree))
      (honestBranch sampleShape sampleValue g) g.log2 g
      (bytesToRoot (root (tree sampleShape sampleValue))) (newThread 0) = .ok true u₁ := by
  obtain ⟨b, u₁, hcheck, rfl, -⟩ := (honest_computes (referenceHost_sound false 2 []) rfl
    hspot hg rfl).returns (referenceHost_serves false 2 []) trivial (newThread_ready 0).resting
  exact ⟨u₁, hcheck⟩

theorem isValidMerkleBranch_proves_sample :
    (bytesToRoot sampleChunk = bytesToRoot sampleChunk ∧
      honestBranch sampleShape sampleValue 205 = honestBranch sampleShape sampleValue 205) ∨
    Collide (wayMessages (bytesToRoot sampleChunk) (honestBranch sampleShape sampleValue 205) 205 7)
      (messages (hashed sampleShape sampleValue)) := by
  obtain ⟨t₁, hrun⟩ := reference_run sampleValue_storable
  obtain ⟨u₁, hcheck⟩ := sample_check sample_spotAt (g := 205) rfl
  exact isValidMerkleBranch_proves (referenceHost_sound true 2 [1, 0, 1])
    (referenceHost_sound false 2 []) rfl sample_spotAt rfl rfl (newThread_ready 0).resting
    hrun (newThread_ready 0).resting hcheck

theorem isValidMerkleBranch_proves_part_sample : sampleElem = sampleElem ∨
    Collide (wayMessages (bytesToRoot (root (tree sampleElemShape sampleElem)))
      (honestBranch sampleShape sampleValue 25) 25 4) (messages (hashed sampleShape sampleValue)) ∨
    Collide (messages (hashed sampleElemShape sampleElem))
      (messages (hashed sampleElemShape sampleElem)) := by
  have hspot : spotAt (.part ⟨sampleShape, sampleValue⟩) [.field 1, .elem 1] =
      some (.part ⟨sampleElemShape, sampleElem⟩) := rfl
  obtain ⟨t₁, hrun⟩ := reference_run sampleValue_storable
  obtain ⟨t₂, hrun₂⟩ := reference_run (sampleElem_storable sampleElem)
  obtain ⟨u₁, hcheck⟩ := sample_check hspot (g := 25) rfl
  exact isValidMerkleBranch_proves_part (referenceHost_sound true 2 [1, 0, 1])
    (referenceHost_sound false 2 []) (referenceHost_sound true 2 [1, 0, 1]) rfl rfl
    sampleValue_storable (sampleElem_storable sampleElem) hspot rfl rfl (newThread_ready 0).resting
    hrun (newThread_ready 0).resting hrun₂ (newThread_ready 0).resting hcheck

end HazmatSha256.Opening
