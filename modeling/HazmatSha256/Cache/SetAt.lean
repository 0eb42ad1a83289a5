import HazmatSha256.Cache.Walk
set_option autoImplicit false

/-!
# Cache: writes into a tree

`SizzLean.Cache.MerkleTree.SetAt`: generalized indices as paths, one write, many writes in
one walk, and the walk that writes and hashes at once.
-/

namespace HazmatSha256.Cache

open Foundation Shape Boxed Isal Evp Shim Merkle Ssz

/-! ## Generalized indices -/

/-- The bits below the highest, from the root down. -/
def gindexBits (g : Nat) : List Bool :=
  let n := g.log2
  (List.range n).reverse.map fun i => g.testBit i

def gindexOfBits (bits : List Bool) : Nat :=
  bits.foldl (fun acc b => if b then 2 * acc + 1 else 2 * acc) 1

theorem gindexOfBits_concat (p : List Bool) (b : Bool) :
    gindexOfBits (p ++ [b]) = 2 * gindexOfBits p + b.toNat := by
  rw [gindexOfBits, List.foldl_append]
  cases b <;> rfl

theorem gindexOfBits_pos (p : List Bool) : 0 < gindexOfBits p := by
  induction p using List.reverseRecOn with
  | nil => exact Nat.one_pos
  | append_singleton p b ih =>
      rw [gindexOfBits_concat]
      omega

/-- One step further down. -/
theorem gindexBits_child {g : Nat} (hg : 0 < g) (b : Bool) :
    gindexBits (2 * g + b.toNat) = gindexBits g ++ [b] := by
  have hbit : b.toNat < 2 := Bool.toNat_lt b
  have hhalf : (2 * g + b.toNat) / 2 = g := by omega
  have hlog : (2 * g + b.toNat).log2 = g.log2 + 1 := by
    rw [Nat.log2_def, if_pos (by omega), hhalf]
  have hhigh : ∀ i, (2 * g + b.toNat).testBit (i + 1) = g.testBit i := by
    intro i
    rw [Nat.testBit_succ, hhalf]
  have hlow : (2 * g + b.toNat).testBit 0 = b := by
    cases b <;> simp
  simp only [gindexBits, hlog, List.range_succ_eq_map, List.reverse_cons, List.map_append,
    List.map_reverse, List.map_map, List.map_singleton, hlow]
  congr 3
  funext i
  exact hhigh i

/-- The index of a path leads down that path. -/
theorem gindexBits_gindexOfBits (p : List Bool) : gindexBits (gindexOfBits p) = p := by
  induction p using List.reverseRecOn with
  | nil => rfl
  | append_singleton p b ih => rw [gindexOfBits_concat, gindexBits_child (gindexOfBits_pos p), ih]

theorem gindexOfBits_gindexBits : ∀ {g : Nat}, 0 < g → gindexOfBits (gindexBits g) = g := by
  intro g
  induction g using Nat.strongRecOn with
  | ind g ih =>
      intro hg
      by_cases hone : g = 1
      · subst hone
        rfl
      · have hsplit : g = 2 * (g / 2) + (g.testBit 0).toNat := by
          rw [Nat.testBit_zero]
          cases Nat.mod_two_eq_zero_or_one g <;> simp [*] <;> omega
        have hhalf : 0 < g / 2 := by omega
        rw [hsplit, gindexBits_child hhalf, gindexOfBits_concat, ih (g / 2) (by omega) hhalf]

theorem gindexOfBits_inj {p q : List Bool} (h : gindexOfBits p = gindexOfBits q) : p = q := by
  rw [← gindexBits_gindexOfBits p, h, gindexBits_gindexOfBits]

theorem steps_eq (h k : Nat) : steps h k = (List.range h).reverse.map fun i => k.testBit i := by
  induction h with
  | zero => rfl
  | succ h ih => rw [steps, ih, List.range_succ, List.reverse_append, List.map_append]; rfl

/-- Place `k` of a row of width `2 ^ h`. -/
theorem gindexBits_place {h k : Nat} (hk : k < 2 ^ h) : gindexBits (2 ^ h + k) = steps h k := by
  have hlog : (2 ^ h + k).log2 = h := by
    rw [Nat.log2_eq_iff (by omega), Nat.pow_succ]
    omega
  rw [gindexBits, hlog, steps_eq]
  apply List.map_congr_left
  intro i hi
  rw [List.mem_reverse, List.mem_range] at hi
  exact Nat.testBit_two_pow_add_gt hi k

theorem length_gindexBits_place {h k : Nat} (hk : k < 2 ^ h) :
    (gindexBits (2 ^ h + k)).length = h := by
  rw [gindexBits_place hk, steps_eq, List.length_map, List.length_reverse, List.length_range]

/-- Through one place of a row and on: the place and the rest can be read off. -/
theorem place_append_inj {h j k : Nat} {p q : List Bool} (hj : j < 2 ^ h) (hk : k < 2 ^ h)
    (heq : gindexBits (2 ^ h + j) ++ p = gindexBits (2 ^ h + k) ++ q) : j = k ∧ p = q := by
  have hlength : (gindexBits (2 ^ h + j)).length = (gindexBits (2 ^ h + k)).length := by
    rw [length_gindexBits_place hj, length_gindexBits_place hk]
  obtain ⟨hplace, hrest⟩ := List.append_inj heq hlength
  have hpos : ∀ i, 0 < 2 ^ h + i := fun i => Nat.add_pos_left (Nat.two_pow_pos h) i
  have hindex := congrArg gindexOfBits hplace
  rw [gindexOfBits_gindexBits (hpos j), gindexOfBits_gindexBits (hpos k)] at hindex
  exact ⟨Nat.add_left_cancel hindex, hrest⟩

/-! ## Writes -/

namespace Node

/-- The slots on the way are emptied; a path that leaves the tree changes nothing. -/
def setAtBits : Node → List Bool → Node → Node
  | _, [], newSubtree => newSubtree
  | leaf b, _ :: _, _ => leaf b
  | pair l r _, false :: rest, newSubtree => pair (l.setAtBits rest newSubtree) r none
  | pair l r _, true :: rest, newSubtree => pair l (r.setAtBits rest newSubtree) none

def setAt (n : Node) (g : Nat) (newSubtree : Node) : Node := n.setAtBits (gindexBits g) newSubtree

/-- The leaves from left to right. -/
def asLeafArray : Node → Array ByteArray
  | leaf b => #[b]
  | pair l r _ => l.asLeafArray ++ r.asLeafArray

/-- A leaf under the writes that reach it. -/
def setLeaf (b : ByteArray) (us : List (List Bool × Node)) : Node :=
  us.foldl (fun acc u => match u.1 with
    | [] => u.2
    | _ :: _ => acc) (leaf b)

/-- All writes in one walk; a side without a write is kept as it is. -/
def setManyAt : Node → List (List Bool × Node) → Node
  | n, [] => n
  | leaf b, us => setLeaf b us
  | pair l r _, us =>
      match whole us with
      | some w => w
      | none =>
          let lefts := enter false us
          let rights := enter true us
          let l' := match lefts with
            | [] => l
            | _ :: _ => l.setManyAt lefts
          let r' := match rights with
            | [] => r
            | _ :: _ => r.setManyAt rights
          pair l' r' none

end Node

section Source

variable {m : Type → Type} [Monad m]

/-- The writes and the root in one walk: every pair on the way is made once, with its root. -/
def Node.commitAndHash (H : Hasher m) (C : Conser m) (consing : Bool) :
    Node → List (List Bool × Node) → m (ByteArray × Node)
  | n, [] => n.merkleRootWithCache H
  | .leaf b, us => (Node.setLeaf b us).merkleRootWithCache H
  | .pair l r _, us =>
      match whole us with
      | some w => w.merkleRootWithCache H
      | none => do
          let lefts := enter false us
          let rights := enter true us
          let (rootL, l') ← (match lefts with
            | [] => do
                let rootL ← l.rootOf H
                pure (rootL, l)
            | _ :: _ => commitAndHash H C consing l lefts)
          let (rootR, r') ← (match rights with
            | [] => do
                let rootR ← r.rootOf H
                pure (rootR, r)
            | _ :: _ => commitAndHash H C consing r rights)
          let root ← H.combine rootL rootR
          if consing then do
            let cell ← Node.consPair C l' r' root
            pure (root, cell)
          else pure (root, .pair l' r' (some root))

end Source

/-! ## What the writes do -/

namespace Node

/-- The writes without the slots of their trees. -/
def bareWrites (us : List (List Bool × Node)) : List (List Bool × Shape ByteArray) :=
  us.map fun u => (u.1, u.2.bare)

theorem bare_setAtBits (n : Node) (p : List Bool) (s : Node) :
    (n.setAtBits p s).bare = n.bare.graft p s.bare := by
  induction p generalizing n with
  | nil => cases n <;> simp [setAtBits]
  | cons d p ih =>
      cases n with
      | leaf b => simp [setAtBits, bare, graft]
      | pair l r c => cases d <;> simp [setAtBits, bare, graft, ih]

theorem coherent_setAtBits {n s : Node} (hn : n.Coherent) (hs : s.Coherent) (p : List Bool) :
    (n.setAtBits p s).Coherent := by
  induction p generalizing n with
  | nil =>
      cases n <;> exact hs
  | cons d p ih =>
      cases n with
      | leaf b => trivial
      | pair l r c =>
          cases d with
          | false => exact ⟨ih hn.1, hn.2.1, nofun⟩
          | true => exact ⟨hn.1, ih hn.2.1, nofun⟩

theorem setLeaf_eq (b : ByteArray) (us : List (List Bool × Node)) :
    setLeaf b us = (whole us).getD (leaf b) := by
  induction us using List.reverseRecOn with
  | nil => rfl
  | append_singleton us u ih =>
      rw [whole_concat, setLeaf, List.foldl_append]
      obtain ⟨p, s⟩ := u
      cases p with
      | nil => rfl
      | cons d p => exact ih

@[simp] theorem setManyAt_nil (n : Node) : n.setManyAt [] = n := by
  cases n <;> rfl

theorem setManyAt_leaf {b : ByteArray} {us : List (List Bool × Node)} (hus : us ≠ []) :
    (leaf b).setManyAt us = (whole us).getD (leaf b) := by
  cases us with
  | nil => exact absurd rfl hus
  | cons u us => exact setLeaf_eq b (u :: us)

/-- A side is walked, also where it has no write. -/
theorem setManyAt_pair {l r : Node} {c : Option ByteArray} {us : List (List Bool × Node)}
    (hus : us ≠ []) : (pair l r c).setManyAt us =
      (whole us).getD (pair (l.setManyAt (enter false us)) (r.setManyAt (enter true us)) none) := by
  cases us with
  | nil => exact absurd rfl hus
  | cons u us =>
      simp only [setManyAt]
      cases whole (u :: us) with
      | some w => rfl
      | none =>
          cases hl : enter false (u :: us) <;> cases hr : enter true (u :: us) <;>
            simp only [setManyAt_nil, Option.getD_none]

/-- Without the slots, the walk grafts every tree at its path. -/
theorem bare_setManyAt (n : Node) (us : List (List Bool × Node)) :
    (n.setManyAt us).bare = n.bare.graftMany (bareWrites us) := by
  induction n generalizing us with
  | leaf b =>
      by_cases hus : us = []
      · simp [hus, bareWrites]
      · rw [setManyAt_leaf hus, bare, graftMany, bareWrites, whole_map]
        cases whole us <;> rfl
  | pair l r c ihl ihr =>
      by_cases hus : us = []
      · simp [hus, bareWrites]
      · rw [setManyAt_pair hus, bare, graftMany, bareWrites, whole_map, enter_map, enter_map,
          ← bareWrites, ← bareWrites, ← ihl, ← ihr]
        cases whole us <;> rfl

theorem coherent_of_whole {us : List (List Bool × Node)} (h : ∀ u ∈ us, u.2.Coherent) {w : Node}
    (hw : whole us = some w) : w.Coherent :=
  h ([], w) (mem_of_whole hw)

theorem coherent_enter {us : List (List Bool × Node)} (h : ∀ u ∈ us, u.2.Coherent) (d : Bool) :
    ∀ u ∈ enter d us, u.2.Coherent :=
  fun u hu => h (d :: u.1, u.2) (mem_enter.mp hu)

/-- No slot above a write is left filled. -/
theorem coherent_setManyAt {n : Node} {us : List (List Bool × Node)} (hn : n.Coherent)
    (hus : ∀ u ∈ us, u.2.Coherent) : (n.setManyAt us).Coherent := by
  induction n generalizing us with
  | leaf b =>
      by_cases hempty : us = []
      · simpa [hempty] using hn
      · rw [setManyAt_leaf hempty]
        cases hw : whole us with
        | none => trivial
        | some w => exact coherent_of_whole hus hw
  | pair l r c ihl ihr =>
      by_cases hempty : us = []
      · simpa [hempty] using hn
      · rw [setManyAt_pair hempty]
        cases hw : whole us with
        | none =>
            exact ⟨ihl hn.1 (coherent_enter hus false), ihr hn.2.1 (coherent_enter hus true), nofun⟩
        | some w => exact coherent_of_whole hus hw

/-- Writes none of which is below another can be made one after another. -/
theorem bare_setEach (n : Node) (us : List (List Bool × Node)) :
    (us.foldl (fun n u => n.setAtBits u.1 u.2) n).bare = n.bare.graftEach (bareWrites us) := by
  induction us generalizing n with
  | nil => rfl
  | cons u us ih =>
      rw [List.foldl_cons, ih, bare_setAtBits]
      rfl

end Node

/-! ## Writing and hashing in one walk -/

variable {σ κ : Type} {host : Host σ κ} {legal : Prop} {D : Shape ByteArray → Prop}

open Node in
/-- Consing replaces a node by one that stands for it. -/
theorem consTree_meets (closed : Closed D) {n : Node} (hn : n.Coherent) (hD : D n.bare) :
    (n.consTree conser).Meets (contract host legal D) n.Stands := by
  induction n with
  | leaf b => exact Stands.refl _
  | pair l r c ihl ihr =>
      obtain ⟨hDl, hDr⟩ := closed _ _ hD
      rw [consTree]
      refine Script.Meets.step ⟨hn, hD⟩ fun hit hhit => ?_
      refine Script.Meets.step trivial fun same _ => ?_
      cases same with
      | false => exact hhit
      | true =>
          refine (ihl hn.1 hDl).bind fun l' hl => ?_
          refine (ihr hn.2.1 hDr).bind fun r' hr => ?_
          refine Script.Meets.step trivial fun sameLeft _ => ?_
          refine Script.Meets.step trivial fun sameRight _ => ?_
          have hpair : (pair l r c).Stands (pair l' r' c) := hl.pair hr
          split
          · exact Stands.refl _
          · cases c with
            | none => exact hpair
            | some d =>
                refine Script.Meets.step ?_ fun _ _ => hpair
                exact ⟨hpair.coherent hn, hpair.bare.symm ▸ hD, rfl⟩

/-- What may be asked of the table when a tree is written: it is known, with its subtrees. -/
def Known (D : Shape ByteArray → Prop) (consing : Bool) (t : Shape ByteArray) : Prop :=
  consing = true → Closed D ∧ D t

theorem Known.left {consing : Bool} {l r : Shape ByteArray} (h : Known D consing (.pair l r)) :
    Known D consing l :=
  fun hc => ⟨(h hc).1, ((h hc).1 _ _ (h hc).2).1⟩

theorem Known.right {consing : Bool} {l r : Shape ByteArray} (h : Known D consing (.pair l r)) :
    Known D consing r :=
  fun hc => ⟨(h hc).1, ((h hc).1 _ _ (h hc).2).2⟩

/-- The cell over two trees, consed or not. -/
theorem cell_meets {consing : Bool} {l r : Shape ByteArray} {nl nr : Node}
    (hl : nl.Coherent ∧ nl.bare = l) (hr : nr.Coherent ∧ nr.bare = r)
    (known : Known D consing (.pair l r)) :
    (if consing then do
        let cell ← Node.consPair conser nl nr (root (.pair l r))
        pure (root (.pair l r), cell)
      else pure (root (.pair l r), Node.pair nl nr (some (root (.pair l r)))) :
        Prog (ByteArray × Node)).Meets (contract host legal D)
      fun p => p.1 = root (.pair l r) ∧ Built (.pair l r) p.2 := by
  obtain ⟨hl, rfl⟩ := hl
  obtain ⟨hr, rfl⟩ := hr
  have hcell : Built (.pair nl.bare nr.bare)
      (.pair nl nr (some (root (.pair nl.bare nr.bare)))) := by
    refine ⟨⟨hl, hr, ?_⟩, rfl, rfl⟩
    intro b hb
    exact (Option.some.inj hb).symm
  cases consing with
  | false => exact ⟨rfl, hcell⟩
  | true =>
      refine Script.Meets.step ⟨hcell.coherent, (known rfl).2⟩ fun cell hstands => ?_
      exact ⟨rfl, hcell.of_stands hstands⟩

/-- A side without a write is kept as it is and only read. -/
theorem side_meets {consing : Bool} {n : Node} {us : List (List Bool × Node)} :
    n.Coherent → (legal → Handy (n.setManyAt us).bare) →
    (n.commitAndHash hasher conser consing us).Meets (contract host legal D)
      (fun p => p.1 = root (n.setManyAt us).bare ∧ Built (n.setManyAt us).bare p.2) →
    (match us with
      | [] => do
          let d ← n.rootOf hasher
          pure (d, n)
      | _ :: _ => n.commitAndHash hasher conser consing us : Prog (ByteArray × Node)).Meets
      (contract host legal D) fun p => p.1 = root (n.setManyAt us).bare ∧ p.2.Coherent ∧
        p.2.bare = (n.setManyAt us).bare := by
  intro hn handy walk
  cases us with
  | nil =>
      rw [Node.setManyAt_nil] at handy ⊢
      refine (rootOf_meets hn handy).bind ?_
      rintro _ rfl
      exact ⟨rfl, hn, rfl⟩
  | cons u us => exact walk.mono fun p hp => ⟨hp.1, hp.2.coherent, hp.2.bare⟩

/-- The walk answers the root of the tree with its writes made, and leaves that tree. -/
theorem commitAndHash_meets {consing : Bool} {n : Node} {us : List (List Bool × Node)}
    (hn : n.Coherent) (hus : ∀ u ∈ us, u.2.Coherent)
    (handy : legal → Handy (n.setManyAt us).bare)
    (known : Known D consing (n.setManyAt us).bare) :
    (n.commitAndHash hasher conser consing us).Meets (contract host legal D)
      fun p => p.1 = root (n.setManyAt us).bare ∧ Built (n.setManyAt us).bare p.2 := by
  induction n generalizing us with
  | leaf b =>
      cases us with
      | nil => exact merkleRootWithCache_meets hn handy
      | cons u us =>
          exact merkleRootWithCache_meets (Node.coherent_setManyAt hn hus) handy
  | pair l r c ihl ihr =>
      by_cases hempty : us = []
      · subst hempty
        exact merkleRootWithCache_meets hn handy
      rw [Node.setManyAt_pair hempty] at handy known ⊢
      simp only [Node.commitAndHash]
      cases hw : whole us with
      | some w =>
          rw [hw] at handy
          exact merkleRootWithCache_meets (Node.coherent_of_whole hus hw) handy
      | none =>
          rw [hw, Option.getD_none] at handy known
          dsimp only
          have handyLeft := fun hlegal => (handy hlegal).1
          have handyRight := fun hlegal => (handy hlegal).2
          refine (side_meets hn.1 handyLeft
            (ihl hn.1 (Node.coherent_enter hus false) handyLeft known.left)).bind ?_
          rintro ⟨rootL, l'⟩ ⟨rfl, hl⟩
          refine (side_meets hn.2.1 handyRight
            (ihr hn.2.1 (Node.coherent_enter hus true) handyRight known.right)).bind ?_
          rintro ⟨rootR, r'⟩ ⟨rfl, hr⟩
          refine (combine_meets handyLeft handyRight).bind ?_
          rintro _ rfl
          exact cell_meets hl hr known

/-- Where no write is below another, the one walk leaves the tree that the writes leave when
they are made one after another, with every slot it fills right, and answers its root. -/
theorem commitAndHash_each {consing : Bool} {n : Node} {us : List (List Bool × Node)}
    (hn : n.Coherent) (hus : ∀ u ∈ us, u.2.Coherent) (flat : Flat (Node.bareWrites us))
    (handy : legal → Handy (us.foldl (fun n u => n.setAtBits u.1 u.2) n).bare)
    (known : Known D consing (us.foldl (fun n u => n.setAtBits u.1 u.2) n).bare) :
    (n.commitAndHash hasher conser consing us).Meets (contract host legal D) fun p =>
      p.1 = root (us.foldl (fun n u => n.setAtBits u.1 u.2) n).bare ∧ p.2.Coherent ∧
        p.2.bare = (us.foldl (fun n u => n.setAtBits u.1 u.2) n).bare := by
  have heach : (n.setManyAt us).bare = (us.foldl (fun n u => n.setAtBits u.1 u.2) n).bare := by
    rw [Node.bare_setManyAt, Node.bare_setEach, graftMany_eq_graftEach flat]
  rw [← heach] at handy known ⊢
  refine (commitAndHash_meets hn hus handy known).mono ?_
  rintro ⟨_, n'⟩ ⟨rfl, built⟩
  exact ⟨rfl, built.coherent, built.bare⟩

def sampleNode : Node := .pair (.leaf zero32) (.pair (.leaf zero32) (.leaf zero32) none) none

def sampleWrites : List (List Bool × Node) :=
  [([true, false], .leaf (natToChunk 1)), ([false], .leaf (natToChunk 2)),
    ([true, false], .leaf (natToChunk 3))]

/-- One leaf written twice, and another. -/
theorem commitAndHash_each_three :
    (sampleNode.commitAndHash hasher conser false sampleWrites).Meets
      (contract (referenceHost true 2 [1, 0, 1]) True fun _ => False) fun p =>
      p.1 = root (sampleWrites.foldl (fun n u => n.setAtBits u.1 u.2) sampleNode).bare ∧
        p.2.Coherent ∧
        p.2.bare = (sampleWrites.foldl (fun n u => n.setAtBits u.1 u.2) sampleNode).bare := by
  have hn : sampleNode.Coherent := ⟨trivial, ⟨trivial, trivial, nofun⟩, nofun⟩
  have hus : ∀ u ∈ sampleWrites, u.2.Coherent := by simp [sampleWrites, Node.Coherent]
  have flat : Flat (Node.bareWrites sampleWrites) := by
    simp [Flat, Node.bareWrites, sampleWrites]
  refine commitAndHash_each hn hus flat (fun _ => ?_) nofun
  exact ⟨handy_leaf (size_natToChunk 2), handy_leaf (size_natToChunk 3), handy_leaf size_zero32⟩

end HazmatSha256.Cache
