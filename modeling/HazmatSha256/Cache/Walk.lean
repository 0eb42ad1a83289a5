import HazmatSha256.Cache.Calls
set_option autoImplicit false

/-!
# Cache: walking and building nodes

`SizzLean.Cache.MerkleTree.Merkle` and `Zero`: the walks that read a root, with and without
filling the slots on the way, and the balanced trees over a row of leaves or of subtrees.
-/

namespace HazmatSha256.Cache

open Foundation Shape Boxed Isal Evp Shim Merkle Ssz

section Source

variable {m : Type → Type} [Monad m] {α : Type}

namespace Node

/-- The root; no slot is filled. -/
def rootOf (H : Hasher m) : Node → m ByteArray
  | leaf b => pure b
  | pair _ _ (some r) => pure r
  | pair l r none => do
      let rootL ← l.rootOf H
      let rootR ← r.rootOf H
      H.combine rootL rootR

/-- The root, and the node with its slots filled down to those that were. -/
def merkleRootWithCache (H : Hasher m) : Node → m (ByteArray × Node)
  | leaf b => pure (b, leaf b)
  | pair l r (some root) => pure (root, pair l r (some root))
  | pair l r none => do
      let (rootL, l') ← l.merkleRootWithCache H
      let (rootR, r') ← r.merkleRootWithCache H
      let root ← H.combine rootL rootR
      pure (root, pair l' r' (some root))

end Node

/-- The all-zero subtree of a depth; its two children are one object. -/
def zeroLeaf (H : Hasher m) : (depth : Nat) → m Node
  | 0 => pure (.leaf zero32)
  | d + 1 => do
      let child ← zeroLeaf H d
      let r ← zeroHashAt H (d + 1)
      pure (.pair child child (some r))

/-- A pair with its root already in the slot. -/
def filledPair (H : Hasher m) (left right : Node) : m Node := do
  let rootL ← left.rootOf H
  let rootR ← right.rootOf H
  let root ← H.combine rootL rootR
  pure (.pair left right (some root))

/-- `ofLeaves` and `ofSubtrees`: a balanced tree with room for `2 ^ depth` places, from the
left. -/
def ofRow (H : Hasher m) (place : α → Node) : List α → (depth : Nat) → m Node
  | [], 0 => zeroLeaf H 0
  | x :: _, 0 => pure (place x)
  | xs, d + 1 => do
      let half := 2 ^ d
      let (lefts, rights) := xs.splitAt half
      let leftNode ← ofRow H place lefts d
      let rightNode ← if rights.isEmpty then zeroLeaf H d else ofRow H place rights d
      filledPair H leftNode rightNode

def Node.ofLeaves (H : Hasher m) (leaves : List ByteArray) (depth : Nat) : m Node :=
  ofRow H .leaf leaves depth

def Node.ofSubtrees (H : Hasher m) (subs : List Node) (depth : Nat) : m Node :=
  ofRow H id subs depth

end Source

/-! ## What the walks answer -/

variable {σ κ α : Type} {host : Host σ κ} {legal : Prop} {D : Shape ByteArray → Prop}

theorem fits_root {t : Shape ByteArray} (h : Handy t) : Fits (root t) := by
  cases t with
  | leaf b => exact h
  | pair l r => exact fits_of_size (size_root_pair l r)

theorem combine_meets {l r : Shape ByteArray} (hl : legal → Handy l) (hr : legal → Handy r) :
    (hasher.combine (root l) (root r)).Meets (contract host legal D)
      fun d => d = root (pair l r) :=
  Script.Meets.ask fun hlegal => ⟨fits_root (hl hlegal), fits_root (hr hlegal)⟩

/-- A node of this tree, with its root in the slot. -/
structure Built (t : Shape ByteArray) (n : Node) : Prop where
  coherent : n.Coherent
  bare : n.bare = t
  cached : n.cached = some (root t)

theorem Built.pair {l r : Shape ByteArray} {nl nr : Node} (hl : Built l nl) (hr : Built r nr) :
    Built (.pair l r) (.pair nl nr (some (root (.pair l r)))) := by
  refine ⟨⟨hl.coherent, hr.coherent, ?_⟩, ?_, rfl⟩
  · intro b hb
    rw [hl.bare, hr.bare]
    exact (Option.some.inj hb).symm
  · rw [Node.bare, hl.bare, hr.bare]

theorem Built.leaf (b : ByteArray) : Built (.leaf b) (.leaf b) := ⟨trivial, rfl, rfl⟩

theorem Built.of_stands {t : Shape ByteArray} {n n' : Node} (h : Built t n) (hs : n.Stands n') :
    Built t n' :=
  ⟨hs.coherent h.coherent, hs.bare.trans h.bare, hs.cached.trans h.cached⟩

/-- Reading the root of a coherent node. -/
theorem rootOf_meets {n : Node} (h : n.Coherent) (handy : legal → Handy n.bare) :
    (n.rootOf hasher).Meets (contract host legal D) fun d => d = root n.bare := by
  induction n with
  | leaf b => exact rfl
  | pair l r c ihl ihr =>
      cases c with
      | some d => exact h.eq_root rfl
      | none =>
          refine (ihl h.1 fun hlegal => (handy hlegal).1).bind ?_
          rintro _ rfl
          refine (ihr h.2.1 fun hlegal => (handy hlegal).2).bind ?_
          rintro _ rfl
          exact combine_meets (fun hlegal => (handy hlegal).1) fun hlegal => (handy hlegal).2

/-- Reading the root and filling the slots. -/
theorem merkleRootWithCache_meets {n : Node} (h : n.Coherent) (handy : legal → Handy n.bare) :
    (n.merkleRootWithCache hasher).Meets (contract host legal D)
      fun p => p.1 = root n.bare ∧ Built n.bare p.2 := by
  induction n with
  | leaf b => exact ⟨rfl, Built.leaf b⟩
  | pair l r c ihl ihr =>
      cases c with
      | some d =>
          have hd := h.eq_root rfl
          exact ⟨hd, h, rfl, congrArg some hd⟩
      | none =>
          refine (ihl h.1 fun hlegal => (handy hlegal).1).bind ?_
          rintro ⟨_, nl⟩ ⟨rfl, hl⟩
          refine (ihr h.2.1 fun hlegal => (handy hlegal).2).bind ?_
          rintro ⟨_, nr⟩ ⟨rfl, hr⟩
          refine (combine_meets (fun hlegal => (handy hlegal).1)
            fun hlegal => (handy hlegal).2).bind ?_
          rintro _ rfl
          exact ⟨rfl, hl.pair hr⟩

theorem filledPair_meets {l r : Shape ByteArray} {nl nr : Node} (hl : Built l nl)
    (hr : Built r nr) (handy : legal → Handy (.pair l r)) :
    (filledPair hasher nl nr).Meets (contract host legal D) (Built (.pair l r)) := by
  unfold filledPair
  refine (rootOf_meets hl.coherent fun hlegal => ?_).bind ?_
  · rw [hl.bare]
    exact (handy hlegal).1
  rintro _ rfl
  refine (rootOf_meets hr.coherent fun hlegal => ?_).bind ?_
  · rw [hr.bare]
    exact (handy hlegal).2
  rintro _ rfl
  rw [hl.bare, hr.bare]
  refine (combine_meets (fun hlegal => (handy hlegal).1) fun hlegal => (handy hlegal).2).bind ?_
  rintro _ rfl
  exact hl.pair hr

/-! ## Zero subtrees -/

/-- The all-zero tree of a depth. -/
abbrev zeroTree (depth : Nat) : Shape ByteArray := uniform pair (leaf zero32) depth

theorem root_zeroTree : ∀ depth, root (zeroTree depth) = zeroRoot depth := by
  intro depth
  induction depth with
  | zero => rfl
  | succ d ih =>
      rw [zeroRoot, zeroTree, uniform, uniform, root, value]
      change Spec.combine (root (zeroTree d)) (root (zeroTree d)) = _
      rw [ih]
      rfl

theorem handy_zeroTree : ∀ depth, Handy (zeroTree depth) := by
  intro depth
  induction depth with
  | zero => exact handy_leaf size_zero32
  | succ d ih => exact ⟨ih, ih⟩

theorem zeroHashAt_meets : ∀ depth, (zeroHashAt hasher depth).Meets (contract host legal D)
    fun d => d = root (zeroTree depth) := by
  intro depth
  induction depth with
  | zero => exact rfl
  | succ d ih =>
      refine Script.Meets.bind ih ?_
      rintro _ rfl
      exact combine_meets (fun _ => handy_zeroTree d) fun _ => handy_zeroTree d

theorem zeroLeaf_meets : ∀ depth, (zeroLeaf hasher depth).Meets (contract host legal D)
    (Built (zeroTree depth)) := by
  intro depth
  induction depth with
  | zero => exact Built.leaf zero32
  | succ d ih =>
      refine Script.Meets.bind ih ?_
      intro child hchild
      refine (zeroHashAt_meets (d + 1)).bind ?_
      rintro _ rfl
      exact hchild.pair hchild

/-! ## Rows -/

theorem perfect_nil (depth : Nat) : perfect [] depth = zeroTree depth :=
  node_uniform pair (leaf zero32) depth 0

/-- A perfect tree is cut in the middle of its row. -/
theorem perfect_succ (subs : List (Shape ByteArray)) (d : Nat) :
    perfect subs (d + 1) =
      pair (perfect (subs.take (2 ^ d)) d) (perfect (subs.drop (2 ^ d)) d) := by
  have hleft : node pair (padded subs (leaf zero32)) d 0 = perfect (subs.take (2 ^ d)) d := by
    refine node_congr pair fun j _ hj => ?_
    have hj : j < 2 ^ d := by simpa using hj
    simp [padded, List.getD_eq_getElem?_getD, hj]
  have hright : node pair (padded subs (leaf zero32)) d (0 + 1) =
      perfect (subs.drop (2 ^ d)) d := by
    rw [node_shift]
    congr 1
    funext j
    simp [padded, List.getD_eq_getElem?_getD, Nat.add_comm j]
  rw [perfect, node, hleft]
  exact congrArg _ hright

theorem ofRow_meets {place : α → Node} : ∀ {depth : Nat} {xs : List α}
    {subs : List (Shape ByteArray)}, List.Forall₂ (fun t x => Built t (place x)) subs xs →
    (legal → ∀ t ∈ subs, Handy t) →
    (ofRow hasher place xs depth).Meets (contract host legal D) (Built (perfect subs depth)) := by
  intro depth
  induction depth with
  | zero =>
      intro xs subs hrow _
      cases hrow with
      | nil => exact zeroLeaf_meets 0
      | cons hx hrest => exact hx
  | succ d ih =>
      intro xs subs hrow handy
      simp only [ofRow, List.splitAt_eq]
      have handyLeft : legal → ∀ t ∈ subs.take (2 ^ d), Handy t :=
        fun hlegal t ht => handy hlegal t (List.mem_of_mem_take ht)
      have handyRight : legal → ∀ t ∈ subs.drop (2 ^ d), Handy t :=
        fun hlegal t ht => handy hlegal t (List.mem_of_mem_drop ht)
      refine (ih (List.forall₂_take (2 ^ d) hrow) handyLeft).bind ?_
      intro left hleft
      have hpair : ∀ right, Built (perfect (subs.drop (2 ^ d)) d) right →
          (filledPair hasher left right).Meets (contract host legal D)
            (Built (perfect subs (d + 1))) := by
        intro right hright
        rw [perfect_succ]
        refine filledPair_meets hleft hright fun hlegal => ?_
        exact ⟨handy_perfect (handyLeft hlegal) d, handy_perfect (handyRight hlegal) d⟩
      have hrights := List.forall₂_drop (2 ^ d) hrow
      split
      case isTrue hempty =>
        rw [List.isEmpty_iff.mp hempty, List.forall₂_nil_right_iff] at hrights
        rw [hrights, perfect_nil] at hpair
        exact (zeroLeaf_meets d).bind hpair
      case isFalse => exact (ih hrights handyRight).bind hpair

theorem ofLeaves_meets (chunks : List ByteArray) (depth : Nat)
    (hsize : ∀ b ∈ chunks, b.size = bytesPerChunk) :
    (Node.ofLeaves hasher chunks depth).Meets (contract host legal D)
      (Built (perfect (leaves chunks) depth)) := by
  refine ofRow_meets ?_ fun _ => handy_leaves hsize
  rw [leaves, List.forall₂_map_left_iff]
  exact List.forall₂_same.mpr fun b _ => Built.leaf b

theorem ofSubtrees_meets {subs : List (Shape ByteArray)} {ns : List Node} (depth : Nat)
    (hbuilt : List.Forall₂ Built subs ns) (handy : legal → ∀ t ∈ subs, Handy t) :
    (Node.ofSubtrees hasher ns depth).Meets (contract host legal D)
      (Built (perfect subs depth)) :=
  ofRow_meets hbuilt handy

end HazmatSha256.Cache
