import HazmatSha256.Ssz.Tree
set_option autoImplicit false

/-!
# Cache: nodes with a slot for their root

`SizzLean.Cache.MerkleTree.Node`.  A node without its slots is a tree; it is coherent if
every slot that is filled holds the root of the tree under it.
-/

namespace HazmatSha256.Cache

open Foundation Shape Merkle Ssz

inductive Node where
  | leaf (bytes : ByteArray)
  | pair (left right : Node) (slot : Option ByteArray)
  deriving DecidableEq, Inhabited

namespace Node

/-- The root, where it is known without hashing. -/
def cached : Node → Option ByteArray
  | leaf b => some b
  | pair _ _ c => c

/-- The tree without its slots. -/
def bare : Node → Shape ByteArray
  | leaf b => .leaf b
  | pair l r _ => .pair l.bare r.bare

/-- Every filled slot holds the root. -/
def Coherent : Node → Prop
  | leaf _ => True
  | pair l r c => l.Coherent ∧ r.Coherent ∧ ∀ b ∈ c, b = root (.pair l.bare r.bare)

theorem Coherent.eq_root {n : Node} (h : n.Coherent) {b : ByteArray} (hb : n.cached = some b) :
    b = root n.bare := by
  cases n with
  | leaf x => exact (Option.some.inj hb).symm
  | pair l r c => exact h.2.2 b hb

/-- Leaf against leaf, pair against pair. -/
def shapeEq : Node → Node → Bool
  | leaf _, leaf _ => true
  | pair al ar _, pair bl br _ => shapeEq al bl && shapeEq ar br
  | _, _ => false

theorem shapeEq_eq : ∀ a b : Node, a.shapeEq b = a.bare.sameKinds b.bare := by
  intro a
  induction a with
  | leaf x =>
      intro b
      cases b <;> rfl
  | pair l r c ihl ihr =>
      intro b
      cases b with
      | leaf y => rfl
      | pair l' r' c' => rw [shapeEq, ihl, ihr, bare, bare, sameKinds]

/-- The same tree, known to the same extent, and coherent if the first is. -/
structure Stands (n n' : Node) : Prop where
  bare : n'.bare = n.bare
  cached : n'.cached = n.cached
  coherent : n.Coherent → n'.Coherent

theorem Stands.refl (n : Node) : n.Stands n := ⟨rfl, rfl, fun h => h⟩

theorem Stands.trans {a b c : Node} (hab : a.Stands b) (hbc : b.Stands c) : a.Stands c :=
  ⟨hbc.bare.trans hab.bare, hbc.cached.trans hab.cached,
    fun h => hbc.coherent (hab.coherent h)⟩

/-- A pair over children that stand for its own. -/
theorem Stands.pair {l r l' r' : Node} {c : Option ByteArray} (hl : l.Stands l')
    (hr : r.Stands r') : (pair l r c).Stands (pair l' r' c) := by
  refine ⟨?_, rfl, ?_⟩
  · rw [Node.bare, Node.bare, hl.bare, hr.bare]
  · intro h
    refine ⟨hl.coherent h.1, hr.coherent h.2.1, ?_⟩
    rw [hl.bare, hr.bare]
    exact h.2.2

end Node

end HazmatSha256.Cache
