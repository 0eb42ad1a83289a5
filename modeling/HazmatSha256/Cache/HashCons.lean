import HazmatSha256.Cache.Node
set_option autoImplicit false

/-!
# Cache: the hash-cons table

`SizzLean.Cache.MerkleTree.HashCons`: one bounded table for the process, from roots to
cells.  A cell is replaced by the one the table holds under its root if the two have the
same silhouette, so that where no two pairs collide the replacement is the same tree.
-/

namespace HazmatSha256.Cache

open Foundation Shape Merkle Ssz

/-! ## The table -/

/-- The default of `HashCons.setCapacity`. -/
def defaultCapacity : Nat := 4096

structure HashConsState where
  cache : List (ByteArray × Node)
  count : Nat
  capacity : Nat
  hits : Nat
  misses : Nat

def hashConsInitial : HashConsState := ⟨[], 0, defaultCapacity, 0, 0⟩

namespace HashConsState

/-- Roots are compared byte by byte. -/
def find? (s : HashConsState) (r : ByteArray) : Option Node :=
  (s.cache.find? fun e => e.1.data == r.data).map Prod.snd

/-- The new entry replaces one under the same root. -/
def insert (cache : List (ByteArray × Node)) (r : ByteArray) (n : Node) :
    List (ByteArray × Node) :=
  (r, n) :: cache.filter fun e => e.1.data != r.data

def clear (s : HashConsState) : HashConsState :=
  { s with cache := [], count := 0, hits := 0, misses := 0 }

def setCapacity (s : HashConsState) (n : Nat) : HashConsState :=
  { s with cache := [], count := 0, capacity := n }

/-- A full table is wiped before the entry; a table of no capacity stores nothing. -/
def insertBounded (s : HashConsState) (r : ByteArray) (n : Node) : HashConsState :=
  if s.capacity = 0 then s
  else if s.count + 1 > s.capacity then { s with cache := insert [] r n, count := 1 }
  else { s with cache := insert s.cache r n, count := s.count + 1 }

/-- `Node.consCell`, in one atomic step. -/
def consCell (s : HashConsState) (n : Node) : Node × HashConsState :=
  match n with
  | .pair _ _ (some r) =>
      match s.find? r with
      | some existing =>
          if existing.shapeEq n then (existing, { s with hits := s.hits + 1 })
          -- same root, other silhouette: a block against its header
          else (n, { s with misses := s.misses + 1 })
      | none => (n, { s with misses := s.misses + 1 }.insertBounded r n)
  | _ => (n, s)

/-! ## What the table keeps -/

/-- The table never outgrows its capacity, and every entry is a coherent cell of a known
tree, filed under its root. -/
structure Kept (D : Shape ByteArray → Prop) (s : HashConsState) : Prop where
  length : s.cache.length ≤ s.count
  count : s.count ≤ s.capacity
  cell : ∀ r n, (r, n) ∈ s.cache → n.Coherent ∧ D n.bare ∧ n.cached = some r

variable {D : Shape ByteArray → Prop} {s : HashConsState} {r : ByteArray} {n : Node}

theorem initial_kept (D : Shape ByteArray → Prop) : hashConsInitial.Kept D :=
  ⟨Nat.le_refl 0, Nat.zero_le _, fun _ _ h => absurd h List.not_mem_nil⟩

theorem mem_of_find? (h : s.find? r = some n) : (r, n) ∈ s.cache := by
  obtain ⟨⟨k, x⟩, hfind, rfl⟩ := Option.map_eq_some_iff.mp h
  have hkey := List.find?_some hfind
  obtain rfl : k = r := ByteArray.ext (eq_of_beq hkey)
  exact List.mem_of_find?_eq_some hfind

theorem clear_kept (s : HashConsState) (D : Shape ByteArray → Prop) : s.clear.Kept D :=
  ⟨Nat.le_refl 0, Nat.zero_le _, fun _ _ hmem => absurd hmem List.not_mem_nil⟩

theorem setCapacity_kept (s : HashConsState) (k : Nat) (D : Shape ByteArray → Prop) :
    (s.setCapacity k).Kept D :=
  ⟨Nat.le_refl 0, Nat.zero_le _, fun _ _ hmem => absurd hmem List.not_mem_nil⟩

namespace Kept

theorem tally (h : s.Kept D) (hits misses : Nat) :
    Kept D { s with hits := hits, misses := misses } :=
  ⟨h.length, h.count, h.cell⟩

theorem mem_insert {cache : List (ByteArray × Node)} {e : ByteArray × Node}
    (he : e ∈ insert cache r n) : e = (r, n) ∨ e ∈ cache := by
  obtain rfl | hmem := List.mem_cons.mp he
  · exact .inl rfl
  · exact .inr (List.mem_of_mem_filter hmem)

theorem length_insert (cache : List (ByteArray × Node)) (r : ByteArray) (n : Node) :
    (insert cache r n).length ≤ cache.length + 1 :=
  Nat.succ_le_succ (List.length_filter_le _ _)

theorem insertBounded (h : s.Kept D) (hcoherent : n.Coherent) (hknown : D n.bare)
    (hroot : n.cached = some r) : (s.insertBounded r n).Kept D := by
  have hcell : ∀ {cache : List (ByteArray × Node)},
      (∀ k x, (k, x) ∈ cache → x.Coherent ∧ D x.bare ∧ x.cached = some k) →
      ∀ k x, (k, x) ∈ insert cache r n → x.Coherent ∧ D x.bare ∧ x.cached = some k := by
    intro cache hcache k x hmem
    obtain heq | hmem := mem_insert hmem
    · cases heq
      exact ⟨hcoherent, hknown, hroot⟩
    · exact hcache k x hmem
  have hlength := length_insert s.cache r n
  have hlen := h.length
  unfold HashConsState.insertBounded
  split
  · exact h
  · split
    · refine ⟨Nat.le_refl 1, Nat.pos_of_ne_zero ‹_›, hcell fun _ _ hmem => ?_⟩
      exact absurd hmem List.not_mem_nil
    · exact ⟨Nat.le_trans hlength (Nat.succ_le_succ hlen), Nat.le_of_not_lt ‹_›, hcell h.cell⟩

/-- The replacement stands for the cell. -/
theorem consCell (closed : Closed D) (free : CollisionFree Spec.combine D) (h : s.Kept D)
    (hcoherent : n.Coherent) (hknown : D n.bare) :
    n.Stands (s.consCell n).1 ∧ (s.consCell n).2.Kept D := by
  cases n with
  | leaf b => exact ⟨.refl _, h⟩
  | pair l r' c =>
      cases c with
      | none => exact ⟨.refl _, h⟩
      | some k =>
          rw [HashConsState.consCell]
          cases hfind : s.find? k with
          | none => exact ⟨.refl _, (h.tally _ _).insertBounded hcoherent hknown rfl⟩
          | some existing =>
              dsimp only
              split
              case isFalse => exact ⟨.refl _, h.tally _ _⟩
              case isTrue hshape =>
                obtain ⟨hco, hD, hslot⟩ := h.cell k existing (mem_of_find? hfind)
                rw [Node.shapeEq_eq] at hshape
                have hroots : root existing.bare = root (Node.pair l r' (some k)).bare :=
                  (hco.eq_root hslot).symm.trans (hcoherent.eq_root rfl)
                have hbare := eq_of_value_eq closed free hD hknown hshape hroots
                exact ⟨⟨hbare, hslot, fun _ => hco⟩, h.tally _ _⟩

end Kept

end HashConsState

/-! ## Consing a tree -/

variable {m : Type → Type} [Monad m]

/-- The table and the object graph, over the monad of their operations.  `ptrEq` is the
runtime's comparison of pointers. -/
structure Conser (m : Type → Type) where
  consCell : Node → m Node
  insert : ByteArray → Node → m PUnit
  ptrEq : Node → Node → m Bool

def Node.consPair (C : Conser m) (left right : Node) (root : ByteArray) : m Node :=
  C.consCell (.pair left right (some root))

/-- From the top down: a hit spares the walk into the subtree. -/
def Node.consTree (C : Conser m) : Node → m Node
  | .leaf b => pure (.leaf b)
  | .pair l r c => do
      let hit ← C.consCell (.pair l r c)
      let same ← C.ptrEq hit (.pair l r c)
      if !same then pure hit
      else do
        let l' ← consTree C l
        let r' ← consTree C r
        let sameLeft ← C.ptrEq l l'
        let sameRight ← C.ptrEq r r'
        if sameLeft && sameRight then pure (.pair l r c)
        else do
          -- a child was shared: from now on the table holds the cell over the shared child
          match c with
          | some root => C.insert root (.pair l' r' c)
          | none => pure ⟨⟩
          pure (.pair l' r' c)

end HazmatSha256.Cache
