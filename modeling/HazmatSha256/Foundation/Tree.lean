/-
  Foundation/Tree.lean --- perfect binary trees over an endless row of leaves.

  A node is named by its height and its position in the row of that height; node
  `i` of height `h + 1` stands over the nodes `2i` and `2i + 1` of height `h`.  A
  tree can be climbed by going down from its root, or row by row from the leaves;
  the file says that both give the same value, also where the row is finite and
  goes on with one leaf for ever.
-/
import Mathlib.Algebra.Group.Nat.Defs
import Mathlib.Data.List.GetD

set_option autoImplicit false

namespace HazmatSha256.Foundation

universe u

variable {α : Type u} (c : α → α → α)

/-! ## Nodes -/

/-- Node `i` of height `h`, over the leaves `f`. -/
def node (f : Nat → α) : (h i : Nat) → α
  | 0, i => f i
  | h + 1, i => c (node f h (2 * i)) (node f h (2 * i + 1))

/-- The row above `f`. -/
def rowAbove (f : Nat → α) (i : Nat) : α := c (f (2 * i)) (f (2 * i + 1))

/-- Climbing one row first, or last. -/
theorem node_rowAbove (f : Nat → α) : ∀ h i, node c (rowAbove c f) h i = node c f (h + 1) i := by
  intro h
  induction h with
  | zero =>
      intro i
      rfl
  | succ h ih =>
      intro i
      rw [node, ih, ih]
      rfl

/-- A node depends on the leaves it stands over. -/
theorem node_congr {f g : Nat → α} : ∀ {h i : Nat},
    (∀ j, 2 ^ h * i ≤ j → j < 2 ^ h * (i + 1) → f j = g j) → node c f h i = node c g h i := by
  intro h
  induction h with
  | zero =>
      intro i heq
      exact heq i (by omega) (by omega)
  | succ h ih =>
      intro i heq
      have hleft : 2 ^ (h + 1) * i = 2 ^ h * (2 * i) := by rw [Nat.pow_succ, Nat.mul_assoc]
      have hright : 2 ^ (h + 1) * (i + 1) = 2 ^ h * (2 * i + 1 + 1) := by
        rw [Nat.pow_succ, Nat.mul_assoc]
        congr 1
      have hmid : 2 ^ h * (2 * i + 1) = 2 ^ h * (2 * i) + 2 ^ h := by
        rw [Nat.mul_add, Nat.mul_one]
      have hend : 2 ^ h * (2 * i + 1 + 1) = 2 ^ h * (2 * i) + 2 ^ h + 2 ^ h := by
        rw [Nat.mul_add, Nat.mul_one, hmid]
      rw [node, node, ih fun j hj hj' => heq j (by omega) (by omega),
        ih fun j hj hj' => heq j (by omega) (by omega)]

/-- A row read from a later place on. -/
theorem node_shift (f : Nat → α) : ∀ h i k,
    node c f h (i + k) = node c (fun j => f (j + 2 ^ h * k)) h i := by
  intro h
  induction h with
  | zero =>
      intro i k
      rw [node, node, Nat.pow_zero, Nat.one_mul]
  | succ h ih =>
      intro i k
      have hleft : 2 * (i + k) = 2 * i + 2 * k := Nat.mul_add 2 i k
      have hright : 2 * (i + k) + 1 = 2 * i + 1 + 2 * k := by omega
      have hwidth : 2 ^ (h + 1) * k = 2 ^ h * (2 * k) := by rw [Nat.pow_succ, Nat.mul_assoc]
      rw [node, node, hright, hleft, ih, ih, hwidth]

/-! ## Equal leaves -/

/-- The node of height `h` over leaves that are all `z`. -/
def uniform (z : α) : (h : Nat) → α
  | 0 => z
  | h + 1 => c (uniform z h) (uniform z h)

theorem node_uniform (z : α) : ∀ h i, node c (fun _ => z) h i = uniform c z h := by
  intro h
  induction h with
  | zero =>
      intro i
      rfl
  | succ h ih =>
      intro i
      rw [node, ih, ih, uniform]

/-! ## A finite row that goes on with one leaf -/

/-- The leaves `cs`, then `z` for ever. -/
def padded (cs : List α) (z : α) (i : Nat) : α := cs.getD i z

theorem padded_of_lt {cs : List α} {i : Nat} (z : α) (hi : i < cs.length) :
    padded cs z i = cs[i] :=
  List.getD_eq_getElem cs z hi

theorem padded_of_le {cs : List α} {i : Nat} (z : α) (hi : cs.length ≤ i) :
    padded cs z i = z :=
  List.getD_eq_default cs z hi

/-- The leaves in front of the row above: half as many, rounded up. -/
def halved (cs : List α) (z : α) : List α :=
  (List.range ((cs.length + 1) / 2)).map (rowAbove c (padded cs z))

@[simp] theorem length_halved (cs : List α) (z : α) :
    (halved c cs z).length = (cs.length + 1) / 2 := by
  rw [halved, List.length_map, List.length_range]

/-- The row above a padded row is padded too. -/
theorem rowAbove_padded (cs : List α) (z : α) :
    rowAbove c (padded cs z) = padded (halved c cs z) (c z z) := by
  funext i
  have hlen := length_halved c cs z
  by_cases hi : i < (halved c cs z).length
  · rw [padded_of_lt _ hi]
    simp only [halved, List.getElem_map, List.getElem_range]
  · rw [padded_of_le _ (Nat.le_of_not_lt hi), rowAbove, padded_of_le z (by omega),
      padded_of_le z (by omega)]

/-- Climbing one row of a padded tree. -/
theorem node_padded_succ (cs : List α) (z : α) (h i : Nat) :
    node c (padded cs z) (h + 1) i = node c (padded (halved c cs z) (c z z)) h i := by
  rw [← node_rowAbove, rowAbove_padded]

theorem halved_singleton (x z : α) : halved c [x] z = [c x z] := by
  simp [halved, rowAbove, padded]

theorem padded_nil (z : α) : padded [] z = fun _ => z := rfl

end HazmatSha256.Foundation
