/-
  `Foundation.Dealing`: dealing the members of a list to hands.

  A list is put into another order by a chain of exchanges, each of which is its own inverse,
  and then cut into consecutive slices, of which every hand gets one.  Nothing is dealt twice
  and nothing is left over.
-/
import Mathlib.Data.List.Nodup
import Mathlib.Data.List.Perm.Basic
import Mathlib.Tactic.Ring
set_option autoImplicit false

namespace HazmatSha256.Foundation

/-! ## Exchanges -/

section Exchanges

variable {n p x : Nat}

/-- The place across a pivot, on a circle of `n` places. -/
def mirror (n p x : Nat) : Nat := (p + n - x) % n

/-- Two places across from each other are exchanged if `takes` says so of the higher one. -/
def swapOrNot (takes : Nat → Bool) (n p x : Nat) : Nat :=
  if takes (max x (mirror n p x)) then mirror n p x else x

theorem mirror_lt (hn : 0 < n) : mirror n p x < n := Nat.mod_lt _ hn

theorem mirror_mirror (hp : p < n) (hx : x < n) : mirror n p (mirror n p x) = x := by
  unfold mirror
  rcases Nat.lt_or_ge p x with hlt | hle
  · have hfar : (p + n - x) % n = p + n - x := Nat.mod_eq_of_lt (by omega)
    rw [hfar, show p + n - (p + n - x) = x by omega, Nat.mod_eq_of_lt hx]
  · have hfar : (p + n - x) % n = p - x := by
      rw [show p + n - x = p - x + n by omega, Nat.add_mod_right, Nat.mod_eq_of_lt (by omega)]
    rw [hfar, show p + n - (p - x) = x + n by omega, Nat.add_mod_right, Nat.mod_eq_of_lt hx]

variable (takes : Nat → Bool)

theorem swapOrNot_lt (hx : x < n) : swapOrNot takes n p x < n := by
  unfold swapOrNot
  split
  · exact mirror_lt (Nat.zero_lt_of_lt hx)
  · exact hx

/-- The two places are asked about as one, so a second exchange undoes the first. -/
theorem swapOrNot_swapOrNot (hp : p < n) (hx : x < n) :
    swapOrNot takes n p (swapOrNot takes n p x) = x := by
  by_cases h : takes (max x (mirror n p x)) = true
  · have hfirst : swapOrNot takes n p x = mirror n p x := if_pos h
    have hback := mirror_mirror hp hx
    rw [hfirst, swapOrNot, hback, Nat.max_comm, if_pos h]
  · have hfirst : swapOrNot takes n p x = x := if_neg h
    rw [hfirst, hfirst]

end Exchanges

/-- Exchanges keep the places of a list what they are. -/
theorem perm_map_of_involution {n : Nat} {f : Nat → Nat} (hlt : ∀ x < n, f x < n)
    (hinv : ∀ x < n, f (f x) = x) {xs : List Nat} (h : xs.Perm (List.range n)) :
    (xs.map f).Perm (List.range n) := by
  have hinj : ∀ x ∈ List.range n, ∀ y ∈ List.range n, f x = f y → x = y := by
    intro x hx y hy hxy
    rw [← hinv x (List.mem_range.mp hx), hxy, hinv y (List.mem_range.mp hy)]
  have hrange : ((List.range n).map f).Perm (List.range n) := by
    refine (List.perm_ext_iff_of_nodup (List.Nodup.map_on hinj List.nodup_range)
      List.nodup_range).mpr fun y => ?_
    rw [List.mem_map, List.mem_range]
    constructor
    · intro hy
      obtain ⟨x, hx, rfl⟩ := hy
      exact hlt x (List.mem_range.mp hx)
    · intro hy
      exact ⟨f y, List.mem_range.mpr (hlt y hy), hinv y hy⟩
  exact (h.map f).trans hrange

/-! ## Slices -/

section Slices

variable {α : Type}

/-- Slices between consecutive bounds, one behind another. -/
theorem flatMap_slices (F : Nat → α) (bound : Nat → Nat) (hzero : bound 0 = 0)
    (hmono : ∀ k, bound k ≤ bound (k + 1)) : ∀ c, (List.range c).flatMap (fun k =>
      (List.range (bound (k + 1) - bound k)).map fun j => F (bound k + j)) =
        (List.range (bound c)).map F := by
  intro c
  induction c with
  | zero => rw [hzero]; rfl
  | succ c ih =>
      have hsplit : bound (c + 1) = bound c + (bound (c + 1) - bound c) := by
        have := hmono c
        omega
      rw [List.range_succ, List.flatMap_append, ih, hsplit, List.range_add, List.map_append,
        List.map_map]
      simp [Function.comp_def]

/-- Rounds of `b` hands each are as many hands in a row. -/
theorem flatMap_rounds (F : Nat → List α) (b : Nat) : ∀ a, (List.range a).flatMap (fun i =>
    (List.range b).flatMap fun j => F (i * b + j)) = (List.range (a * b)).flatMap F := by
  intro a
  induction a with
  | zero => rw [Nat.zero_mul]; rfl
  | succ a ih =>
      rw [List.range_succ, List.flatMap_append, ih, Nat.succ_mul, List.range_add,
        List.flatMap_append, List.flatMap_map]
      simp

/-- The bounds of `c` slices of one length, give or take one. -/
theorem slice_bounds (len : Nat) {c : Nat} (hc : 0 < c) (k : Nat) :
    len * k / c ≤ len * (k + 1) / c ∧ len / c ≤ len * (k + 1) / c - len * k / c ∧
      len * (k + 1) / c - len * k / c ≤ len / c + 1 := by
  have hsum : len * (k + 1) = len * k + len := Nat.mul_succ len k
  have hdiv := Nat.div_add_mod (len * k) c
  have hlen := Nat.div_add_mod len c
  have hlow : len * k / c + len / c ≤ len * (k + 1) / c := by
    rw [Nat.le_div_iff_mul_le hc, hsum, Nat.add_mul]
    exact Nat.add_le_add (Nat.div_mul_le_self _ _) (Nat.div_mul_le_self _ _)
  have hhigh : len * (k + 1) / c < len * k / c + len / c + 2 := by
    rw [Nat.div_lt_iff_lt_mul hc, hsum]
    have hmod := Nat.mod_lt (len * k) hc
    have hmod' := Nat.mod_lt len hc
    have hexpand : (len * k / c + len / c + 2) * c =
        c * (len * k / c) + c * (len / c) + 2 * c := by ring
    omega
  refine ⟨Nat.le_trans (Nat.le_add_right _ _) hlow, ?_, ?_⟩
  · exact Nat.le_sub_of_add_le (by rwa [Nat.add_comm])
  · exact Nat.sub_le_iff_le_add.mpr (by omega)

end Slices

end HazmatSha256.Foundation
