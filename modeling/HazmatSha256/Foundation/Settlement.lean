/-
  Foundation/Settlement.lean --- books in which every issued item is settled
  once, in any order.

  A book lists what has been issued, what has been settled and what is pending.
  One step issues a fresh item or settles any pending one, so the order of
  settlement is left open.  The single theorem behind every "exactly once" of
  this development is that a reachable book is balanced: what is settled and
  what is pending together are a permutation of what was issued, without
  duplicates.

  The second half is about pending items that are kept in a table, as the
  partial function of a pointer array.
-/
import Mathlib.Data.List.Nodup
import Mathlib.Data.List.FinRange
import Mathlib.Logic.Relation
import Mathlib.Logic.Function.Basic

set_option autoImplicit false

namespace HazmatSha256.Foundation

universe u v

/-- Items issued, items settled, and items issued but not settled. -/
structure Book (ι : Type u) where
  issued : List ι
  settled : List ι
  pending : List ι

namespace Book

variable {ι : Type u}

/-- Nothing has happened. -/
def empty : Book ι := ⟨[], [], []⟩

/-- One transaction.  Which pending item is settled is not determined. -/
inductive Step : Book ι → Book ι → Prop
  | issue {b : Book ι} {a : ι} {pending' : List ι} (fresh : a ∉ b.issued)
      (opens : pending'.Perm (a :: b.pending)) :
      Step b ⟨a :: b.issued, b.settled, pending'⟩
  | settle {b : Book ι} {a : ι} {pending' : List ι}
      (closes : b.pending.Perm (a :: pending')) :
      Step b ⟨b.issued, a :: b.settled, pending'⟩

/-- Some run of transactions leads from the empty book to `b`. -/
def Reachable (b : Book ι) : Prop := Relation.ReflTransGen Step empty b

/-- Settled and pending items together are the issued ones, each once. -/
structure Balanced (b : Book ι) : Prop where
  nodup : b.issued.Nodup
  perm : (b.settled ++ b.pending).Perm b.issued

theorem Balanced.step {b b' : Book ι} (h : Balanced b) (hs : Step b b') : Balanced b' := by
  cases hs with
  | issue fresh opens =>
      refine ⟨List.nodup_cons.mpr ⟨fresh, h.nodup⟩, ?_⟩
      have hmove := (opens.append_left b.settled).trans List.perm_middle
      exact hmove.trans (h.perm.cons _)
  | settle closes =>
      refine ⟨h.nodup, ?_⟩
      have hmove := (closes.append_left b.settled).trans List.perm_middle
      exact hmove.symm.trans h.perm

theorem Reachable.balanced {b : Book ι} (h : Reachable b) : Balanced b := by
  induction h with
  | refl => exact ⟨List.nodup_nil, List.Perm.refl _⟩
  | tail _ hs ih => exact ih.step hs

theorem reachable_empty : Reachable (empty : Book ι) := Relation.ReflTransGen.refl

theorem Reachable.issue {issued settled pending pending' : List ι} {a : ι}
    (h : Reachable ⟨issued, settled, pending⟩) (fresh : a ∉ issued)
    (opens : pending'.Perm (a :: pending)) : Reachable ⟨a :: issued, settled, pending'⟩ :=
  Relation.ReflTransGen.tail h (Step.issue (b := ⟨issued, settled, pending⟩) fresh opens)

theorem Reachable.settle {issued settled pending pending' : List ι} {a : ι}
    (h : Reachable ⟨issued, settled, pending⟩) (closes : pending.Perm (a :: pending')) :
    Reachable ⟨issued, a :: settled, pending'⟩ :=
  Relation.ReflTransGen.tail h (Step.settle (b := ⟨issued, settled, pending⟩) closes)

/-! ## What a balanced book says -/

variable {b : Book ι}

theorem Balanced.settled_nodup (h : Balanced b) : b.settled.Nodup :=
  (List.nodup_append.mp (h.perm.nodup_iff.mpr h.nodup)).1

theorem Balanced.pending_nodup (h : Balanced b) : b.pending.Nodup :=
  (List.nodup_append.mp (h.perm.nodup_iff.mpr h.nodup)).2.1

theorem Balanced.mem_issued_of_settled (h : Balanced b) {a : ι} (ha : a ∈ b.settled) :
    a ∈ b.issued :=
  h.perm.mem_iff.mp (List.mem_append_left _ ha)

theorem Balanced.mem_issued_of_pending (h : Balanced b) {a : ι} (ha : a ∈ b.pending) :
    a ∈ b.issued :=
  h.perm.mem_iff.mp (List.mem_append_right _ ha)

/-- A pending item has not been settled yet. -/
theorem Balanced.not_settled (h : Balanced b) {a : ι} (ha : a ∈ b.pending) :
    a ∉ b.settled := by
  intro hs
  exact (List.nodup_append.mp (h.perm.nodup_iff.mpr h.nodup)).2.2 a hs a ha rfl

/-- Once nothing is pending, every issued item has been settled exactly once. -/
theorem Balanced.count_settled [DecidableEq ι] (h : Balanced b) (hdone : b.pending = [])
    {a : ι} (ha : a ∈ b.issued) : b.settled.count a = 1 := by
  have hperm : b.settled.Perm b.issued := by simpa [hdone] using h.perm
  rw [hperm.count_eq a]
  exact List.count_eq_one_of_mem h.nodup ha

end Book

/-! ## Pending items found by their key -/

section Keyed

variable {α : Type u} {κ : Type v} [DecidableEq κ]

/-- Striking out the one entry with a given key. -/
theorem perm_cons_filter_key_ne (key : α → κ) {l : List α} (hnodup : (l.map key).Nodup)
    {a : α} (ha : a ∈ l) : l.Perm (a :: l.filter fun x => key x ≠ key a) := by
  induction l with
  | nil => cases ha
  | cons x rest ih =>
      rw [List.map_cons, List.nodup_cons] at hnodup
      rcases List.mem_cons.mp ha with rfl | hrest
      · have hkeep : rest.filter (fun y => key y ≠ key a) = rest := by
          refine List.filter_eq_self.mpr fun y hy => ?_
          have hne : key y ≠ key a := fun heq => hnodup.1 (heq ▸ List.mem_map_of_mem hy)
          simpa using hne
        rw [List.filter_cons_of_neg (by simp), hkeep]
      · have hne : key x ≠ key a := fun heq => hnodup.1 (heq ▸ List.mem_map_of_mem hrest)
        rw [List.filter_cons_of_pos (by simpa using hne)]
        exact ((ih hnodup.2 hrest).cons x).trans (List.Perm.swap a x _)

end Keyed

/-! ## Pending items kept in a table -/

section Table

variable {n : Nat} {β : Type v}

/-- The occupied entries of a table, in index order. -/
def entries (f : Fin n → Option β) : List β := (List.finRange n).filterMap f

theorem mem_entries {f : Fin n → Option β} {b : β} : b ∈ entries f ↔ ∃ j, f j = some b := by
  simp [entries, List.mem_filterMap]

theorem entries_eq_nil {f : Fin n → Option β} (h : ∀ j, f j = none) : entries f = [] := by
  simp [entries, h]

/-- Filling an empty entry adds one item. -/
theorem entries_fill {f : Fin n → Option β} {j : Fin n} (hj : f j = none) (b : β) :
    (entries (Function.update f j (some b))).Perm (b :: entries f) := by
  have hsplit : (List.finRange n).Perm (j :: (List.finRange n).erase j) :=
    List.perm_cons_erase (List.mem_finRange j)
  have hrest : ((List.finRange n).erase j).filterMap (Function.update f j (some b)) =
      ((List.finRange n).erase j).filterMap f := by
    refine List.filterMap_congr fun i hi => ?_
    have hne : i ≠ j := fun heq =>
      (List.nodup_finRange n).not_mem_erase (heq ▸ hi)
    rw [Function.update_of_ne hne]
  have hnew := hsplit.filterMap (Function.update f j (some b))
  have hold := hsplit.filterMap f
  rw [List.filterMap_cons_some (Function.update_self j (some b) f), hrest] at hnew
  rw [List.filterMap_cons_none hj] at hold
  exact hnew.trans (hold.symm.cons b)

/-- Clearing an occupied entry takes its item out. -/
theorem entries_clear {f : Fin n → Option β} {j : Fin n} {b : β} (hj : f j = some b) :
    (entries f).Perm (b :: entries (Function.update f j none)) := by
  have hback : Function.update (Function.update f j none) j (some b) = f := by
    rw [Function.update_idem, ← hj, Function.update_eq_self]
  have hfill := entries_fill (f := Function.update f j none) (Function.update_self j none f) b
  rwa [hback] at hfill

/-- Without duplicates an item sits at one index only. -/
theorem index_unique {f : Fin n → Option β} (hnodup : (entries f).Nodup) {i j : Fin n} {b : β}
    (hi : f i = some b) (hj : f j = some b) : i = j := by
  by_contra hne
  have hmem : b ∈ entries (Function.update f i none) :=
    mem_entries.mpr ⟨j, by rw [Function.update_of_ne (Ne.symm hne), hj]⟩
  have hcons := (entries_clear hi).nodup_iff.mp hnodup
  exact (List.nodup_cons.mp hcons).1 hmem

end Table

end HazmatSha256.Foundation
