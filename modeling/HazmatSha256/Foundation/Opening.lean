/-
  Foundation/Opening.lean --- what the value of a tree says about its parts.

  The value of a tree is combined from pairs, one at every inner node.  Two trees
  with the same value have the same value wherever both have a subtree, unless two
  different pairs, one of each tree, combine to the same.  An opening climbs from a
  subtree to the root with the values next to the path; it arrives at the value of
  the tree if it begins with the subtree's value and uses the tree's own values on
  the way, and otherwise only if two different pairs combine to the same.
-/
import HazmatSha256.Foundation.Shape

set_option autoImplicit false

namespace HazmatSha256.Foundation

universe u

namespace Shape

variable {α : Type u} {c : α → α → α}

/-! ## Pairs -/

/-- The two values at every inner node. -/
def pairs (c : α → α → α) : Shape α → List (α × α)
  | leaf _ => []
  | pair l r => (l.value c, r.value c) :: (l.pairs c ++ r.pairs c)

theorem pairs_sub {t s : Shape α} {p : List Bool} (h : t.sub p = some s) :
    s.pairs c ⊆ t.pairs c := by
  induction p generalizing t with
  | nil =>
      rw [sub_nil] at h
      cases h
      exact List.Subset.refl _
  | cons d p ih =>
      cases t with
      | leaf a => cases h
      | pair l r =>
          cases d with
          | false =>
              intro q hq
              exact List.mem_cons_of_mem _ (List.mem_append_left _ (ih h hq))
          | true =>
              intro q hq
              exact List.mem_cons_of_mem _ (List.mem_append_right _ (ih h hq))

/-- Two different pairs combine to the same. -/
def Clash (c : α → α → α) (us vs : List (α × α)) : Prop :=
  ∃ u ∈ us, ∃ v ∈ vs, u ≠ v ∧ c u.1 u.2 = c v.1 v.2

theorem Clash.mono {us vs us' vs' : List (α × α)} (h : Clash c us vs) (hu : us ⊆ us')
    (hv : vs ⊆ vs') : Clash c us' vs' := by
  obtain ⟨u, hmem, v, hmem', hne, heq⟩ := h
  exact ⟨u, hu hmem, v, hv hmem', hne, heq⟩

/-- Without a clash, pairs that combine to the same are the same. -/
theorem eq_of_free {us vs : List (α × α)} (free : ¬ Clash c us vs) {a b a' b' : α}
    (hu : (a, b) ∈ us) (hv : (a', b') ∈ vs) (h : c a b = c a' b') : a = a' ∧ b = b' := by
  by_contra hne
  refine free ⟨_, hu, _, hv, fun heq => hne ?_, h⟩
  cases heq
  exact ⟨rfl, rfl⟩

theorem free_left {us vs us' vs' : List (α × α)} (free : ¬ Clash c (us ++ us') (vs ++ vs')) :
    ¬ Clash c us vs := fun clash =>
  free (clash.mono (List.subset_append_left _ _) (List.subset_append_left _ _))

theorem free_right {us vs us' vs' : List (α × α)} (free : ¬ Clash c (us ++ us') (vs ++ vs')) :
    ¬ Clash c us' vs' := fun clash =>
  free (clash.mono (List.subset_append_right _ _) (List.subset_append_right _ _))

theorem free_tail {us vs : List (α × α)} {u v : α × α} (free : ¬ Clash c (u :: us) (v :: vs)) :
    ¬ Clash c us vs := fun clash =>
  free (clash.mono (List.subset_cons_self _ _) (List.subset_cons_self _ _))

/-- Pairs with one value have the same two sides. -/
theorem sides_eq {l r l' r' : Shape α}
    (free : ¬ Clash c ((pair l r).pairs c) ((pair l' r').pairs c))
    (h : (pair l r).value c = (pair l' r').value c) :
    l.value c = l'.value c ∧ r.value c = r'.value c :=
  eq_of_free free List.mem_cons_self List.mem_cons_self h

/-- Trees with one value have one value wherever both have a subtree. -/
theorem value_sub_eq {t t' s s' : Shape α} {p : List Bool}
    (free : ¬ Clash c (t.pairs c) (t'.pairs c)) (h : t.value c = t'.value c)
    (hs : t.sub p = some s) (hs' : t'.sub p = some s') : s.value c = s'.value c := by
  induction p generalizing t t' with
  | nil =>
      rw [sub_nil] at hs hs'
      cases hs
      cases hs'
      exact h
  | cons d p ih =>
      cases t with
      | leaf a => cases hs
      | pair l r =>
          cases t' with
          | leaf a => cases hs'
          | pair l' r' =>
              obtain ⟨hl, hr⟩ := sides_eq free h
              cases d with
              | false => exact ih (free_left (free_tail free)) hl hs hs'
              | true => exact ih (free_right (free_tail free)) hr hs hs'

/-! ## Openings -/

/-- The values next to a path, from the root down. -/
def siblings (c : α → α → α) : Shape α → List Bool → List α
  | pair l r, false :: p => r.value c :: l.siblings c p
  | pair l r, true :: p => l.value c :: r.siblings c p
  | leaf _, _ => []
  | pair _ _, [] => []

@[simp] theorem siblings_nil (t : Shape α) : t.siblings c [] = [] := by
  cases t <;> rfl

/-- A value and the one next to it, on the side where it stands. -/
def beside (d : Bool) (sibling v : α) : α × α := if d then (sibling, v) else (v, sibling)

/-- From the bottom of a path to its top: the sides of the path and the values next to it, the
topmost first. -/
def climb (c : α → α → α) (v : α) : List (Bool × α) → α
  | [] => v
  | (d, s) :: steps =>
      let two := beside d s (climb c v steps)
      c two.1 two.2

/-- The pairs that are combined on the way. -/
def climbed (c : α → α → α) (v : α) : List (Bool × α) → List (α × α)
  | [] => []
  | (d, s) :: steps => beside d s (climb c v steps) :: climbed c v steps

theorem length_siblings {t s : Shape α} {p : List Bool} (h : t.sub p = some s) :
    (t.siblings c p).length = p.length := by
  induction p generalizing t with
  | nil => rw [siblings_nil, List.length_nil, List.length_nil]
  | cons d p ih =>
      cases t with
      | leaf a => cases h
      | pair l r => cases d <;> exact congrArg Nat.succ (ih h)

theorem siblings_append {t s : Shape α} {p : List Bool} (h : t.sub p = some s) (q : List Bool) :
    t.siblings c (p ++ q) = t.siblings c p ++ s.siblings c q := by
  induction p generalizing t with
  | nil =>
      rw [sub_nil] at h
      cases h
      rw [siblings_nil, List.nil_append, List.nil_append]
  | cons d p ih =>
      cases t with
      | leaf a => cases h
      | pair l r => cases d <;> exact congrArg (List.cons _) (ih h)

/-- In a perfect tree the values next to the way to a subtree are those of other nodes. -/
theorem siblings_node {f : Nat → Shape α} {P : α → Prop}
    (hf : ∀ h i, P (node c (fun k => (f k).value c) h i)) : ∀ h i k,
    ∀ a ∈ (node pair f h i).siblings c (steps h k), P a := by
  intro h
  induction h with
  | zero =>
      intro i k a ha
      rw [steps, siblings_nil] at ha
      cases ha
  | succ h ih =>
      intro i k a ha
      rw [node, steps] at ha
      cases hbit : k.testBit h with
      | false =>
          rw [hbit, siblings, value_node] at ha
          rcases List.mem_cons.mp ha with rfl | ha
          · exact hf h _
          · exact ih _ k a ha
      | true =>
          rw [hbit, siblings, value_node] at ha
          rcases List.mem_cons.mp ha with rfl | ha
          · exact hf h _
          · exact ih _ k a ha

/-- An opening with the tree's own values arrives at the value of the tree. -/
theorem climb_siblings {t s : Shape α} {p : List Bool} (h : t.sub p = some s) :
    climb c (s.value c) (p.zip (t.siblings c p)) = t.value c := by
  induction p generalizing t with
  | nil =>
      rw [sub_nil] at h
      cases h
      rfl
  | cons d p ih =>
      cases t with
      | leaf a => cases h
      | pair l r =>
          cases d with
          | false => exact congrArg (fun v => c v (r.value c)) (ih h)
          | true => exact congrArg (c (l.value c)) (ih h)

/-- An opening that arrives at the value of the tree begins with the subtree's value and uses
the tree's own values, where its pairs do not clash with those of the tree. -/
theorem eq_of_climb {t s : Shape α} {p : List Bool} {v : α} {sibs : List α}
    (hs : t.sub p = some s) (hlength : sibs.length = p.length)
    (free : ¬ Clash c (climbed c v (p.zip sibs)) (t.pairs c))
    (h : climb c v (p.zip sibs) = t.value c) : v = s.value c ∧ sibs = t.siblings c p := by
  induction p generalizing t sibs with
  | nil =>
      rw [sub_nil] at hs
      cases hs
      obtain rfl : sibs = [] := List.length_eq_zero_iff.mp hlength
      exact ⟨h, (siblings_nil s).symm⟩
  | cons d p ih =>
      cases t with
      | leaf a => cases hs
      | pair l r =>
          cases sibs with
          | nil => cases hlength
          | cons sib sibs =>
              have hrest := Nat.succ.inj hlength
              cases d with
              | false =>
                  obtain ⟨hl, hr⟩ := eq_of_free free List.mem_cons_self List.mem_cons_self h
                  obtain ⟨hv, hsibs⟩ := ih hs hrest (fun clash => free (clash.mono
                    (List.subset_cons_self _ _) (pairs_sub (p := [false]) (sub_nil l)))) hl
                  refine ⟨hv, ?_⟩
                  rw [siblings, hr, hsibs]
              | true =>
                  obtain ⟨hl, hr⟩ := eq_of_free free List.mem_cons_self List.mem_cons_self h
                  obtain ⟨hv, hsibs⟩ := ih hs hrest (fun clash => free (clash.mono
                    (List.subset_cons_self _ _) (pairs_sub (p := [true]) (sub_nil r)))) hr
                  refine ⟨hv, ?_⟩
                  rw [siblings, hl, hsibs]

end Shape

end HazmatSha256.Foundation
