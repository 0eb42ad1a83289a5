/-
  Foundation/Shape.lean --- finite binary trees and the paths through them.

  A path goes down from the root, `false` to the left and `true` to the right.
  A tree is what stands at the end of each path, so two trees are compared path
  by path; two versions of a tree that were changed in a few places agree off
  the paths to these places, and that is all a later repair has to know.
-/
import HazmatSha256.Foundation.Tree
import Mathlib.Data.List.Induction
import Mathlib.Tactic.Ring

set_option autoImplicit false

namespace HazmatSha256.Foundation

universe u

inductive Shape (α : Type u) where
  | leaf (a : α)
  | pair (left right : Shape α)
  deriving DecidableEq

namespace Shape

variable {α : Type u}

/-! ## Values -/

/-- What the root stands for, with `c` at the pairs. -/
def value (c : α → α → α) : Shape α → α
  | leaf a => a
  | pair l r => c (l.value c) (r.value c)

/-- Every leaf is a `P`. -/
def Leaves (P : α → Prop) : Shape α → Prop
  | leaf a => P a
  | pair l r => l.Leaves P ∧ r.Leaves P

theorem value_node (c : α → α → α) (f : Nat → Shape α) : ∀ h i,
    (node pair f h i).value c = node c (fun k => (f k).value c) h i := by
  intro h
  induction h with
  | zero =>
      intro i
      rfl
  | succ h ih =>
      intro i
      rw [node, node, value, ih, ih]

theorem leaves_node {P : α → Prop} {f : Nat → Shape α} (hf : ∀ k, (f k).Leaves P) : ∀ h i,
    (node pair f h i).Leaves P := by
  intro h
  induction h with
  | zero =>
      intro i
      exact hf i
  | succ h ih =>
      intro i
      exact ⟨ih _, ih _⟩

/-! ## Paths -/

/-- The subtree a path leads to. -/
def sub : Shape α → List Bool → Option (Shape α)
  | t, [] => some t
  | leaf _, _ :: _ => none
  | pair l _, false :: p => l.sub p
  | pair _ r, true :: p => r.sub p

/-- What stands at the end of a path: nothing, a pair (`some none`), or a leaf. -/
def label : Shape α → List Bool → Option (Option α)
  | leaf a, [] => some (some a)
  | leaf _, _ :: _ => none
  | pair _ _, [] => some none
  | pair l _, false :: p => l.label p
  | pair _ r, true :: p => r.label p

@[simp] theorem sub_nil (t : Shape α) : t.sub [] = some t := by
  cases t <;> rfl

theorem sub_append : ∀ (t : Shape α) (p q : List Bool),
    t.sub (p ++ q) = (t.sub p).bind fun s => s.sub q := by
  intro t p
  induction p generalizing t with
  | nil =>
      intro q
      rw [List.nil_append, sub_nil, Option.bind_some]
  | cons b p ih =>
      intro q
      cases t with
      | leaf a => rfl
      | pair l r =>
          cases b with
          | false => exact ih l q
          | true => exact ih r q

/-- Trees with the same labels are the same. -/
theorem ext_label : ∀ {a b : Shape α}, (∀ p, a.label p = b.label p) → a = b := by
  intro a
  induction a with
  | leaf x =>
      intro b h
      cases b with
      | leaf y =>
          have hroot : some (some x) = some (some y) := h []
          rw [Option.some.inj (Option.some.inj hroot)]
      | pair l r => exact nomatch h []
  | pair l r ihl ihr =>
      intro b h
      cases b with
      | leaf y => exact nomatch h []
      | pair l' r' =>
          rw [ihl fun p => h (false :: p), ihr fun p => h (true :: p)]

/-! ## Agreement -/

/-- The two trees differ at most at and under the paths in `ps`. -/
def AgreeOff (ps : List Bool → Prop) (a b : Shape α) : Prop :=
  ∀ p, (∀ q, ps q → ¬ q <+: p) → a.label p = b.label p

namespace AgreeOff

variable {ps qs : List Bool → Prop} {a b c : Shape α}

theorem refl (ps : List Bool → Prop) (a : Shape α) : AgreeOff ps a a :=
  fun _ _ => rfl

/-- Paths above the others do as well. -/
theorem cover (h : AgreeOff ps a b) (hps : ∀ p, ps p → ∃ q, qs q ∧ q <+: p) :
    AgreeOff qs a b := by
  intro p hp
  refine h p fun q hq hpre => ?_
  obtain ⟨r, hr, hrq⟩ := hps q hq
  exact hp r hr (hrq.trans hpre)

theorem mono (h : AgreeOff ps a b) (hps : ∀ p, ps p → qs p) : AgreeOff qs a b :=
  h.cover fun p hp => ⟨p, hps p hp, List.prefix_refl p⟩

theorem trans (hab : AgreeOff ps a b) (hbc : AgreeOff qs b c) :
    AgreeOff (fun p => ps p ∨ qs p) a c := by
  intro p hp
  rw [hab p fun q hq => hp q (.inl hq), hbc p fun q hq => hp q (.inr hq)]

theorem of_nil (h : ps []) : AgreeOff ps a b :=
  fun _ hp => absurd List.nil_prefix (hp [] h)

theorem eq_of_empty (h : AgreeOff ps a b) (hps : ∀ p, ¬ ps p) : a = b :=
  ext_label fun p => h p fun q hq => absurd hq (hps q)

theorem not_prefix_cons {d : Bool} {p : List Bool} (hnil : ¬ ps [])
    (hp : ∀ q, ps (d :: q) → ¬ q <+: p) : ∀ q, ps q → ¬ q <+: d :: p := by
  intro q hq hpre
  cases q with
  | nil => exact hnil hq
  | cons e q =>
      obtain ⟨rfl, hrest⟩ := List.cons_prefix_cons.mp hpre
      exact hp q hq hrest

/-- Where the root is not replaced, a leaf agrees with itself only. -/
theorem of_leaf {x : α} (h : AgreeOff ps (leaf x) b) (hnil : ¬ ps []) : b = leaf x := by
  have hroot := h [] fun q hq hpre => hnil (List.prefix_nil.mp hpre ▸ hq)
  cases b with
  | leaf y => rw [Option.some.inj (Option.some.inj hroot)]
  | pair l r => exact nomatch hroot

/-- Where the root is not replaced, a pair agrees with a pair, side by side. -/
theorem of_pair {l r : Shape α} (h : AgreeOff ps (pair l r) b) (hnil : ¬ ps []) :
    ∃ l' r', b = pair l' r' ∧ AgreeOff (fun p => ps (false :: p)) l l' ∧
      AgreeOff (fun p => ps (true :: p)) r r' := by
  have hroot := h [] fun q hq hpre => hnil (List.prefix_nil.mp hpre ▸ hq)
  cases b with
  | leaf y => exact nomatch hroot
  | pair l' r' =>
      refine ⟨l', r', rfl, ?_, ?_⟩
      · intro p hp
        exact h (false :: p) (not_prefix_cons hnil hp)
      · intro p hp
        exact h (true :: p) (not_prefix_cons hnil hp)

/-- Agreement of the parts. -/
theorem pair {l r l' r' : Shape α} (hl : AgreeOff (fun p => ps (false :: p)) l l')
    (hr : AgreeOff (fun p => ps (true :: p)) r r') :
    AgreeOff ps (Shape.pair l r) (Shape.pair l' r') := by
  intro p hp
  cases p with
  | nil => rfl
  | cons d p =>
      have hsub : ∀ q, ps (d :: q) → ¬ q <+: p := fun q hq hpre =>
        hp (d :: q) hq (List.cons_prefix_cons.mpr ⟨rfl, hpre⟩)
      cases d with
      | false => exact hl p hsub
      | true => exact hr p hsub

end AgreeOff

/-! ## Perfect trees -/

/-- The way to subtree `k` of a perfect tree of height `h`: the low `h` bits of `k`, the
highest first. -/
def steps : (h k : Nat) → List Bool
  | 0, _ => []
  | h + 1, k => k.testBit h :: steps h k

/-- The bits of a number, one more. -/
theorem mod_two_pow_succ (k h : Nat) :
    k % 2 ^ (h + 1) = k % 2 ^ h + 2 ^ h * (k.testBit h).toNat := by
  rw [Nat.mod_pow_succ, Nat.toNat_testBit]

theorem sub_node (f : Nat → Shape α) : ∀ (h i k : Nat),
    (node Shape.pair f h i).sub (steps h k) = some (f (2 ^ h * i + k % 2 ^ h)) := by
  intro h
  induction h with
  | zero =>
      intro i k
      rw [Nat.pow_zero, Nat.one_mul, Nat.mod_one, Nat.add_zero]
      exact sub_nil _
  | succ h ih =>
      intro i k
      rw [node, steps, mod_two_pow_succ]
      cases k.testBit h with
      | false =>
          refine (ih (2 * i) k).trans ?_
          congr 2
          rw [Bool.toNat_false]
          ring
      | true =>
          refine (ih (2 * i + 1) k).trans ?_
          congr 2
          rw [Bool.toNat_true]
          ring

/-- The paths of `ps`, entered through `p`. -/
def under (p : List Bool) (ps : List Bool → Prop) (q : List Bool) : Prop :=
  ∃ r, ps r ∧ q = p ++ r

/-- Perfect trees with the same subtrees but one agree off the paths through that one. -/
theorem agreeOff_node {ps : List Bool → Prop} {f g : Nat → Shape α} : ∀ {h i k : Nat},
    (∀ j, j ≠ 2 ^ h * i + k % 2 ^ h → f j = g j) →
    AgreeOff ps (f (2 ^ h * i + k % 2 ^ h)) (g (2 ^ h * i + k % 2 ^ h)) →
    AgreeOff (under (steps h k) ps) (node Shape.pair f h i) (node Shape.pair g h i) := by
  intro h
  induction h with
  | zero =>
      intro i k _ hat
      rw [Nat.pow_zero, Nat.one_mul, Nat.mod_one, Nat.add_zero] at hat
      exact hat.mono fun p hp => ⟨p, hp, rfl⟩
  | succ h ih =>
      intro i k hne hat
      rw [node, node, steps]
      rw [mod_two_pow_succ] at hne hat
      have hpos : 0 < 2 ^ h := Nat.two_pow_pos h
      have hlow : k % 2 ^ h < 2 ^ h := Nat.mod_lt k hpos
      cases hbit : k.testBit h with
      | false =>
          have hidx : 2 ^ (h + 1) * i + (k % 2 ^ h + 2 ^ h * (k.testBit h).toNat) =
              2 ^ h * (2 * i) + k % 2 ^ h := by
            rw [hbit, Bool.toNat_false]
            ring
          rw [hidx] at hne hat
          refine AgreeOff.pair ((ih hne hat).mono ?_) ?_
          · rintro p ⟨r, hr, rfl⟩
            exact ⟨r, hr, rfl⟩
          · rw [node_congr Shape.pair (f := f) (g := g)]
            · exact AgreeOff.refl _ _
            · intro j hj _
              exact hne j (by rw [Nat.mul_add] at hj; omega)
      | true =>
          have hidx : 2 ^ (h + 1) * i + (k % 2 ^ h + 2 ^ h * (k.testBit h).toNat) =
              2 ^ h * (2 * i + 1) + k % 2 ^ h := by
            rw [hbit, Bool.toNat_true]
            ring
          rw [hidx] at hne hat
          refine AgreeOff.pair ?_ ((ih hne hat).mono ?_)
          · rw [node_congr Shape.pair (f := f) (g := g)]
            · exact AgreeOff.refl _ _
            · intro j _ hj
              exact hne j (by omega)
          · rintro p ⟨r, hr, rfl⟩
            exact ⟨r, hr, rfl⟩

/-! ## Grafts -/

/-- Put `s` at the end of a path; a path that leaves the tree changes nothing. -/
def graft : Shape α → List Bool → Shape α → Shape α
  | _, [], s => s
  | leaf a, _ :: _, _ => leaf a
  | pair l r, false :: p, s => pair (l.graft p s) r
  | pair l r, true :: p, s => pair l (r.graft p s)

@[simp] theorem graft_nil (t s : Shape α) : t.graft [] s = s := by
  cases t <;> rfl

/-- A node that is there can be replaced. -/
theorem sub_graft {t u s : Shape α} : ∀ {p : List Bool}, t.sub p = some u →
    (t.graft p s).sub p = some s := by
  intro p
  induction p generalizing t with
  | nil =>
      intro _
      rw [graft_nil, sub_nil]
  | cons d p ih =>
      intro h
      cases t with
      | leaf a => exact nomatch h
      | pair l r =>
          cases d with
          | false => exact ih (t := l) h
          | true => exact ih (t := r) h

section Writes

variable {β γ : Type u}

/-- The writes below one side, seen from there. -/
def enter (d : Bool) (us : List (List Bool × β)) : List (List Bool × β) :=
  us.filterMap fun u => match u.1 with
    | e :: p => if e = d then some (p, u.2) else none
    | [] => none

/-- The last write at the root. -/
def whole (us : List (List Bool × β)) : Option β :=
  us.foldl (fun acc u => match u.1 with
    | [] => some u.2
    | _ :: _ => acc) none

theorem enter_cons (d : Bool) (u : List Bool × β) (us : List (List Bool × β)) :
    enter d (u :: us) = (match u.1 with
      | e :: p => if e = d then [(p, u.2)] else []
      | [] => []) ++ enter d us := by
  obtain ⟨p, s⟩ := u
  cases p with
  | nil => rfl
  | cons e p =>
      simp only [enter, List.filterMap_cons]
      split <;> simp_all

@[simp] theorem mem_enter {d : Bool} {us : List (List Bool × β)} {p : List Bool} {s : β} :
    (p, s) ∈ enter d us ↔ (d :: p, s) ∈ us := by
  induction us with
  | nil => simp [enter]
  | cons u us ih =>
      obtain ⟨q, x⟩ := u
      rw [enter_cons, List.mem_append, ih, List.mem_cons]
      cases q with
      | nil => simp
      | cons e q =>
          by_cases he : e = d
          · subst he
            simp
          · simp [he, Ne.symm he]

theorem whole_concat (us : List (List Bool × β)) (u : List Bool × β) :
    whole (us ++ [u]) = match u.1 with
      | [] => some u.2
      | _ :: _ => whole us := by
  rw [whole, List.foldl_append]
  rfl

theorem whole_eq_none {us : List (List Bool × β)} : whole us = none ↔ ∀ s, ([], s) ∉ us := by
  induction us using List.reverseRecOn with
  | nil => simp [whole]
  | append_singleton us u ih =>
      obtain ⟨p, s⟩ := u
      rw [whole_concat]
      cases p with
      | nil => exact ⟨nofun, fun h => absurd (List.mem_append_right us List.mem_cons_self) (h s)⟩
      | cons e p => simp [ih]

theorem mem_of_whole {us : List (List Bool × β)} {s : β} (h : whole us = some s) :
    ([], s) ∈ us := by
  induction us using List.reverseRecOn with
  | nil => exact nomatch h
  | append_singleton us u ih =>
      obtain ⟨p, x⟩ := u
      rw [whole_concat] at h
      cases p with
      | nil =>
          obtain rfl : x = s := Option.some.inj h
          simp
      | cons e p => exact List.mem_append_left _ (ih h)

/-- One write a path. -/
def Functional (us : List (List Bool × β)) : Prop :=
  ∀ p s s', (p, s) ∈ us → (p, s') ∈ us → s = s'

theorem whole_congr {us vs : List (List Bool × β)} (hfun : Functional us)
    (hmem : ∀ u, u ∈ us ↔ u ∈ vs) : whole us = whole vs := by
  cases hus : whole us with
  | none =>
      refine (whole_eq_none.mpr fun s hs => ?_).symm
      exact whole_eq_none.mp hus s ((hmem _).mpr hs)
  | some s =>
      have hs := mem_of_whole hus
      cases hvs : whole vs with
      | none => exact absurd ((hmem _).mp hs) (whole_eq_none.mp hvs s)
      | some s' => rw [hfun [] s s' hs ((hmem _).mpr (mem_of_whole hvs))]

theorem whole_map (g : β → γ) (us : List (List Bool × β)) :
    whole (us.map fun u => (u.1, g u.2)) = (whole us).map g := by
  induction us using List.reverseRecOn with
  | nil => rfl
  | append_singleton us u ih =>
      rw [List.map_append, List.map_singleton, whole_concat, whole_concat, ih]
      cases u.1 with
      | nil => rfl
      | cons e p => rfl

theorem enter_map (g : β → γ) (d : Bool) (us : List (List Bool × β)) :
    enter d (us.map fun u => (u.1, g u.2)) = (enter d us).map fun u => (u.1, g u.2) := by
  induction us with
  | nil => rfl
  | cons u us ih =>
      rw [List.map_cons, enter_cons, enter_cons, ih, List.map_append]
      congr 1
      obtain ⟨p, x⟩ := u
      cases p with
      | nil => rfl
      | cons e p =>
          by_cases he : e = d
          · simp [he]
          · simp [he]

end Writes

/-- All writes at once; a write at a root makes those below it void. -/
def graftMany : Shape α → List (List Bool × Shape α) → Shape α
  | leaf a, us => (whole us).getD (leaf a)
  | pair l r, us =>
      (whole us).getD (pair (l.graftMany (enter false us)) (r.graftMany (enter true us)))

theorem graftMany_of_whole {t s : Shape α} {us : List (List Bool × Shape α)}
    (h : whole us = some s) : t.graftMany us = s := by
  cases t <;> rw [graftMany, h, Option.getD_some]

@[simp] theorem graftMany_nil (t : Shape α) : t.graftMany [] = t := by
  induction t with
  | leaf a => rfl
  | pair l r ihl ihr =>
      change pair (l.graftMany []) (r.graftMany []) = pair l r
      rw [ihl, ihr]

/-- The writes change nothing off their paths. -/
theorem agreeOff_graftMany (t : Shape α) (us : List (List Bool × Shape α)) :
    AgreeOff (fun p => ∃ s, (p, s) ∈ us) t (t.graftMany us) := by
  induction t generalizing us with
  | leaf a =>
      cases hwhole : whole us with
      | some s => exact AgreeOff.of_nil ⟨s, mem_of_whole hwhole⟩
      | none =>
          rw [graftMany, hwhole, Option.getD_none]
          exact AgreeOff.refl _ _
  | pair l r ihl ihr =>
      cases hwhole : whole us with
      | some s => exact AgreeOff.of_nil ⟨s, mem_of_whole hwhole⟩
      | none =>
          rw [graftMany, hwhole, Option.getD_none]
          refine AgreeOff.pair ((ihl _).mono ?_) ((ihr _).mono ?_)
          · rintro p ⟨s, hs⟩
            exact ⟨s, mem_enter.mp hs⟩
          · rintro p ⟨s, hs⟩
            exact ⟨s, mem_enter.mp hs⟩

/-- Where every path has one write, their order does not matter. -/
theorem graftMany_congr {t : Shape α} {us vs : List (List Bool × Shape α)}
    (hfun : Functional us) (hmem : ∀ u, u ∈ us ↔ u ∈ vs) : t.graftMany us = t.graftMany vs := by
  induction t generalizing us vs with
  | leaf a =>
      rw [graftMany, graftMany, whole_congr hfun hmem]
  | pair l r ihl ihr =>
      have henter : ∀ d, l.graftMany (enter d us) = l.graftMany (enter d vs) ∧
          r.graftMany (enter d us) = r.graftMany (enter d vs) := by
        intro d
        have hfun' : Functional (enter d us) := fun p s s' hs hs' =>
          hfun (d :: p) s s' (mem_enter.mp hs) (mem_enter.mp hs')
        have hmem' : ∀ u, u ∈ enter d us ↔ u ∈ enter d vs := by
          rintro ⟨p, s⟩
          rw [mem_enter, mem_enter, hmem]
        exact ⟨ihl hfun' hmem', ihr hfun' hmem'⟩
      rw [graftMany, graftMany, whole_congr hfun hmem, (henter false).1, (henter true).2]

theorem leaves_graftMany {P : α → Prop} {t : Shape α} {us : List (List Bool × Shape α)}
    (ht : t.Leaves P) (hus : ∀ u ∈ us, u.2.Leaves P) : (t.graftMany us).Leaves P := by
  induction t generalizing us with
  | leaf a =>
      cases hwhole : whole us with
      | some s =>
          rw [graftMany_of_whole hwhole]
          exact hus _ (mem_of_whole hwhole)
      | none =>
          rw [graftMany, hwhole, Option.getD_none]
          exact ht
  | pair l r ihl ihr =>
      cases hwhole : whole us with
      | some s =>
          rw [graftMany_of_whole hwhole]
          exact hus _ (mem_of_whole hwhole)
      | none =>
          rw [graftMany, hwhole, Option.getD_none]
          exact ⟨ihl ht.1 fun u hu => hus (false :: u.1, u.2) (mem_enter.mp hu),
            ihr ht.2 fun u hu => hus (true :: u.1, u.2) (mem_enter.mp hu)⟩

/-- Writes that are all read off one tree give that tree, from any tree that agrees with it
off their paths. -/
theorem graftMany_of_agree {t target : Shape α} {us : List (List Bool × Shape α)}
    (hagree : AgreeOff (fun p => ∃ s, (p, s) ∈ us) t target)
    (hread : ∀ p s, (p, s) ∈ us → target.sub p = some s) : t.graftMany us = target := by
  induction t generalizing target us with
  | leaf a =>
      cases hwhole : whole us with
      | some s =>
          have hsub := hread [] s (mem_of_whole hwhole)
          rw [sub_nil] at hsub
          rw [graftMany_of_whole hwhole, Option.some.inj hsub]
      | none =>
          have hnil : ¬ ∃ s, ([], s) ∈ us := fun ⟨s, hs⟩ => whole_eq_none.mp hwhole s hs
          rw [graftMany, hwhole, Option.getD_none, hagree.of_leaf hnil]
  | pair l r ihl ihr =>
      cases hwhole : whole us with
      | some s =>
          have hsub := hread [] s (mem_of_whole hwhole)
          rw [sub_nil] at hsub
          rw [graftMany_of_whole hwhole, Option.some.inj hsub]
      | none =>
          have hnil : ¬ ∃ s, ([], s) ∈ us := fun ⟨s, hs⟩ => whole_eq_none.mp hwhole s hs
          obtain ⟨l', r', rfl, hl, hr⟩ := hagree.of_pair hnil
          have hleft : l.graftMany (enter false us) = l' := by
            refine ihl (hl.mono ?_) fun p s hp => hread (false :: p) s (mem_enter.mp hp)
            rintro p ⟨s, hs⟩
            exact ⟨s, mem_enter.mpr hs⟩
          have hright : r.graftMany (enter true us) = r' := by
            refine ihr (hr.mono ?_) fun p s hp => hread (true :: p) s (mem_enter.mp hp)
            rintro p ⟨s, hs⟩
            exact ⟨s, mem_enter.mpr hs⟩
          rw [graftMany, hwhole, Option.getD_none, hleft, hright]

/-- No write is strictly below another. -/
def Flat (us : List (List Bool × Shape α)) : Prop :=
  ∀ u ∈ us, ∀ v ∈ us, u.1 <+: v.1 → u.1 = v.1

theorem Flat.enter {us : List (List Bool × Shape α)} (h : Flat us) (d : Bool) :
    Flat (enter d us) := by
  rintro ⟨p, s⟩ hu ⟨q, x⟩ hv hpre
  have hcons := h (d :: p, s) (mem_enter.mp hu) (d :: q, x) (mem_enter.mp hv)
    (List.cons_prefix_cons.mpr ⟨rfl, hpre⟩)
  exact (List.cons.inj hcons).2

/-- One write after another. -/
def graftEach (t : Shape α) (us : List (List Bool × Shape α)) : Shape α :=
  us.foldl (fun t u => t.graft u.1 u.2) t

theorem graftEach_leaf {a : α} {us : List (List Bool × Shape α)} (h : ∀ s, ([], s) ∉ us) :
    (leaf a).graftEach us = leaf a := by
  induction us with
  | nil => rfl
  | cons u us ih =>
      obtain ⟨p, s⟩ := u
      cases p with
      | nil => exact absurd List.mem_cons_self (h s)
      | cons e p => exact ih fun s hs => h s (List.mem_cons_of_mem _ hs)

theorem graftEach_pair {l r : Shape α} {us : List (List Bool × Shape α)}
    (h : ∀ s, ([], s) ∉ us) :
    (pair l r).graftEach us =
      pair (l.graftEach (enter false us)) (r.graftEach (enter true us)) := by
  induction us generalizing l r with
  | nil => rfl
  | cons u us ih =>
      obtain ⟨p, s⟩ := u
      have hrest : ∀ s, ([], s) ∉ us := fun s hs => h s (List.mem_cons_of_mem _ hs)
      cases p with
      | nil => exact absurd List.mem_cons_self (h s)
      | cons e p =>
          rw [enter_cons, enter_cons]
          cases e with
          | false => exact ih hrest
          | true => exact ih hrest

theorem graftEach_of_nil {t s : Shape α} {us : List (List Bool × Shape α)}
    (h : whole us = some s) (hall : ∀ u ∈ us, u.1 = []) : t.graftEach us = s := by
  induction us using List.reverseRecOn with
  | nil => exact nomatch h
  | append_singleton us u ih =>
      obtain ⟨p, x⟩ := u
      obtain rfl : p = [] := hall (p, x) (by simp)
      rw [whole_concat] at h
      rw [graftEach, List.foldl_append]
      cases h
      exact graft_nil _ _

/-- Writes none of which is below another can be made one after another. -/
theorem graftMany_eq_graftEach {t : Shape α} {us : List (List Bool × Shape α)} (h : Flat us) :
    t.graftMany us = t.graftEach us := by
  induction t generalizing us with
  | leaf a =>
      cases hwhole : whole us with
      | some s =>
          rw [graftMany_of_whole hwhole, graftEach_of_nil hwhole]
          intro u hu
          exact (h ([], s) (mem_of_whole hwhole) u hu List.nil_prefix).symm
      | none => rw [graftMany, hwhole, Option.getD_none, graftEach_leaf (whole_eq_none.mp hwhole)]
  | pair l r ihl ihr =>
      cases hwhole : whole us with
      | some s =>
          rw [graftMany_of_whole hwhole, graftEach_of_nil hwhole]
          intro u hu
          exact (h ([], s) (mem_of_whole hwhole) u hu List.nil_prefix).symm
      | none =>
          rw [graftMany, hwhole, Option.getD_none, graftEach_pair (whole_eq_none.mp hwhole),
            ihl (h.enter false), ihr (h.enter true)]

/-! ## Values without collisions -/

/-- Leaf against leaf, pair against pair. -/
def sameKinds : Shape α → Shape α → Bool
  | leaf _, leaf _ => true
  | pair l r, pair l' r' => l.sameKinds l' && r.sameKinds r'
  | _, _ => false

/-- The subtrees of a tree in `D` are in `D`. -/
def Closed (D : Shape α → Prop) : Prop := ∀ l r, D (pair l r) → D l ∧ D r

/-- Pairs in `D` with the same value stand over the same two values. -/
def CollisionFree (c : α → α → α) (D : Shape α → Prop) : Prop :=
  ∀ l r l' r', D (pair l r) → D (pair l' r') →
    c (l.value c) (r.value c) = c (l'.value c) (r'.value c) →
    l.value c = l'.value c ∧ r.value c = r'.value c

/-- Without collisions the silhouette and the value of a tree determine it. -/
theorem eq_of_value_eq {c : α → α → α} {D : Shape α → Prop} (closed : Closed D)
    (free : CollisionFree c D) {a b : Shape α} (ha : D a) (hb : D b)
    (hkinds : a.sameKinds b = true) (hvalue : a.value c = b.value c) : a = b := by
  induction a generalizing b with
  | leaf x =>
      cases b with
      | leaf y => exact congrArg leaf hvalue
      | pair l' r' => exact nomatch hkinds
  | pair l r ihl ihr =>
      cases b with
      | leaf y => exact nomatch hkinds
      | pair l' r' =>
          obtain ⟨hl, hr⟩ := closed l r ha
          obtain ⟨hl', hr'⟩ := closed l' r' hb
          obtain ⟨hkl, hkr⟩ := (Bool.and_eq_true _ _).mp hkinds
          obtain ⟨hvl, hvr⟩ := free l r l' r' ha hb hvalue
          rw [ihl hl hl' hkl hvl, ihr hr hr' hkr hvr]

end Shape

end HazmatSha256.Foundation
