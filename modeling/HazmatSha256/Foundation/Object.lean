/-
  Foundation/Object.lean --- objects behind an interface, and their clients.

  A client works on an object through its operations and sees what they return.
  A model says what each operation returns and what becomes of the state; an
  implementation carries the operations out by calls of another level.  Where
  every operation of the implementation returns what the model says, a client gets
  from it what it would get from the model, however long it runs and whatever its
  next operation depends on.  The same holds of a shelf of objects that the client
  puts up, copies and works on in any order.
-/
import HazmatSha256.Foundation.Script
import Mathlib.Data.List.Forall2

set_option autoImplicit false

namespace HazmatSha256.Foundation

variable {Op Call : Type} {Out : Op → Type} {Reply : Call → Type} {B V I α β : Type}

/-- The operations as functions of the state. -/
abbrev Model (Op : Type) (Out : Op → Type) (V : Type) : Type := (o : Op) → V → Out o × V

/-- The operations as scripts of calls. -/
abbrev Implementation (Op : Type) (Out : Op → Type) (B Call : Type) (Reply : Call → Type) :
    Type :=
  (o : Op) → B → Script Call Reply (Out o × B)

/-! ## Clients -/

namespace Script

/-- What a client returns, and what it leaves of the object. -/
def along (model : Model Op Out V) : Script Op Out α → V → α × V
  | ret a, v => (a, v)
  | call o k, v => (k (model o v).1).along model (model o v).2

/-- The client as a script of the other level. -/
def through (impl : Implementation Op Out B Call Reply) :
    Script Op Out α → B → Script Call Reply (α × B)
  | ret a, b => ret (a, b)
  | call o k, b => (impl o b).bind fun p => (k p.1).through impl p.2

/-- The client asks for every operation in a state where it may. -/
def Within (model : Model Op Out V) (pre : Op → V → Prop) : Script Op Out α → V → Prop
  | ret _, _ => True
  | call o k, v => pre o v ∧ (k (model o v).1).Within model pre (model o v).2

end Script

/-! ## Refinement -/

/-- From related states, every operation returns what the model says and leaves related
states. -/
def Refines (C : Contract Call Reply) (impl : Implementation Op Out B Call Reply)
    (model : Model Op Out V) (pre : Op → V → Prop) (R : B → V → Prop) : Prop :=
  ∀ o b v, R b v → pre o v →
    (impl o b).Meets C fun p => p.1 = (model o v).1 ∧ R p.2 (model o v).2

section Refines

variable {C : Contract Call Reply} {impl : Implementation Op Out B Call Reply}
  {model : Model Op Out V} {pre : Op → V → Prop} {R : B → V → Prop}

/-- No client can tell the implementation from the model. -/
theorem Refines.through (h : Refines C impl model pre R) (client : Script Op Out α) :
    ∀ {b : B} {v : V}, R b v → client.Within model pre v → (client.through impl b).Meets C
      fun p => p.1 = (client.along model v).1 ∧ R p.2 (client.along model v).2 := by
  induction client with
  | ret a =>
      intro b v hR _
      exact ⟨rfl, hR⟩
  | call o k ih =>
      intro b v hR hwithin
      refine (h o b v hR hwithin.1).bind ?_
      rintro ⟨_, b'⟩ ⟨rfl, hR'⟩
      exact ih _ hR' hwithin.2

end Refines

/-! ## Shelves -/

inductive ShelfOp (Op I : Type) where
  | put (init : I)
  | copy (k : Nat)
  | on (k : Nat) (o : Op)

/-- An operation on an object that is not there returns nothing. -/
def ShelfOut (Out : Op → Type) : ShelfOp Op I → Type
  | .put _ => PUnit
  | .copy _ => PUnit
  | .on _ o => Option (Out o)

def shelfModel (model : Model Op Out V) (start : I → V) :
    Model (ShelfOp Op I) (ShelfOut Out) (List V)
  | .put init, vs => (⟨⟩, vs ++ [start init])
  | .copy k, vs => (⟨⟩, vs ++ vs[k]?.toList)
  | .on k o, vs => match vs[k]? with
      | some v => (some (model o v).1, vs.set k (model o v).2)
      | none => (none, vs)

def shelfImplementation (impl : Implementation Op Out B Call Reply) (start : I → B) :
    Implementation (ShelfOp Op I) (ShelfOut Out) (List B) Call Reply
  | .put init, bs => pure (⟨⟩, bs ++ [start init])
  | .copy k, bs => pure (⟨⟩, bs ++ bs[k]?.toList)
  | .on k o, bs => match bs[k]? with
      | some b => do
          let (r, b') ← impl o b
          pure (some r, bs.set k b')
      | none => pure (none, bs)

def shelfPre (pre : Op → V → Prop) (ok : I → Prop) : ShelfOp Op I → List V → Prop
  | .put init, _ => ok init
  | .copy _, _ => True
  | .on k o, vs => ∀ v, vs[k]? = some v → pre o v

section Shelf

variable {R : B → V → Prop} {bs : List B} {vs : List V}

/-- The two shelves have an object in the same places. -/
theorem forall₂_getElem? (h : List.Forall₂ R bs vs) (k : Nat) :
    (bs[k]? = none ∧ vs[k]? = none) ∨ ∃ b v, bs[k]? = some b ∧ vs[k]? = some v ∧ R b v := by
  induction h generalizing k with
  | nil => exact .inl ⟨rfl, rfl⟩
  | cons hbv _ ih =>
      cases k with
      | zero => exact .inr ⟨_, _, rfl, rfl, hbv⟩
      | succ k => exact ih k

theorem forall₂_set (h : List.Forall₂ R bs vs) {b : B} {v : V} (hbv : R b v) (k : Nat) :
    List.Forall₂ R (bs.set k b) (vs.set k v) := by
  induction h generalizing k with
  | nil => exact .nil
  | cons hhead htail ih =>
      cases k with
      | zero => exact .cons hbv htail
      | succ k => exact .cons hhead (ih k)

/-- What holds of one object holds of a shelf of them. -/
theorem Refines.shelf {C : Contract Call Reply} {impl : Implementation Op Out B Call Reply}
    {model : Model Op Out V} {pre : Op → V → Prop} {ok : I → Prop} {startB : I → B}
    {startV : I → V} (h : Refines C impl model pre R)
    (hstart : ∀ init, ok init → R (startB init) (startV init)) :
    Refines C (shelfImplementation impl startB) (shelfModel model startV) (shelfPre pre ok)
      (List.Forall₂ R) := by
  intro o bs vs hshelf hpre
  cases o with
  | put init =>
      exact ⟨rfl, List.rel_append hshelf (.cons (hstart init hpre) .nil)⟩
  | copy k =>
      refine ⟨rfl, List.rel_append hshelf ?_⟩
      obtain ⟨hb, hv⟩ | ⟨b, v, hb, hv, hbv⟩ := forall₂_getElem? hshelf k
      · rw [hb, hv]
        exact .nil
      · rw [hb, hv]
        exact .cons hbv .nil
  | on k o =>
      simp only [shelfImplementation, shelfModel]
      obtain ⟨hb, hv⟩ | ⟨b, v, hb, hv, hbv⟩ := forall₂_getElem? hshelf k
      · rw [hb, hv]
        exact ⟨rfl, hshelf⟩
      · rw [hb, hv]
        refine (h o b v hbv (hpre v hv)).bind ?_
        rintro ⟨_, b'⟩ ⟨rfl, hbv'⟩
        exact ⟨rfl, forall₂_set hshelf hbv' k⟩

end Shelf

end HazmatSha256.Foundation
