import HazmatSha256.Cache.TreeBacked
import HazmatSha256.Foundation.Object
set_option autoImplicit false

/-!
# Cache: boxes

`SizzLean.Cache.Box`, `Uncached` and the statements of `Update`: a value in a box, with or
without a tree behind it, the updates of several clauses, and the reads.  To its clients a
box is the plain value.
-/

namespace HazmatSha256.Cache

open Foundation Shape Boxed Isal Evp Shim Merkle Ssz

variable {s u : SSZType} {α : Type}

/-! ## Updates -/

/-- `path := value`. -/
structure Clause (s : SSZType) where
  {part : SSZType}
  path : Path s part
  value : part.interp

/-- `buildIndexGuardExcept`: every path is checked in the view before the update, in the order
of the clauses. -/
def indexGuard (dflt : Defaults) (cs : List (Clause s)) (view : s.interp) :
    Except IndexError PUnit :=
  cs.forM fun c => c.path.check dflt view

/-- `buildViewLetChain`: every clause writes into the view the one before it left. -/
def viewChain (dflt : Defaults) (cs : List (Clause s)) (view : s.interp) : s.interp :=
  cs.foldl (fun v c => c.path.write dflt c.value v) view

/-- The writes an update records: one for every clause, or, below a progressive container, one
for the whole view. -/
def pendingWrites : (s : SSZType) → List (Clause s) → List (List Bool × PendingWrite s)
  | .progressiveContainer active fs, _ =>
      [([], fun view => some (Node.ofShape hasher (.progressiveContainer active fs) view))]
  | _, cs => cs.map fun c => (c.path.bits, closure c.path)

def TreeBacked.sszUpdate (dflt : Defaults) (t : TreeBacked s) (cs : List (Clause s)) :
    Except IndexError (TreeBacked s) :=
  (indexGuard dflt cs t.view).map fun _ =>
    t.addPendingMany (pendingWrites s cs) (viewChain dflt cs t.view)

/-- No tree: the root is computed from the view at every read. -/
structure UncachedSSZ (s : SSZType) where
  view : s.interp

namespace UncachedSSZ

def ofValue (v : s.interp) : UncachedSSZ s := ⟨v⟩

def hashTreeRoot (t : UncachedSSZ s) : Prog ByteArray := Script.ask (Call.hashTreeRoot s t.view)

def sszUpdate (dflt : Defaults) (t : UncachedSSZ s) (cs : List (Clause s)) :
    Except IndexError (UncachedSSZ s) :=
  (indexGuard dflt cs t.view).map fun _ => ⟨viewChain dflt cs t.view⟩

end UncachedSSZ

/-! ## Boxes -/

inductive Box (s : SSZType) where
  | cached (t : TreeBacked s)
  | uncached (t : UncachedSSZ s)

namespace Box

def ofCached (v : s.interp) (consing : Bool) : Box s := .cached (TreeBacked.ofValue v consing)

def ofPure (v : s.interp) : Box s := .uncached (UncachedSSZ.ofValue v)

def view : Box s → s.interp
  | cached t => t.view
  | uncached t => t.view

def hashTreeRoot : Box s → Prog (ByteArray × Box s)
  | cached t => do
      let (r, t') ← t.hashTreeRootCached
      pure (r, cached t')
  | uncached t => do
      let r ← t.hashTreeRoot
      pure (r, uncached t)

def serialize : Box s → ByteArray
  | cached t => t.serialize
  | uncached t => s.serialize t.view

def sszUpdate (dflt : Defaults) (cs : List (Clause s)) : Box s → Except IndexError (Box s)
  | cached t => (t.sszUpdate dflt cs).map cached
  | uncached t => (t.sszUpdate dflt cs).map uncached

end Box

/-! ## The interface -/

inductive BoxOp (s : SSZType) where
  | view
  | hashTreeRoot
  | serialize
  | update (cs : List (Clause s))

def BoxOut (s : SSZType) : BoxOp s → Type
  | .view => s.interp
  | .hashTreeRoot => ByteArray
  | .serialize => ByteArray
  | .update _ => Except IndexError PUnit

/-- A program that works on a box. -/
abbrev Client (s : SSZType) (α : Type) : Type := Script (BoxOp s) (BoxOut s) α

/-- A failed update leaves the client with the box it had. -/
def Box.perform (dflt : Defaults) : Implementation (BoxOp s) (BoxOut s) (Box s) Call Reply
  | .view, b => pure (b.view, b)
  | .hashTreeRoot, b => b.hashTreeRoot
  | .serialize, b => pure (b.serialize, b)
  | .update cs, b => match b.sszUpdate dflt cs with
      | .ok b' => pure (.ok ⟨⟩, b')
      | .error e => pure (.error e, b)

/-- The plain value. -/
def valueModel (dflt : Defaults) : Model (BoxOp s) (BoxOut s) s.interp
  | .view, x => (x, x)
  | .hashTreeRoot, x => (root (tree s x), x)
  | .serialize, x => (s.serialize x, x)
  | .update cs, x => match indexGuard dflt cs x with
      | .ok _ => (.ok ⟨⟩, viewChain dflt cs x)
      | .error e => (.error e, x)

/-! ## Updates keep box and value coupled -/

/-- Below a progressive container any path will do; elsewhere the paths lead to the nodes they
are meant for. -/
def Updatable : (s : SSZType) → List (Clause s) → Prop
  | .progressiveContainer _ _, _ => True
  | _, cs => ∀ c ∈ cs, c.path.Addressed

variable {σ κ : Type} {host : Host σ κ} {legal : Prop} {D : Shape ByteArray → Prop}
  {dflt : Defaults} {consing : Bool}

theorem clauses_coupled : ∀ {cs : List (Clause s)}, (∀ c ∈ cs, c.path.Addressed) →
    ∀ {t : TreeBacked s} {x : s.interp}, Coupled host legal D consing t x →
    Coupled host legal D consing
      (t.addPendingMany (cs.map fun c => (c.path.bits, closure c.path)) (viewChain dflt cs x))
      (viewChain dflt cs x) := by
  intro cs
  induction cs with
  | nil =>
      intro _ t x h
      obtain rfl := h.view
      exact h
  | cons c cs ih =>
      intro hall t x h
      have hc := hall c List.mem_cons_self
      exact ih (fun c' hmem => hall c' (List.mem_cons_of_mem c hmem))
        (h.write hc (write_stepped dflt c.value x hc))

/-- One write at the root, whatever became of the view. -/
theorem whole_coupled {t : TreeBacked s} {x : s.interp} (h : Coupled host legal D consing t x)
    (x' : s.interp) : Coupled host legal D consing
      (t.addPendingMany [([], fun view => some (Node.ofShape hasher s view))] x') x' := by
  have hclosure : closure (Path.here : Path s s) =
      fun view => some (Node.ofShape hasher s view) := by
    funext view
    rw [closure, Path.part, Option.map_some]
  have haddressed : (Path.here : Path s s).Addressed := by
    rw [Path.Addressed]
    trivial
  have hwrite := h.write haddressed (here_stepped x x')
  rw [hclosure, Path.bits] at hwrite
  exact hwrite

theorem update_coupled {cs : List (Clause s)} (hcs : Updatable s cs) {t : TreeBacked s}
    {x : s.interp} (h : Coupled host legal D consing t x) :
    Coupled host legal D consing
      (t.addPendingMany (pendingWrites s cs) (viewChain dflt cs x)) (viewChain dflt cs x) := by
  cases s with
  | progressiveContainer active fs => exact whole_coupled h _
  | _ => exact clauses_coupled hcs h

/-! ## A box is its value -/

/-- The box stands for the value; it conses only where consing is in use at all. -/
def StandsFor (host : Host σ κ) (legal : Prop) (D : Shape ByteArray → Prop) (consing : Bool) :
    Box s → s.interp → Prop
  | .cached t, x =>
      (t.consing = true → consing = true) ∧ Coupled host legal D t.consing t x
  | .uncached t, x => t.view = x

/-- Where an operation may be asked for. -/
def MayAsk (legal : Prop) (D : Shape ByteArray → Prop) (consing : Bool) : BoxOp s → s.interp → Prop
  | .view, _ => True
  | .hashTreeRoot, x => (legal → Storable s x) ∧ Known D consing (tree s x)
  | .serialize, _ => True
  | .update cs, _ => Updatable s cs

theorem StandsFor.view {b : Box s} {x : s.interp} (h : StandsFor host legal D consing b x) :
    b.view = x := by
  cases b with
  | cached t => exact h.2.view
  | uncached t => exact h

theorem ofCached_standsFor {x : s.interp} {c : Bool} (hc : c = true → consing = true)
    (hstore : legal → Storable s x) (known : Known D consing (tree s x)) :
    StandsFor host legal D consing (Box.ofCached x c) x :=
  ⟨hc, ofValue_coupled hstore fun h => known (hc h)⟩

theorem hashTreeRoot_meets {b : Box s} {x : s.interp} (h : StandsFor host legal D consing b x)
    (hstore : legal → Storable s x) (known : Known D consing (tree s x)) :
    b.hashTreeRoot.Meets (contract host legal D)
      fun p => p.1 = root (tree s x) ∧ StandsFor host legal D consing p.2 x := by
  cases b with
  | cached t =>
      refine (hashTreeRootCached_meets h.2 hstore fun hc => known (h.1 hc)).bind ?_
      rintro ⟨_, t'⟩ ⟨rfl, ht', -⟩
      refine ⟨rfl, fun hc => h.1 (ht'.consing ▸ hc), ?_⟩
      rw [ht'.consing]
      exact ht'
  | uncached t =>
      obtain rfl : t.view = x := h
      refine Script.Meets.step hstore ?_
      rintro _ rfl
      exact ⟨rfl, rfl⟩

/-- An update of a box fails where that of the value fails, and else leaves a box that stands
for the updated value. -/
theorem sszUpdate_standsFor (dflt : Defaults) {b : Box s} {x : s.interp}
    (h : StandsFor host legal D consing b x)
    {cs : List (Clause s)} (hcs : Updatable s cs) :
    match b.sszUpdate dflt cs with
    | .ok b' => indexGuard dflt cs x = .ok ⟨⟩ ∧
        StandsFor host legal D consing b' (viewChain dflt cs x)
    | .error e => indexGuard dflt cs x = .error e := by
  cases b with
  | cached t =>
      obtain rfl := h.2.view
      rw [Box.sszUpdate, TreeBacked.sszUpdate]
      cases indexGuard dflt cs t.view with
      | ok _ => exact ⟨rfl, h.1, update_coupled hcs h.2⟩
      | error e => rfl
  | uncached t =>
      obtain rfl : t.view = x := h
      rw [Box.sszUpdate, UncachedSSZ.sszUpdate]
      cases indexGuard dflt cs t.view with
      | ok _ => exact ⟨rfl, rfl⟩
      | error e => rfl

/-- Every operation of a box returns what it returns on the plain value. -/
theorem box_refines : Refines (contract host legal D) (Box.perform (s := s) dflt)
    (valueModel dflt) (MayAsk legal D consing) (StandsFor host legal D consing) := by
  intro o b x h hmay
  cases o with
  | view => exact ⟨h.view, h⟩
  | hashTreeRoot => exact hashTreeRoot_meets h hmay.1 hmay.2
  | serialize =>
      refine ⟨?_, h⟩
      cases b with
      | cached t => exact congrArg s.serialize h.2.view
      | uncached t => exact congrArg s.serialize h
  | update cs =>
      simp only [Box.perform, valueModel]
      have hupdate := sszUpdate_standsFor dflt h hmay
      cases hb : b.sszUpdate dflt cs with
      | ok b' =>
          rw [hb] at hupdate
          rw [hupdate.1]
          exact ⟨rfl, hupdate.2⟩
      | error e =>
          rw [hb] at hupdate
          rw [hupdate]
          exact ⟨rfl, h⟩

end HazmatSha256.Cache
