import HazmatSha256.Cache.HashCons
import HazmatSha256.Foundation.Script
import HazmatSha256.Ssz.Root
set_option autoImplicit false

/-!
# Cache: what a thread of the process calls

The cached path calls the hasher, which works in the calling thread, and the hash-cons
table, which all threads share.  One contract covers both; the shims and the table honour
it.
-/

namespace HazmatSha256.Cache

open Foundation Shape Boxed Isal Evp Shim Merkle Ssz

variable {σ κ α : Type}

/-! ## Calls -/

inductive Call where
  | hash (b : ByteArray)
  | combine (l r : ByteArray)
  | batchCombine (ls rs : Array ByteArray)
  /-- The root of a value from scratch: a run of hasher calls that touches nothing shared. -/
  | hashTreeRoot (s : SSZType) (x : s.interp)
  | consCell (n : Node)
  | insert (r : ByteArray) (n : Node)
  | ptrEq (a b : Node)
  | clear
  | setCapacity (n : Nat)
  | size
  | stats

def Reply : Call → Type
  | .hash _ => ByteArray
  | .combine _ _ => ByteArray
  | .batchCombine _ _ => Array ByteArray
  | .hashTreeRoot _ _ => ByteArray
  | .consCell _ => Node
  | .insert _ _ => PUnit
  | .ptrEq _ _ => Bool
  | .clear => PUnit
  | .setCapacity _ => PUnit
  | .size => Nat
  | .stats => Nat × Nat

/-- A program of one thread. -/
abbrev Prog (α : Type) : Type := Script Call Reply α

def hasher : Hasher (Script Call Reply) where
  hash b := Script.ask (Call.hash b)
  combine l r := Script.ask (Call.combine l r)
  batchCombine ls rs := Script.ask (Call.batchCombine ls rs)

def conser : Conser (Script Call Reply) where
  consCell n := Script.ask (Call.consCell n)
  insert r n := Script.ask (Call.insert r n)
  ptrEq a b := Script.ask (Call.ptrEq a b)

/-! ## The contract -/

/-- Byte arrays fit where the run is legal, and cells are coherent cells of known trees. -/
def Asks (host : Host σ κ) (legal : Prop) (D : Shape ByteArray → Prop) : Call → Prop
  | .hash b => legal → Fits b
  | .combine l r => legal → Fits l ∧ Fits r
  | .batchCombine ls rs => legal → Batchable host ls rs
  | .hashTreeRoot s x => legal → Storable s x
  | .consCell n => n.Coherent ∧ D n.bare
  | .insert r n => n.Coherent ∧ D n.bare ∧ n.cached = some r
  | .ptrEq _ _ => True
  | .clear => True
  | .setCapacity _ => True
  | .size => True
  | .stats => True

/-- Digests are those of the reference, and a cell comes back as one that stands for it. -/
def Grants : (c : Call) → Reply c → Prop
  | .hash b, d => d = Spec.hash b
  | .combine l r, d => d = Spec.combine l r
  | .batchCombine ls rs, ds => ds = Spec.sha256BatchCombineSpec ls rs
  | .hashTreeRoot s x, d => d = root (tree s x)
  | .consCell n, n' => n.Stands n'
  | .insert _ _, _ => True
  | .ptrEq a b, same => same = true → a = b
  | .clear, _ => True
  | .setCapacity _, _ => True
  | .size, _ => True
  | .stats, _ => True

def contract (host : Host σ κ) (legal : Prop) (D : Shape ByteArray → Prop) :
    Contract Call Reply :=
  ⟨Asks host legal D, Grants⟩

/-! ## The services -/

/-- What the threads share.  The object graph is known by its answers: equal cells may or
may not be one object. -/
structure Globals where
  table : HashConsState
  oneObject : Nat → Bool
  compared : Nat

/-- What a thread has of its own; how its allocations fare is its own affair too. -/
structure Local (σ : Type) where
  env : Env σ
  thread : Thread σ

/-- The host as one thread meets it. -/
def Local.host (host : Host σ κ) (l : Local σ) : Host σ κ := { host with env := l.env }

/-- A run in the calling thread. -/
def own (m : Local σ → Run σ α) : EStateM Stop (Local σ × Globals) α := fun p =>
  match m p.1 p.1.thread with
  | .ok a t => .ok a ({ p.1 with thread := t }, p.2)
  | .error e t => .error e ({ p.1 with thread := t }, p.2)

/-- One step on what is shared. -/
def atomic (f : Globals → α × Globals) : EStateM Stop (Local σ × Globals) α := fun p =>
  .ok (f p.2).1 (p.1, (f p.2).2)

namespace Globals

def consCell (n : Node) (g : Globals) : Node × Globals :=
  ((g.table.consCell n).1, { g with table := (g.table.consCell n).2 })

def insert (r : ByteArray) (n : Node) (g : Globals) : PUnit × Globals :=
  (⟨⟩, { g with table := g.table.insertBounded r n })

def ptrEq (a b : Node) (g : Globals) : Bool × Globals :=
  (g.oneObject g.compared && decide (a = b), { g with compared := g.compared + 1 })

def clear (g : Globals) : PUnit × Globals := (⟨⟩, { g with table := g.table.clear })

def setCapacity (n : Nat) (g : Globals) : PUnit × Globals :=
  (⟨⟩, { g with table := g.table.setCapacity n })

def size (g : Globals) : Nat × Globals := (g.table.count, g)

def stats (g : Globals) : (Nat × Nat) × Globals := ((g.table.hits, g.table.misses), g)

end Globals

def serve (host : Host σ κ) : Service Call Reply (Local σ) Globals Stop
  | .hash b => own fun l => (native (l.host host)).hash b
  | .combine a b => own fun l => (native (l.host host)).combine a b
  | .batchCombine ls rs => own fun l => (native (l.host host)).batchCombine ls rs
  | .hashTreeRoot s x => own fun l => s.hashTreeRoot (native (l.host host)) x
  | .consCell n => atomic (Globals.consCell n)
  | .insert r n => atomic (Globals.insert r n)
  | .ptrEq a b => atomic (Globals.ptrEq a b)
  | .clear => atomic Globals.clear
  | .setCapacity n => atomic (Globals.setCapacity n)
  | .size => atomic Globals.size
  | .stats => atomic Globals.stats

/-- The process ends by a panic, and not where all is legal on a host that serves. -/
def Ended (host : Host σ κ) (legal : Prop) (e : Stop) : Prop :=
  (∃ msg, e = .panic msg) ∧ ¬ (host.Serves ∧ legal)

/-- The thread is between calls; where the host serves, it serves this thread. -/
structure Local.Ready (host : Host σ κ) (l : Local σ) : Prop where
  resting : l.thread.Resting
  grants : host.Serves → l.env.Grants

variable {host : Host σ κ} {legal : Prop} {D : Shape ByteArray → Prop}

theorem Local.sound (l : Local σ) (sound : host.Sound) : (l.host host).Sound :=
  ⟨sound.manager, sound.md⟩

theorem own_sat {l : Local σ} {m : Local σ → Run σ α} {P : α → Prop}
    (h : Yields (l.host host) legal (m l) P) {g : Globals} (ready : l.Ready host)
    (kept : g.table.Kept D) :
    Sat (own m) (l, g) (fun a p => P a ∧ p.1.Ready host ∧ p.2.table.Kept D)
      fun e _ => Ended host legal e := by
  have hrun := h l.thread ready.resting
  unfold Sat at hrun ⊢
  unfold own
  dsimp only
  cases hm : m l l.thread with
  | ok a t' =>
      rw [hm] at hrun
      exact ⟨hrun.1, ⟨hrun.2, ready.grants⟩, kept⟩
  | error e t' =>
      rw [hm] at hrun
      exact ⟨hrun.1, fun h => hrun.2 ⟨⟨h.1.manager, h.1.md, ready.grants h.1⟩, h.2⟩⟩

theorem atomic_sat {f : Globals → α × Globals} {P : α → Prop} {l : Local σ} {g : Globals}
    {E : Stop → Local σ × Globals → Prop} (ready : l.Ready host)
    (hf : P (f g).1 ∧ (f g).2.table.Kept D) :
    Sat (atomic f) (l, g) (fun a p => P a ∧ p.1.Ready host ∧ p.2.table.Kept D) E :=
  ⟨hf.1, ready, hf.2⟩

/-- The shims and the table honour the contract, from any thread between calls. -/
theorem serve_honours (sound : host.Sound) (closed : Closed D)
    (free : CollisionFree Spec.combine D) :
    (serve host).Honours (contract host legal D) (Local.Ready host) (fun g => g.table.Kept D)
      (Ended host legal) := by
  intro c l g asks ready kept
  have own_sound := l.sound sound
  cases c with
  | hash b =>
      exact own_sat (m := fun l => (native (l.host host)).hash b)
        (native_hash_computes own_sound asks) ready kept
  | combine a b =>
      exact own_sat (m := fun l => (native (l.host host)).combine a b)
        (native_combine_computes own_sound (fun h => (asks h).1) fun h => (asks h).2) ready kept
  | batchCombine ls rs =>
      refine own_sat (m := fun l => (native (l.host host)).batchCombine ls rs)
        (native_batchCombine_computes own_sound fun h => ?_) ready kept
      exact ⟨(asks h).lefts, (asks h).rights, (asks h).size, (asks h).room, (asks h).short⟩
  | hashTreeRoot s x =>
      exact own_sat (m := fun l => s.hashTreeRoot (native (l.host host)) x)
        ((hashTreeRoot_computes own_sound s x).weaken asks) ready kept
  | consCell n =>
      exact atomic_sat (f := Globals.consCell n) ready (kept.consCell closed free asks.1 asks.2)
  | insert r n =>
      exact atomic_sat (f := Globals.insert r n) ready
        ⟨trivial, kept.insertBounded asks.1 asks.2.1 asks.2.2⟩
  | ptrEq a b =>
      refine atomic_sat (f := Globals.ptrEq a b) ready ⟨?_, kept⟩
      intro hsame
      exact of_decide_eq_true (Bool.and_eq_true_iff.mp hsame).2
  | clear => exact atomic_sat (f := Globals.clear) ready ⟨trivial, g.table.clear_kept D⟩
  | setCapacity n =>
      exact atomic_sat (f := Globals.setCapacity n) ready ⟨trivial, g.table.setCapacity_kept n D⟩
  | size => exact atomic_sat (f := Globals.size) ready ⟨trivial, kept⟩
  | stats => exact atomic_sat (f := Globals.stats) ready ⟨trivial, kept⟩

end HazmatSha256.Cache
