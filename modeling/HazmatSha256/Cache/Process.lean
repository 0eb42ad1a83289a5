import HazmatSha256.Cache.Box
set_option autoImplicit false

/-!
# Cache: a process of threads with boxes

Any number of threads, each at work on boxes of its own, over one hash-cons table, under
any schedule of their calls.  Other threads may clear, resize and inspect the table at any
time.
-/

namespace HazmatSha256.Cache

open Foundation Shape Boxed Isal Evp Shim Merkle Ssz

variable {σ κ α : Type} {s : SSZType}

/-! ## Threads -/

/-- How a box is made: `FastBox`, with or without consing, or `PureBox`. -/
inductive Flavour where
  | fast (consing : Bool)
  | pure

def Box.make (v : Flavour × s.interp) : Box s :=
  match v.1 with
  | .fast consing => .ofCached v.2 consing
  | .pure => .ofPure v.2

/-- A program that makes boxes, copies them and works on them. -/
abbrev Worker (s : SSZType) (α : Type) : Type :=
  Script (ShelfOp (BoxOp s) (Flavour × s.interp)) (ShelfOut (BoxOut s)) α

/-- The worker at its boxes. -/
def Worker.script (dflt : Defaults) (w : Worker s α) : Prog α := do
  let p ← w.through (shelfImplementation (Box.perform dflt) Box.make) []
  pure p.1

/-- What the worker would return if its boxes were plain values. -/
def Worker.result (dflt : Defaults) (w : Worker s α) : α :=
  (w.along (shelfModel (valueModel dflt) Prod.snd) []).1

/-- What a thread does: a worker, or calls of the hasher and of the table that it makes
itself. -/
inductive Job (α : Type) where
  | work {s : SSZType} (w : Worker s α)
  | calls (script : Prog α)

def Job.script (dflt : Defaults) : Job α → Prog α
  | work w => w.script dflt
  | calls script => script

/-- The jobs, each in its thread, before the first call. -/
def start (dflt : Defaults) (jobs : List (Job α × Local σ)) (g : Globals) :
    Process Call Reply (Local σ) Globals α :=
  ⟨jobs.map fun j => ⟨j.1.script dflt, j.2⟩, g⟩

/-! ## What a job may do -/

/-- A box may be made. -/
def MayMake (legal : Prop) (D : Shape ByteArray → Prop) (consing : Bool) (v : Flavour × s.interp) :
    Prop :=
  (legal → Storable s v.2) ∧ Known D consing (tree s v.2) ∧
    match v.1 with
    | .fast c => c = true → consing = true
    | .pure => True

/-- Every value whose root is read can exist, its tree is known where consing is in use, and
every update leads to the nodes it is meant for. -/
def Worker.Proper (dflt : Defaults) (legal : Prop) (D : Shape ByteArray → Prop) (consing : Bool)
    (w : Worker s α) : Prop :=
  w.Within (shelfModel (valueModel dflt) Prod.snd)
    (shelfPre (MayAsk legal D consing) (MayMake legal D consing)) []

/-- What a thread asks for itself it asks as the boxes do: coherent cells of known trees. -/
def Job.Proper (dflt : Defaults) (host : Host σ κ) (legal : Prop) (D : Shape ByteArray → Prop)
    (consing : Bool) : Job α → Prop
  | work w => w.Proper dflt legal D consing
  | calls script => script.Meets (contract host legal D) fun _ => True

/-- A worker returns what it would return on plain values. -/
def Job.Returns (dflt : Defaults) : Job α → α → Prop
  | work w, a => a = w.result dflt
  | calls _, _ => True

variable {host : Host σ κ} {legal : Prop} {D : Shape ByteArray → Prop} {dflt : Defaults}
  {consing : Bool}

theorem make_standsFor {v : Flavour × s.interp} (h : MayMake legal D consing v) :
    StandsFor host legal D consing (Box.make v) v.2 := by
  obtain ⟨flavour, x⟩ := v
  cases flavour with
  | fast c => exact ofCached_standsFor h.2.2 h.1 h.2.1
  | pure => exact rfl

theorem worker_meets {w : Worker s α} (h : w.Proper dflt legal D consing) :
    (w.script dflt).Meets (contract host legal D) fun a => a = w.result dflt := by
  refine ((box_refines.shelf fun v hv => make_standsFor hv).through w .nil h).bind ?_
  rintro ⟨_, bs⟩ ⟨rfl, -⟩
  exact rfl

theorem job_meets {j : Job α} (h : j.Proper dflt host legal D consing) :
    (j.script dflt).Meets (contract host legal D) (j.Returns dflt) := by
  cases j with
  | work w => exact worker_meets h
  | calls script => exact h

/-- What thread `i` may return. -/
def Returned (dflt : Defaults) (jobs : List (Job α × Local σ)) (i : Nat) (a : α) : Prop :=
  ∀ j, jobs[i]? = some j → j.1.Returns dflt a

theorem start_sound {jobs : List (Job α × Local σ)} {g : Globals} (kept : g.table.Kept D)
    (ready : ∀ j ∈ jobs, j.2.Ready host)
    (proper : ∀ j ∈ jobs, j.1.Proper dflt host legal D consing) :
    (start dflt jobs g).Sound (contract host legal D) (Local.Ready host)
      (fun g => g.table.Kept D) (Returned dflt jobs) := by
  have hjob : ∀ (i : Nat) t, (start dflt jobs g).tasks[i]? = some t →
      ∃ j ∈ jobs, jobs[i]? = some j ∧ t = ⟨j.1.script dflt, j.2⟩ := by
    intro i t hi
    rw [start, List.getElem?_map] at hi
    obtain ⟨j, hj, rfl⟩ := Option.map_eq_some_iff.mp hi
    exact ⟨j, List.mem_of_getElem? hj, hj, rfl⟩
  refine ⟨kept, ?_, ?_⟩
  · intro i t hi
    obtain ⟨j, hmem, -, rfl⟩ := hjob i t hi
    exact ready j hmem
  · intro i t hi
    obtain ⟨j, hmem, hj, rfl⟩ := hjob i t hi
    refine (job_meets (proper j hmem)).mono ?_
    intro a ha j' hj'
    obtain rfl : j = j' := Option.some.inj (hj.symm.trans hj')
    exact ha

/-! ## A process of three threads -/

/-- The trees of two flags. -/
def OfFlags (t : Shape ByteArray) : Prop :=
  (∃ f, t = .leaf (boolRoot f)) ∨ ∃ f g, t = .pair (.leaf (boolRoot f)) (.leaf (boolRoot g))

theorem closed_flags : Closed OfFlags := by
  intro l r h
  obtain ⟨f, h⟩ | ⟨f, g, h⟩ := h
  · exact nomatch h
  · cases h
    exact ⟨.inl ⟨f, rfl⟩, .inl ⟨g, rfl⟩⟩

/-- How the root of two flags begins. -/
def flagsByte : Bool → Bool → UInt8
  | false, false => 245
  | false, true => 203
  | true, false => 22
  | true, true => 86

theorem combine_flags : ∀ f g,
    (Spec.combine (boolRoot f) (boolRoot g)).data[0]! = flagsByte f g := by
  decide +kernel

theorem free_flags : CollisionFree Spec.combine OfFlags := by
  have hbyte : ∀ f g f' g', flagsByte f g = flagsByte f' g' → f = f' ∧ g = g' := by decide
  intro l r l' r' h h' heq
  obtain ⟨_, h⟩ | ⟨f, g, h⟩ := h
  · exact nomatch h
  obtain ⟨_, h'⟩ | ⟨f', g', h'⟩ := h'
  · exact nomatch h'
  cases h
  cases h'
  change Spec.combine (boolRoot f) (boolRoot g) = Spec.combine (boolRoot f') (boolRoot g') at heq
  obtain ⟨rfl, rfl⟩ : f = f' ∧ g = g' := by
    refine hbyte f g f' g' ?_
    rw [← combine_flags, ← combine_flags, heq]
  exact ⟨rfl, rfl⟩

theorem known_flags (x : flags.interp) : Known OfFlags true (tree flags x) :=
  fun _ => ⟨closed_flags, .inr ⟨x.1, x.2.1, tree_flags x.1 x.2.1⟩⟩

/-- Sets the first flag in a consing box and reads the root. -/
def flagsWorker : Worker flags (Option ByteArray) :=
  .call (.put (.fast true, (false, false, ⟨⟩))) fun _ =>
    .call (.on 0 (.update [⟨firstFlag, true⟩])) fun _ =>
      .call (.on 0 .hashTreeRoot) fun r => .ret r

theorem flagsWorker_proper (dflt : Defaults) : flagsWorker.Proper dflt True OfFlags true := by
  refine ⟨⟨fun _ => storable_flags _, known_flags _, fun h => h⟩, ?_, ?_, trivial⟩
  · intro x _ c hc
    obtain rfl := List.mem_singleton.mp hc
    exact firstFlag_addressed
  · exact fun x _ => ⟨fun _ => storable_flags x, known_flags x⟩

/-- Builds a tree and conses it without a box, then clears the table. -/
def flagsScript : Prog (Option ByteArray) := do
  let fresh ← Node.ofShape hasher flags (true, false, ⟨⟩)
  let n ← fresh.consTree conser
  Script.ask Call.clear
  pure n.cached

theorem flagsScript_meets (isal : Bool) :
    flagsScript.Meets (contract (referenceHost isal 2 [1, 0, 1]) True OfFlags) fun _ => True := by
  refine (ofShape_meets flags _ fun _ => storable_flags _).bind fun fresh hfresh => ?_
  have known := known_flags (true, false, ⟨⟩) rfl
  rw [← hfresh.bare] at known
  refine (consTree_meets known.1 hfresh.coherent known.2).bind fun n _ => ?_
  exact Script.Meets.step trivial fun _ _ => trivial

def flagsThread : Local LaneState := ⟨sampleHost [1, 0, 1], newThread 0⟩

theorem flagsThread_ready (isal : Bool) : flagsThread.Ready (referenceHost isal 2 [1, 0, 1]) :=
  ⟨(newThread_ready 0).resting, fun h => h.grants⟩

/-- Two workers on equal values, and a thread without a box. -/
def flagsJobs : List (Job (Option ByteArray) × Local LaneState) :=
  [(.work flagsWorker, flagsThread), (.work flagsWorker, flagsThread),
    (.calls flagsScript, flagsThread)]

theorem flagsJobs_ready (isal : Bool) :
    ∀ j ∈ flagsJobs, j.2.Ready (referenceHost isal 2 [1, 0, 1]) := by
  simp [flagsJobs, flagsThread_ready]

theorem flagsJobs_proper (dflt : Defaults) (isal : Bool) : ∀ j ∈ flagsJobs,
    j.1.Proper dflt (referenceHost isal 2 [1, 0, 1]) True OfFlags true := by
  simp [flagsJobs, Job.Proper, flagsWorker_proper, flagsScript_meets]

/-- Two flags that are not set, and their cell. -/
def clearFlags : Shape ByteArray := .pair (.leaf (boolRoot false)) (.leaf (boolRoot false))

def flagsCell : Node :=
  .pair (.leaf (boolRoot false)) (.leaf (boolRoot false)) (some (root clearFlags))

/-- The table has that cell. -/
def flagsGlobals : Globals :=
  ⟨{ hashConsInitial with cache := [(root clearFlags, flagsCell)], count := 1 },
    fun _ => false, 0⟩

theorem flagsGlobals_kept : flagsGlobals.table.Kept OfFlags := by
  refine ⟨Nat.le_refl 1, by decide, ?_⟩
  intro r n hmem
  have hcell : (r, n) = (root clearFlags, flagsCell) := List.mem_singleton.mp hmem
  obtain ⟨hr, hn⟩ := Prod.mk.inj hcell
  rw [hr, hn]
  refine ⟨⟨trivial, trivial, ?_⟩, .inr ⟨false, false, rfl⟩, rfl⟩
  exact fun b hb => (Option.mem_some.mp hb).symm

/-- The workers hit the cell in the table, the third thread adds its own and clears the table;
then one worker adds the cell that the other hits. -/
def flagsTurns : List Nat := [0, 1, 2, 1, 0, 2, 0, 1, 2, 1, 0, 2, 0, 1]

/-! ## Every schedule -/

/-- The process is in a state with `Q`, or it was ended by a panic, and not where every call is
legal on a host that serves. -/
def RunsTo (host : Host σ κ) (legal : Prop)
    (r : Except Stop (Process Call Reply (Local σ) Globals α))
    (Q : Process Call Reply (Local σ) Globals α → Prop) : Prop :=
  match r with
  | .ok p => Q p
  | .error e => Ended host legal e

theorem run_runsTo (sound : host.Sound) (closed : Closed D) (free : CollisionFree Spec.combine D)
    {jobs : List (Job α × Local σ)} {g : Globals} (kept : g.table.Kept D)
    (ready : ∀ j ∈ jobs, j.2.Ready host) (proper : ∀ j ∈ jobs, j.1.Proper dflt host legal D consing)
    (schedule : List Nat) :
    RunsTo host legal (Process.run (serve host) schedule (start dflt jobs g)) fun p =>
      p.Sound (contract host legal D) (Local.Ready host) (fun g => g.table.Kept D)
        (Returned dflt jobs) := by
  have hstart : (start dflt jobs g).Sound (contract host legal D) (Local.Ready host)
      (fun g => g.table.Kept D) (Returned dflt jobs) :=
    start_sound kept ready proper
  have hrun := Process.run_sound (serve_honours sound closed free) schedule hstart
  unfold RunsTo
  cases hp : Process.run (serve host) schedule (start dflt jobs g) with
  | error e =>
      rw [hp] at hrun
      exact hrun
  | ok p =>
      rw [hp] at hrun
      exact hrun

theorem RunsTo.mono {r : Except Stop (Process Call Reply (Local σ) Globals α)}
    {Q Q' : Process Call Reply (Local σ) Globals α → Prop} (h : RunsTo host legal r Q)
    (hQ : ∀ p, Q p → Q' p) : RunsTo host legal r Q' := by
  unfold RunsTo at h ⊢
  cases r with
  | ok p => exact hQ p h
  | error e => exact h

/-- The worker with its boxes made in other flavours. -/
def Worker.reflavour (f : Flavour → Flavour) : Worker s α → Worker s α
  | .ret a => .ret a
  | .call (.put v) k => .call (.put (f v.1, v.2)) fun r => Worker.reflavour f (k r)
  | .call (.copy n) k => .call (.copy n) fun r => Worker.reflavour f (k r)
  | .call (.on n o) k => .call (.on n o) fun r => Worker.reflavour f (k r)

theorem along_reflavour (f : Flavour → Flavour) (w : Worker s α) : ∀ vs : List s.interp,
    (w.reflavour f).along (shelfModel (valueModel dflt) Prod.snd) vs =
      w.along (shelfModel (valueModel dflt) Prod.snd) vs := by
  induction w with
  | ret a =>
      intro vs
      rfl
  | call o k ih =>
      intro vs
      cases o with
      | put v => exact ih ⟨⟩ _
      | copy n => exact ih ⟨⟩ _
      | on n o => exact ih _ _

theorem result_reflavour (f : Flavour → Flavour) (w : Worker s α) :
    (w.reflavour f).result dflt = w.result dflt :=
  congrArg Prod.fst (along_reflavour f w [])

theorem within_reflavour (f : Flavour → Flavour) (w : Worker s α) : ∀ {vs : List s.interp},
    w.Within (shelfModel (valueModel dflt) Prod.snd)
      (shelfPre (MayAsk legal D true) (MayMake legal D true)) vs →
    (w.reflavour f).Within (shelfModel (valueModel dflt) Prod.snd)
      (shelfPre (MayAsk legal D true) (MayMake legal D true)) vs := by
  induction w with
  | ret a =>
      intro vs _
      trivial
  | call o k ih =>
      intro vs h
      cases o with
      | put v =>
          refine ⟨⟨h.1.1, h.1.2.1, ?_⟩, ih ⟨⟩ h.2⟩
          cases f v.1 with
          | fast c => exact fun _ => rfl
          | pure => trivial
      | copy n => exact ⟨h.1, ih ⟨⟩ h.2⟩
      | on n o => exact ⟨h.1, ih _ h.2⟩

/-- In every state of every run the table holds no more than its capacity, and every entry is
a coherent cell of a known tree, filed under its root. -/
theorem run_table (sound : host.Sound) (closed : Closed D) (free : CollisionFree Spec.combine D)
    {jobs : List (Job α × Local σ)} {g : Globals} (kept : g.table.Kept D)
    (ready : ∀ j ∈ jobs, j.2.Ready host) (proper : ∀ j ∈ jobs, j.1.Proper dflt host legal D consing)
    (schedule : List Nat) :
    RunsTo host legal (Process.run (serve host) schedule (start dflt jobs g)) fun p =>
      p.shared.table.cache.length ≤ p.shared.table.capacity ∧
        ∀ r n, (r, n) ∈ p.shared.table.cache → n.Coherent ∧ D n.bare ∧ r = root n.bare := by
  refine (run_runsTo sound closed free kept ready proper schedule).mono fun p hsound => ?_
  have htable := hsound.shared
  refine ⟨Nat.le_trans htable.length htable.count, fun r n hmem => ?_⟩
  obtain ⟨hcoherent, hknown, hslot⟩ := htable.cell r n hmem
  exact ⟨hcoherent, hknown, hcoherent.eq_root hslot⟩

theorem run_table_flags :
    RunsTo (referenceHost false 2 [1, 0, 1]) True
      (Process.run (serve (referenceHost false 2 [1, 0, 1])) flagsTurns
        (start zeros flagsJobs flagsGlobals)) fun p =>
      p.shared.table.cache.length ≤ p.shared.table.capacity ∧
        ∀ r n, (r, n) ∈ p.shared.table.cache → n.Coherent ∧ OfFlags n.bare ∧ r = root n.bare :=
  run_table (referenceHost_sound false 2 [1, 0, 1]) closed_flags free_flags flagsGlobals_kept
    (flagsJobs_ready false) (flagsJobs_proper zeros false) _

end HazmatSha256.Cache
