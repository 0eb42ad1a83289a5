import HazmatSha256.Shim.Entry
set_option autoImplicit false

/-!
# Shim: a thread that serves calls

A program made of calls into the shims computes a value if, from any thread between
calls, it returns that value and leaves the thread between calls again.  The judgment
composes, so a caller of the shims can be reasoned about as if they were functions.
-/

namespace HazmatSha256.Shim

open Foundation Boxed Isal Evp

variable {σ κ α β : Type} {host : Host σ κ} {legal : Prop}

/-! ## Programs over the shims -/

/-- A program that did not return has panicked, and not where everything was legal on a
host that serves. -/
def Excused (host : Host σ κ) (legal : Prop) (e : Stop) (_ : Thread σ) : Prop :=
  (∃ msg, e = .panic msg) ∧ ¬ (host.Serves ∧ legal)

/-- From any thread between calls the program returns something `P` holds of, and leaves
the thread so. -/
def Yields (host : Host σ κ) (legal : Prop) (m : Run σ α) (P : α → Prop) : Prop :=
  ∀ t : Thread σ, t.Resting → Sat m t (fun a t' => P a ∧ t'.Resting) (Excused host legal)

/-- It returns `a`. -/
def Computes (host : Host σ κ) (legal : Prop) (m : Run σ α) (a : α) : Prop :=
  Yields host legal m fun b => b = a

namespace Yields

variable {P : α → Prop} {Q : β → Prop}

theorem ret {a : α} (h : P a) : Yields host legal (pure a) P :=
  fun _ resting => Sat.ret ⟨h, resting⟩

theorem bind {m : Run σ α} {f : α → Run σ β} (hm : Yields host legal m P)
    (hf : ∀ a, P a → Yields host legal (f a) Q) : Yields host legal (m >>= f) Q := by
  intro t resting
  refine Sat.seq (hm t resting) ?_
  intro a t' hpost
  exact hf a hpost.1 t' hpost.2

/-- Fewer things are legal in a larger program. -/
theorem weaken {m : Run σ α} {legal' : Prop} (h : Yields host legal m P)
    (hlegal : legal' → legal) : Yields host legal' m P := by
  intro t resting
  apply (h t resting).mono
  · intro a t' hpost
    exact hpost
  · intro e t' hexcused
    refine ⟨hexcused.1, ?_⟩
    intro hserved
    exact hexcused.2 ⟨hserved.1, hlegal hserved.2⟩

/-- One program an element, seen through `g`. -/
theorem mapM {γ : Type} {f : α → Run σ β} {g : β → γ} {h : α → γ} : ∀ {l : List α},
    (∀ a ∈ l, Yields host legal (f a) fun b => g b = h a) →
    Yields host legal (l.mapM f) fun bs => bs.map g = l.map h := by
  intro l
  induction l with
  | nil =>
      intro _
      exact ret rfl
  | cons a rest ih =>
      intro hf
      rw [List.mapM_cons]
      refine (hf a List.mem_cons_self).bind ?_
      intro b hb
      refine (ih fun x hx => hf x (List.mem_cons_of_mem a hx)).bind ?_
      intro bs hbs
      apply ret
      rw [List.map_cons, List.map_cons, hb, hbs]

/-- On a host that serves, a legal program returns. -/
theorem returns {m : Run σ α} (h : Yields host legal m P) (serves : host.Serves)
    (hlegal : legal) {t : Thread σ} (resting : t.Resting) :
    ∃ a t', m t = .ok a t' ∧ P a ∧ t'.Resting :=
  (h t resting).returns fun _ _ hexcused => hexcused.2 ⟨serves, hlegal⟩

end Yields

namespace Computes

theorem ret (a : α) : Computes host legal (pure a) a := Yields.ret rfl

theorem bind {m : Run σ α} {f : α → Run σ β} {a : α} {Q : β → Prop}
    (hm : Computes host legal m a) (hf : Yields host legal (f a) Q) :
    Yields host legal (m >>= f) Q := by
  refine Yields.bind hm ?_
  intro a' ha'
  rwa [ha']

theorem weaken {m : Run σ α} {a : α} {legal' : Prop} (h : Computes host legal m a)
    (hlegal : legal' → legal) : Computes host legal' m a :=
  Yields.weaken h hlegal

end Computes

/-! ## The three symbols -/

theorem excused_of_panicked {e : Stop} {t : Thread σ} (h : Panicked host.md host.env e t) :
    Excused host legal e t := by
  obtain ⟨msg, he, hcause⟩ := h
  refine ⟨⟨msg, he⟩, ?_⟩
  intro hserved
  exact hcause.not_served ⟨hserved.1.md, hserved.1.grants⟩

theorem leanHazmatSha256Hash_computes (sound : host.Sound) (input : LeanSarray) :
    Computes host legal (leanHazmatSha256Hash host.md host.env input)
      (Spec.hash input.bytes) := by
  intro t resting
  apply (leanHazmatSha256Hash_sat sound.md input).mono
  · intro d t' hpost
    obtain ⟨hd, rfl⟩ := hpost
    exact ⟨hd, passed_resting resting _⟩
  · intro e t' hpanicked
    exact excused_of_panicked hpanicked

theorem leanHazmatSha256Combine_computes (sound : host.Sound) (left right : LeanSarray) :
    Computes host legal (leanHazmatSha256Combine host.md host.env left right)
      (Spec.combine left.bytes right.bytes) := by
  intro t resting
  apply (leanHazmatSha256Combine_sat sound.md left right).mono
  · intro d t' hpost
    obtain ⟨hd, rfl⟩ := hpost
    exact ⟨hd, passed_resting resting _⟩
  · intro e t' hpanicked
    exact excused_of_panicked hpanicked

/-- What the batched symbol asks of its caller: arrays of equal length, and pairs below
4 GiB where they go through the job manager. -/
structure BatchLegal (host : Host σ κ) (lefts rights : LeanArray) : Prop where
  size : lefts.size = rights.size
  short : host.isal = true → ∀ i l r, pair? lefts rights i = some (l, r) →
    l.size + r.size ≤ uint32Max

theorem excused_of_declined {lefts rights : LeanArray} {e : Stop} {t t' : Thread σ}
    (h : Declined host lefts rights t e t') :
    Excused host (BatchLegal host lefts rights) e t' := by
  cases h with
  | mismatch hne => exact ⟨⟨_, rfl⟩, fun hserved => hne hserved.2.size⟩
  | arrayMemory hgrants => exact ⟨⟨_, rfl⟩, fun hserved => hgrants hserved.1.grants⟩
  | isal hisal hrefused =>
      obtain ⟨msg, he, hcause⟩ := hrefused.cause
      refine ⟨⟨msg, he⟩, ?_⟩
      intro hserved
      exact hcause.not_served (hserved.2.short hisal) ⟨hserved.1.manager, hserved.1.grants⟩
  | evp hrefused =>
      obtain ⟨msg, he, hcause⟩ := hrefused.cause
      exact excused_of_panicked ⟨msg, he, hcause⟩

theorem leanHazmatSha256BatchCombine_computes (sound : host.Sound) (lefts rights : LeanArray) :
    Computes host (BatchLegal host lefts rights)
      (leanHazmatSha256BatchCombine host lefts rights)
      ((Spec.sha256BatchCombineSpec lefts.toArray rights.toArray).map some) := by
  intro t resting
  apply (leanHazmatSha256BatchCombine_sat sound resting).mono
  · intro out t' hpost
    exact ⟨hpost.1, hpost.2.resting⟩
  · intro e t' hdeclined
    exact excused_of_declined hdeclined

/-- For a thread between calls, either backend and any two arrays: where the host serves and
the batch is legal the call returns; if it returns, it hands over the digests of the
reference, each written once, with every buffer untouched while it was needed and every heap
buffer freed once; if it does not, it panicked for one of the reasons named. -/
theorem leanHazmatSha256BatchCombine_delivers (sound : host.Sound) (lefts rights : LeanArray)
    {t : Thread σ} (resting : t.Resting) :
    (host.Serves → BatchLegal host lefts rights →
      ∃ out t', leanHazmatSha256BatchCombine host lefts rights t = .ok out t') ∧
    (∀ out t', leanHazmatSha256BatchCombine host lefts rights t = .ok out t' →
      out = (Spec.sha256BatchCombineSpec lefts.toArray rights.toArray).map some ∧
        Delivered lefts rights t') ∧
    ∀ e t', leanHazmatSha256BatchCombine host lefts rights t = .error e t' →
      Declined host lefts rights t e t' := by
  have hrun : Sat (leanHazmatSha256BatchCombine host lefts rights) t _ _ :=
    leanHazmatSha256BatchCombine_sat sound resting
  refine ⟨?_, fun out t' hok => hrun.of_ok hok, fun e t' herr => hrun.of_error herr⟩
  intro serves legal
  obtain ⟨out, t', hok, -⟩ :=
    (leanHazmatSha256BatchCombine_computes sound lefts rights).returns serves legal resting
  exact ⟨out, t', hok⟩

/-- Three pairs through the single-buffer backend. -/
theorem leanHazmatSha256BatchCombine_delivers_three :
    ∃ out t', leanHazmatSha256BatchCombine (referenceHost false 2 []) sampleLefts sampleRights
        (newThread 0) = .ok out t' ∧ Delivered sampleLefts sampleRights t' := by
  obtain ⟨hreturns, hdelivered, -⟩ := leanHazmatSha256BatchCombine_delivers
    (referenceHost_sound false 2 []) sampleLefts sampleRights (newThread_ready 0).resting
  obtain ⟨out, t', hok⟩ := hreturns (referenceHost_serves false 2 []) ⟨rfl, nofun⟩
  exact ⟨out, t', hok, (hdelivered out t' hok).2⟩

/-! ## One call after another -/

/-- A call of one of the three symbols. -/
inductive Request where
  | hash (input : LeanSarray)
  | combine (left right : LeanSarray)
  | batchCombine (lefts rights : LeanArray)

inductive Reply where
  | digest (d : ByteArray)
  | digests (slots : Array (Option ByteArray))

namespace Request

/-- What the reference answers. -/
def expected : Request → Reply
  | hash input => .digest (Spec.hash input.bytes)
  | combine left right => .digest (Spec.combine left.bytes right.bytes)
  | batchCombine lefts rights =>
      .digests ((Spec.sha256BatchCombineSpec lefts.toArray rights.toArray).map some)

def Legal (host : Host σ κ) : Request → Prop
  | hash _ => True
  | combine _ _ => True
  | batchCombine lefts rights => BatchLegal host lefts rights

end Request

def serve (host : Host σ κ) : Request → Run σ Reply
  | .hash input => do
      let d ← leanHazmatSha256Hash host.md host.env input
      pure (.digest d)
  | .combine left right => do
      let d ← leanHazmatSha256Combine host.md host.env left right
      pure (.digest d)
  | .batchCombine lefts rights => do
      let slots ← leanHazmatSha256BatchCombine host lefts rights
      pure (.digests slots)

/-- The calls of one thread, in order. -/
def session (host : Host σ κ) : List Request → Run σ (List Reply)
  | [] => pure []
  | request :: requests => do
      let reply ← serve host request
      let replies ← session host requests
      pure (reply :: replies)

theorem serve_computes (sound : host.Sound) (request : Request) :
    Computes host (request.Legal host) (serve host request) request.expected := by
  cases request with
  | hash input => exact (leanHazmatSha256Hash_computes sound input).bind (Computes.ret _)
  | combine left right =>
      exact (leanHazmatSha256Combine_computes sound left right).bind (Computes.ret _)
  | batchCombine lefts rights =>
      exact (leanHazmatSha256BatchCombine_computes sound lefts rights).bind (Computes.ret _)

def sampleInput : LeanSarray where
  bytes := ⟨#[9, 8]⟩
  fits := by decide

/-- A session answers every call as the reference does, whatever was called before. -/
theorem session_computes (sound : host.Sound) (requests : List Request) :
    Computes host (∀ request ∈ requests, request.Legal host) (session host requests)
      (requests.map Request.expected) := by
  induction requests with
  | nil => exact Computes.ret []
  | cons request requests ih =>
      have hfirst := (serve_computes sound request).weaken
        fun hall : ∀ r ∈ request :: requests, r.Legal host => hall request List.mem_cons_self
      have hrest := ih.weaken
        fun hall : ∀ r ∈ request :: requests, r.Legal host =>
          fun r hr => hall r (List.mem_cons_of_mem _ hr)
      exact hfirst.bind (hrest.bind (Computes.ret _))

/-- A batch between two single calls. -/
theorem session_computes_three :
    Computes (referenceHost true 2 [1, 0, 1]) (∀ request ∈
        [.hash sampleInput, .batchCombine sampleLefts sampleRights,
          .combine sampleInput sampleInput],
        Request.Legal (referenceHost true 2 [1, 0, 1]) request)
      (session (referenceHost true 2 [1, 0, 1])
        [.hash sampleInput, .batchCombine sampleLefts sampleRights,
          .combine sampleInput sampleInput])
      ([.hash sampleInput, .batchCombine sampleLefts sampleRights,
        .combine sampleInput sampleInput].map Request.expected) :=
  session_computes (referenceHost_sound true 2 [1, 0, 1]) _

end HazmatSha256.Shim
