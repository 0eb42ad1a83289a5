import HazmatSha256.Foundation.History
import HazmatSha256.Isal.Interface
set_option autoImplicit false

/-!
# Isal: the log of a call

What the batch does to buffers, contexts, the manager and the output array, event
by event, newest first.  The log decides nothing: it is written by the primitives
of `Isal.State` so that "which jobs are outstanding now" and "how often was this
slot written" are functions of what has happened.
-/

namespace HazmatSha256.Isal

open Foundation

inductive Event where
  | managerInit
  | malloc (block size : Nat)
  | memcpy (buf : Buf) (offset len : Nat)
  | ctxWrite (c : Idx)
  | submit (job : Job)
  | handBack (c : Idx)
  | store (i : Nat) (digest : ByteArray)
  | free (block : Nat)

/-! ## Views of the log -/

/-- The jobs submitted and not yet handed back, newest first. -/
@[simp] def outstanding : List Event → List Job
  | [] => []
  | .submit job :: log => job :: outstanding log
  | .handBack c :: log => settle (some c) (outstanding log)
  | .managerInit :: log => outstanding log
  | .malloc _ _ :: log => outstanding log
  | .memcpy _ _ _ :: log => outstanding log
  | .ctxWrite _ :: log => outstanding log
  | .store _ _ :: log => outstanding log
  | .free _ :: log => outstanding log

namespace Event

/-- The output slot the event writes. -/
def slot? : Event → Option Nat
  | store i _ => some i
  | _ => none

def digestInto? (i : Nat) : Event → Option ByteArray
  | store j digest => if j = i then some digest else none
  | _ => none

def malloc? : Event → Option Nat
  | malloc block _ => some block
  | _ => none

def free? : Event → Option Nat
  | free block => some block
  | _ => none

/-- The event takes something away from a job that needs it: it hands out,
overwrites or frees its buffer, rewrites its context, or wipes the manager. -/
def Disturbs : Event → Job → Prop
  | managerInit, _ => True
  | malloc block _, job => job.buf = .heap block
  | memcpy buf _ _, job => job.buf = buf
  | ctxWrite c, job => job.ctx = c
  | submit other, job => job.ctx = other.ctx ∨ job.buf = other.buf
  | handBack _, _ => False
  | store _ _, _ => False
  | free block, job => job.buf = .heap block

end Event

/-- The slots written, one entry per write. -/
def stored (log : List Event) : List Nat := log.filterMap Event.slot?

/-- The digests written into slot `i`. -/
def digestsInto (i : Nat) (log : List Event) : List ByteArray :=
  log.filterMap (Event.digestInto? i)

def mallocs (log : List Event) : List Nat := log.filterMap Event.malloc?

def frees (log : List Event) : List Nat := log.filterMap Event.free?

/-- No event of the log disturbs a job outstanding when it happens. -/
def Orderly (log : List Event) : Prop := Respects outstanding Event.Disturbs log

/-! ## The views after one more event -/

section Cons

variable (log : List Event) (i block n : Nat) (d : ByteArray)

@[simp] theorem stored_store : stored (.store i d :: log) = i :: stored log := rfl

theorem stored_other {e : Event} (he : e.slot? = none) : stored (e :: log) = stored log :=
  List.filterMap_cons_none he

theorem mallocs_other {e : Event} (he : e.malloc? = none) : mallocs (e :: log) = mallocs log :=
  List.filterMap_cons_none he

@[simp] theorem frees_free : frees (.free block :: log) = block :: frees log := rfl

theorem frees_other {e : Event} (he : e.free? = none) : frees (e :: log) = frees log :=
  List.filterMap_cons_none he

end Cons

/-! ## One write per slot -/

theorem mem_stored {log : List Event} {i : Nat} : i ∈ stored log ↔ ∃ d, Event.store i d ∈ log := by
  rw [stored, List.mem_filterMap]
  constructor
  · intro h
    obtain ⟨e, he, hi⟩ := h
    cases e with
    | store j d =>
        cases hi
        exact ⟨d, he⟩
    | _ => cases hi
  · intro h
    obtain ⟨d, hd⟩ := h
    exact ⟨.store i d, hd, rfl⟩

theorem mem_digestsInto {log : List Event} {i : Nat} {d : ByteArray} :
    d ∈ digestsInto i log ↔ Event.store i d ∈ log := by
  rw [digestsInto, List.mem_filterMap]
  constructor
  · intro h
    obtain ⟨e, he, hi⟩ := h
    cases e with
    | store j d' =>
        simp only [Event.digestInto?] at hi
        split at hi
        · subst_vars
          cases hi
          exact he
        · cases hi
    | _ => cases hi
  · intro hd
    exact ⟨.store i d, hd, by simp only [Event.digestInto?, if_pos]⟩

/-- Slot `i` was written as often as it occurs among the stores. -/
theorem length_digestsInto (log : List Event) (i : Nat) :
    (digestsInto i log).length = (stored log).count i := by
  induction log with
  | nil => rfl
  | cons e log ih =>
      cases e with
      | store j d =>
          rw [stored_store, List.count_cons, ← ih]
          by_cases hj : j = i
          · simp [digestsInto, Event.digestInto?, hj]
          · simp [digestsInto, Event.digestInto?, hj]
      | _ => exact ih

/-- A slot written once, with what its only write wrote. -/
theorem digestsInto_eq_singleton {log : List Event} {i : Nat} {d : ByteArray}
    (hcount : (stored log).count i = 1) (hd : ∀ d', Event.store i d' ∈ log → d' = d) :
    digestsInto i log = [d] := by
  rw [← length_digestsInto] at hcount
  obtain ⟨d', hd'⟩ := List.length_eq_one_iff.mp hcount
  have hmem : Event.store i d' ∈ log := by
    rw [← mem_digestsInto, hd']
    exact List.mem_singleton_self d'
  rw [hd', hd d' hmem]

end HazmatSha256.Isal
