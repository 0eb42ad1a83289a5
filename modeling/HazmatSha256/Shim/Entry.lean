import HazmatSha256.Evp.Runs
import HazmatSha256.Isal.Batch
set_option autoImplicit false

/-!
# Shim: the batched entry point

The batched symbol over both backends.  Which one stands behind it is decided when the
archive is built; what a caller gets back does not depend on it.
-/

namespace HazmatSha256.Shim

open Foundation Boxed Isal Evp

variable {σ κ : Type}

/-! ## The host -/

/-- What a build host links, and whether `LEAN_HAZMAT_SHA256_ISAL` was defined. -/
structure Host (σ κ : Type) where
  isal : Bool
  manager : JobManager σ
  md : EvpMd κ
  env : Env σ

/-- The libraries keep their contracts. -/
structure Host.Sound (host : Host σ κ) : Prop where
  manager : host.manager.Contract
  md : host.md.Contract

/-- Legal calls into the libraries succeed, and no allocation fails. -/
structure Host.Serves (host : Host σ κ) : Prop where
  manager : host.manager.Obliging
  md : host.md.Obliging
  grants : host.env.Grants

/-- A host whose libraries keep their contracts and refuse nothing, with or without the
multi-buffer backend. -/
def referenceHost (isal : Bool) (lanes : Nat) (picks : List Nat) : Host LaneState (List UInt8) :=
  ⟨isal, laneManager lanes, referenceMd, sampleHost picks⟩

theorem referenceHost_sound (isal : Bool) (lanes : Nat) (picks : List Nat) :
    (referenceHost isal lanes picks).Sound :=
  ⟨laneManager_contract lanes, referenceMd_contract⟩

theorem referenceHost_serves (isal : Bool) (lanes : Nat) (picks : List Nat) :
    (referenceHost isal lanes picks).Serves :=
  ⟨laneManager_obliging lanes, referenceMd_obliging, fun _ _ => rfl⟩

/-! ## `lean_hazmat_sha256_batch_combine` -/

def textLengthMismatch : String :=
  "LeanHazmatSha256: sha256BatchCombine: lefts/rights length mismatch"

/-- A thread with a new output array, every slot a placeholder.  The log of a batch begins
here. -/
def opened (t : Thread σ) (n : Nat) : Thread σ :=
  { t with clock := t.clock + 1, out := Array.replicate n none, log := [] }

/-- `lean_alloc_array(n, n)`. -/
def leanAllocArray (env : Env σ) (n : Nat) : Run σ PUnit := fun t =>
  if env.grants t.clock (objectHeader + 8 * n) then .ok ⟨⟩ (opened t n)
  else .error (.panic textObjectMemory) { t with clock := t.clock + 1 }

/-- Rounds enough for the loops of a batch of `n` pairs. -/
def batchFuel (n : Nat) : Nat := leanHazmatSha256IsalChunk + n + 1

/-- The backend that was compiled in. -/
def batchBackend (host : Host σ κ) (lefts rights : LeanArray) (n : Nat) : Run σ PUnit :=
  if host.isal then
    leanHazmatSha256BatchIsal host.manager host.env (batchFuel n) lefts rights n
  else leanHazmatSha256BatchEvp host.md host.env lefts rights n

/-- `lean_hazmat_sha256_batch_combine`. -/
def leanHazmatSha256BatchCombine (host : Host σ κ) (lefts rights : LeanArray) :
    Run σ (Array (Option ByteArray)) := do
  let nLeft := lefts.size
  let nRight := rights.size
  panicIf (nLeft ≠ nRight) textLengthMismatch
  leanAllocArray host.env nLeft
  batchBackend host lefts rights nLeft
  let t ← get
  pure t.out

variable {host : Host σ κ} {lefts rights : LeanArray} {t : Thread σ}

/-- The ways in which a batched call does not come back. -/
inductive Declined (host : Host σ κ) (lefts rights : LeanArray) (t : Thread σ) :
    Stop → Thread σ → Prop
  /-- The shapes differ; nothing has been touched. -/
  | mismatch (h : lefts.size ≠ rights.size) :
      Declined host lefts rights t (.panic textLengthMismatch) t
  | arrayMemory {t' : Thread σ} (h : ¬ host.env.Grants) :
      Declined host lefts rights t (.panic textObjectMemory) t'
  | isal {e : Stop} {t' : Thread σ} (hisal : host.isal = true)
      (h : Refused lefts rights (Isal.Cause host.manager lefts rights host.env) e t') :
      Declined host lefts rights t e t'
  | evp {e : Stop} {t' : Thread σ}
      (h : Refused lefts rights (Evp.Cause host.md host.env) e t') :
      Declined host lefts rights t e t'

theorem opened_ready (resting : t.Resting) (n : Nat) : (opened t n).Ready := ⟨rfl, resting⟩

theorem leanAllocArray_sat {env : Env σ} {n : Nat} {Q : PUnit → Thread σ → Prop}
    {E : Stop → Thread σ → Prop}
    (hfail : env.grants t.clock (objectHeader + 8 * n) ≠ true →
      E (.panic textObjectMemory) { t with clock := t.clock + 1 })
    (hgrant : Q ⟨⟩ (opened t n)) :
    Sat (leanAllocArray env n) t Q E := by
  unfold Sat leanAllocArray
  by_cases h : env.grants t.clock (objectHeader + 8 * n) = true
  · simpa only [if_pos h] using hgrant
  · simpa only [if_neg h] using hfail h

/-- Either backend delivers the batch. -/
theorem batchBackend_sat (sound : host.Sound) (hsize : rights.size = lefts.size)
    (ready : t.Ready) (hout : t.out.size = lefts.size) (t₀ : Thread σ) :
    Sat (batchBackend host lefts rights lefts.size) t (fun _ t' => Delivered lefts rights t')
      (Declined host lefts rights t₀) := by
  apply Sat.branch
  · intro hisal
    have hfuel : leanHazmatSha256IsalChunk + lefts.size < batchFuel lefts.size :=
      Nat.lt_succ_self _
    have hrun : Sat (leanHazmatSha256BatchIsal host.manager host.env _ lefts rights _) t _ _ :=
      leanHazmatSha256BatchIsal_sat sound.manager hsize hfuel ready hout
    exact hrun.mono (fun _ _ hpost => hpost.1) fun _ _ hrefused => .isal hisal hrefused
  · intro _
    have hrun : Sat (leanHazmatSha256BatchEvp host.md host.env lefts rights _) t _ _ :=
      leanHazmatSha256BatchEvp_sat sound.md hsize ready hout
    exact hrun.mono (fun _ _ hpost => hpost) fun _ _ hrefused => .evp hrefused

/-- Between calls a thread may be asked for any batch; if the call comes back, it has
delivered the batch and handed over its digests. -/
theorem leanHazmatSha256BatchCombine_sat (sound : host.Sound) (resting : t.Resting) :
    Sat (leanHazmatSha256BatchCombine host lefts rights) t
      (fun out t' => out =
          (Spec.sha256BatchCombineSpec lefts.toArray rights.toArray).map some ∧
        Delivered lefts rights t')
      (Declined host lefts rights t) := by
  unfold leanHazmatSha256BatchCombine
  apply Sat.bind
  apply panicIf_sat
  · intro hne
    exact .mismatch hne
  intro heq
  have hsize : rights.size = lefts.size := (not_not.mp heq).symm
  apply Sat.bind
  apply leanAllocArray_sat
  · intro hnull
    exact .arrayMemory (not_grants hnull)
  have hrun := batchBackend_sat sound hsize (opened_ready resting lefts.size)
    Array.size_replicate t
  refine Sat.seq hrun ?_
  intro _ t' hdelivered
  exact Sat.bind (Sat.read (Sat.ret ⟨hdelivered.out, hdelivered⟩))

end HazmatSha256.Shim
