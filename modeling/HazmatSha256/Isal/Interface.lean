import HazmatSha256.Foundation.Memory
import HazmatSha256.Boxed.Object
set_option autoImplicit false

/-!
# Isal: the interface of the multi-buffer job manager

ISA-L's `sha256_mb` is a library: this repository calls it and does not contain
it.  It enters as a parameter, `JobManager`, with an arbitrary internal state and
an arbitrary choice of the job each call hands back, and with a contract that
holds it to its promises only as long as the client has kept to the rules.  The
contract has two independent parts.  `Contract` speaks about calls that return
`0`; `Obliging` says that legal calls do.
-/

namespace HazmatSha256.Isal

open Foundation

/-! ## Constants -/

def leanHazmatSha256DigestLen : Nat := 32

def leanHazmatSha256IsalChunk : Nat := 256

def leanHazmatSha256IsalLaneBytes : Nat := 64

def leanHazmatSha256IsalAlign : Nat := 64

def isalSha256DigestNwords : Nat := 8

def uint32Max : Nat := 0xffffffff

/-! ## What the client owns -/

/-- A position in the scratch tables: one context and one lane buffer each. -/
abbrev Idx : Type := Fin leanHazmatSha256IsalChunk

/-- A buffer a job can be submitted with: the lane buffer of a position, or a
heap block. -/
inductive Buf where
  | lane (j : Idx)
  | heap (block : Nat)
  deriving DecidableEq

abbrev Mem : Type := Memory Buf UInt8

/-- `ISAL_HASH_CTX_STS`, as far as the client tells its values apart. -/
inductive IsalHashCtxSts where
  | complete
  | other (code : Nat)
  deriving DecidableEq

/-- `ISAL_HASH_CTX_ERROR`, as far as the client tells its values apart. -/
inductive IsalHashCtxError where
  | none
  | other (code : Int)
  deriving DecidableEq

/-- `ISAL_HASH_CTX_FLAG`. -/
inductive IsalHashCtxFlag where
  | entire
  deriving DecidableEq

/-- `ISAL_SHA256_HASH_CTX`: the fields the client reads or writes. -/
structure HashCtx where
  resultDigest : Vector UInt32 isalSha256DigestNwords
  status : IsalHashCtxSts
  error : IsalHashCtxError
  userData : Nat

/-- The context array, shared by the client and the manager. -/
abbrev CtxTable : Type := Idx → HashCtx

/-! ## The manager -/

/-- What `submit` and `flush` leave behind: the return code, the manager, the
contexts, and the context written through `ctx_out`. -/
structure Answer (σ : Type) where
  rc : Int
  mgr : σ
  ctxs : CtxTable
  done : Option Idx

/-- A job manager with internal state `σ`.  Buffers are passed by pointer, so
every call sees the memory as it is then. -/
structure JobManager (σ : Type) where
  init : σ → Int × σ
  ctxInit : HashCtx → HashCtx
  submit : σ → CtxTable → Mem → Idx → Buf → Nat → IsalHashCtxFlag → Answer σ
  flush : σ → CtxTable → Mem → Answer σ

/-- A submitted job: its context, its buffer and what the buffer held. -/
structure Job where
  ctx : Idx
  buf : Buf
  bytes : List UInt8
  deriving DecidableEq

/-- Strike out the job that was handed back, if one was. -/
def settle : Option Idx → List Job → List Job
  | none, jobs => jobs
  | some c, jobs => jobs.filter fun job => job.ctx ≠ c

theorem mem_of_mem_settle {done : Option Idx} {jobs : List Job} {job : Job}
    (h : job ∈ settle done jobs) : job ∈ jobs := by
  cases done with
  | none => exact h
  | some c => exact List.mem_of_mem_filter h

/-- Every buffer still holds what was submitted. -/
def Unchanged (mem : Mem) (jobs : List Job) : Prop :=
  ∀ job ∈ jobs, mem.load job.buf job.bytes.length = some job.bytes

namespace JobManager

variable {σ : Type} (M : JobManager σ)

def submitJob (m : σ) (ctxs : CtxTable) (mem : Mem) (job : Job) : Answer σ :=
  M.submit m ctxs mem job.ctx job.buf job.bytes.length .entire

/-! ## The rules for the client -/

/-- The job may be submitted while `jobs` are outstanding. -/
structure Submittable (ctxs : CtxTable) (mem : Mem) (jobs : List Job) (job : Job) : Prop where
  fresh : ∀ other ∈ jobs, other.ctx ≠ job.ctx
  prepared : ∃ raw u, ctxs job.ctx = { M.ctxInit raw with userData := u }
  short : job.bytes.length ≤ uint32Max
  unchanged : Unchanged mem (job :: jobs)

/-- `Holds m ctxs jobs`: some legal use of the manager, every call of which
returned `0`, has led to the internal state `m` with `jobs` outstanding. -/
inductive Holds : σ → CtxTable → List Job → Prop
  | init {m : σ} {ctxs : CtxTable} (ok : (M.init m).1 = 0) : Holds (M.init m).2 ctxs []
  | client {m : σ} {ctxs ctxs' : CtxTable} {jobs : List Job} (h : Holds m ctxs jobs)
      (keeps : ∀ job ∈ jobs, ctxs' job.ctx = ctxs job.ctx) : Holds m ctxs' jobs
  | submit {m : σ} {ctxs : CtxTable} {jobs : List Job} {mem : Mem} {job : Job}
      (h : Holds m ctxs jobs) (legal : M.Submittable ctxs mem jobs job)
      (ok : (M.submitJob m ctxs mem job).rc = 0) :
      Holds (M.submitJob m ctxs mem job).mgr (M.submitJob m ctxs mem job).ctxs
        (settle (M.submitJob m ctxs mem job).done (job :: jobs))
  | flush {m : σ} {ctxs : CtxTable} {jobs : List Job} {mem : Mem} (h : Holds m ctxs jobs)
      (legal : Unchanged mem jobs) (ok : (M.flush m ctxs mem).rc = 0) :
      Holds (M.flush m ctxs mem).mgr (M.flush m ctxs mem).ctxs
        (settle (M.flush m ctxs mem).done jobs)

/-! ## The promises of the manager -/

/-- The context carries the digest of the job: the eight state words after the
last block, in host order. -/
structure Completed (ctx : HashCtx) (job : Job) : Prop where
  status : ctx.status = .complete
  error : ctx.error = .none
  digest : ctx.resultDigest.toArray = Spec.finalState ⟨job.bytes.toArray⟩

/-- The answer to a call made with `jobs` outstanding and contexts `ctxs`. -/
structure HandsBack (ctxs : CtxTable) (jobs : List Job) (a : Answer σ) : Prop where
  keeps : ∀ job ∈ jobs, (a.ctxs job.ctx).userData = (ctxs job.ctx).userData
  finished : ∀ c, a.done = some c → ∃ job ∈ jobs, job.ctx = c ∧ Completed (a.ctxs c) job

/-- The contract.  A call may hand back any one outstanding job, and a flush that
hands back none was made with none outstanding. -/
structure Contract : Prop where
  submit : ∀ {m : σ} {ctxs : CtxTable} {jobs : List Job} {mem : Mem} {job : Job},
    M.Holds m ctxs jobs → M.Submittable ctxs mem jobs job →
    (M.submitJob m ctxs mem job).rc = 0 →
    HandsBack ctxs (job :: jobs) (M.submitJob m ctxs mem job)
  flush : ∀ {m : σ} {ctxs : CtxTable} {jobs : List Job} {mem : Mem},
    M.Holds m ctxs jobs → Unchanged mem jobs → (M.flush m ctxs mem).rc = 0 →
    HandsBack ctxs jobs (M.flush m ctxs mem)
  drained : ∀ {m : σ} {ctxs : CtxTable} {jobs : List Job} {mem : Mem},
    M.Holds m ctxs jobs → Unchanged mem jobs → (M.flush m ctxs mem).rc = 0 →
    (M.flush m ctxs mem).done = none → jobs = []

/-- Legal calls succeed. -/
structure Obliging : Prop where
  init : ∀ m : σ, (M.init m).1 = 0
  submit : ∀ {m : σ} {ctxs : CtxTable} {jobs : List Job} {mem : Mem} {job : Job},
    M.Holds m ctxs jobs → M.Submittable ctxs mem jobs job →
    (M.submitJob m ctxs mem job).rc = 0
  flush : ∀ {m : σ} {ctxs : CtxTable} {jobs : List Job} {mem : Mem},
    M.Holds m ctxs jobs → Unchanged mem jobs → (M.flush m ctxs mem).rc = 0

end JobManager

end HazmatSha256.Isal
