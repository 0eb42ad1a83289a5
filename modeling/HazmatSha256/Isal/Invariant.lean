import HazmatSha256.Isal.Outcome
set_option autoImplicit false

/-!
# Isal: the invariant of a thread in a chunk

`Accounts` puts the books together over the state of a thread, `Working` adds that
the manager holds exactly the outstanding jobs, and `Answered` is the state right
after `submit` or `flush`, when a job may have been handed back whose digest is not
stored yet.  Each primitive the chunk uses keeps the invariant; these are the step
lemmas.
-/

namespace HazmatSha256.Isal

open Foundation Boxed

variable {σ : Type} (M : JobManager σ) (lefts rights : LeanArray)

/-! ## The invariant -/

structure Accounts (start m lo hi : Nat) (s : Scratch σ) (t : Thread σ) : Prop where
  slots : Slots lefts rights start m t.log t.out
  short : ∀ i l r, i < m → pair? lefts rights i = some (l, r) → l.size + r.size ≤ uint32Max
  orderly : Orderly t.log
  jobs : ∀ job ∈ outstanding t.log, InCustody lefts rights start s t.mem job
  buffers : Buffers s.heap t.mem t.clock lo hi t.log

/-- Before and after a chunk: nothing is outstanding and every position is vacant. -/
structure Idle (m : Nat) (s : Scratch σ) (t : Thread σ) : Prop where
  accounts : Accounts lefts rights m m 0 0 s t
  tls : t.tls = some s
  drained : outstanding t.log = []

/-- Inside a chunk that begins at `start`, with the slots below `m` issued and heap
blocks at positions from `lo` to below `hi`. -/
structure Working (start m lo hi : Nat) (s : Scratch σ) (t : Thread σ) : Prop where
  accounts : Accounts lefts rights start m lo hi s t
  tls : t.tls = some s
  holds : M.Holds s.mgr s.ctxs (outstanding t.log)

/-- The job in context `c` has just been handed back; the accounts are those of the
moment before. -/
structure Returned (start m lo hi : Nat) (s : Scratch σ) (t : Thread σ) (c : Idx)
    (before : List Event) : Prop where
  log : t.log = .handBack c :: before
  accounts : Accounts lefts rights start m lo hi s { t with log := before }
  tls : t.tls = some s
  holds : M.Holds s.mgr s.ctxs (outstanding t.log)
  completed : ∃ job ∈ outstanding before, job.ctx = c ∧ JobManager.Completed (s.ctxs c) job

/-- The state after a call that answered with `done`. -/
def Answered (start m lo hi : Nat) (s : Scratch σ) (t : Thread σ) : Option Idx → Prop
  | none => Working M lefts rights start m lo hi s t
  | some c => ∃ before, Returned M lefts rights start m lo hi s t c before

/-- Why a batch may panic, with the text it does so with.  No text blames a job: under
the contract one that is handed back is complete. -/
inductive Cause (env : Env σ) : String → Prop
  | scratchMemory (h : ¬ env.Grants) : Cause env textScratchMemory
  | pairMemory (h : ¬ env.Grants) : Cause env textPairMemory
  | objectMemory (h : ¬ env.Grants) : Cause env textObjectMemory
  | init (h : ¬ M.Obliging) : Cause env textInit
  | submit (h : ¬ M.Obliging) : Cause env textSubmit
  | flush (h : ¬ M.Obliging) : Cause env textFlush
  | tooLong {i : Nat} {l r : LeanSarray} (hpair : pair? lefts rights i = some (l, r))
      (hlong : uint32Max < l.size + r.size) : Cause env textTooLong

variable {M lefts rights} {start m lo hi : Nat} {s s' : Scratch σ} {t t' : Thread σ}

/-! ## Steps of the accounts -/

namespace Accounts

theorem safe (h : Accounts lefts rights start m lo hi s t) : Safe lefts rights t.log :=
  ⟨h.orderly, h.slots.once, h.slots.digests, h.buffers.book.balanced.settled_nodup,
    fun _ hblock => h.buffers.book.balanced.mem_issued_of_settled hblock⟩

/-- The next position has no job. -/
theorem ctx_ne (h : Accounts lefts rights start m lo hi s t) {c : Idx}
    (hc : start + c.val = m) {job : Job} (hjob : job ∈ outstanding t.log) : job.ctx ≠ c := by
  rintro rfl
  exact absurd (h.slots.slot_lt hjob) (by omega)

/-- The buffer of the next position belongs to no job. -/
theorem buf_ne (h : Accounts lefts rights start m lo hi s t) {c : Idx}
    (hc : start + c.val = m) {job : Job} (hjob : job ∈ outstanding t.log) :
    job.buf ≠ bufOf s.heap c := by
  rw [(h.jobs job hjob).place]
  exact h.buffers.bufOf_ne (h.ctx_ne hc hjob)

/-- A change of the scratch that no job notices. -/
theorem rebind (h : Accounts lefts rights start m lo hi s t)
    (hctx : ∀ job ∈ outstanding t.log,
      (s'.ctxs job.ctx).userData = (s.ctxs job.ctx).userData)
    (hheap : s'.heap = s.heap) (hmem : t'.mem = t.mem) (hclock : t'.clock = t.clock)
    (hout : t'.out = t.out) (hlog : t'.log = t.log) :
    Accounts lefts rights start m lo hi s' t' := by
  refine ⟨?_, h.short, ?_, ?_, ?_⟩
  · rw [hlog, hout]
    exact h.slots
  · rw [hlog]
    exact h.orderly
  · intro job hjob
    rw [hlog] at hjob
    exact (h.jobs job hjob).frame (hctx job hjob) (by rw [hheap]) (by rw [hmem])
  · rw [hlog, hheap, hmem, hclock]
    exact h.buffers

/-- One event that stores nothing, hands nothing back and disturbs no job. -/
theorem quiet {e : Event} {lo' hi' : Nat} (h : Accounts lefts rights start m lo hi s t)
    (hlog : t'.log = e :: t.log) (hout : t'.out = t.out) (hslot : e.slot? = none)
    (hsame : outstanding (e :: t.log) = outstanding t.log)
    (hquiet : ∀ job ∈ outstanding t.log, ¬ e.Disturbs job)
    (hjobs : ∀ job ∈ outstanding t.log, InCustody lefts rights start s' t'.mem job)
    (hbuffers : Buffers s'.heap t'.mem t'.clock lo' hi' (e :: t.log)) :
    Accounts lefts rights start m lo' hi' s' t' := by
  refine ⟨?_, h.short, ?_, ?_, ?_⟩
  · rw [hlog, hout]
    exact h.slots.other hslot hsame
  · rw [hlog]
    exact Respects.extend h.orderly hquiet
  · intro job hjob
    rw [hlog, hsame] at hjob
    exact hjobs job hjob
  · rw [hlog]
    exact hbuffers

/-- An allocation that is not for a pair, or fails. -/
theorem tick (h : Accounts lefts rights start m lo hi s t) :
    Accounts lefts rights start m lo hi s { t with clock := t.clock + 1 } :=
  ⟨h.slots, h.short, h.orderly, h.jobs, h.buffers.tick⟩

theorem widen (h : Accounts lefts rights start m lo hi s t) :
    Accounts lefts rights start m lo (hi + 1) s t :=
  ⟨h.slots, h.short, h.orderly, h.jobs, h.buffers.widen⟩

end Accounts

/-! ## Steps before a submission -/

namespace Working

theorem widen (h : Working M lefts rights start m lo hi s t) :
    Working M lefts rights start m lo (hi + 1) s t :=
  ⟨h.accounts.widen, h.tls, h.holds⟩

/-- A heap block for the next position. -/
theorem malloc {c : Idx} (h : Working M lefts rights start m lo hi s t) (size : Nat)
    (cells : List UInt8) (hc : start + c.val = m) (hvacant : s.heap c = none) (hlo : lo ≤ c.val)
    (hhi : c.val < hi) :
    Working M lefts rights start m lo hi
      { s with heap := Function.update s.heap c (some t.clock) }
      { t with
        tls := some { s with heap := Function.update s.heap c (some t.clock) }
        mem := t.mem.set (.heap t.clock) (some cells)
        clock := t.clock + 1
        log := .malloc t.clock size :: t.log } := by
  have hfresh : ∀ job ∈ outstanding t.log, job.buf ≠ .heap t.clock := by
    intro job hjob
    rw [(h.accounts.jobs job hjob).place]
    exact h.accounts.buffers.bufOf_ne_fresh job.ctx
  refine ⟨?_, rfl, h.holds⟩
  refine h.accounts.quiet rfl rfl rfl rfl hfresh ?_
    (h.accounts.buffers.malloc hvacant hlo hhi)
  intro job hjob
  refine (h.accounts.jobs job hjob).frame rfl ?_ (Memory.set_ne (hfresh job hjob))
  exact Function.update_of_ne (h.accounts.ctx_ne hc hjob) _ _

/-- Writing into the buffer of the next position. -/
theorem memcpy {c : Idx} {buf : Buf} {cells cells' : List UInt8}
    (h : Working M lefts rights start m lo hi s t) (offset len : Nat) (hc : start + c.val = m)
    (hbuf : buf = bufOf s.heap c) (hlive : t.mem buf = some cells)
    (hlen : cells'.length = cells.length) :
    Working M lefts rights start m lo hi s
      { t with
        mem := t.mem.set buf (some cells')
        log := .memcpy buf offset len :: t.log } := by
  have hother : ∀ job ∈ outstanding t.log, job.buf ≠ buf := by
    intro job hjob
    rw [hbuf]
    exact h.accounts.buf_ne hc hjob
  refine ⟨?_, h.tls, h.holds⟩
  refine h.accounts.quiet rfl rfl rfl rfl hother ?_
    ((h.accounts.buffers.write hlive hlen).other rfl rfl)
  intro job hjob
  exact (h.accounts.jobs job hjob).frame rfl rfl (Memory.set_ne (hother job hjob))

/-- Writing the context of the next position. -/
theorem setCtx (h : Working M lefts rights start m lo hi s t) (c : Idx) (ctx : HashCtx)
    (hc : start + c.val = m) :
    Working M lefts rights start m lo hi
      { s with ctxs := Function.update s.ctxs c ctx }
      { t with
        tls := some { s with ctxs := Function.update s.ctxs c ctx }
        log := .ctxWrite c :: t.log } := by
  have hkeep : ∀ job ∈ outstanding t.log,
      Function.update s.ctxs c ctx job.ctx = s.ctxs job.ctx := by
    intro job hjob
    exact Function.update_of_ne (h.accounts.ctx_ne hc hjob) _ _
  refine ⟨?_, rfl, JobManager.Holds.client h.holds hkeep⟩
  refine h.accounts.quiet rfl rfl rfl rfl (fun job hjob => h.accounts.ctx_ne hc hjob) ?_
    (h.accounts.buffers.other rfl rfl)
  intro job hjob
  exact (h.accounts.jobs job hjob).frame (congrArg HashCtx.userData (hkeep job hjob)) rfl rfl

/-! ## Calls of the manager -/

theorem unchanged (h : Working M lefts rights start m lo hi s t) :
    Unchanged t.mem (outstanding t.log) :=
  fun job hjob => (h.accounts.jobs job hjob).intact

/-- A job at the next position, with its context and buffer made ready, is legal. -/
theorem submittable {job : Job} (h : Working M lefts rights start m lo hi s t)
    (hc : start + job.ctx.val = m) (hjob : InCustody lefts rights start s t.mem job)
    (hprepared : ∃ raw u, s.ctxs job.ctx = { M.ctxInit raw with userData := u })
    (hshort : job.bytes.length ≤ uint32Max) :
    M.Submittable s.ctxs t.mem (outstanding t.log) job := by
  refine ⟨fun other hother => h.accounts.ctx_ne hc hother, hprepared, hshort, ?_⟩
  intro other hother
  rcases List.mem_cons.mp hother with rfl | hother
  · exact hjob.intact
  · exact h.unchanged other hother

/-- What `submit` and `flush` have in common: the accounts of the moment before the
hand-back, and an answer that keeps to the contract. -/
theorem answered_of_handsBack {a : Answer σ} {events : List Event}
    (hacc : Accounts lefts rights start m lo hi s { t with log := events ++ t.log })
    (hrc : a.rc = 0) (hback : JobManager.HandsBack s.ctxs (outstanding (events ++ t.log)) a)
    (hholds : M.Holds a.mgr a.ctxs (settle a.done (outstanding (events ++ t.log)))) :
    Answered M lefts rights start m lo hi { s with mgr := a.mgr, ctxs := a.ctxs }
      (t.answered s a events) a.done := by
  have hlog : (t.answered s a events).log = handedBack a.done ++ (events ++ t.log) := by
    simp only [Thread.answered, if_pos hrc, List.append_assoc]
  rw [← outstanding_handedBack, ← hlog] at hholds
  have hnew : ∀ t' : Thread σ, t'.mem = t.mem → t'.clock = t.clock → t'.out = t.out →
      t'.log = events ++ t.log →
      Accounts lefts rights start m lo hi { s with mgr := a.mgr, ctxs := a.ctxs } t' :=
    fun t' hmem hclock hout hlog' => hacc.rebind hback.keeps rfl hmem hclock hout hlog'
  cases hdone : a.done with
  | none =>
      rw [hdone] at hlog
      exact ⟨hnew _ rfl rfl rfl hlog, rfl, hholds⟩
  | some c =>
      rw [hdone] at hlog
      exact ⟨events ++ t.log, hlog, hnew _ rfl rfl rfl rfl, rfl, hholds, hback.finished c hdone⟩

/-- A submission issues the next slot, and may hand any outstanding job back. -/
theorem submit (contract : M.Contract) {job : Job} {a : Answer σ}
    (h : Working M lefts rights start m lo hi s t) (hc : start + job.ctx.val = m)
    (hjob : InCustody lefts rights start s t.mem job)
    (legal : M.Submittable s.ctxs t.mem (outstanding t.log) job)
    (ha : a = M.submitJob s.mgr s.ctxs t.mem job) (hrc : a.rc = 0) :
    Answered M lefts rights start (m + 1) lo hi { s with mgr := a.mgr, ctxs := a.ctxs }
      (t.answered s a [.submit job]) a.done := by
  subst ha
  have hquiet : ∀ other ∈ outstanding t.log, ¬ (Event.submit job).Disturbs other := by
    rintro other hother (hctx | hbuf)
    · exact h.accounts.ctx_ne hc hother hctx
    · rw [hjob.place] at hbuf
      exact h.accounts.buf_ne hc hother hbuf
  refine answered_of_handsBack ?_ hrc (contract.submit h.holds legal hrc)
    (JobManager.Holds.submit h.holds legal hrc)
  refine ⟨h.accounts.slots.submit hc, ?_, Respects.extend h.accounts.orderly hquiet, ?_,
    h.accounts.buffers.other rfl rfl⟩
  · intro i l r hi hpair
    rcases Nat.lt_succ_iff_lt_or_eq.mp hi with hold | hnext
    · exact h.accounts.short i l r hold hpair
    · obtain ⟨l', r', hpair', hbytes⟩ := hjob.pair
      rw [hc, ← hnext, hpair] at hpair'
      cases hpair'
      have hlen := legal.short
      rwa [hbytes, List.length_append, LeanSarray.length_cptr, LeanSarray.length_cptr] at hlen
  · intro other hother
    rcases List.mem_cons.mp hother with rfl | hother
    · exact hjob
    · exact h.accounts.jobs other hother

/-- A flush may hand any outstanding job back. -/
theorem flush (contract : M.Contract) {a : Answer σ}
    (h : Working M lefts rights start m lo hi s t) (ha : a = M.flush s.mgr s.ctxs t.mem)
    (hrc : a.rc = 0) :
    Answered M lefts rights start m lo hi { s with mgr := a.mgr, ctxs := a.ctxs }
      (t.answered s a []) a.done := by
  subst ha
  exact answered_of_handsBack h.accounts hrc (contract.flush h.holds h.unchanged hrc)
    (JobManager.Holds.flush h.holds h.unchanged hrc)

end Working

/-! ## The ends of a chunk -/

/-- The manager may be initialised while nothing is outstanding. -/
theorem Idle.init (h : Idle lefts rights m s t) (mgr : σ) :
    Accounts lefts rights m m 0 0 { s with mgr := mgr }
      { t with tls := some { s with mgr := mgr }, log := .managerInit :: t.log } := by
  have hnone : ∀ job ∈ outstanding t.log, False := by
    intro job hjob
    rw [h.drained] at hjob
    cases hjob
  exact h.accounts.quiet rfl rfl rfl rfl (fun job hjob => absurd (hnone job hjob) not_false)
    (fun job hjob => absurd (hnone job hjob) not_false) (h.accounts.buffers.other rfl rfl)

namespace Working

/-- A heap block goes back once nothing is outstanding. -/
theorem free {c : Idx} {block : Nat} (h : Working M lefts rights start m c.val hi s t)
    (hdrained : outstanding t.log = []) (hc : s.heap c = some block) :
    Working M lefts rights start m (c.val + 1) hi
      { s with heap := Function.update s.heap c none }
      { t with
        tls := some { s with heap := Function.update s.heap c none }
        mem := t.mem.set (.heap block) none
        log := .free block :: t.log } := by
  have hnone : ∀ job ∈ outstanding t.log, False := by
    intro job hjob
    rw [hdrained] at hjob
    cases hjob
  refine ⟨?_, rfl, h.holds⟩
  exact h.accounts.quiet rfl rfl rfl rfl (fun job hjob => absurd (hnone job hjob) not_false)
    (fun job hjob => absurd (hnone job hjob) not_false) (h.accounts.buffers.free hc)

/-- A position without a heap block has none to give back. -/
theorem skip {c : Idx} (h : Working M lefts rights start m c.val hi s t)
    (hc : s.heap c = none) :
    Working M lefts rights start m (c.val + 1) hi
      { s with heap := Function.update s.heap c none }
      { t with tls := some { s with heap := Function.update s.heap c none } } := by
  refine ⟨⟨h.accounts.slots, h.accounts.short, h.accounts.orderly, ?_,
    h.accounts.buffers.skip hc⟩, rfl, h.holds⟩
  intro job hjob
  refine (h.accounts.jobs job hjob).frame rfl ?_ rfl
  rw [← hc, Function.update_eq_self]

/-- A drained chunk without heap blocks is finished. -/
theorem idle (h : Working M lefts rights start m hi hi s t) (hdrained : outstanding t.log = []) :
    Idle lefts rights m s t := by
  refine ⟨⟨h.accounts.slots.restart hdrained m, h.accounts.short, h.accounts.orderly, ?_,
    h.accounts.buffers.reset⟩, h.tls, hdrained⟩
  intro job hjob
  rw [hdrained] at hjob
  cases hjob

end Working

/-! ## Storing the digest of a returned job -/

namespace Returned

variable {c : Idx} {before : List Event}

theorem safe (h : Returned M lefts rights start m lo hi s t c before) :
    Safe lefts rights t.log := by
  obtain ⟨horderly, honce, hdigests, hfreed, hown⟩ := h.accounts.safe
  rw [h.log]
  refine ⟨Respects.extend_harmless horderly fun _ => not_false, honce, ?_, hfreed, hown⟩
  intro i d hmem
  cases hmem with
  | tail _ hmem => exact hdigests i d hmem

/-- The slot a returned context names is in range, and the words it carries are those
of the digest that belongs there. -/
theorem digest (h : Returned M lefts rights start m lo hi s t c before) (hm : m ≤ lefts.size) :
    ∃ bytes, (s.ctxs c).userData < t.out.size ∧ (s.ctxs c).status = .complete ∧
      (s.ctxs c).error = .none ∧ (s.ctxs c).resultDigest.toArray = Spec.finalState bytes ∧
      digestAt lefts rights (s.ctxs c).userData = some (Spec.hash bytes) := by
  obtain ⟨job, hjob, rfl, hdone⟩ := h.completed
  have hcustody := h.accounts.jobs job hjob
  have hlt := h.accounts.slots.slot_lt hjob
  have hsize : t.out.size = lefts.size := h.accounts.slots.size
  refine ⟨⟨job.bytes.toArray⟩, ?_, hdone.status, hdone.error, hdone.digest, ?_⟩
  · rw [hcustody.slot]
    omega
  · rw [hcustody.slot]
    exact hcustody.digestAt_eq

/-- The store settles the slot. -/
theorem store (h : Returned M lefts rights start m lo hi s t c before) {d : ByteArray}
    (hd : digestAt lefts rights (s.ctxs c).userData = some d)
    (hin : (s.ctxs c).userData < t.out.size) :
    Working M lefts rights start m lo hi s
      { t with
        clock := t.clock + 1
        out := t.out.set (s.ctxs c).userData (some d) hin
        log := .store (s.ctxs c).userData d :: t.log } := by
  obtain ⟨job, hjob, rfl, -⟩ := h.completed
  have hslot := (h.accounts.jobs job hjob).slot
  have hslots : Slots lefts rights start m (.store (s.ctxs job.ctx).userData d :: t.log)
      (t.out.set (s.ctxs job.ctx).userData (some d) hin) := by
    rw [h.log]
    simp only [hslot] at hd hin ⊢
    exact h.accounts.slots.collect hjob hd hin
  refine ⟨⟨hslots, h.accounts.short, ?_, ?_, ?_⟩, h.tls, h.holds⟩
  · have horderly : Orderly t.log := h.safe.orderly
    exact Respects.extend_harmless horderly fun _ => not_false
  · intro other hother
    rw [outstanding, h.log, outstanding] at hother
    exact h.accounts.jobs other (mem_of_mem_settle hother)
  · refine Buffers.other ?_ rfl rfl
    rw [h.log]
    exact h.accounts.buffers.tick.other rfl rfl

end Returned

end HazmatSha256.Isal
