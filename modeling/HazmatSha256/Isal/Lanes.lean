import HazmatSha256.Isal.Interface
set_option autoImplicit false

/-!
# Isal: a family of managers that keep the contract

The contract of `Isal.Interface` is not empty, and it does not fix an order: here is
a manager with any number of lanes that finishes the jobs in its lanes in any order a
list of picks asks for.  As in the real engine a submission takes a lane, one job is
finished when the last lane is taken, a flush finishes one job while there is one, and
a job is hashed when it is finished, from what its buffer holds at that time.
-/

namespace HazmatSha256.Isal

open Foundation

/-- A lane in use. -/
structure Lane where
  ctx : Idx
  buf : Buf
  len : Nat
  deriving DecidableEq

def Job.lane (job : Job) : Lane := ⟨job.ctx, job.buf, job.bytes.length⟩

/-- The lanes in use, newest first, and the order in which to finish them. -/
structure LaneState where
  lanes : List Lane
  picks : List Nat

/-- The state words, as the engine leaves them in a context. -/
def digestWords (bytes : ByteArray) : Vector UInt32 isalSha256DigestNwords :=
  ⟨Spec.finalState bytes, Spec.finalState_size bytes⟩

/-- Hash what is in the buffer of the lane now. -/
def finishCtx (mem : Mem) (lane : Lane) (ctx : HashCtx) : HashCtx :=
  match mem.load lane.buf lane.len with
  | some bytes =>
      { ctx with
        resultDigest := digestWords ⟨bytes.toArray⟩
        status := .complete
        error := .none }
  | none => { ctx with error := .other (-1) }

/-- Finish the lane the next pick asks for, counted around the lanes in use. -/
def finishOne (m : LaneState) (ctxs : CtxTable) (mem : Mem) : Answer LaneState :=
  match m.lanes[m.picks.headD 0 % m.lanes.length]? with
  | some lane =>
      { rc := 0
        mgr := ⟨m.lanes.filter fun other => other.ctx ≠ lane.ctx, m.picks.tail⟩
        ctxs := Function.update ctxs lane.ctx (finishCtx mem lane (ctxs lane.ctx))
        done := some lane.ctx }
  | none => { rc := 0, mgr := m, ctxs := ctxs, done := none }

/-- The manager with `width` lanes. -/
def laneManager (width : Nat) : JobManager LaneState where
  init m := (0, ⟨[], m.picks⟩)
  ctxInit ctx := { ctx with status := .complete, error := .none }
  submit m ctxs mem c buf len _ :=
    let m' : LaneState := ⟨⟨c, buf, len⟩ :: m.lanes, m.picks⟩
    let ctxs' := Function.update ctxs c { ctxs c with status := .other 1 }
    if m'.lanes.length < width then { rc := 0, mgr := m', ctxs := ctxs', done := none }
    else finishOne m' ctxs' mem
  flush := finishOne

/-! ## Finishing one lane -/

theorem finishCtx_userData (mem : Mem) (lane : Lane) (ctx : HashCtx) :
    (finishCtx mem lane ctx).userData = ctx.userData := by
  unfold finishCtx
  cases mem.load lane.buf lane.len <;> rfl

theorem finishOne_keeps (m : LaneState) (ctxs : CtxTable) (mem : Mem) (c : Idx) :
    ((finishOne m ctxs mem).ctxs c).userData = (ctxs c).userData := by
  unfold finishOne
  cases m.lanes[m.picks.headD 0 % m.lanes.length]? with
  | none => rfl
  | some lane =>
      by_cases hc : c = lane.ctx
      · subst hc
        dsimp only
        rw [Function.update_self, finishCtx_userData]
      · dsimp only
        rw [Function.update_of_ne hc]

theorem finishOne_rc (m : LaneState) (ctxs : CtxTable) (mem : Mem) :
    (finishOne m ctxs mem).rc = 0 := by
  unfold finishOne
  cases m.lanes[m.picks.headD 0 % m.lanes.length]? <;> rfl

variable {m : LaneState} {ctxs : CtxTable} {mem : Mem} {jobs : List Job}

theorem map_lane_settle (c : Idx) (jobs : List Job) :
    (settle (some c) jobs).map Job.lane =
      (jobs.map Job.lane).filter fun lane => lane.ctx ≠ c := by
  rw [settle, List.filter_map]
  rfl

/-- The lanes go on to be those of the jobs not handed back. -/
theorem finishOne_lanes (hlanes : m.lanes = jobs.map Job.lane) :
    (finishOne m ctxs mem).mgr.lanes = (settle (finishOne m ctxs mem).done jobs).map Job.lane := by
  unfold finishOne
  cases m.lanes[m.picks.headD 0 % m.lanes.length]? with
  | none => exact hlanes
  | some lane =>
      dsimp only
      rw [map_lane_settle, hlanes]

/-- Nothing is handed back only when no lane is in use. -/
theorem finishOne_none (hlanes : m.lanes = jobs.map Job.lane)
    (hdone : (finishOne m ctxs mem).done = none) : jobs = [] := by
  unfold finishOne at hdone
  cases hpick : m.lanes[m.picks.headD 0 % m.lanes.length]? with
  | some lane =>
      rw [hpick] at hdone
      cases hdone
  | none =>
      have hle := List.getElem?_eq_none_iff.mp hpick
      have hzero : m.lanes.length = 0 := by
        by_contra hne
        exact absurd (Nat.mod_lt (m.picks.headD 0) (Nat.pos_of_ne_zero hne)) (Nat.not_lt_of_le hle)
      rw [hlanes, List.length_map] at hzero
      exact List.length_eq_zero_iff.mp hzero

/-- A job handed back was held, and its context carries its digest. -/
theorem finishOne_finished (hlanes : m.lanes = jobs.map Job.lane) (hmem : Unchanged mem jobs)
    {c : Idx} (hdone : (finishOne m ctxs mem).done = some c) :
    ∃ job ∈ jobs, job.ctx = c ∧ JobManager.Completed ((finishOne m ctxs mem).ctxs c) job := by
  unfold finishOne at hdone ⊢
  cases hpick : m.lanes[m.picks.headD 0 % m.lanes.length]? with
  | none =>
      rw [hpick] at hdone
      cases hdone
  | some lane =>
      rw [hpick] at hdone
      cases hdone
      have hlane : lane ∈ m.lanes := List.mem_of_getElem? hpick
      rw [hlanes] at hlane
      obtain ⟨job, hjob, rfl⟩ := List.mem_map.mp hlane
      have hload : mem.load job.lane.buf job.lane.len = some job.bytes := hmem job hjob
      refine ⟨job, hjob, rfl, ?_⟩
      dsimp only
      rw [Function.update_self, finishCtx, hload]
      exact ⟨rfl, rfl, rfl⟩

/-! ## The contract -/

variable {width : Nat}

/-- A submission is a finish over one more lane, or no finish at all. -/
theorem submitJob_laneManager (width : Nat) (m : LaneState) (ctxs : CtxTable) (mem : Mem)
    (job : Job) :
    (laneManager width).submitJob m ctxs mem job =
        { rc := 0, mgr := ⟨job.lane :: m.lanes, m.picks⟩,
          ctxs := Function.update ctxs job.ctx { ctxs job.ctx with status := .other 1 },
          done := none } ∨
      (laneManager width).submitJob m ctxs mem job =
        finishOne ⟨job.lane :: m.lanes, m.picks⟩
          (Function.update ctxs job.ctx { ctxs job.ctx with status := .other 1 }) mem := by
  by_cases hfree : (job.lane :: m.lanes).length < width
  · exact Or.inl (if_pos hfree)
  · exact Or.inr (if_neg hfree)

/-- The lanes in use are those of the outstanding jobs. -/
theorem lanes_of_holds (h : (laneManager width).Holds m ctxs jobs) :
    m.lanes = jobs.map Job.lane := by
  induction h with
  | init _ => rfl
  | client _ _ ih => exact ih
  | @submit m ctxs jobs mem job _ _ _ ih =>
      have hnew : (⟨job.lane :: m.lanes, m.picks⟩ : LaneState).lanes =
          (job :: jobs).map Job.lane := by rw [List.map_cons, ih]
      rcases submitJob_laneManager width m ctxs mem job with hsub | hsub
      · rw [hsub]
        exact hnew
      · rw [hsub]
        exact finishOne_lanes hnew
  | flush _ _ _ ih => exact finishOne_lanes ih

theorem laneManager_contract (width : Nat) : (laneManager width).Contract := by
  refine ⟨?_, ?_, ?_⟩
  · intro m ctxs jobs mem job h legal _
    have hnew : (⟨job.lane :: m.lanes, m.picks⟩ : LaneState).lanes =
        (job :: jobs).map Job.lane := by rw [List.map_cons, lanes_of_holds h]
    have hkeep : ∀ c, (Function.update ctxs job.ctx { ctxs job.ctx with status := .other 1 } c :
        HashCtx).userData = (ctxs c).userData := by
      intro c
      by_cases hc : c = job.ctx
      · rw [hc, Function.update_self]
      · rw [Function.update_of_ne hc]
    rcases submitJob_laneManager width m ctxs mem job with hsub | hsub
    · rw [hsub]
      exact ⟨fun other _ => hkeep other.ctx, fun c hdone => by cases hdone⟩
    · rw [hsub]
      exact ⟨fun other _ => (finishOne_keeps _ _ _ _).trans (hkeep other.ctx),
        fun c hdone => finishOne_finished hnew legal.unchanged hdone⟩
  · intro m ctxs jobs mem h legal _
    exact ⟨fun other _ => finishOne_keeps _ _ _ _,
      fun c hdone => finishOne_finished (lanes_of_holds h) legal hdone⟩
  · intro m ctxs jobs mem h _ _ hdone
    exact finishOne_none (lanes_of_holds h) hdone

theorem laneManager_obliging (width : Nat) : (laneManager width).Obliging := by
  refine ⟨fun _ => rfl, ?_, fun _ _ => finishOne_rc _ _ _⟩
  intro m ctxs jobs mem job _ _
  rcases submitJob_laneManager width m ctxs mem job with hsub | hsub
  · rw [hsub]
  · rw [hsub]
    exact finishOne_rc _ _ _

end HazmatSha256.Isal
