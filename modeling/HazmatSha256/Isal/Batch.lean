import HazmatSha256.Isal.Chunk
import HazmatSha256.Isal.Lanes
set_option autoImplicit false

/-!
# Isal: the whole batch

A thread that is ready for a call leaves it with every slot settled, whatever order
the manager chose, and ready for the next one.
-/

namespace HazmatSha256.Isal

open Foundation Boxed

variable {σ : Type} {M : JobManager σ} {env : Env σ} {lefts rights : LeanArray}
variable {s : Scratch σ} {t : Thread σ}

/-! ## From an idle thread to the caller -/

theorem Idle.delivered (h : Idle lefts rights lefts.size s t) (hsize : rights.size = lefts.size) :
    Delivered lefts rights t := by
  have hvacant : ∀ c, s.heap c = none :=
    fun c => h.accounts.buffers.vacant c (Or.inr (Nat.zero_le _))
  have hblocks := h.accounts.buffers.book
  rw [entries_eq_nil hvacant] at hblocks
  refine delivered_of_books hsize h.accounts.slots h.drained h.accounts.orderly hblocks ?_
  intro s' hs'
  rw [h.tls] at hs'
  cases hs'
  exact ⟨hvacant, h.accounts.buffers.lanes⟩

theorem Idle.short (h : Idle lefts rights lefts.size s t) {i : Nat} {l r : LeanSarray}
    (hpair : pair? lefts rights i = some (l, r)) : l.size + r.size ≤ uint32Max :=
  h.accounts.short i l r (lt_of_pair? hpair) hpair

/-! ## The scratch -/

/-- The block is at least as large as was asked for. -/
theorem leanHazmatIsalAlloc_sat {size : Nat} {Q : Nat → Thread σ → Prop}
    (hfits : size ≤ ptrdiffMax) (hsafe : Safe lefts rights t.log)
    (h : ∀ cells, size ≤ cells.length → Q t.clock
      { t with mem := t.mem.set (.heap t.clock) (some cells), clock := t.clock + 1 }) :
    Sat (leanHazmatIsalAlloc env size) t Q (Refused lefts rights (Cause M lefts rights env)) := by
  have hround : sizeSub (sizeAdd size leanHazmatSha256IsalAlign) 1 = size + 63 := by
    simp only [ptrdiffMax] at hfits
    simp only [sizeSub, sizeAdd, sizeModulus, leanHazmatSha256IsalAlign]
    omega
  have hwrap : size + 63 < sizeModulus := by
    simp only [ptrdiffMax] at hfits
    simp only [sizeModulus]
    omega
  have hsize : sizeMul ((size + 63) / leanHazmatSha256IsalAlign) leanHazmatSha256IsalAlign =
      (size + 63) / leanHazmatSha256IsalAlign * leanHazmatSha256IsalAlign := sizeMul_div_eq hwrap
  unfold leanHazmatIsalAlloc alignedAlloc
  dsimp only
  rw [hround, hsize, if_pos (Nat.mul_mod_left _ _)]
  apply Sat.bind
  apply allocate_sat
  · intro hnull
    exact Sat.stop (refused_of_cause (Cause.scratchMemory (not_grants hnull)) hsafe)
  · refine Sat.ret (h _ ?_)
    rw [Env.length_fresh]
    simp only [leanHazmatSha256IsalAlign]
    omega

/-- The accounts of a call begin with an empty log over a reusable scratch. -/
theorem idle_of_reusable (hlog : t.log = []) (htls : t.tls = some s)
    (hout : t.out.size = lefts.size) (hscratch : Reusable s t.mem) :
    Idle lefts rights 0 s t := by
  have hslots : Slots lefts rights 0 0 t.log t.out := by
    rw [hlog]
    exact Slots.empty hout
  refine ⟨⟨hslots, fun _ _ _ hi => absurd hi (Nat.not_lt_zero _), ?_, ?_,
    ⟨?_, ?_, ?_, ?_, hscratch.lanes⟩⟩, htls, ?_⟩
  · rw [hlog]
    exact trivial
  · intro job hjob
    rw [hlog] at hjob
    cases hjob
  · rw [hlog, entries_eq_nil hscratch.vacant]
    exact Book.reachable_empty
  · intro block hblock
    rw [hlog] at hblock
    cases hblock
  · intro c block hc
    rw [hscratch.vacant c] at hc
    cases hc
  · intro c _
    exact hscratch.vacant c
  · rw [hlog]
    rfl

/-- The lane buffers cut out of a block of the right size. -/
theorem withLanes_lane (mem : Mem) {block : List UInt8}
    (hroom : leanHazmatSha256IsalLaneBytes * leanHazmatSha256IsalChunk ≤ block.length) (c : Idx) :
    ∃ cells, withLanes mem block (.lane c) = some cells ∧
      cells.length = leanHazmatSha256IsalLaneBytes := by
  refine ⟨_, rfl, ?_⟩
  have hc : c.val < 256 := c.isLt
  simp only [leanHazmatSha256IsalLaneBytes, leanHazmatSha256IsalChunk] at hroom
  rw [List.length_take, List.length_drop]
  simp only [leanHazmatSha256IsalLaneBytes]
  omega

theorem leanHazmatIsalScratchGet_sat (ready : t.Ready) (hout : t.out.size = lefts.size) :
    Sat (leanHazmatIsalScratchGet env) t (fun _ t' => ∃ s, Idle lefts rights 0 s t')
      (Refused lefts rights (Cause M lefts rights env)) := by
  have hsafe : Safe lefts rights t.log := by
    rw [ready.log]
    exact safe_nil
  have hctxs : sizeMul env.sizeofCtx leanHazmatSha256IsalChunk =
      env.sizeofCtx * leanHazmatSha256IsalChunk := by
    refine Nat.mod_eq_of_lt (Nat.lt_of_le_of_lt env.ctxsFits ?_)
    decide
  have hlanes : sizeMul leanHazmatSha256IsalLaneBytes leanHazmatSha256IsalChunk =
      leanHazmatSha256IsalLaneBytes * leanHazmatSha256IsalChunk := by decide
  unfold leanHazmatIsalScratchGet
  apply Sat.bind
  apply Sat.read
  cases htls : t.tls with
  | some s => exact Sat.ret ⟨s, idle_of_reusable ready.log htls hout (ready.resting s htls)⟩
  | none =>
      dsimp only
      rw [hctxs, hlanes]
      apply Sat.bind
      apply allocate_sat
      · intro hnull
        exact Sat.stop (refused_of_cause (Cause.scratchMemory (not_grants hnull)) hsafe)
      dsimp only
      apply Sat.bind
      refine occupy_sat (Memory.set_self _ _ _) (Nat.le_of_eq (Env.length_fresh env _ _).symm) ?_
      apply Sat.bind
      refine leanHazmatIsalAlloc_sat env.mgrFits hsafe fun _ hmgr => ?_
      apply Sat.bind
      refine occupy_sat (Memory.set_self _ _ _) hmgr ?_
      apply Sat.bind
      refine leanHazmatIsalAlloc_sat env.ctxsFits hsafe fun _ hctxs => ?_
      apply Sat.bind
      refine occupy_sat (Memory.set_self _ _ _) hctxs ?_
      apply Sat.bind
      refine leanHazmatIsalAlloc_sat (by decide) hsafe fun _ hlanes => ?_
      apply Sat.bind
      refine occupy_sat (Memory.set_self _ _ _) hlanes ?_
      refine Sat.write ⟨_, idle_of_reusable ready.log rfl hout ⟨fun _ => rfl, ?_⟩⟩
      exact withLanes_lane t.mem hlanes

/-! ## The loop over chunks -/

/-- One round hashes the next chunk, cut off at the number of pairs. -/
theorem chunkRound_sat (contract : M.Contract) (hsize : rights.size = lefts.size)
    {fuel start : Nat} (hfuel : leanHazmatSha256IsalChunk < fuel)
    (h : Idle lefts rights (min start lefts.size) s t) :
    Sat (chunkRound M env fuel lefts rights lefts.size start) t
      (fun next t' => match next with
        | some start' => (∃ s', Idle lefts rights (min start' lefts.size) s' t') ∧
            lefts.size - start' < lefts.size - start
        | none => ∃ s', Idle lefts rights lefts.size s' t')
      (Refused lefts rights (Cause M lefts rights env)) := by
  refine Sat.branch (fun hlt => ?_) fun hge => ?_
  · have hbound := lefts.size_add_lt (show leanHazmatSha256IsalChunk ≤ ptrdiffMax by decide)
    have hrest : sizeSub lefts.size start = lefts.size - start :=
      sizeSub_eq (by omega) (Nat.le_of_lt hlt)
    have hnext : sizeAdd start leanHazmatSha256IsalChunk = start + leanHazmatSha256IsalChunk :=
      sizeAdd_eq (by omega)
    have hcount : (if lefts.size - start < leanHazmatSha256IsalChunk then lefts.size - start
        else leanHazmatSha256IsalChunk) = min (lefts.size - start) leanHazmatSha256IsalChunk := by
      split <;> omega
    have hpos : 0 < leanHazmatSha256IsalChunk := by decide
    dsimp only
    rw [hrest, hnext, hcount]
    rw [Nat.min_eq_left (Nat.le_of_lt hlt)] at h
    refine Sat.seq (leanHazmatIsalChunk_sat contract hsize (Nat.min_le_right _ _) (by omega)
      hfuel h) ?_
    intro _ t' hpost
    obtain ⟨s', h'⟩ := hpost
    have hend : start + min (lefts.size - start) leanHazmatSha256IsalChunk =
        min (start + leanHazmatSha256IsalChunk) lefts.size := by omega
    rw [hend] at h'
    exact Sat.ret ⟨⟨s', h'⟩, by omega⟩
  · rw [Nat.min_eq_right (Nat.le_of_not_lt hge)] at h
    exact Sat.ret ⟨s, h⟩

/-- The batch leaves a thread ready for a call idle, with every slot settled. -/
theorem leanHazmatSha256BatchIsal_sat (contract : M.Contract) (hsize : rights.size = lefts.size)
    {fuel : Nat} (hfuel : leanHazmatSha256IsalChunk + lefts.size < fuel) (ready : t.Ready)
    (hout : t.out.size = lefts.size) :
    Sat (leanHazmatSha256BatchIsal M env fuel lefts rights lefts.size) t
      (fun _ t' => Delivered lefts rights t' ∧
        ∀ i l r, pair? lefts rights i = some (l, r) → l.size + r.size ≤ uint32Max)
      (Refused lefts rights (Cause M lefts rights env)) := by
  unfold leanHazmatSha256BatchIsal
  refine Sat.seq (leanHazmatIsalScratchGet_sat ready hout) ?_
  intro _ t₀ hpost
  obtain ⟨s₀, h₀⟩ := hpost
  refine Sat.loop (fun start t => ∃ s, Idle lefts rights (min start lefts.size) s t)
    (fun start _ => lefts.size - start) ?_ fuel 0 t₀ ?_ (by omega)
  · intro start t' hpost
    obtain ⟨s', h'⟩ := hpost
    refine (chunkRound_sat contract hsize (by omega) h').mono ?_ fun _ _ he => he
    intro next t'' hnext
    cases next with
    | some start' => exact hnext
    | none =>
        obtain ⟨s'', h''⟩ := hnext
        exact ⟨h''.delivered hsize, fun _ _ _ hpair => h''.short hpair⟩
  · rw [Nat.zero_min]
    exact ⟨s₀, h₀⟩

/-! ## The caller's view -/

/-- Where every pair is short enough, memory or the manager is to blame. -/
theorem Cause.not_served {msg : String} (hcause : Cause M lefts rights env msg)
    (hshort : ∀ i l r, pair? lefts rights i = some (l, r) → l.size + r.size ≤ uint32Max) :
    ¬ (M.Obliging ∧ env.Grants) := by
  intro h
  obtain ⟨hobliging, hgrants⟩ := h
  cases hcause with
  | scratchMemory h => exact h hgrants
  | pairMemory h => exact h hgrants
  | objectMemory h => exact h hgrants
  | init h => exact h hobliging
  | submit h => exact h hobliging
  | flush h => exact h hobliging
  | tooLong hpair hlong => exact absurd (hshort _ _ _ hpair) (Nat.not_le_of_gt hlong)

/-- A host that grants every allocation and fills fresh memory with a pattern. -/
def sampleHost (picks : List Nat) : Env LaneState where
  grants _ _ := true
  garbage time offset := (time + offset).toUInt8
  rawMgr _ := ⟨[⟨⟨7, by decide⟩, .heap 0, 9⟩], picks⟩
  rawCtxs _ _ := ⟨Vector.replicate _ 0, .other 2, .other 1, 9⟩
  sizeofScratch := 2072
  sizeofMgr := 1100
  sizeofCtx := 320
  mgrFits := by decide
  ctxsFits := by decide

/-- A thread that has not hashed anything yet, with `n` slots to fill. -/
def newThread (n : Nat) : Thread LaneState :=
  ⟨none, Memory.nothing, 0, Array.replicate n none, []⟩

theorem newThread_ready (n : Nat) : (newThread n).Ready :=
  ⟨rfl, fun _ hs => by cases hs⟩

def sampleLefts : LeanArray where
  elems := #[⟨⟨Array.replicate 32 1⟩, by decide⟩, ⟨⟨Array.replicate 70 2⟩, by decide⟩,
    ⟨⟨#[]⟩, by decide⟩]
  fits := by decide

def sampleRights : LeanArray where
  elems := #[⟨⟨Array.replicate 32 3⟩, by decide⟩, ⟨⟨Array.replicate 5 4⟩, by decide⟩,
    ⟨⟨#[5]⟩, by decide⟩]
  fits := by decide

/-- For every manager that keeps its contract, every host, and every batch of pairs
short enough for a job: the call returns when the manager serves legal calls and
memory does not run out; if it returns, every digest is in its place, no buffer was
touched while a job needed it and every heap buffer was freed once; and if it does
not, it panicked, for lack of memory or because the manager refused a legal call,
and what it had done by then was right. -/
theorem leanHazmatSha256BatchIsal_delivers {σ : Type} (M : JobManager σ) (contract : M.Contract)
    (env : Env σ) (lefts rights : LeanArray) (hsize : rights.size = lefts.size)
    (hshort : ∀ i l r, pair? lefts rights i = some (l, r) → l.size + r.size ≤ uint32Max)
    (fuel : Nat) (hfuel : leanHazmatSha256IsalChunk + lefts.size < fuel)
    (t : Thread σ) (ready : t.Ready) (hout : t.out.size = lefts.size) :
    (M.Obliging → env.Grants →
      ∃ t', leanHazmatSha256BatchIsal M env fuel lefts rights lefts.size t = .ok ⟨⟩ t') ∧
    (∀ t', leanHazmatSha256BatchIsal M env fuel lefts rights lefts.size t = .ok ⟨⟩ t' →
      Delivered lefts rights t') ∧
    (∀ e t', leanHazmatSha256BatchIsal M env fuel lefts rights lefts.size t = .error e t' →
      (∃ msg, e = .panic msg) ∧ ¬ (M.Obliging ∧ env.Grants) ∧ Safe lefts rights t'.log) := by
  have hrun : Sat (leanHazmatSha256BatchIsal M env fuel lefts rights lefts.size) t _ _ :=
    leanHazmatSha256BatchIsal_sat contract hsize hfuel ready hout
  refine ⟨?_, fun t' hok => (hrun.of_ok hok).1, ?_⟩
  · intro hobliging hgrants
    cases hres : leanHazmatSha256BatchIsal M env fuel lefts rights lefts.size t with
    | ok a t' => exact ⟨t', rfl⟩
    | error e t' =>
        obtain ⟨msg, -, hcause⟩ := (hrun.of_error hres).cause
        exact absurd ⟨hobliging, hgrants⟩ (hcause.not_served hshort)
  · intro e t' herr
    have hrefused := hrun.of_error herr
    obtain ⟨msg, he, hcause⟩ := hrefused.cause
    exact ⟨⟨msg, he⟩, hcause.not_served hshort, hrefused.safe⟩

/-- Three pairs, one of them too long for a lane buffer, through two lanes that finish
out of order. -/
theorem leanHazmatSha256BatchIsal_delivers_three :
    ∃ t', leanHazmatSha256BatchIsal (laneManager 2) (sampleHost [1, 0, 1]) 300 sampleLefts
        sampleRights sampleLefts.size (newThread 3) = .ok ⟨⟩ t' ∧
      Delivered sampleLefts sampleRights t' := by
  have hshort : ∀ i l r, pair? sampleLefts sampleRights i = some (l, r) →
      l.size + r.size ≤ uint32Max := by
    intro i l r hpair
    obtain ⟨hl, hr⟩ := mem_of_pair? hpair
    have hleft : ∀ l ∈ sampleLefts.elems, l.size ≤ 70 := by decide
    have hright : ∀ r ∈ sampleRights.elems, r.size ≤ 32 := by decide
    have hl := hleft l hl
    have hr := hright r hr
    simp only [uint32Max]
    omega
  obtain ⟨hreturns, hdelivered, -⟩ := leanHazmatSha256BatchIsal_delivers (laneManager 2)
    (laneManager_contract 2) (sampleHost [1, 0, 1]) sampleLefts sampleRights rfl hshort 300
    (by decide) (newThread 3) (newThread_ready 3) rfl
  obtain ⟨t', ht'⟩ := hreturns (laneManager_obliging 2) fun _ _ => rfl
  exact ⟨t', ht', hdelivered t' ht'⟩

end HazmatSha256.Isal
