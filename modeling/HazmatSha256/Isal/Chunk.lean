import HazmatSha256.Isal.Invariant
import Mathlib.Data.Fintype.Card
set_option autoImplicit false

/-!
# Isal: runs of a chunk

From the steps of `Isal.Invariant` to whole runs: each function of the program is
given its specification once, and the loops are closed with the invariant of their
rounds.  Every specification has the same stopping condition, `Refused`.
-/

namespace HazmatSha256.Isal

open Foundation Boxed

variable {σ : Type} {M : JobManager σ} {env : Env σ} {lefts rights : LeanArray}
variable {start m lo hi : Nat} {s : Scratch σ} {t : Thread σ}

theorem log_answered_of_ne {a : Answer σ} (events : List Event) (hrc : a.rc ≠ 0) :
    (t.answered s a events).log = t.log := by
  simp only [Thread.answered, if_neg hrc]

/-! ## Serialising a digest -/

theorem leanHazmatStoreBe32_eq_some {out : List UInt8} {offset : Nat} (w : UInt32)
    (hfit : offset + 4 ≤ out.length) :
    ∃ out', leanHazmatStoreBe32 out offset w = some out' ∧ out'.length = out.length ∧
      out'.take (offset + 4) = out.take offset ++ (Spec.wordToBytesBE w).data.toList := by
  refine ⟨_, if_pos hfit, length_overwrite hfit, ?_⟩
  exact @take_overwrite _ out (Spec.wordToBytesBE w).data.toList offset
    (Nat.le_of_add_right_le hfit)

/-- The loop over the words fills the object from `offset` to its end. -/
theorem storeWords_eq : ∀ (words : List UInt32) (offset : Nat) (out : List UInt8),
    offset + 4 * words.length = out.length →
    storeWords words offset out =
      some (out.take offset ++ words.flatMap fun w => (Spec.wordToBytesBE w).data.toList) := by
  intro words
  induction words with
  | nil =>
      intro offset out hlen
      rw [storeWords, List.take_of_length_le (by simpa using Nat.le_of_eq hlen.symm)]
      simp
  | cons w words ih =>
      intro offset out hlen
      rw [List.length_cons] at hlen
      obtain ⟨out', hstore, hlen', htake⟩ :=
        leanHazmatStoreBe32_eq_some w (show offset + 4 ≤ out.length by omega)
      rw [storeWords, hstore]
      change storeWords words (offset + 4) out' = _
      rw [ih (offset + 4) out' (by omega), htake, List.append_assoc, List.flatMap_cons]

/-- Storing the words of the final state gives the hash. -/
theorem storeWords_hash {digest : Vector UInt32 isalSha256DigestNwords} {bytes : ByteArray}
    {out : List UInt8} (hdigest : digest.toArray = Spec.finalState bytes)
    (hout : out.length = leanHazmatSha256DigestLen) :
    storeWords digest.toList 0 out = some (Spec.hash bytes).data.toList := by
  have hlen : digest.toList.length = 8 := by
    rw [Vector.length_toList]
    rfl
  rw [storeWords_eq _ _ _ (by rw [hlen, hout]; rfl), Spec.hash, Spec.packState_toList, ← hdigest]
  rfl

/-! ## Collecting -/

/-- Collecting a returned job settles its slot. -/
theorem leanHazmatIsalCollect_sat {c : Idx} {before : List Event}
    (h : Returned M lefts rights start m lo hi s t c before) (hm : m ≤ lefts.size) :
    Sat (leanHazmatIsalCollect env c) t
      (fun _ t' => Working M lefts rights start m lo hi s t' ∧
        outstanding t'.log = outstanding t.log)
      (Refused lefts rights (Cause M lefts rights env)) := by
  obtain ⟨bytes, hin, hstatus, herror, hdigest, hd⟩ := h.digest hm
  unfold leanHazmatIsalCollect
  apply Sat.bind
  apply readScratch_sat h.tls
  apply Sat.bind
  apply panicIf_sat
  · intro hbad
    cases hbad with
    | inl hne => exact absurd hstatus hne
    | inr hne => exact absurd herror hne
  intro _
  apply Sat.bind
  apply leanAllocSarray_sat
  · intro hnull
    exact refused_of_cause (Cause.objectMemory (not_grants hnull)) h.safe
  rw [storeWords_hash hdigest (Env.length_fresh env _ _)]
  refine leanArraySetCore_sat hin ?_
  exact ⟨h.store hd hin, rfl⟩

theorem collectIfDone_sat {done : Option Idx}
    (h : Answered M lefts rights start m lo hi s t done) (hm : m ≤ lefts.size) :
    Sat (collectIfDone env done) t (fun _ t' => Working M lefts rights start m lo hi s t')
      (Refused lefts rights (Cause M lefts rights env)) := by
  cases done with
  | none => exact Sat.ret h
  | some c =>
      obtain ⟨before, h⟩ := h
      exact (leanHazmatIsalCollect_sat h hm).mono (fun _ _ h' => h'.1) fun _ _ he => he

/-! ## Submitting a pair -/

/-- The buffer for the next position has room for the pair. -/
theorem pairBuffer_sat {c : Idx} {total : Nat}
    (h : Working M lefts rights start m lo c.val s t) (hc : start + c.val = m)
    (hlo : lo ≤ c.val) :
    Sat (pairBuffer env c total) t
      (fun buf t' => ∃ s' cells, Working M lefts rights start m lo (c.val + 1) s' t' ∧
        buf = bufOf s'.heap c ∧ t'.mem buf = some cells ∧ total ≤ cells.length)
      (Refused lefts rights (Cause M lefts rights env)) := by
  have hvacant : s.heap c = none := h.accounts.buffers.vacant c (Or.inr (Nat.le_refl _))
  apply Sat.branch
  · intro _
    apply Sat.bind
    apply malloc_sat
    · intro hnull
      exact Sat.stop (refused_of_cause (Cause.pairMemory (not_grants hnull)) h.accounts.safe)
    · have hnext := h.widen.malloc total (env.fresh t.clock total) hc hvacant hlo
        (Nat.lt_succ_self _)
      apply Sat.bind
      refine writeScratch_sat h.tls ?_
      refine Sat.ret ⟨_, _, hnext, ?_, Memory.set_self _ _ _, ?_⟩
      · exact (bufOf_some (Function.update_self c (some t.clock) s.heap)).symm
      · rw [Env.length_fresh]
  · intro hshort
    obtain ⟨cells, hlive, hlen⟩ := h.accounts.buffers.lanes c
    refine Sat.ret ⟨s, cells, h.widen, ?_, hlive, ?_⟩
    · exact (bufOf_none hvacant).symm
    · rw [hlen]
      exact Nat.le_of_not_gt hshort

/-- Two `memcpy`s put `left ++ right` at the front of the buffer. -/
theorem take_concat {cells left right : List UInt8}
    (hfit : left.length + right.length ≤ cells.length) :
    (overwrite (overwrite cells 0 left) left.length right).take (left ++ right).length =
      left ++ right := by
  have hleft : (overwrite cells 0 left).length = cells.length := length_overwrite (by omega)
  have hfront : (overwrite cells 0 left).take left.length = left := by
    have h := @take_overwrite _ cells left 0 (Nat.zero_le _)
    rwa [Nat.zero_add, List.take_zero, List.nil_append] at h
  rw [List.length_append, take_overwrite (by omega), hfront]

/-- The two copies leave the concatenated pair in the buffer. -/
theorem fill_sat {c : Idx} {buf : Buf} {cells : List UInt8} (l r : LeanSarray)
    (h : Working M lefts rights start m lo hi s t) (hc : start + c.val = m)
    (hbuf : buf = bufOf s.heap c) (hlive : t.mem buf = some cells)
    (hroom : l.size + r.size ≤ cells.length) {rest : Run σ PUnit} {Q : PUnit → Thread σ → Prop}
    {E : Stop → Thread σ → Prop}
    (hrest : ∀ t', Working M lefts rights start m lo hi s t' →
      t'.mem.load buf (l.cptr ++ r.cptr).length = some (l.cptr ++ r.cptr) → Sat rest t' Q E) :
    Sat (do
        memcpy buf 0 l.cptr
        memcpy buf l.size r.cptr
        rest) t Q E := by
  rw [← l.length_cptr, ← r.length_cptr] at hroom
  rw [← l.length_cptr]
  have hleft : (overwrite cells 0 l.cptr).length = cells.length := length_overwrite (by omega)
  have hright : l.cptr.length + r.cptr.length ≤ (overwrite cells 0 l.cptr).length := by
    rw [hleft]
    exact hroom
  have h₁ := h.memcpy 0 l.cptr.length hc hbuf hlive hleft
  apply Sat.bind
  apply memcpy_sat hlive (by omega)
  have h₂ := h₁.memcpy l.cptr.length r.cptr.length hc hbuf (Memory.set_self _ _ _)
    (length_overwrite hright)
  apply Sat.bind
  apply memcpy_sat (Memory.set_self _ _ _) hright
  refine hrest _ h₂ ?_
  have hlen : (l.cptr ++ r.cptr).length ≤
      (overwrite (overwrite cells 0 l.cptr) l.cptr.length r.cptr).length := by
    rw [length_overwrite hright, hleft, List.length_append]
    exact hroom
  rw [Memory.load_eq_some (Memory.set_self _ _ _) hlen, take_concat hroom]

/-- The context of the next position, initialised and named after its slot. -/
theorem readyCtx_sat {c : Idx} (i : Nat) (h : Working M lefts rights start m lo hi s t)
    (hc : start + c.val = m) {rest : Run σ PUnit} {Q : PUnit → Thread σ → Prop}
    {E : Stop → Thread σ → Prop}
    (hrest : ∀ s' t', Working M lefts rights start m lo hi s' t' → s'.heap = s.heap →
      t'.mem = t.mem → s'.ctxs c = { M.ctxInit (s.ctxs c) with userData := i } →
      Sat rest t' Q E) :
    Sat (do
        isalHashCtxInit M c
        setUserData c i
        rest) t Q E := by
  have h₁ := h.setCtx c (M.ctxInit (s.ctxs c)) hc
  apply Sat.bind
  apply writeScratch_sat h.tls
  have h₂ := h₁.setCtx c
    { Function.update s.ctxs c (M.ctxInit (s.ctxs c)) c with userData := i } hc
  apply Sat.bind
  apply writeScratch_sat h₁.tls
  refine hrest _ _ h₂ rfl rfl ?_
  dsimp only
  rw [Function.update_self, Function.update_self]

/-- The submission of a job that has been made ready, and what becomes of the answer. -/
theorem submit_sat (contract : M.Contract) (job : Job)
    (h : Working M lefts rights start m lo hi s t) (hc : start + job.ctx.val = m)
    (hm : m < lefts.size) (hjob : InCustody lefts rights start s t.mem job)
    (hprepared : ∃ raw u, s.ctxs job.ctx = { M.ctxInit raw with userData := u })
    (hshort : job.bytes.length ≤ uint32Max) :
    Sat (do
        let (rc, done) ← isalSha256CtxMgrSubmit M job.ctx job.buf job.bytes.length .entire
        panicIf (rc ≠ 0) textSubmit
        collectIfDone env done) t
      (fun _ t' => ∃ s', Working M lefts rights start (m + 1) lo hi s' t')
      (Refused lefts rights (Cause M lefts rights env)) := by
  have legal := h.submittable hc hjob hprepared hshort
  apply Sat.bind
  apply isalSha256CtxMgrSubmit_sat h.tls hjob.intact
  intro a ha
  apply Sat.bind
  apply panicIf_sat
  · intro hrc
    refine refused_of_cause (Cause.submit fun hobliging => hrc ?_) ?_
    · rw [ha]
      exact hobliging.submit h.holds legal
    · rw [log_answered_of_ne _ hrc]
      exact h.accounts.safe
  · intro hrc
    have hanswer := h.submit contract hc hjob legal ha (Decidable.not_not.mp hrc)
    exact (collectIfDone_sat hanswer hm).mono (fun _ _ h' => ⟨_, h'⟩) fun _ _ he => he

/-- One round of the submit loop. -/
theorem submitPair_sat (contract : M.Contract) (hsize : rights.size = lefts.size) {c : Idx}
    (hin : start + c.val < lefts.size)
    (h : Working M lefts rights start (start + c.val) 0 c.val s t) :
    Sat (submitPair M env lefts rights start c.val) t
      (fun _ t' => ∃ s', Working M lefts rights start (start + c.val + 1) 0 (c.val + 1) s' t')
      (Refused lefts rights (Cause M lefts rights env)) := by
  obtain ⟨l, r, hl, hr, hpair⟩ := exists_pair hsize hin
  have hindex : sizeAdd start c.val = start + c.val := by
    have hbound := lefts.size_add_lt (Nat.zero_le ptrdiffMax)
    exact sizeAdd_eq (by omega)
  have htotal : sizeAdd l.size r.size = l.size + r.size := sizeAdd_eq (l.size_add_size_lt r)
  have hlen : (l.cptr ++ r.cptr).length = l.size + r.size := by
    rw [List.length_append, LeanSarray.length_cptr, LeanSarray.length_cptr]
  unfold submitPair
  rw [hindex]
  apply Sat.bind
  apply leanArrayGetCore_sat hl
  apply Sat.bind
  apply leanArrayGetCore_sat hr
  dsimp only
  rw [htotal]
  apply Sat.bind
  apply panicIf_sat
  · intro hlong
    exact refused_of_cause (Cause.tooLong hpair hlong) h.accounts.safe
  intro hshort
  have hcast : (l.size + r.size) % (uint32Max + 1) = (l.cptr ++ r.cptr).length := by
    rw [hlen]
    exact Nat.mod_eq_of_lt (by omega)
  rw [hcast]
  apply Sat.bind
  apply tableIndex_sat c.isLt
  refine Sat.seq (pairBuffer_sat h rfl (Nat.zero_le _)) ?_
  intro buf t₁ hpost
  obtain ⟨s₁, cells, h₁, hbuf, hlive, hroom⟩ := hpost
  refine fill_sat l r h₁ rfl hbuf hlive hroom ?_
  intro t₂ h₂ hload
  refine readyCtx_sat (start + c.val) h₂ rfl ?_
  intro s₃ t₃ h₃ hheap hmem hctx
  refine submit_sat contract ⟨c, buf, l.cptr ++ r.cptr⟩ h₃ rfl hin ?_ ⟨_, _, hctx⟩ ?_
  · refine ⟨?_, ⟨l, r, hpair, rfl⟩, ?_, ?_⟩
    · dsimp only
      rw [hctx]
    · rw [hmem]
      exact hload
    · rw [hheap]
      exact hbuf
  · rw [hlen]
    exact Nat.le_of_not_gt hshort

/-- The submit loop issues the slots of the chunk. -/
theorem submitLoop_sat (contract : M.Contract) (hsize : rights.size = lefts.size) {count : Nat}
    (hcount : count ≤ leanHazmatSha256IsalChunk) (hin : start + count ≤ lefts.size)
    (h : Working M lefts rights start start 0 0 s t) :
    Sat (forUp (submitPair M env lefts rights start) 0 count) t
      (fun _ t' => ∃ s', Working M lefts rights start (start + count) 0 count s' t')
      (Refused lefts rights (Cause M lefts rights env)) := by
  refine (Sat.forUp (fun j t => ∃ s', Working M lefts rights start (start + j) 0 j s' t)
    count 0 t ⟨s, h⟩ ?_).mono ?_ fun _ _ he => he
  · intro j t' _ hj hpost
    obtain ⟨s', h'⟩ := hpost
    have hlt : j < leanHazmatSha256IsalChunk := by omega
    exact submitPair_sat (c := ⟨j, hlt⟩) contract hsize (show start + j < lefts.size by omega) h'
  · intro _ t' h'
    rwa [Nat.zero_add] at h'

/-! ## Draining -/

/-- A flush that hands a job back leaves fewer outstanding; one that does not was made
with none left. -/
theorem drainRound_sat (contract : M.Contract) (h : Working M lefts rights start m lo hi s t)
    (hm : m ≤ lefts.size) :
    Sat (drainRound M env) t
      (fun next t' => ∃ s', Working M lefts rights start m lo hi s' t' ∧
        match next with
        | some _ => (outstanding t'.log).length < (outstanding t.log).length
        | none => outstanding t'.log = [])
      (Refused lefts rights (Cause M lefts rights env)) := by
  unfold drainRound
  apply Sat.bind
  apply isalSha256CtxMgrFlush_sat h.tls
  intro a ha
  apply Sat.bind
  apply panicIf_sat
  · intro hrc
    refine refused_of_cause (Cause.flush fun hobliging => hrc ?_) ?_
    · rw [ha]
      exact hobliging.flush h.holds h.unchanged
    · rw [log_answered_of_ne _ hrc]
      exact h.accounts.safe
  intro hok
  have hrc : a.rc = 0 := Decidable.not_not.mp hok
  have hanswer := h.flush contract ha hrc
  have hlog : (t.answered s a []).log = handedBack a.done ++ t.log := by
    simp only [Thread.answered, if_pos hrc, List.append_nil]
  cases hdone : a.done with
  | none =>
      rw [hdone] at hanswer hlog
      refine Sat.ret ⟨_, hanswer, ?_⟩
      subst ha
      change outstanding (t.answered s _ []).log = []
      rw [hlog]
      exact contract.drained h.holds h.unchanged hrc hdone
  | some c =>
      rw [hdone] at hanswer hlog
      obtain ⟨before, hback⟩ := hanswer
      refine Sat.seq (leanHazmatIsalCollect_sat hback hm) ?_
      intro _ t' hpost
      obtain ⟨h', hsame⟩ := hpost
      refine Sat.ret ⟨_, h', ?_⟩
      have hbefore : before = t.log := by
        have heq := hback.log.symm.trans hlog
        exact (List.cons.inj heq).2
      obtain ⟨job, hjob, hctx, -⟩ := hback.completed
      rw [hbefore] at hjob
      change (outstanding t'.log).length < _
      rw [hsame, hback.log, hbefore]
      refine List.length_filter_lt_length_iff_exists.mpr ⟨job, hjob, ?_⟩
      simp [hctx]

/-- At most a chunk of jobs is outstanding. -/
theorem outstanding_length_le (h : Slots lefts rights start m t.log t.out) :
    (outstanding t.log).length ≤ leanHazmatSha256IsalChunk := by
  have hcard := h.ctx_nodup.length_le_card
  rwa [List.length_map, Fintype.card_fin] at hcard

/-- The drain loop ends, with nothing outstanding. -/
theorem drainLoop_sat (contract : M.Contract) (hm : m ≤ lefts.size) {fuel : Nat}
    (hfuel : leanHazmatSha256IsalChunk < fuel) (h : Working M lefts rights start m lo hi s t) :
    Sat (loop .timeout (fun _ : PUnit => drainRound M env) fuel ⟨⟩) t
      (fun _ t' => ∃ s', Working M lefts rights start m lo hi s' t' ∧ outstanding t'.log = [])
      (Refused lefts rights (Cause M lefts rights env)) := by
  refine Sat.loop (fun _ t => ∃ s', Working M lefts rights start m lo hi s' t)
    (fun _ t => (outstanding t.log).length) ?_ fuel PUnit.unit t ⟨s, h⟩ ?_
  · intro _ t' hpost
    obtain ⟨s', h'⟩ := hpost
    refine (drainRound_sat contract h' hm).mono ?_ fun _ _ he => he
    intro next t'' hpost
    obtain ⟨s'', h'', hnext⟩ := hpost
    cases next with
    | none => exact ⟨s'', h'', hnext⟩
    | some _ => exact ⟨⟨s'', h''⟩, hnext⟩
  · exact Nat.lt_of_le_of_lt (outstanding_length_le h.accounts.slots) hfuel

/-! ## Releasing -/

theorem releasePair_sat {c : Idx} (h : Working M lefts rights start m c.val hi s t)
    (hdrained : outstanding t.log = []) {E : Stop → Thread σ → Prop} :
    Sat (releasePair c.val) t
      (fun _ t' => ∃ s', Working M lefts rights start m (c.val + 1) hi s' t' ∧
        outstanding t'.log = []) E := by
  unfold releasePair
  apply Sat.bind
  apply tableIndex_sat c.isLt
  apply Sat.bind
  apply readScratch_sat h.tls
  cases hc : s.heap c with
  | none =>
      apply Sat.bind
      apply Sat.ret
      refine writeScratch_sat h.tls ?_
      exact ⟨_, h.skip hc, hdrained⟩
  | some block =>
      obtain ⟨cells, hlive⟩ := h.accounts.buffers.live c block hc
      apply Sat.bind
      apply free_sat hlive
      refine writeScratch_sat h.tls ?_
      exact ⟨_, h.free hdrained hc, hdrained⟩

/-- The release loop vacates every position. -/
theorem releaseLoop_sat {count : Nat} (hcount : count ≤ leanHazmatSha256IsalChunk)
    (h : Working M lefts rights start m 0 count s t) (hdrained : outstanding t.log = [])
    {E : Stop → Thread σ → Prop} :
    Sat (forUp releasePair 0 count) t (fun _ t' => ∃ s', Idle lefts rights m s' t') E := by
  refine (Sat.forUp
    (fun j t => ∃ s', Working M lefts rights start m j count s' t ∧ outstanding t.log = [])
    count 0 t ⟨s, h, hdrained⟩ ?_).mono ?_ fun _ _ he => he
  · intro j t' _ hj hpost
    obtain ⟨s', h', hdrained'⟩ := hpost
    have hlt : j < leanHazmatSha256IsalChunk := by omega
    exact releasePair_sat (c := ⟨j, hlt⟩) h' hdrained'
  · intro _ t' hpost
    obtain ⟨s', h', hdrained'⟩ := hpost
    rw [Nat.zero_add] at h'
    exact ⟨s', h'.idle hdrained'⟩

/-! ## The chunk -/

/-- A chunk takes an idle thread to an idle thread, with `count` more slots settled. -/
theorem leanHazmatIsalChunk_sat (contract : M.Contract) (hsize : rights.size = lefts.size)
    {count fuel : Nat} (hcount : count ≤ leanHazmatSha256IsalChunk)
    (hin : start + count ≤ lefts.size) (hfuel : leanHazmatSha256IsalChunk < fuel)
    (h : Idle lefts rights start s t) :
    Sat (leanHazmatIsalChunk M env fuel lefts rights start count) t
      (fun _ t' => ∃ s', Idle lefts rights (start + count) s' t')
      (Refused lefts rights (Cause M lefts rights env)) := by
  unfold leanHazmatIsalChunk
  have hinit := h.init (M.init s.mgr).2
  apply Sat.bind
  apply isalSha256CtxMgrInit_sat h.tls
  apply Sat.bind
  apply panicIf_sat
  · intro hrc
    exact refused_of_cause (Cause.init fun hobliging => hrc (hobliging.init s.mgr)) hinit.safe
  intro hrc
  have hholds : M.Holds (M.init s.mgr).2 s.ctxs (outstanding (.managerInit :: t.log)) := by
    rw [outstanding, h.drained]
    exact JobManager.Holds.init (Decidable.not_not.mp hrc)
  refine Sat.seq (submitLoop_sat contract hsize hcount hin ⟨hinit, rfl, hholds⟩) ?_
  intro _ t₁ hpost
  obtain ⟨s₁, h₁⟩ := hpost
  refine Sat.seq (drainLoop_sat contract hin hfuel h₁) ?_
  intro _ t₂ hpost
  obtain ⟨s₂, h₂, hdrained⟩ := hpost
  exact releaseLoop_sat hcount h₂ hdrained

end HazmatSha256.Isal
