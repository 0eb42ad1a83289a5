import HazmatSha256.Evp.Program
set_option autoImplicit false

/-!
# Evp: runs of the shims

The scalar calls leave nothing behind but a context block that has come and gone.  The
loop backend feeds one pair a round to a context it keeps, and ends where the
multi-buffer backend ends: with the batch delivered.
-/

namespace HazmatSha256.Evp

open Foundation Boxed Isal

variable {σ κ : Type} {E : EvpMd κ} {env : Env σ} {lefts rights : LeanArray}
variable {t : Thread σ}

/-! ## Giving up -/

/-- Why a call into the message-digest library can end in a panic. -/
inductive Cause (E : EvpMd κ) (env : Env σ) : String → Prop
  | ctxMemory (h : ¬ env.Grants) : Cause E env textCtxNew
  | objectMemory (h : ¬ env.Grants) : Cause E env textObjectMemory
  | hashMemory (h : ¬ env.Grants) : Cause E env textHash
  | hash (h : ¬ E.Obliging) : Cause E env textHash
  | combine (h : ¬ E.Obliging) : Cause E env textCombine
  | batch (h : ¬ E.Obliging) : Cause E env textBatch

theorem Cause.not_served {msg : String} (hcause : Cause E env msg) :
    ¬ (E.Obliging ∧ env.Grants) := by
  intro hserved
  obtain ⟨hobliging, hgrants⟩ := hserved
  cases hcause with
  | ctxMemory h => exact h hgrants
  | objectMemory h => exact h hgrants
  | hashMemory h => exact h hgrants
  | hash h => exact h hobliging
  | combine h => exact h hobliging
  | batch h => exact h hobliging

/-- A scalar call that did not return has panicked, with a cause. -/
def Panicked (E : EvpMd κ) (env : Env σ) (e : Stop) (_ : Thread σ) : Prop :=
  ∃ msg, e = .panic msg ∧ Cause E env msg

theorem not_obliging_of_digest {ctx : κ} {pieces : List (List UInt8)}
    (hnone : (E.digest ctx pieces).1 = none) : ¬ E.Obliging :=
  fun hobliging => EvpMd.digest_ne_none hobliging ctx pieces hnone

/-! ## Digest objects -/

/-- A digest fills its object. -/
theorem written_hash {object : List UInt8} (hobject : object.length = leanHazmatSha256DigestLen)
    (bytes : ByteArray) : written object (Spec.hash bytes).data.toList = Spec.hash bytes := by
  have hlen : (Spec.hash bytes).data.toList.length = object.length := by
    rw [Spec.length_hash, hobject]
    rfl
  rw [written, overwrite_all hlen]

/-- The two pieces of a pair, digested one after the other. -/
theorem written_combine (contract : E.Contract) {object digest : List UInt8} {ctx : κ}
    {left right : LeanSarray} (hobject : object.length = leanHazmatSha256DigestLen)
    (hdigest : (E.digest ctx [left.cptr, right.cptr]).1 = some digest) :
    written object digest = Spec.combine left.bytes right.bytes := by
  have hconcat : (⟨[left.cptr, right.cptr].flatten.toArray⟩ : ByteArray) =
      left.bytes ++ right.bytes := by
    rw [ByteArray.ext_iff, ByteArray.data_append]
    simp [LeanSarray.cptr]
  rw [EvpMd.digest_eq contract hdigest, hconcat]
  exact written_hash hobject _

/-! ## The scalar shims -/

/-- The thread after a context block has come and gone, and a digest object. -/
def passed (E : EvpMd κ) (t : Thread σ) (block : Nat) : Thread σ :=
  { t with
    mem := t.mem.set (.heap block) none
    clock := t.clock + 2
    log := .free block :: .malloc block E.sizeofCtx :: t.log }

/-- A block that has come and gone leaves a thread between calls where it was. -/
theorem passed_resting (hresting : t.Resting) (block : Nat) : (passed E t block).Resting :=
  hresting.frame rfl (lane_set_heap t.mem block none)

theorem leanHazmatSha256Hash_sat (contract : E.Contract) (input : LeanSarray) :
    Sat (leanHazmatSha256Hash E env input) t
      (fun d t' => d = Spec.hash input.bytes ∧ t' = passed E t (t.clock + 1))
      (Panicked E env) := by
  unfold leanHazmatSha256Hash leanHazmatSha256Raw evpMdCtxNew evpMdCtxFree
  apply Sat.bind
  apply leanAllocSarray_sat
  · intro hnull
    exact ⟨textObjectMemory, rfl, .objectMemory (not_grants hnull)⟩
  apply Sat.bind
  apply Sat.bind
  apply malloc_sat
  · intro hnull
    exact Sat.ret (Sat.stop ⟨textHash, rfl, .hashMemory (not_grants hnull)⟩)
  dsimp only
  apply Sat.bind
  apply free_sat (Memory.set_self _ _ _)
  apply Sat.ret
  cases hdigest : (E.digest E.fresh [input.cptr]).1 with
  | none => exact Sat.stop ⟨textHash, rfl, .hash (not_obliging_of_digest hdigest)⟩
  | some digest =>
      apply Sat.ret
      constructor
      · have hinput : (⟨[input.cptr].flatten.toArray⟩ : ByteArray) = input.bytes := by
          simp [LeanSarray.cptr]
        rw [EvpMd.digest_eq contract hdigest, hinput]
        exact written_hash (env.length_fresh _ _) _
      · rw [passed, Memory.set_set]

theorem leanHazmatSha256Combine_sat (contract : E.Contract) (left right : LeanSarray) :
    Sat (leanHazmatSha256Combine E env left right) t
      (fun d t' => d = Spec.combine left.bytes right.bytes ∧ t' = passed E t t.clock)
      (Panicked E env) := by
  unfold leanHazmatSha256Combine evpMdCtxNew evpMdCtxFree
  apply Sat.bind
  apply malloc_sat
  · intro hnull
    exact Sat.stop ⟨textCtxNew, rfl, .ctxMemory (not_grants hnull)⟩
  dsimp only
  apply Sat.bind
  apply leanAllocSarray_sat
  · intro hnull
    exact ⟨textObjectMemory, rfl, .objectMemory (not_grants hnull)⟩
  apply Sat.bind
  apply free_sat (Memory.set_self _ _ _)
  cases hdigest : (E.digest E.fresh [left.cptr, right.cptr]).1 with
  | none => exact Sat.stop ⟨textCombine, rfl, .combine (not_obliging_of_digest hdigest)⟩
  | some digest =>
      apply Sat.ret
      refine ⟨written_combine contract (env.length_fresh _ _) hdigest, ?_⟩
      rw [passed, Memory.set_set]

/-! ## The loop backend -/

/-- The loop before round `i`: the slots below `i` are settled, and the context block is
the one block of the call. -/
structure Feeding (lefts rights : LeanArray) (block i : Nat) (t : Thread σ) : Prop where
  slots : Slots lefts rights 0 i t.log t.out
  drained : outstanding t.log = []
  orderly : Orderly t.log
  allocated : mallocs t.log = [block]
  kept : frees t.log = []
  live : ∃ cells, t.mem (.heap block) = some cells
  resting : t.Resting

namespace Feeding

variable {block i : Nat}

/-- The context block has just been allocated. -/
theorem start (ready : t.Ready) (hout : t.out.size = lefts.size) (size : Nat)
    (cells : List UInt8) :
    Feeding lefts rights t.clock 0
      { t with
        mem := t.mem.set (.heap t.clock) (some cells)
        clock := t.clock + 1
        log := .malloc t.clock size :: t.log } := by
  rw [ready.log]
  have hquiet : Orderly [.malloc t.clock size] := ⟨fun _ hjob => (by cases hjob), trivial⟩
  refine ⟨(Slots.empty hout).other rfl rfl, rfl, hquiet, rfl, rfl,
    ⟨cells, Memory.set_self _ _ _⟩, ?_⟩
  exact ready.resting.frame rfl (lane_set_heap t.mem t.clock (some cells))

theorem safe (h : Feeding lefts rights block i t) : Safe lefts rights t.log := by
  refine ⟨h.orderly, h.slots.once, h.slots.digests, ?_, ?_⟩
  · rw [h.kept]
    exact List.nodup_nil
  · intro b hb
    rw [h.kept] at hb
    cases hb

/-- The block is given back, from whatever round. -/
theorem safe_free (h : Feeding lefts rights block i t) :
    Safe lefts rights (.free block :: t.log) := by
  have hslots := h.slots.other (e := .free block) rfl rfl
  refine ⟨h.orderly.extend ?_, hslots.once, hslots.digests, ?_, ?_⟩
  · intro job hjob
    rw [h.drained] at hjob
    cases hjob
  · rw [frees_free, h.kept]
    exact List.nodup_singleton block
  · intro b hb
    rw [frees_free, h.kept] at hb
    rw [mallocs_other t.log rfl, h.allocated]
    exact hb

/-- A digest object is allocated. -/
theorem tick (h : Feeding lefts rights block i t) :
    Feeding lefts rights block i { t with clock := t.clock + 1 } :=
  ⟨h.slots, h.drained, h.orderly, h.allocated, h.kept, h.live, h.resting⟩

/-- The digest of the next pair is stored. -/
theorem store (h : Feeding lefts rights block i t) {d : ByteArray}
    (hd : digestAt lefts rights i = some d) (hin : i < t.out.size) :
    Feeding lefts rights block (i + 1)
      { t with out := t.out.set i (some d) hin, log := .store i d :: t.log } := by
  refine ⟨h.slots.store h.drained hd hin, h.drained, h.orderly.extend_harmless fun _ hd => hd,
    ?_, ?_, h.live, h.resting⟩
  · exact (mallocs_other t.log rfl).trans h.allocated
  · exact (frees_other t.log rfl).trans h.kept

/-- After the last round the block is given back, and the batch is delivered. -/
theorem delivered (h : Feeding lefts rights block lefts.size t)
    (hsize : rights.size = lefts.size) :
    Delivered lefts rights
      { t with mem := t.mem.set (.heap block) none, log := .free block :: t.log } := by
  have hbook : Book.Reachable ⟨mallocs t.log, block :: frees t.log, []⟩ := by
    rw [h.allocated, h.kept]
    have hissued := Book.reachable_empty.issue (List.not_mem_nil (a := block)) (.refl [block])
    exact hissued.settle (.refl [block])
  refine delivered_of_books hsize (h.slots.other rfl rfl) h.drained h.safe_free.orderly ?_ ?_
  · rw [mallocs_other t.log rfl, frees_free]
    exact hbook
  · exact h.resting.frame rfl (lane_set_heap t.mem block none)

end Feeding

/-- One round settles the next slot. -/
theorem combinePair_sat (contract : E.Contract) (hsize : rights.size = lefts.size)
    {block i : Nat} (ctx : κ) (hi : i < lefts.size) (h : Feeding lefts rights block i t) :
    Sat (combinePair E env lefts rights block i ctx) t
      (fun _ t' => Feeding lefts rights block (i + 1) t')
      (Refused lefts rights (Cause E env)) := by
  obtain ⟨l, r, hl, hr, hpair⟩ := exists_pair hsize hi
  unfold combinePair evpMdCtxFree leanHazmatSha256CombineInto
  apply Sat.bind
  apply leanArrayGetCore_sat hl
  apply Sat.bind
  apply leanArrayGetCore_sat hr
  apply Sat.bind
  apply leanAllocSarray_sat
  · intro hnull
    exact refused_of_cause (.objectMemory (not_grants hnull)) h.safe
  cases hdigest : E.digest ctx [l.cptr, r.cptr] with
  | mk made ctx' =>
      have hmade : (E.digest ctx [l.cptr, r.cptr]).1 = made := by rw [hdigest]
      cases made with
      | none =>
          obtain ⟨cells, hcells⟩ := h.tick.live
          apply Sat.bind
          apply free_sat hcells
          exact Sat.stop
            (refused_of_cause (.batch (not_obliging_of_digest hmade)) h.safe_free)
      | some digest =>
          have hd : digestAt lefts rights i =
              some (written (env.fresh t.clock leanHazmatSha256DigestLen) digest) := by
            rw [written_combine contract (env.length_fresh _ _) hmade, digestAt, hpair]
            rfl
          have hin := h.tick.slots.size.symm ▸ hi
          apply Sat.bind
          apply leanArraySetCore_sat hin
          exact Sat.ret (h.tick.store hd hin)

/-- The loop backend delivers the batch, as the multi-buffer backend does. -/
theorem leanHazmatSha256BatchEvp_sat (contract : E.Contract) (hsize : rights.size = lefts.size)
    (ready : t.Ready) (hout : t.out.size = lefts.size) :
    Sat (leanHazmatSha256BatchEvp E env lefts rights lefts.size) t
      (fun _ t' => Delivered lefts rights t') (Refused lefts rights (Cause E env)) := by
  unfold leanHazmatSha256BatchEvp evpMdCtxNew evpMdCtxFree
  apply Sat.bind
  apply malloc_sat
  · intro hnull
    refine Sat.stop (refused_of_cause (.ctxMemory (not_grants hnull)) ?_)
    rw [ready.log]
    exact safe_nil
  dsimp only
  refine Sat.seq (Sat.forWith (fun i _ t' => Feeding lefts rights t.clock i t') lefts.size 0
    E.fresh _ (Feeding.start ready hout _ _) ?_) ?_
  · intro i ctx t' _ hi h
    exact combinePair_sat contract hsize ctx (by omega) h
  · intro _ t' h
    rw [Nat.zero_add] at h
    obtain ⟨cells, hcells⟩ := h.live
    apply free_sat hcells
    exact h.delivered hsize

end HazmatSha256.Evp
