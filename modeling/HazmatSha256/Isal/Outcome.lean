import HazmatSha256.Isal.Accounts
set_option autoImplicit false

/-!
# Isal: outcomes of a call

What a thread is like between calls, what a call that returned has done, and what one
that panicked had done by then.  Nothing here mentions chunks or lanes.
-/

namespace HazmatSha256.Isal

open Foundation Boxed

variable {σ : Type}

/-! ## Between calls -/

/-- The scratch an earlier call left behind: no heap block, and the lane buffers. -/
structure Reusable (s : Scratch σ) (mem : Mem) : Prop where
  vacant : ∀ c, s.heap c = none
  lanes : ∀ c, ∃ cells, mem (.lane c) = some cells ∧ cells.length = leanHazmatSha256IsalLaneBytes

/-- A thread between two calls. -/
def Thread.Resting (t : Thread σ) : Prop := ∀ s, t.tls = some s → Reusable s t.mem

/-- What happens to heap blocks does not reach the scratch. -/
theorem Thread.Resting.frame {t t' : Thread σ} (h : t.Resting) (htls : t'.tls = t.tls)
    (hlanes : ∀ c, t'.mem (.lane c) = t.mem (.lane c)) : t'.Resting := by
  intro s hs
  rw [htls] at hs
  have hscratch := h s hs
  refine ⟨hscratch.vacant, ?_⟩
  intro c
  rw [hlanes c]
  exact hscratch.lanes c

theorem lane_set_heap (mem : Mem) (block : Nat) (cells : Option (List UInt8)) (c : Idx) :
    mem.set (.heap block) cells (.lane c) = mem (.lane c) :=
  Memory.set_ne (by simp)

/-- A thread at the start of a batch. -/
structure Thread.Ready (t : Thread σ) : Prop where
  log : t.log = []
  resting : t.Resting

/-! ## After a call -/

/-- What a call that returned has done. -/
structure Delivered (lefts rights : LeanArray) (t : Thread σ) : Prop where
  /-- Each slot was written once, with the digest of its pair. -/
  digests : ∀ i, i < lefts.size → ∃ l r, pair? lefts rights i = some (l, r) ∧
    digestsInto i t.log = [Spec.combine l.bytes r.bytes]
  /-- Nothing else was written to the output. -/
  slots : ∀ i, i ∈ stored t.log → i < lefts.size
  out : t.out = (Spec.sha256BatchCombineSpec lefts.toArray rights.toArray).map some
  /-- At no moment was the buffer or the context of an outstanding job touched. -/
  undisturbed : ∀ later earlier e, t.log = later ++ e :: earlier →
    ∀ job ∈ outstanding earlier, ¬ e.Disturbs job
  drained : outstanding t.log = []
  distinct : (mallocs t.log).Nodup
  /-- Each heap buffer was freed once, and nothing else was. -/
  freed : ∀ block ∈ mallocs t.log, (frees t.log).count block = 1
  freedOwn : ∀ block ∈ frees t.log, block ∈ mallocs t.log
  resting : t.Resting

/-- What a log still owes the caller when the run has given up. -/
structure Safe (lefts rights : LeanArray) (log : List Event) : Prop where
  orderly : Orderly log
  once : (stored log).Nodup
  digests : ∀ i d, Event.store i d ∈ log → digestAt lefts rights i = some d
  freedOnce : (frees log).Nodup
  freedOwn : ∀ block ∈ frees log, block ∈ mallocs log

/-- The only way not to return: a panic that names its cause, with a log that is still
safe. -/
structure Refused (lefts rights : LeanArray) (cause : String → Prop) (e : Stop) (t : Thread σ) :
    Prop where
  cause : ∃ msg, e = .panic msg ∧ cause msg
  safe : Safe lefts rights t.log

theorem refused_of_cause {lefts rights : LeanArray} {cause : String → Prop} {msg : String}
    {t : Thread σ} (hcause : cause msg) (hsafe : Safe lefts rights t.log) :
    Refused lefts rights cause (.panic msg) t :=
  ⟨⟨msg, rfl, hcause⟩, hsafe⟩

theorem not_grants {env : Env σ} {time size : Nat} (hnull : env.grants time size ≠ true) :
    ¬ env.Grants :=
  fun hgrants => hnull (hgrants time size)

theorem safe_nil {lefts rights : LeanArray} : Safe lefts rights [] :=
  ⟨trivial, List.nodup_nil, fun _ _ hmem => (by cases hmem), List.nodup_nil,
    fun _ hmem => (by cases hmem)⟩

/-- Both books closed and nothing outstanding is all a call has to end in. -/
theorem delivered_of_books {lefts rights : LeanArray} {start : Nat} {t : Thread σ}
    (hsize : rights.size = lefts.size) (hslots : Slots lefts rights start lefts.size t.log t.out)
    (hdrained : outstanding t.log = []) (horderly : Orderly t.log)
    (hblocks : Book.Reachable ⟨mallocs t.log, frees t.log, []⟩) (hresting : t.Resting) :
    Delivered lefts rights t := by
  refine ⟨?_, ?_, hslots.out_eq hdrained, ?_, hdrained, hblocks.balanced.nodup, ?_, ?_, hresting⟩
  · intro i hi
    obtain ⟨l, r, -, -, hpair⟩ := exists_pair hsize hi
    obtain ⟨d, hd, honce, -⟩ := hslots.settled hdrained hi
    refine ⟨l, r, hpair, ?_⟩
    rw [digestAt, hpair] at hd
    rw [honce, ← Option.some.inj hd]
  · intro i hi
    have hissued := hslots.book.balanced.mem_issued_of_settled hi
    simpa using hissued
  · intro later earlier e hsplit
    exact Respects.undisturbed horderly hsplit
  · intro block hblock
    exact hblocks.balanced.count_settled rfl hblock
  · intro block hblock
    exact hblocks.balanced.mem_issued_of_settled hblock

end HazmatSha256.Isal
