import HazmatSha256.Foundation.Settlement
import HazmatSha256.Isal.Program
set_option autoImplicit false

/-!
# Isal: the accounts of a chunk

Two books are kept while a chunk is worked on.  In the first an output slot is
issued when its pair is submitted and settled when its digest is stored.  In the
second a heap block is issued by `malloc` and settled by `free`.  Beside them
stands what is known about each outstanding job.  Everything here is about the
data of one moment; the runs come in `Isal.Chunk`.
-/

namespace HazmatSha256.Isal

open Foundation Boxed

variable {σ : Type} (lefts rights : LeanArray)

/-! ## The output slots -/

/-- The slots below `m` have been issued, in a chunk that begins at `start`. -/
structure Slots (start m : Nat) (log : List Event) (out : Array (Option ByteArray)) : Prop where
  book : Book.Reachable
    ⟨(List.range m).reverse, stored log, (outstanding log).map fun job => start + job.ctx.val⟩
  digests : ∀ i d, Event.store i d ∈ log → digestAt lefts rights i = some d
  filled : ∀ i d, Event.store i d ∈ log → out[i]? = some (some d)
  size : out.size = lefts.size

namespace Slots

variable {lefts rights} {start m : Nat} {log : List Event} {out : Array (Option ByteArray)}

/-- At the start of a call. -/
theorem empty (hsize : out.size = lefts.size) : Slots lefts rights start 0 [] out :=
  ⟨Book.reachable_empty, fun _ _ hmem => (by cases hmem), fun _ _ hmem => (by cases hmem), hsize⟩

/-- An outstanding job belongs to a slot already issued. -/
theorem slot_lt (h : Slots lefts rights start m log out) {job : Job}
    (hjob : job ∈ outstanding log) :
    start + job.ctx.val < m := by
  have hmem := h.book.balanced.mem_issued_of_pending
    (List.mem_map_of_mem (f := fun job : Job => start + job.ctx.val) hjob)
  rw [List.mem_reverse, List.mem_range] at hmem
  exact hmem

/-- No two outstanding jobs share a context. -/
theorem ctx_nodup (h : Slots lefts rights start m log out) :
    ((outstanding log).map Job.ctx).Nodup := by
  have hslots : ((outstanding log).map fun job => start + job.ctx.val).Nodup :=
    h.book.balanced.pending_nodup
  refine List.Nodup.of_map (fun c : Idx => start + c.val) ?_
  rwa [List.map_map]

theorem once (h : Slots lefts rights start m log out) : (stored log).Nodup :=
  h.book.balanced.settled_nodup

/-- An event that neither stores nor changes what is outstanding. -/
theorem other {e : Event} (h : Slots lefts rights start m log out) (he : e.slot? = none)
    (hout : outstanding (e :: log) = outstanding log) :
    Slots lefts rights start m (e :: log) out := by
  have hold : ∀ {i d}, Event.store i d ∈ e :: log → Event.store i d ∈ log := by
    intro i d hmem
    rcases List.mem_cons.mp hmem with rfl | hmem
    · cases he
    · exact hmem
  refine ⟨?_, fun i d hmem => h.digests i d (hold hmem), fun i d hmem => h.filled i d (hold hmem),
    h.size⟩
  rw [stored_other log he, hout]
  exact h.book

/-- A submission issues the next slot. -/
theorem submit (h : Slots lefts rights start m log out) {job : Job}
    (hnext : start + job.ctx.val = m) :
    Slots lefts rights start (m + 1) (.submit job :: log) out := by
  have hold : ∀ {i d}, Event.store i d ∈ Event.submit job :: log → Event.store i d ∈ log := by
    intro i d hmem
    cases hmem with
    | tail _ hmem => exact hmem
  refine ⟨?_, fun i d hmem => h.digests i d (hold hmem), fun i d hmem => h.filled i d (hold hmem),
    h.size⟩
  have hfresh : m ∉ (List.range m).reverse := by simp
  rw [List.range_succ, List.reverse_append, outstanding, List.map_cons, hnext]
  exact h.book.issue hfresh (List.Perm.refl _)

/-- One more store, into a slot not written before, with the digest that belongs there. -/
theorem stored_once (h : Slots lefts rights start m log out) (log' : List Event) {i : Nat}
    {d : ByteArray} (hfresh : i ∉ stored log) (hd : digestAt lefts rights i = some d)
    (hin : i < out.size)
    (hlog : ∀ j d', Event.store j d' ∈ log' → (j = i ∧ d' = d) ∨ Event.store j d' ∈ log) :
    (∀ j d', Event.store j d' ∈ log' → digestAt lefts rights j = some d') ∧
      ∀ j d', Event.store j d' ∈ log' → (out.set i (some d) hin)[j]? = some (some d') := by
  constructor
  · intro j d' hmem
    rcases hlog j d' hmem with ⟨rfl, rfl⟩ | hold
    · exact hd
    · exact h.digests j d' hold
  · intro j d' hmem
    rcases hlog j d' hmem with ⟨rfl, rfl⟩ | hold
    · simp
    · have hne : i ≠ j := by
        intro heq
        subst heq
        exact hfresh (mem_stored.mpr ⟨d', hold⟩)
      rw [Array.getElem?_set_ne hin hne]
      exact h.filled j d' hold

/-- A hand-back followed by its store settles the slot of the job. -/
theorem collect (h : Slots lefts rights start m log out) {job : Job}
    (hjob : job ∈ outstanding log) {d : ByteArray}
    (hd : digestAt lefts rights (start + job.ctx.val) = some d)
    (hin : start + job.ctx.val < out.size) :
    Slots lefts rights start m
      (.store (start + job.ctx.val) d :: .handBack job.ctx :: log)
      (out.set (start + job.ctx.val) (some d) hin) := by
  have hpending := List.mem_map_of_mem (f := fun job : Job => start + job.ctx.val) hjob
  have hcloses := (perm_cons_filter_key_ne Job.ctx h.ctx_nodup hjob).map
    fun job : Job => start + job.ctx.val
  have hnew := h.stored_once (.store (start + job.ctx.val) d :: .handBack job.ctx :: log)
    (h.book.balanced.not_settled hpending) hd hin
  obtain ⟨hdigests, hfilled⟩ := hnew (by
    intro j d' hmem
    cases hmem with
    | head => exact Or.inl ⟨rfl, rfl⟩
    | tail _ hmem =>
        cases hmem with
        | tail _ hmem => exact Or.inr hmem)
  refine ⟨h.book.settle hcloses, hdigests, hfilled, ?_⟩
  rw [Array.size_set]
  exact h.size

/-- A store with no job behind it issues the next slot and settles it at once. -/
theorem store (h : Slots lefts rights start m log out) (hdrained : outstanding log = [])
    {d : ByteArray} (hd : digestAt lefts rights m = some d) (hin : m < out.size) :
    Slots lefts rights start (m + 1) (.store m d :: log) (out.set m (some d) hin) := by
  have hfresh : m ∉ (List.range m).reverse := by simp
  have hnotStored : m ∉ stored log :=
    fun hmem => hfresh (h.book.balanced.mem_issued_of_settled hmem)
  obtain ⟨hdigests, hfilled⟩ := h.stored_once (.store m d :: log) hnotStored hd hin (by
    intro j d' hmem
    cases hmem with
    | head => exact Or.inl ⟨rfl, rfl⟩
    | tail _ hmem => exact Or.inr hmem)
  refine ⟨?_, hdigests, hfilled, ?_⟩
  · have hbook := h.book
    rw [hdrained, List.map_nil] at hbook
    rw [List.range_succ, List.reverse_append, outstanding, hdrained, List.map_nil]
    exact (hbook.issue hfresh (List.Perm.refl [m])).settle (List.Perm.refl [m])
  · rw [Array.size_set]
    exact h.size

/-- With nothing outstanding it does not matter where the next chunk begins. -/
theorem restart (h : Slots lefts rights start m log out) (hdone : outstanding log = [])
    (start' : Nat) : Slots lefts rights start' m log out := by
  refine ⟨?_, h.digests, h.filled, h.size⟩
  have hbook := h.book
  rw [hdone] at hbook ⊢
  exact hbook

/-- With every slot issued and nothing outstanding, each slot has been written once. -/
theorem settled (h : Slots lefts rights start lefts.size log out) (hdrained : outstanding log = [])
    {i : Nat} (hi : i < lefts.size) :
    ∃ d, digestAt lefts rights i = some d ∧ digestsInto i log = [d] ∧
      out[i]? = some (some d) := by
  have hissued : i ∈ (List.range lefts.size).reverse := by simpa using hi
  have hpending : (outstanding log).map (fun job => start + job.ctx.val) = [] := by
    rw [hdrained, List.map_nil]
  have hcount := h.book.balanced.count_settled hpending hissued
  obtain ⟨d, hd⟩ := mem_stored.mp (List.count_pos_iff.mp (by rw [hcount]; exact Nat.one_pos))
  have hdigest := h.digests i d hd
  refine ⟨d, hdigest, digestsInto_eq_singleton hcount ?_, h.filled i d hd⟩
  intro d' hd'
  have hdigest' := h.digests i d' hd'
  rw [hdigest] at hdigest'
  exact (Option.some.inj hdigest').symm

/-- With every slot issued and nothing outstanding, the output is the reference's. -/
theorem out_eq (h : Slots lefts rights start lefts.size log out)
    (hdrained : outstanding log = []) :
    out = (Spec.sha256BatchCombineSpec lefts.toArray rights.toArray).map some := by
  refine Array.ext_getElem? fun i => ?_
  rw [Array.getElem?_map, sha256BatchCombineSpec_getElem?]
  by_cases hi : i < lefts.size
  · obtain ⟨d, hd, -, hout⟩ := h.settled hdrained hi
    rw [hd, hout]
    rfl
  · have hge : lefts.size ≤ i := Nat.le_of_not_lt hi
    rw [Array.getElem?_eq_none (by rw [h.size]; exact hge), digestAt_eq_none hge]
    rfl

end Slots

/-! ## The outstanding jobs -/

/-- Where the pair at position `c` lives. -/
def bufOf (heap : Idx → Option Nat) (c : Idx) : Buf :=
  match heap c with
  | some block => .heap block
  | none => .lane c

theorem bufOf_some {heap : Idx → Option Nat} {c : Idx} {block : Nat} (h : heap c = some block) :
    bufOf heap c = .heap block := by
  rw [bufOf, h]

theorem bufOf_none {heap : Idx → Option Nat} {c : Idx} (h : heap c = none) :
    bufOf heap c = .lane c := by
  rw [bufOf, h]

/-- Two positions never share a buffer. -/
theorem bufOf_ne {heap : Idx → Option Nat} (hnodup : (entries heap).Nodup) {c c' : Idx}
    (hne : c ≠ c') : bufOf heap c ≠ bufOf heap c' := by
  intro heq
  cases hc : heap c with
  | none =>
      cases hc' : heap c' with
      | none =>
          rw [bufOf_none hc, bufOf_none hc'] at heq
          exact hne (Buf.lane.inj heq)
      | some block' =>
          rw [bufOf_none hc, bufOf_some hc'] at heq
          cases heq
  | some block =>
      cases hc' : heap c' with
      | none =>
          rw [bufOf_some hc, bufOf_none hc'] at heq
          cases heq
      | some block' =>
          rw [bufOf_some hc, bufOf_some hc'] at heq
          cases heq
          exact hne (index_unique hnodup hc hc')

/-- What is known about a job from its submission until it is handed back: its
context names its slot, it was submitted with the pair of that slot, and its
buffer, the one of its position, still holds that pair. -/
structure InCustody (start : Nat) (s : Scratch σ) (mem : Mem) (job : Job) : Prop where
  slot : (s.ctxs job.ctx).userData = start + job.ctx.val
  pair : ∃ l r, pair? lefts rights (start + job.ctx.val) = some (l, r) ∧
    job.bytes = l.cptr ++ r.cptr
  intact : mem.load job.buf job.bytes.length = some job.bytes
  place : job.buf = bufOf s.heap job.ctx

namespace InCustody

variable {lefts rights} {start : Nat} {s s' : Scratch σ} {mem mem' : Mem} {job : Job}

/-- Custody depends on the context, the position and the buffer of the job only. -/
theorem frame (h : InCustody lefts rights start s mem job)
    (hctx : (s'.ctxs job.ctx).userData = (s.ctxs job.ctx).userData)
    (hheap : s'.heap job.ctx = s.heap job.ctx) (hmem : mem' job.buf = mem job.buf) :
    InCustody lefts rights start s' mem' job := by
  refine ⟨hctx.trans h.slot, h.pair, (Memory.load_congr hmem).trans h.intact, ?_⟩
  rw [h.place, bufOf, bufOf, hheap]

/-- The hash of what was submitted is the digest the slot asks for. -/
theorem digestAt_eq (h : InCustody lefts rights start s mem job) :
    digestAt lefts rights (start + job.ctx.val) = some (Spec.hash ⟨job.bytes.toArray⟩) := by
  obtain ⟨l, r, hpair, hbytes⟩ := h.pair
  have hconcat : (⟨job.bytes.toArray⟩ : ByteArray) = l.bytes ++ r.bytes := by
    rw [ByteArray.ext_iff, ByteArray.data_append, hbytes, ← List.append_toArray]
    rfl
  rw [digestAt, hpair, hconcat]
  rfl

end InCustody

/-! ## The pair buffers -/

/-- The heap blocks, occupied at positions from `lo` to below `hi` at most, and the
lane buffers. -/
structure Buffers (heap : Idx → Option Nat) (mem : Mem) (clock lo hi : Nat) (log : List Event) :
    Prop where
  book : Book.Reachable ⟨mallocs log, frees log, entries heap⟩
  old : ∀ block ∈ mallocs log, block < clock
  live : ∀ c block, heap c = some block → ∃ cells, mem (.heap block) = some cells
  vacant : ∀ c : Idx, c.val < lo ∨ hi ≤ c.val → heap c = none
  lanes : ∀ c, ∃ cells, mem (.lane c) = some cells ∧ cells.length = leanHazmatSha256IsalLaneBytes

namespace Buffers

variable {heap : Idx → Option Nat} {mem : Mem} {clock lo hi : Nat} {log : List Event}

/-- A block in the table is older than the clock. -/
theorem block_lt (h : Buffers heap mem clock lo hi log) {c : Idx} {block : Nat}
    (hc : heap c = some block) : block < clock :=
  h.old block (h.book.balanced.mem_issued_of_pending (mem_entries.mpr ⟨c, hc⟩))

theorem bufOf_ne (h : Buffers heap mem clock lo hi log) {c c' : Idx} (hne : c ≠ c') :
    Isal.bufOf heap c ≠ Isal.bufOf heap c' :=
  Isal.bufOf_ne h.book.balanced.pending_nodup hne

/-- No position uses a block that `malloc` has yet to hand out. -/
theorem bufOf_ne_fresh (h : Buffers heap mem clock lo hi log) (c : Idx) :
    Isal.bufOf heap c ≠ .heap clock := by
  intro heq
  cases hc : heap c with
  | none =>
      rw [bufOf_none hc] at heq
      cases heq
  | some block =>
      rw [bufOf_some hc] at heq
      cases heq
      exact Nat.lt_irrefl _ (h.block_lt hc)

/-- Time passes. -/
theorem tick (h : Buffers heap mem clock lo hi log) : Buffers heap mem (clock + 1) lo hi log :=
  ⟨h.book, fun b hb => Nat.lt_succ_of_lt (h.old b hb), h.live, h.vacant, h.lanes⟩

/-- One more position may be occupied. -/
theorem widen (h : Buffers heap mem clock lo hi log) : Buffers heap mem clock lo (hi + 1) log :=
  ⟨h.book, h.old, h.live, fun c hc => h.vacant c (by omega), h.lanes⟩

/-- An event that neither allocates nor frees. -/
theorem other {e : Event} (h : Buffers heap mem clock lo hi log) (hm : e.malloc? = none)
    (hf : e.free? = none) : Buffers heap mem clock lo hi (e :: log) := by
  refine ⟨?_, ?_, h.live, h.vacant, h.lanes⟩
  · rw [mallocs_other log hm, frees_other log hf]
    exact h.book
  · rw [mallocs_other log hm]
    exact h.old

/-- A write that keeps the length of its block. -/
theorem write {buf : Buf} {cells cells' : List UInt8} (h : Buffers heap mem clock lo hi log)
    (hbuf : mem buf = some cells) (hlen : cells'.length = cells.length) :
    Buffers heap (mem.set buf (some cells')) clock lo hi log := by
  refine ⟨h.book, h.old, ?_, h.vacant, ?_⟩
  · intro c block hc
    by_cases heq : Buf.heap block = buf
    · exact ⟨cells', by rw [heq, Memory.set_self]⟩
    · obtain ⟨old, hold⟩ := h.live c block hc
      exact ⟨old, by rw [Memory.set_ne heq, hold]⟩
  · intro c
    obtain ⟨old, hold, hsize⟩ := h.lanes c
    by_cases heq : Buf.lane c = buf
    · have hsame : old = cells := by
        rw [heq, hbuf] at hold
        exact (Option.some.inj hold).symm
      exact ⟨cells', by rw [heq, Memory.set_self], by rw [hlen, ← hsame, hsize]⟩
    · exact ⟨old, by rw [Memory.set_ne heq, hold], hsize⟩

/-- `malloc` for a vacant position. -/
theorem malloc {c : Idx} {size : Nat} {cells : List UInt8} (h : Buffers heap mem clock lo hi log)
    (hvacant : heap c = none) (hlo : lo ≤ c.val) (hhi : c.val < hi) :
    Buffers (Function.update heap c (some clock)) (mem.set (.heap clock) (some cells))
      (clock + 1) lo hi (.malloc clock size :: log) := by
  have hfresh : clock ∉ mallocs log := fun hmem => Nat.lt_irrefl _ (h.old clock hmem)
  refine ⟨h.book.issue hfresh (entries_fill hvacant clock), ?_, ?_, ?_, ?_⟩
  · intro block hblock
    rcases List.mem_cons.mp hblock with rfl | hold
    · exact Nat.lt_succ_self _
    · exact Nat.lt_succ_of_lt (h.old block hold)
  · intro c' block hc'
    by_cases heq : Buf.heap block = Buf.heap clock
    · exact ⟨cells, by rw [heq, Memory.set_self]⟩
    · have hne : c' ≠ c := by
        rintro rfl
        rw [Function.update_self] at hc'
        exact heq (congrArg Buf.heap (Option.some.inj hc').symm)
      rw [Function.update_of_ne hne] at hc'
      obtain ⟨old, hold⟩ := h.live c' block hc'
      exact ⟨old, by rw [Memory.set_ne heq, hold]⟩
  · intro c' hc'
    have hne : c' ≠ c := by
      rintro rfl
      omega
    rw [Function.update_of_ne hne]
    exact h.vacant c' hc'
  · intro c'
    obtain ⟨old, hold, hsize⟩ := h.lanes c'
    exact ⟨old, by rw [Memory.set_ne (by simp), hold], hsize⟩

/-- `free` of the block at the first position. -/
theorem free {c : Idx} {block : Nat} (h : Buffers heap mem clock c.val hi log)
    (hc : heap c = some block) :
    Buffers (Function.update heap c none) (mem.set (.heap block) none) clock (c.val + 1) hi
      (.free block :: log) := by
  refine ⟨h.book.settle (entries_clear hc), h.old, ?_, ?_, ?_⟩
  · intro c' block' hc'
    have hne : c' ≠ c := by
      rintro rfl
      rw [Function.update_self] at hc'
      cases hc'
    rw [Function.update_of_ne hne] at hc'
    have hblock : Buf.heap block' ≠ Buf.heap block := by
      intro heq
      cases heq
      exact hne (index_unique h.book.balanced.pending_nodup hc' hc)
    obtain ⟨old, hold⟩ := h.live c' block' hc'
    exact ⟨old, by rw [Memory.set_ne hblock, hold]⟩
  · intro c' hc'
    by_cases hne : c' = c
    · rw [hne, Function.update_self]
    · have hval : c'.val ≠ c.val := fun heq => hne (Fin.ext heq)
      rw [Function.update_of_ne hne]
      exact h.vacant c' (by omega)
  · intro c'
    obtain ⟨old, hold, hsize⟩ := h.lanes c'
    exact ⟨old, by rw [Memory.set_ne (by simp), hold], hsize⟩

/-- Nothing to free at the first position. -/
theorem skip {c : Idx} (h : Buffers heap mem clock c.val hi log) (hc : heap c = none) :
    Buffers (Function.update heap c none) mem clock (c.val + 1) hi log := by
  have hsame : Function.update heap c none = heap := by rw [← hc, Function.update_eq_self]
  rw [hsame]
  refine ⟨h.book, h.old, h.live, ?_, h.lanes⟩
  intro c' hc'
  by_cases hne : c' = c
  · rw [hne, hc]
  · have hval : c'.val ≠ c.val := fun heq => hne (Fin.ext heq)
    exact h.vacant c' (by omega)

/-- Once every position is vacant, the bounds are those of an empty chunk. -/
theorem reset (h : Buffers heap mem clock hi hi log) : Buffers heap mem clock 0 0 log :=
  ⟨h.book, h.old, h.live, fun c _ => h.vacant c (Nat.lt_or_ge c.val hi), h.lanes⟩

end Buffers

end HazmatSha256.Isal
