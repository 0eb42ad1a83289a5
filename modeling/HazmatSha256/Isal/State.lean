import HazmatSha256.Foundation.Exec
import HazmatSha256.Isal.Log
set_option autoImplicit false

/-!
# Isal: the thread and the primitives

The state of one thread while it runs a batch, and the calls the shim makes into
the C library, the Lean runtime and ISA-L.  Only the definitions of this file
touch the thread; each comes with the rule by which the proofs step over it.
Undefined behaviour is a `fault` and never a value.
-/

namespace HazmatSha256.Isal

open Foundation Boxed

/-! ## Stops -/

inductive Fault where
  | nullScratch
  | tableIndex
  | arrayIndex
  | badBuffer
  | badFree
  | misaligned
  | placeholder
  deriving DecidableEq

/-- Why a run did not return. -/
inductive Stop where
  | panic (msg : String)
  | fault (what : Fault)
  | timeout
  deriving DecidableEq

/-! ## The thread -/

/-- `lean_hazmat_isal_scratch`.  The lane buffers are memory and live there. -/
structure Scratch (σ : Type) where
  mgr : σ
  ctxs : CtxTable
  heap : Idx → Option Nat

/-- A thread in a call: its scratch if it has one, its memory, the number of
allocations it has asked for, the output array (a slot without digest holds the
placeholder), and the log of the call. -/
structure Thread (σ : Type) where
  tls : Option (Scratch σ)
  mem : Mem
  clock : Nat
  out : Array (Option ByteArray)
  log : List Event

/-- What the host decides: which allocations succeed, what fresh memory holds,
and the sizes of the types of the library, which C bounds as it does every object. -/
structure Env (σ : Type) where
  grants : (time size : Nat) → Bool
  garbage : (time offset : Nat) → UInt8
  rawMgr : Nat → σ
  rawCtxs : Nat → CtxTable
  sizeofScratch : Nat
  sizeofMgr : Nat
  sizeofCtx : Nat
  mgrFits : sizeofMgr ≤ ptrdiffMax
  ctxsFits : sizeofCtx * leanHazmatSha256IsalChunk ≤ ptrdiffMax

namespace Env

variable {σ : Type}

/-- No allocation fails. -/
def Grants (env : Env σ) : Prop := ∀ time size, env.grants time size = true

/-- The cells of a fresh block. -/
def fresh (env : Env σ) (time size : Nat) : List UInt8 :=
  (List.range size).map (env.garbage time)

@[simp] theorem length_fresh (env : Env σ) (time size : Nat) :
    (env.fresh time size).length = size := by
  rw [fresh, List.length_map, List.length_range]

end Env

abbrev Run (σ : Type) : Type → Type := EStateM Stop (Thread σ)

variable {σ : Type}

/-! ## Control -/

def leanInternalPanic {α : Type} (msg : String) : Run σ α := throw (.panic msg)

/-- `if (c) lean_internal_panic(msg);` -/
def panicIf (c : Prop) [Decidable c] (msg : String) : Run σ PUnit :=
  if c then leanInternalPanic msg else pure ⟨⟩

/-- The position `j` of the scratch tables. -/
def tableIndex (j : Nat) : Run σ Idx :=
  if h : j < leanHazmatSha256IsalChunk then pure ⟨j, h⟩ else throw (.fault .tableIndex)

/-! ## The C library -/

/-- A block that outlives the call, so that the log does not count it. -/
def allocate (env : Env σ) (size : Nat) : Run σ (Option Nat) := fun t =>
  if env.grants t.clock size then
    .ok (some t.clock)
      { t with
        mem := t.mem.set (.heap t.clock) (some (env.fresh t.clock size))
        clock := t.clock + 1 }
  else .ok none { t with clock := t.clock + 1 }

/-- `aligned_alloc`, undefined for a size that is no multiple of the alignment. -/
def alignedAlloc (env : Env σ) (align size : Nat) : Run σ (Option Nat) :=
  if size % align = 0 then allocate env size else throw (.fault .misaligned)

def malloc (env : Env σ) (size : Nat) : Run σ (Option Nat) := fun t =>
  if env.grants t.clock size then
    .ok (some t.clock)
      { t with
        mem := t.mem.set (.heap t.clock) (some (env.fresh t.clock size))
        clock := t.clock + 1
        log := .malloc t.clock size :: t.log }
  else .ok none { t with clock := t.clock + 1 }

/-- The block is used as an object of `size` bytes from now on, which it has to have room for:
its cells are those of the object. -/
def occupy (block size : Nat) : Run σ (List UInt8) := fun t =>
  match t.mem (.heap block) with
  | some cells =>
      if size ≤ cells.length then .ok cells { t with mem := t.mem.set (.heap block) none }
      else .error (.fault .badBuffer) t
  | none => .error (.fault .badBuffer) t

/-- `free`, which accepts `NULL` and is undefined for a block that is not live. -/
def free : Option Nat → Run σ PUnit
  | none => pure ⟨⟩
  | some block => fun t =>
      match t.mem.release (.heap block) with
      | some mem => .ok ⟨⟩ { t with mem := mem, log := .free block :: t.log }
      | none => .error (.fault .badFree) t

/-- `memcpy(buf + offset, data, len)` for the `len` bytes `data`. -/
def memcpy (buf : Buf) (offset : Nat) (data : List UInt8) : Run σ PUnit := fun t =>
  match t.mem.store buf offset data with
  | some mem => .ok ⟨⟩ { t with mem := mem, log := .memcpy buf offset data.length :: t.log }
  | none => .error (.fault .badBuffer) t

/-! ## The Lean runtime -/

def leanArrayGetCore (a : LeanArray) (i : Nat) : Run σ LeanSarray :=
  match a.elems[i]? with
  | some o => pure o
  | none => throw (.fault .arrayIndex)

/-- The runtime ends the process itself when it is out of memory. -/
def textObjectMemory : String := "out of memory"

/-- `lean_alloc_sarray(1, size, size)`: the bytes of a fresh `ByteArray`. -/
def leanAllocSarray (env : Env σ) (size : Nat) : Run σ (List UInt8) := fun t =>
  if env.grants t.clock (objectHeader + size) then
    .ok (env.fresh t.clock size) { t with clock := t.clock + 1 }
  else .error (.panic textObjectMemory) { t with clock := t.clock + 1 }

def leanArraySetCore (i : Nat) (digest : ByteArray) : Run σ PUnit := fun t =>
  if h : i < t.out.size then
    .ok ⟨⟩ { t with out := t.out.set i (some digest) h, log := .store i digest :: t.log }
  else .error (.fault .arrayIndex) t

/-! ## The scratch -/

def readScratch : Run σ (Scratch σ) := fun t =>
  match t.tls with
  | some s => .ok s t
  | none => .error (.fault .nullScratch) t

/-- Write through the scratch pointer. -/
def writeScratch (f : Scratch σ → Scratch σ) (events : List Event) : Run σ PUnit := fun t =>
  match t.tls with
  | some s => .ok ⟨⟩ { t with tls := some (f s), log := events ++ t.log }
  | none => .error (.fault .nullScratch) t

/-- `s->heap[c] = block;` -/
def setHeap (c : Idx) (block : Option Nat) : Run σ PUnit :=
  writeScratch (fun s => { s with heap := Function.update s.heap c block }) []

/-- `s->ctxs[c]` is rewritten. -/
def setCtx (c : Idx) (f : HashCtx → HashCtx) : Run σ PUnit :=
  writeScratch (fun s => { s with ctxs := Function.update s.ctxs c (f (s.ctxs c)) }) [.ctxWrite c]

/-! ## ISA-L -/

def isalHashCtxInit (M : JobManager σ) (c : Idx) : Run σ PUnit := setCtx c M.ctxInit

/-- `ctx->user_data = (void *)(uintptr_t)i;` -/
def setUserData (c : Idx) (i : Nat) : Run σ PUnit := setCtx c fun ctx => { ctx with userData := i }

def isalSha256CtxMgrInit (M : JobManager σ) : Run σ Int := fun t =>
  match t.tls with
  | some s =>
      .ok (M.init s.mgr).1
        { t with tls := some { s with mgr := (M.init s.mgr).2 }, log := .managerInit :: t.log }
  | none => .error (.fault .nullScratch) t

/-- The event of a hand-back, if there was one. -/
def handedBack : Option Idx → List Event
  | none => []
  | some c => [.handBack c]

/-- Take the answer of a call over; a call that returned `0` is logged. -/
def Thread.answered (t : Thread σ) (s : Scratch σ) (a : Answer σ) (events : List Event) :
    Thread σ :=
  { t with
    tls := some { s with mgr := a.mgr, ctxs := a.ctxs }
    log := if a.rc = 0 then handedBack a.done ++ events ++ t.log else t.log }

/-- `isal_sha256_ctx_mgr_submit`.  The manager is entitled to read the buffer, so
it has to be there. -/
def isalSha256CtxMgrSubmit (M : JobManager σ) (c : Idx) (buf : Buf) (len : Nat)
    (flag : IsalHashCtxFlag) : Run σ (Int × Option Idx) := fun t =>
  match t.tls with
  | some s =>
      match t.mem.load buf len with
      | some bytes =>
          let a := M.submit s.mgr s.ctxs t.mem c buf len flag
          .ok (a.rc, a.done) (t.answered s a [.submit ⟨c, buf, bytes⟩])
      | none => .error (.fault .badBuffer) t
  | none => .error (.fault .nullScratch) t

def isalSha256CtxMgrFlush (M : JobManager σ) : Run σ (Int × Option Idx) := fun t =>
  match t.tls with
  | some s =>
      let a := M.flush s.mgr s.ctxs t.mem
      .ok (a.rc, a.done) (t.answered s a [])
  | none => .error (.fault .nullScratch) t

theorem outstanding_handedBack (done : Option Idx) (log : List Event) :
    outstanding (handedBack done ++ log) = settle done (outstanding log) := by
  cases done <;> rfl

/-! ## Stepping over the primitives -/

section Rules

variable {t : Thread σ} {E : Stop → Thread σ → Prop} {env : Env σ} {M : JobManager σ}

theorem panicIf_sat {c : Prop} [Decidable c] {msg : String} {Q : PUnit → Thread σ → Prop}
    (hpanic : c → E (.panic msg) t) (hgo : ¬ c → Q ⟨⟩ t) : Sat (panicIf c msg) t Q E :=
  Sat.branch (fun hc => Sat.stop (hpanic hc)) (fun hc => Sat.ret (hgo hc))

theorem tableIndex_sat {j : Nat} {Q : Idx → Thread σ → Prop} (hj : j < leanHazmatSha256IsalChunk)
    (h : Q ⟨j, hj⟩ t) : Sat (tableIndex j) t Q E := by
  rw [tableIndex, dif_pos hj]
  exact Sat.ret h

theorem allocate_sat {size : Nat} {Q : Option Nat → Thread σ → Prop}
    (hnull : env.grants t.clock size ≠ true → Q none { t with clock := t.clock + 1 })
    (hgrant : Q (some t.clock)
      { t with
        mem := t.mem.set (.heap t.clock) (some (env.fresh t.clock size))
        clock := t.clock + 1 }) :
    Sat (allocate env size) t Q E := by
  unfold Sat allocate
  by_cases h : env.grants t.clock size = true
  · simpa only [if_pos h] using hgrant
  · simpa only [if_neg h] using hnull h

theorem occupy_sat {block size : Nat} {cells : List UInt8} {Q : List UInt8 → Thread σ → Prop}
    (hlive : t.mem (.heap block) = some cells) (hroom : size ≤ cells.length)
    (h : Q cells { t with mem := t.mem.set (.heap block) none }) :
    Sat (occupy block size) t Q E := by
  unfold Sat occupy
  simpa only [hlive, if_pos hroom] using h

theorem malloc_sat {size : Nat} {Q : Option Nat → Thread σ → Prop}
    (hnull : env.grants t.clock size ≠ true → Q none { t with clock := t.clock + 1 })
    (hgrant : Q (some t.clock)
      { t with
        mem := t.mem.set (.heap t.clock) (some (env.fresh t.clock size))
        clock := t.clock + 1
        log := .malloc t.clock size :: t.log }) :
    Sat (malloc env size) t Q E := by
  unfold Sat malloc
  by_cases h : env.grants t.clock size = true
  · simpa only [if_pos h] using hgrant
  · simpa only [if_neg h] using hnull h

theorem free_sat {block : Nat} {cells : List UInt8} {Q : PUnit → Thread σ → Prop}
    (hlive : t.mem (.heap block) = some cells)
    (h : Q ⟨⟩ { t with mem := t.mem.set (.heap block) none, log := .free block :: t.log }) :
    Sat (free (some block)) t Q E := by
  unfold Sat free
  simpa only [Memory.release_eq_some hlive] using h

theorem memcpy_sat {buf : Buf} {offset : Nat} {data cells : List UInt8}
    {Q : PUnit → Thread σ → Prop} (hlive : t.mem buf = some cells)
    (hfit : offset + data.length ≤ cells.length)
    (h : Q ⟨⟩ { t with
      mem := t.mem.set buf (some (overwrite cells offset data))
      log := .memcpy buf offset data.length :: t.log }) :
    Sat (memcpy buf offset data) t Q E := by
  unfold Sat memcpy
  simpa only [Memory.store_eq_some hlive hfit] using h

theorem leanArrayGetCore_sat {a : LeanArray} {i : Nat} {o : LeanSarray}
    {Q : LeanSarray → Thread σ → Prop} (hi : a.elems[i]? = some o) (h : Q o t) :
    Sat (leanArrayGetCore a i) t Q E := by
  unfold leanArrayGetCore
  rw [hi]
  exact Sat.ret h

theorem leanAllocSarray_sat {size : Nat} {Q : List UInt8 → Thread σ → Prop}
    (hfail : env.grants t.clock (objectHeader + size) ≠ true →
      E (.panic textObjectMemory) { t with clock := t.clock + 1 })
    (hgrant : Q (env.fresh t.clock size) { t with clock := t.clock + 1 }) :
    Sat (leanAllocSarray env size) t Q E := by
  unfold Sat leanAllocSarray
  by_cases h : env.grants t.clock (objectHeader + size) = true
  · simpa only [if_pos h] using hgrant
  · simpa only [if_neg h] using hfail h

theorem leanArraySetCore_sat {i : Nat} {digest : ByteArray} {Q : PUnit → Thread σ → Prop}
    (hi : i < t.out.size)
    (h : Q ⟨⟩ { t with out := t.out.set i (some digest) hi, log := .store i digest :: t.log }) :
    Sat (leanArraySetCore i digest) t Q E := by
  unfold Sat leanArraySetCore
  simpa only [dif_pos hi] using h

variable {s : Scratch σ}

theorem readScratch_sat {Q : Scratch σ → Thread σ → Prop} (htls : t.tls = some s) (h : Q s t) :
    Sat readScratch t Q E := by
  unfold Sat readScratch
  simpa only [htls] using h

theorem writeScratch_sat {f : Scratch σ → Scratch σ} {events : List Event}
    {Q : PUnit → Thread σ → Prop} (htls : t.tls = some s)
    (h : Q ⟨⟩ { t with tls := some (f s), log := events ++ t.log }) :
    Sat (writeScratch f events) t Q E := by
  unfold Sat writeScratch
  simpa only [htls] using h

theorem isalSha256CtxMgrInit_sat {Q : Int → Thread σ → Prop} (htls : t.tls = some s)
    (h : Q (M.init s.mgr).1
      { t with tls := some { s with mgr := (M.init s.mgr).2 }, log := .managerInit :: t.log }) :
    Sat (isalSha256CtxMgrInit M) t Q E := by
  unfold Sat isalSha256CtxMgrInit
  simpa only [htls] using h

theorem isalSha256CtxMgrSubmit_sat {c : Idx} {buf : Buf} {bytes : List UInt8}
    {Q : Int × Option Idx → Thread σ → Prop} (htls : t.tls = some s)
    (hload : t.mem.load buf bytes.length = some bytes)
    (h : ∀ a, a = M.submitJob s.mgr s.ctxs t.mem ⟨c, buf, bytes⟩ →
      Q (a.rc, a.done) (t.answered s a [.submit ⟨c, buf, bytes⟩])) :
    Sat (isalSha256CtxMgrSubmit M c buf bytes.length .entire) t Q E := by
  unfold Sat isalSha256CtxMgrSubmit
  simp only [htls, hload]
  exact h _ rfl

theorem isalSha256CtxMgrFlush_sat {Q : Int × Option Idx → Thread σ → Prop}
    (htls : t.tls = some s)
    (h : ∀ a, a = M.flush s.mgr s.ctxs t.mem → Q (a.rc, a.done) (t.answered s a [])) :
    Sat (isalSha256CtxMgrFlush M) t Q E := by
  unfold Sat isalSha256CtxMgrFlush
  simpa only [htls] using h _ rfl

end Rules

end HazmatSha256.Isal
