import HazmatSha256.Isal.State
set_option autoImplicit false

/-!
# Isal: the batch program

`csrc/sha256_batch.c`, the part under `LEAN_HAZMAT_SHA256_ISAL`, function by
function.  A `for` whose body is long has its body as a definition of its own.
Two things are not in the text of the source: the fuel of the two loops without a
counter that ends them (the drain loop, and the loop over chunks, whose counter is a
`size_t`), and `occupy`, where a pointer to a fresh block is given the type it is
used at.
-/

namespace HazmatSha256.Isal

open Foundation Boxed

variable {σ : Type}

/-! ## The texts of the panics -/

def textScratchMemory : String :=
  "LeanHazmatSha256: sha256BatchCombine: out of memory (ISA-L scratch)"

def textNotComplete : String := "LeanHazmatSha256: sha256BatchCombine: ISA-L job did not complete"

def textInit : String := "LeanHazmatSha256: sha256BatchCombine: isal_sha256_ctx_mgr_init failed"

def textTooLong : String := "LeanHazmatSha256: sha256BatchCombine: pair exceeds 4 GiB"

def textPairMemory : String := "LeanHazmatSha256: sha256BatchCombine: out of memory (pair buffer)"

def textSubmit : String := "LeanHazmatSha256: sha256BatchCombine: isal_sha256_ctx_mgr_submit failed"

def textFlush : String := "LeanHazmatSha256: sha256BatchCombine: isal_sha256_ctx_mgr_flush failed"

/-! ## The scratch of the thread -/

/-- `lean_hazmat_isal_alloc`: round up to the alignment and allocate. -/
def leanHazmatIsalAlloc (env : Env σ) (size : Nat) : Run σ Nat := do
  let a := leanHazmatSha256IsalAlign
  match ← alignedAlloc env a (sizeMul (sizeSub (sizeAdd size a) 1 / a) a) with
  | some p => pure p
  | none =>
      leanInternalPanic textScratchMemory

/-- The memory with the lane buffers cut out of the cells of their block, one after another. -/
def withLanes (mem : Mem) (cells : List UInt8) : Mem
  | .lane j =>
      some ((cells.drop (leanHazmatSha256IsalLaneBytes * j.val)).take leanHazmatSha256IsalLaneBytes)
  | .heap block => mem (.heap block)

/-- `lean_hazmat_isal_scratch_get`: the scratch, allocated on first use. -/
def leanHazmatIsalScratchGet (env : Env σ) : Run σ PUnit := do
  match (← get).tls with
  | some _ => pure ⟨⟩
  | none =>
      match ← allocate env env.sizeofScratch with
      | some p =>
          let _ ← occupy p env.sizeofScratch
          let mgr ← leanHazmatIsalAlloc env env.sizeofMgr
          let _ ← occupy mgr env.sizeofMgr
          let ctxs ← leanHazmatIsalAlloc env (sizeMul env.sizeofCtx leanHazmatSha256IsalChunk)
          let _ ← occupy ctxs (env.sizeofCtx * leanHazmatSha256IsalChunk)
          let lanes ← leanHazmatIsalAlloc env
            (sizeMul leanHazmatSha256IsalLaneBytes leanHazmatSha256IsalChunk)
          let cells ← occupy lanes (leanHazmatSha256IsalLaneBytes * leanHazmatSha256IsalChunk)
          modify fun t =>
            { t with
              mem := withLanes t.mem cells
              tls := some
                { mgr := env.rawMgr mgr, ctxs := env.rawCtxs ctxs, heap := fun _ => none } }
      | none =>
          leanInternalPanic textScratchMemory

/-! ## Collecting a finished job -/

/-- `lean_hazmat_store_be32`: one word in big-endian order, if it fits. -/
def leanHazmatStoreBe32 (out : List UInt8) (offset : Nat) (w : UInt32) : Option (List UInt8) :=
  if offset + 4 ≤ out.length then
    some (overwrite out offset
      [(w >>> 24).toUInt8, (w >>> 16).toUInt8, (w >>> 8).toUInt8, w.toUInt8])
  else none

/-- The words of a digest, four bytes apart. -/
def storeWords : List UInt32 → (offset : Nat) → List UInt8 → Option (List UInt8)
  | [], _, out => some out
  | w :: words, offset, out =>
      match leanHazmatStoreBe32 out offset w with
      | some out' => storeWords words (offset + 4) out'
      | none => none

/-- `lean_hazmat_isal_collect`: check the job, serialise its digest, and put it
into the slot its `user_data` names. -/
def leanHazmatIsalCollect (env : Env σ) (c : Idx) : Run σ PUnit := do
  let s ← readScratch
  let done := s.ctxs c
  panicIf (done.status ≠ .complete ∨ done.error ≠ .none) textNotComplete
  let i := done.userData
  let dp ← leanAllocSarray env leanHazmatSha256DigestLen
  match storeWords done.resultDigest.toList 0 dp with
  | some digest => leanArraySetCore i ⟨digest.toArray⟩
  | none => throw (.fault .badBuffer)

/-- `if (done) lean_hazmat_isal_collect(done, out);` -/
def collectIfDone (env : Env σ) : Option Idx → Run σ PUnit
  | some c => leanHazmatIsalCollect env c
  | none => pure ⟨⟩

/-! ## One chunk -/

/-- The buffer for a pair: the lane buffer of the position, or a heap block if
the pair is longer than that. -/
def pairBuffer (env : Env σ) (c : Idx) (total : Nat) : Run σ Buf :=
  if total > leanHazmatSha256IsalLaneBytes then do
    match ← malloc env total with
    | some block =>
        setHeap c (some block)
        pure (.heap block)
    | none =>
        leanInternalPanic textPairMemory
  else pure (.lane c)

/-- The body of the submit loop, round `j`. -/
def submitPair (M : JobManager σ) (env : Env σ) (lefts rights : LeanArray) (start j : Nat) :
    Run σ PUnit := do
  let i := sizeAdd start j
  let left ← leanArrayGetCore lefts i
  let right ← leanArrayGetCore rights i
  let ln := left.size
  let rn := right.size
  let total := sizeAdd ln rn
  panicIf (total > uint32Max) textTooLong
  let c ← tableIndex j
  let buf ← pairBuffer env c total
  memcpy buf 0 left.cptr
  memcpy buf ln right.cptr
  isalHashCtxInit M c
  setUserData c i
  let (rc, done) ← isalSha256CtxMgrSubmit M c buf (total % (uint32Max + 1)) .entire
  panicIf (rc ≠ 0) textSubmit
  collectIfDone env done

/-- One round of the drain loop; it leaves when the flush hands nothing back. -/
def drainRound (M : JobManager σ) (env : Env σ) : Run σ (Option PUnit) := do
  let (rc, done) ← isalSha256CtxMgrFlush M
  panicIf (rc ≠ 0) textFlush
  match done with
  | some c =>
      leanHazmatIsalCollect env c
      pure (some ⟨⟩)
  | none => pure none

/-- The body of the release loop, round `j`. -/
def releasePair (j : Nat) : Run σ PUnit := do
  let c ← tableIndex j
  let s ← readScratch
  free (s.heap c)
  setHeap c none

/-- `lean_hazmat_isal_chunk`: hash the pairs `[start, start + count)`. -/
def leanHazmatIsalChunk (M : JobManager σ) (env : Env σ) (fuel : Nat)
    (lefts rights : LeanArray) (start count : Nat) : Run σ PUnit := do
  let rc ← isalSha256CtxMgrInit M
  panicIf (rc ≠ 0) textInit
  forUp (submitPair M env lefts rights start) 0 count
  loop .timeout (fun _ => drainRound M env) fuel ⟨⟩
  forUp releasePair 0 count

/-! ## The batch -/

/-- One round of the loop over chunks. -/
def chunkRound (M : JobManager σ) (env : Env σ) (fuel : Nat) (lefts rights : LeanArray)
    (n start : Nat) : Run σ (Option Nat) :=
  if start < n then do
    let rest := sizeSub n start
    let count := if rest < leanHazmatSha256IsalChunk then rest else leanHazmatSha256IsalChunk
    leanHazmatIsalChunk M env fuel lefts rights start count
    pure (some (sizeAdd start leanHazmatSha256IsalChunk))
  else pure none

/-- `lean_hazmat_sha256_batch_isal`. -/
def leanHazmatSha256BatchIsal (M : JobManager σ) (env : Env σ) (fuel : Nat)
    (lefts rights : LeanArray) (n : Nat) : Run σ PUnit := do
  leanHazmatIsalScratchGet env
  loop .timeout (chunkRound M env fuel lefts rights n) fuel 0

end HazmatSha256.Isal
