import HazmatSha256.Evp.Interface
import HazmatSha256.Isal.Outcome
set_option autoImplicit false

/-!
# Evp: the scalar shims and the loop backend

`csrc/sha256_shim.c` and the part of `csrc/sha256_batch.c` that is always compiled.  A
context is a heap block and the value the library keeps in it; the value is a local
variable of the functions, which own the context from `EVP_MD_CTX_new` to
`EVP_MD_CTX_free` and show it to nobody else.
-/

namespace HazmatSha256.Evp

open Foundation Boxed Isal

variable {σ κ : Type}

/-! ## The texts of the panics -/

def textCtxNew : String := "LeanHazmatSha256: EVP_MD_CTX_new failed"

def textBatch : String := "LeanHazmatSha256: sha256BatchCombine: EVP combine failed"

def textHash : String := "LeanHazmatSha256: SHA-256 digest failed (OpenSSL EVP error)"

def textCombine : String := "LeanHazmatSha256: SHA-256 combine failed (OpenSSL EVP error)"

/-! ## Contexts -/

def evpMdCtxNew (E : EvpMd κ) (env : Env σ) : Run σ (Option Nat) := malloc env E.sizeofCtx

def evpMdCtxFree (block : Nat) : Run σ PUnit := free (some block)

/-- The bytes of a digest object after `EVP_DigestFinal_ex` has written into it. -/
def written (object digest : List UInt8) : ByteArray := ⟨(overwrite object 0 digest).toArray⟩

/-! ## `sha256_shim.c` -/

/-- `lean_hazmat_sha256_raw`. -/
def leanHazmatSha256Raw (E : EvpMd κ) (env : Env σ) (data : List UInt8) :
    Run σ (Option (List UInt8)) := do
  match ← evpMdCtxNew E env with
  | some block =>
      let digest := (E.digest E.fresh [data]).1
      evpMdCtxFree block
      pure digest
  | none => pure none

/-- `lean_hazmat_sha256_hash`. -/
def leanHazmatSha256Hash (E : EvpMd κ) (env : Env σ) (input : LeanSarray) : Run σ ByteArray := do
  let out ← leanAllocSarray env leanHazmatSha256DigestLen
  match ← leanHazmatSha256Raw E env input.cptr with
  | some digest => pure (written out digest)
  | none => leanInternalPanic textHash

/-- `lean_hazmat_sha256_combine`. -/
def leanHazmatSha256Combine (E : EvpMd κ) (env : Env σ) (left right : LeanSarray) :
    Run σ ByteArray := do
  match ← evpMdCtxNew E env with
  | some block =>
      let out ← leanAllocSarray env leanHazmatSha256DigestLen
      let ok := (E.digest E.fresh [left.cptr, right.cptr]).1
      evpMdCtxFree block
      match ok with
      | some digest => pure (written out digest)
      | none => leanInternalPanic textCombine
  | none => leanInternalPanic textCtxNew

/-! ## The loop backend of `sha256_batch.c` -/

/-- `lean_hazmat_sha256_combine_into`. -/
def leanHazmatSha256CombineInto (E : EvpMd κ) (ctx : κ) (lp rp : List UInt8) :
    Option (List UInt8) × κ :=
  E.digest ctx [lp, rp]

/-- The body of the loop, round `i`; it hands the context on to the next round. -/
def combinePair (E : EvpMd κ) (env : Env σ) (lefts rights : LeanArray) (block i : Nat) (ctx : κ) :
    Run σ κ := do
  let left ← leanArrayGetCore lefts i
  let right ← leanArrayGetCore rights i
  let object ← leanAllocSarray env leanHazmatSha256DigestLen
  match leanHazmatSha256CombineInto E ctx left.cptr right.cptr with
  | (some digest, ctx') =>
      leanArraySetCore i (written object digest)
      pure ctx'
  | (none, _) =>
      evpMdCtxFree block
      leanInternalPanic textBatch

/-- `lean_hazmat_sha256_batch_evp`. -/
def leanHazmatSha256BatchEvp (E : EvpMd κ) (env : Env σ) (lefts rights : LeanArray) (n : Nat) :
    Run σ PUnit := do
  match ← evpMdCtxNew E env with
  | some block =>
      let _ ← forWith (combinePair E env lefts rights block) 0 n E.fresh
      evpMdCtxFree block
  | none => leanInternalPanic textCtxNew

end HazmatSha256.Evp
