import HazmatSha256.Spec.Sha256
set_option autoImplicit false

/-!
# Evp: the interface of the message-digest library

OpenSSL's `EVP_Digest*` calls with `EVP_sha256()`, entered like the job manager as a
parameter with a contract.  A context is a value of an arbitrary type that every call
rewrites.  A digest is always made the same way: initialise, feed the pieces one after
another, finish, and give up at the first call that returns `0`.
-/

namespace HazmatSha256.Evp

/-- What `EVP_DigestFinal_ex` leaves behind. -/
structure Final (κ : Type) where
  rc : Int
  ctx : κ
  digest : List UInt8

/-- The library, over its context type. -/
structure EvpMd (κ : Type) where
  /-- What `EVP_MD_CTX_new` hands out. -/
  fresh : κ
  sizeofCtx : Nat
  digestInit : κ → Int × κ
  digestUpdate : κ → List UInt8 → Int × κ
  digestFinal : κ → Final κ

namespace EvpMd

variable {κ : Type} (E : EvpMd κ)

/-- `Absorbed ctx bytes`: the context has been initialised and fed `bytes`, and every
call on the way succeeded. -/
inductive Absorbed : κ → List UInt8 → Prop
  | init {ctx : κ} (ok : (E.digestInit ctx).1 ≠ 0) : Absorbed (E.digestInit ctx).2 []
  | update {ctx : κ} {bytes piece : List UInt8} (h : Absorbed ctx bytes)
      (ok : (E.digestUpdate ctx piece).1 ≠ 0) :
      Absorbed (E.digestUpdate ctx piece).2 (bytes ++ piece)

/-- A successful finish writes the hash of what has been fed. -/
def Contract : Prop := ∀ {ctx : κ} {bytes : List UInt8}, E.Absorbed ctx bytes →
  (E.digestFinal ctx).rc ≠ 0 →
  (E.digestFinal ctx).digest = (Spec.hash ⟨bytes.toArray⟩).data.toList

/-- Calls made in order succeed. -/
structure Obliging : Prop where
  init : ∀ ctx, (E.digestInit ctx).1 ≠ 0
  update : ∀ {ctx : κ} {bytes : List UInt8} (piece : List UInt8), E.Absorbed ctx bytes →
    (E.digestUpdate ctx piece).1 ≠ 0
  final : ∀ {ctx : κ} {bytes : List UInt8}, E.Absorbed ctx bytes → (E.digestFinal ctx).rc ≠ 0

/-! ## One digest -/

/-- The `EVP_DigestUpdate` calls joined by `&&`. -/
def updateAll : κ → List (List UInt8) → Bool × κ
  | ctx, [] => (true, ctx)
  | ctx, piece :: pieces =>
      if (E.digestUpdate ctx piece).1 ≠ 0 then updateAll (E.digestUpdate ctx piece).2 pieces
      else (false, (E.digestUpdate ctx piece).2)

/-- `Init && Update && … && Final`, with the digest if all of them succeeded. -/
def digest (ctx : κ) (pieces : List (List UInt8)) : Option (List UInt8) × κ :=
  if (E.digestInit ctx).1 ≠ 0 then
    match E.updateAll (E.digestInit ctx).2 pieces with
    | (true, ctx') =>
        if (E.digestFinal ctx').rc ≠ 0 then
          (some (E.digestFinal ctx').digest, (E.digestFinal ctx').ctx)
        else (none, (E.digestFinal ctx').ctx)
    | (false, ctx') => (none, ctx')
  else (none, (E.digestInit ctx).2)

variable {E}

/-- Feeding pieces one after another absorbs their concatenation. -/
theorem updateAll_absorbed : ∀ (pieces : List (List UInt8)) {ctx ctx' : κ} {bytes : List UInt8},
    E.Absorbed ctx bytes → E.updateAll ctx pieces = (true, ctx') →
    E.Absorbed ctx' (bytes ++ pieces.flatten) := by
  intro pieces
  induction pieces with
  | nil =>
      intro ctx ctx' bytes h heq
      cases heq
      simpa using h
  | cons piece pieces ih =>
      intro ctx ctx' bytes h heq
      unfold updateAll at heq
      split at heq
      · have hrest := ih (Absorbed.update h ‹_›) heq
        rwa [List.append_assoc] at hrest
      · cases heq

theorem updateAll_obliging (hobliging : E.Obliging) : ∀ (pieces : List (List UInt8)) {ctx : κ}
    {bytes : List UInt8}, E.Absorbed ctx bytes → (E.updateAll ctx pieces).1 = true := by
  intro pieces
  induction pieces with
  | nil =>
      intro ctx bytes _
      rfl
  | cons piece pieces ih =>
      intro ctx bytes h
      have hok := hobliging.update piece h
      rw [updateAll, if_pos hok]
      exact ih (Absorbed.update h hok)

/-- A digest that was made is the hash of the pieces, whatever the context was
before. -/
theorem digest_eq (contract : E.Contract) {ctx : κ} {pieces : List (List UInt8)}
    {d : List UInt8} (h : (E.digest ctx pieces).1 = some d) :
    d = (Spec.hash ⟨pieces.flatten.toArray⟩).data.toList := by
  unfold digest at h
  split at h
  case isFalse => cases h
  case isTrue hinit =>
    cases hupdate : E.updateAll (E.digestInit ctx).2 pieces with
    | mk ok ctx' =>
        rw [hupdate] at h
        cases ok with
        | false => cases h
        | true =>
            have habsorbed := updateAll_absorbed pieces (Absorbed.init hinit) hupdate
            dsimp only at h
            split at h
            case isFalse => cases h
            case isTrue hfinal =>
              rw [contract habsorbed hfinal] at h
              exact (Option.some.inj h).symm

/-- A library whose calls succeed makes every digest. -/
theorem digest_ne_none (hobliging : E.Obliging) (ctx : κ) (pieces : List (List UInt8)) :
    (E.digest ctx pieces).1 ≠ none := by
  intro h
  have hinit := hobliging.init ctx
  rw [digest, if_pos hinit] at h
  have hupdate := updateAll_obliging hobliging pieces (Absorbed.init hinit)
  cases hall : E.updateAll (E.digestInit ctx).2 pieces with
  | mk ok ctx' =>
      rw [hall] at h hupdate
      cases hupdate
      have hfinal := hobliging.final (updateAll_absorbed pieces (Absorbed.init hinit) hall)
      dsimp only at h
      rw [if_pos hfinal] at h
      cases h

end EvpMd

/-! ## The contract is met -/

/-- The library that remembers what it was fed and asks the reference. -/
def referenceMd : EvpMd (List UInt8) where
  fresh := []
  sizeofCtx := 64
  digestInit _ := (1, [])
  digestUpdate ctx piece := (1, ctx ++ piece)
  digestFinal ctx := ⟨1, ctx, (Spec.hash ⟨ctx.toArray⟩).data.toList⟩

theorem referenceMd_contract : referenceMd.Contract := by
  have hsame : ∀ ctx bytes, referenceMd.Absorbed ctx bytes → ctx = bytes := by
    intro ctx bytes h
    induction h with
    | init _ => rfl
    | update _ _ ih =>
        subst ih
        rfl
  intro ctx bytes h _
  rw [hsame ctx bytes h]
  rfl

theorem referenceMd_obliging : referenceMd.Obliging :=
  ⟨fun _ => Int.one_ne_zero, fun _ _ => Int.one_ne_zero, fun _ => Int.one_ne_zero⟩

end HazmatSha256.Evp
