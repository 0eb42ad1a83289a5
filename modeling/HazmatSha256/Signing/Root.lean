import HazmatSha256.Opening.Branch
import HazmatSha256.Ssz.Binding
set_option autoImplicit false

/-!
# Signing: what is signed

The rest of `EthCLLib.Spec.SigningRoot`: fork data, domains and signing roots, which bind an
object to the purpose and the fork it is signed for.
-/

namespace HazmatSha256.Signing

open Foundation Shape Boxed Isal Evp Shim Merkle Ssz Ssz.SSZType Opening

/-! ## Roots and containers -/

/-- The read of `vget` past the end is the default. -/
def vget {α : Type} [Inhabited α] {n : Nat} (v : Vector α n) (i : Nat) : α := v.toArray[i]!

/-- The shape of `BytesN`. -/
abbrev bytesType (n : Nat) : SSZType := .vector (.uintN 8) n

structure ForkData where
  currentVersion : Vector UInt8 4
  genesisValidatorsRoot : Vector UInt8 32

structure SigningData where
  objectRoot : Vector UInt8 32
  domain : Vector UInt8 32

abbrev forkDataType : SSZType := .container [bytesType 4, bytesType 32]

abbrev signingDataType : SSZType := .container [bytesType 32, bytesType 32]

def ForkData.toRepr (d : ForkData) : forkDataType.interp :=
  (d.currentVersion, d.genesisValidatorsRoot, ⟨⟩)

def SigningData.toRepr (d : SigningData) : signingDataType.interp := (d.objectRoot, d.domain, ⟨⟩)

section Source

variable {m : Type → Type} [Monad m]

def htr (H : Hasher m) (s : SSZType) (x : s.interp) : m (Vector UInt8 32) := do
  let r ← s.hashTreeRoot H x
  pure (bytesToRoot r)

def computeForkDataRoot (H : Hasher m) (currentVersion : Vector UInt8 4)
    (genesisValidatorsRoot : Vector UInt8 32) : m (Vector UInt8 32) :=
  htr H forkDataType (ForkData.mk currentVersion genesisValidatorsRoot).toRepr

/-- The four bytes of the tag, and the first 28 of the root of the fork data. -/
def computeDomain (H : Hasher m) (domainType : ByteArray) (forkVersion : Vector UInt8 4)
    (genesisValidatorsRoot : Vector UInt8 32) : m (Vector UInt8 32) := do
  let fdr ← computeForkDataRoot H forkVersion genesisValidatorsRoot
  pure (Vector.ofFn fun i : Fin 32 =>
    if i.val < 4 then domainType.get! i.val else vget fdr (i.val - 4))

def computeSigningRoot (H : Hasher m) (s : SSZType) (obj : s.interp)
    (domain : Vector UInt8 32) : m (Vector UInt8 32) := do
  let objectRoot ← htr H s obj
  htr H signingDataType (SigningData.mk objectRoot domain).toRepr

end Source

/-! ## What they compute -/

/-- The root of a value as a vector. -/
def rootOf (s : SSZType) (x : s.interp) : Vector UInt8 32 := bytesToRoot (root (tree s x))

theorem rootOf_inj {s v : SSZType} {x : s.interp} {y : v.interp} (h : rootOf s x = rootOf v y) :
    root (tree s x) = root (tree v y) :=
  bytesToRoot_inj (size_root_tree s x) (size_root_tree v y) h

/-- The domain of a tag over a root of fork data. -/
def domainOf (domainType : ByteArray) (fdr : Vector UInt8 32) : Vector UInt8 32 :=
  Vector.ofFn fun i : Fin 32 => if i.val < 4 then domainType.get! i.val else vget fdr (i.val - 4)

/-- Domains are the same where the tags have the same four bytes and the roots the same 28. -/
theorem domainOf_eq_iff {tag tag₂ : ByteArray} {fdr fdr₂ : Vector UInt8 32} :
    domainOf tag fdr = domainOf tag₂ fdr₂ ↔
      (∀ i < 4, tag.get! i = tag₂.get! i) ∧ ∀ i < 28, vget fdr i = vget fdr₂ i := by
  have hread : ∀ (a : ByteArray) (b : Vector UInt8 32) (i : Nat) (hi : i < 32),
      (domainOf a b)[i] = if i < 4 then a.get! i else vget b (i - 4) := fun a b i hi =>
    Vector.getElem_ofFn hi
  constructor
  · intro h
    refine ⟨fun i hi => ?_, fun i hi => ?_⟩
    · have hbyte : (domainOf tag fdr)[i] = (domainOf tag₂ fdr₂)[i] := by simp only [h]
      rwa [hread, hread, if_pos hi, if_pos hi] at hbyte
    · have hbyte : (domainOf tag fdr)[i + 4] = (domainOf tag₂ fdr₂)[i + 4] := by simp only [h]
      rwa [hread, hread, if_neg (by omega), if_neg (by omega), Nat.add_sub_cancel] at hbyte
  · intro h
    obtain ⟨htag, hroot⟩ := h
    refine Vector.ext fun i hi => ?_
    rw [hread, hread]
    split
    next hlow => exact htag i hlow
    next hhigh => exact hroot (i - 4) (by omega)

theorem storable_bytes {n : Nat} (hn : n ≤ 32) (v : Vector UInt8 n) :
    Storable (bytesType n) v := by
  rw [Storable]
  refine ⟨?_, storableElems_of_basic rfl _⟩
  simp only [Roomy, objectHeader, ptrdiffMax]
  omega

theorem storable_pair {a b : Nat} (ha : a ≤ 32) (hb : b ≤ 32)
    (x : (SSZType.container [bytesType a, bytesType b]).interp) :
    Storable (.container [bytesType a, bytesType b]) x := by
  rw [Storable, StorableFields, StorableFields, StorableFields]
  refine ⟨?_, storable_bytes ha x.1, storable_bytes hb x.2.1, trivial⟩
  simp only [Roomy, objectHeader, ptrdiffMax, List.length_cons, List.length_nil]
  omega

section Runs

variable {σ κ : Type} {host : Host σ κ}

theorem htr_computes (sound : host.Sound) (s : SSZType) (x : s.interp) :
    Computes host (Storable s x) (htr (native host) s x) (rootOf s x) :=
  (hashTreeRoot_computes sound s x).bind (Computes.ret _)

/-- The root of a container of two byte vectors. -/
theorem pair_computes (sound : host.Sound) {a b : Nat} (ha : a ≤ 32) (hb : b ≤ 32)
    (x : (SSZType.container [bytesType a, bytesType b]).interp) {legal : Prop} :
    Computes host legal (htr (native host) (.container [bytesType a, bytesType b]) x)
      (rootOf _ x) :=
  (htr_computes sound _ x).weaken fun _ => storable_pair ha hb x

/-- The root of the fork data. -/
def forkDataRoot (version : Vector UInt8 4) (gvr : Vector UInt8 32) : Vector UInt8 32 :=
  rootOf forkDataType (ForkData.mk version gvr).toRepr

def signingRoot (s : SSZType) (obj : s.interp) (domain : Vector UInt8 32) : Vector UInt8 32 :=
  rootOf signingDataType (SigningData.mk (rootOf s obj) domain).toRepr

theorem computeDomain_computes (sound : host.Sound) (tag : ByteArray) (version : Vector UInt8 4)
    (gvr : Vector UInt8 32) : Computes host True (computeDomain (native host) tag version gvr)
      (domainOf tag (forkDataRoot version gvr)) :=
  (pair_computes sound (by decide) (by decide) _).bind (Computes.ret _)

theorem computeSigningRoot_computes (sound : host.Sound) (s : SSZType) (obj : s.interp)
    (domain : Vector UInt8 32) : Computes host (Storable s obj)
      (computeSigningRoot (native host) s obj domain) (signingRoot s obj domain) :=
  (htr_computes sound s obj).bind (pair_computes sound (by decide) (by decide) _)

end Runs

/-! ## What a signing root binds -/

/-- The pairs that are combined for the last root. -/
def sealed (s : SSZType) (obj : s.interp) (domain : Vector UInt8 32) :
    List (ByteArray × ByteArray) :=
  hashed signingDataType (SigningData.mk (rootOf s obj) domain).toRepr

/-- Objects of any shapes with one signing root have one root and one domain. -/
theorem signingRoot_eq {s v : SSZType} {x : s.interp} {y : v.interp} {d d₂ : Vector UInt8 32}
    (h : signingRoot s x d = signingRoot v y d₂) :
    (root (tree s x) = root (tree v y) ∧ d = d₂) ∨
      Collide (messages (sealed s x d)) (messages (sealed v y d₂)) := by
  rcases eq_or_collide rfl rfl (storable_pair (by decide) (by decide) _)
    (storable_pair (by decide) (by decide) _) (rootOf_inj h) with hsame | hcollide
  · obtain ⟨hobject, hrest⟩ := Prod.mk.inj hsame
    exact .inl ⟨rootOf_inj hobject, (Prod.mk.inj hrest).1⟩
  · exact .inr hcollide

section Runs

variable {σ κ σ₂ κ₂ : Type} {host : Host σ κ} {host₂ : Host σ₂ κ₂} {t t₁ t₂ : Thread σ}
  {u u₁ u₂ : Thread σ₂} {r d d₂ : Vector UInt8 32}

/-- For any codable shape whose progressive containers have a place for every field: if two
threads between calls, of whatever processes and with whatever backends, return the same signing
root for objects that can exist, then the objects are the same and so are the domains, or one of
the messages hashed for the first differs from one of those hashed for the second and has the
same digest. -/
theorem computeSigningRoot_binds (sound : host.Sound) (sound₂ : host₂.Sound) {s : SSZType}
    (hs : s.codable = true) (hp : s.placed = true) {x y : s.interp} (hx : Storable s x)
    (hy : Storable s y) (resting : t.Resting) (resting₂ : u.Resting)
    (hrun : computeSigningRoot (native host) s x d t = .ok r t₁)
    (hrun₂ : computeSigningRoot (native host₂) s y d₂ u = .ok r u₁) :
    (x = y ∧ d = d₂) ∨
      Collide (messages (hashed s x ++ sealed s x d)) (messages (hashed s y ++ sealed s y d₂)) := by
  have hr := ((computeSigningRoot_computes sound s x d t resting).of_ok hrun).1
  have hr₂ := ((computeSigningRoot_computes sound₂ s y d₂ u resting₂).of_ok hrun₂).1
  rcases signingRoot_eq (hr.symm.trans hr₂) with ⟨hroot, hdomain⟩ | hcollide
  · rcases eq_or_collide hs hp hx hy hroot with heq | hcollide
    · exact .inl ⟨heq, hdomain⟩
    · exact .inr (hcollide.mono (List.subset_append_left _ _) (List.subset_append_left _ _))
  · exact .inr (hcollide.mono (List.subset_append_right _ _) (List.subset_append_right _ _))

abbrev checkpointType : SSZType := .container [.uintN 64, bytesType 32]

/-- `AttestationData`: slot, index, head of the chain, source and target. -/
abbrev attestationDataType : SSZType :=
  .container [.uintN 64, .uintN 64, bytesType 32, checkpointType, checkpointType]

def sampleAttestation : attestationDataType.interp :=
  ((160 : UInt64), (0 : UInt64), Vector.replicate 32 1, ((4 : UInt64), Vector.replicate 32 2, ⟨⟩),
    ((5 : UInt64), Vector.replicate 32 3, ⟨⟩), ⟨⟩)

theorem sampleAttestation_storable : Storable attestationDataType sampleAttestation := by
  have hroomy : ∀ n, n ≤ 8 → Roomy n := by
    intro n hn
    simp only [Roomy, objectHeader, ptrdiffMax]
    omega
  have hnumber : ∀ x, Storable (.uintN 64) x := by
    intro x
    rw [Storable]
    trivial
  have hcheckpoint : ∀ x, Storable checkpointType x := by
    intro x
    rw [Storable, StorableFields, StorableFields, StorableFields]
    exact ⟨hroomy _ (by decide), hnumber _, storable_bytes (by decide) x.2.1, trivial⟩
  rw [Storable, StorableFields, StorableFields, StorableFields, StorableFields, StorableFields,
    StorableFields]
  exact ⟨hroomy _ (by decide), hnumber _, hnumber _, storable_bytes (by decide) _, hcheckpoint _,
    hcheckpoint _, trivial⟩

def sampleDomain : Vector UInt8 32 := Vector.replicate 32 2

theorem computeSigningRoot_binds_sample :
    (sampleAttestation = sampleAttestation ∧ sampleDomain = sampleDomain) ∨
      Collide
        (messages (hashed attestationDataType sampleAttestation ++
          sealed attestationDataType sampleAttestation sampleDomain))
        (messages (hashed attestationDataType sampleAttestation ++
          sealed attestationDataType sampleAttestation sampleDomain)) := by
  have sound := referenceHost_sound true 2 [1, 0, 1]
  have sound₂ := referenceHost_sound false 2 []
  have resting := (newThread_ready 0).resting
  obtain ⟨r, t₁, hrun, rfl, -⟩ := (computeSigningRoot_computes sound attestationDataType
    sampleAttestation sampleDomain).returns (referenceHost_serves true 2 [1, 0, 1])
      sampleAttestation_storable resting
  obtain ⟨r₂, u₁, hrun₂, rfl, -⟩ := (computeSigningRoot_computes sound₂ attestationDataType
    sampleAttestation sampleDomain).returns (referenceHost_serves false 2 [])
      sampleAttestation_storable resting
  exact computeSigningRoot_binds sound sound₂ rfl rfl sampleAttestation_storable
    sampleAttestation_storable resting resting hrun hrun₂

/-- For objects of any two shapes, signed for domains that the threads computed before: one signing
root means one tag, in its four bytes, one root of the fork data, in its first 28, and one root of
the object, or two of the messages hashed last differ and have the same digest. -/
theorem computeSigningRoot_separates (sound : host.Sound) (sound₂ : host₂.Sound)
    {s v : SSZType} {x : s.interp} {y : v.interp} {tag tag₂ : ByteArray}
    {version version₂ : Vector UInt8 4} {gvr gvr₂ : Vector UInt8 32} (resting : t.Resting)
    (resting₂ : u.Resting) (hdomain : computeDomain (native host) tag version gvr t = .ok d t₁)
    (hrun : computeSigningRoot (native host) s x d t₁ = .ok r t₂)
    (hdomain₂ : computeDomain (native host₂) tag₂ version₂ gvr₂ u = .ok d₂ u₁)
    (hrun₂ : computeSigningRoot (native host₂) v y d₂ u₁ = .ok r u₂) :
    ((∀ i < 4, tag.get! i = tag₂.get! i) ∧
      (∀ i < 28, vget (forkDataRoot version gvr) i = vget (forkDataRoot version₂ gvr₂) i) ∧
      root (tree s x) = root (tree v y)) ∨
      Collide (messages (sealed s x d)) (messages (sealed v y d₂)) := by
  obtain ⟨rfl, hrest⟩ := (computeDomain_computes sound tag version gvr t resting).of_ok hdomain
  obtain ⟨rfl, hrest₂⟩ :=
    (computeDomain_computes sound₂ tag₂ version₂ gvr₂ u resting₂).of_ok hdomain₂
  have hr := ((computeSigningRoot_computes sound s x _ t₁ hrest).of_ok hrun).1
  have hr₂ := ((computeSigningRoot_computes sound₂ v y _ u₁ hrest₂).of_ok hrun₂).1
  rcases signingRoot_eq (hr.symm.trans hr₂) with ⟨hroot, hsame⟩ | hcollide
  · obtain ⟨htag, hfork⟩ := domainOf_eq_iff.mp hsame
    exact .inl ⟨htag, hfork, hroot⟩
  · exact .inr hcollide

/-- An epoch, which a proposer signs to reveal randomness. -/
def sampleEpoch : (SSZType.uintN 64).interp := (5 : UInt64)

theorem sampleEpoch_storable : Storable (.uintN 64) sampleEpoch := by
  rw [Storable]
  trivial

/-- Its number at half the width, which has the same root. -/
def sampleNarrow : (SSZType.uintN 32).interp := (5 : UInt32)

theorem rootOf_sampleNarrow : rootOf (.uintN 32) sampleNarrow = rootOf (.uintN 64) sampleEpoch := by
  rw [rootOf, rootOf, tree, tree]
  rfl

theorem sampleNarrow_storable : Storable (.uintN 32) sampleNarrow := by
  rw [Storable]
  trivial

def sampleTag : ByteArray := ⟨#[2, 0, 0, 0]⟩

/-- The tag with a byte more, which a domain does not read. -/
def sampleLongTag : ByteArray := ⟨#[2, 0, 0, 0, 9]⟩

def sampleVersion : Vector UInt8 4 := #v[6, 0, 0, 0]

/-- The root of the fork data that the domains below are of. -/
def sampleFork : Vector UInt8 32 := forkDataRoot sampleVersion (Vector.replicate 32 1)

theorem domainOf_sampleLongTag : domainOf sampleLongTag sampleFork = domainOf sampleTag sampleFork :=
  domainOf_eq_iff.mpr ⟨by decide, fun _ _ => rfl⟩

theorem computeSigningRoot_separates_sample :
    ((∀ i < 4, sampleTag.get! i = sampleLongTag.get! i) ∧
      (∀ i < 28, vget sampleFork i = vget sampleFork i) ∧
      root (tree (.uintN 64) sampleEpoch) = root (tree (.uintN 32) sampleNarrow)) ∨
      Collide (messages (sealed (.uintN 64) sampleEpoch (domainOf sampleTag sampleFork)))
        (messages (sealed (.uintN 32) sampleNarrow (domainOf sampleLongTag sampleFork))) := by
  have sound := referenceHost_sound true 2 [1, 0, 1]
  have sound₂ := referenceHost_sound false 2 []
  have resting := (newThread_ready 0).resting
  obtain ⟨d, t₁, hdomain, rfl, resting₁⟩ := (computeDomain_computes sound sampleTag sampleVersion
    (Vector.replicate 32 1)).returns (referenceHost_serves true 2 [1, 0, 1]) trivial resting
  obtain ⟨r, t₂, hrun, rfl, -⟩ := (computeSigningRoot_computes sound (.uintN 64) sampleEpoch
    _).returns (referenceHost_serves true 2 [1, 0, 1]) sampleEpoch_storable resting₁
  obtain ⟨d₂, u₁, hdomain₂, rfl, resting₂⟩ := (computeDomain_computes sound₂ sampleLongTag
    sampleVersion (Vector.replicate 32 1)).returns (referenceHost_serves false 2 []) trivial resting
  obtain ⟨r₂, u₂, hrun₂, rfl, -⟩ := (computeSigningRoot_computes sound₂ (.uintN 32) sampleNarrow
    _).returns (referenceHost_serves false 2 []) sampleNarrow_storable resting₂
  have hsame : signingRoot (.uintN 32) sampleNarrow (domainOf sampleLongTag sampleFork) =
      signingRoot (.uintN 64) sampleEpoch (domainOf sampleTag sampleFork) := by
    rw [signingRoot, signingRoot, rootOf_sampleNarrow, domainOf_sampleLongTag]
  exact computeSigningRoot_separates sound sound₂ resting resting hdomain hrun hdomain₂
    (hrun₂.trans (congrArg (fun b => EStateM.Result.ok b u₂) hsame))

end Runs

end HazmatSha256.Signing
