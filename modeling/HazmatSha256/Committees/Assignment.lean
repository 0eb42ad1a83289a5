import HazmatSha256.Committees.Shuffle
set_option autoImplicit false

/-!
# Committees: who is in which

The rest of the committees of `EthCLSpecs.Fulu.Committees`: in every epoch each active validator
is in one committee of one slot, and the committees have the same size, give or take one.
-/

namespace HazmatSha256.Committees

open Foundation Merkle Opening

/-! ## The state -/

structure Preset where
  slotsPerEpoch : Nat
  maxCommitteesPerSlot : Nat
  targetCommitteeSize : Nat
  shuffleRoundCount : Nat
  epochsPerHistoricalVector : Nat
  validatorRegistryLimit : Nat
  minSeedLookahead : UInt64
  maxEffectiveBalanceElectra : Nat
  slotsPerEpochPos : 0 < slotsPerEpoch
  slotsPerEpochLt : slotsPerEpoch < 2 ^ 64
  epochsPerHistoricalVectorPos : 0 < epochsPerHistoricalVector
  epochsPerHistoricalVectorLt : epochsPerHistoricalVector < 2 ^ 64

structure Validator where
  effectiveBalance : UInt64
  activationEpoch : UInt64
  exitEpoch : UInt64
  deriving Inhabited

structure BeaconState (P : Preset) where
  slot : UInt64
  validators : { xs : Array Validator // xs.size ≤ P.validatorRegistryLimit }
  randaoMixes : Vector (Vector UInt8 32) P.epochsPerHistoricalVector
  proposerLookahead : Vector UInt64 (2 * P.slotsPerEpoch)

variable {P : Preset}

def domainBeaconAttester : ByteArray := ⟨#[1, 0, 0, 0]⟩

def isActiveValidator (v : Validator) (epoch : UInt64) : Bool :=
  decide (v.activationEpoch ≤ epoch) && decide (epoch < v.exitEpoch)

/-- The loop pushes the indices that `p` holds of. -/
def indicesWhere {α : Type} [Inhabited α] (xs : Array α) (p : α → Nat → Bool) : Array UInt64 :=
  (List.range xs.size).foldl (fun out i => if p xs[i]! i then out.push (UInt64.ofNat i) else out)
    #[]

def getActiveValidatorIndices (state : BeaconState P) (epoch : UInt64) : Array UInt64 :=
  indicesWhere state.validators.val fun v _ => isActiveValidator v epoch

def computeEpochAtSlot (P : Preset) (slot : UInt64) : UInt64 := slot / UInt64.ofNat P.slotsPerEpoch

def computeStartSlotAtEpoch (P : Preset) (epoch : UInt64) : UInt64 :=
  epoch * UInt64.ofNat P.slotsPerEpoch

theorem uint64ModOfNatToNatLt (x : UInt64) {d : Nat} (pos : 0 < d) (lt : d < 2 ^ 64) :
    (x % UInt64.ofNat d).toNat < d := by
  rw [UInt64.toNat_mod, UInt64.toNat_ofNat_of_lt' lt]
  exact Nat.mod_lt _ pos

def vmodGet {α : Type} {n : Nat} (v : Vector α n) (x : UInt64) (d : Nat) (pos : 0 < d)
    (lt : d < 2 ^ 64) (hle : d ≤ n) : α :=
  v.get ⟨(x % UInt64.ofNat d).toNat, Nat.lt_of_lt_of_le (uint64ModOfNatToNatLt x pos lt) hle⟩

/-! ## Committees -/

variable (H : Hasher Id)

def getSeed (state : BeaconState P) (epoch : UInt64) (domainType : ByteArray) :
    Vector UInt8 32 :=
  let epochsPerVector := UInt64.ofNat P.epochsPerHistoricalVector
  let mix := vmodGet state.randaoMixes (epoch + epochsPerVector - P.minSeedLookahead - 1)
    P.epochsPerHistoricalVector P.epochsPerHistoricalVectorPos P.epochsPerHistoricalVectorLt
    (Nat.le_refl _)
  bytesToRoot (sha H (domainType ++ uint64ToBytes epoch ++ vecToBytes mix))

def getCommitteeCountPerSlot (state : BeaconState P) (epoch : UInt64) : Nat :=
  let active := (getActiveValidatorIndices state epoch).size
  Nat.max 1 (Nat.min P.maxCommitteesPerSlot (active / P.slotsPerEpoch / P.targetCommitteeSize))

/-- A slice of the shuffled indices. -/
def computeCommittee (shuffleRoundCount : Nat) (indices : Array UInt64) (seed : Vector UInt8 32)
    (index count : Nat) : Array UInt64 :=
  let len := indices.size
  let start := len * index / count
  let stop := len * (index + 1) / count
  let perm := computeShuffledPermutation H shuffleRoundCount len (vecToBytes seed)
  (Array.range (stop - start)).map fun j => indices[perm[start + j]!.toNat]!

def getBeaconCommittee (state : BeaconState P) (slot : UInt64) (index : Nat) : Array UInt64 :=
  let epoch := computeEpochAtSlot P slot
  let committeesPerSlot := getCommitteeCountPerSlot state epoch
  computeCommittee H P.shuffleRoundCount (getActiveValidatorIndices state epoch)
    (getSeed H state epoch domainBeaconAttester)
    ((slot % UInt64.ofNat P.slotsPerEpoch).toNat * committeesPerSlot + index)
    (committeesPerSlot * P.slotsPerEpoch)

/-! ## Every index in one committee -/

section Committee

variable {indices : Array UInt64} {seed : Vector UInt8 32} {count : Nat}

/-- Reading a list through a permutation of its places. -/
theorem map_shuffled {perm : Array UInt64} (hn : indices.size ≤ 2 ^ 64)
    (h : Shuffled indices.size perm) :
    ((List.range indices.size).map fun i => indices[perm[i]!.toNat]!).Perm indices.toList := by
  obtain ⟨xs, hperm, hlist⟩ := h
  have hlength : xs.length = indices.size := by rw [hperm.length_eq, List.length_range]
  have hread : ((List.range indices.size).map fun i => indices[perm[i]!.toNat]!) =
      xs.map fun x => indices[x]! := by
    refine List.ext_getElem (by simp [hlength]) fun i hi _ => ?_
    have hix : i < xs.length := by simpa [hlength] using hi
    simp only [List.getElem_map, List.getElem_range]
    rw [(read_shuffled hn hperm hlist hix).2]
  have hplaces : ((List.range indices.size).map fun x => indices[x]!) = indices.toList :=
    List.ext_getElem (by simp) fun i hi _ => by
      have hix : i < indices.size := by simpa using hi
      simp [hix]
  rw [hread, ← hplaces]
  exact hperm.map _

/-- The committees of all indices below the count deal out the list. -/
theorem committees_perm (hn : indices.size ≤ 2 ^ 64) (hcount : 0 < count)
    (shuffleRoundCount : Nat) : ((List.range count).flatMap fun index =>
      (computeCommittee H shuffleRoundCount indices seed index count).toList).Perm
        indices.toList := by
  have hslices := flatMap_slices (fun i => indices[(computeShuffledPermutation H shuffleRoundCount
    indices.size (vecToBytes seed))[i]!.toNat]!) (fun k => indices.size * k / count)
    (by simp) (fun k => (slice_bounds indices.size hcount k).1) count
  have hall : indices.size * count / count = indices.size := Nat.mul_div_cancel _ hcount
  simp only [computeCommittee, Array.toList_map, Array.toList_range]
  rw [hslices, hall]
  exact map_shuffled hn (shuffled_permutation H hn shuffleRoundCount _)

/-- Committees have the same size, give or take one. -/
theorem size_computeCommittee (hcount : 0 < count) (shuffleRoundCount index : Nat) :
    indices.size / count ≤ (computeCommittee H shuffleRoundCount indices seed index count).size ∧
      (computeCommittee H shuffleRoundCount indices seed index count).size ≤
        indices.size / count + 1 := by
  have hsize : (computeCommittee H shuffleRoundCount indices seed index count).size =
      indices.size * (index + 1) / count - indices.size * index / count := by
    simp [computeCommittee]
  rw [hsize]
  exact (slice_bounds indices.size hcount index).2

end Committee

/-! ## Every active validator in one committee of an epoch -/

theorem toList_indicesWhere {α : Type} [Inhabited α] (xs : Array α) (p : α → Nat → Bool) :
    (indicesWhere xs p).toList =
      ((List.range xs.size).filter fun i => p xs[i]! i).map UInt64.ofNat := by
  have hloop : ∀ (is : List Nat) (out : Array UInt64),
      (is.foldl (fun out i => if p xs[i]! i then out.push (UInt64.ofNat i) else out) out).toList =
        out.toList ++ (is.filter fun i => p xs[i]! i).map UInt64.ofNat := by
    intro is
    induction is with
    | nil => intro out; simp
    | cons i is ih =>
        intro out
        rw [List.foldl_cons, ih, List.filter_cons]
        split <;> simp
  rw [indicesWhere, hloop]
  rfl

theorem toList_getActiveValidatorIndices (state : BeaconState P) (epoch : UInt64) :
    (getActiveValidatorIndices state epoch).toList =
      ((List.range state.validators.val.size).filter fun i =>
        isActiveValidator state.validators.val[i]! epoch).map UInt64.ofNat :=
  toList_indicesWhere _ _

theorem size_getActiveValidatorIndices (state : BeaconState P) (epoch : UInt64) :
    (getActiveValidatorIndices state epoch).size ≤ P.validatorRegistryLimit := by
  rw [← Array.length_toList, toList_getActiveValidatorIndices, List.length_map]
  refine Nat.le_trans (List.length_filter_le _ _) ?_
  rw [List.length_range]
  exact state.validators.property

theorem committeeCount_pos (state : BeaconState P) (epoch : UInt64) :
    0 < getCommitteeCountPerSlot state epoch :=
  Nat.lt_of_lt_of_le Nat.one_pos (Nat.le_max_left _ _)

/-- Any two committees of an epoch have the same size, give or take one. -/
theorem size_getBeaconCommittee (state : BeaconState P) (slot : UInt64) (index : Nat) :
    (getActiveValidatorIndices state (computeEpochAtSlot P slot)).size /
        (getCommitteeCountPerSlot state (computeEpochAtSlot P slot) * P.slotsPerEpoch) ≤
      (getBeaconCommittee H state slot index).size ∧
    (getBeaconCommittee H state slot index).size ≤
      (getActiveValidatorIndices state (computeEpochAtSlot P slot)).size /
        (getCommitteeCountPerSlot state (computeEpochAtSlot P slot) * P.slotsPerEpoch) + 1 :=
  size_computeCommittee H (Nat.mul_pos (committeeCount_pos state _) P.slotsPerEpochPos) _ _

/-- Slot `i` of an epoch that does not overflow. -/
theorem slot_of_epoch {epoch : UInt64} (hepoch : (epoch.toNat + 1) * P.slotsPerEpoch ≤ 2 ^ 64)
    {i : Nat} (hi : i < P.slotsPerEpoch) :
    computeEpochAtSlot P (computeStartSlotAtEpoch P epoch + UInt64.ofNat i) = epoch ∧
      ((computeStartSlotAtEpoch P epoch + UInt64.ofNat i) %
        UInt64.ofNat P.slotsPerEpoch).toNat = i := by
  have hper : (UInt64.ofNat P.slotsPerEpoch).toNat = P.slotsPerEpoch :=
    UInt64.toNat_ofNat_of_lt' P.slotsPerEpochLt
  have hplace : (UInt64.ofNat i).toNat = i :=
    UInt64.toNat_ofNat_of_lt' (Nat.lt_trans hi P.slotsPerEpochLt)
  rw [Nat.succ_mul] at hepoch
  have hslot : (computeStartSlotAtEpoch P epoch + UInt64.ofNat i).toNat =
      epoch.toNat * P.slotsPerEpoch + i := by
    rw [computeStartSlotAtEpoch, UInt64.toNat_add, UInt64.toNat_mul, hper, hplace,
      Nat.mod_eq_of_lt (a := epoch.toNat * P.slotsPerEpoch) (by omega),
      Nat.mod_eq_of_lt (by omega)]
  constructor
  · apply UInt64.toNat_inj.mp
    rw [computeEpochAtSlot, UInt64.toNat_div, hslot, hper, Nat.mul_comm,
      Nat.mul_add_div P.slotsPerEpochPos, Nat.div_eq_of_lt hi, Nat.add_zero]
  · rw [UInt64.toNat_mod, hslot, hper, Nat.mul_add_mod_self_right, Nat.mod_eq_of_lt hi]

/-- In any state and any epoch whose slots are numbers, whatever the hasher answers: the
committees of all slots of the epoch, taken together, are the active validators of the epoch,
each once. -/
theorem getBeaconCommittee_partition (hlimit : P.validatorRegistryLimit ≤ 2 ^ 64)
    (state : BeaconState P) {epoch : UInt64}
    (hepoch : (epoch.toNat + 1) * P.slotsPerEpoch ≤ 2 ^ 64) :
    ((List.range P.slotsPerEpoch).flatMap fun i =>
      (List.range (getCommitteeCountPerSlot state epoch)).flatMap fun index =>
        (getBeaconCommittee H state (computeStartSlotAtEpoch P epoch + UInt64.ofNat i)
          index).toList).Perm
      (((List.range state.validators.val.size).filter fun i =>
        isActiveValidator state.validators.val[i]! epoch).map UInt64.ofNat) := by
  have hrounds : ((List.range P.slotsPerEpoch).flatMap fun i =>
      (List.range (getCommitteeCountPerSlot state epoch)).flatMap fun index =>
        (getBeaconCommittee H state (computeStartSlotAtEpoch P epoch + UInt64.ofNat i)
          index).toList) =
      (List.range P.slotsPerEpoch).flatMap fun i =>
        (List.range (getCommitteeCountPerSlot state epoch)).flatMap fun index =>
          (computeCommittee H P.shuffleRoundCount (getActiveValidatorIndices state epoch)
            (getSeed H state epoch domainBeaconAttester)
            (i * getCommitteeCountPerSlot state epoch + index)
            (getCommitteeCountPerSlot state epoch * P.slotsPerEpoch)).toList := by
    refine List.flatMap_congr fun i hi => ?_
    obtain ⟨hof, hplace⟩ := slot_of_epoch hepoch (List.mem_range.mp hi)
    simp only [getBeaconCommittee, hof, hplace]
  rw [hrounds, flatMap_rounds (fun k => (computeCommittee H P.shuffleRoundCount
    (getActiveValidatorIndices state epoch) (getSeed H state epoch domainBeaconAttester) k
    (getCommitteeCountPerSlot state epoch * P.slotsPerEpoch)).toList),
    Nat.mul_comm P.slotsPerEpoch, ← toList_getActiveValidatorIndices]
  exact committees_perm H (Nat.le_trans (size_getActiveValidatorIndices state epoch) hlimit)
    (Nat.mul_pos (committeeCount_pos state epoch) P.slotsPerEpochPos) _

def minimal : Preset where
  slotsPerEpoch := 8
  maxCommitteesPerSlot := 4
  targetCommitteeSize := 4
  shuffleRoundCount := 10
  epochsPerHistoricalVector := 64
  validatorRegistryLimit := 2 ^ 40
  minSeedLookahead := 1
  maxEffectiveBalanceElectra := 2048000000000
  slotsPerEpochPos := by decide
  slotsPerEpochLt := by decide
  epochsPerHistoricalVectorPos := by decide
  epochsPerHistoricalVectorLt := by decide

/-- Three validators, of which the second has not been activated in epoch 2. -/
def sampleState : BeaconState minimal where
  slot := 0
  validators := ⟨#[⟨32000000000, 0, 100⟩, ⟨32000000000, 5, 9⟩, ⟨32000000000, 0, 100⟩], by decide⟩
  randaoMixes := Vector.replicate 64 (Vector.replicate 32 7)
  proposerLookahead := Vector.replicate 16 0

theorem getBeaconCommittee_partition_sample :
    ((List.range 8).flatMap fun i =>
      (List.range (getCommitteeCountPerSlot sampleState 2)).flatMap fun index =>
        (getBeaconCommittee referenceHasher sampleState
          (computeStartSlotAtEpoch minimal 2 + UInt64.ofNat i) index).toList).Perm [0, 2] := by
  have hactive : ((List.range sampleState.validators.val.size).filter fun i =>
      isActiveValidator sampleState.validators.val[i]! 2).map UInt64.ofNat = [0, 2] := by decide
  rw [← hactive]
  exact getBeaconCommittee_partition referenceHasher (by decide) sampleState (by decide)

end HazmatSha256.Committees
