import HazmatSha256.Committees.Assignment
import HazmatSha256.Signing.Root
set_option autoImplicit false

/-!
# Committees: who proposes

Balance-weighted selection, the last part of `EthCLSpecs.Fulu.Committees`, and the lookahead of
proposers that `EthCLSpecs.Fulu.EpochProcessing` moves on at the end of an epoch.
-/

namespace HazmatSha256.Committees

open Foundation Merkle Opening

/-! ## Errors -/

inductive StateTransitionError where
  | assert (descr : String)
  | todo (what : String)
  | outOfScope (what : String)
  | outOfBounds (idx bound : Nat)
  | arithmetic (descr : String)
  | listFull (field : String)

/-- The next count, if it is a `uint64`. -/
def checkedSucc (i : Nat) (descr : String) :
    Except StateTransitionError { j : Nat // j = i + 1 ∧ j < UInt64.size } :=
  if h : i + 1 < UInt64.size then .ok ⟨i + 1, rfl, h⟩ else .error (.arithmetic descr)

def counterBudgetUInt64 (i : Nat) : Nat := UInt64.size - i

/-! ## Balance-weighted selection -/

def maxRandomValue : Nat := 65535

def le2 (b : ByteArray) (off : Nat) : Nat := (b.get! off).toNat + (b.get! (off + 1)).toNat * 256

def textCounter : String := "compute_balance_weighted_selection: i += 1 past 2**64 - 1"

def textTotal : String := "(total > 0)"

section Source

variable (H : Hasher Id) (P : Preset)

/-- Where pass `i` looks. -/
def candidate (perm : Array UInt64) (total : Nat) (shuffle : Bool) (i : Nat) : Nat :=
  if shuffle then perm[i % total]!.toNat else i % total

/-- One call a pass, until enough are selected or the counter overflows. -/
def cbwsAux (indices effBals : Array Nat) (perm : Array UInt64) (seed : ByteArray)
    (total size : Nat) (shuffle : Bool) (i : Nat) (randomBytes : ByteArray)
    (selected : Array UInt64) : Except StateTransitionError (Array UInt64) :=
  if selected.size ≥ size then .ok selected
  else
    let offset := (i % 16) * 2
    let randomBytes := if offset == 0 then sha H (seed ++ uint64ToBytes (UInt64.ofNat (i / 16)))
      else randomBytes
    let nextIndex := candidate perm total shuffle i
    let weight := effBals[nextIndex]! * maxRandomValue
    let randomValue := le2 randomBytes offset
    let threshold := P.maxEffectiveBalanceElectra * randomValue
    let selected := if weight ≥ threshold then selected.push (UInt64.ofNat indices[nextIndex]!)
      else selected
    match checkedSucc i textCounter with
    | .error e => .error e
    | .ok s => cbwsAux indices effBals perm seed total size shuffle s.val randomBytes selected
termination_by counterBudgetUInt64 i
decreasing_by
  obtain ⟨hnext, _⟩ := s.property
  rw [counterBudgetUInt64, counterBudgetUInt64, hnext]
  omega

variable {P}

def computeBalanceWeightedSelection (state : BeaconState P) (indices : Array UInt64)
    (seed : ByteArray) (size : Nat) (shuffle : Bool) :
    Except StateTransitionError (Array UInt64) := do
  let total := indices.size
  if total > 0 then
    let idxNat := indices.map (·.toNat)
    let effBals := indices.map fun vi =>
      (state.validators.val[vi.toNat]!).effectiveBalance.toNat
    let perm := if shuffle then computeShuffledPermutation H P.shuffleRoundCount total seed else #[]
    cbwsAux H P idxNat effBals perm seed total size shuffle 0 .empty #[]
  else throw (.assert textTotal)

def computeProposerIndices (state : BeaconState P) (epoch : UInt64) (seed : Vector UInt8 32)
    (indices : Array UInt64) : Except StateTransitionError (Array UInt64) :=
  let startSlot := computeStartSlotAtEpoch P epoch
  (Array.range P.slotsPerEpoch).mapM fun i => do
    let sd := sha H (vecToBytes seed ++ uint64ToBytes (startSlot + UInt64.ofNat i))
    return (← computeBalanceWeightedSelection H state indices sd 1 true)[0]!

def domainBeaconProposer : ByteArray := ⟨#[0, 0, 0, 0]⟩

def getBeaconProposerIndices (state : BeaconState P) (epoch : UInt64) :
    Except StateTransitionError (Array UInt64) :=
  computeProposerIndices H state epoch (getSeed H state epoch domainBeaconProposer)
    (getActiveValidatorIndices state epoch)

def currentEpochOf (state : BeaconState P) : UInt64 := computeEpochAtSlot P state.slot

/-- The proposers of the epoch that ends go, and those of a later one come behind the rest. -/
def processProposerLookahead (state : BeaconState P) :
    Except StateTransitionError (BeaconState P) := do
  let newProposers ←
    getBeaconProposerIndices H state (currentEpochOf state + P.minSeedLookahead + 1)
  let old := state.proposerLookahead
  pure { state with
    proposerLookahead := Vector.ofFn fun i : Fin (2 * P.slotsPerEpoch) =>
      if i.val < P.slotsPerEpoch then Signing.vget old (i.val + P.slotsPerEpoch)
      else newProposers[i.val - P.slotsPerEpoch]! }

end Source

/-! ## What is selected -/

section Selection

variable {H : Hasher Id} {P : Preset} {indices effBals : Array Nat} {perm : Array UInt64}
  {seed : ByteArray} {total size : Nat} {shuffle : Bool}

/-- A selection that ends has the size that was asked for, and all of it was looked at. -/
theorem cbwsAux_ok {Q : UInt64 → Prop}
    (hmem : ∀ i, Q (UInt64.ofNat indices[candidate perm total shuffle i]!))
    {i : Nat} {randomBytes : ByteArray} {selected out : Array UInt64}
    (h : cbwsAux H P indices effBals perm seed total size shuffle i randomBytes selected = .ok out)
    (hsize : selected.size ≤ size) (hselected : ∀ v ∈ selected, Q v) :
    out.size = size ∧ ∀ v ∈ out, Q v := by
  fun_induction cbwsAux H P indices effBals perm seed total size shuffle i randomBytes selected with
  | case1 i randomBytes selected hfull =>
      cases h
      exact ⟨Nat.le_antisymm hsize hfull, hselected⟩
  | case2 => cases h
  | case3 i _ selected hroom _ _ nextIndex _ _ _ next s _ ih =>
      refine ih h ?_ ?_
      · simp only [next]
        split
        · rw [Array.size_push]
          omega
        · exact hsize
      · intro v hv
        simp only [next] at hv
        split at hv
        · rcases Array.mem_push.mp hv with hv | rfl
          · exact hselected v hv
          · exact hmem i
        · exact hselected v hv

/-- A selection fails only where the counter overflows. -/
theorem cbwsAux_error {i : Nat} {randomBytes : ByteArray} {selected : Array UInt64}
    {e : StateTransitionError}
    (h : cbwsAux H P indices effBals perm seed total size shuffle i randomBytes selected =
      .error e) : e = .arithmetic textCounter := by
  fun_induction cbwsAux H P indices effBals perm seed total size shuffle i randomBytes selected with
  | case1 => cases h
  | case2 _ _ _ _ e' hsucc =>
      obtain rfl : e' = e := Except.error.inj h
      unfold checkedSucc at hsucc
      split at hsucc
      · cases hsucc
      · exact (Except.error.inj hsucc).symm
  | case3 _ _ _ _ _ _ _ _ _ _ _ _ _ ih => exact ih h

end Selection

variable {H : Hasher Id} {P : Preset} {state : BeaconState P} {indices : Array UInt64}
  {seed : ByteArray} {size : Nat}

theorem candidate_lt {perm : Array UInt64} {total : Nat} (htotal : 0 < total)
    (hsmall : total ≤ 2 ^ 64) (hperm : Shuffled total perm) (i : Nat) :
    candidate perm total true i < total := by
  obtain ⟨xs, hxs, hlist⟩ := hperm
  have hplace : i % total < xs.length := by
    rw [hxs.length_eq, List.length_range]
    exact Nat.mod_lt i htotal
  obtain ⟨hlt, hread⟩ := read_shuffled hsmall hxs hlist hplace
  rwa [candidate, if_pos rfl, hread]

/-- What is selected by the shuffle is among the candidates. -/
theorem selection_ok (hsmall : indices.size ≤ 2 ^ 64) {out : Array UInt64}
    (h : computeBalanceWeightedSelection H state indices seed size true = .ok out) :
    out.size = size ∧ ∀ v ∈ out, v ∈ indices := by
  unfold computeBalanceWeightedSelection at h
  dsimp only at h
  split at h
  next htotal =>
    refine cbwsAux_ok (fun i => ?_) h (Nat.zero_le _) (by simp)
    have hplace := candidate_lt htotal hsmall
      (shuffled_permutation H hsmall P.shuffleRoundCount seed) i
    rw [if_pos rfl]
    simp [hplace]
  next => cases h

theorem selection_error {shuffle : Bool} {e : StateTransitionError}
    (h : computeBalanceWeightedSelection H state indices seed size shuffle = .error e) :
    (indices = #[] ∧ e = .assert textTotal) ∨ e = .arithmetic textCounter := by
  unfold computeBalanceWeightedSelection at h
  dsimp only at h
  split at h
  next => exact .inr (cbwsAux_error h)
  next htotal =>
    refine .inl ⟨Array.size_eq_zero_iff.mp (Nat.eq_zero_of_not_pos htotal), ?_⟩
    exact (Except.error.inj h).symm

/-! ## Proposers -/

section Lists

variable {α β ε : Type} {f : α → Except ε β}

theorem mapM_ok : ∀ {xs : List α} {ys : List β}, xs.mapM f = .ok ys →
    ys.length = xs.length ∧ ∀ y ∈ ys, ∃ x ∈ xs, f x = .ok y := by
  intro xs
  induction xs with
  | nil =>
      intro ys h
      cases h
      exact ⟨rfl, nofun⟩
  | cons x xs ih =>
      intro ys h
      rw [List.mapM_cons] at h
      cases hx : f x with
      | error e =>
          rw [hx] at h
          cases h
      | ok y =>
          rw [hx] at h
          cases hxs : xs.mapM f with
          | error e =>
              simp only [hxs] at h
              cases h
          | ok zs =>
              simp only [hxs] at h
              cases h
              obtain ⟨hlength, hmem⟩ := ih hxs
              refine ⟨congrArg Nat.succ hlength, fun z hz => ?_⟩
              rcases List.mem_cons.mp hz with rfl | hz
              · exact ⟨x, List.mem_cons_self, hx⟩
              · obtain ⟨w, hw, hfw⟩ := hmem z hz
                exact ⟨w, List.mem_cons_of_mem x hw, hfw⟩

theorem exists_of_mapM_error {e : ε} : ∀ {xs : List α}, xs.mapM f = .error e →
    ∃ x ∈ xs, f x = .error e := by
  intro xs
  induction xs with
  | nil =>
      intro h
      cases h
  | cons x xs ih =>
      intro h
      rw [List.mapM_cons] at h
      cases hx : f x with
      | error e' =>
          rw [hx] at h
          cases h
          exact ⟨x, List.mem_cons_self, hx⟩
      | ok y =>
          rw [hx] at h
          cases hxs : xs.mapM f with
          | error e' =>
              simp only [hxs] at h
              cases h
              obtain ⟨z, hz, hfz⟩ := ih hxs
              exact ⟨z, List.mem_cons_of_mem x hz, hfz⟩
          | ok zs =>
              simp only [hxs] at h
              cases h

end Lists

/-- The proposer of one slot. -/
def proposerAt (H : Hasher Id) (state : BeaconState P) (epoch : UInt64) (seed : Vector UInt8 32)
    (indices : Array UInt64) (i : Nat) : Except StateTransitionError UInt64 := do
  let sd := sha H (vecToBytes seed ++
    uint64ToBytes (computeStartSlotAtEpoch P epoch + UInt64.ofNat i))
  return (← computeBalanceWeightedSelection H state indices sd 1 true)[0]!

theorem toList_computeProposerIndices (H : Hasher Id) (state : BeaconState P) (epoch : UInt64)
    (seed : Vector UInt8 32) (indices : Array UInt64) :
    Array.toList <$> computeProposerIndices H state epoch seed indices =
      (List.range P.slotsPerEpoch).mapM (proposerAt H state epoch seed indices) := by
  rw [computeProposerIndices, Array.toList_mapM, Array.toList_range]
  rfl

theorem proposerAt_ok (hsmall : indices.size ≤ 2 ^ 64) {epoch : UInt64} {seed : Vector UInt8 32}
    {i : Nat} {v : UInt64} (h : proposerAt H state epoch seed indices i = .ok v) :
    v ∈ indices := by
  unfold proposerAt at h
  cases hout : computeBalanceWeightedSelection H state indices (sha H (vecToBytes seed ++
      uint64ToBytes (computeStartSlotAtEpoch P epoch + UInt64.ofNat i))) 1 true with
  | error e =>
      simp only [hout] at h
      cases h
  | ok out =>
      simp only [hout] at h
      cases h
      obtain ⟨hsize, hmem⟩ := selection_ok hsmall hout
      have hfirst : 0 < out.size := by omega
      rw [getElem!_pos out 0 hfirst]
      exact hmem _ (Array.getElem_mem hfirst)

/-- One active validator for each slot of the epoch. -/
theorem proposers_ok (hlimit : P.validatorRegistryLimit ≤ 2 ^ 64) {epoch : UInt64}
    {out : Array UInt64} (h : getBeaconProposerIndices H state epoch = .ok out) :
    out.size = P.slotsPerEpoch ∧ ∀ v ∈ out, v ∈ getActiveValidatorIndices state epoch := by
  have hslots := toList_computeProposerIndices H state epoch
    (getSeed H state epoch domainBeaconProposer) (getActiveValidatorIndices state epoch)
  rw [getBeaconProposerIndices] at h
  rw [h] at hslots
  obtain ⟨hlength, hmem⟩ := mapM_ok hslots.symm
  rw [List.length_range, Array.length_toList] at hlength
  refine ⟨hlength, fun v hv => ?_⟩
  obtain ⟨i, -, hi⟩ := hmem v (Array.mem_toList_iff.mpr hv)
  exact proposerAt_ok (Nat.le_trans (size_getActiveValidatorIndices state epoch) hlimit) hi

/-- It is a selection that fails. -/
theorem failed_selection {epoch : UInt64} {e : StateTransitionError}
    (h : getBeaconProposerIndices H state epoch = .error e) : ∃ seed,
      computeBalanceWeightedSelection H state (getActiveValidatorIndices state epoch) seed 1 true =
        .error e := by
  have hslots := toList_computeProposerIndices H state epoch
    (getSeed H state epoch domainBeaconProposer) (getActiveValidatorIndices state epoch)
  rw [getBeaconProposerIndices] at h
  rw [h] at hslots
  obtain ⟨i, -, hi⟩ := exists_of_mapM_error hslots.symm
  refine ⟨sha H (vecToBytes (getSeed H state epoch domainBeaconProposer) ++
    uint64ToBytes (computeStartSlotAtEpoch P epoch + UInt64.ofNat i)), ?_⟩
  unfold proposerAt at hi
  cases hout : computeBalanceWeightedSelection H state (getActiveValidatorIndices state epoch)
      (sha H (vecToBytes (getSeed H state epoch domainBeaconProposer) ++
        uint64ToBytes (computeStartSlotAtEpoch P epoch + UInt64.ofNat i))) 1 true with
  | error e' =>
      simp only [hout] at hi
      cases hi
      rfl
  | ok out =>
      simp only [hout] at hi
      cases hi

/-! ## The lookahead -/

theorem vget_ofFn {α : Type} [Inhabited α] {n : Nat} (f : Fin n → α) {i : Nat} (hi : i < n) :
    Signing.vget (Vector.ofFn f) i = f ⟨i, hi⟩ := by
  simp [Signing.vget, hi]

/-- The epoch whose proposers are drawn at the end of the current one. -/
def drawnEpoch (state : BeaconState P) : UInt64 := currentEpochOf state + P.minSeedLookahead + 1

theorem lookahead_ok (hlimit : P.validatorRegistryLimit ≤ 2 ^ 64) {state' : BeaconState P}
    (h : processProposerLookahead H state = .ok state') :
    state' = { state with proposerLookahead := state'.proposerLookahead } ∧
      ∀ i < P.slotsPerEpoch,
        Signing.vget state'.proposerLookahead i =
          Signing.vget state.proposerLookahead (i + P.slotsPerEpoch) ∧
        Signing.vget state'.proposerLookahead (i + P.slotsPerEpoch) ∈
          getActiveValidatorIndices state (drawnEpoch state) := by
  unfold processProposerLookahead at h
  cases hout : getBeaconProposerIndices H state (currentEpochOf state + P.minSeedLookahead + 1) with
  | error e =>
      simp only [hout] at h
      cases h
  | ok out =>
      simp only [hout] at h
      cases h
      obtain ⟨hsize, hmem⟩ := proposers_ok hlimit hout
      refine ⟨rfl, fun i hi => ?_⟩
      have hlow : i < 2 * P.slotsPerEpoch := by omega
      have hhigh : i + P.slotsPerEpoch < 2 * P.slotsPerEpoch := by omega
      have hlast : i < out.size := by rwa [hsize]
      constructor
      · rw [vget_ofFn _ hlow]
        exact if_pos hi
      · have hnot : ¬ i + P.slotsPerEpoch < P.slotsPerEpoch := by omega
        rw [vget_ofFn _ hhigh, if_neg hnot, Nat.add_sub_cancel, getElem!_pos out i hlast]
        exact hmem _ (Array.getElem_mem hlast)

theorem failed_proposers {e : StateTransitionError}
    (h : processProposerLookahead H state = .error e) :
    getBeaconProposerIndices H state (drawnEpoch state) = .error e := by
  unfold processProposerLookahead at h
  cases hout : getBeaconProposerIndices H state (currentEpochOf state + P.minSeedLookahead + 1) with
  | error e' =>
      simp only [hout] at h
      cases h
      exact hout
  | ok out =>
      simp only [hout] at h
      cases h

/-- The step fails where nobody is active then, or a counter overflows. -/
theorem lookahead_error {e : StateTransitionError}
    (h : processProposerLookahead H state = .error e) :
    (getActiveValidatorIndices state (drawnEpoch state) = #[] ∧ e = .assert textTotal) ∨
      e = .arithmetic textCounter := by
  obtain ⟨_, hselection⟩ := failed_selection (failed_proposers h)
  exact selection_error hselection

/-- The proposer of the current slot. -/
def getBeaconProposerIndex (state : BeaconState P) : UInt64 :=
  vmodGet state.proposerLookahead state.slot P.slotsPerEpoch P.slotsPerEpochPos P.slotsPerEpochLt
    (Nat.le_mul_of_pos_left _ Nat.two_pos)

theorem get_eq_vget {α : Type} [Inhabited α] {n : Nat} (v : Vector α n) (i : Fin n) :
    v.get i = Signing.vget v i.val := by
  simp [Signing.vget, Vector.get]

theorem getBeaconProposerIndex_eq (state : BeaconState P) : ∃ i < P.slotsPerEpoch,
    getBeaconProposerIndex state = Signing.vget state.proposerLookahead i := by
  have hplace := uint64ModOfNatToNatLt state.slot P.slotsPerEpochPos P.slotsPerEpochLt
  refine ⟨_, hplace, ?_⟩
  rw [getBeaconProposerIndex, vmodGet, get_eq_vget]

/-- A run from the second end of an epoch on: `Drawn a b s` if the proposers of this epoch were
drawn in `a` and those of the next in `b`. Between two ends anything else may change, as blocks
do not write the lookahead. -/
inductive Drawn (H : Hasher Id) : BeaconState P → BeaconState P → BeaconState P → Prop
  | fill {a a' b b' : BeaconState P} : processProposerLookahead H a = .ok a' →
      b.proposerLookahead = a'.proposerLookahead → processProposerLookahead H b = .ok b' →
      Drawn H a b b'
  | other {a b s s' : BeaconState P} : Drawn H a b s →
      s'.proposerLookahead = s.proposerLookahead → Drawn H a b s'
  | epoch {a b s s' : BeaconState P} : Drawn H a b s → processProposerLookahead H s = .ok s' →
      Drawn H b s s'

theorem Drawn.active (hlimit : P.validatorRegistryLimit ≤ 2 ^ 64) {a b s : BeaconState P}
    (h : Drawn H a b s) : ∀ i < P.slotsPerEpoch,
      Signing.vget s.proposerLookahead i ∈ getActiveValidatorIndices a (drawnEpoch a) ∧
      Signing.vget s.proposerLookahead (i + P.slotsPerEpoch) ∈
        getActiveValidatorIndices b (drawnEpoch b) := by
  induction h with
  | fill ha hkeep hb =>
      intro i hi
      obtain ⟨hmoved, hdrawn⟩ := (lookahead_ok hlimit hb).2 i hi
      rw [hmoved, hkeep]
      exact ⟨((lookahead_ok hlimit ha).2 i hi).2, hdrawn⟩
  | other _ hkeep ih =>
      rw [hkeep]
      exact ih
  | epoch _ hs ih =>
      intro i hi
      obtain ⟨hmoved, hdrawn⟩ := (lookahead_ok hlimit hs).2 i hi
      rw [hmoved]
      exact ⟨(ih i hi).2, hdrawn⟩

/-- In every state of every run the proposer of the slot is a validator that was active, in the
registry of the state in which it was drawn, for the epoch that it was drawn for. -/
theorem getBeaconProposerIndex_active (hlimit : P.validatorRegistryLimit ≤ 2 ^ 64)
    {a b s : BeaconState P} (h : Drawn H a b s) : ∃ k < a.validators.val.size,
      getBeaconProposerIndex s = UInt64.ofNat k ∧
        isActiveValidator a.validators.val[k]! (drawnEpoch a) = true := by
  obtain ⟨i, hi, hproposer⟩ := getBeaconProposerIndex_eq s
  have hmem := Array.mem_toList_iff.mpr (h.active hlimit i hi).1
  rw [toList_getActiveValidatorIndices] at hmem
  obtain ⟨k, hk, heq⟩ := List.mem_map.mp hmem
  obtain ⟨hrange, hactive⟩ := List.mem_filter.mp hk
  exact ⟨k, List.mem_range.mp hrange, hproposer.trans heq.symm, hactive⟩

/-- A hasher by which the first candidate of a selection is always taken. -/
def zeroHasher : Hasher Id where
  hash _ := zero32
  combine _ _ := zero32
  batchCombine ls _ := ls.map fun _ => zero32

theorem cbwsAux_full {indices effBals : Array Nat} {perm selected : Array UInt64}
    {total i : Nat} {shuffle : Bool} {randomBytes : ByteArray} (h : size ≤ selected.size) :
    cbwsAux H P indices effBals perm seed total size shuffle i randomBytes selected =
      .ok selected := by
  rw [cbwsAux, if_pos h]

theorem zero_selection (hindices : 0 < indices.size) (seed : ByteArray) : ∃ out,
    computeBalanceWeightedSelection zeroHasher state indices seed 1 true = .ok out := by
  have hrandom : le2 zero32 0 = 0 := by decide
  unfold computeBalanceWeightedSelection
  dsimp only
  rw [if_pos hindices, cbwsAux]
  -- pass 0 reads the random value 0, which every weight reaches
  simp only [List.size_toArray, List.length_nil, ge_iff_le, nonpos_iff_eq_zero, one_ne_zero,
    ↓reduceIte, checkedSucc, zero_add, UInt64.size, Nat.one_lt_ofNat, ↓reduceDIte, Nat.reduceAdd,
    zeroHasher, Nat.zero_mod, zero_mul, BEq.rfl, sha, Nat.zero_div, UInt64.reduceOfNat, hrandom,
    mul_zero, zero_le, List.push_toArray, List.nil_append]
  exact ⟨_, cbwsAux_full (Nat.le_refl 1)⟩

theorem zero_lookahead (hactive : 0 < (getActiveValidatorIndices state (drawnEpoch state)).size) :
    ∃ state', processProposerLookahead zeroHasher state = .ok state' := by
  cases hend : processProposerLookahead zeroHasher state with
  | ok state' => exact ⟨state', rfl⟩
  | error e =>
      obtain ⟨seed, hfailed⟩ := failed_selection (failed_proposers hend)
      obtain ⟨out, hout⟩ := zero_selection hactive seed
      rw [hout] at hfailed
      cases hfailed

theorem getBeaconProposerIndex_active_sample : ∃ s : BeaconState minimal,
    ∃ k < sampleState.validators.val.size, getBeaconProposerIndex s = UInt64.ofNat k ∧
      isActiveValidator sampleState.validators.val[k]! (drawnEpoch sampleState) = true := by
  have hactive : 0 < (getActiveValidatorIndices sampleState (drawnEpoch sampleState)).size := by
    decide
  obtain ⟨s₁, h₁⟩ := zero_lookahead hactive
  have hsame := (lookahead_ok (by decide) h₁).1
  have hactive₁ : 0 < (getActiveValidatorIndices s₁ (drawnEpoch s₁)).size := by
    rw [hsame]
    exact hactive
  obtain ⟨s₂, h₂⟩ := zero_lookahead hactive₁
  exact ⟨s₂, getBeaconProposerIndex_active (by decide) (.fill h₁ rfl h₂)⟩

end HazmatSha256.Committees
