import HazmatSha256.Foundation.Dealing
import HazmatSha256.Merkle.Layer
import HazmatSha256.Opening.Branch
set_option autoImplicit false

/-!
# Committees: the shuffle

The first part of `EthCLSpecs.Fulu.Committees`, and what it takes from `EthCLLib.Spec.Arith`: the
swap-or-not shuffle, which leaves a permutation whatever the hasher answers.
-/

namespace HazmatSha256.Committees

open Foundation Merkle Opening

/-! ## Bytes -/

/-- The first 8 bytes as a number. -/
def le8 (b : ByteArray) : Nat :=
  (List.range 8).foldl (fun acc i => acc + (b.get! i).toNat * 256 ^ i) 0

def u32leBytes (x : Nat) : ByteArray :=
  ⟨Array.ofFn fun i : Fin 4 => UInt8.ofNat ((x >>> (8 * i.val)) % 256)⟩

def uint64ToBytes (x : UInt64) : ByteArray :=
  ⟨Array.ofFn fun i : Fin 8 => (x >>> UInt64.ofNat (8 * i.val)).toUInt8⟩

/-- The hasher here is a pure one. -/
def sha (H : Hasher Id) (b : ByteArray) : ByteArray := H.hash b

/-! ## The swap-or-not shuffle -/

/-- The body of the loop over the rounds. -/
def shuffleRound (H : Hasher Id) (indexCount : Nat) (seed : ByteArray) (indices : Array UInt64)
    (round : Nat) : Array UInt64 :=
  let seedRound := seed.push (UInt8.ofNat round)
  let pivot := le8 (sha H seedRound) % indexCount
  Array.ofFn fun i : Fin indexCount =>
    let cur := indices[i.val]!.toNat
    let flip := (pivot + indexCount - cur) % indexCount
    let position := Nat.max cur flip
    -- one bit of the hash of the round and the position's high bytes
    let source := sha H (seedRound ++ u32leBytes (position / 256))
    let byteVal := (source.get! (position % 256 / 8)).toNat
    let bit := (byteVal >>> (position % 8)) % 2
    if bit == 1 then UInt64.ofNat flip else UInt64.ofNat cur

def computeShuffledPermutation (H : Hasher Id) (shuffleRoundCount indexCount : Nat)
    (seed : ByteArray) : Array UInt64 :=
  if indexCount == 0 then #[]
  else
    (List.range shuffleRoundCount).foldl (shuffleRound H indexCount seed)
      (Array.ofFn fun i : Fin indexCount => UInt64.ofNat i.val)

/-! ## It permutes -/

variable (H : Hasher Id) {n : Nat} {seed : ByteArray} {indices : Array UInt64}

/-- The indices below `n`, each once. -/
def Shuffled (n : Nat) (indices : Array UInt64) : Prop :=
  ∃ xs : List Nat, xs.Perm (List.range n) ∧ indices.toList = xs.map UInt64.ofNat

/-- What the bit of a round says of a position. -/
def takes (seedRound : ByteArray) (position : Nat) : Bool :=
  (((sha H (seedRound ++ u32leBytes (position / 256))).get! (position % 256 / 8)).toNat >>>
    (position % 8)) % 2 == 1

/-- The place of a round's element. -/
def placed (seed : ByteArray) (n round x : Nat) : Nat :=
  swapOrNot (takes H (seed.push (UInt8.ofNat round))) n
    (le8 (sha H (seed.push (UInt8.ofNat round))) % n) x

theorem shuffleRound_eq (round : Nat) : shuffleRound H n seed indices round =
    Array.ofFn fun i : Fin n => UInt64.ofNat (placed H seed n round indices[i.val]!.toNat) := by
  unfold shuffleRound placed swapOrNot
  refine congrArg Array.ofFn (funext fun i => ?_)
  rw [apply_ite UInt64.ofNat]
  rfl

/-- What is read of shuffled indices. -/
theorem read_shuffled {xs : List Nat} (hn : n ≤ 2 ^ 64) (hperm : xs.Perm (List.range n))
    (hlist : indices.toList = xs.map UInt64.ofNat) {i : Nat} (hi : i < xs.length) :
    xs[i] < n ∧ indices[i]!.toNat = xs[i] := by
  have hsmall : xs[i] < n := List.mem_range.mp (hperm.subset (List.getElem_mem hi))
  have hget : indices[i]! = UInt64.ofNat xs[i] := by
    rw [← Array.getElem!_toList, hlist]
    simp [hi]
  rw [hget]
  exact ⟨hsmall, UInt64.toNat_ofNat_of_lt' (Nat.lt_of_lt_of_le hsmall hn)⟩

theorem Shuffled.round (hn : n ≤ 2 ^ 64) (h : Shuffled n indices) (round : Nat) :
    Shuffled n (shuffleRound H n seed indices round) := by
  obtain ⟨xs, hperm, hlist⟩ := h
  have hlength : xs.length = n := by rw [hperm.length_eq, List.length_range]
  have hpivot : ∀ x < n, le8 (sha H (seed.push (UInt8.ofNat round))) % n < n := fun x hx =>
    Nat.mod_lt _ (Nat.zero_lt_of_lt hx)
  refine ⟨xs.map (placed H seed n round), perm_map_of_involution ?_ ?_ hperm, ?_⟩
  · exact fun x hx => swapOrNot_lt _ hx
  · exact fun x hx => swapOrNot_swapOrNot _ (hpivot x hx) hx
  · rw [shuffleRound_eq, Array.toList_ofFn]
    refine List.ext_getElem (by simp [hlength]) fun i hi _ => ?_
    have hix : i < xs.length := by simpa [hlength] using hi
    simp only [List.getElem_ofFn, List.getElem_map]
    rw [(read_shuffled hn hperm hlist hix).2]

theorem Shuffled.start (n : Nat) :
    Shuffled n (Array.ofFn fun i : Fin n => UInt64.ofNat i.val) := by
  refine ⟨List.range n, .refl _, ?_⟩
  rw [Array.toList_ofFn]
  exact List.ext_getElem (by simp) fun i _ _ => by simp

theorem Shuffled.rounds (hn : n ≤ 2 ^ 64) (rounds : List Nat) : Shuffled n indices →
    Shuffled n (rounds.foldl (shuffleRound H n seed) indices) := by
  induction rounds generalizing indices with
  | nil => exact id
  | cons round rest ih => exact fun h => ih (h.round H hn round)

theorem shuffled_permutation (hn : n ≤ 2 ^ 64) (shuffleRoundCount : Nat) (seed : ByteArray) :
    Shuffled n (computeShuffledPermutation H shuffleRoundCount n seed) := by
  unfold computeShuffledPermutation
  split
  next hzero =>
    obtain rfl : n = 0 := by simpa using hzero
    exact ⟨[], .refl _, rfl⟩
  next => exact .rounds H hn _ (.start n)

/-- Whatever the hasher answers, the seed and the number of rounds: every index below the count
is in the permutation once, and nothing else is. -/
theorem computeShuffledPermutation_perm (hn : n ≤ 2 ^ 64) (shuffleRoundCount : Nat)
    (seed : ByteArray) :
    (computeShuffledPermutation H shuffleRoundCount n seed).toList.Perm
      ((List.range n).map UInt64.ofNat) := by
  obtain ⟨xs, hperm, hlist⟩ := shuffled_permutation H hn shuffleRoundCount seed
  rw [hlist]
  exact hperm.map UInt64.ofNat

/-- The hasher of the reference. -/
def referenceHasher : Hasher Id where
  hash := Spec.hash
  combine := Spec.combine
  batchCombine := Spec.sha256BatchCombineSpec

theorem computeShuffledPermutation_perm_thousand :
    (computeShuffledPermutation referenceHasher 90 1000 zero32).toList.Perm
      ((List.range 1000).map UInt64.ofNat) :=
  computeShuffledPermutation_perm referenceHasher (by decide) 90 zero32

end HazmatSha256.Committees
