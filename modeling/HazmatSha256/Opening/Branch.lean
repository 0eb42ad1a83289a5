import HazmatSha256.Cache.Path
import HazmatSha256.Foundation.Opening
import HazmatSha256.Ssz.Bits
set_option autoImplicit false

/-!
# Opening: branches

`EthCLLib.Spec.MerklePath` and the Merkle half of `SigningRoot`: the root that a leaf and a
branch climb to, and the check of a branch against a root.
-/

namespace HazmatSha256.Opening

open Foundation Shape Boxed Isal Evp Shim Merkle Ssz Cache

/-! ## Bytes of fixed length -/

def vecToBytes {n : Nat} (v : Vector UInt8 n) : ByteArray := ⟨v.toArray⟩

def bytesToVec (n : Nat) (b : ByteArray) : Vector UInt8 n :=
  Vector.ofFn fun i : Fin n => b.get! i.val

def bytesToRoot (b : ByteArray) : Vector UInt8 32 := bytesToVec 32 b

@[simp] theorem size_vecToBytes {n : Nat} (v : Vector UInt8 n) : (vecToBytes v).size = n :=
  v.size_toArray

theorem vecToBytes_bytesToVec {n : Nat} {b : ByteArray} (h : b.size = n) :
    vecToBytes (bytesToVec n b) = b := by
  apply ByteArray.ext
  change (Vector.ofFn fun i : Fin n => b.get! i.val).toArray = b.data
  rw [Vector.toArray_ofFn]
  refine Array.ext (by rw [Array.size_ofFn, ← h]; rfl) fun i _ hi => ?_
  rw [Array.getElem_ofFn]
  exact get!_eq hi

@[simp] theorem bytesToVec_vecToBytes {n : Nat} (v : Vector UInt8 n) :
    bytesToVec n (vecToBytes v) = v := by
  ext i hi
  rw [bytesToVec, Vector.getElem_ofFn, get!_eq (by rwa [size_vecToBytes])]
  rfl

theorem vecToBytes_bytesToRoot {b : ByteArray} (h : b.size = bytesPerChunk) :
    vecToBytes (bytesToRoot b) = b := vecToBytes_bytesToVec h

/-- A digest and its vector say the same. -/
theorem bytesToRoot_eq_iff {b : ByteArray} (h : b.size = bytesPerChunk) {v : Vector UInt8 32} :
    bytesToRoot b = v ↔ b = vecToBytes v := by
  constructor
  · rintro rfl
    exact (vecToBytes_bytesToRoot h).symm
  · rintro rfl
    exact bytesToVec_vecToBytes v

theorem bytesToRoot_inj {a b : ByteArray} (ha : a.size = bytesPerChunk)
    (hb : b.size = bytesPerChunk) (h : bytesToRoot a = bytesToRoot b) : a = b :=
  ((bytesToRoot_eq_iff ha).mp h).trans (vecToBytes_bytesToRoot hb)

/-! ## The check -/

/-- Does the node stand on the right at level `i`? -/
def routeRight (index i : Nat) : Bool := (index >>> i) &&& 1 == 1

section Source

variable {m : Type → Type} [Monad m]

/-- Level `i` mixes the sibling in on the side that bit `i` of `index` picks; a sibling that is
not there is an error. -/
def mixSibling (H : Hasher m) (branch : Array (Vector UInt8 32)) (index : Nat) (value : ByteArray)
    (i : Nat) : ExceptT IndexError m ByteArray := do
  let sibling ← (if h : i < branch.size then pure (vecToBytes branch[i])
    else throw (.indexError i branch.size) : ExceptT IndexError m ByteArray)
  if routeRight index i then H.combine sibling value else H.combine value sibling

def computeMerkleBranchRoot (H : Hasher m) (leaf : Vector UInt8 32)
    (branch : Array (Vector UInt8 32)) (depth index : Nat) :
    ExceptT IndexError m (Vector UInt8 32) := do
  let value ← (List.range depth).foldlM (mixSibling H branch index) (vecToBytes leaf)
  return bytesToRoot value

/-- A branch of another length is no proof; otherwise the roots are compared. -/
def isValidMerkleBranch (H : Hasher m) (leaf : Vector UInt8 32)
    (branch : Array (Vector UInt8 32)) (depth index : Nat) (root : Vector UInt8 32) : m Bool :=
  if branch.size = depth then do
    let computed ← (computeMerkleBranchRoot H leaf branch depth index).run
    match computed with
    | .ok value => pure (value == root)
    | .error _ => pure false
  else pure false

end Source

/-! ## What it computes -/

theorem routeRight_eq (index i : Nat) : routeRight index i = index.testBit i := by
  rw [routeRight, Nat.testBit, Nat.and_comm]
  rcases Nat.mod_two_eq_zero_or_one (index >>> i) with h | h <;> simp [Nat.one_and_eq_mod_two, h]

/-- The lowest `k` siblings, the topmost of them first. -/
def lowest (branch : Array (Vector UInt8 32)) (k : Nat) : List ByteArray :=
  ((branch.toList.take k).map vecToBytes).reverse

/-- The lowest `k` steps. -/
def way (branch : Array (Vector UInt8 32)) (index k : Nat) : List (Bool × ByteArray) :=
  (steps k index).zip (lowest branch k)

theorem way_succ {branch : Array (Vector UInt8 32)} {k : Nat} (hk : k < branch.size)
    (index : Nat) : way branch index (k + 1) =
      (index.testBit k, vecToBytes branch[k]) :: way branch index k := by
  have htake : branch.toList.take (k + 1) = branch.toList.take k ++ [branch[k]] := by
    rw [List.take_succ_eq_append_getElem (by simpa using hk), Array.getElem_toList]
  rw [way, lowest, htake, List.map_append, List.reverse_append]
  rfl

/-- The root that the leaf and the first `k` siblings climb to. -/
def climbTo (leaf : Vector UInt8 32) (branch : Array (Vector UInt8 32)) (index k : Nat) :
    ByteArray :=
  climb Spec.combine (vecToBytes leaf) (way branch index k)

theorem size_climbTo (leaf : Vector UInt8 32) (branch : Array (Vector UInt8 32)) (index k : Nat) :
    (climbTo leaf branch index k).size = bytesPerChunk := by
  unfold climbTo
  cases way branch index k with
  | nil => exact size_vecToBytes leaf
  | cons step rest => exact size_combine _ _

/-- What the levels compute, or the first sibling that is not there. -/
def reached (leaf : Vector UInt8 32) (branch : Array (Vector UInt8 32)) (index k : Nat) :
    Except IndexError ByteArray :=
  if k ≤ branch.size then .ok (climbTo leaf branch index k)
  else .error (.indexError branch.size branch.size)

section Runs

variable {σ κ : Type} {host : Host σ κ}

variable {branch : Array (Vector UInt8 32)} {i : Nat}

theorem mixSibling_missing (h : ¬ i < branch.size) (index : Nat) (value : ByteArray) :
    (mixSibling (native host) branch index value i).run =
      pure (.error (.indexError i branch.size)) := by
  rw [mixSibling, dif_neg h]
  rfl

theorem mixSibling_computes (sound : host.Sound) (h : i < branch.size) (index : Nat)
    {value : ByteArray} (hvalue : value.size = bytesPerChunk) : Computes host True
      (mixSibling (native host) branch index value i).run
      (.ok (climb Spec.combine value [(index.testBit i, vecToBytes branch[i])])) := by
  have hfits : Fits value := fits_of_size hvalue
  have hsibling : Fits (vecToBytes branch[i]) := fits_of_size (size_vecToBytes _)
  rw [mixSibling, dif_pos h, ← routeRight_eq]
  cases hroute : routeRight index i with
  | false =>
      refine Computes.bind (native_combine_computes sound (fun _ => hfits) fun _ => hsibling) ?_
      exact Computes.ret _
  | true =>
      refine Computes.bind (native_combine_computes sound (fun _ => hsibling) fun _ => hfits) ?_
      exact Computes.ret _

/-- Level by level. -/
theorem levels_compute (sound : host.Sound) (leaf : Vector UInt8 32)
    (branch : Array (Vector UInt8 32)) (index : Nat) : ∀ k, Computes host True
      ((List.range k).foldlM (mixSibling (native host) branch index) (vecToBytes leaf)).run
      (reached leaf branch index k) := by
  intro k
  induction k with
  | zero =>
      rw [reached, if_pos (Nat.zero_le _)]
      exact Computes.ret _
  | succ k ih =>
      rw [List.range_succ, List.foldlM_append]
      refine Computes.bind ih ?_
      rcases Nat.lt_trichotomy k branch.size with hk | rfl | hk
      · rw [reached, reached, if_pos hk.le, if_pos (Nat.succ_le_of_lt hk), climbTo, climbTo,
          way_succ hk]
        refine Computes.bind (mixSibling_computes sound hk index (size_climbTo _ _ _ _)) ?_
        exact Computes.ret _
      · rw [reached, reached, if_pos le_rfl, if_neg (Nat.not_succ_le_self _)]
        change Computes host True ((mixSibling (native host) branch index _ branch.size).run >>= _) _
        rw [mixSibling_missing (lt_irrefl _)]
        exact Computes.ret _
      · rw [reached, reached, if_neg (Nat.not_le_of_lt hk), if_neg (by omega)]
        exact Computes.ret _

variable {depth : Nat} {leaf : Vector UInt8 32}

theorem computeMerkleBranchRoot_computes (sound : host.Sound) (leaf : Vector UInt8 32)
    (branch : Array (Vector UInt8 32)) (depth index : Nat) : Computes host True
      (computeMerkleBranchRoot (native host) leaf branch depth index).run
      ((reached leaf branch index depth).map bytesToRoot) := by
  refine Computes.bind (levels_compute sound leaf branch index depth) ?_
  cases reached leaf branch index depth <;> exact Computes.ret _

/-- A branch of the right length, from whose leaf the climb arrives at the root. -/
def accepts (leaf : Vector UInt8 32) (branch : Array (Vector UInt8 32)) (depth index : Nat)
    (root : Vector UInt8 32) : Bool :=
  branch.size == depth && bytesToRoot (climbTo leaf branch index depth) == root

theorem accepts_iff {index : Nat} {root : Vector UInt8 32} :
    accepts leaf branch depth index root = true ↔
      branch.size = depth ∧ climbTo leaf branch index depth = vecToBytes root := by
  rw [accepts, Bool.and_eq_true, beq_iff_eq, beq_iff_eq, bytesToRoot_eq_iff (size_climbTo _ _ _ _)]

theorem isValidMerkleBranch_computes (sound : host.Sound) (leaf : Vector UInt8 32)
    (branch : Array (Vector UInt8 32)) (depth index : Nat) (root : Vector UInt8 32) :
    Computes host True (isValidMerkleBranch (native host) leaf branch depth index root)
      (accepts leaf branch depth index root) := by
  rw [isValidMerkleBranch, accepts]
  split
  case isTrue hsize =>
    refine (computeMerkleBranchRoot_computes sound leaf branch depth index).bind ?_
    rw [reached, if_pos hsize.ge, hsize, beq_self_eq_true, Bool.true_and]
    exact Computes.ret _
  case isFalse hsize =>
    rw [beq_false_of_ne hsize, Bool.false_and]
    exact Computes.ret _

/-- For a thread between calls, any leaf, branch, depth and index: where the host serves the root
is computed; what is returned is the root that the leaf and the lowest `depth` siblings climb to,
or, for a branch that is too short, the error that names the first sibling that is not there;
and if nothing is returned, the process panicked. -/
theorem computeMerkleBranchRoot_delivers (sound : host.Sound) (leaf : Vector UInt8 32)
    (branch : Array (Vector UInt8 32)) (depth index : Nat) {t : Thread σ} (resting : t.Resting) :
    (host.Serves → ∃ r t', (computeMerkleBranchRoot (native host) leaf branch depth index).run t =
      .ok r t') ∧
    (∀ r t', (computeMerkleBranchRoot (native host) leaf branch depth index).run t = .ok r t' →
      t'.Resting ∧
      (depth ≤ branch.size → ∃ v, r = .ok v ∧
        vecToBytes v = climb Spec.combine (vecToBytes leaf)
          ((steps depth index).zip ((branch.toList.take depth).map vecToBytes).reverse)) ∧
      (branch.size < depth → r = .error (.indexError branch.size branch.size))) ∧
    ∀ e t', (computeMerkleBranchRoot (native host) leaf branch depth index).run t = .error e t' →
      (∃ msg, e = .panic msg) ∧ ¬ host.Serves := by
  have hrun := computeMerkleBranchRoot_computes sound leaf branch depth index
  refine ⟨fun serves => ?_, fun r t' hok => ?_, fun e t' herr => ?_⟩
  · obtain ⟨r, t', hok, -⟩ := hrun.returns serves trivial resting
    exact ⟨r, t', hok⟩
  · obtain ⟨rfl, hresting⟩ := (hrun t resting).of_ok hok
    refine ⟨hresting, fun henough => ?_, fun hshort => ?_⟩
    · rw [reached, if_pos henough]
      exact ⟨_, rfl, vecToBytes_bytesToRoot (size_climbTo _ _ _ _)⟩
    · rw [reached, if_neg (Nat.not_le_of_lt hshort)]
      rfl
  · obtain ⟨hpanic, hnot⟩ := (hrun t resting).of_error herr
    exact ⟨hpanic, fun serves => hnot ⟨serves, trivial⟩⟩

end Runs

end HazmatSha256.Opening
