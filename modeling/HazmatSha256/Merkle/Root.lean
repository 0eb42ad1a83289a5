import HazmatSha256.Merkle.Native
import Mathlib.Algebra.Group.Nat.Defs
import Mathlib.Data.Nat.Log
set_option autoImplicit false

/-!
# Merkle: the root of the perfect tree

What the level-by-level computation answers, named without levels: node `0` at the depth
of the tree, over the chunks and zero chunks for ever, with `Spec.combine` at the nodes.
-/

namespace HazmatSha256.Merkle

open Foundation Boxed Isal Evp Shim

variable {σ κ : Type} {host : Host σ κ} {legal : Prop}

/-! ## Widths -/

theorem size_pushZeros : ∀ (k : Nat) (acc : ByteArray), (pushZeros k acc).size = acc.size + k := by
  intro k
  induction k with
  | zero =>
      intro acc
      rfl
  | succ k ih =>
      intro acc
      rw [pushZeros, ih, ByteArray.size_push]
      omega

theorem size_pushBytesLE : ∀ (k n : Nat) (acc : ByteArray),
    (pushBytesLE k n acc).size = acc.size + k := by
  intro k
  induction k with
  | zero =>
      intro n acc
      rfl
  | succ k ih =>
      intro n acc
      rw [pushBytesLE, ih, ByteArray.size_push]
      omega

@[simp] theorem size_natToChunk (n : Nat) : (natToChunk n).size = bytesPerChunk := by
  rw [natToChunk, size_pushBytesLE]
  rfl

theorem size_padToChunk {b : ByteArray} (hb : b.size ≤ bytesPerChunk) :
    (padToChunk b).size = bytesPerChunk := by
  unfold padToChunk
  split
  · exact Nat.le_antisymm hb ‹_›
  · rw [size_pushZeros]
    omega

@[simp] theorem size_zero32 : zero32.size = bytesPerChunk := by
  rw [zero32, size_pushZeros]
  rfl

theorem fits_of_size {b : ByteArray} (h : b.size = bytesPerChunk) : Fits b := by
  rw [Fits, h]
  decide

@[simp] theorem size_combine (l r : ByteArray) : (Spec.combine l r).size = bytesPerChunk := by
  have hlen := Spec.length_hash (l ++ r)
  rw [Array.length_toList] at hlen
  exact hlen

/-- The root of an all-zero tree. -/
def zeroRoot (depth : Nat) : ByteArray := uniform Spec.combine zero32 depth

@[simp] theorem size_zeroRoot : ∀ depth, (zeroRoot depth).size = bytesPerChunk := by
  intro depth
  cases depth with
  | zero => exact size_zero32
  | succ d => exact size_combine _ _

theorem fits_zeroRoot (depth : Nat) : Fits (zeroRoot depth) := fits_of_size (size_zeroRoot depth)

theorem size_padded {cs : List ByteArray} {z : ByteArray}
    (hcs : ∀ b ∈ cs, b.size = bytesPerChunk) (hz : z.size = bytesPerChunk) (i : Nat) :
    (padded cs z i).size = bytesPerChunk := by
  by_cases hi : i < cs.length
  · rw [padded_of_lt z hi]
    exact hcs _ (List.getElem_mem hi)
  · rw [padded_of_le z (Nat.le_of_not_lt hi)]
    exact hz

theorem getElem!_toArray {cs : List ByteArray} (z : ByteArray) {i : Nat} (hi : i < cs.length) :
    cs.toArray[i]! = padded cs z i := by
  rw [padded_of_lt z hi, getElem!_pos cs.toArray i (by simpa using hi), List.getElem_toArray]

/-! ## The zero tower -/

theorem zeroHashAt_computes (sound : host.Sound) : ∀ depth,
    Computes host legal (zeroHashAt (native host) depth) (zeroRoot depth) := by
  intro depth
  induction depth with
  | zero => exact Computes.ret _
  | succ d ih =>
      refine ih.bind ?_
      exact native_combine_computes sound (fun _ => fits_zeroRoot d) fun _ => fits_zeroRoot d

/-! ## One level -/

/-- What a tree asks of the chunks it is built over: their width, and that an array of
them can exist. -/
structure Chunks (cs : List ByteArray) : Prop where
  width : ∀ b ∈ cs, b.size = bytesPerChunk
  fits : objectHeader + 8 * cs.length ≤ ptrdiffMax

theorem Chunks.halved {cs : List ByteArray} (h : Chunks cs) (z : ByteArray) :
    Chunks (Foundation.halved Spec.combine cs z) := by
  refine ⟨?_, ?_⟩
  · intro b hb
    obtain ⟨i, -, rfl⟩ := List.mem_map.mp hb
    exact size_combine _ _
  · have hfits := h.fits
    rw [length_halved]
    simp only [objectHeader, ptrdiffMax] at hfits ⊢
    omega

/-- The arrays of left and of right siblings that a level hands over. -/
structure Rows (cs : List ByteArray) (z : ByteArray) (ls rs : Array ByteArray) : Prop where
  lefts : ls.toList = (List.range ((cs.length + 1) / 2)).map fun i => padded cs z (2 * i)
  rights : rs.toList = (List.range ((cs.length + 1) / 2)).map fun i => padded cs z (2 * i + 1)

namespace Rows

variable {cs : List ByteArray} {z : ByteArray} {ls rs : Array ByteArray}

theorem batchable (h : Rows cs z ls rs) (hcs : Chunks cs) (hz : z.size = bytesPerChunk)
    (host : Host σ κ) : Batchable host ls rs := by
  have hleft : ls.size = (cs.length + 1) / 2 := by
    rw [← Array.length_toList, h.lefts, List.length_map, List.length_range]
  have hright : rs.size = (cs.length + 1) / 2 := by
    rw [← Array.length_toList, h.rights, List.length_map, List.length_range]
  have hwidth : ∀ f : Nat → Nat, ∀ b ∈ (List.range ((cs.length + 1) / 2)).map
      (fun i => padded cs z (f i)), b.size = bytesPerChunk := by
    intro f b hb
    obtain ⟨i, -, rfl⟩ := List.mem_map.mp hb
    exact size_padded hcs.width hz _
  have hls : ∀ b ∈ ls.toList, b.size = bytesPerChunk := by
    rw [h.lefts]
    exact hwidth _
  have hrs : ∀ b ∈ rs.toList, b.size = bytesPerChunk := by
    rw [h.rights]
    exact hwidth _
  refine ⟨fun b hb => fits_of_size (hls b hb), fun b hb => fits_of_size (hrs b hb),
    hright.trans hleft.symm, ?_, ?_⟩
  · have hfits := hcs.fits
    simp only [objectHeader, ptrdiffMax] at hfits ⊢
    omega
  · intro _ i l r hl hr
    rw [hls l (Array.mem_toList_iff.mpr (Array.mem_of_getElem? hl)),
      hrs r (Array.mem_toList_iff.mpr (Array.mem_of_getElem? hr))]
    decide

/-- Hashed as one batch they give the row above. -/
theorem halved (h : Rows cs z ls rs) :
    (Spec.sha256BatchCombineSpec ls rs).toList = Foundation.halved Spec.combine cs z := by
  rw [Spec.sha256BatchCombineSpec_eq_zipWith, Array.toList_zipWith, h.lefts, h.rights,
    List.zipWith_map, List.zipWith_self]
  rfl

end Rows

theorem toList_lefts (cs : List ByteArray) (z : ByteArray) :
    (Array.ofFn (n := (cs.length + 1) / 2) fun i => cs.toArray[2 * i.val]!).toList =
      (List.range ((cs.length + 1) / 2)).map fun i => padded cs z (2 * i) := by
  refine List.ext_getElem (by simp) ?_
  intro i hi hi'
  have hbound : 2 * i < cs.length := by
    rw [List.length_map, List.length_range] at hi'
    omega
  rw [Array.getElem_toList, Array.getElem_ofFn, List.getElem_map, List.getElem_range]
  exact getElem!_toArray z hbound

/-- The right sibling of a node, whether it is there or not. -/
theorem right_computes (sound : host.Sound) (lvl : Nat) (cs : List ByteArray) (i : Nat) :
    Computes host legal
      (if 2 * i + 1 < cs.toArray.size then pure cs.toArray[2 * i + 1]!
        else zeroHashAt (native host) lvl)
      (padded cs (zeroRoot lvl) (2 * i + 1)) := by
  split
  · exact Yields.ret (getElem!_toArray (zeroRoot lvl) ‹_›)
  · rw [padded_of_le (zeroRoot lvl) (Nat.le_of_not_lt ‹_›)]
    exact zeroHashAt_computes sound lvl

/-- A batched level is the row above. -/
theorem combineLayerAt_computes (sound : host.Sound) (lvl : Nat) {cs : List ByteArray}
    (h : legal → Chunks cs) :
    Computes host legal (combineLayerAt (native host) lvl cs)
      (halved Spec.combine cs (zeroRoot lvl)) := by
  unfold combineLayerAt
  refine (Yields.mapM (g := id) fun i _ => right_computes sound lvl cs i).bind ?_
  intro rights hrights
  rw [List.map_id] at hrights
  have hrows : Rows cs (zeroRoot lvl) _ rights.toArray := ⟨toList_lefts cs (zeroRoot lvl), hrights⟩
  refine (native_batchCombine_computes sound
    fun hlegal => hrows.batchable (h hlegal) (size_zeroRoot lvl) host).bind ?_
  rw [← hrows.halved]
  exact Computes.ret _

/-! ## A whole tree -/

/-- A lone chunk rises to the root of the tree in which the rest is zero. -/
theorem promoteThroughZeros_computes (sound : host.Sound) : ∀ (remaining lvl : Nat)
    {x : ByteArray}, (legal → x.size = bytesPerChunk) →
    Computes host legal (promoteThroughZeros (native host) x lvl remaining)
      (node Spec.combine (padded [x] (zeroRoot lvl)) remaining 0) := by
  intro remaining
  induction remaining with
  | zero =>
      intro lvl x _
      exact Computes.ret x
  | succ k ih =>
      intro lvl x hx
      rw [node_padded_succ, halved_singleton]
      refine (zeroHashAt_computes sound lvl).bind ?_
      refine (native_combine_computes sound (fun hlegal => fits_of_size (hx hlegal))
        fun _ => fits_zeroRoot lvl).bind ?_
      exact ih (lvl + 1) fun _ => size_combine _ _

/-- From level `curLvl` on, over the chunks that are there and zero roots for the rest. -/
theorem merkleizeAt_computes (sound : host.Sound) : ∀ (remaining curLvl : Nat)
    {cs : List ByteArray}, cs ≠ [] → cs.length ≤ 2 ^ remaining → (legal → Chunks cs) →
    Computes host legal (merkleizeAt (native host) cs curLvl remaining)
      (node Spec.combine (padded cs (zeroRoot curLvl)) remaining 0) := by
  intro remaining
  induction remaining with
  | zero =>
      intro curLvl cs hne hlen _
      obtain ⟨c, rfl⟩ := List.length_eq_one_iff.mp
        (Nat.le_antisymm hlen (List.length_pos_iff.mpr hne))
      exact Computes.ret c
  | succ k ih =>
      intro curLvl cs hne hlen h
      cases cs with
      | nil => exact absurd rfl hne
      | cons c rest =>
          cases rest with
          | nil =>
              exact promoteThroughZeros_computes sound (k + 1) curLvl
                fun hlegal => (h hlegal).width c List.mem_cons_self
          | cons d rest =>
              rw [node_padded_succ]
              refine (combineLayerAt_computes sound curLvl h).bind ?_
              have hlen' := length_halved Spec.combine (c :: d :: rest) (zeroRoot curLvl)
              refine ih (curLvl + 1) ?_ ?_ fun hlegal => (h hlegal).halved _
              · intro hnil
                rw [hnil, List.length_nil, List.length_cons, List.length_cons] at hlen'
                omega
              · rw [Nat.pow_succ] at hlen
                omega

/-- The root that a thread computes through the shims, one batched call a level, is the
root of the perfect tree over the chunks. -/
theorem merkleize_computes (sound : host.Sound) {chunks : List ByteArray} {depth : Nat}
    (hdeep : chunks.length ≤ 2 ^ depth) :
    Computes host (Chunks chunks) (merkleize (native host) chunks depth)
      (node Spec.combine (padded chunks zero32) depth 0) := by
  cases chunks with
  | nil =>
      rw [padded_nil, node_uniform, merkleize, merkleizeAt]
      exact zeroHashAt_computes sound depth
  | cons c rest => exact merkleizeAt_computes sound depth 0 (by simp) hdeep fun h => h

/-! ## Depth -/

theorem chunkDepthFrom_eq (n : Nat) : ∀ fuel acc, n ≤ 2 ^ acc + fuel →
    chunkDepthFrom n fuel acc (2 ^ acc) = max acc (Nat.clog 2 n) := by
  intro fuel
  induction fuel with
  | zero =>
      intro acc hn
      exact (Nat.max_eq_left (Nat.clog_le_of_le_pow hn)).symm
  | succ f ih =>
      intro acc hn
      rw [chunkDepthFrom]
      split
      · exact (Nat.max_eq_left (Nat.clog_le_of_le_pow ‹_›)).symm
      · have hpos : 0 < 2 ^ acc := Nat.two_pow_pos acc
        have hshort : acc < Nat.clog 2 n :=
          (Nat.lt_clog_iff_pow_lt (by decide)).mpr (Nat.lt_of_not_le ‹_›)
        rw [← Nat.pow_succ, ih (acc + 1) (by rw [Nat.pow_succ]; omega), Nat.max_eq_right hshort,
          Nat.max_eq_right (Nat.le_of_lt hshort)]

/-- The depth is the smallest that has room. -/
theorem chunkDepth_eq_clog (n : Nat) : chunkDepth n = Nat.clog 2 n := by
  have hfrom := chunkDepthFrom_eq n n 0 (Nat.le_add_left n _)
  rwa [Nat.zero_max] at hfrom

theorem le_two_pow_chunkDepth (n : Nat) : n ≤ 2 ^ chunkDepth n := by
  rw [chunkDepth_eq_clog]
  exact Nat.le_pow_clog (by decide) n

/-! ## Chunks of a body -/

theorem chunksBefore_eq (b : ByteArray) : ∀ (k : Nat) (acc : List ByteArray),
    chunksBefore b k acc = (List.range k).map (fun i =>
      padToChunk (b.extract (i * bytesPerChunk) (i * bytesPerChunk + bytesPerChunk))) ++ acc := by
  intro k
  induction k with
  | zero =>
      intro acc
      rfl
  | succ k ih =>
      intro acc
      rw [chunksBefore, ih, List.range_succ, List.map_append, List.append_assoc]
      rfl

/-- Chunk `i` holds the bytes from `32 i` on. -/
theorem chunkify_eq (b : ByteArray) : chunkify b =
    (List.range (bytesToChunkCount b.size)).map fun i =>
      padToChunk (b.extract (i * bytesPerChunk) (i * bytesPerChunk + bytesPerChunk)) := by
  unfold chunkify
  dsimp only
  split
  · rw [bytesToChunkCount, ‹(b.size + bytesPerChunk - 1) / bytesPerChunk = 0›]
    rfl
  · rw [chunksBefore_eq, List.append_nil]
    rfl

theorem length_chunkify (b : ByteArray) : (chunkify b).length = bytesToChunkCount b.size := by
  rw [chunkify_eq, List.length_map, List.length_range]

/-- The chunks of a body that exists can be merkleized. -/
theorem chunks_chunkify {b : ByteArray} (hb : Fits b) : Chunks (chunkify b) := by
  refine ⟨?_, ?_⟩
  · rw [chunkify_eq]
    intro c hc
    obtain ⟨i, -, rfl⟩ := List.mem_map.mp hc
    apply size_padToChunk
    rw [ByteArray.size_extract]
    omega
  · rw [length_chunkify]
    simp only [Fits, objectHeader, ptrdiffMax, bytesToChunkCount, bytesPerChunk] at hb ⊢
    omega

/-! ## Roots of values -/

theorem vectorOfBytes_computes (sound : host.Sound) (body : ByteArray) :
    Computes host (Fits body) (vectorOfBytes (native host) body)
      (node Spec.combine (padded (chunkify body) zero32)
        (chunkDepth (bytesToChunkCount body.size)) 0) := by
  have hdeep : (chunkify body).length ≤ 2 ^ chunkDepth (bytesToChunkCount body.size) := by
    rw [length_chunkify]
    exact le_two_pow_chunkDepth _
  exact (merkleize_computes sound hdeep).weaken chunks_chunkify

/-- On a host that serves, the root of any body is computed. -/
theorem vectorOfBytes_returns (sound : host.Sound) (serves : host.Serves) {body : ByteArray}
    (hbody : Fits body) {t : Thread σ} (resting : t.Resting) :
    ∃ t', vectorOfBytes (native host) body t =
      .ok (node Spec.combine (padded (chunkify body) zero32)
        (chunkDepth (bytesToChunkCount body.size)) 0) t' ∧ t'.Resting := by
  obtain ⟨root, t', hok, hroot, resting'⟩ :=
    (vectorOfBytes_computes sound body).returns serves hbody resting
  rw [hroot] at hok
  exact ⟨t', hok, resting'⟩

theorem containerOfRoots_computes (sound : host.Sound) (roots : List ByteArray) :
    Computes host (Chunks roots) (containerOfRoots (native host) roots)
      (node Spec.combine (padded roots zero32) (chunkDepth roots.length) 0) :=
  merkleize_computes sound (le_two_pow_chunkDepth roots.length)

theorem size_node {f : Nat → ByteArray} (hf : ∀ i, (f i).size = bytesPerChunk) (h i : Nat) :
    (node Spec.combine f h i).size = bytesPerChunk := by
  cases h with
  | zero => exact hf i
  | succ h => exact size_combine _ _

theorem listOfRoots_computes (sound : host.Sound) {cap : Nat} {roots : List ByteArray}
    (hcap : roots.length ≤ cap) :
    Computes host (Chunks roots) (listOfRoots (native host) cap roots)
      (Spec.combine (node Spec.combine (padded roots zero32) (chunkDepth cap) 0)
        (natToChunk roots.length)) := by
  refine (merkleize_computes sound (Nat.le_trans hcap (le_two_pow_chunkDepth cap))).bind ?_
  refine native_combine_computes sound ?_ fun _ => fits_of_size (size_natToChunk _)
  intro hchunks
  exact fits_of_size (size_node (size_padded hchunks.width size_zero32) _ _)

end HazmatSha256.Merkle
