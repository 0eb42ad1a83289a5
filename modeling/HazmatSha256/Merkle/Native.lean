import HazmatSha256.Foundation.Tree
import HazmatSha256.Merkle.Layer
import HazmatSha256.Shim.Session
set_option autoImplicit false

/-!
# Merkle: roots computed through the shims

The `Hasher Sha256` instance, with its three methods run by a thread.  A root computed
through it, one batched call a level, is the root of the perfect tree over the chunks,
with the reference at its nodes.
-/

namespace HazmatSha256.Merkle

open Foundation Boxed Isal Evp Shim

variable {σ κ : Type} {host : Host σ κ} {legal : Prop}

/-! ## Objects behind the values -/

/-- The object of a byte array; the runtime ends the process where there is no room. -/
def object (b : ByteArray) : Run σ LeanSarray :=
  if h : objectHeader + b.size ≤ ptrdiffMax then pure ⟨b, h⟩
  else leanInternalPanic textObjectMemory

def arrayObject (bs : Array ByteArray) : Run σ LeanArray := do
  let os ← bs.toList.mapM object
  if h : objectHeader + 8 * os.length ≤ ptrdiffMax then pure ⟨os.toArray, h⟩
  else leanInternalPanic textObjectMemory

/-- An array in which a placeholder is left is no `Array ByteArray`. -/
def unboxed (slots : Array (Option ByteArray)) : Run σ (Array ByteArray) :=
  match slots.toList.mapM id with
  | some ds => pure ds.toArray
  | none => throw (.fault .placeholder)

/-- The instance `Hasher Sha256`. -/
def native (host : Host σ κ) : Hasher (Run σ) where
  hash b := do
    let input ← object b
    leanHazmatSha256Hash host.md host.env input
  combine l r := do
    let left ← object l
    let right ← object r
    leanHazmatSha256Combine host.md host.env left right
  batchCombine ls rs := do
    let lefts ← arrayObject ls
    let rights ← arrayObject rs
    let slots ← leanHazmatSha256BatchCombine host lefts rights
    unboxed slots

/-- The object of the value can exist. -/
def Fits (b : ByteArray) : Prop := objectHeader + b.size ≤ ptrdiffMax

theorem object_yields {b : ByteArray} (hfits : legal → Fits b) :
    Yields host legal (object b) fun o => o.bytes = b := by
  intro t resting
  unfold object
  split
  · exact Sat.ret ⟨rfl, resting⟩
  · apply Sat.stop
    refine ⟨⟨_, rfl⟩, ?_⟩
    intro hserved
    exact absurd (hfits hserved.2) ‹_›

theorem arrayObject_yields {bs : Array ByteArray} (hfits : legal → ∀ b ∈ bs.toList, Fits b)
    (hroom : legal → objectHeader + 8 * bs.size ≤ ptrdiffMax) :
    Yields host legal (arrayObject bs) fun a => a.toArray = bs := by
  have hobjects : Yields host legal (bs.toList.mapM object)
      fun os => os.map LeanSarray.bytes = bs.toList.map id :=
    Yields.mapM fun b hb => object_yields fun hlegal => hfits hlegal b hb
  refine hobjects.bind ?_
  intro os hos
  rw [List.map_id] at hos
  have hlen : os.length = bs.size := by
    rw [← List.length_map (f := LeanSarray.bytes), hos, Array.length_toList]
  intro t resting
  split
  · refine Sat.ret ⟨?_, resting⟩
    change os.toArray.map LeanSarray.bytes = bs
    rw [← Array.toList_inj, Array.toList_map, hos]
  · apply Sat.stop
    refine ⟨⟨_, rfl⟩, ?_⟩
    intro hserved
    have hbound := hroom hserved.2
    rw [← hlen] at hbound
    exact absurd hbound ‹_›

theorem unboxed_map_some (ds : Array ByteArray) :
    (unboxed (ds.map some) : Run σ (Array ByteArray)) = pure ds := by
  have hall : ∀ l : List ByteArray, (l.map some).mapM id = some l := by
    intro l
    induction l with
    | nil => rfl
    | cons d rest ih =>
        rw [List.map_cons, List.mapM_cons, ih]
        rfl
  rw [unboxed, Array.toList_map, hall]

/-! ## The methods -/

theorem native_hash_computes (sound : host.Sound) {b : ByteArray} (hb : legal → Fits b) :
    Computes host legal ((native host).hash b) (Spec.hash b) := by
  refine (object_yields hb).bind ?_
  intro input hinput
  rw [← hinput]
  exact leanHazmatSha256Hash_computes sound input

theorem native_combine_computes (sound : host.Sound) {l r : ByteArray} (hl : legal → Fits l)
    (hr : legal → Fits r) :
    Computes host legal ((native host).combine l r) (Spec.combine l r) := by
  refine (object_yields hl).bind ?_
  intro left hleft
  refine (object_yields hr).bind ?_
  intro right hright
  rw [← hleft, ← hright]
  exact leanHazmatSha256Combine_computes sound left right

/-- What the batched method asks of its arrays. -/
structure Batchable (host : Host σ κ) (ls rs : Array ByteArray) : Prop where
  lefts : ∀ b ∈ ls.toList, Fits b
  rights : ∀ b ∈ rs.toList, Fits b
  size : rs.size = ls.size
  room : objectHeader + 8 * ls.size ≤ ptrdiffMax
  short : host.isal = true → ∀ (i : Nat) (l r : ByteArray), ls[i]? = some l → rs[i]? = some r →
    l.size + r.size ≤ uint32Max

theorem Batchable.batchLegal {lefts rights : LeanArray}
    (h : Batchable host lefts.toArray rights.toArray) : BatchLegal host lefts rights := by
  refine ⟨?_, ?_⟩
  · have hsize := h.size
    rw [LeanArray.size_toArray, LeanArray.size_toArray] at hsize
    exact hsize.symm
  · intro hisal i l r hpair
    obtain ⟨hl, hr⟩ := getElem?_of_pair? hpair
    refine h.short hisal i l.bytes r.bytes ?_ ?_
    · rw [LeanArray.toArray, Array.getElem?_map, hl, Option.map_some]
    · rw [LeanArray.toArray, Array.getElem?_map, hr, Option.map_some]

theorem native_batchCombine_computes (sound : host.Sound) {ls rs : Array ByteArray}
    (h : legal → Batchable host ls rs) :
    Computes host legal ((native host).batchCombine ls rs)
      (Spec.sha256BatchCombineSpec ls rs) := by
  refine (arrayObject_yields (fun hlegal => (h hlegal).lefts)
    fun hlegal => (h hlegal).room).bind ?_
  intro lefts hlefts
  have hroom : legal → objectHeader + 8 * rs.size ≤ ptrdiffMax := by
    intro hlegal
    rw [(h hlegal).size]
    exact (h hlegal).room
  refine (arrayObject_yields (fun hlegal => (h hlegal).rights) hroom).bind ?_
  intro rights hrights
  rw [← hlefts, ← hrights] at h ⊢
  have hbatch := (leanHazmatSha256BatchCombine_computes sound lefts rights).weaken
    fun hlegal : legal => (h hlegal).batchLegal
  refine hbatch.bind ?_
  rw [unboxed_map_some]
  exact Computes.ret _

end HazmatSha256.Merkle
