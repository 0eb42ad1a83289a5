/-
  Foundation/Memory.lean --- memory as separate blocks of cells.

  A block is named by a key of an arbitrary type and is either dead or a list of
  cells.  An access outside a block, or to a dead one, has no result, so code
  that was shown to get a result was shown to stay in bounds.
-/
import Mathlib.Logic.Function.Basic

set_option autoImplicit false

namespace HazmatSha256.Foundation

universe u v

/-! ## Overwriting part of a block -/

section Overwrite

variable {β : Type v}

/-- Overwrite the cells from `offset` on with `data`. -/
def overwrite (cells : List β) (offset : Nat) (data : List β) : List β :=
  cells.take offset ++ data ++ cells.drop (offset + data.length)

theorem length_overwrite {cells data : List β} {offset : Nat}
    (hfit : offset + data.length ≤ cells.length) :
    (overwrite cells offset data).length = cells.length := by
  simp only [overwrite, List.length_append, List.length_take, List.length_drop]
  omega

/-- Up to the end of the data stand the old cells before it and the data. -/
theorem take_overwrite {cells data : List β} {offset : Nat} (hle : offset ≤ cells.length) :
    (overwrite cells offset data).take (offset + data.length) = cells.take offset ++ data := by
  have hlen : (cells.take offset ++ data).length = offset + data.length := by
    simp only [List.length_append, List.length_take]
    omega
  rw [overwrite, ← hlen, List.take_left]

/-- Data as long as the block replaces all of it. -/
theorem overwrite_all {cells data : List β} (hlen : data.length = cells.length) :
    overwrite cells 0 data = data := by
  rw [overwrite, List.take_zero, List.nil_append, Nat.zero_add, hlen, List.drop_length,
    List.append_nil]

end Overwrite

/-! ## Blocks -/

/-- Blocks of cells by key; a key without cells is dead. -/
abbrev Memory (κ : Type u) (β : Type v) : Type (max u v) := κ → Option (List β)

namespace Memory

variable {κ : Type u} {β : Type v}

/-- No block is live. -/
def nothing : Memory κ β := fun _ => none

/-- The first `len` cells of a live block that has as many. -/
def load (m : Memory κ β) (k : κ) (len : Nat) : Option (List β) :=
  match m k with
  | some cells => if len ≤ cells.length then some (cells.take len) else none
  | none => none

section Update

variable [DecidableEq κ]

/-- Let `k` be the given block, or dead. -/
def set (m : Memory κ β) (k : κ) (block : Option (List β)) : Memory κ β :=
  Function.update m k block

/-- Write `data` at `offset` into a live block that has the room. -/
def store (m : Memory κ β) (k : κ) (offset : Nat) (data : List β) : Option (Memory κ β) :=
  match m k with
  | some cells =>
      if offset + data.length ≤ cells.length then
        some (m.set k (some (overwrite cells offset data)))
      else none
  | none => none

/-- End the life of a live block. -/
def release (m : Memory κ β) (k : κ) : Option (Memory κ β) :=
  match m k with
  | some _ => some (m.set k none)
  | none => none

variable {m : Memory κ β} {k k' : κ} {cells data : List β} {offset : Nat}

@[simp] theorem set_self (m : Memory κ β) (k : κ) (block : Option (List β)) :
    m.set k block k = block := by
  rw [set, Function.update_self]

@[simp] theorem set_set (m : Memory κ β) (k : κ) (block block' : Option (List β)) :
    (m.set k block).set k block' = m.set k block' := by
  rw [set, set, set, Function.update_idem]

theorem set_ne {block : Option (List β)} (hne : k' ≠ k) : m.set k block k' = m k' := by
  rw [set, Function.update_of_ne hne]

theorem store_eq_some (hk : m k = some cells) (hfit : offset + data.length ≤ cells.length) :
    m.store k offset data = some (m.set k (some (overwrite cells offset data))) := by
  simp only [store, hk, if_pos hfit]

theorem release_eq_some (hk : m k = some cells) : m.release k = some (m.set k none) := by
  simp only [release, hk]

end Update

variable {m m' : Memory κ β} {k : κ} {cells data : List β} {len : Nat}

theorem load_eq_some (hk : m k = some cells) (hle : len ≤ cells.length) :
    m.load k len = some (cells.take len) := by
  simp only [load, hk, if_pos hle]

/-- A load depends on its own block only. -/
theorem load_congr (h : m' k = m k) : m'.load k len = m.load k len := by
  simp only [load, h]

end Memory

end HazmatSha256.Foundation
