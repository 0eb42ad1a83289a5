import HazmatSha256.Spec.Sha256
set_option autoImplicit false

/-!
# Boxed: `size_t` and the Lean objects a shim receives

The shim is handed boxed arrays of byte arrays (`lean_object *`) and does all its
index arithmetic in `size_t`.  An object that exists was allocated as one block,
and no block is larger than `PTRDIFF_MAX`; that bound is a field of the types
below, so that whether a `size_t` expression can wrap is settled by the type of
its operands.
-/

namespace HazmatSha256.Boxed

/-! ## `size_t` on a 64-bit host -/

def sizeModulus : Nat := 0x10000000000000000

def sizeAdd (a b : Nat) : Nat := (a + b) % sizeModulus

def sizeSub (a b : Nat) : Nat := (a + (sizeModulus - b)) % sizeModulus

def sizeMul (a b : Nat) : Nat := a * b % sizeModulus

theorem sizeAdd_eq {a b : Nat} (h : a + b < sizeModulus) : sizeAdd a b = a + b :=
  Nat.mod_eq_of_lt h

/-- A difference of two `size_t` values does not wrap when it is not negative. -/
theorem sizeSub_eq {a b : Nat} (ha : a < sizeModulus) (hle : b ≤ a) : sizeSub a b = a - b := by
  have hsplit : a + (sizeModulus - b) = a - b + sizeModulus := by omega
  rw [sizeSub, hsplit, Nat.add_mod_right]
  exact Nat.mod_eq_of_lt (by omega)

/-- A quotient times its divisor never wraps. -/
theorem sizeMul_div_eq {x a : Nat} (hx : x < sizeModulus) :
    sizeMul (x / a) a = x / a * a :=
  Nat.mod_eq_of_lt (Nat.lt_of_le_of_lt (Nat.div_mul_le_self x a) hx)

/-! ## Boxed arrays -/

/-- The header in front of the cells of an array object, in bytes. -/
def objectHeader : Nat := 24

def ptrdiffMax : Nat := 0x7fffffffffffffff

/-- A `ByteArray` object. -/
structure LeanSarray where
  bytes : ByteArray
  fits : objectHeader + bytes.size ≤ ptrdiffMax

/-- An array object whose elements are `ByteArray` objects. -/
structure LeanArray where
  elems : Array LeanSarray
  fits : objectHeader + 8 * elems.size ≤ ptrdiffMax

namespace LeanSarray

/-- `lean_sarray_cptr`: the bytes behind the pointer, as a list. -/
def cptr (o : LeanSarray) : List UInt8 := o.bytes.data.toList

/-- `lean_sarray_size`. -/
def size (o : LeanSarray) : Nat := o.bytes.size

@[simp] theorem length_cptr (o : LeanSarray) : o.cptr.length = o.size := by
  rw [cptr, Array.length_toList]
  rfl

/-- The sum of two object sizes is a `size_t`. -/
theorem size_add_size_lt (l r : LeanSarray) : l.size + r.size < sizeModulus := by
  have hl := l.fits
  have hr := r.fits
  simp only [objectHeader, ptrdiffMax] at hl hr
  simp only [size, sizeModulus]
  omega

end LeanSarray

namespace LeanArray

/-- `lean_array_size`. -/
def size (a : LeanArray) : Nat := a.elems.size

/-- The value of the array on the Lean side. -/
def toArray (a : LeanArray) : Array ByteArray := a.elems.map LeanSarray.bytes

@[simp] theorem size_toArray (a : LeanArray) : a.toArray.size = a.size := by
  rw [toArray, Array.size_map]
  rfl

/-- Far from the end of the `size_t` range: an index can be stepped over by a
whole chunk without wrapping. -/
theorem size_add_lt (a : LeanArray) {k : Nat} (hk : k ≤ ptrdiffMax) :
    a.size + k < sizeModulus := by
  have h := a.fits
  simp only [objectHeader, ptrdiffMax] at h hk
  simp only [size, sizeModulus]
  omega

end LeanArray

/-! ## The pairs of a batch -/

section Pairs

variable (lefts rights : LeanArray)

/-- The `i`-th pair, if both arrays have one. -/
def pair? (i : Nat) : Option (LeanSarray × LeanSarray) :=
  match lefts.elems[i]?, rights.elems[i]? with
  | some l, some r => some (l, r)
  | _, _ => none

/-- What the `i`-th slot of the answer should hold. -/
def digestAt (i : Nat) : Option ByteArray :=
  (pair? lefts rights i).map fun p => Spec.combine p.1.bytes p.2.bytes

variable {lefts rights}

/-- Arrays of equal size pair up at every index below it. -/
theorem exists_pair (hsize : rights.size = lefts.size) {i : Nat} (hi : i < lefts.size) :
    ∃ l r, lefts.elems[i]? = some l ∧ rights.elems[i]? = some r ∧
      pair? lefts rights i = some (l, r) := by
  have hl : i < lefts.elems.size := hi
  have hr : i < rights.elems.size := by
    have h : i < rights.size := hsize ▸ hi
    exact h
  refine ⟨lefts.elems[i], rights.elems[i], Array.getElem?_eq_getElem hl,
    Array.getElem?_eq_getElem hr, ?_⟩
  simp only [pair?, Array.getElem?_eq_getElem hl, Array.getElem?_eq_getElem hr]

theorem pair?_eq_none {i : Nat} (hi : lefts.size ≤ i) : pair? lefts rights i = none := by
  have hnone : lefts.elems[i]? = none := Array.getElem?_eq_none hi
  rw [pair?, hnone]

theorem digestAt_eq_none {i : Nat} (hi : lefts.size ≤ i) : digestAt lefts rights i = none := by
  rw [digestAt, pair?_eq_none hi]
  rfl

theorem lt_of_pair? {i : Nat} {l r : LeanSarray} (h : pair? lefts rights i = some (l, r)) :
    i < lefts.size := by
  by_contra hge
  rw [pair?_eq_none (Nat.le_of_not_lt hge)] at h
  cases h

theorem getElem?_of_pair? {i : Nat} {l r : LeanSarray} (h : pair? lefts rights i = some (l, r)) :
    lefts.elems[i]? = some l ∧ rights.elems[i]? = some r := by
  unfold pair? at h
  cases hl : lefts.elems[i]? with
  | none =>
      rw [hl] at h
      cases h
  | some l' =>
      cases hr : rights.elems[i]? with
      | none =>
          rw [hl, hr] at h
          cases h
      | some r' =>
          rw [hl, hr] at h
          cases h
          exact ⟨rfl, rfl⟩

theorem mem_of_pair? {i : Nat} {l r : LeanSarray} (h : pair? lefts rights i = some (l, r)) :
    l ∈ lefts.elems ∧ r ∈ rights.elems := by
  obtain ⟨hl, hr⟩ := getElem?_of_pair? h
  exact ⟨Array.mem_of_getElem? hl, Array.mem_of_getElem? hr⟩

/-- The slots are those of the reference for the whole batch. -/
theorem sha256BatchCombineSpec_getElem? (i : Nat) :
    (Spec.sha256BatchCombineSpec lefts.toArray rights.toArray)[i]? = digestAt lefts rights i := by
  simp only [Spec.sha256BatchCombineSpec, LeanArray.toArray, digestAt, pair?,
    Array.getElem?_map, Array.getElem?_zipWith, Array.zip]
  cases lefts.elems[i]? <;> cases rights.elems[i]? <;> rfl

end Pairs

end HazmatSha256.Boxed
