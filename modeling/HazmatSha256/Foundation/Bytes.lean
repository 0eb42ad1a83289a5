/-
  Foundation/Bytes.lean --- byte strings: numbers in them, and strings cut and joined.

  A number is written with its lowest byte first and a fixed count of bytes, so
  writing and reading are inverse to each other on the numbers that fit.  A
  string that was joined from parts is cut again at the places where the parts
  begin, and a string cut at places that climb to its end is joined again.
-/
import Mathlib.Data.List.Forall2
import Mathlib.Data.Nat.Digits.Lemmas
import Mathlib.Tactic.Ring

set_option autoImplicit false

namespace HazmatSha256.Foundation

/-! ## Numbers -/

/-- The number that the bytes stand for, the lowest first. -/
def leValue (b : ByteArray) : Nat := Nat.ofDigits 256 (b.data.toList.map UInt8.toNat)

/-- The `k` low bytes of `n`, the lowest first. -/
def leBytes : (k n : Nat) → ByteArray
  | 0, _ => .empty
  | k + 1, n => ByteArray.empty.push (n % 256).toUInt8 ++ leBytes k (n / 256)

@[simp] theorem leValue_empty : leValue .empty = 0 := rfl

theorem leValue_append (a b : ByteArray) :
    leValue (a ++ b) = leValue a + 256 ^ a.size * leValue b := by
  rw [leValue, ByteArray.toList_data_append, List.map_append, Nat.ofDigits_append, List.length_map,
    Array.length_toList, ByteArray.size_data]
  rfl

@[simp] theorem leValue_push (x : UInt8) : leValue (ByteArray.empty.push x) = x.toNat := by
  simp [leValue]

theorem leValue_lt (b : ByteArray) : leValue b < 256 ^ b.size := by
  have h := Nat.ofDigits_lt_base_pow_length (b := 256) (l := b.data.toList.map UInt8.toNat)
    (by decide) (by
      intro x hx
      obtain ⟨y, -, rfl⟩ := List.mem_map.mp hx
      exact y.toNat_lt)
  rwa [List.length_map, Array.length_toList, ByteArray.size_data] at h

/-- As many bytes that stand for the same number are the same bytes. -/
theorem eq_of_leValue_eq {a b : ByteArray} (hsize : a.size = b.size)
    (h : leValue a = leValue b) : a = b := by
  have hlt : ∀ c : ByteArray, ∀ x ∈ c.data.toList.map UInt8.toNat, x < 256 := by
    intro c x hx
    obtain ⟨y, -, rfl⟩ := List.mem_map.mp hx
    exact y.toNat_lt
  have hmap := Nat.ofDigits_inj_of_len_eq (b := 256) (by decide)
    (by simpa [ByteArray.size_data] using hsize) (hlt a) (hlt b) h
  have hlist := (List.map_injective_iff.mpr fun _ _ => UInt8.toNat_inj.mp) hmap
  exact ByteArray.ext (Array.toList_inj.mp hlist)

@[simp] theorem size_leBytes : ∀ k n : Nat, (leBytes k n).size = k := by
  intro k
  induction k with
  | zero =>
      intro n
      rfl
  | succ k ih =>
      intro n
      rw [leBytes, ByteArray.size_append, ih, ByteArray.size_push, ByteArray.size_empty]
      omega

theorem leValue_leBytes : ∀ k n : Nat, leValue (leBytes k n) = n % 256 ^ k := by
  intro k
  induction k with
  | zero =>
      intro n
      rw [leBytes, leValue_empty, Nat.pow_zero, Nat.mod_one]
  | succ k ih =>
      intro n
      have hlow : (n % 256).toUInt8.toNat = n % 256 := by simp
      rw [leBytes, leValue_append, leValue_push, ih, hlow, Nat.pow_succ', Nat.mod_mul]
      rfl

theorem leValue_leBytes_of_lt {k n : Nat} (h : n < 256 ^ k) : leValue (leBytes k n) = n := by
  rw [leValue_leBytes, Nat.mod_eq_of_lt h]

theorem leBytes_leValue (b : ByteArray) : leBytes b.size (leValue b) = b :=
  eq_of_leValue_eq (size_leBytes _ _) (leValue_leBytes_of_lt (leValue_lt b))

/-- Bytes are those of a number that fits if and only if they stand for it. -/
theorem eq_leBytes_iff {b : ByteArray} {k n : Nat} (h : n < 256 ^ k) :
    b = leBytes k n ↔ b.size = k ∧ leValue b = n := by
  constructor
  · rintro rfl
    exact ⟨size_leBytes k n, leValue_leBytes_of_lt h⟩
  · rintro ⟨rfl, rfl⟩
    exact (leBytes_leValue b).symm

/-! ## Parts -/

/-- The strings one behind another. -/
def cat (ws : List ByteArray) : ByteArray := ws.foldr (· ++ ·) .empty

@[simp] theorem cat_nil : cat [] = .empty := rfl

@[simp] theorem cat_cons (w : ByteArray) (ws : List ByteArray) : cat (w :: ws) = w ++ cat ws := rfl

/-- Where the parts begin when the first of them stands at `at₀`. -/
def starts : (at₀ : Nat) → List ByteArray → List Nat
  | _, [] => []
  | o, w :: ws => o :: starts (o + w.size) ws

@[simp] theorem length_starts : ∀ (o : Nat) (ws : List ByteArray),
    (starts o ws).length = ws.length := by
  intro o ws
  induction ws generalizing o with
  | nil => rfl
  | cons w ws ih => rw [starts, List.length_cons, List.length_cons, ih]

/-- A part begins no later than the last one ends. -/
theorem le_of_mem_starts : ∀ {o : Nat} {ws : List ByteArray} {p : Nat}, p ∈ starts o ws →
    p ≤ o + (cat ws).size := by
  intro o ws
  induction ws generalizing o with
  | nil =>
      intro p hp
      cases hp
  | cons w ws ih =>
      intro p hp
      rw [cat_cons, ByteArray.size_append]
      rcases List.mem_cons.mp hp with rfl | hp
      · omega
      · have := ih hp
        omega

/-- What `os` names first, or the end. -/
def next (os : List Nat) (stop : Nat) : Nat := os.head?.getD stop

@[simp] theorem next_nil (stop : Nat) : next [] stop = stop := rfl

@[simp] theorem next_cons (o : Nat) (os : List Nat) (stop : Nat) : next (o :: os) stop = o := rfl

theorem next_starts (o : Nat) (ws : List ByteArray) :
    next (starts o ws) (o + (cat ws).size) = o := by
  cases ws with
  | nil => simp [starts]
  | cons w ws => rfl

/-- The string from each place to the next one, and from the last place to `stop`. -/
def slices (b : ByteArray) (stop : Nat) : List Nat → List ByteArray
  | [] => []
  | o :: os => b.extract o (next os stop) :: slices b stop os

/-- No place lies behind the next one, or behind `stop`. -/
def Climbs (stop : Nat) : List Nat → Prop
  | [] => True
  | o :: os => o ≤ next os stop ∧ next os stop ≤ stop ∧ Climbs stop os

theorem Climbs.next_le {stop : Nat} {os : List Nat} (h : Climbs stop os) : next os stop ≤ stop := by
  cases os with
  | nil => exact Nat.le_refl stop
  | cons o os => exact Nat.le_trans h.1 h.2.1

/-- Cutting a joined string gives the parts back. -/
theorem slices_starts {b : ByteArray} {stop : Nat} (hstop : stop ≤ b.size) :
    ∀ {ws : List ByteArray} {o : Nat}, b.extract o stop = cat ws → o ≤ stop →
    Climbs stop (starts o ws) ∧ slices b stop (starts o ws) = ws := by
  intro ws
  induction ws with
  | nil =>
      intro o _ _
      exact ⟨trivial, rfl⟩
  | cons w ws ih =>
      intro o hcat ho
      have hsize : stop = o + w.size + (cat ws).size := by
        have := congrArg ByteArray.size hcat
        rw [ByteArray.size_extract, cat_cons, ByteArray.size_append] at this
        omega
      have hsplit : b.extract o (o + w.size) ++ b.extract (o + w.size) stop = w ++ cat ws := by
        rw [← cat_cons, ← hcat]
        exact (ByteArray.extract_eq_extract_append_extract _ (by omega) (by omega)).symm
      have hwsize : (b.extract o (o + w.size)).size = w.size := by
        rw [ByteArray.size_extract]
        omega
      have hw : b.extract o (o + w.size) = w := ByteArray.append_inj_left hsplit hwsize
      have hrest : b.extract (o + w.size) stop = cat ws := by
        rw [hw] at hsplit
        exact (ByteArray.append_right_inj w).mp hsplit
      have hnext : next (starts (o + w.size) ws) stop = o + w.size := by
        rw [hsize]
        exact next_starts _ ws
      obtain ⟨hclimbs, hslices⟩ := ih hrest (by omega)
      refine ⟨⟨?_, ?_, hclimbs⟩, ?_⟩
      · rw [hnext]
        omega
      · rw [hnext]
        omega
      · rw [starts, slices, hnext, hw, hslices]

/-- Joining the slices of a string gives it back, and the slices begin where it was cut. -/
theorem starts_slices {b : ByteArray} {stop : Nat} (hstop : stop ≤ b.size) :
    ∀ {os : List Nat}, Climbs stop os →
    starts (next os stop) (slices b stop os) = os ∧
      cat (slices b stop os) = b.extract (next os stop) stop := by
  intro os
  induction os with
  | nil =>
      intro _
      exact ⟨rfl, (ByteArray.extract_same (b := b)).symm⟩
  | cons o os ih =>
      intro hclimbs
      obtain ⟨hle, hnext, hrest⟩ := hclimbs
      obtain ⟨hstarts, hcat⟩ := ih hrest
      have hsize : o + (b.extract o (next os stop)).size = next os stop := by
        rw [ByteArray.size_extract]
        omega
      refine ⟨?_, ?_⟩
      · rw [slices, next_cons, starts, hsize, hstarts]
      · rw [slices, cat_cons, hcat, next_cons]
        exact (ByteArray.extract_eq_extract_append_extract _ hle hnext).symm

end HazmatSha256.Foundation
