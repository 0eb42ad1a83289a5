import HazmatSha256.Cache.Box
import Mathlib.Data.List.Pairwise
set_option autoImplicit false

/-!
# Cache: what a path reads after a write

The reads and writes of `sszUpdate` and `sszGet` against each other: a write is read back,
paths that part do not see each other's writes, and what an update of several clauses
leaves does not depend on their order.
-/

namespace HazmatSha256.Cache

open Foundation Shape Boxed Isal Evp Shim Merkle Ssz

variable {dflt : Defaults}

/-! ## Within -/

mutual

/-- Every index on the way is below the current length. -/
def Path.Within : {s u : SSZType} → Path s u → s.interp → Prop
  | _, _, .here, _ => True
  | _, _, .field p, x => p.Within x
  | _, _, .progressiveField p, x => p.Within x
  | _, _, @Path.vectorAt _ n _ i _ p, v => ∃ h : i < n, p.Within v[i]
  | _, _, .listAt i _ p, xs => ∃ h : i < xs.val.size, p.Within xs.val[i]
  | _, _, .progressiveListAt i _, xs => i < xs.size
  | _, _, .progressiveBitAt i _, bs => i < bs.size

def FieldPath.Within : {fs : List SSZType} → {u : SSZType} → FieldPath fs u →
    SSZType.interpFields fs → Prop
  | _, _, .head p, vs => p.Within vs.1
  | _, _, .tail p, vs => p.Within vs.2

end

mutual

/-- Every index is written `[i]`. -/
def Path.Checked : {s u : SSZType} → Path s u → Prop
  | _, _, .here => True
  | _, _, .field p => p.Checked
  | _, _, .progressiveField p => p.Checked
  | _, _, .vectorAt _ checked p => checked = true ∧ p.Checked
  | _, _, .listAt _ checked p => checked = true ∧ p.Checked
  | _, _, .progressiveListAt _ checked => checked = true
  | _, _, .progressiveBitAt _ checked => checked = true

def FieldPath.Checked : {fs : List SSZType} → {u : SSZType} → FieldPath fs u → Prop
  | _, _, .head p => p.Checked
  | _, _, .tail p => p.Checked

end

section Guard

variable {checked : Bool} {i bound : Nat} {inner : Except IndexError Unit}

theorem guardIndex_of_lt (h : i < bound) : guardIndex checked i bound inner = inner := by
  cases checked <;> simp [guardIndex, h]

/-- A guard that passes has passed what is inside it. -/
theorem guardIndex_ok (h : guardIndex checked i bound inner = .ok ()) :
    (checked = true → i < bound) ∧ inner = .ok () := by
  cases checked with
  | false => exact ⟨nofun, h⟩
  | true =>
      by_cases hi : i < bound
      · rw [guardIndex_of_lt hi] at h
        exact ⟨fun _ => hi, h⟩
      · simp [guardIndex, hi] at h

end Guard

/-- The element that is there. -/
theorem getElem?_getD_of_lt {α : Type} {xs : Array α} {i : Nat} (h : i < xs.size) (d : α) :
    xs[i]?.getD d = xs[i] := by
  rw [Array.getElem?_eq_getElem h, Option.getD_some]

theorem vector_getElem?_getD_of_lt {α : Type} {n : Nat} {v : Vector α n} {i : Nat} (h : i < n)
    (d : α) : v[i]?.getD d = v[i] := by
  rw [Vector.getElem?_eq_getElem h, Option.getD_some]

mutual

/-- A path all of whose indices are in range is not refused. -/
theorem Path.check_of_within : ∀ {s u : SSZType} (p : Path s u) {x : s.interp}, p.Within x →
    p.check dflt x = .ok ()
  | _, _, .here, _, _ => by rw [Path.check]
  | _, _, .field p, _, h => by
      rw [Path.Within] at h
      rw [Path.check, p.check_of_within h]
  | _, _, .progressiveField p, _, h => by
      rw [Path.Within] at h
      rw [Path.check, p.check_of_within h]
  | _, _, .vectorAt i checked p, v, h => by
      rw [Path.Within] at h
      obtain ⟨hi, hp⟩ := h
      rw [Path.check, guardIndex_of_lt hi, vector_getElem?_getD_of_lt hi, p.check_of_within hp]
  | _, _, .listAt i checked p, xs, h => by
      rw [Path.Within] at h
      obtain ⟨hi, hp⟩ := h
      rw [Path.check, guardIndex_of_lt hi, getElem?_getD_of_lt hi, p.check_of_within hp]
  | _, _, .progressiveListAt i checked, xs, h => by
      rw [Path.Within] at h
      rw [Path.check, guardIndex_of_lt h]
  | _, _, .progressiveBitAt i checked, bs, h => by
      rw [Path.Within] at h
      rw [Path.check, guardIndex_of_lt h]

theorem FieldPath.check_of_within : ∀ {fs : List SSZType} {u : SSZType} (p : FieldPath fs u)
    {vs : SSZType.interpFields fs}, p.Within vs → p.check dflt vs = .ok ()
  | _, _, .head p, _, h => by
      rw [FieldPath.Within] at h
      rw [FieldPath.check, p.check_of_within h]
  | _, _, .tail p, _, h => by
      rw [FieldPath.Within] at h
      rw [FieldPath.check, p.check_of_within h]

end

mutual

/-- A path that is checked all the way and not refused has every index in range. -/
theorem Path.within_of_check : ∀ {s u : SSZType} (p : Path s u) {x : s.interp}, p.Checked →
    p.check dflt x = .ok () → p.Within x
  | _, _, .here, _, _, _ => by
      rw [Path.Within]
      trivial
  | _, _, .field p, _, hc, h => by
      rw [Path.Checked] at hc
      rw [Path.check] at h
      rw [Path.Within]
      exact p.within_of_check hc h
  | _, _, .progressiveField p, _, hc, h => by
      rw [Path.Checked] at hc
      rw [Path.check] at h
      rw [Path.Within]
      exact p.within_of_check hc h
  | _, _, .vectorAt i checked p, v, hc, h => by
      rw [Path.Checked] at hc
      rw [Path.check] at h
      rw [Path.Within]
      have hi := (guardIndex_ok h).1 hc.1
      have hinner := (guardIndex_ok h).2
      rw [vector_getElem?_getD_of_lt hi] at hinner
      exact ⟨hi, p.within_of_check hc.2 hinner⟩
  | _, _, .listAt i checked p, xs, hc, h => by
      rw [Path.Checked] at hc
      rw [Path.check] at h
      rw [Path.Within]
      have hi := (guardIndex_ok h).1 hc.1
      have hinner := (guardIndex_ok h).2
      rw [getElem?_getD_of_lt hi] at hinner
      exact ⟨hi, p.within_of_check hc.2 hinner⟩
  | _, _, .progressiveListAt i checked, xs, hc, h => by
      rw [Path.Checked] at hc
      rw [Path.check] at h
      rw [Path.Within]
      exact (guardIndex_ok h).1 hc
  | _, _, .progressiveBitAt i checked, bs, hc, h => by
      rw [Path.Checked] at hc
      rw [Path.check] at h
      rw [Path.Within]
      exact (guardIndex_ok h).1 hc

theorem FieldPath.within_of_check : ∀ {fs : List SSZType} {u : SSZType} (p : FieldPath fs u)
    {vs : SSZType.interpFields fs}, p.Checked → p.check dflt vs = .ok () → p.Within vs
  | _, _, .head p, _, hc, h => by
      rw [FieldPath.Checked] at hc
      rw [FieldPath.check] at h
      rw [FieldPath.Within]
      exact p.within_of_check hc h
  | _, _, .tail p, _, hc, h => by
      rw [FieldPath.Checked] at hc
      rw [FieldPath.check] at h
      rw [FieldPath.Within]
      exact p.within_of_check hc h

end

/-! ## What is refused -/

/-- An index on the way of a path, with the current length of what it indexes. -/
structure IndexStep where
  checked : Bool
  index : Nat
  length : Nat

/-- A checked index that is not below the length. -/
def IndexStep.past (st : IndexStep) : Bool := st.checked && decide (st.length ≤ st.index)

mutual

/-- The indices on the way, in order.  What is read past the end is the default. -/
def Path.indices (dflt : Defaults) : {s u : SSZType} → Path s u → s.interp → List IndexStep
  | _, _, .here, _ => []
  | _, _, .field p, x => p.indices dflt x
  | _, _, .progressiveField p, x => p.indices dflt x
  | _, _, @Path.vectorAt t n _ i checked p, v =>
      ⟨checked, i, n⟩ :: p.indices dflt (v[i]?.getD (dflt t))
  | _, _, @Path.listAt t _ _ i checked p, xs =>
      ⟨checked, i, xs.val.size⟩ :: p.indices dflt (xs.val[i]?.getD (dflt t))
  | _, _, .progressiveListAt i checked, xs => [⟨checked, i, xs.size⟩]
  | _, _, .progressiveBitAt i checked, bs => [⟨checked, i, bs.size⟩]

def FieldPath.indices (dflt : Defaults) : {fs : List SSZType} → {u : SSZType} →
    FieldPath fs u → SSZType.interpFields fs → List IndexStep
  | _, _, .head p, vs => p.indices dflt vs.1
  | _, _, .tail p, vs => p.indices dflt vs.2

end

/-- Nothing, or the first index that is past the end. -/
def report (steps : List IndexStep) : Except IndexError Unit :=
  match steps.find? IndexStep.past with
  | some st => .error (.indexError st.index st.length)
  | none => .ok ()

theorem report_cons (checked : Bool) (i bound : Nat) (steps : List IndexStep) :
    report (⟨checked, i, bound⟩ :: steps) = guardIndex checked i bound (report steps) := by
  cases checked with
  | false => simp [report, guardIndex, IndexStep.past]
  | true =>
      by_cases hi : i < bound
      · simp [report, guardIndex, IndexStep.past, hi, Nat.not_le.mpr hi]
      · simp [report, guardIndex, IndexStep.past, hi, Nat.le_of_not_lt hi]

theorem report_append (l l' : List IndexStep) :
    report (l ++ l') = (report l).bind fun _ => report l' := by
  unfold report
  rw [List.find?_append]
  cases l.find? IndexStep.past <;> rfl

mutual

/-- A path is refused for the first checked index of its own that is past the end. -/
theorem Path.check_eq : ∀ {s u : SSZType} (p : Path s u) (x : s.interp),
    p.check dflt x = report (p.indices dflt x)
  | _, _, .here, _ => by
      rw [Path.check, Path.indices]
      rfl
  | _, _, .field p, x => by rw [Path.check, Path.indices, p.check_eq x]
  | _, _, .progressiveField p, x => by rw [Path.check, Path.indices, p.check_eq x]
  | _, _, .vectorAt i checked p, v => by rw [Path.check, Path.indices, report_cons, p.check_eq]
  | _, _, .listAt i checked p, xs => by rw [Path.check, Path.indices, report_cons, p.check_eq]
  | _, _, .progressiveListAt i checked, xs => by
      rw [Path.check, Path.indices, report_cons]
      rfl
  | _, _, .progressiveBitAt i checked, bs => by
      rw [Path.check, Path.indices, report_cons]
      rfl

theorem FieldPath.check_eq : ∀ {fs : List SSZType} {u : SSZType} (p : FieldPath fs u)
    (vs : SSZType.interpFields fs), p.check dflt vs = report (p.indices dflt vs)
  | _, _, .head p, vs => by rw [FieldPath.check, FieldPath.indices, p.check_eq vs.1]
  | _, _, .tail p, vs => by rw [FieldPath.check, FieldPath.indices, p.check_eq vs.2]

end

/-- Index `i`, which is checked, is the first that is not below the length it is checked
against, and that is `bound`. -/
def FirstPast (steps : List IndexStep) (i bound : Nat) : Prop :=
  ∃ before after, steps = before ++ ⟨true, i, bound⟩ :: after ∧ bound ≤ i ∧
    ∀ st ∈ before, st.checked = true → st.index < st.length

theorem report_error_iff {steps : List IndexStep} {i bound : Nat} :
    report steps = .error (.indexError i bound) ↔ FirstPast steps i bound := by
  have hfound : report steps = .error (.indexError i bound) ↔
      steps.find? IndexStep.past = some ⟨true, i, bound⟩ := by
    unfold report
    cases hfind : steps.find? IndexStep.past with
    | none => simp
    | some st =>
        have hpast := List.find?_some hfind
        obtain ⟨checked, index, length⟩ := st
        simp only [IndexStep.past, Bool.and_eq_true] at hpast
        simp [hpast.1]
  rw [hfound, List.find?_eq_some_iff_append, FirstPast]
  simp only [IndexStep.past, Bool.and_eq_true, decide_eq_true_eq, true_and, Bool.not_eq_true',
    Bool.and_eq_false_iff, decide_eq_false_iff_not, Nat.not_le]
  constructor
  · rintro ⟨hle, before, after, rfl, hbefore⟩
    exact ⟨before, after, rfl, hle, fun st hst hchecked =>
      (hbefore st hst).resolve_left (by simp [hchecked])⟩
  · rintro ⟨before, after, rfl, hle, hbefore⟩
    refine ⟨hle, before, after, rfl, fun st hst => ?_⟩
    cases hchecked : st.checked with
    | false => exact .inl rfl
    | true => exact .inr (hbefore st hst hchecked)

/-! ## Reading and writing -/

mutual

/-- A write whose path is in range is read back. -/
theorem Path.get_write : ∀ {s u : SSZType} (p : Path s u) (y : u.interp) {x : s.interp},
    p.Within x → p.get dflt (p.write dflt y x) = y
  | _, _, .here, _, _, _ => by rw [Path.write, Path.get]
  | _, _, .field p, y, _, h => by
      rw [Path.Within] at h
      rw [Path.write, Path.get, p.get_write y h]
  | _, _, .progressiveField p, y, _, h => by
      rw [Path.Within] at h
      rw [Path.write, Path.get, p.get_write y h]
  | _, _, .vectorAt i _ p, y, v, h => by
      rw [Path.Within] at h
      obtain ⟨hi, hp⟩ := h
      rw [Path.write, Path.get, vector_getElem?_getD_of_lt hi, vector_getElem?_getD_of_lt hi,
        Vector.getElem_setIfInBounds_self, p.get_write y hp]
  | _, _, .listAt i _ p, y, xs, h => by
      rw [Path.Within] at h
      obtain ⟨hi, hp⟩ := h
      have hset : i < (listSet xs i (p.write dflt y xs.val[i])).val.size := by simpa [listSet]
      rw [Path.write, Path.get, getElem?_getD_of_lt hi, getElem?_getD_of_lt hset]
      simp only [listSet, Array.getElem_setIfInBounds_self]
      exact p.get_write y hp
  | _, _, .progressiveListAt i _, y, xs, h => by
      rw [Path.Within] at h
      rw [Path.write, Path.get, getElem?_getD_of_lt (by simpa), Array.getElem_setIfInBounds_self]
  | _, _, .progressiveBitAt i _, y, bs, h => by
      rw [Path.Within] at h
      rw [Path.write, Path.get, getElem?_getD_of_lt (by simpa), Array.getElem_setIfInBounds_self]

theorem FieldPath.get_write : ∀ {fs : List SSZType} {u : SSZType} (p : FieldPath fs u)
    (y : u.interp) {vs : SSZType.interpFields fs}, p.Within vs →
    p.get dflt (p.write dflt y vs) = y
  | _, _, .head p, y, _, h => by
      rw [FieldPath.Within] at h
      rw [FieldPath.write, FieldPath.get, p.get_write y h]
  | _, _, .tail p, y, _, h => by
      rw [FieldPath.Within] at h
      rw [FieldPath.write, FieldPath.get, p.get_write y h]

end

/-! ## Paths that part -/

mutual

/-- At some step the two paths go to different parts. -/
inductive Path.Apart : {s u v : SSZType} → Path s u → Path s v → Prop where
  | field {fs : List SSZType} {u v : SSZType} {p : FieldPath fs u} {q : FieldPath fs v}
      (h : p.Apart q) : Path.Apart (.field p) (.field q)
  | progressiveField {active : List Bool} {fs : List SSZType} {u v : SSZType}
      {p : FieldPath fs u} {q : FieldPath fs v} (h : p.Apart q) :
      Path.Apart (@Path.progressiveField active _ _ p) (.progressiveField q)
  | vectorIndex {t : SSZType} {n : Nat} {u v : SSZType} {i j : Nat} {a b : Bool} {p : Path t u}
      {q : Path t v} (h : i ≠ j) : Path.Apart (@Path.vectorAt t n u i a p) (.vectorAt j b q)
  | vectorElem {t : SSZType} {n : Nat} {u v : SSZType} {i : Nat} {a b : Bool} {p : Path t u}
      {q : Path t v} (h : p.Apart q) : Path.Apart (@Path.vectorAt t n u i a p) (.vectorAt i b q)
  | listIndex {t : SSZType} {cap : Nat} {u v : SSZType} {i j : Nat} {a b : Bool} {p : Path t u}
      {q : Path t v} (h : i ≠ j) : Path.Apart (@Path.listAt t cap u i a p) (.listAt j b q)
  | listElem {t : SSZType} {cap : Nat} {u v : SSZType} {i : Nat} {a b : Bool} {p : Path t u}
      {q : Path t v} (h : p.Apart q) : Path.Apart (@Path.listAt t cap u i a p) (.listAt i b q)
  | progressiveListIndex {t : SSZType} {i j : Nat} {a b : Bool} (h : i ≠ j) :
      Path.Apart (@Path.progressiveListAt t i a) (.progressiveListAt j b)
  | progressiveBitIndex {i j : Nat} {a b : Bool} (h : i ≠ j) :
      Path.Apart (.progressiveBitAt i a) (.progressiveBitAt j b)

inductive FieldPath.Apart : {fs : List SSZType} → {u v : SSZType} → FieldPath fs u →
    FieldPath fs v → Prop where
  | headTail {t : SSZType} {ts : List SSZType} {u v : SSZType} {p : Path t u}
      {q : FieldPath ts v} : FieldPath.Apart (.head p) (.tail q)
  | tailHead {t : SSZType} {ts : List SSZType} {u v : SSZType} {p : FieldPath ts u}
      {q : Path t v} : FieldPath.Apart (.tail p) (.head q)
  | head {t : SSZType} {ts : List SSZType} {u v : SSZType} {p : Path t u} {q : Path t v}
      (h : p.Apart q) : FieldPath.Apart (@FieldPath.head t ts u p) (.head q)
  | tail {t : SSZType} {ts : List SSZType} {u v : SSZType} {p : FieldPath ts u}
      {q : FieldPath ts v} (h : p.Apart q) : FieldPath.Apart (@FieldPath.tail t ts u p) (.tail q)

end

mutual

theorem Path.Apart.symm : ∀ {s u v : SSZType} {p : Path s u} {q : Path s v}, p.Apart q →
    q.Apart p
  | _, _, _, _, _, .field h => .field h.symm
  | _, _, _, _, _, .progressiveField h => .progressiveField h.symm
  | _, _, _, _, _, .vectorIndex h => .vectorIndex h.symm
  | _, _, _, _, _, .vectorElem h => .vectorElem h.symm
  | _, _, _, _, _, .listIndex h => .listIndex h.symm
  | _, _, _, _, _, .listElem h => .listElem h.symm
  | _, _, _, _, _, .progressiveListIndex h => .progressiveListIndex h.symm
  | _, _, _, _, _, .progressiveBitIndex h => .progressiveBitIndex h.symm

theorem FieldPath.Apart.symm : ∀ {fs : List SSZType} {u v : SSZType} {p : FieldPath fs u}
    {q : FieldPath fs v}, p.Apart q → q.Apart p
  | _, _, _, _, _, .headTail => .tailHead
  | _, _, _, _, _, .tailHead => .headTail
  | _, _, _, _, _, .head h => .head h.symm
  | _, _, _, _, _, .tail h => .tail h.symm

end

/-- An array with one element set, read anywhere. -/
theorem setIfInBounds_getD {α : Type} (xs : Array α) (i : Nat) (y d : α) (j : Nat) :
    (xs.setIfInBounds i y)[j]?.getD d = if i = j ∧ i < xs.size then y else xs[j]?.getD d := by
  grind

theorem vector_setIfInBounds_getD {α : Type} {n : Nat} (v : Vector α n) (i : Nat) (y d : α)
    (j : Nat) : (v.setIfInBounds i y)[j]?.getD d = if i = j ∧ i < n then y else v[j]?.getD d := by
  grind

mutual

/-- A write is not seen by paths that part from its own. -/
theorem Path.get_write_apart : ∀ {s u v : SSZType} {p : Path s u} {q : Path s v} (y : u.interp)
    (x : s.interp), p.Apart q → q.get dflt (p.write dflt y x) = q.get dflt x
  | _, _, _, _, _, y, x, .field h => by
      rw [Path.write, Path.get, Path.get, FieldPath.get_write_apart y x h]
  | _, _, _, _, _, y, x, .progressiveField h => by
      rw [Path.write, Path.get, Path.get, FieldPath.get_write_apart y x h]
  | _, _, _, _, _, y, v, .vectorIndex h => by
      rw [Path.write, Path.get, Path.get, vector_setIfInBounds_getD, if_neg fun hij => h hij.1]
  | _, _, _, _, _, y, v, .vectorElem h => by
      rw [Path.write, Path.get, Path.get, vector_setIfInBounds_getD]
      split
      · exact Path.get_write_apart y _ h
      · rfl
  | _, _, _, _, _, y, xs, .listIndex h => by
      rw [Path.write, Path.get, Path.get, listSet, setIfInBounds_getD, if_neg fun hij => h hij.1]
  | _, _, _, _, _, y, xs, .listElem h => by
      rw [Path.write, Path.get, Path.get, listSet, setIfInBounds_getD]
      split
      · exact Path.get_write_apart y _ h
      · rfl
  | _, _, _, _, _, y, xs, .progressiveListIndex h => by
      rw [Path.write, Path.get, Path.get, setIfInBounds_getD, if_neg fun hij => h hij.1]
  | _, _, _, _, _, y, bs, .progressiveBitIndex h => by
      rw [Path.write, Path.get, Path.get, setIfInBounds_getD, if_neg fun hij => h hij.1]

theorem FieldPath.get_write_apart : ∀ {fs : List SSZType} {u v : SSZType} {p : FieldPath fs u}
    {q : FieldPath fs v} (y : u.interp) (vs : SSZType.interpFields fs), p.Apart q →
    q.get dflt (p.write dflt y vs) = q.get dflt vs
  | _, _, _, _, _, y, vs, .headTail => by
      rw [FieldPath.write, FieldPath.get, FieldPath.get]
  | _, _, _, _, _, y, vs, .tailHead => by
      rw [FieldPath.write, FieldPath.get, FieldPath.get]
  | _, _, _, _, _, y, vs, .head h => by
      rw [FieldPath.write, FieldPath.get, FieldPath.get, Path.get_write_apart y vs.1 h]
  | _, _, _, _, _, y, vs, .tail h => by
      rw [FieldPath.write, FieldPath.get, FieldPath.get, FieldPath.get_write_apart y vs.2 h]

end

/-- Setting one element through `f`, where `f` keeps `P` of it, keeps `P` at every place. -/
theorem exists_vector_set {α : Type} {n : Nat} {v : Vector α n} {i j : Nat} {y : α}
    {P : α → Prop} (h : ∃ hj : j < n, P v[j]) (hi : i = j → P y) :
    ∃ hj : j < n, P (v.setIfInBounds i y)[j] := by
  obtain ⟨hj, hP⟩ := h
  refine ⟨hj, ?_⟩
  rw [Vector.getElem_setIfInBounds]
  split
  · exact hi ‹_›
  · exact hP

theorem exists_array_set {α : Type} {xs : Array α} {i j : Nat} {y : α} {P : α → Prop}
    (h : ∃ hj : j < xs.size, P xs[j]) (hi : i = j → P y) :
    ∃ hj : j < (xs.setIfInBounds i y).size, P (xs.setIfInBounds i y)[j] := by
  obtain ⟨hj, hP⟩ := h
  refine ⟨by simpa, ?_⟩
  rw [Array.getElem_setIfInBounds]
  split
  · exact hi ‹_›
  · exact hP

mutual

/-- Nor does it take an index of theirs out of range. -/
theorem Path.within_write_apart : ∀ {s u v : SSZType} {p : Path s u} {q : Path s v}
    (y : u.interp) (x : s.interp), p.Apart q → q.Within x → q.Within (p.write dflt y x)
  | _, _, _, _, _, y, x, .field h, hq => by
      rw [Path.Within] at hq ⊢
      rw [Path.write]
      exact FieldPath.within_write_apart y x h hq
  | _, _, _, _, _, y, x, .progressiveField h, hq => by
      rw [Path.Within] at hq ⊢
      rw [Path.write]
      exact FieldPath.within_write_apart y x h hq
  | _, _, _, _, _, y, v, .vectorIndex h, hq => by
      rw [Path.Within] at hq ⊢
      rw [Path.write]
      exact exists_vector_set hq fun hij => absurd hij h
  | _, _, _, _, _, y, v, .vectorElem h, hq => by
      rw [Path.Within] at hq ⊢
      rw [Path.write]
      refine exists_vector_set hq fun _ => ?_
      obtain ⟨hi, hq⟩ := hq
      rw [vector_getElem?_getD_of_lt hi]
      exact Path.within_write_apart y _ h hq
  | _, _, _, _, _, y, xs, .listIndex h, hq => by
      rw [Path.Within] at hq ⊢
      rw [Path.write, listSet]
      exact exists_array_set hq fun hij => absurd hij h
  | _, _, _, _, _, y, xs, .listElem h, hq => by
      rw [Path.Within] at hq ⊢
      rw [Path.write, listSet]
      refine exists_array_set hq fun _ => ?_
      obtain ⟨hi, hq⟩ := hq
      rw [getElem?_getD_of_lt hi]
      exact Path.within_write_apart y _ h hq
  | _, _, _, _, _, y, xs, .progressiveListIndex h, hq => by
      rw [Path.Within] at hq ⊢
      rw [Path.write, Array.size_setIfInBounds]
      exact hq
  | _, _, _, _, _, y, bs, .progressiveBitIndex h, hq => by
      rw [Path.Within] at hq ⊢
      rw [Path.write, Array.size_setIfInBounds]
      exact hq

theorem FieldPath.within_write_apart : ∀ {fs : List SSZType} {u v : SSZType}
    {p : FieldPath fs u} {q : FieldPath fs v} (y : u.interp) (vs : SSZType.interpFields fs),
    p.Apart q → q.Within vs → q.Within (p.write dflt y vs)
  | _, _, _, _, _, y, vs, .headTail, hq => by
      rw [FieldPath.Within] at hq ⊢
      rw [FieldPath.write]
      exact hq
  | _, _, _, _, _, y, vs, .tailHead, hq => by
      rw [FieldPath.Within] at hq ⊢
      rw [FieldPath.write]
      exact hq
  | _, _, _, _, _, y, vs, .head h, hq => by
      rw [FieldPath.Within] at hq ⊢
      rw [FieldPath.write]
      exact Path.within_write_apart y vs.1 h hq
  | _, _, _, _, _, y, vs, .tail h, hq => by
      rw [FieldPath.Within] at hq ⊢
      rw [FieldPath.write]
      exact FieldPath.within_write_apart y vs.2 h hq

end

section Commute

variable {α : Type} {i j : Nat} {f g : α → α} (d : α)

theorem array_commute (xs : Array α) (h : i ≠ j) :
    (xs.setIfInBounds i (f (xs[i]?.getD d))).setIfInBounds j
        (g ((xs.setIfInBounds i (f (xs[i]?.getD d)))[j]?.getD d)) =
      (xs.setIfInBounds j (g (xs[j]?.getD d))).setIfInBounds i
        (f ((xs.setIfInBounds j (g (xs[j]?.getD d)))[i]?.getD d)) := by
  rw [setIfInBounds_getD, setIfInBounds_getD, if_neg fun hij => h hij.1,
    if_neg fun hji => h hji.1.symm, Array.setIfInBounds_comm _ _ h]

theorem array_commute_self (xs : Array α) (h : ∀ x, g (f x) = f (g x)) :
    (xs.setIfInBounds i (f (xs[i]?.getD d))).setIfInBounds i
        (g ((xs.setIfInBounds i (f (xs[i]?.getD d)))[i]?.getD d)) =
      (xs.setIfInBounds i (g (xs[i]?.getD d))).setIfInBounds i
        (f ((xs.setIfInBounds i (g (xs[i]?.getD d)))[i]?.getD d)) := by
  by_cases hi : i < xs.size
  · simp only [setIfInBounds_getD, hi, and_self, if_true, Array.setIfInBounds_setIfInBounds, h]
  · simp only [Array.setIfInBounds_eq_of_size_le (Nat.le_of_not_lt hi)]

theorem vector_commute {n : Nat} (v : Vector α n) (h : i ≠ j) :
    (v.setIfInBounds i (f (v[i]?.getD d))).setIfInBounds j
        (g ((v.setIfInBounds i (f (v[i]?.getD d)))[j]?.getD d)) =
      (v.setIfInBounds j (g (v[j]?.getD d))).setIfInBounds i
        (f ((v.setIfInBounds j (g (v[j]?.getD d)))[i]?.getD d)) := by
  rw [← Vector.toArray_inj]
  simp only [Vector.toArray_setIfInBounds, ← Vector.getElem?_toArray]
  exact array_commute d v.toArray h

theorem vector_commute_self {n : Nat} (v : Vector α n) (h : ∀ x, g (f x) = f (g x)) :
    (v.setIfInBounds i (f (v[i]?.getD d))).setIfInBounds i
        (g ((v.setIfInBounds i (f (v[i]?.getD d)))[i]?.getD d)) =
      (v.setIfInBounds i (g (v[i]?.getD d))).setIfInBounds i
        (f ((v.setIfInBounds i (g (v[i]?.getD d)))[i]?.getD d)) := by
  rw [← Vector.toArray_inj]
  simp only [Vector.toArray_setIfInBounds, ← Vector.getElem?_toArray]
  exact array_commute_self d v.toArray h

end Commute

mutual

/-- Writes whose paths part can be made in either order. -/
theorem Path.write_comm : ∀ {s u v : SSZType} {p : Path s u} {q : Path s v} (y : u.interp)
    (z : v.interp) (x : s.interp), p.Apart q →
    q.write dflt z (p.write dflt y x) = p.write dflt y (q.write dflt z x)
  | _, _, _, _, _, y, z, x, .field h => by
      rw [Path.write, Path.write, Path.write, Path.write, FieldPath.write_comm y z x h]
  | _, _, _, _, _, y, z, x, .progressiveField h => by
      rw [Path.write, Path.write, Path.write, Path.write, FieldPath.write_comm y z x h]
  | _, _, _, _, _, y, z, v, .vectorIndex h => by
      rw [Path.write, Path.write, Path.write, Path.write]
      exact vector_commute _ v h
  | _, _, _, _, _, y, z, v, .vectorElem h => by
      rw [Path.write, Path.write, Path.write, Path.write]
      exact vector_commute_self _ v fun x => Path.write_comm y z x h
  | _, _, _, _, _, y, z, xs, .listIndex h => by
      rw [Path.write, Path.write, Path.write, Path.write]
      exact Subtype.ext (array_commute _ xs.val h)
  | _, _, _, _, _, y, z, xs, .listElem h => by
      rw [Path.write, Path.write, Path.write, Path.write]
      exact Subtype.ext (array_commute_self _ xs.val fun x => Path.write_comm y z x h)
  | _, _, _, _, _, y, z, xs, .progressiveListIndex h => by
      rw [Path.write, Path.write, Path.write, Path.write]
      exact Array.setIfInBounds_comm _ _ h
  | _, _, _, _, _, y, z, bs, .progressiveBitIndex h => by
      rw [Path.write, Path.write, Path.write, Path.write]
      exact Array.setIfInBounds_comm _ _ h

theorem FieldPath.write_comm : ∀ {fs : List SSZType} {u v : SSZType} {p : FieldPath fs u}
    {q : FieldPath fs v} (y : u.interp) (z : v.interp) (vs : SSZType.interpFields fs),
    p.Apart q → q.write dflt z (p.write dflt y vs) = p.write dflt y (q.write dflt z vs)
  | _, _, _, _, _, y, z, vs, .headTail => by
      rw [FieldPath.write, FieldPath.write, FieldPath.write, FieldPath.write]
  | _, _, _, _, _, y, z, vs, .tailHead => by
      rw [FieldPath.write, FieldPath.write, FieldPath.write, FieldPath.write]
  | _, _, _, _, _, y, z, vs, .head h => by
      rw [FieldPath.write, FieldPath.write, FieldPath.write, FieldPath.write,
        Path.write_comm y z vs.1 h]
  | _, _, _, _, _, y, z, vs, .tail h => by
      rw [FieldPath.write, FieldPath.write, FieldPath.write, FieldPath.write,
        FieldPath.write_comm y z vs.2 h]

end

/-! ## Updates of several clauses -/

variable {s : SSZType}

/-- No clause writes where another does. -/
def PairwiseApart (cs : List (Clause s)) : Prop := cs.Pairwise fun c d => c.path.Apart d.path

theorem viewChain_cons (c : Clause s) (cs : List (Clause s)) (x : s.interp) :
    viewChain dflt (c :: cs) x = viewChain dflt cs (c.path.write dflt c.value x) := rfl

theorem viewChain_get_apart {v : SSZType} {q : Path s v} : ∀ {cs : List (Clause s)}
    (x : s.interp), (∀ c ∈ cs, c.path.Apart q) →
    q.get dflt (viewChain dflt cs x) = q.get dflt x := by
  intro cs
  induction cs with
  | nil => exact fun _ _ => rfl
  | cons c cs ih =>
      intro x h
      rw [viewChain_cons, ih _ fun d hd => h d (List.mem_cons_of_mem c hd),
        Path.get_write_apart c.value x (h c List.mem_cons_self)]

/-- Where no clause writes where another does, every clause is read back. -/
theorem viewChain_get : ∀ {cs : List (Clause s)} {x : s.interp}, PairwiseApart cs →
    (∀ c ∈ cs, c.path.Within x) → ∀ c ∈ cs, c.path.get dflt (viewChain dflt cs x) = c.value := by
  intro cs
  induction cs with
  | nil => exact fun _ _ _ hc => absurd hc List.not_mem_nil
  | cons c cs ih =>
      intro x apart within d hd
      obtain ⟨hfirst, hrest⟩ := List.pairwise_cons.mp apart
      rw [viewChain_cons]
      obtain rfl | hd := List.mem_cons.mp hd
      · rw [viewChain_get_apart _ fun e he => (hfirst e he).symm]
        exact Path.get_write _ _ (within d List.mem_cons_self)
      · refine ih hrest (fun e he => ?_) d hd
        exact Path.within_write_apart _ _ (hfirst e he) (within e (List.mem_cons_of_mem c he))

theorem viewChain_perm {cs cs' : List (Clause s)} (hperm : cs.Perm cs') (apart : PairwiseApart cs)
    (x : s.interp) : viewChain dflt cs x = viewChain dflt cs' x := by
  refine hperm.foldl_eq' ?_ x
  have hcomm : cs.Pairwise fun c d => ∀ v : s.interp,
      d.path.write dflt d.value (c.path.write dflt c.value v) =
        c.path.write dflt c.value (d.path.write dflt d.value v) :=
    apart.imp fun h v => Path.write_comm _ _ v h
  exact fun c hc d hd => hcomm.forall_of_forall_of_flip (fun _ _ _ => rfl)
    (hcomm.imp fun h v => (h v).symm) hc hd

theorem indexGuard_cons (c : Clause s) (cs : List (Clause s)) (x : s.interp) :
    indexGuard dflt (c :: cs) x = (c.path.check dflt x).bind fun _ => indexGuard dflt cs x := by
  rfl

theorem indexGuard_ok {x : s.interp} : ∀ {cs : List (Clause s)},
    indexGuard dflt cs x = .ok ⟨⟩ ↔ ∀ c ∈ cs, c.path.check dflt x = .ok () := by
  intro cs
  induction cs with
  | nil => simp [indexGuard, pure, Except.pure]
  | cons c cs ih =>
      rw [indexGuard_cons, List.forall_mem_cons, ← ih]
      cases c.path.check dflt x with
      | ok _ => simp [Except.bind]
      | error e => simp [Except.bind]

/-- The clauses are checked one after another. -/
theorem indexGuard_eq {x : s.interp} (cs : List (Clause s)) :
    indexGuard dflt cs x = report (cs.flatMap fun c => c.path.indices dflt x) := by
  induction cs with
  | nil => rfl
  | cons c cs ih => rw [indexGuard_cons, List.flatMap_cons, report_append, ← ih, c.path.check_eq]

/-- An update returns where no clause is refused, and then leaves the chain of its writes. -/
theorem sszUpdate_cases (dflt : Defaults) (b : Box s) (cs : List (Clause s)) :
    (indexGuard dflt cs b.view = .ok ⟨⟩ ∧
      ∃ b', b.sszUpdate dflt cs = .ok b' ∧ b'.view = viewChain dflt cs b.view) ∨
    ∃ e, indexGuard dflt cs b.view = .error e ∧ b.sszUpdate dflt cs = .error e := by
  cases b with
  | cached t =>
      rw [Box.sszUpdate, TreeBacked.sszUpdate, Box.view]
      cases indexGuard dflt cs t.view with
      | ok _ => exact .inl ⟨rfl, _, rfl, rfl⟩
      | error e => exact .inr ⟨e, rfl, rfl⟩
  | uncached t =>
      rw [Box.sszUpdate, UncachedSSZ.sszUpdate, Box.view]
      cases indexGuard dflt cs t.view with
      | ok _ => exact .inl ⟨rfl, _, rfl, rfl⟩
      | error e => exact .inr ⟨e, rfl, rfl⟩

theorem sszUpdate_ok {b b' : Box s} {cs : List (Clause s)} (h : b.sszUpdate dflt cs = .ok b') :
    indexGuard dflt cs b.view = .ok ⟨⟩ ∧ b'.view = viewChain dflt cs b.view := by
  rcases sszUpdate_cases dflt b cs with ⟨hguard, b'', hb, hview⟩ | ⟨e, -, hb⟩
  · rw [h] at hb
    obtain rfl := Except.ok.inj hb
    exact ⟨hguard, hview⟩
  · rw [h] at hb
    cases hb

/-- An update is refused as its guard is. -/
theorem sszUpdate_error_iff {b : Box s} {cs : List (Clause s)} {e : IndexError} :
    b.sszUpdate dflt cs = .error e ↔ indexGuard dflt cs b.view = .error e := by
  rcases sszUpdate_cases dflt b cs with ⟨hguard, b', hb, -⟩ | ⟨e', hguard, hb⟩
  · simp [hguard, hb]
  · rw [hguard, hb, Except.error.injEq, Except.error.injEq]

abbrev pairType : SSZType := .container [.list .bool 4, .uintN 8]

def pairValue : pairType.interp := (⟨#[false, false], by decide⟩, (1 : UInt8), ⟨⟩)

def bitClause : Clause pairType := ⟨.field (.head (.listAt 1 true .here)), true⟩

def byteClause : Clause pairType := ⟨.field (.tail (.head .here)), (7 : UInt8)⟩

theorem pair_apart : PairwiseApart [bitClause, byteClause] :=
  .cons (by simpa [bitClause, byteClause] using .field .headTail) (.cons (by simp) .nil)

theorem pair_checked : ∀ c ∈ [bitClause, byteClause], c.path.Checked := by
  simp [bitClause, byteClause, Path.Checked, FieldPath.Checked]

theorem pair_ok : (Box.ofPure pairValue).sszUpdate zeros [bitClause, byteClause] =
    .ok (.ofPure (⟨#[false, true], by decide⟩, (7 : UInt8), ⟨⟩)) := by
  rfl

mutual

/-- What is not there is not written. -/
theorem Path.write_of_dead : ∀ {s u : SSZType} (p : Path s u) (y : u.interp) {x : s.interp},
    ¬ p.Live x → p.write dflt y x = x
  | _, _, .here, _, x, h => absurd (live_here x) h
  | _, _, .field p, y, x, h => by
      rw [Path.write]
      exact p.write_of_dead y fun hp => h ((live_field p x).mpr hp)
  | _, _, .progressiveField p, y, x, h => by
      rw [Path.Live, Path.part] at h
      rw [Path.write]
      exact p.write_of_dead y h
  | _, _, @Path.vectorAt t n _ i checked p, y, v, h => by
      by_cases ht : t.isBasicType = true
      · exact absurd (live_vectorAt_basic ht p v) h
      rw [live_vectorAt ht] at h
      rw [Path.write]
      by_cases hi : i < n
      · rw [vector_getElem?_getD_of_lt hi, p.write_of_dead y fun hp => h ⟨hi, hp⟩]
        exact vector_set_self v hi
      · grind
  | _, _, @Path.listAt t cap _ i checked p, y, xs, h => by
      by_cases ht : t.isBasicType = true
      · exact absurd (live_listAt_basic ht p xs) h
      rw [live_listAt ht] at h
      rw [Path.write]
      apply Subtype.ext
      by_cases hi : i < xs.val.size
      · rw [getElem?_getD_of_lt hi, p.write_of_dead y fun hp => h ⟨hi, hp⟩]
        exact array_set_self xs.val hi
      · exact Array.setIfInBounds_eq_of_size_le (Nat.le_of_not_lt hi)
  | _, _, .progressiveListAt i checked, y, xs, h => by
      rw [Path.Live, Path.part] at h
      exact absurd rfl h
  | _, _, .progressiveBitAt i checked, y, bs, h => by
      rw [Path.Live, Path.part] at h
      exact absurd rfl h

theorem FieldPath.write_of_dead : ∀ {fs : List SSZType} {u : SSZType} (p : FieldPath fs u)
    (y : u.interp) {vs : SSZType.interpFields fs}, ¬ p.Live vs → p.write dflt y vs = vs
  | _, _, .head p, y, vs, h => by
      rw [FieldPath.write, p.write_of_dead y fun hp => h ((live_head p vs).mpr hp)]
  | _, _, .tail p, y, vs, h => by
      rw [FieldPath.write, p.write_of_dead y fun hp => h ((live_tail p vs).mpr hp)]

end

end HazmatSha256.Cache
