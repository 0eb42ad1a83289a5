/-
  Foundation/Exec.lean --- programs that change a state and may stop early.

  A C function with a shared state and calls that may never come back is a value
  of `EStateM ε S α`: it returns an `α` or stops with an `ε`, and in both cases
  it leaves a state behind.  This file adds the two loop forms the embedded code
  uses and one judgment, `Sat`, with a rule for every construct.

  The stopping condition of `Sat` sees the state too.  A program that gives up
  half way still owes its caller a promise about what it did until then, and
  that promise is carried by the same invariant as the normal exit.
-/
set_option autoImplicit false

namespace HazmatSha256.Foundation

universe u

variable {ε S α β : Type u}

/-! ## Loops -/

/-- `for (i = first; count rounds; i++) b = body(i, b)`, for a loop that carries a
local variable from round to round. -/
def forWith (body : Nat → β → EStateM ε S β) : (first count : Nat) → β → EStateM ε S β
  | _, 0, b => pure b
  | i, k + 1, b => do
      let next ← body i b
      forWith body (i + 1) k next

/-- `for (i = first; count rounds; i++) body(i)`. -/
def forUp (body : Nat → EStateM ε S PUnit) (first count : Nat) : EStateM ε S PUnit :=
  forWith (fun i _ => body i) first count ⟨⟩

/-- A loop whose body answers with the next loop variable, or with `none` to
leave.  After `fuel` rounds it stops with `stuck`. -/
def loop (stuck : ε) (body : β → EStateM ε S (Option β)) : (fuel : Nat) → β → EStateM ε S PUnit
  | 0, _ => throw stuck
  | fuel + 1, b => do
      match ← body b with
      | some next => loop stuck body fuel next
      | none => pure ⟨⟩

/-! ## The judgment -/

/-- Started in `s`, the program `m` returns into `Q` or stops into `E`. -/
def Sat (m : EStateM ε S α) (s : S) (Q : α → S → Prop) (E : ε → S → Prop) : Prop :=
  match m s with
  | .ok a s' => Q a s'
  | .error e s' => E e s'

namespace Sat

variable {s : S} {E : ε → S → Prop}

theorem ret {a : α} {Q : α → S → Prop} (h : Q a s) :
    Sat (pure a : EStateM ε S α) s Q E := h

theorem stop {e : ε} {Q : α → S → Prop} (h : E e s) :
    Sat (throw e : EStateM ε S α) s Q E := h

theorem read {Q : S → S → Prop} (h : Q s s) :
    Sat (get : EStateM ε S S) s Q E := h

theorem write {f : S → S} {Q : PUnit → S → Prop} (h : Q ⟨⟩ (f s)) :
    Sat (modify f : EStateM ε S PUnit) s Q E := h

/-- Sequencing: the rest of the program runs in the state the first part left. -/
theorem bind {m : EStateM ε S α} {f : α → EStateM ε S β} {Q : β → S → Prop}
    (h : Sat m s (fun a s' => Sat (f a) s' Q E) E) : Sat (m >>= f) s Q E := by
  unfold Sat at h ⊢
  change (match EStateM.bind m f s with | .ok a s' => Q a s' | .error e s' => E e s')
  unfold EStateM.bind
  cases hm : m s with
  | ok a s' => simpa only [hm, Sat] using h
  | error e s' => simpa only [hm] using h

/-- Consequence. -/
theorem mono {m : EStateM ε S α} {Q Q' : α → S → Prop} {E' : ε → S → Prop}
    (h : Sat m s Q' E') (hQ : ∀ a s', Q' a s' → Q a s') (hE : ∀ e s', E' e s' → E e s') :
    Sat m s Q E := by
  unfold Sat at h ⊢
  cases hm : m s with
  | ok a s' =>
      rw [hm] at h
      exact hQ a s' h
  | error e s' =>
      rw [hm] at h
      exact hE e s' h

/-- Sequencing after a part whose own specification is known. -/
theorem seq {m : EStateM ε S α} {f : α → EStateM ε S β} {P : α → S → Prop} {Q : β → S → Prop}
    (h : Sat m s P E) (hf : ∀ a s', P a s' → Sat (f a) s' Q E) : Sat (m >>= f) s Q E :=
  bind (h.mono hf fun _ _ he => he)

theorem branch {c : Prop} [Decidable c] {m₁ m₂ : EStateM ε S α} {Q : α → S → Prop}
    (h₁ : c → Sat m₁ s Q E) (h₂ : ¬ c → Sat m₂ s Q E) :
    Sat (if c then m₁ else m₂) s Q E := by
  split
  · exact h₁ ‹_›
  · exact h₂ ‹_›

/-! ## Reading a judgment back -/

theorem of_ok {m : EStateM ε S α} {Q : α → S → Prop} (h : Sat m s Q E) {a : α} {s' : S}
    (hm : m s = .ok a s') : Q a s' := by
  unfold Sat at h
  rw [hm] at h
  exact h

theorem of_error {m : EStateM ε S α} {Q : α → S → Prop} (h : Sat m s Q E) {e : ε} {s' : S}
    (hm : m s = .error e s') : E e s' := by
  unfold Sat at h
  rw [hm] at h
  exact h

/-- A program that cannot stop early returns. -/
theorem returns {m : EStateM ε S α} {Q : α → S → Prop} (h : Sat m s Q E)
    (hE : ∀ e s', ¬ E e s') : ∃ a s', m s = .ok a s' ∧ Q a s' := by
  cases hm : m s with
  | ok a s' => exact ⟨a, s', rfl, h.of_ok hm⟩
  | error e s' => exact absurd (h.of_error hm) (hE e s')

/-! ## Loop rules -/

/-- The invariant `I i` holds before round `i`. -/
theorem forWith {body : Nat → β → EStateM ε S β} (I : Nat → β → S → Prop) :
    ∀ (count first : Nat) (b : β) (s : S), I first b s →
      (∀ i b s, first ≤ i → i < first + count → I i b s →
        Sat (body i b) s (fun b' s' => I (i + 1) b' s') E) →
      Sat (Foundation.forWith body first count b) s (fun b' s' => I (first + count) b' s') E := by
  intro count
  induction count with
  | zero =>
      intro first b s h0 _
      exact ret h0
  | succ k ih =>
      intro first b s h0 hstep
      refine seq (hstep first b s (Nat.le_refl _) (by omega) h0) ?_
      intro b' s' h1
      have hrest := ih (first + 1) b' s' h1 fun i c t hi hk => hstep i c t (by omega) (by omega)
      rwa [show first + 1 + k = first + (k + 1) by omega] at hrest

theorem forUp {body : Nat → EStateM ε S PUnit} (I : Nat → S → Prop) (count first : Nat) (s : S)
    (h0 : I first s)
    (hstep : ∀ i s, first ≤ i → i < first + count → I i s →
      Sat (body i) s (fun _ s' => I (i + 1) s') E) :
    Sat (Foundation.forUp body first count) s (fun _ s' => I (first + count) s') E := by
  refine forWith (fun i _ s => I i s) count first PUnit.unit s h0 ?_
  intro i _ t hi hk h
  exact hstep i t hi hk h

/-- Total correctness of `loop`: the invariant `I` holds before every round and
the variant `μ` drops in every round that goes on, so a fuel above the variant
is never used up. -/
theorem loop {stuck : ε} {body : β → EStateM ε S (Option β)} (I : β → S → Prop)
    (μ : β → S → Nat) {Q : S → Prop}
    (hbody : ∀ b s, I b s →
      Sat (body b) s
        (fun next s' => match next with
          | some b' => I b' s' ∧ μ b' s' < μ b s
          | none => Q s') E) :
    ∀ (fuel : Nat) (b : β) (s : S), I b s → μ b s < fuel →
      Sat (Foundation.loop stuck body fuel b) s (fun _ s' => Q s') E := by
  intro fuel
  induction fuel with
  | zero =>
      intro b s _ hfuel
      exact absurd hfuel (Nat.not_lt_zero _)
  | succ fuel ih =>
      intro b s hI hfuel
      refine seq (hbody b s hI) ?_
      intro next s' hnext
      cases next with
      | none => exact ret hnext
      | some b' => exact ih b' s' hnext.1 (by omega)

end Sat

end HazmatSha256.Foundation
