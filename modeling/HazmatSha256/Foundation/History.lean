/-
  Foundation/History.lean --- histories, newest event first.

  What is held at a moment is a function of the history up to it.  A history is
  respectful when no event disturbs anything held at the moment it happens; that
  is a property of the whole history, and it is kept up one event at a time.
-/
set_option autoImplicit false

namespace HazmatSha256.Foundation

universe u v

/-- No event of the history disturbs an item held when the event happens. -/
def Respects {α : Type u} {η : Type v} (held : List α → List η) (disturbs : α → η → Prop) :
    List α → Prop
  | [] => True
  | e :: earlier => (∀ x ∈ held earlier, ¬ disturbs e x) ∧ Respects held disturbs earlier

namespace Respects

variable {α : Type u} {η : Type v} {held : List α → List η} {disturbs : α → η → Prop}

/-- One more event. -/
theorem extend {e : α} {log : List α} (h : Respects held disturbs log)
    (hquiet : ∀ x ∈ held log, ¬ disturbs e x) : Respects held disturbs (e :: log) :=
  ⟨hquiet, h⟩

/-- One more event, of a kind that disturbs nothing. -/
theorem extend_harmless {e : α} {log : List α} (h : Respects held disturbs log)
    (hquiet : ∀ x, ¬ disturbs e x) : Respects held disturbs (e :: log) :=
  ⟨fun x _ => hquiet x, h⟩

theorem earlier {later earlier : List α} (h : Respects held disturbs (later ++ earlier)) :
    Respects held disturbs earlier := by
  induction later with
  | nil => exact h
  | cons _ rest ih => exact ih h.2

/-- The property read at any one event of the history. -/
theorem undisturbed {log later before : List α} {e : α} (h : Respects held disturbs log)
    (hsplit : log = later ++ e :: before) : ∀ x ∈ held before, ¬ disturbs e x := by
  subst hsplit
  exact h.earlier.1

end Respects

end HazmatSha256.Foundation
