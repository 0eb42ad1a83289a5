/-
  Foundation/Script.lean --- threads that call services and share a state.

  A script is a program that stops at every call and goes on with the reply.  A
  contract says what a call may ask and what a reply may be; a script is judged
  against the contract alone, call by call.  The services behind the calls work on
  a state of the calling thread and on a state that all threads share, so a
  process is run by a schedule that says whose call is served next.  What the
  contract promises one script it promises every script of a process, under every
  schedule.
-/
import HazmatSha256.Foundation.Exec
import Mathlib.Data.Nat.Find

set_option autoImplicit false

namespace HazmatSha256.Foundation

variable {Call : Type} {Reply : Call → Type} {α β γ : Type}

inductive Script (Call : Type) (Reply : Call → Type) (α : Type) where
  | ret (a : α)
  | call (c : Call) (k : Reply c → Script Call Reply α)

/-- What a call may ask, and what a reply may be. -/
structure Contract (Call : Type) (Reply : Call → Type) where
  asks : Call → Prop
  grants : (c : Call) → Reply c → Prop

namespace Script

/-! ## Sequencing -/

def bind : Script Call Reply α → (α → Script Call Reply β) → Script Call Reply β
  | ret a, f => f a
  | call c k, f => call c fun r => (k r).bind f

instance : Monad (Script Call Reply) where
  pure := ret
  bind := bind

/-- One call, and its reply. -/
def ask (c : Call) : Script Call Reply (Reply c) := call c ret

theorem bind_ret (s : Script Call Reply α) : s.bind ret = s := by
  induction s with
  | ret a => rfl
  | call c k ih =>
      rw [bind]
      congr 1
      funext r
      exact ih r

theorem bind_assoc (s : Script Call Reply α) (f : α → Script Call Reply β)
    (g : β → Script Call Reply γ) : (s.bind f).bind g = s.bind fun a => (f a).bind g := by
  induction s with
  | ret a => rfl
  | call c k ih =>
      rw [bind, bind, bind]
      congr 1
      funext r
      exact ih r

instance : LawfulMonad (Script Call Reply) :=
  LawfulMonad.mk' (Script Call Reply) (fun s => bind_ret s) (fun _ _ => rfl)
    fun s f g => bind_assoc s f g

/-! ## One script against a contract -/

variable {C : Contract Call Reply}

/-- Every call is one the contract allows, and whatever is replied the script ends in `Q`. -/
def Meets (C : Contract Call Reply) : Script Call Reply α → (α → Prop) → Prop
  | ret a, Q => Q a
  | call c k, Q => C.asks c ∧ ∀ r, C.grants c r → (k r).Meets C Q

namespace Meets

variable {P : α → Prop} {Q : β → Prop}

theorem ret {a : α} (h : P a) : (pure a : Script Call Reply α).Meets C P := h

theorem ask {c : Call} (h : C.asks c) : (Script.ask c).Meets C (C.grants c) :=
  ⟨h, fun _ hr => hr⟩

theorem mono {s : Script Call Reply α} {P' : α → Prop} (h : s.Meets C P)
    (hP : ∀ a, P a → P' a) : s.Meets C P' := by
  induction s with
  | ret a => exact hP a h
  | call c k ih => exact ⟨h.1, fun r hr => ih r (h.2 r hr)⟩

theorem bind {s : Script Call Reply α} {f : α → Script Call Reply β} (h : s.Meets C P)
    (hf : ∀ a, P a → (f a).Meets C Q) : (s >>= f).Meets C Q := by
  induction s with
  | ret a => exact hf a h
  | call c k ih => exact ⟨h.1, fun r hr => ih r (h.2 r hr)⟩

/-- A call, and what follows. -/
theorem step {c : Call} {f : Reply c → Script Call Reply β} (h : C.asks c)
    (hf : ∀ r, C.grants c r → (f r).Meets C Q) : (Script.ask c >>= f).Meets C Q :=
  (ask h).bind hf

end Meets

end Script

/-! ## Processes -/

variable {L S E : Type}

/-- What stands behind the calls: it works on the state `L` of the calling thread and on the
shared state `S`, and may end the process. -/
abbrev Service (Call : Type) (Reply : Call → Type) (L S E : Type) : Type :=
  (c : Call) → EStateM E (L × S) (Reply c)

/-- The service keeps the contract, from states with `I` and `J`; it ends the process only
for reasons in `X`. -/
def Service.Honours (serve : Service Call Reply L S E) (C : Contract Call Reply) (I : L → Prop)
    (J : S → Prop) (X : E → Prop) : Prop :=
  ∀ c l s, C.asks c → I l → J s →
    Sat (serve c) (l, s) (fun r p => C.grants c r ∧ I p.1 ∧ J p.2) fun e _ => X e

theorem Service.Honours.weaken {serve : Service Call Reply L S E} {C : Contract Call Reply}
    {I : L → Prop} {J : S → Prop} {X X' : E → Prop} (h : serve.Honours C I J X)
    (hX : ∀ e, X e → X' e) : serve.Honours C I J X' :=
  fun c l s asks hl hs => (h c l s asks hl hs).mono (fun _ _ hQ => hQ) fun e _ he => hX e he

/-- A thread: what it has still to do, and its own state. -/
structure Task (Call : Type) (Reply : Call → Type) (L α : Type) where
  script : Script Call Reply α
  own : L

structure Process (Call : Type) (Reply : Call → Type) (L S α : Type) where
  tasks : List (Task Call Reply L α)
  shared : S

namespace Process

variable (serve : Service Call Reply L S E)

/-- The next call of thread `i` is served; a thread that is done, or is not there, idles. -/
def step (i : Nat) (p : Process Call Reply L S α) : Except E (Process Call Reply L S α) :=
  match p.tasks[i]? with
  | some ⟨.call c k, l⟩ =>
      match serve c (l, p.shared) with
      | .ok r (l', s') => .ok ⟨p.tasks.set i ⟨k r, l'⟩, s'⟩
      | .error e _ => .error e
  | _ => .ok p

/-- The threads take turns in the order of the schedule. -/
def run : List Nat → Process Call Reply L S α → Except E (Process Call Reply L S α)
  | [], p => .ok p
  | i :: is, p => do
      let p' ← step serve i p
      run is p'

variable {serve} {C : Contract Call Reply} {I : L → Prop} {J : S → Prop} {X : E → Prop}
  {Q : Nat → α → Prop} {p : Process Call Reply L S α}

/-- Every thread still meets the contract and aims at its own `Q`. -/
structure Sound (C : Contract Call Reply) (I : L → Prop) (J : S → Prop) (Q : Nat → α → Prop)
    (p : Process Call Reply L S α) : Prop where
  shared : J p.shared
  own : ∀ (i : Nat) (t : Task Call Reply L α), p.tasks[i]? = some t → I t.own
  meets : ∀ (i : Nat) (t : Task Call Reply L α), p.tasks[i]? = some t → t.script.Meets C (Q i)

theorem step_call {i : Nat} {c : Call} {k : Reply c → Script Call Reply α} {l : L}
    (hi : p.tasks[i]? = some ⟨.call c k, l⟩) :
    step serve i p = match serve c (l, p.shared) with
      | .ok r (l', s') => .ok ⟨p.tasks.set i ⟨k r, l'⟩, s'⟩
      | .error e _ => .error e := by
  rw [step, hi]

theorem step_ret {i : Nat} {a : α} {l : L} (hi : p.tasks[i]? = some ⟨.ret a, l⟩) :
    step serve i p = .ok p := by
  rw [step, hi]

theorem step_none {i : Nat} (hi : p.tasks[i]? = none) : step serve i p = .ok p := by
  rw [step, hi]

/-- What one turn does: nothing, one served call, or the end of the process. -/
theorem step_cases (honours : serve.Honours C I J X) (sound : p.Sound C I J Q) (i : Nat) :
    (step serve i p = .ok p ∧ ∀ c k l, p.tasks[i]? ≠ some ⟨.call c k, l⟩) ∨
    (∃ c k l r l' s', p.tasks[i]? = some ⟨.call c k, l⟩ ∧ (k r).Meets C (Q i) ∧ I l' ∧ J s' ∧
      step serve i p = .ok ⟨p.tasks.set i ⟨k r, l'⟩, s'⟩) ∨
    (∃ e, X e ∧ step serve i p = .error e) := by
  cases hi : p.tasks[i]? with
  | none => exact .inl ⟨step_none hi, nofun⟩
  | some t =>
      obtain ⟨script, l⟩ := t
      cases script with
      | ret a => exact .inl ⟨step_ret hi, nofun⟩
      | call c k =>
          have hmeets : C.asks c ∧ ∀ r, C.grants c r → (k r).Meets C (Q i) :=
            sound.meets i _ hi
          have hserve := honours c l p.shared hmeets.1 (sound.own i _ hi) sound.shared
          unfold Sat at hserve
          have hstep : step serve i p = _ := step_call hi
          cases hc : serve c (l, p.shared) with
          | ok r q =>
              rw [hc] at hserve hstep
              obtain ⟨hgrants, hl, hs⟩ := hserve
              exact .inr (.inl ⟨c, k, l, r, q.1, q.2, rfl, hmeets.2 r hgrants, hl, hs, hstep⟩)
          | error e q =>
              rw [hc] at hserve hstep
              exact .inr (.inr ⟨e, hserve, hstep⟩)

theorem Sound.set (sound : p.Sound C I J Q) {i : Nat} {s : Script Call Reply α} {l : L}
    {shared : S} (hs : s.Meets C (Q i)) (hl : I l) (hshared : J shared) :
    Sound C I J Q ⟨p.tasks.set i ⟨s, l⟩, shared⟩ := by
  have hcase : ∀ j t, (p.tasks.set i ⟨s, l⟩)[j]? = some t →
      (j = i ∧ t = ⟨s, l⟩) ∨ p.tasks[j]? = some t := by
    intro j t hj
    rw [List.getElem?_set] at hj
    split at hj
    · split at hj
      · exact .inl ⟨‹i = j›.symm, (Option.some.inj hj).symm⟩
      · exact nomatch hj
    · exact .inr hj
  refine ⟨hshared, ?_, ?_⟩
  · intro j t hj
    obtain ⟨-, rfl⟩ | hj := hcase j t hj
    · exact hl
    · exact sound.own j t hj
  · intro j t hj
    obtain ⟨rfl, rfl⟩ | hj := hcase j t hj
    · exact hs
    · exact sound.meets j t hj

/-- Under every schedule, what the contract promises one script it promises all of them. -/
theorem run_sound (honours : serve.Honours C I J X) : ∀ (schedule : List Nat)
    {p : Process Call Reply L S α}, p.Sound C I J Q →
    match run serve schedule p with
    | .ok p' => p'.Sound C I J Q
    | .error e => X e := by
  intro schedule
  induction schedule with
  | nil =>
      intro p sound
      exact sound
  | cons i is ih =>
      intro p sound
      rw [run]
      obtain ⟨hstep, -⟩ | ⟨c, k, l, r, l', s', hi, hmeets, hl, hs, hstep⟩ | ⟨e, he, hstep⟩ :=
        step_cases honours sound i
      · rw [hstep]
        exact ih sound
      · rw [hstep]
        exact ih (sound.set hmeets hl hs)
      · rw [hstep]
        exact he

/-- A thread that is done has reached its aim. -/
theorem Sound.done (sound : p.Sound C I J Q) {i : Nat} {a : α} {l : L}
    (hi : p.tasks[i]? = some ⟨.ret a, l⟩) : Q i a :=
  sound.meets i _ hi

/-! ## Progress -/

theorem run_append (is js : List Nat) (p : Process Call Reply L S α) :
    run serve (is ++ js) p = (run serve is p >>= run serve js) := by
  induction is generalizing p with
  | nil => rfl
  | cons i is ih =>
      rw [List.cons_append, run, run]
      cases step serve i p with
      | ok p' => exact ih p'
      | error e => rfl

/-- A turn of another thread leaves a thread as it is. -/
theorem step_other {i j : Nat} (hne : j ≠ i) {p' : Process Call Reply L S α}
    (hstep : step serve j p = .ok p') : p'.tasks[i]? = p.tasks[i]? := by
  unfold step at hstep
  split at hstep
  · split at hstep
    · cases hstep
      exact List.getElem?_set_ne hne
    · exact nomatch hstep
  · cases hstep
    rfl

theorem run_other {i : Nat} : ∀ {is : List Nat}, (∀ j ∈ is, j ≠ i) →
    ∀ {p p' : Process Call Reply L S α}, run serve is p = .ok p' →
    p'.tasks[i]? = p.tasks[i]? := by
  intro is
  induction is with
  | nil =>
      intro _ p p' hrun
      cases hrun
      rfl
  | cons j is ih =>
      intro hne p p' hrun
      rw [run] at hrun
      cases hstep : step serve j p with
      | error e =>
          rw [hstep] at hrun
          exact nomatch hrun
      | ok q =>
          rw [hstep] at hrun
          rw [ih (fun k hk => hne k (List.mem_cons_of_mem j hk)) hrun,
            step_other (hne j List.mem_cons_self) hstep]

/-- The first `n` turns of an endless schedule. -/
def turns (f : Nat → Nat) (n : Nat) : List Nat := (List.range n).map f

theorem turns_add (f : Nat → Nat) (m n : Nat) :
    turns f (m + n) = turns f m ++ turns (fun k => f (m + k)) n := by
  rw [turns, List.range_add, List.map_append, List.map_map]
  rfl

/-- Where nothing ends the process, a thread whose turn comes again and again gets done. -/
theorem exists_done (honours : serve.Honours C I J fun _ => False) (i : Nat)
    (script : Script Call Reply α) : ∀ {p : Process Call Reply L S α} {l : L} {f : Nat → Nat},
    p.Sound C I J Q → p.tasks[i]? = some ⟨script, l⟩ → (∀ m, ∃ n, f (m + n) = i) →
    ∃ n p' a l', run serve (turns f n) p = .ok p' ∧ p'.tasks[i]? = some ⟨.ret a, l'⟩ ∧
      Q i a := by
  induction script with
  | ret a =>
      intro p l f sound hi _
      exact ⟨0, p, a, l, rfl, hi, sound.done hi⟩
  | call c k ih =>
      intro p l f sound hi fair
      -- the first turn of thread `i`
      have hturn : ∃ n, f n = i := by
        obtain ⟨n, hn⟩ := fair 0
        exact ⟨n, by rwa [Nat.zero_add] at hn⟩
      have hfirst := Nat.find_spec hturn
      have hbefore : ∀ j ∈ turns f (Nat.find hturn), j ≠ i := by
        intro j hj
        obtain ⟨n, hn, rfl⟩ := List.mem_map.mp hj
        exact Nat.find_min hturn (List.mem_range.mp hn)
      have hwait := run_sound honours (turns f (Nat.find hturn)) sound
      cases hrun : run serve (turns f (Nat.find hturn)) p with
      | error e =>
          rw [hrun] at hwait
          exact hwait.elim
      | ok q =>
          rw [hrun] at hwait
          have hiq : q.tasks[i]? = some ⟨.call c k, l⟩ := (run_other hbefore hrun).trans hi
          obtain ⟨-, hidle⟩ | ⟨c', k', l₀, r, l', s', hq, hmeets, hl, hs, hstep⟩ | ⟨_, he, _⟩ :=
            step_cases honours hwait i
          · exact absurd hiq (hidle c k l)
          · rw [hiq] at hq
            cases hq
            have hset : (q.tasks.set i ⟨k r, l'⟩)[i]? = some ⟨k r, l'⟩ := by
              obtain ⟨hlt, -⟩ := List.getElem?_eq_some_iff.mp hiq
              exact List.getElem?_set_self hlt
            have hfair : ∀ m, ∃ n, f (Nat.find hturn + 1 + (m + n)) = i := by
              intro m
              obtain ⟨n, hn⟩ := fair (Nat.find hturn + 1 + m)
              exact ⟨n, by rwa [← Nat.add_assoc]⟩
            obtain ⟨n, p', a, l'', hdone, hp', hQ⟩ :=
              ih r (f := fun n => f (Nat.find hturn + 1 + n)) (hwait.set hmeets hl hs) hset hfair
            refine ⟨Nat.find hturn + (1 + n), p', a, l'', ?_, hp', hQ⟩
            rw [turns_add, run_append, hrun]
            change run serve (turns _ (1 + n)) q = _
            rw [turns_add, run_append]
            have hone : turns (fun m => f (Nat.find hturn + m)) 1 = [i] := by
              change [f (Nat.find hturn + 0)] = [i]
              rw [Nat.add_zero, hfirst]
            rw [hone, run, hstep]
            simp only [← Nat.add_assoc]
            exact hdone
          · exact he.elim

end Process

end HazmatSha256.Foundation
