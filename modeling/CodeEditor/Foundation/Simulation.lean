import Mathlib

/-!
# Runs and simulation

A system with a partial step function, run over a list of actions. A run is
permitted when every action is allowed in the state in which it is taken. When
every allowed step of the concrete system is matched by the abstract one, every
permitted run goes through and ends in related states.
-/

namespace CodeEditor.Simulation

variable {State Abstract Action : Type}

/-- Take the actions one after the other; `none` as soon as a step fails. -/
def run (step : State → Action → Option State) :
    State → List Action → Option State
  | s, [] => some s
  | s, action :: actions =>
    match step s action with
    | none => none
    | some s' => run step s' actions

/-- Every action is allowed in the state in which it is taken. -/
def PermittedRun (step : State → Action → Option State)
    (permitted : State → Action → Prop) : State → List Action → Prop
  | _, [] => True
  | s, action :: actions =>
    permitted s action ∧
      ∀ s', step s action = some s' → PermittedRun step permitted s' actions

variable {step : State → Action → Option State}
  {permitted : State → Action → Prop}

instance decidablePermittedRun [∀ s action, Decidable (permitted s action)] :
    ∀ s actions, Decidable (PermittedRun step permitted s actions)
  | _, [] => isTrue trivial
  | s, action :: actions =>
    match taken : step s action with
    | none =>
      decidable_of_iff (permitted s action) (by simp [PermittedRun, taken])
    | some s' =>
      have := decidablePermittedRun s' actions
      decidable_of_iff (permitted s action ∧ PermittedRun step permitted s' actions)
        (by simp [PermittedRun, taken])

/-- The simulation rule: related states stay related along a permitted run,
and the run goes through. -/
theorem run_simulates {related : State → Abstract → Prop}
    {abstractStep : Abstract → Action → Abstract}
    (simulates : ∀ s a action, related s a → permitted s action →
      ∃ s', step s action = some s' ∧ related s' (abstractStep a action))
    {actions : List Action} {s : State} {a : Abstract}
    (start : related s a) (allowed : PermittedRun step permitted s actions) :
    ∃ s', run step s actions = some s' ∧ related s' (actions.foldl abstractStep a) := by
  induction actions generalizing s a with
  | nil => exact ⟨s, rfl, start⟩
  | cons action actions ih =>
    obtain ⟨now, later⟩ := allowed
    obtain ⟨s', taken, next⟩ := simulates s a action start now
    simp only [run, taken, List.foldl_cons]
    exact ih next (later s' taken)

/-- The invariant rule: what every allowed step keeps, a permitted run keeps. -/
theorem run_keeps {invariant : State → Prop}
    (keeps : ∀ s action s', invariant s → permitted s action →
      step s action = some s' → invariant s') {s s' : State} (start : invariant s)
    (allowed : PermittedRun step permitted s actions)
    (reached : run step s actions = some s') : invariant s' := by
  induction actions generalizing s with
  | nil =>
    cases reached
    exact start
  | cons action actions ih =>
    obtain ⟨now, later⟩ := allowed
    rw [run] at reached
    cases taken : step s action with
    | none => simp [taken] at reached
    | some next =>
      rw [taken] at reached
      exact ih (keeps s action next start now taken) (later next taken) reached

/-- The two parts of a permitted run are permitted. -/
theorem PermittedRun.append {first second : List Action}
    (allowed : PermittedRun step permitted s (first ++ second))
    (reached : run step s first = some s') :
    PermittedRun step permitted s first ∧ PermittedRun step permitted s' second := by
  induction first generalizing s with
  | nil =>
    cases reached
    exact ⟨trivial, allowed⟩
  | cons action first ih =>
    obtain ⟨now, later⟩ := allowed
    rw [run] at reached
    cases taken : step s action with
    | none => simp [taken] at reached
    | some next =>
      rw [taken] at reached
      have rest := ih (later next taken) reached
      refine ⟨⟨now, ?_⟩, rest.2⟩
      intro other otherTaken
      rw [taken] at otherTaken
      cases otherTaken
      exact rest.1

end CodeEditor.Simulation
