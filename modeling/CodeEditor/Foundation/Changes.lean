import Mathlib

/-!
# Changes of a list

A list that is cut up along its changes: what is kept in front of a change, what the change
takes away, and what it puts there. The list before the changes and the list after them
are read off the cut, and the changes are undone by exchanging the two.
-/

namespace CodeEditor

/-- A change, with what is kept in front of it. -/
structure Change (α : Type) where
  gap : List α
  old : List α
  new : List α

namespace Change

variable {α : Type}

/-- The change back. -/
def swap (change : Change α) : Change α := ⟨change.gap, change.new, change.old⟩

/-- How much longer the list gets. -/
def growth (change : Change α) : Int := change.new.length - change.old.length

/-- The list before the changes, with what follows the last of them. -/
def before : List (Change α) → (tail : List α) → List α
  | [], tail => tail
  | change :: changes, tail => change.gap ++ (change.old ++ before changes tail)

/-- The list after the changes. -/
def after : List (Change α) → (tail : List α) → List α
  | [], tail => tail
  | change :: changes, tail => change.gap ++ (change.new ++ after changes tail)

@[simp] theorem before_nil (tail : List α) : before [] tail = tail := rfl

@[simp] theorem before_cons (change : Change α) (changes : List (Change α)) (tail : List α) :
    before (change :: changes) tail =
      change.gap ++ (change.old ++ before changes tail) := rfl

@[simp] theorem after_nil (tail : List α) : after [] tail = tail := rfl

@[simp] theorem after_cons (change : Change α) (changes : List (Change α)) (tail : List α) :
    after (change :: changes) tail = change.gap ++ (change.new ++ after changes tail) := rfl

theorem before_swap (changes : List (Change α)) (tail : List α) :
    before (changes.map swap) tail = after changes tail := by
  induction changes with
  | nil => rfl
  | cons change changes ih =>
    rw [List.map_cons, before_cons, ih]
    rfl

theorem after_swap (changes : List (Change α)) (tail : List α) :
    after (changes.map swap) tail = before changes tail := by
  induction changes with
  | nil => rfl
  | cons change changes ih =>
    rw [List.map_cons, after_cons, ih]
    rfl

end Change

end CodeEditor
