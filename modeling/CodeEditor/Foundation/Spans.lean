import Mathlib

/-!
# Spans at the front of a list

The longest span at the front of a list whose elements satisfy a predicate, as scanners take it.
-/

namespace CodeEditor

open List

variable {α : Type}

/-- A list that does not go on with elements that satisfy a predicate. -/
def StopsAt (p : α → Bool) (rest : List α) : Prop := ∀ a ∈ rest.head?, p a = false

theorem takeWhile_of_stopsAt {p : α → Bool} {rest : List α} (stops : StopsAt p rest) :
    rest.takeWhile p = [] ∧ rest.dropWhile p = rest := by
  cases rest with
  | nil => exact ⟨rfl, rfl⟩
  | cons a rest =>
    have fails : p a = false := stops a rfl
    simp [fails]

/-- The span is all that satisfies the predicate, where it stops behind that. -/
theorem takeWhile_append {p : α → Bool} {span rest : List α} (holds : ∀ a ∈ span, p a = true)
    (stops : StopsAt p rest) :
    (span ++ rest).takeWhile p = span ∧ (span ++ rest).dropWhile p = rest := by
  obtain ⟨isTaken, isDropped⟩ := takeWhile_of_stopsAt stops
  rw [takeWhile_append_of_pos holds, dropWhile_append_of_pos holds, isTaken, isDropped, append_nil]
  exact ⟨rfl, rfl⟩

theorem stopsAt_dropWhile (p : α → Bool) (list : List α) : StopsAt p (list.dropWhile p) := by
  intro a isHead
  have fails := head?_dropWhile_not p list
  rw [isHead] at fails
  simpa using fails

end CodeEditor
