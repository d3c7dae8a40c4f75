import Mathlib

/-!
# Streams of sequence numbers

A receiver that counts what it has seen takes a number that is one above its
counter and skips the numbers at or below it. A stream has no gap for it when each
number is at most one above the highest before, so that a stream may repeat
numbers but never run ahead.
-/

namespace CodeEditor.SequenceNumbers

open Nat

/-- The counter behind a stream of numbers. -/
def reach (counter : Nat) (numbers : List Nat) : Nat := numbers.foldl max counter

/-- No number of a stream runs ahead of the counter. -/
def GapFree : (counter : Nat) → List Nat → Prop
  | _, [] => True
  | counter, number :: numbers =>
    number ≤ counter + 1 ∧ GapFree (max counter number) numbers

variable {counter counter' bound : Nat} {numbers first second : List Nat}

@[simp] theorem reach_nil (counter : Nat) : reach counter [] = counter := rfl

@[simp] theorem reach_cons (counter number : Nat) (numbers : List Nat) :
    reach counter (number :: numbers) = reach (max counter number) numbers := rfl

theorem reach_append (counter : Nat) (first second : List Nat) :
    reach counter (first ++ second) = reach (reach counter first) second := by
  simp [reach]

theorem le_reach (counter : Nat) (numbers : List Nat) : counter ≤ reach counter numbers := by
  induction numbers generalizing counter with
  | nil => exact le_refl _
  | cons number numbers ih =>
    exact le_trans (le_max_left _ _) (ih _)

theorem reach_le (start : counter ≤ bound) (all : ∀ number ∈ numbers, number ≤ bound) :
    reach counter numbers ≤ bound := by
  induction numbers generalizing counter with
  | nil => exact start
  | cons number numbers ih =>
    apply ih
    · exact Nat.max_le.mpr ⟨start, all number (by simp)⟩
    · intro other member
      exact all other (by simp [member])

/-- A counter that is ahead ends where the other one does, or where it was. -/
theorem reach_max (counter counter' : Nat) (numbers : List Nat) :
    reach (max counter counter') numbers = max (reach counter numbers) counter' := by
  induction numbers generalizing counter with
  | nil => rfl
  | cons number numbers ih =>
    rw [reach_cons, reach_cons, ← ih]
    congr 1
    omega

theorem reach_of_le (ahead : counter ≤ counter') (within : counter' ≤ bound)
    (reached : reach counter numbers = bound) : reach counter' numbers = bound := by
  have both := reach_max counter counter' numbers
  rw [max_eq_right ahead, reached, max_eq_left within] at both
  exact both

theorem gapFree_append : GapFree counter (first ++ second) ↔
      GapFree counter first ∧ GapFree (reach counter first) second := by
  induction first generalizing counter with
  | nil => simp [GapFree]
  | cons number first ih => simp [GapFree, ih, and_assoc]

theorem GapFree.mono (gapFree : GapFree counter numbers) (ahead : counter ≤ counter') :
    GapFree counter' numbers := by
  induction numbers generalizing counter counter' with
  | nil => trivial
  | cons number numbers ih =>
    refine ⟨by have := gapFree.1; omega, ih gapFree.2 (by omega)⟩

/-- A run of consecutive numbers that starts at or below the counter. -/
theorem gapFree_range' (start : bound ≤ counter) (count : Nat) :
    GapFree counter (List.range' (bound + 1) count) ∧
      reach counter (List.range' (bound + 1) count) = max counter (bound + count) := by
  induction count generalizing bound counter with
  | zero =>
    constructor
    · trivial
    · simp only [List.range'_zero, reach_nil]
      omega
  | succ count ih =>
    have rest := @ih (max counter (bound + 1)) (bound + 1) (by omega)
    rw [List.range'_succ, reach_cons, rest.2]
    refine ⟨⟨by omega, rest.1⟩, by omega⟩

end CodeEditor.SequenceNumbers
