import Mathlib

/-!
# Lists as runs of equal values

A list is given by runs: each run has the position where it stops and the value of all
positions from the stop of the run before it. Operations on runs are stated by what they do to
the expanded list.
-/

namespace CodeEditor

open List Nat

variable {α : Type}

/-- The values of runs from position `start` on. -/
def expandFrom (start : Nat) : List (Nat × α) → List α
  | [] => []
  | run :: runs => List.replicate (run.1 - start) run.2 ++ expandFrom run.1 runs

/-- The list that runs stand for. -/
def expand (runs : List (Nat × α)) : List α := expandFrom 0 runs

/-- The position where the last run stops. -/
def stopOf (start : Nat) (runs : List (Nat × α)) : Nat := (runs.getLast?.map (·.1)).getD start

/-- Each run stops behind the run before it, and the first one does not stop before `start`. -/
def Rising (start : Nat) (runs : List (Nat × α)) : Prop :=
  (∀ run ∈ runs, start ≤ run.1) ∧ runs.Pairwise fun a b => a.1 < b.1

@[simp] theorem stopOf_nil (start : Nat) : stopOf start ([] : List (Nat × α)) = start := rfl

@[simp] theorem stopOf_cons (start : Nat) (run : Nat × α) (runs : List (Nat × α)) :
    stopOf start (run :: runs) = stopOf run.1 runs := by
  unfold stopOf
  cases last : runs.getLast? with
  | none =>
    obtain rfl := getLast?_eq_none_iff.mp last
    rfl
  | some r => rw [getLast?_cons, last]; rfl

theorem stopOf_append (start : Nat) (first second : List (Nat × α)) :
    stopOf start (first ++ second) = stopOf (stopOf start first) second := by
  induction first generalizing start with
  | nil => rfl
  | cons run first ih =>
    rw [cons_append, stopOf_cons, stopOf_cons, ih]

theorem expandFrom_append (start : Nat) (first second : List (Nat × α)) :
    expandFrom start (first ++ second) =
      expandFrom start first ++ expandFrom (stopOf start first) second := by
  induction first generalizing start with
  | nil => rfl
  | cons run first ih =>
    rw [cons_append, expandFrom, expandFrom, ih, stopOf_cons, append_assoc]

theorem rising_nil (start : Nat) : Rising start ([] : List (Nat × α)) :=
  ⟨by simp, List.Pairwise.nil⟩

variable {runs : List (Nat × α)} {start : Nat}

theorem rising_cons {run : Nat × α} :
    Rising start (run :: runs) ↔ start ≤ run.1 ∧ Rising (run.1 + 1) runs := by
  unfold Rising
  rw [forall_mem_cons, pairwise_cons]
  constructor
  · rintro ⟨⟨first, _⟩, behind, rest⟩
    exact ⟨first, behind, rest⟩
  · rintro ⟨first, behind, rest⟩
    refine ⟨⟨first, ?_⟩, behind, rest⟩
    intro other member
    have isBehind := behind other member
    omega

theorem Rising.le {start lower : Nat} (rising : Rising start runs)
    (le : lower ≤ start) : Rising lower runs :=
  ⟨fun run member => le.trans (rising.1 run member), rising.2⟩

theorem Rising.start_le_stopOf (rising : Rising start runs) : start ≤ stopOf start runs := by
  induction runs generalizing start with
  | nil => exact le_refl _
  | cons run runs ih =>
    obtain ⟨first, rest⟩ := rising_cons.mp rising
    rw [stopOf_cons]
    exact first.trans (ih (rest.le (le_succ _)))

theorem Rising.length_expandFrom (rising : Rising start runs) :
    start + (expandFrom start runs).length = stopOf start runs := by
  induction runs generalizing start with
  | nil => rfl
  | cons run runs ih =>
    obtain ⟨first, rest⟩ := rising_cons.mp rising
    have tail := ih (rest.le (le_succ _))
    rw [stopOf_cons, ← tail, expandFrom, length_append, length_replicate]
    omega

theorem Rising.length_expand (rising : Rising 0 runs) : (expand runs).length = stopOf 0 runs := by
  have length := rising.length_expandFrom
  rwa [Nat.zero_add] at length

theorem rising_append {first second : List (Nat × α)} :
    Rising start (first ++ second) ↔ Rising start first ∧ Rising start second ∧
      ∀ a ∈ first, ∀ b ∈ second, a.1 < b.1 := by
  unfold Rising
  rw [forall_mem_append, pairwise_append]
  constructor
  · rintro ⟨⟨low, high⟩, left, right, apart⟩
    exact ⟨⟨low, left⟩, ⟨high, right⟩, apart⟩
  · rintro ⟨⟨low, left⟩, ⟨high, right⟩, apart⟩
    exact ⟨⟨low, high⟩, left, right, apart⟩

/-- The stop of rising runs is the largest stop. -/
theorem Rising.le_stopOf (rising : Rising start runs) :
    ∀ run ∈ runs, run.1 ≤ stopOf start runs := by
  induction runs generalizing start with
  | nil => simp
  | cons run runs ih =>
    obtain ⟨_, rest⟩ := rising_cons.mp rising
    have weaker := rest.le (le_succ run.1)
    rw [stopOf_cons]
    intro other member
    rcases mem_cons.mp member with rfl | member
    · exact weaker.start_le_stopOf
    · exact ih weaker other member

/-! ## Moving runs -/

/-- The runs with every stop moved. -/
def moveRuns (move : Nat → Nat) (runs : List (Nat × α)) : List (Nat × α) :=
  runs.map fun run => (move run.1, run.2)

theorem expandFrom_add (offset start : Nat) (runs : List (Nat × α)) :
    expandFrom (start + offset) (moveRuns (· + offset) runs) = expandFrom start runs := by
  induction runs generalizing start with
  | nil => rfl
  | cons run runs ih =>
    rw [moveRuns, map_cons, expandFrom, expandFrom]
    have tail := ih run.1
    unfold moveRuns at tail
    rw [tail, Nat.add_sub_add_right]

theorem expandFrom_sub {offset start : Nat} (le : offset ≤ start) (rising : Rising start runs) :
    expandFrom (start - offset) (moveRuns (· - offset) runs) = expandFrom start runs := by
  induction runs generalizing start with
  | nil => rfl
  | cons run runs ih =>
    obtain ⟨first, rest⟩ := rising_cons.mp rising
    rw [moveRuns, map_cons, expandFrom, expandFrom]
    have tail := ih (le.trans first) (rest.le (le_succ _))
    unfold moveRuns at tail
    congr 2
    omega

theorem Rising.add {start : Nat} {runs : List (Nat × α)} (rising : Rising start runs)
    (offset : Nat) : Rising (start + offset) (moveRuns (· + offset) runs) := by
  constructor
  · intro run member
    obtain ⟨old, isOld, rfl⟩ := mem_map.mp member
    have bound := rising.1 old isOld
    simp only
    omega
  · unfold moveRuns
    rw [pairwise_map]
    apply rising.2.imp
    intro a b apart
    simp only
    omega

theorem Rising.sub {start offset : Nat} (rising : Rising start runs)
    (le : offset ≤ start) : Rising (start - offset) (moveRuns (· - offset) runs) := by
  constructor
  · intro run member
    obtain ⟨old, isOld, rfl⟩ := mem_map.mp member
    have bound := rising.1 old isOld
    simp only
    omega
  · unfold moveRuns
    rw [pairwise_map]
    apply rising.2.imp_of_mem
    intro a b inRuns _ apart
    have bound := rising.1 a inRuns
    simp only
    omega

end CodeEditor
