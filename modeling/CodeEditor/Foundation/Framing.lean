import Mathlib

/-!
# Reading a stream in frames

A frame reader waits in each state for a number of items, looks at them, takes
some of them off the input and reports events. `Drains` says where it comes to
rest on a given input. The main fact is that nothing depends on how the input
is cut: draining it piece by piece ends where draining it at once does.
-/

namespace CodeEditor.Framing

open List

/-- A machine that reads a stream of items. -/
structure Reader (Item State Event : Type) where
  /-- How many items must be there before the next step. -/
  need : State → Nat
  /-- The step on these items: the next state, how many items are taken off
  the input, and what is reported. -/
  step : State → List Item → State × Nat × List Event

variable {Item State Event : Type}

namespace Reader

/-- Take steps until the input is too short, at most `fuel` many. -/
def drain (reader : Reader Item State Event) :
    (fuel : Nat) → State → List Item → State × List Item × List Event
  | 0, s, input => (s, input, [])
  | fuel + 1, s, input =>
    if reader.need s ≤ input.length then
      let (next, count, events) := reader.step s (input.take (reader.need s))
      let (final, rest, more) := reader.drain fuel next (input.drop count)
      (final, rest, events ++ more)
    else (s, input, [])

/-- The reader comes to rest in a state with some input left. -/
inductive Drains (reader : Reader Item State Event) :
    State → List Item → State → List Item → List Event → Prop
  | wait {s : State} {input : List Item} (short : input.length < reader.need s) :
      Drains reader s input s input []
  | step {s next final : State} {input rest : List Item} {count : Nat}
      {events more : List Event} (enough : reader.need s ≤ input.length)
      (taken : reader.step s (input.take (reader.need s)) = (next, count, events))
      (later : Drains reader next (input.drop count) final rest more) :
      Drains reader s input final rest (events ++ more)

/-- A step takes off no more than it has seen. -/
def Bounded (reader : Reader Item State Event) : Prop :=
  ∀ s items next count events, items.length = reader.need s →
    reader.step s items = (next, count, events) → count ≤ reader.need s

/-- A step that takes off nothing lowers the rank. -/
def Progresses (reader : Reader Item State Event) (rank : State → Nat)
    (factor : Nat) : Prop :=
  ∀ s items next count events, items.length = reader.need s →
    reader.step s items = (next, count, events) →
    rank next < factor * count + rank s

variable {reader : Reader Item State Event} {s s₁ s₂ : State}
  {input rest rest₁ rest₂ : List Item} {events events₁ events₂ : List Event}

/-- With enough fuel `drain` finds where the reader comes to rest. -/
theorem drains_drain (bounded : reader.Bounded)
    (progresses : reader.Progresses rank factor) {fuel : Nat}
    (enough : factor * input.length + rank s < fuel) :
    reader.Drains s input (reader.drain fuel s input).1
      (reader.drain fuel s input).2.1 (reader.drain fuel s input).2.2 := by
  induction fuel generalizing s input with
  | zero => exact absurd enough (Nat.not_lt_zero _)
  | succ fuel ih =>
    rw [drain]
    split
    · rename_i present
      obtain ⟨next, count, events, taken⟩ : ∃ next count events,
          reader.step s (input.take (reader.need s)) = (next, count, events) :=
        ⟨_, _, _, rfl⟩
      have exact_ : (input.take (reader.need s)).length = reader.need s :=
        length_take_of_le present
      have within := bounded s _ next count events exact_ taken
      have lower := progresses s _ next count events exact_ taken
      have split : factor * input.length = factor * (input.drop count).length + factor * count := by
        rw [← Nat.mul_add, length_drop, Nat.sub_add_cancel (by omega)]
      simp only [taken]
      exact .step present taken (ih (by omega))
    · rename_i short
      exact .wait (by omega)

/-- Where the reader comes to rest is determined. -/
theorem Drains.unique (first : reader.Drains s input s₁ rest₁ events₁)
    (second : reader.Drains s input s₂ rest₂ events₂) :
    s₁ = s₂ ∧ rest₁ = rest₂ ∧ events₁ = events₂ := by
  induction first generalizing s₂ rest₂ events₂ with
  | wait short =>
    cases second with
    | wait => exact ⟨rfl, rfl, rfl⟩
    | step enough => omega
  | step enough taken later ih =>
    cases second with
    | wait short => omega
    | step _ taken' later' =>
      rw [taken] at taken'
      obtain ⟨rfl, rfl, rfl⟩ : _ ∧ _ ∧ _ := by
        simpa only [Prod.mk.injEq] using taken'
      obtain ⟨rfl, rfl, rfl⟩ := ih later'
      exact ⟨rfl, rfl, rfl⟩

/-- What is left is too short for another step. -/
theorem Drains.short (drains : reader.Drains s input s₁ rest events) :
    rest.length < reader.need s₁ := by
  induction drains with
  | wait short => exact short
  | step enough taken later ih => exact ih

/-- Draining in two parts is draining at once. -/
theorem Drains.append (bounded : reader.Bounded) {more : List Item}
    (first : reader.Drains s input s₁ rest₁ events₁)
    (second : reader.Drains s₁ (rest₁ ++ more) s₂ rest₂ events₂) :
    reader.Drains s (input ++ more) s₂ rest₂ (events₁ ++ events₂) := by
  induction first with
  | wait short => exact second
  | @step s next final input rest count events tail enough taken later
      ih =>
      have within := bounded s _ next count events (length_take_of_le enough) taken
      have seen : reader.step s ((input ++ more).take (reader.need s)) = (next, count, events) := by
        rw [take_append_of_le_length enough, taken]
      have left := ih second
      rw [← drop_append_of_le_length (Nat.le_trans within enough)] at left
      rw [append_assoc]
      exact .step (by rw [length_append]; omega) seen left

/-- A frame at the front of the input is taken off as a whole. -/
theorem Drains.frame {next : State} {front left : List Item} (size : front.length = reader.need s)
    (taken : reader.step s front = (next, front.length, events))
    (later : reader.Drains next rest s₁ left events₁) :
    reader.Drains s (front ++ rest) s₁ left (events ++ events₁) := by
  have enough : reader.need s ≤ (front ++ rest).length := by
    rw [length_append]
    omega
  refine .step enough (by rw [← size, take_left, taken]) ?_
  rwa [drop_left]

/-- The reader is fed one chunk after the other. -/
inductive Feeds (reader : Reader Item State Event) :
    State → List Item → List (List Item) → State → List Item → List Event → Prop
  | nil {s : State} {rest : List Item} : Feeds reader s rest [] s rest []
  | cons {s next final : State} {rest left last chunk : List Item}
      {chunks : List (List Item)} {events more : List Event}
      (now : Drains reader s (rest ++ chunk) next left events)
      (later : Feeds reader next left chunks final last more) :
      Feeds reader s rest (chunk :: chunks) final last (events ++ more)

/-- Nothing depends on how the input is cut into chunks. -/
theorem Feeds.drains (bounded : reader.Bounded) (feeds : reader.Feeds s rest chunks s₁ rest₁ events)
    (short : rest.length < reader.need s) :
    reader.Drains s (rest ++ chunks.flatten) s₁ rest₁ events := by
  induction feeds with
  | nil =>
    rw [flatten_nil, append_nil]
    exact .wait short
  | cons now later ih =>
    rw [flatten_cons, ← append_assoc]
    exact now.append bounded (ih now.short)

end Reader

end CodeEditor.Framing
