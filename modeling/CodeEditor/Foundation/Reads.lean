import Mathlib

/-!
# Computations that read a state

A computation on a state that keeps what an invariant says of it. `Keeps` is about the runs
that end, `Yields` says that the computation ends and with which value.
-/

namespace CodeEditor.Reads

variable {State A B : Type}

/-- Wherever the computation ends, the invariant has been kept. -/
def Keeps (invariant : State → Prop) (read : StateT State Option A) : Prop :=
  ∀ s result, invariant s → read.run s = some result → invariant result.2

/-- The computation ends with the value, and the invariant has been kept. -/
def Yields (invariant : State → Prop) (read : StateT State Option A) (value : A) : Prop :=
  ∀ s, invariant s → ∃ s', read.run s = some (value, s') ∧ invariant s'

variable {invariant : State → Prop} {read : StateT State Option A}
  {next : A → StateT State Option B}

theorem Keeps.pure (value : A) : Keeps invariant (pure value) := by
  intro s result holds runs
  obtain rfl := Option.some.inj runs
  exact holds

theorem Keeps.bind (first : Keeps invariant read) (second : ∀ value, Keeps invariant (next value)) :
    Keeps invariant (read >>= next) := by
  intro s result holds runs
  obtain ⟨⟨value, middle⟩, runsFirst, runsSecond⟩ := Option.bind_eq_some_iff.mp runs
  exact second value middle result (first s _ holds runsFirst) runsSecond

theorem Keeps.lift (value? : Option A) : Keeps invariant (StateT.lift value?) := by
  intro s result holds runs
  obtain ⟨value, _, isResult⟩ := Option.bind_eq_some_iff.mp runs
  obtain rfl := Option.some.inj isResult
  exact holds

/-- What follows knows the value. -/
theorem Keeps.lift_bind {value? : Option A}
    (second : ∀ value, value? = some value → Keeps invariant (next value)) :
    Keeps invariant (StateT.lift value? >>= next) := by
  intro s result holds runs
  cases isValue : value? with
  | none =>
    rw [isValue] at runs
    exact absurd runs (by simp)
  | some value =>
    rw [isValue] at runs
    exact second value isValue s result holds runs

/-- What follows knows that the invariant holds of what has been read. -/
theorem Keeps.get_bind {next : State → StateT State Option B}
    (second : ∀ s, invariant s → Keeps invariant (next s)) : Keeps invariant (get >>= next) :=
  fun s result holds runs => second s holds s result holds runs

theorem Keeps.get : Keeps invariant get := by
  intro s result holds runs
  obtain rfl := Option.some.inj runs
  exact holds

theorem Keeps.set (kept : invariant s') : Keeps invariant (set s') := by
  intro s result _ runs
  obtain rfl := Option.some.inj runs
  exact kept

theorem Keeps.ite {p : Prop} [Decidable p] {first second : StateT State Option A}
    (keepsFirst : Keeps invariant first) (keepsSecond : Keeps invariant second) :
    Keeps invariant (if p then first else second) := by
  split_ifs
  · exact keepsFirst
  · exact keepsSecond

theorem Keeps.modify {f : State → State} (kept : ∀ s, invariant s → invariant (f s)) :
    Keeps invariant (modify f) := by
  intro s result holds runs
  obtain rfl := Option.some.inj runs
  exact kept s holds

theorem Yields.pure (value : A) : Yields invariant (pure value) value :=
  fun s holds => ⟨s, rfl, holds⟩

theorem Yields.bind {value : A} (first : Yields invariant read value)
    (second : Yields invariant (next value) result) :
    Yields invariant (read >>= next) result := by
  intro s holds
  obtain ⟨middle, runsFirst, holdsMiddle⟩ := first s holds
  obtain ⟨s', runsSecond, holdsEnd⟩ := second middle holdsMiddle
  refine ⟨s', ?_, holdsEnd⟩
  rw [StateT.run_bind, runsFirst]
  exact runsSecond

/-- What is read of a state is read of any state with the invariant. -/
theorem Yields.get_bind {next : State → StateT State Option B}
    (second : ∀ s, invariant s → Yields invariant (next s) result) :
    Yields invariant (get >>= next) result := by
  intro s holds
  exact second s holds s holds

end CodeEditor.Reads
