import Mathlib

/-!
# Counting loops

A loop `for (let k = 0; k < n; k++)` with a body that may throw is a fold over the numbers
below `n`. An invariant that holds before the loop and that each round carries on holds
behind the loop, which then does not throw.
-/

namespace CodeEditor

/-- `for (let k = 0; k < n; k++) { state = body(state, k) }`. -/
def forLoop {S : Type} (n : Nat) (state : S) (body : S → Nat → Option S) : Option S :=
  (List.range n).foldlM body state

theorem forLoop_succ {S : Type} (n : Nat) (state : S) (body : S → Nat → Option S) :
    forLoop (n + 1) state body = (forLoop n state body).bind fun reached => body reached n := by
  rw [forLoop, forLoop, List.range_succ, List.foldlM_append]
  simp

/-- The invariant rule. -/
theorem forLoop_invariant {S : Type} {n : Nat} {state : S} {body : S → Nat → Option S}
    (invariant : Nat → S → Prop) (start : invariant 0 state)
    (round : ∀ k < n, ∀ s, invariant k s → ∃ s', body s k = some s' ∧ invariant (k + 1) s') :
    ∃ s', forLoop n state body = some s' ∧ invariant n s' := by
  induction n with
  | zero => exact ⟨state, rfl, start⟩
  | succ n ih =>
    have ⟨reached, runs, holds⟩ := ih fun k less => round k (by omega)
    have ⟨s', step, holds'⟩ := round n (Nat.lt_succ_self n) reached holds
    exact ⟨s', by rw [forLoop_succ, runs, Option.bind_some, step], holds'⟩

end CodeEditor
