import Mathlib

/-!
# Lists with a threshold

A list has a threshold where its front satisfies a predicate and the rest does not.
-/

namespace CodeEditor.Thresholds

open List Nat

variable {A : Type}

/-- The first `k` elements satisfy the predicate, and no other element does. -/
def SplitsAt (p : A → Prop) (list : List A) (k : Nat) : Prop :=
  ∀ i a, list[i]? = some a → (p a ↔ i < k)

variable {p q : A → Prop} {list : List A} {k : Nat}

theorem SplitsAt.forall_mem_take (splits : SplitsAt p list k) : ∀ a ∈ list.take k, p a := by
  intro a isMember
  obtain ⟨i, isHere⟩ := mem_iff_getElem?.mp isMember
  rw [getElem?_take] at isHere
  split_ifs at isHere with inside
  exact (splits i a isHere).mpr inside

theorem SplitsAt.forall_mem_drop (splits : SplitsAt p list k) : ∀ a ∈ list.drop k, ¬p a := by
  intro a isMember
  obtain ⟨i, isHere⟩ := mem_iff_getElem?.mp isMember
  rw [getElem?_drop] at isHere
  intro holds
  have := (splits (k + i) a isHere).mp holds
  omega

/-- The elements with the predicate are the front. -/
theorem SplitsAt.filter_eq_take [DecidablePred p] (splits : SplitsAt p list k) :
    list.filter p = list.take k := by
  conv_lhs => rw [← take_append_drop k list, filter_append]
  rw [filter_eq_self.mpr, filter_eq_nil_iff.mpr, append_nil]
  · intro a isMember
    simpa using splits.forall_mem_drop a isMember
  · intro a isMember
    simpa using splits.forall_mem_take a isMember

/-- The elements with another predicate only stand behind the front. -/
theorem SplitsAt.filter_not_and [DecidablePred p] [DecidablePred q] (splits : SplitsAt p list k) :
    (list.filter fun a => ¬p a ∧ q a) = (list.drop k).filter q := by
  conv_lhs => rw [← take_append_drop k list, filter_append]
  have front : ((list.take k).filter fun a => ¬p a ∧ q a) = [] := by
    apply filter_eq_nil_iff.mpr
    intro a isMember
    have := splits.forall_mem_take a isMember
    simp [this]
  rw [front, nil_append]
  apply filter_congr
  intro a isMember
  have := splits.forall_mem_drop a isMember
  simp [this]

/-- Where the predicate never comes back, its elements are the longest front that has it. -/
theorem takeWhile_eq_filter [DecidablePred p] (falls : list.Pairwise fun a b => p b → p a) :
    list.takeWhile p = list.filter p := by
  induction list with
  | nil => rfl
  | cons a list ih =>
    obtain ⟨first, rest⟩ := pairwise_cons.mp falls
    by_cases holds : p a
    · rw [takeWhile_cons_of_pos (by simpa using holds),
        filter_cons_of_pos (by simpa using holds), ih rest]
    · rw [takeWhile_cons_of_neg (by simpa using holds),
        filter_cons_of_neg (by simpa using holds), eq_comm, filter_eq_nil_iff]
      intro b isMember
      have : ¬p b := fun holdsLater => holds (first b isMember holdsLater)
      simpa using this

/-- Where the predicate never comes back, there is a threshold. -/
theorem exists_splitsAt (falls : list.Pairwise fun a b => p b → p a) :
    ∃ k ≤ list.length, SplitsAt p list k := by
  induction list with
  | nil => exact ⟨0, le_rfl, fun i a isHere => by simp at isHere⟩
  | cons first list ih =>
    obtain ⟨fallsFirst, fallsRest⟩ := pairwise_cons.mp falls
    by_cases holds : p first
    · obtain ⟨k, inside, splits⟩ := ih fallsRest
      refine ⟨k + 1, succ_le_succ inside, ?_⟩
      intro i a isHere
      cases i with
      | zero =>
        obtain rfl := Option.some.inj isHere
        exact ⟨fun _ => succ_pos k, fun _ => holds⟩
      | succ i => exact (splits i a isHere).trans succ_lt_succ_iff.symm
    · refine ⟨0, zero_le _, ?_⟩
      intro i a isHere
      refine ⟨fun holdsHere => ?_, fun outside => absurd outside (not_lt_zero i)⟩
      cases i with
      | zero =>
        obtain rfl := Option.some.inj isHere
        exact absurd holdsHere holds
      | succ i =>
        exact absurd (fallsFirst a (mem_of_getElem? isHere) holdsHere) holds

/-- The indices of a range with a predicate that never comes back end at a threshold. -/
theorem exists_threshold {holds : Nat → Prop} {low high : Nat} (ordered : low ≤ high)
    (falls : ∀ i j, low ≤ i → i < j → j < high → holds j → holds i) :
    ∃ m, low ≤ m ∧ m ≤ high ∧ ∀ i, low ≤ i → i < high → (holds i ↔ i < m) := by
  induction high, ordered using le_induction with
  | base => exact ⟨low, le_rfl, le_rfl, fun i isLow isHigh => by omega⟩
  | succ high isLow ih =>
    by_cases holdsLast : holds high
    · refine ⟨high + 1, by omega, le_rfl, ?_⟩
      intro i lowest isHigh
      refine ⟨fun _ => isHigh, fun _ => ?_⟩
      rcases eq_or_lt_of_le (le_of_lt_succ isHigh) with rfl | before
      · exact holdsLast
      · exact falls i high lowest before (lt_succ_self high) holdsLast
    · obtain ⟨m, lowest, isInside, threshold⟩ := ih fun i j isLow before isHigh =>
        falls i j isLow before (by omega)
      refine ⟨m, lowest, by omega, ?_⟩
      intro i isLow isHigh
      rcases eq_or_lt_of_le (le_of_lt_succ isHigh) with rfl | before
      · exact ⟨fun holdsHere => absurd holdsHere holdsLast, fun isBefore => by omega⟩
      · exact threshold i isLow before

end CodeEditor.Thresholds
