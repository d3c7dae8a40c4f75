import CodeEditor.PrefixSum.LazySums

/-!
# The table of all sums

The prefix sums and the indices of all sums are right up to the end of the valid values. What
stands behind is computed again, and what is too long is cut off, before anything is read.
-/

namespace CodeEditor.PrefixSum

open Option Nat Int
open List hiding sum

section Arrays

variable {array : List (Option Nat)} {i j length : Nat}

theorem element_natCast (i : Nat) : element array i = (array[i]?).join := by
  unfold element
  rw [if_pos (by omega), toNat_natCast]

/-- An assignment changes one element only, as far as `undefined` elements and holes are alike. -/
theorem element_assign (number : Option Nat) :
    element (assign array i number) j = if j = i then number else element array j := by
  rw [element_natCast, element_natCast]
  unfold assign
  split
  next inside =>
    rw [getElem?_set]
    split_ifs with isIndex isIndex' isIndex'
    · rfl
    · omega
    · omega
    · rfl
  next outside =>
    have lengthFilled : (array ++ List.replicate (i - array.length) none).length = i := by
      rw [length_append, length_replicate]
      omega
    split
    next isIndex =>
      rw [isIndex, getElem?_append_right (by omega), lengthFilled, Nat.sub_self]
      rfl
    next other =>
      rcases Nat.lt_or_ge j i with less | notLess
      · rw [getElem?_append_left (by omega)]
        rcases Nat.lt_or_ge j array.length with old | hole
        · rw [getElem?_append_left old]
        · rw [getElem?_append_right hole, getElem?_replicate, getElem?_eq_none hole]
          split <;> rfl
      · rw [getElem?_eq_none, getElem?_eq_none (by omega)]
        rw [length_append, lengthFilled, length_singleton]
        omega

@[simp]
theorem length_resized (array : List (Option Nat)) (length : Nat) :
    (resized array length).length = length := by
  unfold resized
  rw [length_append, length_take, length_replicate]
  omega

/-- Below the new length an array keeps its elements. -/
theorem element_resized (inside : j < length) :
    element (resized array length) j = element array j := by
  rw [element_natCast, element_natCast]
  unfold resized
  rcases lt_or_ge j array.length with old | hole
  · rw [getElem?_append_left (by rw [length_take]; omega), getElem?_take_of_lt inside]
  · rw [getElem?_append_right (by rw [length_take]; omega), getElem?_replicate,
      getElem?_eq_none hole]
    split <;> rfl

theorem withLength_some (below : length < 2 ^ 32) :
    withLength array (some length) = some (resized array length) :=
  if_pos below

end Arrays

namespace ConstantTimePrefixSumComputer

variable {computer : ConstantTimePrefixSumComputer} {values : List Nat}
  {prefixSum indexBySum : List (Option Nat)} {i : Nat}

theorem element_indexLoop (sumAbove i value j : Nat) :
    element (indexLoop sumAbove i value indexBySum) j =
      if sumAbove ≤ j ∧ j < sumAbove + value then some i else element indexBySum j := by
  induction value with
  | zero =>
    rw [if_neg (by omega)]
    rfl
  | succ value ih =>
    unfold indexLoop
    rw [element_assign, ih]
    grind

/-- The tables are right for the values in front of an index. -/
structure TablesBelow (values : List Nat) (prefixSum indexBySum : List (Option Nat)) (i : Nat) :
    Prop where
  sums : ∀ j < i, element prefixSum j = some (sumBefore values (j + 1))
  indices : ∀ j < i, ∀ sum, sumBefore values j ≤ sum → sum < sumBefore values (j + 1) →
    element indexBySum sum = some j

theorem TablesBelow.validLoop (tables : TablesBelow values prefixSum indexBySum i)
    (rounds : Nat) (within : i + rounds ≤ values.length) :
    TablesBelow values (validLoop values rounds i prefixSum indexBySum).1
      (validLoop values rounds i prefixSum indexBySum).2 (i + rounds) := by
  induction rounds generalizing i prefixSum indexBySum with
  | zero => exact tables
  | succ rounds ih =>
    have inside : i < values.length := by omega
    have isAbove : (if i > 0 then element prefixSum ((i : Int) - 1) else some 0) =
        some (sumBefore values i) := by
      split
      next positive =>
        rw [← Int.natCast_one, ← Int.natCast_sub positive, tables.sums (i - 1) (by omega),
          Nat.sub_add_cancel positive]
      next notPositive =>
        obtain rfl : i = 0 := by omega
        rfl
    unfold ConstantTimePrefixSumComputer.validLoop
    rw [isAbove, getElem?_eq_getElem inside, show i + (rounds + 1) = i + 1 + rounds by omega]
    apply ih _ (by omega)
    constructor
    · intro j below
      rw [element_assign]
      split
      next isIndex =>
        rw [isIndex, sumBefore_succ inside]
        rfl
      next other => exact tables.sums j (by omega)
    · intro j below sum notBelow less
      rw [element_indexLoop, ← sumBefore_succ inside]
      split
      next isRange =>
        congr 1
        by_contra other
        have := sumBefore_mono values (show j + 1 ≤ i by omega)
        omega
      next outside =>
        apply tables.indices j _ sum notBelow less
        by_contra notLess
        obtain rfl : j = i := by omega
        exact outside ⟨notBelow, less⟩

/-- The tables are right up to the end of the valid values, and complete when they are valid. -/
structure Valid (computer : ConstantTimePrefixSumComputer) (values : List Nat) : Prop where
  isValues : computer.values = values
  low : -1 ≤ computer.validEndIndex
  high : computer.validEndIndex < values.length
  tables : TablesBelow values computer.prefixSum computer.indexBySum
    (computer.validEndIndex + 1).toNat
  complete : computer.isValid = true →
    computer.validEndIndex + 1 = values.length ∧ computer.indexBySum.length = values.sum

theorem valid_new (values : List Nat) : (new values).Valid values where
  isValues := rfl
  low := le_refl _
  high := show (-1 : Int) < values.length by omega
  tables := by
    constructor
    · intro j below
      exact absurd below (not_lt_zero j)
    · intro j below
      exact absurd below (not_lt_zero j)
  complete isValid := nomatch isValid

/-- The tables in front of an index stay right where the values in front of it stay. -/
theorem TablesBelow.congr {others : List Nat}
    (tables : TablesBelow values prefixSum indexBySum i) (same : others.take k = values.take k)
    (within : k ≤ i) : TablesBelow others prefixSum indexBySum k := by
  constructor
  · intro j below
    rw [sumBefore_congr same below]
    exact tables.sums j (by omega)
  · intro j below sum
    rw [sumBefore_congr same below, sumBefore_congr same (by omega)]
    exact tables.indices j (by omega) sum

section

variable (isValid : computer.Valid values)

include isValid

theorem Valid.invalidate {edited : List Nat} (same : edited.take i = values.take i)
    (inside : i ≤ edited.length) :
    ({ computer with values := edited }.invalidate i).Valid edited := by
  have low := isValid.low
  refine ⟨rfl, ?_, ?_, ?_, nofun⟩
  · change -1 ≤ min computer.validEndIndex ((i : Int) - 1)
    omega
  · change min computer.validEndIndex ((i : Int) - 1) < edited.length
    omega
  · change TablesBelow edited computer.prefixSum computer.indexBySum
      (min computer.validEndIndex ((i : Int) - 1) + 1).toNat
    apply isValid.tables.congr _ (by omega)
    have within : (min computer.validEndIndex ((i : Int) - 1) + 1).toNat ≤ i := by omega
    rw [← min_eq_left within, ← take_take, same, take_take]

theorem Valid.insertValues (inside : i ≤ values.length) (insertArr : List Nat) :
    (computer.insertValues i insertArr).Valid (values.take i ++ insertArr ++ values.drop i) := by
  unfold ConstantTimePrefixSumComputer.insertValues
  rw [isValid.isValues]
  apply isValid.invalidate
  · rw [append_assoc, take_append_of_le_length (by rw [length_take]; omega), take_take, min_self]
  · rw [append_assoc, length_append, length_take]
    omega

theorem Valid.removeValues (inside : i ≤ values.length) (deleteCount : Nat) :
    (computer.removeValues i deleteCount).Valid
      (values.take i ++ values.drop (i + deleteCount)) := by
  unfold ConstantTimePrefixSumComputer.removeValues
  rw [isValid.isValues]
  apply isValid.invalidate
  · rw [take_append_of_le_length (by rw [length_take]; omega), take_take, min_self]
  · rw [length_append, length_take]
    omega

theorem Valid.setValue (inside : i < values.length) (value : Nat) :
    (computer.setValue i value).Valid (values.set i value) := by
  unfold ConstantTimePrefixSumComputer.setValue
  rw [isValid.isValues]
  split
  next same =>
    rw [getElem?_eq_getElem inside] at same
    rw [← Option.some.inj same, set_getElem_self]
    exact isValid
  next changed =>
    apply isValid.invalidate
    · exact take_set_of_le (le_refl i)
    · rw [length_set]
      omega

/-- The tables become complete and right. -/
theorem Valid.ensureValid (nonempty : values ≠ []) (total : values.sum < 2 ^ 32) :
    ∃ after, computer.ensureValid = some after ∧ after.Valid values ∧ after.isValid = true := by
  have positive : 0 < values.length := length_pos_of_ne_nil nonempty
  have low := isValid.low
  have high := isValid.high
  unfold ConstantTimePrefixSumComputer.ensureValid
  split
  next complete => exact ⟨_, rfl, isValid, complete⟩
  next incomplete =>
    rw [isValid.isValues]
    dsimp only
    obtain ⟨start, isStart⟩ := eq_ofNat_of_zero_le (show 0 ≤ computer.validEndIndex + 1 by omega)
    have tables := isValid.tables
    rw [isStart, toNat_natCast] at tables ⊢
    have done := tables.validLoop (values.length - start) (by omega)
    rw [show start + (values.length - start) = values.length by omega] at done
    have lastSum : element
        (resized (validLoop values (values.length - start) start computer.prefixSum
          computer.indexBySum).1 values.length) ((values.length : Int) - 1) =
          some values.sum := by
      rw [show (values.length : Int) - 1 = ((values.length - 1 : Nat) : Int) by omega,
        element_resized (by omega), done.sums _ (by omega), Nat.sub_add_cancel positive,
        sumBefore_length]
    rw [length_resized, lastSum, withLength_some total]
    refine ⟨_, rfl, ⟨rfl, ?_, ?_, ?_, fun _ => ⟨?_, length_resized _ _⟩⟩, rfl⟩
    · dsimp only; omega
    · dsimp only; omega
    · dsimp only
      rw [show ((values.length : Int) - 1 + 1).toNat = values.length by omega]
      constructor
      · intro j below
        rw [element_resized below, done.sums j below]
      · intro j below sum notBelow less
        have := sumBefore_le values (j + 1)
        rw [element_resized (by omega), done.indices j below sum notBelow less]
    · dsimp only; omega

/-- Tables that are complete hold every sum. -/
theorem Valid.tablesBelow_length (complete : computer.isValid) :
    TablesBelow values computer.prefixSum computer.indexBySum values.length := by
  have tables := isValid.tables
  rwa [(isValid.complete complete).1, toNat_natCast] at tables

theorem Valid.getTotalSum (nonempty : values ≠ []) (total : values.sum < 2 ^ 32) :
    ∃ after, computer.getTotalSum = some (some (values.sum : Int), after) ∧ after.Valid values := by
  obtain ⟨after, isAfter, isValidAfter, complete⟩ := isValid.ensureValid nonempty total
  unfold ConstantTimePrefixSumComputer.getTotalSum
  rw [isAfter, bind_eq_bind, bind_some, (isValidAfter.complete complete).2]
  exact ⟨after, rfl, isValidAfter⟩

theorem Valid.getPrefixSum (inside : i < values.length) (total : values.sum < 2 ^ 32) :
    ∃ after, computer.getPrefixSum (i + 1) =
        some (some (sumBefore values (i + 1) : Int), after) ∧ after.Valid values := by
  obtain ⟨after, isAfter, isValidAfter, complete⟩ :=
    isValid.ensureValid (ne_nil_of_length_pos (by omega)) total
  have isSum := (isValidAfter.tablesBelow_length complete).sums i inside
  unfold ConstantTimePrefixSumComputer.getPrefixSum
  rw [isAfter, bind_eq_bind, bind_some, if_neg (by omega), Int.natCast_add,
    Int.natCast_one, Int.add_sub_cancel, isSum]
  exact ⟨after, rfl, isValidAfter⟩

/-- The index of a sum is looked up, and what remains of the sum there. -/
theorem Valid.getIndexOf (total : values.sum < 2 ^ 32) (isIndex : IsIndexOf values sum k) :
    ∃ after, computer.getIndexOf sum =
        some (⟨some k, some ((sum : Int) - sumBefore values k)⟩, after) ∧
      after.Valid values := by
  obtain ⟨inside, notBelow, less⟩ := isIndex
  obtain ⟨after, isAfter, isValidAfter, complete⟩ :=
    isValid.ensureValid (ne_nil_of_length_pos (by omega)) total
  have tables := isValidAfter.tablesBelow_length complete
  unfold ConstantTimePrefixSumComputer.getIndexOf
  rw [isAfter, bind_eq_bind, bind_some, tables.indices k inside sum notBelow less]
  refine ⟨after, ?_, isValidAfter⟩
  dsimp only [any_some, bind_some]
  split
  next positive =>
    have isPrevious : ((k : Int) - 1) = ((k - 1 : Nat) : Int) := by
      have := of_decide_eq_true positive
      omega
    rw [isPrevious, tables.sums (k - 1) (by omega), Nat.sub_add_cancel (of_decide_eq_true positive)]
    rfl
  next notPositive =>
    rw [decide_eq_true_eq] at notPositive
    obtain rfl : k = 0 := by omega
    rfl

end

end ConstantTimePrefixSumComputer

end CodeEditor.PrefixSum
