import CodeEditor.PrefixSum.SumTable

/-!
# Prefix sums agree with plain summation

The two computers perform the same calls, and give the answers of plain summation as long as the
indices are below `2 ^ 31`, from where on `toUint32` makes them negative.
-/

namespace CodeEditor.PrefixSum

open List Option

/-- A call of one of the two computers. A prefix sum is asked for by its last index. -/
inductive Op where
  | setValue (index : Nat) (value : UInt32)
  | insertValues (insertIndex : Nat) (insertValues : List UInt32)
  | removeValues (startIndex count : Nat)
  | getTotalSum
  | getPrefixSum (index : Nat)
  | getIndexOf (sum : Nat)
deriving DecidableEq, Repr

namespace Op

/-- The values behind a call. -/
def change (values : List UInt32) : Op → List UInt32
  | setValue index value => values.set index value
  | insertValues insertIndex inserted =>
    values.take insertIndex ++ inserted ++ values.drop insertIndex
  | removeValues startIndex count => values.take startIndex ++ values.drop (startIndex + count)
  | getTotalSum | getPrefixSum _ | getIndexOf _ => values

/-- The indices are within bounds, and the total is small where it is asked for. -/
def InBounds (values : List UInt32) : Op → Prop
  | setValue index _ => index < values.length
  | insertValues insertIndex _ => insertIndex ≤ values.length
  | removeValues startIndex count => startIndex + count ≤ values.length
  | getTotalSum => values ≠ [] ∧ (numbers values).sum < 2 ^ 32
  | getPrefixSum index => index < values.length ∧ (numbers values).sum < 2 ^ 32
  | getIndexOf sum => sum < (numbers values).sum ∧ (numbers values).sum < 2 ^ 32

/-- The indices are below `2 ^ 31`. -/
def Small (values : List UInt32) : Op → Prop
  | setValue index _ => index < 2 ^ 31
  | insertValues insertIndex _ => insertIndex < 2 ^ 31
  | removeValues startIndex count => startIndex < 2 ^ 31 ∧ count < 2 ^ 31
  | getPrefixSum index => index < 2 ^ 31
  | getTotalSum | getIndexOf _ => values.length ≤ 2 ^ 31

/-- Every call is within bounds and has small indices, each at its values. -/
def Admissible : List UInt32 → List Op → Prop
  | _, [] => True
  | values, op :: ops =>
    op.InBounds values ∧ op.Small values ∧ Admissible (op.change values) ops

end Op

/-- What a call answers; an edit answers nothing here. -/
inductive Answer where
  | edited
  | number (number : Option Int)
  | index (result : PrefixSumIndexOfResult)
deriving DecidableEq, Repr

namespace PrefixSumComputer

/-- A call of a `PrefixSumComputer`. -/
def perform : Op → PrefixSumComputer → Option (Answer × PrefixSumComputer)
  | .setValue index value, computer => some (.edited, (computer.setValue index value.toNat).2)
  | .insertValues insertIndex insertValues, computer => do
      let (_, computer) ← computer.insertValues insertIndex insertValues
      return (.edited, computer)
  | .removeValues startIndex count, computer => do
      let (_, computer) ← computer.removeValues startIndex count
      return (.edited, computer)
  | .getTotalSum, computer => some (.number computer.getTotalSum.1, computer.getTotalSum.2)
  | .getPrefixSum index, computer =>
    some (.number (computer.getPrefixSum index).1, (computer.getPrefixSum index).2)
  | .getIndexOf sum, computer => do
      let (result, computer) ← computer.getIndexOf sum
      return (.index result, computer)

end PrefixSumComputer

namespace ConstantTimePrefixSumComputer

/-- The same call of a `ConstantTimePrefixSumComputer`, which is asked for a prefix sum by the
number of values. -/
def perform : Op → ConstantTimePrefixSumComputer → Option (Answer × ConstantTimePrefixSumComputer)
  | .setValue index value, computer => some (.edited, computer.setValue index value.toNat)
  | .insertValues insertIndex insertValues, computer =>
    some (.edited, computer.insertValues insertIndex (numbers insertValues))
  | .removeValues startIndex count, computer =>
    some (.edited, computer.removeValues startIndex count)
  | .getTotalSum, computer => do
      let (total, computer) ← computer.getTotalSum
      return (.number total, computer)
  | .getPrefixSum index, computer => do
      let (sum, computer) ← computer.getPrefixSum (index + 1)
      return (.number sum, computer)
  | .getIndexOf sum, computer => do
      let (result, computer) ← computer.getIndexOf sum
      return (.index result, computer)

end ConstantTimePrefixSumComputer

/-- The calls one after the other, with their answers. -/
def run {Computer : Type} (perform : Op → Computer → Option (Answer × Computer)) :
    List Op → Computer → Option (List Answer × Computer)
  | [], computer => some ([], computer)
  | op :: ops, computer => do
      let (answer, computer) ← perform op computer
      let (answers, computer) ← run perform ops computer
      return (answer :: answers, computer)

/-- The answer that plain summation gives. -/
def IsAnswer (values : List UInt32) : Op → Answer → Prop
  | .setValue _ _, answer | .insertValues _ _, answer | .removeValues _ _, answer =>
    answer = .edited
  | .getTotalSum, answer => answer = .number (some ((numbers values).sum : Int))
  | .getPrefixSum index, answer =>
    answer = .number (some (sumBefore (numbers values) (index + 1) : Int))
  | .getIndexOf sum, answer =>
    ∃ i, IsIndexOf (numbers values) sum i ∧
      answer = .index ⟨some i, some ((sum : Int) - sumBefore (numbers values) i)⟩

/-- The answers that plain summation gives, each at the values of its call. -/
def AreAnswers : List UInt32 → List Op → List Answer → Prop
  | _, [], answers => answers = []
  | _, _ :: _, [] => False
  | values, op :: ops, answer :: answers =>
    IsAnswer values op answer ∧ AreAnswers (op.change values) ops answers

section Runs

variable {values : List UInt32} {computer : PrefixSumComputer}
  {constantTime : ConstantTimePrefixSumComputer} {op : Op}

theorem numbers_append (first second : List UInt32) :
    numbers (first ++ second) = numbers first ++ numbers second :=
  map_append

theorem numbers_take (i : Nat) : numbers (values.take i) = (numbers values).take i :=
  map_take

theorem numbers_drop (i : Nat) : numbers (values.drop i) = (numbers values).drop i :=
  map_drop

/-- A call within bounds and with small indices gives the right answer. -/
theorem PrefixSumComputer.Valid.perform (isValid : computer.Valid values)
    (inBounds : op.InBounds values) (small : op.Small values) {answer : Answer}
    (isAnswer : IsAnswer values op answer) :
    ∃ after, computer.perform op = some (answer, after) ∧ after.Valid (op.change values) := by
  cases op with
  | setValue index value =>
    obtain rfl := isAnswer
    exact ⟨_, rfl, isValid.setValue inBounds small value⟩
  | insertValues insertIndex inserted =>
    obtain rfl := isAnswer
    obtain ⟨after, isAfter, isValidAfter⟩ := isValid.insertValues inBounds small inserted
    refine ⟨after.2, ?_, isValidAfter⟩
    unfold PrefixSumComputer.perform
    dsimp only
    rw [isAfter]
    rfl
  | removeValues startIndex count =>
    obtain rfl := isAnswer
    obtain ⟨after, isAfter, isValidAfter⟩ := isValid.removeValues small.1 small.2
    refine ⟨after.2, ?_, isValidAfter⟩
    unfold PrefixSumComputer.perform
    dsimp only
    rw [isAfter]
    rfl
  | getTotalSum =>
    obtain rfl := isAnswer
    obtain ⟨isSum, isValidAfter, -⟩ := isValid.getTotalSum small
    rw [Nat.mod_eq_of_lt inBounds.2] at isSum
    refine ⟨_, ?_, isValidAfter⟩
    unfold PrefixSumComputer.perform
    dsimp only
    rw [isSum]
  | getPrefixSum index =>
    obtain rfl := isAnswer
    obtain ⟨isSum, isValidAfter⟩ := isValid.getPrefixSum inBounds.1 small
    rw [Nat.mod_eq_of_lt (Nat.lt_of_le_of_lt (sumBefore_le _ _) inBounds.2)] at isSum
    refine ⟨_, ?_, isValidAfter⟩
    unfold PrefixSumComputer.perform
    dsimp only
    rw [isSum]
  | getIndexOf sum =>
    obtain ⟨k, isIndex, rfl⟩ := isAnswer
    obtain ⟨after, isAfter, isValidAfter⟩ := isValid.getIndexOf small inBounds.2 isIndex
    refine ⟨after, ?_, isValidAfter⟩
    unfold PrefixSumComputer.perform
    dsimp only
    rw [isAfter]
    rfl

theorem ConstantTimePrefixSumComputer.Valid.perform (isValid : constantTime.Valid (numbers values))
    (inBounds : op.InBounds values) {answer : Answer} (isAnswer : IsAnswer values op answer) :
    ∃ after, constantTime.perform op = some (answer, after) ∧
      after.Valid (numbers (op.change values)) := by
  cases op with
  | setValue index value =>
    obtain rfl := isAnswer
    refine ⟨_, rfl, ?_⟩
    have edited := isValid.setValue (by rwa [length_numbers]) value.toNat
    unfold numbers at edited
    rw [← map_set] at edited
    exact edited
  | insertValues insertIndex inserted =>
    obtain rfl := isAnswer
    refine ⟨_, rfl, ?_⟩
    have inside : insertIndex ≤ (numbers values).length := by
      rw [length_numbers]
      exact inBounds
    have edited := isValid.insertValues inside (numbers inserted)
    rw [← numbers_take, ← numbers_drop, ← numbers_append, ← numbers_append] at edited
    exact edited
  | removeValues startIndex count =>
    obtain rfl := isAnswer
    refine ⟨_, rfl, ?_⟩
    have inside : startIndex ≤ (numbers values).length := by
      rw [length_numbers]
      exact Nat.le_of_add_right_le inBounds
    have edited := isValid.removeValues inside count
    rw [← numbers_take, ← numbers_drop, ← numbers_append] at edited
    exact edited
  | getTotalSum =>
    obtain rfl := isAnswer
    have nonempty : numbers values ≠ [] := by
      intro isEmpty
      exact inBounds.1 (map_eq_nil_iff.mp isEmpty)
    obtain ⟨after, isAfter, isValidAfter⟩ := isValid.getTotalSum nonempty inBounds.2
    refine ⟨after, ?_, isValidAfter⟩
    unfold ConstantTimePrefixSumComputer.perform
    dsimp only
    rw [isAfter]
    rfl
  | getPrefixSum index =>
    obtain rfl := isAnswer
    obtain ⟨after, isAfter, isValidAfter⟩ :=
      isValid.getPrefixSum (by rw [length_numbers]; exact inBounds.1) inBounds.2
    refine ⟨after, ?_, isValidAfter⟩
    unfold ConstantTimePrefixSumComputer.perform
    dsimp only
    rw [isAfter]
    rfl
  | getIndexOf sum =>
    obtain ⟨k, isIndex, rfl⟩ := isAnswer
    obtain ⟨after, isAfter, isValidAfter⟩ := isValid.getIndexOf inBounds.2 isIndex
    refine ⟨after, ?_, isValidAfter⟩
    unfold ConstantTimePrefixSumComputer.perform
    dsimp only
    rw [isAfter]
    rfl

/-- Within bounds plain summation has an answer. -/
theorem exists_isAnswer (inBounds : op.InBounds values) : ∃ answer, IsAnswer values op answer := by
  cases op with
  | getIndexOf sum =>
    obtain ⟨k, isIndex⟩ := exists_isIndexOf inBounds.1
    exact ⟨_, k, isIndex, rfl⟩
  | _ => exact ⟨_, rfl⟩

/-- The two computers answer alike as long as they go on. -/
theorem exists_answers (isValid : computer.Valid values)
    (isValidTable : constantTime.Valid (numbers values)) (admissible : Op.Admissible values ops) :
    ∃ answers after afterTable, run PrefixSumComputer.perform ops computer = some (answers, after) ∧
        run ConstantTimePrefixSumComputer.perform ops constantTime = some (answers, afterTable) ∧
        AreAnswers values ops answers := by
  induction ops generalizing values computer constantTime with
  | nil => exact ⟨_, _, _, rfl, rfl, rfl⟩
  | cons op ops ih =>
    obtain ⟨inBounds, small, rest⟩ := admissible
    obtain ⟨answer, isAnswer⟩ := exists_isAnswer inBounds
    obtain ⟨next, isNext, isValidNext⟩ := isValid.perform inBounds small isAnswer
    obtain ⟨nextTable, isNextTable, isValidNextTable⟩ := isValidTable.perform inBounds isAnswer
    obtain ⟨answers, after, afterTable, runs, runsTable, areAnswers⟩ :=
      ih isValidNext isValidNextTable rest
    refine ⟨answer :: answers, after, afterTable, ?_, ?_, isAnswer, areAnswers⟩
    · unfold run
      rw [isNext, bind_eq_bind, bind_some]
      dsimp only
      rw [runs]
      rfl
    · unfold run
      rw [isNextTable, bind_eq_bind, bind_some]
      dsimp only
      rw [runsTable]
      rfl

/-- In any order of edits and questions both computers give the answers of plain summation. -/
theorem prefixSums_agree (values : List UInt32) (ops : List Op)
    (admissible : Op.Admissible values ops) :
    ∃ answers computer constantTime,
      run PrefixSumComputer.perform ops (.new values) = some (answers, computer) ∧
        run ConstantTimePrefixSumComputer.perform ops (.new (numbers values)) =
          some (answers, constantTime) ∧
        AreAnswers values ops answers :=
  exists_answers (PrefixSumComputer.valid_new values)
    (ConstantTimePrefixSumComputer.valid_new (numbers values)) admissible

/-- A value is set to zero behind a question, and a sum is looked for behind it. -/
theorem prefixSums_agree_zero :
    ∃ answers computer constantTime,
      run PrefixSumComputer.perform [.getPrefixSum 1, .setValue 0 0, .getIndexOf 1] (.new [1, 2]) =
          some (answers, computer) ∧
        run ConstantTimePrefixSumComputer.perform [.getPrefixSum 1, .setValue 0 0, .getIndexOf 1]
            (.new (numbers [1, 2])) = some (answers, constantTime) ∧
        AreAnswers [1, 2] [.getPrefixSum 1, .setValue 0 0, .getIndexOf 1] answers := by
  apply prefixSums_agree
  refine ⟨⟨?_, ?_⟩, ?_, ?_, ?_, ⟨?_, ?_⟩, ?_, trivial⟩
  · decide
  · decide
  · exact show 1 < 2 ^ 31 by decide
  · exact show 0 < 2 by decide
  · exact show 0 < 2 ^ 31 by decide
  · decide
  · decide
  · exact show 2 ≤ 2 ^ 31 by decide

theorem getPrefixSum_new (values : List UInt32) :
    (PrefixSumComputer.new values).getPrefixSum (2 ^ 31) = (none, .new values) := by
  unfold PrefixSumComputer.getPrefixSum
  rfl

/-- The sum of `2 ^ 31 + 1` values is `undefined`, where the table has it. -/
theorem getPrefixSum_fails :
    Op.InBounds (List.replicate (2 ^ 31 + 1) 1) (.getPrefixSum (2 ^ 31)) ∧
      (∃ computer, PrefixSumComputer.perform (.getPrefixSum (2 ^ 31))
          (.new (List.replicate (2 ^ 31 + 1) 1)) = some (.number none, computer)) ∧
      (∃ computer, ConstantTimePrefixSumComputer.perform (.getPrefixSum (2 ^ 31))
          (.new (numbers (List.replicate (2 ^ 31 + 1) 1))) =
            some (.number (some (sumBefore (numbers (List.replicate (2 ^ 31 + 1) 1))
              (2 ^ 31 + 1))), computer)) ∧
      ¬IsAnswer (List.replicate (2 ^ 31 + 1) 1) (.getPrefixSum (2 ^ 31)) (.number none) := by
  have inBounds : Op.InBounds (List.replicate (2 ^ 31 + 1) 1) (.getPrefixSum (2 ^ 31)) := by
    constructor
    · rw [length_replicate]
      decide
    · unfold numbers
      rw [map_replicate, sum_replicate]
      decide
  refine ⟨inBounds, ⟨.new (List.replicate (2 ^ 31 + 1) 1), ?_⟩, ?_, nofun⟩
  · exact congrArg (fun answer => some (Answer.number answer.1, answer.2)) (getPrefixSum_new _)
  · obtain ⟨after, isAfter, -⟩ := (ConstantTimePrefixSumComputer.valid_new _).perform inBounds rfl
    exact ⟨after, isAfter⟩

end Runs

end CodeEditor.PrefixSum
