import CodeEditor.Tokens.StateStore

/-!
# Valid end states

A line that is not marked invalid has the end state its tokenizer gives for the stored start
state, which may be out of date. Up to the first invalid line the stored states are those of
tokenizing from the first line on.
-/

namespace CodeEditor.Tokens

open Edits

variable {S T : Type}

/-! ## Reading a changed array -/

namespace FixedArray

section

variable (array : FixedArray T)

@[simp] theorem default_replace (index oldLength newLength : Nat) :
    (array.replace index oldLength newLength).default = array.default := by
  unfold replace insert delete
  split_ifs <;> rfl

theorem get_set (index : Nat) (value : T) (i : Nat) :
    (array.set index value).get i = if i = index then value else array.get i := by
  unfold set get
  simp only [List.getD_eq_getElem?_getD, List.getElem?_set]
  by_cases same : index = i
  · subst same
    rw [if_pos rfl, if_pos rfl, if_pos (by simp; omega), Option.getD_some]
  · rw [if_neg same, if_neg (Ne.symm same)]
    by_cases inside : i < array.store.length
    · rw [List.getElem?_append_left inside]
    · rw [List.getElem?_append_right (by omega), List.getElem?_replicate,
        List.getElem?_eq_none (by omega)]
      split_ifs <;> rfl

theorem store_replace {index : Nat} (inside : index < array.store.length)
    (oldLength newLength : Nat) : (array.replace index oldLength newLength).store =
      array.store.take index ++ List.replicate newLength array.default ++
        array.store.drop (index + oldLength) := by
  unfold replace
  rw [if_neg (by omega)]
  by_cases insertOnly : oldLength = 0
  · subst insertOnly
    unfold insert
    by_cases none : newLength = 0
    · simp [none]
    · rw [if_pos rfl, if_neg (by omega), Nat.add_zero]
  · by_cases deleteOnly : newLength = 0
    · subst deleteOnly
      unfold delete
      rw [if_neg insertOnly, if_pos rfl, if_neg (by omega), List.replicate_zero, List.append_nil]
    · rw [if_neg insertOnly, if_neg deleteOnly]

theorem get_of_length_le {i : Nat} (outside : array.store.length ≤ i) :
    array.get i = array.default := by
  unfold get
  rw [List.getD_eq_getElem?_getD, List.getElem?_eq_none outside, Option.getD_none]

/-- New elements are default values; the elements behind them move. -/
theorem get_replace (index oldLength newLength i : Nat) :
    (array.replace index oldLength newLength).get i =
      if i < index then array.get i
      else if i < index + newLength then array.default
      else array.get (i - newLength + oldLength) := by
  by_cases inside : index < array.store.length
  · unfold get
    rw [store_replace array inside, default_replace]
    simp only [List.getD_eq_getElem?_getD, List.append_assoc]
    have front : (array.store.take index).length = index := by
      rw [List.length_take, min_eq_left inside.le]
    by_cases before : i < index
    · rw [if_pos before, List.getElem?_append_left (by omega), List.getElem?_take_of_lt before]
    · rw [if_neg before, List.getElem?_append_right (by omega), front]
      by_cases new : i < index + newLength
      · rw [if_pos new, List.getElem?_append_left (by simp; omega), List.getElem?_replicate,
          if_pos (by omega), Option.getD_some]
      · rw [if_neg new, List.getElem?_append_right (by simp; omega), List.length_replicate,
          List.getElem?_drop]
        congr 2
        omega
  · have unchanged : array.replace index oldLength newLength = array := by
      unfold replace
      rw [if_pos (by omega)]
    rw [unchanged]
    split_ifs with before new
    · rfl
    · exact array.get_of_length_le (by omega)
    · rw [array.get_of_length_le (by omega), array.get_of_length_le (by omega)]

end

end FixedArray

/-! ## The first invalid line -/

theorem separated_queueMin {ranges : List OffsetRange} (separated : Separated ranges) {min : Int}
    (isMin : queueMin ranges = some min) : Covers ranges min ∧ ∀ x, Covers ranges x → min ≤ x := by
  cases ranges with
  | nil => cases isMin
  | cons range ranges =>
    obtain rfl : range.start = min := Option.some.inj isMin
    obtain ⟨nonempty, apart, _⟩ := separated_cons.mp separated
    constructor
    · exact covers_cons.mpr (.inl ⟨le_refl _, nonempty⟩)
    · intro x covered
      rcases covers_cons.mp covered with isFirst | others
      · exact isFirst.1
      · exact (nonempty.trans (le_of_covers apart others)).le

theorem covers_of_queueMin_eq_none (isNone : queueMin ranges = none)
    (x : Int) : ¬ Covers ranges x := by
  cases ranges with
  | nil => exact not_covers_nil x
  | cons range ranges => cases isNone

/-! ## Consistent stores -/

/-- The state behind the first `lineNumber` lines. -/
def stateAfter (tokenizer : LineTokenizer S T) (lines : List Text) (lineNumber : Nat) : S :=
  (lines.take lineNumber).foldl (fun state text => (tokenizer.tokenize text state).2)
    tokenizer.initialState

theorem stateAfter_succ (tokenizer : LineTokenizer S T) {lines : List Text} {lineNumber : Nat}
    (inside : lineNumber < lines.length) :
    stateAfter tokenizer lines (lineNumber + 1) =
      (tokenizer.tokenize (lineContent lines (lineNumber + 1))
        (stateAfter tokenizer lines lineNumber)).2 := by
  unfold stateAfter lineContent
  rw [List.take_add_one, List.getElem?_eq_getElem inside, Option.toList_some, List.foldl_append,
    Nat.add_sub_cancel, List.getD_eq_getElem?_getD, List.getElem?_eq_getElem inside]
  rfl

/-- The marked lines are lines of the document, and the other lines have the end states of their
stored start states. -/
structure Consistent (tokenizer : LineTokenizer S T) (lines : List Text)
    (store : TrackingTokenizationStateStore S) : Prop where
  lineCount : store.lineCount = lines.length
  default : store.tokenizationStateStore.lineEndStates.default = none
  separated : Separated store.invalidEndStatesLineNumbers
  within : ∀ x, Covers store.invalidEndStatesLineNumbers x → 1 ≤ x ∧ x ≤ lines.length
  valid : ∀ l : Nat, 1 ≤ l → l ≤ lines.length →
    ¬ Covers store.invalidEndStatesLineNumbers l →
    ∃ start, store.getStartState l tokenizer.initialState = some start ∧
      store.getEndState l = some (tokenizer.tokenize (lineContent lines l) start).2

variable {tokenizer : LineTokenizer S T} {lines : List Text}
  {store : TrackingTokenizationStateStore S}

section

variable (consistent : Consistent tokenizer lines store)

include consistent

/-- Up to the first invalid line the stored states are those of tokenizing from the first line
on. -/
theorem Consistent.startState (l : Nat) (bound : l ≤ lines.length)
    (valid : ∀ k : Nat, 1 ≤ k → k ≤ l → ¬ Covers store.invalidEndStatesLineNumbers k) :
    store.getStartState (l + 1) tokenizer.initialState = some (stateAfter tokenizer lines l) := by
  induction l with
  | zero => rfl
  | succ l ih =>
    have before := ih (by omega) (fun k positive le => valid k positive (by omega))
    obtain ⟨start, isStart, isEnd⟩ := consistent.valid (l + 1) (by omega) bound
      (valid (l + 1) (by omega) le_rfl)
    rw [before] at isStart
    rw [stateAfter_succ tokenizer bound, Option.some.inj isStart, ← isEnd]
    unfold TrackingTokenizationStateStore.getStartState
    rw [if_neg (by omega), Nat.add_sub_cancel]

theorem Consistent.endState {l : Nat} (positive : 1 ≤ l) (bound : l ≤ lines.length)
    (valid : ∀ k : Nat, 1 ≤ k → k ≤ l → ¬ Covers store.invalidEndStatesLineNumbers k) :
    store.getEndState l = some (stateAfter tokenizer lines l) := by
  have start := consistent.startState l bound valid
  unfold TrackingTokenizationStateStore.getStartState at start
  rwa [if_neg (by omega), Nat.add_sub_cancel] at start

/-- The first invalid line, and what is stored in front of it. -/
theorem Consistent.getFirstInvalidLine :
    (store.getFirstInvalidLine tokenizer.initialState = some none ∧
        ∀ x, ¬ Covers store.invalidEndStatesLineNumbers x) ∨
      ∃ first : Nat, store.getFirstInvalidLine tokenizer.initialState =
          some (some (first + 1, stateAfter tokenizer lines first)) ∧
        first < lines.length ∧ Covers store.invalidEndStatesLineNumbers (first + 1) ∧
        ∀ x, Covers store.invalidEndStatesLineNumbers x → (first + 1 : Int) ≤ x := by
  unfold TrackingTokenizationStateStore.getFirstInvalidLine
    TrackingTokenizationStateStore.getFirstInvalidEndStateLineNumber
  cases isMin : queueMin store.invalidEndStatesLineNumbers with
  | none => exact .inl ⟨rfl, covers_of_queueMin_eq_none isMin⟩
  | some min =>
    obtain ⟨covered, least⟩ := separated_queueMin consistent.separated isMin
    obtain ⟨positive, bound⟩ := consistent.within min covered
    obtain ⟨first, isFirst⟩ : ∃ first : Nat, min = first + 1 :=
      ⟨(min - 1).toNat, by omega⟩
    have isLine : min.toNat = first + 1 := by omega
    have start := consistent.startState first (by omega) (by
      intro k _ le isCovered
      have isLeast := least k isCovered
      omega)
    refine .inr ⟨first, ?_, by omega, isFirst ▸ covered, ?_⟩
    · simp only [Option.map_some, isLine, start]
      rfl
    · intro x isCovered
      have isLeast := least x isCovered
      omega

end

/-! ## The operations -/

theorem consistent_new (tokenizer : LineTokenizer S T) (nonempty : lines ≠ []) :
    ∃ store, TrackingTokenizationStateStore.new lines.length = some store ∧
      Consistent tokenizer lines store := by
  have positive : 0 < lines.length := List.length_pos_iff.mpr nonempty
  obtain ⟨added, isAdded, separated, covers⟩ := @addRange_spec [] ⟨1, lines.length + 1, by omega⟩
    separated_nil (.inl (by simp only; omega))
  refine ⟨⟨lines.length, ⟨⟨none, []⟩⟩, added⟩, ?_, rfl, rfl, separated, ?_, ?_⟩
  · unfold TrackingTokenizationStateStore.new
    rw [new_eq (by omega)]
    simp only [Option.bind_eq_bind, Option.bind_some]
    rw [isAdded, Option.bind_some]
  · intro x covered
    have isNew := (covers x).mp covered
    simp only [not_covers_nil, false_or] at isNew
    omega
  · intro l first last valid
    exact absurd ((covers l).mpr (.inr (by simp only; omega))) valid

section

variable (states : TokenizationStateStore S) (lineNumber : Nat) (state : S)

theorem getEndState_setEndState [DecidableEq S] (i : Nat) :
    (states.setEndState lineNumber state).2.getEndState i =
      if i = lineNumber then some state else states.getEndState i := by
  unfold TokenizationStateStore.setEndState
  by_cases unchanged : states.getEndState lineNumber = some state
  · rw [if_pos unchanged]
    by_cases same : i = lineNumber
    · rw [if_pos same, same]
      exact unchanged
    · rw [if_neg same]
  · rw [if_neg unchanged]
    exact FixedArray.get_set _ _ _ _

theorem changed_setEndState [DecidableEq S] : (states.setEndState lineNumber state).1 = true ↔
      states.getEndState lineNumber ≠ some state := by
  unfold TokenizationStateStore.setEndState
  split_ifs with unchanged <;> simp [unchanged]

theorem default_setEndState [DecidableEq S] :
    (states.setEndState lineNumber state).2.lineEndStates.default =
      states.lineEndStates.default := by
  unfold TokenizationStateStore.setEndState
  split_ifs <;> rfl

end

/-- Storing the end state of a line makes the line valid; only the line behind it may become
invalid. -/
theorem setEndState_spec [DecidableEq S] (consistent : Consistent tokenizer lines store)
    {l : Nat} (positive : 1 ≤ l) (bound : l ≤ lines.length) {start : S}
    (isStart : store.getStartState l tokenizer.initialState = some start) :
    ∃ changed updated, store.setEndState l (tokenizer.tokenize (lineContent lines l) start).2 =
        some (changed, updated) ∧
      Consistent tokenizer lines updated ∧
      ∀ x, Covers updated.invalidEndStatesLineNumbers x →
        (Covers store.invalidEndStatesLineNumbers x ∧ x ≠ l) ∨ x = l + 1 := by
  generalize isState : (tokenizer.tokenize (lineContent lines l) start).2 = state
  obtain ⟨remaining, isRemaining, separated, _, covers⟩ :=
    deleteFrom_spec (l : Int) consistent.separated
  have isEnd := getEndState_setEndState store.tokenizationStateStore l state
  have isDefault := default_setEndState store.tokenizationStateStore l state
  have isChanged := changed_setEndState store.tokenizationStateStore l state
  unfold TrackingTokenizationStateStore.setEndState
  rw [isRemaining]
  simp only [Option.bind_eq_bind, Option.bind_some]
  generalize store.tokenizationStateStore.setEndState l state = result at *
  obtain ⟨changed, states⟩ := result
  -- the states in the result are valid on every line that is not marked
  have valid : ∀ invalid : List OffsetRange,
      (changed = true → (l : Int) < store.lineCount → Covers invalid (l + 1)) →
      (∀ x, Covers remaining x → Covers invalid x) →
      ∀ k : Nat, 1 ≤ k → k ≤ lines.length → ¬ Covers invalid k →
        ∃ start, TrackingTokenizationStateStore.getStartState
            ⟨store.lineCount, states, invalid⟩ k tokenizer.initialState = some start ∧
          states.getEndState k = some (tokenizer.tokenize (lineContent lines k) start).2 := by
    intro invalid marked grows k first last unmarked
    unfold TrackingTokenizationStateStore.getStartState TrackingTokenizationStateStore.getEndState
      at *
    by_cases here : k = l
    · subst here
      refine ⟨start, ?_, by rw [isEnd, if_pos rfl, isState]⟩
      rw [← isStart]
      by_cases isFirst : k = 1
      · rw [if_pos isFirst, if_pos isFirst]
      · rw [if_neg isFirst, if_neg isFirst]
        exact (isEnd (k - 1)).trans (if_neg (by omega))
    · have notCovered : ¬ Covers store.invalidEndStatesLineNumbers k := by
        intro covered
        exact unmarked (grows k ((covers k).mpr ⟨covered, by omega⟩))
      obtain ⟨old, isOld, oldEnd⟩ := consistent.valid k first last notCovered
      refine ⟨old, ?_, by rw [isEnd, if_neg here]; exact oldEnd⟩
      unfold TrackingTokenizationStateStore.getStartState
        TrackingTokenizationStateStore.getEndState at isOld
      by_cases isFirst : k = 1
      · rw [if_pos isFirst] at isOld ⊢
        exact isOld
      · rw [if_neg isFirst] at isOld ⊢
        by_cases next : k - 1 = l
        · have sameState : store.tokenizationStateStore.getEndState l = some state := by
            by_contra differs
            have isMarked := marked (isChanged.mpr differs) (by rw [consistent.lineCount]; omega)
            apply unmarked
            convert isMarked using 1
            omega
          rw [next] at isOld
          rw [next]
          refine (isEnd l).trans ?_
          rw [if_pos rfl, ← sameState]
          exact isOld
        · exact (isEnd (k - 1)).trans ((if_neg next).trans isOld)
  by_cases marks : changed = true ∧ (l : Int) < store.lineCount
  · obtain ⟨added, isAdded, addedSeparated, addedCovers⟩ :=
      @addRange_spec _ ⟨l + 1, l + 2, by omega⟩ separated (.inl (by simp only; omega))
    rw [if_pos marks, new_eq (by omega), Option.bind_some, isAdded, Option.bind_some]
    refine ⟨_, _, rfl, ⟨consistent.lineCount, isDefault.trans consistent.default,
      addedSeparated, ?_, valid added ?_ ?_⟩, ?_⟩
    · intro x covered
      rcases (addedCovers x).mp covered with isOld | isNew
      · exact consistent.within x ((covers x).mp isOld).1
      · have inside := marks.2
        rw [consistent.lineCount] at inside
        simp only at isNew
        omega
    · intro _ _
      exact (addedCovers _).mpr (.inr (by simp only; omega))
    · intro x covered
      exact (addedCovers x).mpr (.inl covered)
    · intro x covered
      rcases (addedCovers x).mp covered with isOld | isNew
      · exact .inl ((covers x).mp isOld)
      · right
        simp only at isNew
        omega
  · rw [if_neg marks]
    refine ⟨_, _, rfl, ⟨consistent.lineCount, isDefault.trans consistent.default,
      separated, ?_, valid remaining ?_ ?_⟩, ?_⟩
    · intro x covered
      exact consistent.within x ((covers x).mp covered).1
    · intro isTrue inside
      exact absurd ⟨isTrue, inside⟩ marks
    · exact fun x covered => covered
    · intro x covered
      exact .inl ((covers x).mp covered)

/-- From a consistent store the loop ends, with all lines up to `lineNumber` valid. -/
theorem updateTokensUntilLine_spec [DecidableEq S] (lineNumber : Nat)
    (consistent : Consistent tokenizer lines store) (builder : List (Nat × T)) :
    ∃ updated tokens,
      tokenizer.updateTokensUntilLine lines lineNumber store builder = some (updated, tokens) ∧
      Consistent tokenizer lines updated ∧
      ∀ x, Covers updated.invalidEndStatesLineNumbers x → (lineNumber : Int) < x := by
  -- the induction is on the number of lines behind the last one known to be valid
  obtain ⟨first, isFirst⟩ : ∃ first, first = 0 := ⟨0, rfl⟩
  have least : ∀ x, Covers store.invalidEndStatesLineNumbers x → (first : Int) < x := by
    intro x covered
    have inside := consistent.within x covered
    omega
  clear isFirst
  generalize isRemaining : lines.length - first = remaining
  induction remaining using Nat.strong_induction_on generalizing store builder first with
  | _ remaining ih =>
    rw [LineTokenizer.updateTokensUntilLine]
    rcases consistent.getFirstInvalidLine with
      ⟨isNone, valid⟩ | ⟨next, isNext, inside, isInvalid, nextLeast⟩
    · rw [isNone]
      exact ⟨store, builder, rfl, consistent, fun x covered => absurd covered (valid x)⟩
    · rw [isNext]
      simp only [Option.bind_eq_bind, Option.bind_some]
      have behind := least _ isInvalid
      by_cases done : next + 1 > lineNumber
      · rw [if_pos done]
        refine ⟨store, builder, rfl, consistent, ?_⟩
        intro x covered
        have isLeast := nextLeast x covered
        omega
      · have isText : lines[next + 1 - 1]? = some (lineContent lines (next + 1)) := by
          unfold lineContent
          rw [Nat.add_sub_cancel, List.getD_eq_getElem?_getD, List.getElem?_eq_getElem inside,
            Option.getD_some]
        have isStart := consistent.startState next inside.le (by
          intro k _ le covered
          have isLeast := nextLeast k covered
          omega)
        obtain ⟨changed, updated, isUpdated, updatedConsistent, covers⟩ :=
          setEndState_spec consistent (by omega) (show next + 1 ≤ lines.length by omega) isStart
        rw [if_neg done, isText, Option.bind_some, isUpdated, Option.bind_some]
        apply ih (lines.length - (next + 1)) (by omega) updatedConsistent _ (next + 1) _ rfl
        intro x covered
        rcases covers x covered with ⟨isOld, differs⟩ | isNew
        · have isLeast := nextLeast x isOld
          omega
        · omega

theorem getEndState_acceptChange (states : TokenizationStateStore S) {range : LineRange}
    (nonempty : range.startLineNumber < range.endLineNumberExclusive) (eolCount i : Nat) :
    (states.acceptChange range (eolCount + 1)).getEndState i =
      if i < range.startLineNumber then states.getEndState i
      else if i < range.startLineNumber + eolCount then states.lineEndStates.default
      else states.getEndState
        (i - eolCount + (range.endLineNumberExclusive - range.startLineNumber - 1)) := by
  unfold TokenizationStateStore.acceptChange TokenizationStateStore.getEndState
  rw [if_pos (by omega)]
  exact FixedArray.get_replace _ _ _ _ _

/-- Replacing lines keeps the lines in front of them and moves the lines behind them, with
their states. -/
theorem acceptChange_spec (consistent : Consistent tokenizer lines store)
    {start stop eolCount : Nat} (positive : 1 ≤ start) (ordered : start ≤ stop)
    (bound : stop ≤ lines.length) {edited : List Text}
    (length : edited.length + stop = lines.length + (start + eolCount))
    (before : ∀ l, 1 ≤ l → l < start → lineContent edited l = lineContent lines l)
    (behind : ∀ l, stop < l →
      lineContent edited (l - stop + start + eolCount) = lineContent lines l) :
    ∃ updated, store.acceptChange ⟨start, stop + 1, by omega⟩ (eolCount + 1) = some updated ∧
      Consistent tokenizer edited updated := by
  obtain ⟨resized, isResized, separated, covers⟩ := addRangeAndResize_spec
    ⟨start, (stop + 1 : Nat), by omega⟩ (show (0 : Int) ≤ (eolCount + 1 : Nat) by omega)
    consistent.separated
  have isEnd := @getEndState_acceptChange S store.tokenizationStateStore
    ⟨start, stop + 1, by omega⟩ (by simp only; omega) eolCount
  simp only [OffsetRange.length] at covers isEnd
  refine ⟨⟨store.lineCount + ((eolCount + 1 : Nat) - ((stop + 1 : Nat) - start : Int)),
    store.tokenizationStateStore.acceptChange ⟨start, stop + 1, by omega⟩ (eolCount + 1),
    resized⟩, ?_, ?_⟩
  · unfold TrackingTokenizationStateStore.acceptChange
    rw [new_eq (by simp only; omega)]
    simp only [Option.bind_eq_bind, Option.bind_some]
    rw [isResized]
    rfl
  · refine ⟨?_, ?_, separated, ?_, ?_⟩
    · simp only [consistent.lineCount]
      omega
    · have isDefault : (store.tokenizationStateStore.acceptChange ⟨start, stop + 1, by omega⟩
          (eolCount + 1)).lineEndStates.default =
          store.tokenizationStateStore.lineEndStates.default := by
        unfold TokenizationStateStore.acceptChange
        simp only
        split_ifs <;> exact FixedArray.default_replace _ _ _ _
      exact isDefault.trans consistent.default
    · intro x covered
      rcases (covers x).mp covered with ⟨inFront, isOld⟩ | inside | ⟨isBehind, isOld⟩
      · have := consistent.within _ isOld
        omega
      · omega
      · have := consistent.within _ isOld
        omega
    · intro l first last unmarked
      have marked := fun holds => unmarked ((covers l).mpr holds)
      by_cases inFront : l < start
      · have notCovered : ¬ Covers store.invalidEndStatesLineNumbers l := by
          intro covered
          exact marked (.inl ⟨by omega, covered⟩)
        obtain ⟨state, isStart, isState⟩ := consistent.valid l first (by omega) notCovered
        refine ⟨state, ?_, ?_⟩
        · rw [← isStart]
          unfold TrackingTokenizationStateStore.getStartState
          by_cases isFirst : l = 1
          · rw [if_pos isFirst, if_pos isFirst]
          · rw [if_neg isFirst, if_neg isFirst]
            exact (isEnd (l - 1)).trans (if_pos (by omega))
        · rw [before l first inFront, ← isState]
          exact (isEnd l).trans (if_pos inFront)
      · have notInside : ¬ l < start + eolCount + 1 := by
          intro inside
          exact marked (.inr (.inl ⟨by omega, by omega⟩))
        -- the line that has become line `l`
        obtain ⟨old, isOld⟩ : ∃ old, l = old - stop + start + eolCount ∧ stop < old :=
          ⟨l - start - eolCount + stop, by omega, by omega⟩
        have notCovered : ¬ Covers store.invalidEndStatesLineNumbers old := by
          intro covered
          apply marked
          refine .inr (.inr ⟨by omega, ?_⟩)
          convert covered using 1
          omega
        obtain ⟨state, isStart, isState⟩ :=
          consistent.valid old (by omega) (by omega) notCovered
        refine ⟨state, ?_, ?_⟩
        · unfold TrackingTokenizationStateStore.getStartState at isStart ⊢
          rw [if_neg (by omega)] at isStart ⊢
          rw [← isStart]
          refine (isEnd (l - 1)).trans ?_
          rw [if_neg (by omega), if_neg (by omega)]
          unfold TrackingTokenizationStateStore.getEndState
          congr 1
          omega
        · rw [isOld.1, behind old isOld.2, ← isOld.1, ← isState]
          refine (isEnd l).trans ?_
          rw [if_neg (by omega), if_neg (by omega)]
          unfold TrackingTokenizationStateStore.getEndState
          congr 1
          omega

/-! ### Batches of changes -/

/-- The document after the changes, one after the other. -/
def applyChanges (lines : List Text) (changes : List ModelContentChange) : List Text :=
  changes.foldl (fun lines c => replaceRange lines c.range c.text) lines

/-- A range ends where another one starts, or in front of it. -/
def EndsBefore (first second : Range) : Prop :=
  first.endLineNumber < second.startLineNumber ∨
    (first.endLineNumber = second.startLineNumber ∧ first.endColumn ≤ second.startColumn)

/-- The changes of a batch have ranges in the document, the last one first. -/
structure IsBatch (lines : List Text) (changes : List ModelContentChange) : Prop where
  valid : ∀ c ∈ changes, IsValidRange lines c.range
  descending : changes.Pairwise fun c d => EndsBefore d.range c.range

theorem textBefore_isStable (document : IsDocument lines)
    (valid : IsValidRange lines range) (text : Text) :
    textBefore lines range <+:
      lineContent (replaceRange lines range text) range.startLineNumber := by
  have ordered := valid.lines_ordered
  have endLine := valid.endLine_le
  have front : (lines.take (range.startLineNumber - 1)).length = range.startLineNumber - 1 := by
    rw [List.length_take]
    omega
  unfold lineContent replaceRange
  rw [List.getD_eq_getElem?_getD, List.append_assoc, List.getElem?_append_right (by omega), front,
    Nat.sub_self, splitLines_between document]
  cases split : splitLines text with
  | nil => exact absurd split (splitLines_ne_nil text)
  | cons line more =>
    cases more with
    | nil => simp [prependFirst, appendLast, List.append_assoc]
    | cons next more => simp [prependFirst, appendLast]

/-- Changes behind a range leave the range valid. -/
theorem IsValidRange.replaceRange (document : IsDocument lines)
    (valid : IsValidRange lines range) (isChanged : IsValidRange lines changed)
    (inFront : EndsBefore range changed) (text : Text) :
    IsValidRange (replaceRange lines changed text) range := by
  have length := length_replaceRange document isChanged text
  have endLine := isChanged.endLine_le
  have ordered := valid.lines_ordered
  have changedStart := isChanged.startColumn_le
  have isPrefix := (textBefore_isStable document isChanged text).length_le
  have beforeLength : (textBefore lines changed).length = changed.startColumn - 1 := by
    unfold textBefore
    rw [List.length_take]
    omega
  have content : ∀ l, 1 ≤ l → l < changed.startLineNumber →
      lineContent (Tokens.replaceRange lines changed text) l = lineContent lines l :=
    fun l positive before => lineContent_replaceRange_before isChanged text positive before
  have startPos := valid.startLine_pos
  have startColumn := valid.startColumn_pos
  have endColumn := valid.endColumn_pos
  have columns := valid.columns_ordered
  unfold EndsBefore at inFront
  constructor
  · exact startPos
  · exact startColumn
  · by_cases before : range.startLineNumber < changed.startLineNumber
    · rw [content _ startPos before]
      exact valid.startColumn_le
    · have same : range.startLineNumber = changed.startLineNumber := by omega
      rw [same]
      omega
  · exact ordered
  · omega
  · exact endColumn
  · by_cases before : range.endLineNumber < changed.startLineNumber
    · rw [content _ (by omega) before]
      exact valid.endColumn_le
    · have same : range.endLineNumber = changed.startLineNumber := by omega
      rw [same]
      omega
  · exact columns

theorem IsBatch.tail {c : ModelContentChange} {changes : List ModelContentChange}
    (document : IsDocument lines) (batch : IsBatch lines (c :: changes)) :
    IsBatch (replaceRange lines c.range c.text) changes := by
  obtain ⟨inFront, descending⟩ := List.pairwise_cons.mp batch.descending
  refine ⟨?_, descending⟩
  intro d member
  exact (batch.valid d (List.mem_cons_of_mem _ member)).replaceRange document
    (batch.valid c List.mem_cons_self) (inFront d member) c.text

theorem acceptChanges_spec (consistent : Consistent tokenizer lines store)
    (document : IsDocument lines) (batch : IsBatch lines changes) :
    ∃ updated, store.acceptChanges changes = some updated ∧
      Consistent tokenizer (applyChanges lines changes) updated ∧
      IsDocument (applyChanges lines changes) := by
  induction changes generalizing lines store with
  | nil => exact ⟨store, rfl, consistent, document⟩
  | cons c changes ih =>
    have valid := batch.valid c List.mem_cons_self
    have ordered := valid.lines_ordered
    obtain ⟨updated, isUpdated, updatedConsistent⟩ :=
      acceptChange_spec consistent valid.startLine_pos ordered valid.endLine_le
        (length_replaceRange document valid c.text)
        (fun l positive before => lineContent_replaceRange_before valid c.text positive before)
        (fun l isBehind => lineContent_replaceRange_behind document valid c.text isBehind)
    obtain ⟨final, isFinal, finalConsistent, finalDocument⟩ :=
      ih updatedConsistent (document.replaceRange c.range c.text) (batch.tail document)
    refine ⟨final, ?_, finalConsistent, finalDocument⟩
    have isRange : LineRange.new c.range.startLineNumber (c.range.endLineNumber + 1) =
        some ⟨c.range.startLineNumber, c.range.endLineNumber + 1, by omega⟩ := dif_pos _
    unfold TrackingTokenizationStateStore.acceptChanges at isFinal ⊢
    rw [List.foldlM_cons, isRange, Option.bind_eq_bind, Option.bind_eq_bind, Option.bind_some,
      isUpdated, Option.bind_some]
    exact isFinal

end Tokens
end CodeEditor

/-!
## Incremental tokenization

Runs of a tracking store beside its document. In every run the stored states up to the first
invalid line are those of tokenizing the document from scratch, as long as no empty range is put
into the queue on its own: such a range marks no line, and no line that is tokenized takes it
out again.
-/

namespace CodeEditor
namespace Tokens

open Edits

variable {S T : Type}

/-- The range has a line, or touches a line that is marked already. -/
def MarksLines (store : TrackingTokenizationStateStore S) (range : LineRange) : Prop :=
  range.startLineNumber < range.endLineNumberExclusive ∨
    ∃ r ∈ store.invalidEndStatesLineNumbers,
      r.start ≤ range.endLineNumberExclusive ∧ range.startLineNumber ≤ r.endExclusive

variable [DecidableEq S]

/-- Documents and stores that are reached by changes, updates, and invalidations that are
allowed. -/
inductive Reaches (tokenizer : LineTokenizer S T)
    (allowed : TrackingTokenizationStateStore S → LineRange → Prop) :
    List Text → TrackingTokenizationStateStore S → Prop
  | start {lines store} : IsDocument lines →
      TrackingTokenizationStateStore.new lines.length = some store →
      Reaches tokenizer allowed lines store
  | acceptChanges {lines store changes updated} : Reaches tokenizer allowed lines store →
      IsBatch lines changes → store.acceptChanges changes = some updated →
      Reaches tokenizer allowed (applyChanges lines changes) updated
  | updateTokensUntilLine {lines store lineNumber builder updated tokens} :
      Reaches tokenizer allowed lines store →
      tokenizer.updateTokensUntilLine lines lineNumber store builder = some (updated, tokens) →
      Reaches tokenizer allowed lines updated
  | invalidateEndStateRange {lines store range updated} :
      Reaches tokenizer allowed lines store →
      1 ≤ range.startLineNumber → range.endLineNumberExclusive ≤ lines.length + 1 →
      allowed store range → store.invalidateEndStateRange range = some updated →
      Reaches tokenizer allowed lines updated

variable {tokenizer : LineTokenizer S T} {lines : List Text}
  {store : TrackingTokenizationStateStore S}

omit [DecidableEq S] in
theorem invalidateEndStateRange_spec (consistent : Consistent tokenizer lines store)
    {range : LineRange} (positive : 1 ≤ range.startLineNumber)
    (bound : range.endLineNumberExclusive ≤ lines.length + 1) (marks : MarksLines store range) :
    ∃ updated, store.invalidateEndStateRange range = some updated ∧
      Consistent tokenizer lines updated := by
  have ordered := range.ordered
  have parts := consistent.separated.around
    ⟨range.startLineNumber, range.endLineNumberExclusive, by omega⟩
  obtain ⟨added, isAdded, separated, covers⟩ := @addRange_spec _
    ⟨range.startLineNumber, range.endLineNumberExclusive, by omega⟩ consistent.separated (by
      rcases marks with nonempty | ⟨r, member, start, stop⟩
      · left
        simp only
        omega
      · right
        intro none
        rw [ranges_eq ⟨range.startLineNumber, range.endLineNumberExclusive, by omega⟩
          store.invalidEndStatesLineNumbers, none, List.nil_append, List.mem_append] at member
        rcases member with before | after
        · have isBefore := parts.before_end r before
          simp only at isBefore
          omega
        · have isAfter := parts.after_start r after
          simp only at isAfter
          omega)
  refine ⟨{ store with invalidEndStatesLineNumbers := added }, ?_, consistent.lineCount,
    consistent.default, separated, ?_, ?_⟩
  · unfold TrackingTokenizationStateStore.invalidateEndStateRange
    rw [new_eq (by omega)]
    simp only [Option.bind_eq_bind, Option.bind_some]
    rw [isAdded, Option.bind_some]
  · intro x covered
    rcases (covers x).mp covered with isOld | isNew
    · exact consistent.within x isOld
    · simp only at isNew
      omega
  · intro l first last unmarked
    apply consistent.valid l first last
    intro covered
    exact unmarked ((covers l).mpr (.inl covered))

/-- What holds in every state of a run. -/
theorem consistent_of_reaches (reaches : Reaches tokenizer MarksLines lines store) :
    IsDocument lines ∧ Consistent tokenizer lines store := by
  induction reaches with
  | start document isNew =>
    obtain ⟨created, isCreated, consistent⟩ := consistent_new tokenizer document.nonempty
    obtain rfl : created = _ := Option.some.inj (isCreated.symm.trans isNew)
    exact ⟨document, consistent⟩
  | acceptChanges _ batch isUpdated ih =>
    obtain ⟨document, consistent⟩ := ih
    obtain ⟨accepted, isAccepted, consistent, edited⟩ :=
      acceptChanges_spec consistent document batch
    obtain rfl : accepted = _ := Option.some.inj (isAccepted.symm.trans isUpdated)
    exact ⟨edited, consistent⟩
  | @updateTokensUntilLine lines store lineNumber builder updated tokens _ isUpdated
      ih =>
      obtain ⟨document, consistent⟩ := ih
      obtain ⟨reached, added, isReached, consistent, _⟩ :=
        updateTokensUntilLine_spec lineNumber consistent builder
      obtain ⟨rfl, rfl⟩ : reached = updated ∧ added = tokens := by
        simpa using isReached.symm.trans isUpdated
      exact ⟨document, consistent⟩
  | invalidateEndStateRange _ positive bound marks isUpdated ih =>
    obtain ⟨document, consistent⟩ := ih
    obtain ⟨marked, isMarked, consistent⟩ :=
      invalidateEndStateRange_spec consistent positive bound marks
    obtain rfl : marked = _ := Option.some.inj (isMarked.symm.trans isUpdated)
    exact ⟨document, consistent⟩

omit [DecidableEq S] in
/-- A line in front of the first invalid one is not marked. -/
theorem Consistent.not_covers (consistent : Consistent tokenizer lines store) {l : Nat}
    (inFront : ∀ first ∈ store.getFirstInvalidEndStateLineNumber, l < first) {k : Nat}
    (le : k ≤ l) : ¬ Covers store.invalidEndStatesLineNumbers k := by
  unfold TrackingTokenizationStateStore.getFirstInvalidEndStateLineNumber at inFront
  cases isMin : queueMin store.invalidEndStatesLineNumbers with
  | none => exact covers_of_queueMin_eq_none isMin k
  | some min =>
    intro covered
    have isLeast := (separated_queueMin consistent.separated isMin).2 k covered
    have isFirst := inFront min.toNat (by simp [isMin])
    omega

/-- Incremental tokenization is tokenization from scratch, in every state of a run that
invalidates no empty range apart from all invalid lines. -/
theorem incremental_tokenization (reaches : Reaches tokenizer MarksLines lines store) :
    (∃ first, store.getFirstInvalidLine tokenizer.initialState = some first) ∧
    (∀ l, 1 ≤ l → l ≤ lines.length →
      (∀ first ∈ store.getFirstInvalidEndStateLineNumber, l < first) →
      store.getEndState l = some (stateAfter tokenizer lines l)) ∧
    (∀ lineNumber builder, ∃ updated tokens,
      tokenizer.updateTokensUntilLine lines lineNumber store builder = some (updated, tokens) ∧
      ∀ first ∈ updated.getFirstInvalidEndStateLineNumber, lineNumber < first) ∧
    (store.allStatesValid = true → ∀ l, 1 ≤ l → l ≤ lines.length →
      store.getEndState l = some (stateAfter tokenizer lines l)) ∧
    (∀ changes, IsBatch lines changes → ∃ updated, store.acceptChanges changes = some updated) ∧
    (∀ range, 1 ≤ range.startLineNumber → range.endLineNumberExclusive ≤ lines.length + 1 →
      MarksLines store range → ∃ updated, store.invalidateEndStateRange range = some updated) := by
  obtain ⟨document, consistent⟩ := consistent_of_reaches reaches
  have correct : ∀ l, 1 ≤ l → l ≤ lines.length →
      (∀ first ∈ store.getFirstInvalidEndStateLineNumber, l < first) →
      store.getEndState l = some (stateAfter tokenizer lines l) := by
    intro l positive bound inFront
    exact consistent.endState positive bound
      (fun k _ le => consistent.not_covers inFront le)
  refine ⟨?_, correct, ?_, ?_, ?_, ?_⟩
  · rcases consistent.getFirstInvalidLine with ⟨isNone, _⟩ | ⟨first, isFirst, _⟩
    · exact ⟨none, isNone⟩
    · exact ⟨_, isFirst⟩
  · intro lineNumber builder
    obtain ⟨updated, tokens, isUpdated, updatedConsistent, behind⟩ :=
      updateTokensUntilLine_spec lineNumber consistent builder
    refine ⟨updated, tokens, isUpdated, ?_⟩
    intro first isFirst
    unfold TrackingTokenizationStateStore.getFirstInvalidEndStateLineNumber at isFirst
    obtain ⟨min, isMin, rfl⟩ := Option.map_eq_some_iff.mp isFirst
    have covered := (separated_queueMin updatedConsistent.separated isMin).1
    have isBehind := behind min covered
    omega
  · intro allValid l positive bound
    apply correct l positive bound
    intro first isFirst
    unfold TrackingTokenizationStateStore.allStatesValid at allValid
    unfold TrackingTokenizationStateStore.getFirstInvalidEndStateLineNumber at isFirst
    rw [Option.isNone_iff_eq_none.mp allValid] at isFirst
    cases isFirst
  · intro changes batch
    obtain ⟨updated, isUpdated, _⟩ := acceptChanges_spec consistent document batch
    exact ⟨updated, isUpdated⟩
  · intro range positive bound marks
    obtain ⟨updated, isUpdated, _⟩ :=
      invalidateEndStateRange_spec consistent positive bound marks
    exact ⟨updated, isUpdated⟩

/-! ## A run -/

/-- A tokenizer that every `*` takes into a comment or out of it. -/
def commentTokenizer : LineTokenizer Bool Nat where
  initialState := false
  tokenize text inComment :=
    (text.length, text.foldl (fun inComment unit => xor inComment (unit == 42)) inComment)

def commentLines : List Text := [[42, 97], [42]]

/-- A line is inserted in the second one, then a `*` deleted in the first one. -/
def commentChanges : List ModelContentChange :=
  [⟨⟨2, 1, 2, 1⟩, [97, LF]⟩, ⟨⟨1, 1, 1, 2⟩, []⟩]

/-- The store of the changed lines, with the first one tokenized again. -/
def commentStore : TrackingTokenizationStateStore Bool :=
  ⟨3, ⟨⟨none, [none, some false, none, some false]⟩⟩, [⟨2, 4, by decide⟩]⟩

theorem updateTokensUntilLine_commentLines :
    commentTokenizer.updateTokensUntilLine commentLines 2
        ⟨2, ⟨⟨none, []⟩⟩, [⟨1, 3, by decide⟩]⟩ [] =
      some (⟨2, ⟨⟨none, [none, some true, some false]⟩⟩, []⟩, [(1, 2), (2, 1)]) := by
  have isDone : commentTokenizer.updateTokensUntilLine commentLines 2
      ⟨2, ⟨⟨none, [none, some true, some false]⟩⟩, []⟩ [(1, 2), (2, 1)] =
        some (⟨2, ⟨⟨none, [none, some true, some false]⟩⟩, []⟩, [(1, 2), (2, 1)]) := by
    rw [LineTokenizer.updateTokensUntilLine]
    rfl
  have second : commentTokenizer.updateTokensUntilLine commentLines 2
      ⟨2, ⟨⟨none, [none, some true]⟩⟩, [⟨2, 3, by decide⟩]⟩ [(1, 2)] =
        some (⟨2, ⟨⟨none, [none, some true, some false]⟩⟩, []⟩, [(1, 2), (2, 1)]) := by
    rw [LineTokenizer.updateTokensUntilLine]
    exact isDone
  rw [LineTokenizer.updateTokensUntilLine]
  exact second

theorem updateTokensUntilLine_commentStore :
    commentTokenizer.updateTokensUntilLine (applyChanges commentLines commentChanges) 1
        ⟨3, ⟨⟨none, [none, some true, none, some false]⟩⟩, [⟨1, 4, by decide⟩]⟩ [] =
      some (commentStore, [(1, 1)]) := by
  have isDone : commentTokenizer.updateTokensUntilLine (applyChanges commentLines commentChanges) 1
      commentStore [(1, 1)] = some (commentStore, [(1, 1)]) := by
    rw [LineTokenizer.updateTokensUntilLine]
    rfl
  rw [LineTokenizer.updateTokensUntilLine]
  exact isDone

/-- The lines are tokenized and changed; then the empty range in front of them is invalidated,
which touches invalid lines, and the first line is tokenized. -/
theorem reaches_commentStore :
    Reaches commentTokenizer MarksLines (applyChanges commentLines commentChanges) commentStore :=
  have fresh : Reaches commentTokenizer MarksLines commentLines
      ⟨2, ⟨⟨none, []⟩⟩, [⟨1, 3, by decide⟩]⟩ := .start ⟨by decide, by decide⟩ rfl
  have tokenized := fresh.updateTokensUntilLine updateTokensUntilLine_commentLines
  have changed : Reaches commentTokenizer MarksLines (applyChanges commentLines commentChanges)
      ⟨3, ⟨⟨none, [none, some true, none, some false]⟩⟩, [⟨1, 4, by decide⟩]⟩ :=
    tokenized.acceptChanges ⟨by decide, by simp [commentChanges, EndsBefore]⟩ rfl
  have invalidated : Reaches commentTokenizer MarksLines (applyChanges commentLines commentChanges)
      ⟨3, ⟨⟨none, [none, some true, none, some false]⟩⟩, [⟨1, 4, by decide⟩]⟩ :=
    changed.invalidateEndStateRange le_rfl (by decide)
      (show MarksLines _ ⟨1, 1, le_rfl⟩ from .inr ⟨_, .head _, by decide, by decide⟩) rfl
  invalidated.updateTokensUntilLine updateTokensUntilLine_commentStore

theorem incremental_tokenization_commentStore :
    commentStore.getEndState 1 =
      some (stateAfter commentTokenizer (applyChanges commentLines commentChanges) 1) := by
  apply (incremental_tokenization reaches_commentStore).2.1 1 le_rfl (by decide)
  intro first isFirst
  cases isFirst
  decide

/-! ## An empty range -/

/-- A tokenizer without states. -/
def unitTokenizer : LineTokenizer Unit Unit where
  initialState := ()
  tokenize _ _ := ((), ())

/-- The store of one line that is tokenized, with an empty range in the queue. -/
def stuckStore : TrackingTokenizationStateStore Unit where
  lineCount := 1
  tokenizationStateStore := ⟨⟨none, [none, some ()]⟩⟩
  invalidEndStatesLineNumbers := [⟨1, 1, le_rfl⟩]

/-- Tokenizing the line again leaves the store as it is. -/
theorem updateTokensUntilLine_stuckStore (builder : List (Nat × Unit)) :
    unitTokenizer.updateTokensUntilLine [[]] 1 stuckStore builder = none := by
  rw [Option.eq_none_iff_forall_not_mem]
  intro result returned
  apply LineTokenizer.updateTokensUntilLine.partial_correctness unitTokenizer [[]] 1
    (fun store _ _ => store ≠ stuckStore) _ stuckStore builder result returned rfl
  intro next ih store builder result returned isStuck
  subst isStuck
  exact ih stuckStore (builder ++ [(1, ())]) result returned rfl

/-- The store of one line that is not tokenized yet. -/
def freshStore : TrackingTokenizationStateStore Unit where
  lineCount := 1
  tokenizationStateStore := ⟨⟨none, []⟩⟩
  invalidEndStatesLineNumbers := [⟨1, 2, by decide⟩]

theorem reaches_freshStore (allowed : TrackingTokenizationStateStore Unit → LineRange → Prop) :
    Reaches unitTokenizer allowed [[]] freshStore :=
  .start ⟨by decide, by decide⟩ rfl

/-- Once the line is tokenized, an empty range is put into the queue. -/
theorem empty_range_hangs :
    Reaches unitTokenizer (fun _ _ => True) [[]] stuckStore ∧
      unitTokenizer.updateTokensUntilLine [[]] 1 stuckStore [] = none := by
  constructor
  · have isDone : unitTokenizer.updateTokensUntilLine [[]] 1
        ⟨1, ⟨⟨none, [none, some ()]⟩⟩, []⟩ [(1, ())] =
          some (⟨1, ⟨⟨none, [none, some ()]⟩⟩, []⟩, [(1, ())]) := by
      rw [LineTokenizer.updateTokensUntilLine]
      rfl
    have isTokenized : unitTokenizer.updateTokensUntilLine [[]] 1 freshStore [] =
        some (⟨1, ⟨⟨none, [none, some ()]⟩⟩, []⟩, [(1, ())]) := by
      rw [LineTokenizer.updateTokensUntilLine]
      exact isDone
    have tokenized := (reaches_freshStore fun _ _ => True).updateTokensUntilLine isTokenized
    have invalidated : TrackingTokenizationStateStore.invalidateEndStateRange
        (⟨1, ⟨⟨none, [none, some ()]⟩⟩, []⟩ : TrackingTokenizationStateStore Unit)
        ⟨1, 1, le_rfl⟩ = some stuckStore := rfl
    exact tokenized.invalidateEndStateRange le_rfl (by decide) trivial invalidated
  · exact updateTokensUntilLine_stuckStore []

end CodeEditor.Tokens
