import CodeEditor.MergeEditor.Mapping
import CodeEditor.Foundation.JoinedLines

/-!
# The diffs of the result document

Model of `TextModelDiffs` (`textModelDiffs.ts`) and of `LineRangeEdit` (`editing.ts`). A
text model is the list of its lines. A diff object has a `ref` for its identity, which
`addOutputLineDelta` renews; its inner range mappings are carried along unread and left
out. Recomputing the diffs is shut out by the barrier while an edit is pushed.
-/

namespace CodeEditor.MergeEditor

open List

/-! ## Editing a text model -/

/-- A column; `Number.MAX_SAFE_INTEGER` lies behind the end of every line. -/
inductive Column
  | at (column : Nat)
  | maxSafeInteger
  deriving DecidableEq

structure EditOperation where
  startLineNumber : Int
  startColumn : Column
  endLineNumber : Int
  endColumn : Column
  text : Text
  deriving DecidableEq

/-- How many code units of a line are in front of a column, once it is validated. -/
def columnOffset (line : Text) : Column → Nat
  | .at column => min (column - 1) line.length
  | .maxSafeInteger => line.length

/-- The line number and the number of code units in front of a validated position. -/
def validatePosition (lines : List Text) (lineNumber : Int) (column : Column) : Nat × Nat :=
  if lineNumber < 1 then (1, 0)
  else if lineNumber > lines.length then
    (lines.length, columnOffset (lines.getD (lines.length - 1) []) .maxSafeInteger)
  else (lineNumber.toNat, columnOffset (lines.getD (lineNumber.toNat - 1) []) column)

/-- The text in front of a position. -/
def textBefore (lines : List Text) : Nat × Nat → Text
  | (lineNumber, offset) =>
    joinLines (lines.take (lineNumber - 1) ++ [(lines.getD (lineNumber - 1) []).take offset])

/-- The text behind a position. -/
def textBehind (lines : List Text) : Nat × Nat → Text
  | (lineNumber, offset) =>
    joinLines ((lines.getD (lineNumber - 1) []).drop offset :: lines.drop lineNumber)

/-- `pushEditOperations` for one operation: the lines of the document after it. -/
def pushEditOperation (lines : List Text) (edit : EditOperation) : List Text :=
  splitLines (textBefore lines (validatePosition lines edit.startLineNumber edit.startColumn) ++
    edit.text ++ textBehind lines (validatePosition lines edit.endLineNumber edit.endColumn))

/-- Delete the lines of a range and insert new lines in front of it. -/
structure LineRangeEdit where
  range : LineRange
  newLines : List Text

def LineRangeEdit.toEdit (e : LineRangeEdit) (modelLineCount : Int) : EditOperation :=
  if e.range.endLineNumberExclusive ≤ modelLineCount then
    { startLineNumber := e.range.startLineNumber
      startColumn := .at 1
      endLineNumber := e.range.endLineNumberExclusive
      endColumn := .at 1
      text := e.newLines.flatMap (· ++ [LF]) }
  else if e.range.startLineNumber = 1 then
    { startLineNumber := 1
      startColumn := .at 1
      endLineNumber := modelLineCount
      endColumn := .maxSafeInteger
      text := joinLines e.newLines }
  else
    { startLineNumber := e.range.startLineNumber - 1
      startColumn := .maxSafeInteger
      endLineNumber := modelLineCount
      endColumn := .maxSafeInteger
      text := e.newLines.flatMap (LF :: ·) }

/-- `range.getLines(model)`; `getLineContent` throws outside of the document. -/
def getLines (lines : List Text) (range : LineRange) : Option (List Text) :=
  if range.lineCount = 0 ∨
      1 ≤ range.startLineNumber ∧ range.endLineNumberExclusive ≤ lines.length + 1 then
    some ((lines.drop (range.startLineNumber - 1).toNat).take range.lineCount.toNat)
  else none

/-! ## The diffs -/

structure DetailedLineRangeMapping extends LineRangeMapping where
  ref : Nat
  deriving DecidableEq

/-- A new object with a shifted output range. -/
def DetailedLineRangeMapping.addOutputLineDelta (d : DetailedLineRangeMapping) (delta : Int)
    (ref : Nat) : DetailedLineRangeMapping :=
  { d with outputRange := d.outputRange.delta delta, ref }

inductive TextModelDiffState
  | initializing
  | upToDate
  | updating
  | error
  deriving DecidableEq

structure TextModelDiffs where
  /-- The lines of `baseTextModel`. -/
  base : List Text
  /-- The lines of `textModel`. -/
  lines : List Text
  state : TextModelDiffState
  diffs : List DetailedLineRangeMapping
  nextRef : Nat
  deriving DecidableEq

/-- `diffs.map(d => … ? d.addOutputLineDelta(delta) : d)`. -/
def shiftAfter (removed : LineRange) (delta : Int) :
    List DetailedLineRangeMapping → (nextRef : Nat) → List DetailedLineRangeMapping × Nat
  | [], nextRef => ([], nextRef)
  | d :: diffs, nextRef =>
    if removed.isBefore d.outputRange then
      let (shifted, next) := shiftAfter removed delta diffs (nextRef + 1)
      (d.addOutputLineDelta delta nextRef :: shifted, next)
    else
      let (shifted, next) := shiftAfter removed delta diffs nextRef
      (d :: shifted, next)

namespace TextModelDiffs

/-- One turn of the loop of `removeDiffs`. -/
def removeDiff (t : TextModelDiffs) (diffToRemove : DetailedLineRangeMapping) :
    Option TextModelDiffs := do
  let diffs := t.diffs.filter (·.ref ≠ diffToRemove.ref)
  if t.diffs.length = diffs.length then none
  else
    let inputLines ← getLines t.base diffToRemove.inputRange
    let edit : LineRangeEdit := ⟨diffToRemove.outputRange, inputLines⟩
    let lines := pushEditOperation t.lines (edit.toEdit t.lines.length)
    let (diffs, nextRef) := shiftAfter diffToRemove.outputRange
      (diffToRemove.inputRange.lineCount - diffToRemove.outputRange.lineCount) diffs t.nextRef
    some { t with lines, diffs, nextRef }

def removeDiffs (t : TextModelDiffs) (diffToRemoves : List DetailedLineRangeMapping) :
    Option TextModelDiffs :=
  if t.state ≠ .upToDate then none
  else
    let sorted := diffToRemoves.mergeSort fun a b =>
      a.inputRange.startLineNumber ≤ b.inputRange.startLineNumber
    sorted.reverse.foldlM removeDiff t

/-- The mapping of an edit, with a fresh identity. -/
def editMapping (edit : LineRangeEdit) (delta : Int) (ref : Nat) : DetailedLineRangeMapping where
  inputRange := edit.range
  outputRange :=
    ⟨edit.range.startLineNumber + delta, edit.newLines.length, Int.natCast_nonneg _⟩
  ref

/-- The loop of `applyEditRelativeToOriginal`: the new diffs, whether a diff behind the edit
was seen, the delta in front of the edit, and the next identity. -/
def applyLoop (edit : LineRangeEdit) : List DetailedLineRangeMapping → (firstAfter : Bool) →
    (delta : Int) → (nextRef : Nat) →
    Option (List DetailedLineRangeMapping × Bool × Int × Nat)
  | [], firstAfter, delta, nextRef => some ([], firstAfter, delta, nextRef)
  | diff :: diffs, firstAfter, delta, nextRef =>
    if diff.inputRange.touches edit.range then none
    else if edit.range.isBefore diff.inputRange then do
      let first := if firstAfter then [] else [editMapping edit delta nextRef]
      let nextRef := if firstAfter then nextRef else nextRef + 1
      let shifted := diff.addOutputLineDelta (edit.newLines.length - edit.range.lineCount)
        nextRef
      let (newDiffs, firstAfter, delta, nextRef) ← applyLoop edit diffs true delta (nextRef + 1)
      some (first ++ shifted :: newDiffs, firstAfter, delta, nextRef)
    else do
      let delta := if firstAfter then delta
        else delta + (diff.outputRange.lineCount - diff.inputRange.lineCount)
      let (newDiffs, firstAfter, delta, nextRef) ← applyLoop edit diffs firstAfter delta nextRef
      some (diff :: newDiffs, firstAfter, delta, nextRef)

def applyEditRelativeToOriginal (t : TextModelDiffs) (edit : LineRangeEdit) :
    Option TextModelDiffs := do
  if t.state ≠ .upToDate then none
  else
    let (newDiffs, firstAfter, delta, nextRef) ← applyLoop edit t.diffs false 0 t.nextRef
    let last := if firstAfter then [] else [editMapping edit delta nextRef]
    let nextRef := if firstAfter then nextRef else nextRef + 1
    let moved : LineRangeEdit := ⟨edit.range.delta delta, edit.newLines⟩
    let lines := pushEditOperation t.lines (moved.toEdit t.lines.length)
    some { t with lines, diffs := newDiffs ++ last, nextRef }

end TextModelDiffs

/-!
## What a line range edit does to the lines

The three forms of a line range edit as an edit of a text model all put the new lines in
the place of the old ones, as long as a line is left.
-/

theorem validatePosition_eq {lines : List Text} {lineNumber : Nat} (column : Column)
    (first : 1 ≤ lineNumber) (last : lineNumber ≤ lines.length) :
    validatePosition lines lineNumber column =
      (lineNumber, columnOffset (lines.getD (lineNumber - 1) []) column) := by
  have notBefore : ¬((lineNumber : Int) < 1) := by omega
  have notBehind : ¬((lineNumber : Int) > lines.length) := by omega
  rw [validatePosition, if_neg notBefore, if_neg notBehind, Int.toNat_natCast]

theorem textBefore_lineStart (front rest : List Text) :
    textBefore (front ++ rest) (front.length + 1, 0) = front.flatMap (· ++ [LF]) := by
  have joined := @flatMap_append_joinLines front [[]] (by simp)
  rw [joinLines_singleton, append_nil] at joined
  simp [textBefore, joined]

theorem textBehind_lineStart (front : List Text) {rest : List Text} (nonempty : rest ≠ []) :
    textBehind (front ++ rest) (front.length + 1, 0) = joinLines rest := by
  cases rest with
  | nil => contradiction
  | cons line rest =>
    have dropped : (front ++ line :: rest).drop (front.length + 1) = rest := by
      rw [drop_length_add_append, drop_one, tail_cons]
    simp [textBehind, dropped]

theorem textBefore_lineEnd {front : List Text} (rest : List Text) (nonempty : front ≠ []) :
    textBefore (front ++ rest) (front.length,
      columnOffset ((front ++ rest).getD (front.length - 1) []) .maxSafeInteger) =
        joinLines front := by
  cases front using List.reverseRecOn with
  | nil => contradiction
  | append_singleton front line =>
    have last : (front ++ [line] ++ rest).getD ((front ++ [line]).length - 1) [] = line := by
      simp
    have before : (front ++ [line] ++ rest).take ((front ++ [line]).length - 1) = front := by
      simp
    rw [textBefore, last, before, columnOffset, take_length]

theorem textBehind_end {lines : List Text} : textBehind lines (lines.length,
      columnOffset (lines.getD (lines.length - 1) []) .maxSafeInteger) = [] := by
  simp [textBehind, columnOffset]

/-- The new lines stand in the place of the old ones. -/
theorem pushEditOperation_toEdit {front old back newLines : List Text} {edit : LineRangeEdit}
    (start : edit.range.startLineNumber = front.length + 1)
    (count : edit.range.lineCount = old.length) (isNew : edit.newLines = newLines)
    (plain : ∀ line ∈ front ++ (newLines ++ back), Plain line)
    (nonempty : front ++ (old ++ back) ≠ []) (stays : front ++ (newLines ++ back) ≠ []) :
    pushEditOperation (front ++ (old ++ back))
        (edit.toEdit (front ++ (old ++ back)).length) = front ++ (newLines ++ back) := by
  have positive := length_pos_of_ne_nil nonempty
  have stop : edit.range.endLineNumberExclusive = ((front ++ old).length + 1 : Nat) := by
    rw [LineRange.endLineNumberExclusive, start, count, length_append]
    omega
  have start' : edit.range.startLineNumber = (front.length + 1 : Nat) := by
    omega
  have total : (front ++ (old ++ back)).length = front.length + old.length + back.length := by
    simp only [length_append]
    omega
  rw [← splitLines_joinLines stays plain, pushEditOperation]
  congr 1
  by_cases atEnd : back = []
  · subst atEnd
    have behind : ¬(edit.range.endLineNumberExclusive ≤ ((front ++ (old ++ [])).length : Int)) := by
      rw [stop, total, length_append, length_nil]
      omega
    rw [LineRangeEdit.toEdit, if_neg behind]
    by_cases whole : front = []
    · subst whole
      have first : edit.range.startLineNumber = 1 := start
      have atStart : textBefore old (1, 0) = [] := textBefore_lineStart [] old
      rw [if_pos first]
      change textBefore _ (validatePosition _ ((1 : Nat) : Int) (.at 1)) ++ _ ++
        textBehind _ (validatePosition _ _ _) = _
      rw [validatePosition_eq _ (Nat.le_refl 1) positive,
        validatePosition_eq _ positive (Nat.le_refl _), textBehind_end, columnOffset,
        Nat.sub_self, Nat.zero_min]
      simp [atStart, isNew]
    · have notFirst : ¬(edit.range.startLineNumber = 1) := by
        have some := length_pos_of_ne_nil whole
        omega
      have previous : edit.range.startLineNumber - 1 = (front.length : Int) := by omega
      have some := length_pos_of_ne_nil whole
      rw [if_neg notFirst]
      rw [previous, validatePosition_eq _ some (by rw [total]; omega),
        validatePosition_eq _ positive (Nat.le_refl _), textBehind_end,
        textBefore_lineEnd _ whole, isNew, joinLines_append_flatMap whole]
      simp
  · have some := length_pos_of_ne_nil atEnd
    have inside : edit.range.endLineNumberExclusive ≤ ((front ++ (old ++ back)).length : Int) := by
      rw [stop, total, length_append]
      omega
    rw [LineRangeEdit.toEdit, if_pos inside]
    rw [start', stop, validatePosition_eq _ (by omega) (by omega),
      validatePosition_eq _ (by omega) (by rw [total, length_append]; omega)]
    simp only [columnOffset, Nat.sub_self, Nat.zero_min]
    rw [textBefore_lineStart, ← append_assoc front, textBehind_lineStart _ atEnd, isNew,
      append_assoc, flatMap_append_joinLines _ atEnd,
      flatMap_append_joinLines _ (by simp [atEnd])]

end CodeEditor.MergeEditor
