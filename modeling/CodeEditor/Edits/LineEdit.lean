import CodeEditor.Edits.OffsetEdit
import CodeEditor.Foundation.Arrays
import CodeEditor.Foundation.JoinedLines

/-!
# Line edits

Model of `PositionOffsetTransformer` (`positionToOffset.ts`), of the parts of `TextEdit`
(`textEdit.ts`) that line edits use, and of `LineEdit` (`lineEdit.ts`). Throws, and
numbers of lines that are not there, give `none`.
-/

namespace CodeEditor.Edits

/-! ## Positions and offsets -/

structure Position where
  lineNumber : Nat
  column : Nat
  deriving DecidableEq

structure Range where
  startLineNumber : Nat
  startColumn : Nat
  endLineNumber : Nat
  endColumn : Nat
  deriving DecidableEq

namespace Range

/-- The constructor puts the smaller position first. -/
def new (startLineNumber startColumn endLineNumber endColumn : Nat) : Range :=
  if startLineNumber > endLineNumber ∨
      startLineNumber = endLineNumber ∧ startColumn > endColumn then
    ⟨endLineNumber, endColumn, startLineNumber, startColumn⟩
  else ⟨startLineNumber, startColumn, endLineNumber, endColumn⟩

def fromPositions (start stop : Position) : Range :=
  new start.lineNumber start.column stop.lineNumber stop.column

def getStartPosition (range : Range) : Position := ⟨range.startLineNumber, range.startColumn⟩

def getEndPosition (range : Range) : Position := ⟨range.endLineNumber, range.endColumn⟩

def isEmpty (range : Range) : Bool :=
  range.startLineNumber = range.endLineNumber ∧ range.startColumn = range.endColumn

end Range

structure TextLength where
  lineCount : Nat
  columnCount : Nat

def TextLength.addToPosition (length : TextLength) (position : Position) : Position :=
  if length.lineCount = 0 then ⟨position.lineNumber, position.column + length.columnCount⟩
  else ⟨position.lineNumber + length.lineCount, length.columnCount + 1⟩

structure PositionOffsetTransformer where
  text : Text
  lineStartOffsetByLineIdx : List Nat
  lineEndOffsetByLineIdx : List Nat

namespace PositionOffsetTransformer

/-- The loop of the constructor: the line starts behind line feeds, and the line ends. -/
def scan : (rest : Text) → (i : Nat) → (previous : Option CodeUnit) → List Nat × List Nat
  | [], i, _ => ([], [i])
  | unit :: rest, i, previous =>
    let (starts, ends) := scan rest (i + 1) (some unit)
    if unit = LF then
      ((i + 1) :: starts, (if previous = some CR then i - 1 else i) :: ends)
    else (starts, ends)

def new (text : Text) : PositionOffsetTransformer where
  text
  lineStartOffsetByLineIdx := 0 :: (scan text 0 none).1
  lineEndOffsetByLineIdx := (scan text 0 none).2

/-- The element of an array for a line number. -/
def ofLine (array : List Nat) (lineNumber : Nat) : Option Nat :=
  if lineNumber = 0 then none else array[lineNumber - 1]?

def getOffset (t : PositionOffsetTransformer) (position : Position) : Option Nat := do
  let start ← ofLine t.lineStartOffsetByLineIdx position.lineNumber
  some (start + position.column - 1)

def getOffsetRange (t : PositionOffsetTransformer) (range : Range) : Option OffsetRange := do
  let start ← t.getOffset range.getStartPosition
  let endExclusive ← t.getOffset range.getEndPosition
  OffsetRange.new start endExclusive

def getPosition (t : PositionOffsetTransformer) (offset : Int) : Option Position := do
  let idx := findLastIdxMonotonous t.lineStartOffsetByLineIdx fun i => (i : Int) ≤ offset
  let lineNumber := idx + 1
  let start ← ofLine t.lineStartOffsetByLineIdx lineNumber.toNat
  let column := offset - start + 1
  some ⟨lineNumber.toNat, column.toNat⟩

def getRange (t : PositionOffsetTransformer) (offsetRange : OffsetRange) : Option Range := do
  let start ← t.getPosition offsetRange.start
  let stop ← t.getPosition offsetRange.endExclusive
  some (Range.fromPositions start stop)

def textLength (t : PositionOffsetTransformer) : TextLength :=
  let lineIdx := t.lineStartOffsetByLineIdx.length - 1
  ⟨lineIdx, t.text.length - t.lineStartOffsetByLineIdx.getD lineIdx 0⟩

def getLineLength (t : PositionOffsetTransformer) (lineNumber : Nat) : Option Nat := do
  let stop ← ofLine t.lineEndOffsetByLineIdx lineNumber
  let start ← ofLine t.lineStartOffsetByLineIdx lineNumber
  some (stop - start)

end PositionOffsetTransformer

open PositionOffsetTransformer (new)

/-- `new StringText(value).getValueOfRange(range)`. -/
def getValueOfRange (value : Text) (range : Range) : Option Text := do
  let offsets ← (new value).getOffsetRange range
  some (substringBetween value offsets.start offsets.endExclusive)

/-! ## Text edits -/

structure SingleTextEdit where
  range : Range
  text : Text
  deriving DecidableEq

def Position.isBefore (a b : Position) : Bool :=
  if a.lineNumber < b.lineNumber then true
  else if b.lineNumber < a.lineNumber then false
  else a.column < b.column

def Position.isBeforeOrEqual (a b : Position) : Bool :=
  if a.lineNumber < b.lineNumber then true
  else if b.lineNumber < a.lineNumber then false
  else a.column ≤ b.column

namespace TextEdit

/-- The constructor. Edits that are out of order are only reported by `assertFn`, and the
program goes on with them; the model stops with `none`. -/
def new (edits : List SingleTextEdit) : Option (List SingleTextEdit) :=
  if checkAdjacentItems
      (fun a b => a.range.getEndPosition.isBeforeOrEqual b.range.getStartPosition) edits then
    some edits
  else none

def fromOffsetEdit (edit : OffsetEdit) (initialState : Text) :
    Option (List SingleTextEdit) := do
  let edits ← edit.edits.mapM fun e => do
    let range ← (PositionOffsetTransformer.new initialState).getRange e.replaceRange
    some (⟨range, e.newText⟩ : SingleTextEdit)
  new edits

end TextEdit

/-- The loop of `joinEdits`: the new texts with the texts between the edits. -/
def joinTexts (initialValue : Text) : List SingleTextEdit → Option Text
  | [] => some []
  | [edit] => some edit.text
  | curEdit :: nextEdit :: edits => do
      let gapText ← getValueOfRange initialValue
        (Range.fromPositions curEdit.range.getEndPosition nextEdit.range.getStartPosition)
      let rest ← joinTexts initialValue (nextEdit :: edits)
      some (curEdit.text ++ gapText ++ rest)

def SingleTextEdit.joinEdits (edits : List SingleTextEdit) (initialValue : Text) :
    Option SingleTextEdit :=
  match edits with
  | [] => none
  | [edit] => some edit
  | first :: second :: rest => do
      let endPos := ((second :: rest).getLastD first).range.getEndPosition
      let newText ← joinTexts initialValue (first :: second :: rest)
      some ⟨Range.fromPositions first.range.getStartPosition endPos, newText⟩

/-! ## Line edits -/

structure LineRange where
  startLineNumber : Nat
  endLineNumberExclusive : Nat
  ordered : startLineNumber ≤ endLineNumberExclusive
  deriving DecidableEq

/-- The constructor. -/
def LineRange.new (startLineNumber endLineNumberExclusive : Nat) : Option LineRange :=
  if ordered : startLineNumber ≤ endLineNumberExclusive then
    some ⟨startLineNumber, endLineNumberExclusive, ordered⟩
  else none

def LineRange.isEmpty (range : LineRange) : Bool :=
  range.startLineNumber = range.endLineNumberExclusive

structure SingleLineEdit where
  lineRange : LineRange
  newLines : List Text
  deriving DecidableEq

namespace SingleLineEdit

/-- The last steps of `fromSingleTextEdit`: lines of which the replacement would not delete
any text are left out. -/
def trim (startBeforeNewLine endAfterNewLine : Bool)
    (survivingFirstLineText survivingEndLineText : Text)
    (startLineNumber endLineNumberEx : Nat) (newLines : List Text) : Option SingleLineEdit := do
  let shifts := startBeforeNewLine &&
    (newLines.headD []).length = survivingFirstLineText.length
  let startLineNumber := if shifts then startLineNumber + 1 else startLineNumber
  let newLines := if shifts then newLines.tail else newLines
  let pops := newLines.length > 0 && startLineNumber < endLineNumberEx && endAfterNewLine &&
    (newLines.getLastD []).length = survivingEndLineText.length
  let endLineNumberEx := if pops then endLineNumberEx - 1 else endLineNumberEx
  let newLines := if pops then newLines.dropLast else newLines
  let lineRange ← LineRange.new startLineNumber endLineNumberEx
  some ⟨lineRange, newLines⟩

def fromSingleTextEdit (edit : SingleTextEdit) (initialValue : Text) :
    Option SingleLineEdit := do
  let transformer := new initialValue
  let newLines := splitLines edit.text
  let startLineNumber := edit.range.startLineNumber
  let survivingFirstLineText ← getValueOfRange initialValue
    (Range.fromPositions ⟨edit.range.startLineNumber, 1⟩ edit.range.getStartPosition)
  let newLines := newLines.modifyHead (survivingFirstLineText ++ ·)
  let endLineNumberEx := edit.range.endLineNumber + 1
  let editEndLineNumberMaxColumn := (← transformer.getLineLength edit.range.endLineNumber) + 1
  let survivingEndLineText ← getValueOfRange initialValue
    (Range.fromPositions edit.range.getEndPosition
      ⟨edit.range.endLineNumber, editEndLineNumberMaxColumn⟩)
  let newLines := newLines.modify (newLines.length - 1) (· ++ survivingEndLineText)
  let startBeforeNewLine :=
    edit.range.startColumn = (← transformer.getLineLength edit.range.startLineNumber) + 1
  let endAfterNewLine := edit.range.endColumn = 1
  trim startBeforeNewLine endAfterNewLine survivingFirstLineText survivingEndLineText
    startLineNumber endLineNumberEx newLines

def toSingleTextEdit (e : SingleLineEdit) (initialValue : Text) : Option SingleTextEdit := do
  let transformer := new initialValue
  if e.newLines.length = 0 then
    let textLen := transformer.textLength
    if e.lineRange.endLineNumberExclusive = textLen.lineCount + 2 then
      let startPos ←
        if e.lineRange.startLineNumber > 1 then do
          let startLineNumber := e.lineRange.startLineNumber - 1
          let startColumn := (← transformer.getLineLength startLineNumber) + 1
          some (⟨startLineNumber, startColumn⟩ : Position)
        else some ⟨1, 1⟩
      let lastPosition := textLen.addToPosition ⟨1, 1⟩
      some ⟨Range.fromPositions startPos lastPosition, []⟩
    else
      some ⟨Range.new e.lineRange.startLineNumber 1 e.lineRange.endLineNumberExclusive 1, []⟩
  else if e.lineRange.isEmpty then
    let insertionLine := e.lineRange.startLineNumber
    if insertionLine = transformer.textLength.lineCount + 2 then
      let endLineNumber := insertionLine - 1
      let column := (← transformer.getLineLength endLineNumber) + 1
      let text := e.newLines.flatMap (LF :: ·)
      some ⟨Range.fromPositions ⟨endLineNumber, column⟩ ⟨endLineNumber, column⟩, text⟩
    else
      let text := e.newLines.flatMap (· ++ [LF])
      some ⟨Range.fromPositions ⟨insertionLine, 1⟩ ⟨insertionLine, 1⟩, text⟩
  else
    let endLineNumber := e.lineRange.endLineNumberExclusive - 1
    let endLineNumberMaxColumn := (← transformer.getLineLength endLineNumber) + 1
    let range := Range.new e.lineRange.startLineNumber 1 endLineNumber endLineNumberMaxColumn
    some ⟨range, joinLines e.newLines⟩

def toSingleEdit (e : SingleLineEdit) (initialValue : Text) : Option SingleOffsetEdit := do
  let textEdit ← e.toSingleTextEdit initialValue
  let range ← (new initialValue).getOffsetRange textEdit.range
  some ⟨range, textEdit.text⟩

end SingleLineEdit

/-- The edits are sorted by line number and do not intersect. -/
def areSorted (edits : List SingleLineEdit) : Bool :=
  checkAdjacentItems
    (fun i1 i2 => i1.lineRange.endLineNumberExclusive ≤ i2.lineRange.startLineNumber) edits

structure LineEdit where
  edits : List SingleLineEdit
  sorted : areSorted edits = true
  deriving DecidableEq

namespace LineEdit

/-- The constructor. -/
def new (edits : List SingleLineEdit) : Option LineEdit :=
  if sorted : areSorted edits = true then some ⟨edits, sorted⟩ else none

/-- The loop of `fromTextEdit`: edits on one line are made into one. -/
def fromTextEditLoop (initialValue : Text) :
    (edits currentEdits : List SingleTextEdit) → Option (List SingleLineEdit)
  | [], _ => some []
  | edit :: edits, currentEdits => do
      let currentEdits := currentEdits ++ [edit]
      if edits.head?.any (·.range.startLineNumber = edit.range.endLineNumber) then
        fromTextEditLoop initialValue edits currentEdits
      else
        let singleEdit ← SingleTextEdit.joinEdits currentEdits initialValue
        let singleLineEdit ← SingleLineEdit.fromSingleTextEdit singleEdit initialValue
        let result ← fromTextEditLoop initialValue edits []
        some (singleLineEdit :: result)

def fromTextEdit (edits : List SingleTextEdit) (initialValue : Text) : Option LineEdit := do
  new (← fromTextEditLoop initialValue edits [])

def fromEdit (edit : OffsetEdit) (initialValue : Text) : Option LineEdit := do
  let textEdit ← TextEdit.fromOffsetEdit edit initialValue
  fromTextEdit textEdit initialValue

def toEdit (e : LineEdit) (initialValue : Text) : Option OffsetEdit := do
  OffsetEdit.new (← e.edits.mapM (·.toSingleEdit initialValue))

/-- The lines from one index up to another; a missing line is pushed as `undefined`, which
joins as the empty text. -/
def linesBetween (lines : List Text) (currentLineIndex stop : Nat) : List Text :=
  (List.range' currentLineIndex (stop - currentLineIndex)).map fun i => lines.getD i []

/-- The loop of `apply`, with the lines so far. -/
def applyLoop (lines : List Text) :
    List SingleLineEdit → (result : List Text) → (currentLineIndex : Nat) → List Text
  | [], result, currentLineIndex =>
    result ++ linesBetween lines currentLineIndex lines.length
  | edit :: edits, result, currentLineIndex =>
    applyLoop lines edits
      (result ++ linesBetween lines currentLineIndex (edit.lineRange.startLineNumber - 1) ++
        edit.newLines)
      (edit.lineRange.endLineNumberExclusive - 1)

def apply (e : LineEdit) (lines : List Text) : List Text := applyLoop lines e.edits [] 0

end LineEdit

end CodeEditor.Edits
