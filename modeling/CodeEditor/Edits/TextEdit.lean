import CodeEditor.Edits.LineEdit
import CodeEditor.Foundation.Surrogates

/-!
# Text edits

Model of `TextEdit` (`textEdit.ts`) with `TextLength.ofText` (`textLength.ts`). Throws give
`none`.
-/

namespace CodeEditor.Edits

def MAX_SAFE_INTEGER : Nat := 2 ^ 53 - 1

/-! ## Lengths of texts -/

/-- The code points of a string, as `for (const c of text)` lists them. -/
def codePoints : Text → List Text
  | [] => []
  | [unit] => [[unit]]
  | unit :: next :: text =>
    if isHighSurrogate unit ∧ isLowSurrogate next then [unit, next] :: codePoints text
    else [unit] :: codePoints (next :: text)

namespace TextLength

/-- The body of the loop of `ofText`. -/
def countCodePoint (length : TextLength) (c : Text) : TextLength :=
  if c = [LF] then ⟨length.lineCount + 1, 0⟩ else ⟨length.lineCount, length.columnCount + 1⟩

def ofText (text : Text) : TextLength := (codePoints text).foldl countCodePoint ⟨0, 0⟩

def createRange (length : TextLength) (startPosition : Position) : Range :=
  if length.lineCount = 0 then
    Range.new startPosition.lineNumber startPosition.column startPosition.lineNumber
      (startPosition.column + length.columnCount)
  else
    Range.new startPosition.lineNumber startPosition.column
      (startPosition.lineNumber + length.lineCount) (length.columnCount + 1)

end TextLength

def rangeFromPositions (start stop : Position) : Option Range :=
  if start.lineNumber = stop.lineNumber ∧ start.column = MAX_SAFE_INTEGER then
    some (Range.fromPositions stop stop)
  else if !start.isBeforeOrEqual stop then none
  else some (Range.new start.lineNumber start.column stop.lineNumber stop.column)

/-- `endPositionExclusive` of the text of a string. -/
def endPositionExclusive (text : Text) : Position :=
  (PositionOffsetTransformer.new text).textLength.addToPosition ⟨1, 1⟩

/-- The text between two positions, when there is some. -/
def valueBetween (text : Text) (start stop : Position) : Option Text := do
  let r ← rangeFromPositions start stop
  if r.isEmpty then some [] else getValueOfRange text r

namespace TextEdit

/-- The loop of `apply` behind the edit that ends at `lastEditEnd`. -/
def applyFrom (text : Text) : (edits : List SingleTextEdit) → (lastEditEnd : Position) →
    Option Text
  | [], lastEditEnd => valueBetween text lastEditEnd (endPositionExclusive text)
  | edit :: edits, lastEditEnd => do
      let before ← valueBetween text lastEditEnd edit.range.getStartPosition
      let result ← applyFrom text edits edit.range.getEndPosition
      some (before ++ edit.text ++ result)

def apply (edits : List SingleTextEdit) (text : Text) : Option Text :=
  applyFrom text edits ⟨1, 1⟩

/-- The loop of `getNewRanges`. -/
def newRangesFrom : (edits : List SingleTextEdit) → (previousEditEndLineNumber : Nat) →
    (lineOffset columnOffset : Int) → List Range
  | [], _, _, _ => []
  | edit :: edits, previousEditEndLineNumber, lineOffset, columnOffset =>
    let textLength := TextLength.ofText edit.text
    let lineNumber := edit.range.startLineNumber + lineOffset
    let column := edit.range.startColumn +
      if edit.range.startLineNumber = previousEditEndLineNumber then columnOffset else 0
    let newRange := textLength.createRange ⟨lineNumber.toNat, column.toNat⟩
    newRange :: newRangesFrom edits edit.range.endLineNumber
      (newRange.endLineNumber - edit.range.endLineNumber)
      (newRange.endColumn - edit.range.endColumn)

def getNewRanges (edits : List SingleTextEdit) : List Range := newRangesFrom edits 0 0 0

def inverse (edits : List SingleTextEdit) (doc : Text) : Option (List SingleTextEdit) := do
  let olds ← edits.mapM fun e => getValueOfRange doc e.range
  new ((getNewRanges edits).zipWith SingleTextEdit.mk olds)

end TextEdit

/-! ## Mapped positions -/

/-- A position as `mapPosition` computes it; its numbers can be too small. -/
structure MappedPosition where
  lineNumber : Int
  column : Int
  deriving DecidableEq

/-- What `mapPosition` returns. -/
inductive Mapped where
  | position (position : MappedPosition)
  | range (start stop : MappedPosition)
  deriving DecidableEq

def TextLength.addToMapped (length : TextLength) (position : MappedPosition) :
    MappedPosition :=
  if length.lineCount = 0 then ⟨position.lineNumber, position.column + length.columnCount⟩
  else ⟨position.lineNumber + length.lineCount, length.columnCount + 1⟩

/-- A position moved by the deltas; the one of the columns counts in the current line only. -/
def Position.moved (position : Position) (lineDelta curLine columnDeltaInCurLine : Int) :
    MappedPosition where
  lineNumber := position.lineNumber + lineDelta
  column := position.column +
    if position.lineNumber + lineDelta = curLine then columnDeltaInCurLine else 0

/-- `rangeFromPositions` of a moved position and one behind it. -/
def Mapped.fromPositions (start stop : MappedPosition) : Mapped :=
  if start.lineNumber = stop.lineNumber ∧ start.column = MAX_SAFE_INTEGER then .range stop stop
  else .range start stop

/-- The column delta behind an edit. -/
def SingleTextEdit.columnDelta (edit : SingleTextEdit) (columnDeltaInCurLine : Int) : Int :=
  let start := edit.range.getStartPosition
  let stop := edit.range.getEndPosition
  let len := TextLength.ofText edit.text
  if len.lineCount = 0 then
    if stop.lineNumber ≠ start.lineNumber then
      columnDeltaInCurLine + (len.columnCount - (stop.column - 1 : Int))
    else columnDeltaInCurLine + (len.columnCount - (stop.column - start.column : Int))
  else len.columnCount

namespace TextEdit

/-- The loop of `mapPosition`. -/
def mapPositionFrom (position : Position) : (edits : List SingleTextEdit) →
    (lineDelta curLine columnDeltaInCurLine : Int) → Mapped
  | [], lineDelta, curLine, columnDeltaInCurLine =>
    .position (position.moved lineDelta curLine columnDeltaInCurLine)
  | edit :: edits, lineDelta, curLine, columnDeltaInCurLine =>
    let start := edit.range.getStartPosition
    if position.isBeforeOrEqual start then
      .position (position.moved lineDelta curLine columnDeltaInCurLine)
    else
      let stop := edit.range.getEndPosition
      let len := TextLength.ofText edit.text
      if position.isBefore stop then
        let startPos := start.moved lineDelta curLine columnDeltaInCurLine
        Mapped.fromPositions startPos (len.addToMapped startPos)
      else
        let columnDeltaInCurLine :=
          if start.lineNumber + lineDelta ≠ curLine then 0 else columnDeltaInCurLine
        let lineDelta := lineDelta +
          (len.lineCount - (edit.range.endLineNumber - edit.range.startLineNumber : Int))
        mapPositionFrom position edits lineDelta (stop.lineNumber + lineDelta)
          (edit.columnDelta columnDeltaInCurLine)

def mapPosition (edits : List SingleTextEdit) (position : Position) : Mapped :=
  mapPositionFrom position edits 0 0 0

end TextEdit

end CodeEditor.Edits
