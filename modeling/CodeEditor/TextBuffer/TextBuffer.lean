import CodeEditor.EditStack.EditStackData
import CodeEditor.Foundation.EolCounter
import CodeEditor.PieceTree.Read

/-!
# The text buffer

Model of `PieceTreeTextBuffer` in `pieceTreeTextBuffer.ts`: edits by line and column on top
of the piece tree. A throw is `none`.
-/

namespace CodeEditor.TextBuffer

open PieceTree EditStack
open PieceTree.PieceTreeBase (Range)

/-! ## Strings -/

/-- A code unit that `isBasicASCII` lets pass: `\t`, `\n`, `\r` or one in 0x20..0x7E. -/
def isBasicUnit (unit : CodeUnit) : Bool :=
  unit = 9 || unit = LF || unit = CR || 32 ≤ unit && unit ≤ 126

def isBasicASCII (str : Text) : Bool := str.all isBasicUnit

/-- The ranges of single code units that `CONTAINS_RTL` tests. -/
def rtlRanges : List (CodeUnit × CodeUnit) :=
  [(0x05BE, 0x05BE), (0x05C0, 0x05C0), (0x05C3, 0x05C3), (0x05C6, 0x05C6), (0x05D0, 0x05F4),
    (0x0608, 0x0608), (0x060B, 0x060B), (0x060D, 0x060D), (0x061B, 0x064A), (0x066D, 0x066F),
    (0x0671, 0x06D5), (0x06E5, 0x06E6), (0x06EE, 0x06EF), (0x06FA, 0x0710), (0x0712, 0x072F),
    (0x074D, 0x07A5), (0x07B1, 0x07EA), (0x07F4, 0x07F5), (0x07FA, 0x07FA), (0x07FE, 0x0815),
    (0x081A, 0x081A), (0x0824, 0x0824), (0x0828, 0x0828), (0x0830, 0x0858), (0x085E, 0x088E),
    (0x08A0, 0x08C9), (0x200F, 0x200F), (0xFB1D, 0xFB1D), (0xFB1F, 0xFB28), (0xFB2A, 0xFD3D),
    (0xFD50, 0xFDC7), (0xFDF0, 0xFDFC), (0xFE70, 0xFEFC)]

/-- The surrogate pairs that `CONTAINS_RTL` tests: a first code unit and ranges of the
second one. -/
def rtlPairs : List (CodeUnit × List (CodeUnit × CodeUnit)) :=
  [(0xD802, [(0xDC00, 0xDD1B), (0xDD20, 0xDE00), (0xDE10, 0xDE35), (0xDE40, 0xDEE4),
      (0xDEEB, 0xDF35), (0xDF40, 0xDFFF)]),
    (0xD803, [(0xDC00, 0xDD23), (0xDE80, 0xDEA9), (0xDEAD, 0xDF45), (0xDF51, 0xDF81),
      (0xDF86, 0xDFF6)]),
    (0xD83A, [(0xDC00, 0xDCCF), (0xDD00, 0xDD43), (0xDD4B, 0xDFFF)]),
    (0xD83B, [(0xDC00, 0xDEBB)])]

def inRanges (ranges : List (CodeUnit × CodeUnit)) (unit : CodeUnit) : Bool :=
  ranges.any fun range => range.1 ≤ unit && unit ≤ range.2

def containsRTL : Text → Bool
  | [] => false
  | [unit] => inRanges rtlRanges unit
  | unit :: following :: rest =>
    inRanges rtlRanges unit ||
      rtlPairs.any (fun pair => pair.1 = unit && inRanges pair.2 following) ||
      containsRTL (following :: rest)

def containsUnusualLineTerminators (str : Text) : Bool :=
  str.any fun unit => unit = 0x2028 || unit = 0x2029

/-! ## Positions and ranges -/

def isBefore (a b : Position) : Bool :=
  if a.lineNumber < b.lineNumber then true
  else if b.lineNumber < a.lineNumber then false
  else a.column < b.column

def isBeforeOrEqual (a b : Position) : Bool :=
  if a.lineNumber < b.lineNumber then true
  else if b.lineNumber < a.lineNumber then false
  else a.column ≤ b.column

/-- The constructor of `Range` puts the smaller position first. -/
def newRange (startLineNumber startColumn endLineNumber endColumn : Int) : Range :=
  if startLineNumber > endLineNumber ∨
      startLineNumber = endLineNumber ∧ startColumn > endColumn then
    ⟨endLineNumber, endColumn, startLineNumber, startColumn⟩
  else ⟨startLineNumber, startColumn, endLineNumber, endColumn⟩

def getStartPosition (range : Range) : Position := ⟨range.startLineNumber, range.startColumn⟩

def getEndPosition (range : Range) : Position := ⟨range.endLineNumber, range.endColumn⟩

def isEmptyRange (range : Range) : Bool :=
  range.startLineNumber = range.endLineNumber && range.startColumn = range.endColumn

def compareRangesUsingEnds (a b : Range) : Int :=
  if a.endLineNumber = b.endLineNumber then
    if a.endColumn = b.endColumn then
      if a.startLineNumber = b.startLineNumber then a.startColumn - b.startColumn
      else a.startLineNumber - b.startLineNumber
    else a.endColumn - b.endColumn
  else a.endLineNumber - b.endLineNumber

/-! ## Operations -/

structure EditIdentifier where
  major : Int
  minor : Int
  deriving DecidableEq

structure ValidAnnotatedEditOperation where
  identifier : Option EditIdentifier
  range : Range
  text : Option Text
  forceMoveMarkers : Bool
  isAutoWhitespaceEdit : Bool
  isTracked : Bool
  deriving DecidableEq

structure ValidatedEditOperation where
  sortIndex : Nat
  identifier : Option EditIdentifier
  range : Range
  rangeOffset : Int
  rangeLength : Int
  text : Text
  eolCount : Nat
  firstLineLength : Nat
  lastLineLength : Nat
  forceMoveMarkers : Bool
  isAutoWhitespaceEdit : Bool
  deriving DecidableEq

structure ContentChange where
  range : Range
  rangeLength : Int
  text : Text
  rangeOffset : Int
  forceMoveMarkers : Bool
  deriving DecidableEq

def sortOpsAscending (a b : ValidatedEditOperation) : Int :=
  let r := compareRangesUsingEnds a.range b.range
  if r = 0 then (a.sortIndex : Int) - b.sortIndex else r

def sortOpsDescending (a b : ValidatedEditOperation) : Int :=
  let r := compareRangesUsingEnds a.range b.range
  if r = 0 then (b.sortIndex : Int) - a.sortIndex else -r

/-- `operations.sort(compare)`. -/
def sortOps (compare : ValidatedEditOperation → ValidatedEditOperation → Int)
    (operations : List ValidatedEditOperation) : List ValidatedEditOperation :=
  operations.insertionSort fun a b => compare a b ≤ 0

/-- The check for overlapping ranges, which throws, and for touching ranges. -/
def touchingRanges : List ValidatedEditOperation → Option Bool
  | a :: b :: operations =>
    let rangeEnd := getEndPosition a.range
    let nextRangeStart := getStartPosition b.range
    if isBeforeOrEqual nextRangeStart rangeEnd then
      if isBefore nextRangeStart rangeEnd then none
      else (touchingRanges (b :: operations)).map fun _ => true
    else touchingRanges (b :: operations)
  | _ => some false

/-- The range that an operation leaves behind, when it starts at a position. -/
def inverseEditRange (op : ValidatedEditOperation) (startLineNumber startColumn : Int) : Range :=
  if op.text.length > 0 then
    let lineCount := op.eolCount + 1
    if lineCount = 1 then
      newRange startLineNumber startColumn startLineNumber (startColumn + op.firstLineLength)
    else
      newRange startLineNumber startColumn (startLineNumber + lineCount - 1)
        (op.lastLineLength + 1)
  else newRange startLineNumber startColumn startLineNumber startColumn

/-- The loop of `_getInverseEditRanges`, with the operation before and the end of its
range. -/
def getInverseEditRangesLoop : List ValidatedEditOperation →
    (prevOp : Option (ValidatedEditOperation × Position)) → List Range
  | [], _ => []
  | op :: operations, prevOp =>
    let start : Position :=
      match prevOp with
      | some (prevOp, prevOpEnd) =>
        if prevOp.range.endLineNumber = op.range.startLineNumber then
          ⟨prevOpEnd.lineNumber,
            prevOpEnd.column + (op.range.startColumn - prevOp.range.endColumn)⟩
        else
          ⟨prevOpEnd.lineNumber + (op.range.startLineNumber - prevOp.range.endLineNumber),
            op.range.startColumn⟩
      | none => getStartPosition op.range
    let resultRange := inverseEditRange op start.lineNumber start.column
    resultRange :: getInverseEditRangesLoop operations
      (some (op, getEndPosition resultRange))

def getInverseEditRanges (operations : List ValidatedEditOperation) : List Range :=
  getInverseEditRangesLoop operations none

/-! ## The buffer -/

inductive EndOfLinePreference
  | textDefined
  | lf
  | crlf
  deriving DecidableEq

structure PieceTreeTextBuffer where
  pieceTree : PieceTreeBase
  BOM : Text
  mightContainRTL : Bool
  mightContainUnusualLineTerminators : Bool
  mightContainNonBasicASCII : Bool

namespace PieceTreeTextBuffer

/-- The constructor. -/
def new (chunks : List StringBuffer) (BOM : Text) (eol : EOL)
    (containsRTL containsUnusualLineTerminators isBasicASCII eolNormalized : Bool) :
    Option PieceTreeTextBuffer := do
  let pieceTree ← PieceTreeBase.create 0 chunks eol eolNormalized
  some
    { pieceTree, BOM, mightContainRTL := containsRTL,
      mightContainUnusualLineTerminators := containsUnusualLineTerminators,
      mightContainNonBasicASCII := !isBasicASCII }

def getEOL (b : PieceTreeTextBuffer) : EOL := b.pieceTree.eol

def getOffsetAt (b : PieceTreeTextBuffer) (lineNumber column : Int) : Int :=
  b.pieceTree.getOffsetAt lineNumber column

def getRangeAt (b : PieceTreeTextBuffer) (start length : Int) : Range :=
  let startPosition := b.pieceTree.getPositionAt start
  let endPosition := b.pieceTree.getPositionAt (start + length)
  newRange startPosition.lineNumber startPosition.column endPosition.lineNumber endPosition.column

def getEndOfLine (b : PieceTreeTextBuffer) : EndOfLinePreference → EOL
  | .lf => .lf
  | .crlf => .crlf
  | .textDefined => b.getEOL

def getValueInRange (b : PieceTreeTextBuffer) (range : Range) (eol : EndOfLinePreference) :
    Option Text :=
  if isEmptyRange range then some []
  else b.pieceTree.getValueInRange range (some (b.getEndOfLine eol))

def getValueLengthInRange (b : PieceTreeTextBuffer) (range : Range)
    (eol : EndOfLinePreference) : Int :=
  if isEmptyRange range then 0
  else if range.startLineNumber = range.endLineNumber then range.endColumn - range.startColumn
  else
    let startOffset := b.getOffsetAt range.startLineNumber range.startColumn
    let endOffset := b.getOffsetAt range.endLineNumber range.endColumn
    -- offsets use the text EOL, so the difference of the lengths has to be made up for
    let desiredEOL := (b.getEndOfLine eol).text
    let actualEOL := b.getEOL.text
    let eolOffsetCompensation : Int :=
      if desiredEOL.length ≠ actualEOL.length then
        ((desiredEOL.length : Int) - actualEOL.length) *
          (range.endLineNumber - range.startLineNumber)
      else 0
    endOffset - startOffset + eolOffsetCompensation

def setEOL (b : PieceTreeTextBuffer) (newEOL : EOL) : Option PieceTreeTextBuffer := do
  let pieceTree ← b.pieceTree.setEOL newEOL
  some { b with pieceTree }

/-! ## Validating operations -/

/-- The text of an operation with the line breaks of the buffer. -/
def validText (bufferEOL : EOL) (text : Text) : Text :=
  let strEOL := (countEOL text).2.2.2
  let expectedStrEOL := match bufferEOL with
    | .crlf => StringEOL.crlf
    | .lf => StringEOL.lf
  if strEOL = .unknown ∨ strEOL = expectedStrEOL then text
  else replaceEOL bufferEOL.text text

/-- One operation of `applyEdits`, with its counts. -/
def validate (b : PieceTreeTextBuffer) (i : Nat) (op : ValidAnnotatedEditOperation) :
    ValidatedEditOperation :=
  let text := op.text.getD []
  let (eolCount, firstLineLength, lastLineLength, _) :=
    if text = [] then (0, 0, 0, StringEOL.unknown) else countEOL text
  { sortIndex := i, identifier := op.identifier, range := op.range,
    rangeOffset := b.getOffsetAt op.range.startLineNumber op.range.startColumn,
    rangeLength := b.getValueLengthInRange op.range .textDefined,
    text := if text = [] then [] else validText b.getEOL text,
    eolCount, firstLineLength, lastLineLength, forceMoveMarkers := op.forceMoveMarkers,
    isAutoWhitespaceEdit := op.isAutoWhitespaceEdit }

/-- The loop of `_toSingleEditOperation`: the old texts between the operations and the new
texts. -/
def singleEditText (b : PieceTreeTextBuffer) :
    List ValidatedEditOperation → (lastEnd : Position) → Option Text
  | [], _ => some []
  | operation :: operations, lastEnd => do
      let range := operation.range
      let old ← b.getValueInRange (newRange lastEnd.lineNumber lastEnd.column
        range.startLineNumber range.startColumn) .textDefined
      let rest ← b.singleEditText operations (getEndPosition range)
      some (old ++ operation.text ++ rest)

def toSingleEditOperation (b : PieceTreeTextBuffer) (first : ValidatedEditOperation)
    (operations : List ValidatedEditOperation) : Option ValidatedEditOperation := do
  let firstEditRange := first.range
  let lastEditRange := ((first :: operations).getLastD first).range
  let entireEditRange := newRange firstEditRange.startLineNumber firstEditRange.startColumn
    lastEditRange.endLineNumber lastEditRange.endColumn
  let text ← b.singleEditText (first :: operations) (getStartPosition firstEditRange)
  let (eolCount, firstLineLength, lastLineLength, _) := countEOL text
  some
    { sortIndex := 0, identifier := first.identifier, range := entireEditRange,
      rangeOffset := b.getOffsetAt entireEditRange.startLineNumber entireEditRange.startColumn,
      rangeLength := b.getValueLengthInRange entireEditRange .textDefined, text,
      eolCount, firstLineLength, lastLineLength,
      forceMoveMarkers := (first :: operations).any (·.forceMoveMarkers),
      isAutoWhitespaceEdit := false }

/-! ## Applying edits -/

/-- The loop of `_doApplyEdits`; offsets of valid ranges are not negative. -/
def doApplyLoop (pieceTree : PieceTreeBase) :
    List ValidatedEditOperation → Option (PieceTreeBase × List ContentChange)
  | [] => some (pieceTree, [])
  | op :: operations =>
    if isEmptyRange op.range && op.text.length = 0 then doApplyLoop pieceTree operations
    else do
      let deleted ← pieceTree.delete op.rangeOffset.toNat op.rangeLength.toNat
      let pieceTree ←
        if op.text.length > 0 then deleted.insert op.rangeOffset.toNat op.text true
        else some deleted
      let (pieceTree, changes) ← doApplyLoop pieceTree operations
      some (pieceTree, ⟨newRange op.range.startLineNumber op.range.startColumn
        op.range.endLineNumber op.range.endColumn, op.rangeLength, op.text, op.rangeOffset,
        op.forceMoveMarkers⟩ :: changes)

def doApplyEdits (b : PieceTreeTextBuffer) (operations : List ValidatedEditOperation) :
    Option (PieceTreeTextBuffer × List ContentChange) := do
  let (pieceTree, contentChanges) ← doApplyLoop b.pieceTree (sortOps sortOpsDescending operations)
  some ({ b with pieceTree }, contentChanges)

end PieceTreeTextBuffer

end CodeEditor.TextBuffer
