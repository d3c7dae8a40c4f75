import CodeEditor.PieceTree.Base
import CodeEditor.Foundation.Simulation

/-!
# Reading from the piece tree

The read operations of `pieceTreeBase.ts`: conversions between offsets and
positions, lines, ranges and single characters. `nodeAt` and the line readers
fill the search cache, and `getLineContent` remembers the last line, so these
return the new state as well.
-/

namespace CodeEditor.PieceTree
namespace PieceTreeBase

open CodeEditor.BinaryTree TreePath

/-! ## Offsets and positions -/

def getAccumulatedValue (s : PieceTreeBase) (piece : Piece) (index : Int) :
    Nat :=
  if index < 0 then 0
  else
    let b := s.bufferAt piece.bufferIndex
    let expectedLineStartIndex := piece.start.line + index.toNat + 1
    if expectedLineStartIndex > piece.stop.line then
      b.lineStartAt piece.stop.line + piece.stop.column -
        b.lineStartAt piece.start.line - piece.start.column
    else
      b.lineStartAt expectedLineStartIndex -
        b.lineStartAt piece.start.line - piece.start.column

/-- `getIndexOf`: the line feeds of a piece before an offset, and the column
behind them. -/
def getIndexOf (s : PieceTreeBase) (piece : Piece) (accumulatedValue : Nat) :
    Nat × Nat :=
  let pos := s.positionInBuffer piece accumulatedValue
  let lineCnt := pos.line - piece.start.line
  if s.offsetInBuffer piece.bufferIndex piece.stop -
      s.offsetInBuffer piece.bufferIndex piece.start = accumulatedValue then
    -- we are checking the end of this node, so a CRLF check is necessary.
    let realLineCnt := s.getLineFeedCnt piece.bufferIndex piece.start pos
    if realLineCnt ≠ lineCnt then
      -- aha yes, CRLF
      (realLineCnt, 0)
    else (lineCnt, pos.column)
  else (lineCnt, pos.column)

/-- The descent of `getOffsetAt`. -/
def getOffsetAtFrom (s : PieceTreeBase) :
    Tree → (lineNumber column leftLen : Int) → Int
  | .leaf, _, _, leftLen => leftLen
  | .node l x r, lineNumber, column, leftLen =>
    if l ≠ .leaf ∧ (x.lfLeft : Int) + 1 ≥ lineNumber then
      s.getOffsetAtFrom l lineNumber column leftLen
    else if (x.lfLeft : Int) + x.piece.lineFeedCnt + 1 ≥ lineNumber then
      leftLen + x.sizeLeft +
        (s.getAccumulatedValue x.piece (lineNumber - x.lfLeft - 2) +
          column - 1)
    else
      s.getOffsetAtFrom r (lineNumber - (x.lfLeft + x.piece.lineFeedCnt))
        column (leftLen + (x.sizeLeft + x.piece.length))

def getOffsetAt (s : PieceTreeBase) (lineNumber column : Int) : Int :=
  s.getOffsetAtFrom s.root lineNumber column 0

/-- The descent of `getPositionAt`. -/
def getPositionAtFrom (s : PieceTreeBase) (originalOffset : Int) :
    Tree → (offset lfCnt : Int) → Position
  | .leaf, _, _ => ⟨1, 1⟩
  | .node l x r, offset, lfCnt =>
    if x.sizeLeft ≠ 0 ∧ (x.sizeLeft : Int) ≥ offset then
      s.getPositionAtFrom originalOffset l offset lfCnt
    else if (x.sizeLeft : Int) + x.piece.length ≥ offset then
      let (index, remainder) :=
        s.getIndexOf x.piece (offset - x.sizeLeft).toNat
      let lfCnt := lfCnt + x.lfLeft + index
      if index = 0 then
        let lineStartOffset := s.getOffsetAt (lfCnt + 1) 1
        ⟨lfCnt + 1, originalOffset - lineStartOffset + 1⟩
      else ⟨lfCnt + 1, remainder + 1⟩
    else
      let offset := offset - (x.sizeLeft + x.piece.length)
      let lfCnt := lfCnt + x.lfLeft + x.piece.lineFeedCnt
      if r = .leaf then
        -- last node
        let lineStartOffset := s.getOffsetAt (lfCnt + 1) 1
        ⟨lfCnt + 1, originalOffset - offset - lineStartOffset + 1⟩
      else s.getPositionAtFrom originalOffset r offset lfCnt

def getPositionAt (s : PieceTreeBase) (offset : Int) : Position :=
  let offset := max 0 offset
  s.getPositionAtFrom offset s.root offset 0

/-! ## Finding a node by position -/

/-- The offset of a node, climbing to the root. -/
def pathOffset : Path → Int
  | [] => 0
  | .left _ _ :: path => pathOffset path
  | .right _ n :: path => n.sizeLeft + n.piece.length + pathOffset path

def offsetOfNode (s : PieceTreeBase) (id : Nat) : Int :=
  match focus s.root id with
  | none => 0
  | some (_, n, _, path) => n.sizeLeft + pathOffset path

/-- How the descent of `nodeAt2` ends. -/
inductive Descent
  /-- The position lies in a node. -/
  | found (position : NodePosition)
  /-- The line runs over the end of a node, with the column behind it. -/
  | spill (id : Nat) (column : Int)
  /-- The sentinel was reached. -/
  | missing

/-- The descent of `nodeAt2`. -/
def nodeAt2From (s : PieceTreeBase) :
    Tree → (lineNumber column nodeStartOffset : Int) → Descent
  | .leaf, _, _, _ => .missing
  | .node l x r, lineNumber, column, nodeStartOffset =>
    if l ≠ .leaf ∧ (x.lfLeft : Int) ≥ lineNumber - 1 then
      s.nodeAt2From l lineNumber column nodeStartOffset
    else if (x.lfLeft : Int) + x.piece.lineFeedCnt > lineNumber - 1 then
      let prevAccumulatedValue :=
        s.getAccumulatedValue x.piece (lineNumber - x.lfLeft - 2)
      let accumulatedValue :=
        s.getAccumulatedValue x.piece (lineNumber - x.lfLeft - 1)
      .found ⟨x.id,
        min (prevAccumulatedValue + column - 1) accumulatedValue,
        nodeStartOffset + x.sizeLeft⟩
    else if (x.lfLeft : Int) + x.piece.lineFeedCnt = lineNumber - 1 then
      let prevAccumulatedValue :=
        s.getAccumulatedValue x.piece (lineNumber - x.lfLeft - 2)
      if prevAccumulatedValue + column - 1 ≤ x.piece.length then
        .found ⟨x.id, prevAccumulatedValue + column - 1, nodeStartOffset⟩
      else
        .spill x.id (column - (x.piece.length - prevAccumulatedValue))
    else
      s.nodeAt2From r (lineNumber - (x.lfLeft + x.piece.lineFeedCnt)) column
        (nodeStartOffset + (x.sizeLeft + x.piece.length))

/-- Search in order for the node that contains the column. -/
def nodeAt2Walk (s : PieceTreeBase) :
    List TreeNode → (column : Int) → Option NodePosition
  | [], _ => none
  | x :: nodes, column =>
    if x.piece.lineFeedCnt > 0 then
      let accumulatedValue := s.getAccumulatedValue x.piece 0
      some ⟨x.id, min (column - 1) accumulatedValue, s.offsetOfNode x.id⟩
    else if (x.piece.length : Int) ≥ column - 1 then
      some ⟨x.id, column - 1, s.offsetOfNode x.id⟩
    else s.nodeAt2Walk nodes (column - x.piece.length)

def nodeAt2 (s : PieceTreeBase) (lineNumber column : Int) :
    Option NodePosition :=
  match s.nodeAt2From s.root lineNumber column 0 with
  | .found position => some position
  | .spill id column => s.nodeAt2Walk (nodesAfter s.root id) column
  | .missing => none

/-! ## Ranges -/

/-- A range of a document between two positions. -/
structure Range where
  startLineNumber : Int
  startColumn : Int
  endLineNumber : Int
  endColumn : Int
  deriving DecidableEq, Repr

/-- `buffer.substring` of the buffer of a piece, from offsets that are relative
to the start of the piece. -/
def pieceSubstring (s : PieceTreeBase) (piece : Piece) (first second : Int) :
    Text :=
  let startOffset : Int := s.offsetInBuffer piece.bufferIndex piece.start
  substring (s.bufferAt piece.bufferIndex).buffer
    (startOffset + first).toNat (startOffset + second).toNat

/-- The loop of `getValueInRange2` over the nodes behind the first one. -/
def getValueUpTo (s : PieceTreeBase) (endPosition : NodePosition) :
    List TreeNode → Text
  | [] => []
  | x :: nodes =>
    if x.id = endPosition.node then
      s.pieceSubstring x.piece 0 endPosition.remainder
    else
      substr (s.bufferAt x.piece.bufferIndex).buffer
          (s.offsetInBuffer x.piece.bufferIndex x.piece.start)
          x.piece.length ++
        s.getValueUpTo endPosition nodes

def getValueInRange2 (s : PieceTreeBase)
    (startPosition endPosition : NodePosition) : Option Text := do
  let x ← s.node? startPosition.node
  if startPosition.node = endPosition.node then
    some (s.pieceSubstring x.piece startPosition.remainder
      endPosition.remainder)
  else
    some (s.pieceSubstring x.piece startPosition.remainder x.piece.length ++
      s.getValueUpTo endPosition (nodesAfter s.root startPosition.node))

def getValueInRange (s : PieceTreeBase) (range : Range) (eol : Option EOL) :
    Option Text :=
  if range.startLineNumber = range.endLineNumber ∧
      range.startColumn = range.endColumn then some []
  else do
    let startPosition ← s.nodeAt2 range.startLineNumber range.startColumn
    let endPosition ← s.nodeAt2 range.endLineNumber range.endColumn
    let value ← s.getValueInRange2 startPosition endPosition
    match eol with
    | none => some value
    | some eol =>
      if eol ≠ s.eol ∨ s.eolNormalized = false then
        some (replaceEOL eol.text value)
      else some value

/-! ## Lines -/

/-- The variables of `getLinesContent`; taking back a pushed line drops it
from `lines`. -/
structure LinesState where
  lines : List Text
  currentLine : Text
  danglingCR : Bool

/-- The text of a line of a buffer between two offsets, without its break. -/
def lineWithoutEOL (s : PieceTreeBase) (buffer : Text) (start stop : Nat) :
    Text :=
  if s.eolNormalized then
    substring buffer start (stop - s.eol.text.length)
  else stripEOL (substring buffer start stop)

/-- The part of the callback of `getLinesContent` behind the treatment of a
dangling `\r`. -/
def linesOfPiece (s : PieceTreeBase) (piece : Piece)
    (pieceStartOffset pieceLength : Nat) (acc : LinesState) : LinesState :=
  let b := s.bufferAt piece.bufferIndex
  let pieceStartLine := piece.start.line
  let pieceEndLine := piece.stop.line
  if pieceStartLine = pieceEndLine then
    -- this piece has no new lines
    if s.eolNormalized = false ∧
        b.buffer[pieceStartOffset + pieceLength - 1]? = some CR then
      { acc with
        danglingCR := true
        currentLine := acc.currentLine ++
          substr b.buffer pieceStartOffset (pieceLength - 1) }
    else
      { acc with
        currentLine := acc.currentLine ++
          substr b.buffer pieceStartOffset pieceLength }
  else
    -- add the text before the first line start in this piece
    let firstLine := acc.currentLine ++
      if s.eolNormalized then
        substring b.buffer pieceStartOffset
          (max pieceStartOffset
            (b.lineStartAt (pieceStartLine + 1) - s.eol.text.length))
      else
        stripEOL (substring b.buffer pieceStartOffset
          (b.lineStartAt (pieceStartLine + 1)))
    let inner := (List.range (pieceEndLine - (pieceStartLine + 1))).map
      fun i =>
        let line := pieceStartLine + 1 + i
        s.lineWithoutEOL b.buffer (b.lineStartAt line)
          (b.lineStartAt (line + 1))
    let lines := acc.lines ++ firstLine :: inner
    if s.eolNormalized = false ∧
        b.buffer[b.lineStartAt pieceEndLine + piece.stop.column - 1]? =
          some CR then
      if piece.stop.column = 0 then
        -- The last line ended with a \r, let's undo the push, it will be
        -- pushed by next iteration
        { lines := lines.dropLast
          currentLine := lines.getLastD []
          danglingCR := true }
      else
        { lines
          currentLine := substr b.buffer (b.lineStartAt pieceEndLine)
            (piece.stop.column - 1)
          danglingCR := true }
    else
      { lines
        currentLine := substr b.buffer (b.lineStartAt pieceEndLine)
          piece.stop.column
        danglingCR := false }

/-- The callback of `getLinesContent`. -/
def linesStep (s : PieceTreeBase) (acc : LinesState) (n : TreeNode) :
    LinesState :=
  let piece := n.piece
  let b := s.bufferAt piece.bufferIndex
  let pieceStartOffset := b.lineStartAt piece.start.line + piece.start.column
  if piece.length = 0 then acc
  else if acc.danglingCR then
    -- pretend the \n was in the previous piece..
    let skipped : Nat :=
      if b.buffer[pieceStartOffset]? = some LF then 1 else 0
    let acc : LinesState :=
      { lines := acc.lines ++ [acc.currentLine]
        currentLine := []
        danglingCR := false }
    if piece.length - skipped = 0 then acc
    else
      s.linesOfPiece piece (pieceStartOffset + skipped)
        (piece.length - skipped) acc
  else s.linesOfPiece piece pieceStartOffset piece.length acc

def getLinesContent (s : PieceTreeBase) : List Text :=
  let acc := s.root.inorder.foldl s.linesStep ⟨[], [], false⟩
  if acc.danglingCR then acc.lines ++ [acc.currentLine, []]
  else acc.lines ++ [acc.currentLine]

/-- How the descent of `getLineRawContent` ends. -/
inductive LineDescent
  /-- The line lies in one node; the entry goes to the search cache. -/
  | inside (value : Text) (entry : CacheEntry)
  /-- The line starts in a node and runs over its end. -/
  | spill (id : Nat) (value : Text)
  /-- The sentinel was reached. -/
  | missing

/-- The descent of `getLineRawContent`. -/
def lineDescent (s : PieceTreeBase) (originalLineNumber : Int)
    (endOffset : Nat) :
    Tree → (lineNumber nodeStartOffset : Int) → LineDescent
  | .leaf, _, _ => .missing
  | .node l x r, lineNumber, nodeStartOffset =>
    if l ≠ .leaf ∧ (x.lfLeft : Int) ≥ lineNumber - 1 then
      s.lineDescent originalLineNumber endOffset l lineNumber
        nodeStartOffset
    else if (x.lfLeft : Int) + x.piece.lineFeedCnt > lineNumber - 1 then
      let prevAccumulatedValue :=
        s.getAccumulatedValue x.piece (lineNumber - x.lfLeft - 2)
      let accumulatedValue :=
        s.getAccumulatedValue x.piece (lineNumber - x.lfLeft - 1)
      .inside
        (s.pieceSubstring x.piece prevAccumulatedValue
          (accumulatedValue - endOffset))
        ⟨x.id, nodeStartOffset + x.sizeLeft,
          some (originalLineNumber - (lineNumber - 1 - x.lfLeft))⟩
    else if (x.lfLeft : Int) + x.piece.lineFeedCnt = lineNumber - 1 then
      let prevAccumulatedValue :=
        s.getAccumulatedValue x.piece (lineNumber - x.lfLeft - 2)
      .spill x.id
        (s.pieceSubstring x.piece prevAccumulatedValue x.piece.length)
    else
      s.lineDescent originalLineNumber endOffset r
        (lineNumber - (x.lfLeft + x.piece.lineFeedCnt))
        (nodeStartOffset + (x.sizeLeft + x.piece.length))

/-- Search in order for the node that contains the end of the line. -/
def lineWalk (s : PieceTreeBase) (endOffset : Nat) : List TreeNode → Text
  | [] => []
  | x :: nodes =>
    if x.piece.lineFeedCnt > 0 then
      let accumulatedValue := s.getAccumulatedValue x.piece 0
      s.pieceSubstring x.piece 0 (accumulatedValue - endOffset)
    else
      substr (s.bufferAt x.piece.bufferIndex).buffer
          (s.offsetInBuffer x.piece.bufferIndex x.piece.start)
          x.piece.length ++
        s.lineWalk endOffset nodes

def getLineRawContent (s : PieceTreeBase) (lineNumber : Int)
    (endOffset : Nat) : Text × PieceTreeBase :=
  match s.cacheGet2 lineNumber with
  | some (cache, nodeStartLineNumber) =>
    match s.node? cache.node with
    | none => ([], s)
    | some x =>
      let prevAccumulatedValue := s.getAccumulatedValue x.piece
        (lineNumber - nodeStartLineNumber - 1)
      if nodeStartLineNumber + x.piece.lineFeedCnt = lineNumber then
        (s.pieceSubstring x.piece prevAccumulatedValue x.piece.length ++
          s.lineWalk endOffset (nodesAfter s.root x.id), s)
      else
        let accumulatedValue := s.getAccumulatedValue x.piece
          (lineNumber - nodeStartLineNumber)
        (s.pieceSubstring x.piece prevAccumulatedValue
          (accumulatedValue - endOffset), s)
  | none =>
    match s.lineDescent lineNumber endOffset s.root lineNumber 0 with
    | .inside value entry => (value, s.cacheSet entry)
    | .spill id value =>
      (value ++ s.lineWalk endOffset (nodesAfter s.root id), s)
    | .missing => ([], s)

def getLineContent (s : PieceTreeBase) (lineNumber : Int) :
    Text × PieceTreeBase :=
  if s.lastVisitedLine.lineNumber = lineNumber then
    (s.lastVisitedLine.value, s)
  else
    let (value, s) :=
      if lineNumber = s.lineCnt then s.getLineRawContent lineNumber 0
      else if s.eolNormalized then
        s.getLineRawContent lineNumber s.eol.text.length
      else
        let (raw, s) := s.getLineRawContent lineNumber 0
        (stripEOL raw, s)
    (value, { s with lastVisitedLine := ⟨lineNumber, value⟩ })

def getLength (s : PieceTreeBase) : Nat := s.length

def getLineCount (s : PieceTreeBase) : Nat := s.lineCnt

def getLineLength (s : PieceTreeBase) (lineNumber : Int) : Int :=
  if lineNumber = s.getLineCount then
    s.getLength - s.getOffsetAt lineNumber 1
  else
    s.getOffsetAt (lineNumber + 1) 1 - s.getOffsetAt lineNumber 1 -
      s.eol.text.length

/-! ## Characters and chunks -/

/-- The node that a position at the end of a piece stands for. -/
def pieceAtPosition (s : PieceTreeBase) (nodePos : NodePosition) :
    Option (Piece × Nat) := do
  let n ← s.node? nodePos.node
  if nodePos.remainder = n.piece.length then
    -- the char we want to fetch is at the head of next node.
    let matchingNode ← (next s.root nodePos.node).bind s.node?
    some (matchingNode.piece, 0)
  else some (n.piece, nodePos.remainder.toNat)

/-- `_getCharCode`; reading from the sentinel throws in the source. -/
def getCharCodeAt (s : PieceTreeBase) (nodePos : NodePosition) :
    Option CodeUnit := do
  let (piece, remainder) ← s.pieceAtPosition nodePos
  (s.bufferAt piece.bufferIndex).buffer[
    s.offsetInBuffer piece.bufferIndex piece.start + remainder]?

def getLineCharCode (s : PieceTreeBase) (lineNumber index : Int) :
    Option CodeUnit := do
  let nodePos ← s.nodeAt2 lineNumber (index + 1)
  s.getCharCodeAt nodePos

def getCharCode (s : PieceTreeBase) (offset : Int) :
    Option CodeUnit × PieceTreeBase :=
  let (nodePos, s) := s.nodeAt offset
  (nodePos.bind s.getCharCodeAt, s)

def getNearestChunk (s : PieceTreeBase) (offset : Int) :
    Option Text × PieceTreeBase :=
  let (nodePos, s) := s.nodeAt offset
  (do
    let nodePos ← nodePos
    let n ← s.node? nodePos.node
    match s.pieceAtPosition nodePos with
    | none => if nodePos.remainder = n.piece.length then some [] else none
    | some (piece, remainder) =>
      let startOffset := s.offsetInBuffer piece.bufferIndex piece.start
      some (substring (s.bufferAt piece.bufferIndex).buffer
        (startOffset + remainder) (startOffset + piece.length)), s)

end PieceTreeBase

/-!
## The piece tree as a system

The operations of a piece tree, what its callers promise about them, and what
they mean for the document as a plain text.
-/

open PieceTreeBase Simulation

/-- The read operations. -/
inductive Read
  | getLineContent (lineNumber : Int)
  | getLinesContent
  | getLineLength (lineNumber : Int)
  | getLineCharCode (lineNumber index : Int)
  | getCharCode (offset : Int)
  | getNearestChunk (offset : Int)
  | getValueInRange (range : Range) (eol : Option EOL)
  | getOffsetAt (lineNumber column : Int)
  | getPositionAt (offset : Int)
  | nodeAt (offset : Int)
  deriving DecidableEq, Repr

/-- What a read leaves behind; only some reads touch the caches. -/
def Read.after (s : PieceTreeBase) : Read → PieceTreeBase
  | .getLineContent lineNumber => (s.getLineContent lineNumber).2
  | .getCharCode offset => (s.getCharCode offset).2
  | .getNearestChunk offset => (s.getNearestChunk offset).2
  | .nodeAt offset => (s.nodeAt offset).2
  | .getLinesContent | .getLineLength _ | .getLineCharCode _ _
  | .getValueInRange _ _ | .getOffsetAt _ _ | .getPositionAt _ => s

inductive Operation
  | insert (offset : Nat) (value : Text) (eolNormalized : Bool)
  | delete (offset cnt : Nat)
  | setEOL (newEOL : EOL)
  | read (read : Read)
  deriving DecidableEq, Repr

namespace Operation

def step (s : PieceTreeBase) : Operation → Option PieceTreeBase
  | insert offset value eolNormalized => s.insert offset value eolNormalized
  | delete offset cnt => s.delete offset cnt
  | setEOL newEOL => s.setEOL newEOL
  | read r => some (r.after s)

/-- What the callers promise: offsets inside the document, no empty insertion,
and the flag only for a text whose line breaks are those of the tree. -/
def Permitted (s : PieceTreeBase) : Operation → Prop
  | insert offset value eolNormalized =>
    value ≠ [] ∧ offset ≤ s.getLength ∧
      (eolNormalized = true → AllBreaksAre s.eol value)
  | delete offset cnt => offset + cnt ≤ s.getLength
  | setEOL _ => True
  | read _ => True

/-- The operation on the document as a plain text. -/
def onText (text : Text) : Operation → Text
  | insert offset value _ => splice text offset 0 value
  | delete offset cnt => splice text offset cnt []
  | setEOL newEOL => replaceEOL newEOL.text text
  | read _ => text

end Operation

/-- What `create` is given: chunks with their line starts, none empty and no
`\r\n` cut between two of them; the flag is only set for a text whose line
breaks are all `eol`. -/
structure InitialChunks (chunks : List StringBuffer) (eol : EOL)
    (eolNormalized : Bool) : Prop where
  lineStarts : ∀ b ∈ chunks, b.lineStarts = createLineStartsFast b.buffer
  nonempty : ∀ b ∈ chunks, b.buffer ≠ []
  whole : Whole (chunks.map (·.buffer))
  flag : eolNormalized = true → AllBreaksAre eol (chunks.flatMap (·.buffer))

/-- A state reached from `create` by permitted operations. -/
inductive Reachable : PieceTreeBase → Prop
  | create {nextId : Nat} {chunks : List StringBuffer} {eol : EOL}
      {eolNormalized : Bool} {s : PieceTreeBase}
      (initial : InitialChunks chunks eol eolNormalized)
      (created : create nextId chunks eol eolNormalized = some s) : Reachable s
  | step {s s' : PieceTreeBase} {op : Operation} (reachable : Reachable s)
      (permitted : op.Permitted s) (taken : op.step s = some s') : Reachable s'

end CodeEditor.PieceTree
