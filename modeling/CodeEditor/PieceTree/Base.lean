import CodeEditor.Foundation.Lines
import CodeEditor.PieceTree.RbTree

/-!
# The piece tree

Model of `pieceTreeBase.ts`. A `PieceTreeBase` object is a record that every
operation takes and returns; `none` is an exception of the source, which only
a dereferenced `null` can raise.

Line numbers and columns are integers, as callers may pass values below one.
A read of a typed array or a string outside its bounds, which yields
`undefined` or `NaN` in the source, is `0` or `none` here; the invariants
proved later exclude such reads.
-/

namespace CodeEditor.PieceTree

open CodeEditor.BinaryTree TreePath

/-- `AverageBufferSize`. -/
def averageBufferSize : Nat := 65535

/-- The loop of `createLineStartsFast` from index `i` on. -/
def lineStartsFrom (i : Nat) : Text → List Nat
  | [] => []
  | [chr] => if chr = CR ∨ chr = LF then [i + 1] else []
  | chr :: following :: rest =>
    if chr = CR then
      if following = LF then (i + 2) :: lineStartsFrom (i + 2) rest
      else (i + 1) :: lineStartsFrom (i + 1) (following :: rest)
    else if chr = LF then
      (i + 1) :: lineStartsFrom (i + 1) (following :: rest)
    else lineStartsFrom (i + 1) (following :: rest)

/-- The offsets at which the lines of a string start. -/
def createLineStartsFast (str : Text) : List Nat := 0 :: lineStartsFrom 0 str

/-- A string with its line starts. -/
structure StringBuffer where
  buffer : Text
  lineStarts : List Nat
  deriving DecidableEq, Repr

/-- `lineStarts[line]`. -/
def StringBuffer.lineStartAt (b : StringBuffer) (line : Nat) : Nat :=
  b.lineStarts.getD line 0

/-- A node, an offset in its piece and the offset of the node. -/
structure NodePosition where
  node : Nat
  remainder : Int
  nodeStartOffset : Int
  deriving DecidableEq, Repr

structure CacheEntry where
  node : Nat
  nodeStartOffset : Int
  nodeStartLineNumber : Option Int
  deriving DecidableEq, Repr

/-- The line that `getLineContent` returned last. -/
structure VisitedLine where
  lineNumber : Int
  value : Text
  deriving DecidableEq, Repr

structure PieceTreeBase where
  root : Tree
  /-- Identity of the next `TreeNode` to be allocated. -/
  nextId : Nat
  /-- Buffer `0` is the change buffer, the others are read-only. -/
  buffers : List StringBuffer
  lineCnt : Nat
  length : Nat
  eol : EOL
  eolNormalized : Bool
  lastChangeBufferPos : BufferCursor
  searchCache : List CacheEntry
  lastVisitedLine : VisitedLine
  deriving DecidableEq, Repr

/-- A 1-based position of a document. -/
structure Position where
  lineNumber : Int
  column : Int
  deriving DecidableEq, Repr

namespace PieceTreeBase

/-- `this._buffers[index]`. -/
def bufferAt (s : PieceTreeBase) (index : Nat) : StringBuffer :=
  s.buffers.getD index ⟨[], []⟩

/-- The data of a node that hangs in the tree. -/
def node? (s : PieceTreeBase) (id : Nat) : Option TreeNode :=
  (focus s.root id).map fun (_, n, _, _) => n

/-- `node.piece = piece`. -/
def setPiece (s : PieceTreeBase) (id : Nat) (piece : Piece) :
    Option PieceTreeBase := do
  let (l, n, r, path) ← focus s.root id
  some { s with root := (BinaryTree.node l { n with piece } r).plug path }

/-- `updateTreeMetadata(this, node, delta, lfDelta)`. -/
def updateMetadata (s : PieceTreeBase) (id : Nat) (delta lfDelta : Int) :
    Option PieceTreeBase := do
  let (l, n, r, path) ← focus s.root id
  some { s with
    root := (BinaryTree.node l n r).plug
      (updateTreeMetadata path delta lfDelta) }

/-! ## Search cache -/

/-- The cache keeps one entry. -/
def cacheLimit : Nat := 1

/-- `_searchCache.get(offset)`. -/
def cacheGet (s : PieceTreeBase) (offset : Int) : Option CacheEntry :=
  s.searchCache.reverse.find? fun nodePos =>
    match s.node? nodePos.node with
    | none => false
    | some n =>
      nodePos.nodeStartOffset ≤ offset &&
        offset ≤ nodePos.nodeStartOffset + n.piece.length

/-- `_searchCache.get2(lineNumber)`, with the line number of the entry. -/
def cacheGet2 (s : PieceTreeBase) (lineNumber : Int) :
    Option (CacheEntry × Int) :=
  s.searchCache.reverse.findSome? fun nodePos =>
    match s.node? nodePos.node, nodePos.nodeStartLineNumber with
    | some n, some startLine =>
      if startLine ≠ 0 ∧ startLine < lineNumber ∧
          lineNumber ≤ startLine + n.piece.lineFeedCnt
      then some (nodePos, startLine) else none
    | _, _ => none

/-- `_searchCache.set(nodePosition)`. -/
def cacheSet (s : PieceTreeBase) (entry : CacheEntry) : PieceTreeBase :=
  let cache :=
    if s.searchCache.length ≥ cacheLimit then s.searchCache.drop 1
    else s.searchCache
  { s with searchCache := cache ++ [entry] }

/-- `_searchCache.validate(offset)`; a node without parent is detached, so it
is not found in the tree. -/
def cacheValidate (s : PieceTreeBase) (offset : Int) : PieceTreeBase :=
  { s with
    searchCache := s.searchCache.filter fun nodePos =>
      (s.node? nodePos.node).isSome && nodePos.nodeStartOffset < offset }

/-! ## Buffer positions -/

def offsetInBuffer (s : PieceTreeBase) (bufferIndex : Nat)
    (cursor : BufferCursor) : Nat :=
  (s.bufferAt bufferIndex).lineStartAt cursor.line + cursor.column

/-- The binary search of `positionInBuffer`; the interval shrinks at every
turn, so `fuel` is never exhausted when it exceeds its length. -/
def positionSearch (b : StringBuffer) (offset : Nat) :
    (fuel : Nat) → (low high : Int) → (mid midStart : Nat) → Nat × Nat
  | 0, _, _, mid, midStart => (mid, midStart)
  | fuel + 1, low, high, mid, midStart =>
    if low ≤ high then
      let mid := (low + (high - low) / 2).toNat
      let midStart := b.lineStartAt mid
      if (mid : Int) = high then (mid, midStart)
      else
        let midStop := b.lineStartAt (mid + 1)
        if offset < midStart then
          positionSearch b offset fuel low (mid - 1) mid midStart
        else if offset ≥ midStop then
          positionSearch b offset fuel (mid + 1) high mid midStart
        else (mid, midStart)
    else (mid, midStart)

def positionInBuffer (s : PieceTreeBase) (piece : Piece) (remainder : Nat) :
    BufferCursor :=
  let b := s.bufferAt piece.bufferIndex
  let startOffset := b.lineStartAt piece.start.line + piece.start.column
  let offset := startOffset + remainder
  let (mid, midStart) := positionSearch b offset
    (piece.stop.line - piece.start.line + 1) piece.start.line piece.stop.line
    0 0
  ⟨mid, offset - midStart⟩

def getLineFeedCnt (s : PieceTreeBase) (bufferIndex : Nat)
    (start stop : BufferCursor) : Nat :=
  let b := s.bufferAt bufferIndex
  if stop.column = 0 then stop.line - start.line
  else if stop.line + 1 = b.lineStarts.length then stop.line - start.line
  else
    let nextLineStartOffset := b.lineStartAt (stop.line + 1)
    let endOffset := b.lineStartAt stop.line + stop.column
    if nextLineStartOffset > endOffset + 1 then stop.line - start.line
    else if b.buffer[endOffset - 1]? = some CR then
      stop.line - start.line + 1
    else stop.line - start.line

def getPieceContent (s : PieceTreeBase) (piece : Piece) : Text :=
  substring (s.bufferAt piece.bufferIndex).buffer
    (s.offsetInBuffer piece.bufferIndex piece.start)
    (s.offsetInBuffer piece.bufferIndex piece.stop)

/-- `getNodeContent(node)`; `none` is the sentinel. -/
def getNodeContent (s : PieceTreeBase) : Option TreeNode → Text
  | none => []
  | some n => s.getPieceContent n.piece

/-- `getLinesRawContent`: the contents of all pieces in order. -/
def getLinesRawContent (s : PieceTreeBase) : Text :=
  s.root.inorder.flatMap fun n => s.getPieceContent n.piece

/-! ## Tree operations -/

/-- `rbInsertRight`, with the identity of the new node. -/
def rbInsertRight (s : PieceTreeBase) (node : Option Nat) (p : Piece) :
    Option (Nat × PieceTreeBase) := do
  let root ← PieceTree.rbInsertRight s.root node (newNode s.nextId p)
  some (s.nextId, { s with root, nextId := s.nextId + 1 })

/-- `rbInsertLeft`, with the identity of the new node. -/
def rbInsertLeft (s : PieceTreeBase) (node : Option Nat) (p : Piece) :
    Option (Nat × PieceTreeBase) := do
  let root ← PieceTree.rbInsertLeft s.root node (newNode s.nextId p)
  some (s.nextId, { s with root, nextId := s.nextId + 1 })

/-- `rbDelete(this, node)`. -/
def rbDelete (s : PieceTreeBase) (id : Nat) : Option PieceTreeBase := do
  let root ← PieceTree.rbDelete s.root id
  some { s with root }

/-- Insert pieces one behind the other, the first right after `node`. -/
def insertPiecesRight (s : PieceTreeBase) (node : Option Nat) :
    List Piece → Option PieceTreeBase
  | [] => some s
  | p :: pieces => do
      let (id, s) ← s.rbInsertRight node p
      s.insertPiecesRight (some id) pieces

def deleteNodes (s : PieceTreeBase) : List Nat → Option PieceTreeBase
  | [] => some s
  | id :: nodes => do
      let s ← s.rbDelete id
      s.deleteNodes nodes

/-- The nodes met by `x = x.next()` until the sentinel, from `x` on. -/
def nodesFrom (root : Tree) : (fuel : Nat) → Option Nat → List TreeNode
  | 0, _ => []
  | _ + 1, none => []
  | fuel + 1, some id =>
    match focus root id with
    | none => []
    | some (_, n, _, _) => n :: nodesFrom root fuel (next root id)

/-- The nodes behind a node, as repeated `next()` calls find them. -/
def nodesAfter (root : Tree) (id : Nat) : List TreeNode :=
  nodesFrom root root.inorder.length (next root id)

/-- The calls of the callback of `iterate`; `none` is the sentinel. -/
def iterate : Tree → List (Option TreeNode)
  | .leaf => [none]
  | .node l n r => iterate l ++ some n :: iterate r

/-! ## Metadata of the whole buffer -/

def computeBufferMetadata (s : PieceTreeBase) : PieceTreeBase :=
  let s := { s with
    lineCnt := 1 + calculateLF s.root
    length := calculateSize s.root }
  s.cacheValidate s.length

/-! ## Creation -/

/-- The piece that covers a whole buffer. -/
def wholePiece (bufferIndex : Nat) (b : StringBuffer) : Piece :=
  { bufferIndex
    start := ⟨0, 0⟩
    stop := ⟨b.lineStarts.length - 1,
      b.buffer.length - b.lineStartAt (b.lineStarts.length - 1)⟩
    lineFeedCnt := b.lineStarts.length - 1
    length := b.buffer.length }

/-- The loop of `create` over the chunks from index `i` on. -/
def addChunks (s : PieceTreeBase) (lastNode : Option Nat) (i : Nat) :
    List StringBuffer → Option PieceTreeBase
  | [] => some s
  | chunk :: chunks =>
    if chunk.buffer.length > 0 then do
      let s := { s with buffers := s.buffers ++ [chunk] }
      let (id, s) ← s.rbInsertRight lastNode (wholePiece (i + 1) chunk)
      s.addChunks (some id) (i + 1) chunks
    else s.addChunks lastNode (i + 1) chunks

/-- `create`, also the constructor. Node identities start at `nextId`. -/
def create (nextId : Nat) (chunks : List StringBuffer) (eol : EOL)
    (eolNormalized : Bool) : Option PieceTreeBase := do
  let s : PieceTreeBase :=
    { root := .leaf, nextId, buffers := [⟨[], [0]⟩], lineCnt := 1,
      length := 0, eol, eolNormalized, lastChangeBufferPos := ⟨0, 0⟩,
      searchCache := [], lastVisitedLine := ⟨0, []⟩ }
  let s ← s.addChunks none 0 chunks
  some s.computeBufferMetadata

/-- The chunks collected by `normalizeEOL`, with the chunk in the making. -/
structure NormalizeState where
  tempChunk : Text
  chunks : List StringBuffer

/-- `new StringBuffer(text, createLineStartsFast(text))` for the text with its
line breaks replaced. -/
def normalizedChunk (eol : EOL) (tempChunk : Text) : StringBuffer :=
  let text := replaceEOL eol.text tempChunk
  ⟨text, createLineStartsFast text⟩

/-- The callback of `normalizeEOL`. -/
def normalizeStep (s : PieceTreeBase) (eol : EOL) (acc : NormalizeState)
    (node : Option TreeNode) : NormalizeState :=
  let min := averageBufferSize - averageBufferSize / 3
  let max := min * 2
  let str := s.getNodeContent node
  if acc.tempChunk.length ≤ min ∨ acc.tempChunk.length + str.length < max then
    { acc with tempChunk := acc.tempChunk ++ str }
  else
    -- flush anyways
    { tempChunk := str
      chunks := acc.chunks ++ [normalizedChunk eol acc.tempChunk] }

def normalizeEOL (s : PieceTreeBase) (eol : EOL) : Option PieceTreeBase :=
  let acc := (iterate s.root).foldl (s.normalizeStep eol) ⟨[], []⟩
  let chunks :=
    if acc.tempChunk.length > 0 then
      acc.chunks ++ [normalizedChunk eol acc.tempChunk]
    else acc.chunks
  create s.nextId chunks eol true

def setEOL (s : PieceTreeBase) (newEOL : EOL) : Option PieceTreeBase :=
  { s with eol := newEOL }.normalizeEOL newEOL

/-! ## Snapshots -/

/-- `PieceTreeSnapshot`; the tree it reads from is passed to `read`. -/
structure Snapshot where
  pieces : List Piece
  index : Nat
  BOM : Text
  deriving DecidableEq, Repr

def createSnapshot (s : PieceTreeBase) (BOM : Text) : Snapshot :=
  { pieces := s.root.inorder.map (·.piece), index := 0, BOM }

/-- `read()` against the tree as it is now. -/
def Snapshot.read (snapshot : Snapshot) (tree : PieceTreeBase) :
    Option Text × Snapshot :=
  if snapshot.pieces.length = 0 then
    if snapshot.index = 0 then
      (some snapshot.BOM, { snapshot with index := snapshot.index + 1 })
    else (none, snapshot)
  else
    match snapshot.pieces[snapshot.index]? with
    | none => (none, snapshot)
    | some piece =>
      let content := tree.getPieceContent piece
      let text :=
        if snapshot.index = 0 then snapshot.BOM ++ content else content
      (some text, { snapshot with index := snapshot.index + 1 })

/-- Everything `read()` returns until it returns `null`. -/
def Snapshot.readToEnd (tree : PieceTreeBase) :
    (fuel : Nat) → Snapshot → Text
  | 0, _ => []
  | fuel + 1, snapshot =>
    match snapshot.read tree with
    | (none, _) => []
    | (some text, snapshot) => text ++ readToEnd tree fuel snapshot

/-! ## Carriage returns at piece borders -/

def shouldCheckCRLF (s : PieceTreeBase) : Bool :=
  !(s.eolNormalized && s.eol == .lf)

/-- `nodeCharCodeAt`; `none` is the answer `-1`. -/
def nodeCharCodeAt (s : PieceTreeBase) (piece : Piece) (offset : Nat) :
    Option CodeUnit :=
  if piece.lineFeedCnt < 1 then none
  else (s.bufferAt piece.bufferIndex).buffer[
    s.offsetInBuffer piece.bufferIndex piece.start + offset]?

/-- `startWithLF` for a piece and its buffer. -/
def pieceStartsWithLF (b : StringBuffer) (piece : Piece) : Bool :=
  if piece.lineFeedCnt = 0 then false
  else
    let line := piece.start.line
    let startOffset := b.lineStartAt line + piece.start.column
    if line + 1 = b.lineStarts.length then false
    else if b.lineStartAt (line + 1) > startOffset + 1 then false
    else b.buffer[startOffset]? == some LF

/-- `startWithLF(node)`. -/
def startWithLF (s : PieceTreeBase) (node : Option Nat) : Bool :=
  match node.bind s.node? with
  | none => false
  | some n => pieceStartsWithLF (s.bufferAt n.piece.bufferIndex) n.piece

/-- `endWithCR(node)`. -/
def endWithCR (s : PieceTreeBase) (node : Option Nat) : Bool :=
  match node.bind s.node? with
  | none => false
  | some n =>
    if n.piece.lineFeedCnt = 0 then false
    else s.nodeCharCodeAt n.piece (n.piece.length - 1) == some CR

/-! ## New pieces -/

/-- The loop of `createNewPieces` over a text longer than one buffer: a `\r` or
a high surrogate at the end of a buffer moves to the next one. -/
def splitIntoBuffers (text : Text) : List Text :=
  if text.length > averageBufferSize then
    let lastChar := text.getD (averageBufferSize - 1) 0
    let count :=
      if lastChar = CR ∨ (0xD800 ≤ lastChar ∧ lastChar ≤ 0xDBFF) then
        averageBufferSize - 1
      else averageBufferSize
    text.take count :: splitIntoBuffers (text.drop count)
  else [text]
termination_by text.length
decreasing_by
  simp only [List.length_drop]
  split <;> simp only [averageBufferSize] at * <;> omega

/-- Push a new read-only buffer and return the piece that covers it. -/
def pushBuffer (s : PieceTreeBase) (text : Text) : Piece × PieceTreeBase :=
  let b : StringBuffer := ⟨text, createLineStartsFast text⟩
  (wholePiece s.buffers.length b, { s with buffers := s.buffers ++ [b] })

def pushBuffers (s : PieceTreeBase) :
    List Text → List Piece × PieceTreeBase
  | [] => ([], s)
  | text :: texts =>
    let (piece, s) := s.pushBuffer text
    let (pieces, s) := s.pushBuffers texts
    (piece :: pieces, s)

/-- A `\n` would follow a `\r` of the change buffer, which is then kept apart
by a `_`. -/
def keptApart (change : StringBuffer) (text : Text) : Bool :=
  change.lineStartAt (change.lineStarts.length - 1) == change.buffer.length &&
    change.buffer.length != 0 && startsWithLF text && endsWithCR change.buffer

def createNewPieces (s : PieceTreeBase) (text : Text) :
    List Piece × PieceTreeBase :=
  if text.length > averageBufferSize then
    s.pushBuffers (splitIntoBuffers text)
  else
    let change := s.bufferAt 0
    let lineStarts := createLineStartsFast text
    let apart := keptApart change text
    let start : BufferCursor :=
      if apart then
        ⟨s.lastChangeBufferPos.line, s.lastChangeBufferPos.column + 1⟩
      else s.lastChangeBufferPos
    let padding : Text := if apart then [95] else []
    let startOffset := change.buffer.length + padding.length
    let change : StringBuffer :=
      { buffer := change.buffer ++ padding ++ text
        lineStarts := change.lineStarts ++
          (lineStarts.map (· + startOffset)).drop 1 }
    let s := { s with buffers := s.buffers.set 0 change }
    let endOffset := change.buffer.length
    let endIndex := change.lineStarts.length - 1
    let endPos : BufferCursor :=
      ⟨endIndex, endOffset - change.lineStartAt endIndex⟩
    let newPiece : Piece :=
      { bufferIndex := 0
        start
        stop := endPos
        lineFeedCnt := s.getLineFeedCnt 0 start endPos
        length := endOffset - startOffset }
    ([newPiece], { s with lastChangeBufferPos := endPos })

/-! ## Node operations -/

def deleteNodeTail (s : PieceTreeBase) (id : Nat) (pos : BufferCursor) :
    Option PieceTreeBase := do
  let n ← s.node? id
  let piece := n.piece
  let originalEndOffset := s.offsetInBuffer piece.bufferIndex piece.stop
  let newEndOffset := s.offsetInBuffer piece.bufferIndex pos
  let newLineFeedCnt := s.getLineFeedCnt piece.bufferIndex piece.start pos
  let lfDelta : Int := (newLineFeedCnt : Int) - piece.lineFeedCnt
  let sizeDelta : Int := (newEndOffset : Int) - originalEndOffset
  let newLength := (piece.length + sizeDelta).toNat
  let s ← s.setPiece id { piece with
    stop := pos, lineFeedCnt := newLineFeedCnt, length := newLength }
  s.updateMetadata id sizeDelta lfDelta

def deleteNodeHead (s : PieceTreeBase) (id : Nat) (pos : BufferCursor) :
    Option PieceTreeBase := do
  let n ← s.node? id
  let piece := n.piece
  let originalStartOffset := s.offsetInBuffer piece.bufferIndex piece.start
  let newLineFeedCnt := s.getLineFeedCnt piece.bufferIndex pos piece.stop
  let newStartOffset := s.offsetInBuffer piece.bufferIndex pos
  let lfDelta : Int := (newLineFeedCnt : Int) - piece.lineFeedCnt
  let sizeDelta : Int := (originalStartOffset : Int) - newStartOffset
  let newLength := (piece.length + sizeDelta).toNat
  let s ← s.setPiece id { piece with
    start := pos, lineFeedCnt := newLineFeedCnt, length := newLength }
  s.updateMetadata id sizeDelta lfDelta

/-- Drop the `\n` a piece starts with; the repair code of the source does this
in four places. -/
def dropLeadingLF (s : PieceTreeBase) (piece : Piece) : Piece :=
  let newStart : BufferCursor := ⟨piece.start.line + 1, 0⟩
  { piece with
    start := newStart
    lineFeedCnt := s.getLineFeedCnt piece.bufferIndex newStart piece.stop
    length := piece.length - 1 }

/-- Drop the `\r` a piece ends with. -/
def dropTrailingCR (s : PieceTreeBase) (piece : Piece) : Piece :=
  let b := s.bufferAt piece.bufferIndex
  let newEnd : BufferCursor :=
    if piece.stop.column = 0 then
      -- it means, last line ends with \r, not \r\n
      ⟨piece.stop.line - 1, b.lineStartAt piece.stop.line -
        b.lineStartAt (piece.stop.line - 1) - 1⟩
    else ⟨piece.stop.line, piece.stop.column - 1⟩
  { piece with
    stop := newEnd
    lineFeedCnt := piece.lineFeedCnt - 1
    length := piece.length - 1 }

def fixCRLF (s : PieceTreeBase) (prev next : Nat) : Option PieceTreeBase := do
  -- update node
  let prevPiece := (← s.node? prev).piece
  let s ← s.setPiece prev (s.dropTrailingCR prevPiece)
  let s ← s.updateMetadata prev (-1) (-1)
  let nodesToDel := if prevPiece.length - 1 = 0 then [prev] else []
  -- update nextNode
  let nextPiece := (← s.node? next).piece
  let s ← s.setPiece next (s.dropLeadingLF nextPiece)
  let s ← s.updateMetadata next (-1) (-1)
  let nodesToDel :=
    nodesToDel ++ if nextPiece.length - 1 = 0 then [next] else []
  -- create new piece which contains \r\n
  let (pieces, s) := s.createNewPieces [CR, LF]
  let (_, s) ← s.rbInsertRight (some prev) (← pieces[0]?)
  -- delete empty nodes
  s.deleteNodes nodesToDel

def validateCRLFWithPrevNode (s : PieceTreeBase) (nextNode : Option Nat) :
    Option PieceTreeBase :=
  if s.shouldCheckCRLF && s.startWithLF nextNode then do
    let nextNode ← nextNode
    let node := prev s.root nextNode
    if s.endWithCR node then s.fixCRLF (← node) nextNode else some s
  else some s

def validateCRLFWithNextNode (s : PieceTreeBase) (node : Option Nat) :
    Option PieceTreeBase :=
  if s.shouldCheckCRLF && s.endWithCR node then do
    let node ← node
    let nextNode := next s.root node
    if s.startWithLF nextNode then s.fixCRLF node (← nextNode) else some s
  else some s

/-- `adjustCarriageReturnFromNext`, with its Boolean answer. -/
def adjustCarriageReturnFromNext (s : PieceTreeBase) (value : Text)
    (node : Nat) : Option (Bool × PieceTreeBase) :=
  if s.shouldCheckCRLF && endsWithCR value then
    let nextNode := next s.root node
    if s.startWithLF nextNode then do
      -- move `\n` forward
      let nextNode ← nextNode
      let piece := (← s.node? nextNode).piece
      if piece.length = 1 then
        let s ← s.rbDelete nextNode
        some (true, s)
      else
        let s ← s.setPiece nextNode (s.dropLeadingLF piece)
        let s ← s.updateMetadata nextNode (-1) (-1)
        some (true, s)
    else some (false, s)
  else some (false, s)

def shrinkNode (s : PieceTreeBase) (id : Nat) (start stop : BufferCursor) :
    Option PieceTreeBase := do
  let piece := (← s.node? id).piece
  -- old piece, originalStartPos, start
  let newLineFeedCnt := s.getLineFeedCnt piece.bufferIndex piece.start start
  let newLength := s.offsetInBuffer piece.bufferIndex start -
    s.offsetInBuffer piece.bufferIndex piece.start
  let s ← s.setPiece id { piece with
    stop := start, lineFeedCnt := newLineFeedCnt, length := newLength }
  let s ← s.updateMetadata id ((newLength : Int) - piece.length)
    ((newLineFeedCnt : Int) - piece.lineFeedCnt)
  -- new right piece, end, originalEndPos
  let newPiece : Piece := { piece with
    start := stop
    lineFeedCnt := s.getLineFeedCnt piece.bufferIndex stop piece.stop
    length := s.offsetInBuffer piece.bufferIndex piece.stop -
      s.offsetInBuffer piece.bufferIndex stop }
  let (newNode, s) ← s.rbInsertRight (some id) newPiece
  s.validateCRLFWithPrevNode (some newNode)

/-- The change buffer of `appendToNode` with `value` behind it; `hitCRLF` takes
the line start between a `\r` and a `\n` back. -/
def appendToBuffer (change : StringBuffer) (value : Text) (hitCRLF : Bool) :
    StringBuffer :=
  let startOffset := change.buffer.length
  let lineStarts := (createLineStartsFast value).map (· + startOffset)
  let oldLineStarts :=
    if hitCRLF then change.lineStarts.dropLast else change.lineStarts
  { buffer := change.buffer ++ value
    lineStarts := oldLineStarts ++ lineStarts.drop 1 }

/-- The second half of `appendToNode`: the piece of the node reaches to the end
of the change buffer, which has grown by `count` characters. -/
def extendNode (s : PieceTreeBase) (id : Nat) (change : StringBuffer)
    (count : Nat) : Option PieceTreeBase := do
  let s := { s with buffers := s.buffers.set 0 change }
  let endIndex := change.lineStarts.length - 1
  let newEnd : BufferCursor :=
    ⟨endIndex, change.buffer.length - change.lineStartAt endIndex⟩
  let piece := (← s.node? id).piece
  let newLineFeedCnt : Nat := s.getLineFeedCnt 0 piece.start newEnd
  let lfDelta : Int := (newLineFeedCnt : Int) - piece.lineFeedCnt
  let s ← s.setPiece id { piece with
    stop := newEnd
    lineFeedCnt := newLineFeedCnt
    length := piece.length + count }
  let s := { s with lastChangeBufferPos := newEnd }
  s.updateMetadata id count lfDelta

def appendToNode (s : PieceTreeBase) (id : Nat) (value : Text) :
    Option PieceTreeBase := do
  let (moved, s) ← s.adjustCarriageReturnFromNext value id
  let value := if moved then value ++ [LF] else value
  let hitCRLF := s.shouldCheckCRLF && startsWithLF value &&
    s.endWithCR (some id)
  let change := appendToBuffer (s.bufferAt 0) value hitCRLF
  s.extendNode id change value.length

/-! ## Finding a node by offset -/

/-- The descent of `nodeAt`. -/
def nodeAtFrom : Tree → (offset nodeStartOffset : Int) → Option NodePosition
  | .leaf, _, _ => none
  | .node l x r, offset, nodeStartOffset =>
    if x.sizeLeft > offset then nodeAtFrom l offset nodeStartOffset
    else if x.sizeLeft + x.piece.length ≥ offset then
      some ⟨x.id, offset - x.sizeLeft, nodeStartOffset + x.sizeLeft⟩
    else
      nodeAtFrom r (offset - (x.sizeLeft + x.piece.length))
        (nodeStartOffset + (x.sizeLeft + x.piece.length))

/-- `nodeAt(offset)`, which may fill the search cache. -/
def nodeAt (s : PieceTreeBase) (offset : Int) :
    Option NodePosition × PieceTreeBase :=
  match s.cacheGet offset with
  | some cache =>
    (some ⟨cache.node, offset - cache.nodeStartOffset,
      cache.nodeStartOffset⟩, s)
  | none =>
    match nodeAtFrom s.root offset 0 with
    | some ret =>
      (some ret, s.cacheSet ⟨ret.node, ret.nodeStartOffset, none⟩)
    | none => (none, s)

/-! ## Insertion -/

def insertContentToNodeLeft (s : PieceTreeBase) (value : Text) (id : Nat) :
    Option PieceTreeBase := do
  let moves := s.shouldCheckCRLF && endsWithCR value &&
    s.startWithLF (some id)
  let piece := (← s.node? id).piece
  let s ←
    if moves then
      -- move `\n` to new node.
      let s ← s.setPiece id (s.dropLeadingLF piece)
      s.updateMetadata id (-1) (-1)
    else some s
  let value := if moves then value ++ [LF] else value
  let nodesToDel :=
    if moves = true ∧ piece.length - 1 = 0 then [id] else []
  let (newPieces, s) := s.createNewPieces value
  let (newNode, s) ← insertPiecesLeft s id newPieces.reverse
  let s ← s.validateCRLFWithPrevNode (some newNode)
  s.deleteNodes nodesToDel
where
  /-- Insert pieces one before the other, the first right before `id`; the
  result is the last node made. -/
  insertPiecesLeft (s : PieceTreeBase) (id : Nat) :
      List Piece → Option (Nat × PieceTreeBase)
    | [] => some (id, s)
    | p :: pieces => do
        let (newNode, s) ← s.rbInsertLeft (some id) p
        insertPiecesLeft s newNode pieces

def insertContentToNodeRight (s : PieceTreeBase) (value : Text) (id : Nat) :
    Option PieceTreeBase := do
  let (moved, s) ← s.adjustCarriageReturnFromNext value id
  -- move \n to the new node.
  let value := if moved then value ++ [LF] else value
  let (newPieces, s) := s.createNewPieces value
  let (newNode, s) ← s.rbInsertRight (some id) (← newPieces.head?)
  let s ← s.insertPiecesRight (some newNode) newPieces.tail
  s.validateCRLFWithPrevNode (some newNode)

/-- The branch of `insert` that splits a node at `remainder`. -/
def insertIntoNode (s : PieceTreeBase) (value : Text) (id : Nat)
    (remainder : Nat) : Option PieceTreeBase := do
  let piece := (← s.node? id).piece
  let insertPosInBuffer := s.positionInBuffer piece remainder
  let newRightPiece : Piece := { piece with
    start := insertPosInBuffer
    lineFeedCnt :=
      s.getLineFeedCnt piece.bufferIndex insertPosInBuffer piece.stop
    length := s.offsetInBuffer piece.bufferIndex piece.stop -
      s.offsetInBuffer piece.bufferIndex insertPosInBuffer }
  let headMoves := s.shouldCheckCRLF && endsWithCR value &&
    s.nodeCharCodeAt piece remainder == some LF
  let newRightPiece :=
    if headMoves then s.dropLeadingLF newRightPiece else newRightPiece
  let value := if headMoves then value ++ [LF] else value
  -- reuse node for content before insertion point.
  let tailMoves := s.shouldCheckCRLF && startsWithLF value &&
    s.nodeCharCodeAt piece (remainder - 1) == some CR
  let s ← s.deleteNodeTail id
    (if tailMoves then s.positionInBuffer piece (remainder - 1)
      else insertPosInBuffer)
  let value := if tailMoves then CR :: value else value
  let nodesToDel :=
    if tailMoves = true ∧ (← s.node? id).piece.length = 0 then [id] else []
  let (newPieces, s) := s.createNewPieces value
  let s ←
    if newRightPiece.length > 0 then do
      let (_, s) ← s.rbInsertRight (some id) newRightPiece
      some s
    else some s
  let s ← s.insertPiecesRight (some id) newPieces
  s.deleteNodes nodesToDel

/-- The branch of `insert` for a tree without nodes. -/
def insertIntoEmpty (s : PieceTreeBase) (value : Text) :
    Option PieceTreeBase := do
  let (pieces, s) := s.createNewPieces value
  let (first, s) ← s.rbInsertLeft none (← pieces.head?)
  s.insertPiecesRight (some first) pieces.tail

def insert (s : PieceTreeBase) (offset : Nat) (value : Text)
    (eolNormalized : Bool) : Option PieceTreeBase := do
  let s := { s with
    eolNormalized := s.eolNormalized && eolNormalized
    lastVisitedLine := ⟨0, []⟩ }
  if s.root = .leaf then
    -- insert new node
    let s ← s.insertIntoEmpty value
    some s.computeBufferMetadata
  else
    let (pos, s) := s.nodeAt offset
    let ⟨id, remainder, nodeStartOffset⟩ ← pos
    let piece := (← s.node? id).piece
    if piece.bufferIndex = 0 ∧ piece.stop = s.lastChangeBufferPos ∧
        nodeStartOffset + piece.length = offset ∧
        value.length < averageBufferSize then
      -- changed buffer
      let s ← s.appendToNode id value
      some s.computeBufferMetadata
    else if nodeStartOffset = offset then
      let s ← s.insertContentToNodeLeft value id
      some (s.cacheValidate offset).computeBufferMetadata
    else if nodeStartOffset + piece.length > offset then
      -- we are inserting into the middle of a node.
      let s ← s.insertIntoNode value id remainder.toNat
      some s.computeBufferMetadata
    else
      let s ← s.insertContentToNodeRight value id
      some s.computeBufferMetadata

/-! ## Deletion -/

/-- The branch of `delete` inside one node. -/
def deleteInNode (s : PieceTreeBase) (offset cnt : Nat)
    (startPosition endPosition : NodePosition) : Option PieceTreeBase := do
  let startNode := startPosition.node
  let piece := (← s.node? startNode).piece
  let startSplitPosInBuffer :=
    s.positionInBuffer piece startPosition.remainder.toNat
  let endSplitPosInBuffer :=
    s.positionInBuffer piece endPosition.remainder.toNat
  if startPosition.nodeStartOffset = offset then
    if cnt = piece.length then
      -- delete node
      let next := next s.root startNode
      let s ← s.rbDelete startNode
      s.validateCRLFWithPrevNode next
    else
      let s ← s.deleteNodeHead startNode endSplitPosInBuffer
      (s.cacheValidate offset).validateCRLFWithPrevNode (some startNode)
  else if startPosition.nodeStartOffset + piece.length = offset + cnt then
    let s ← s.deleteNodeTail startNode startSplitPosInBuffer
    s.validateCRLFWithNextNode (some startNode)
  else
    -- delete content in the middle, this node will be splitted to nodes
    s.shrinkNode startNode startSplitPosInBuffer endSplitPosInBuffer

/-- The branch of `delete` across several nodes. -/
def deleteAcrossNodes (s : PieceTreeBase) (offset : Nat)
    (startPosition endPosition : NodePosition) : Option PieceTreeBase := do
  let startNode := startPosition.node
  let endNode := endPosition.node
  let startPiece := (← s.node? startNode).piece
  let s ← s.deleteNodeTail startNode
    (s.positionInBuffer startPiece startPosition.remainder.toNat)
  let s := s.cacheValidate offset
  let startLength := (← s.node? startNode).piece.length
  -- update last touched node
  let endPiece := (← s.node? endNode).piece
  let s ← s.deleteNodeHead endNode
    (s.positionInBuffer endPiece endPosition.remainder.toNat)
  let endLength := (← s.node? endNode).piece.length
  -- delete nodes in between
  let between := (nodesAfter s.root startNode).map (·.id)
    |>.takeWhile (· ≠ endNode)
  let nodesToDel :=
    (if startLength = 0 then [startNode] else []) ++
      (if endLength = 0 then [endNode] else []) ++ between
  let previous :=
    if startLength = 0 then prev s.root startNode else some startNode
  let s ← s.deleteNodes nodesToDel
  s.validateCRLFWithNextNode previous

def delete (s : PieceTreeBase) (offset cnt : Nat) :
    Option PieceTreeBase := do
  let s := { s with lastVisitedLine := ⟨0, []⟩ }
  if cnt = 0 ∨ s.root = .leaf then some s
  else
    let (startPosition, s) := s.nodeAt offset
    let (endPosition, s) := s.nodeAt (offset + cnt : Nat)
    let startPosition ← startPosition
    let endPosition ← endPosition
    let s ←
      if startPosition.node = endPosition.node then
        s.deleteInNode offset cnt startPosition endPosition
      else s.deleteAcrossNodes offset startPosition endPosition
    some s.computeBufferMetadata

end PieceTreeBase
end CodeEditor.PieceTree
