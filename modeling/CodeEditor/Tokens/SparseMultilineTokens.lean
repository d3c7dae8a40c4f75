import CodeEditor.Edits.LineEdit
import CodeEditor.Foundation.EolCounter

/-!
# Sparse tokens over several lines

Model of the edits of `SparseMultilineTokens` in `sparseMultilineTokens.ts`. The storage is the
list of its tokens, four elements of a `Uint32Array` each.
-/

namespace CodeEditor.Tokens

open Edits

/-- A token of the storage; its line is relative to the first line of the block. -/
structure SparseToken where
  deltaLine : Int
  startCharacter : Int
  endCharacter : Int
  metadata : Nat
deriving DecidableEq, Repr

/-- What the array holds when the numbers of a token are written. -/
def SparseToken.stored (token : SparseToken) : SparseToken where
  deltaLine := token.deltaLine % 2 ^ 32
  startCharacter := token.startCharacter % 2 ^ 32
  endCharacter := token.endCharacter % 2 ^ 32
  metadata := token.metadata

/-! ## The storage -/

namespace SparseMultilineTokensStorage

def getMaxDeltaLine (tokens : List SparseToken) : Int :=
  match tokens.getLast? with
  | none => -1
  | some token => token.deltaLine

/-- What a deletion does with a token: it is kept, deleted, or the loop ends. -/
inductive TokenFate where
  | kept (token : SparseToken)
  | deleted
  | stop
  | impossible
deriving DecidableEq, Repr

/-- The body of the loop of `acceptDeleteRange`. -/
def deleteFate (horizontalShiftForFirstLineTokens startDeltaLine startCharacter endDeltaLine
    endCharacter : Int) (hasDeletedTokens : Bool) (token : SparseToken) : TokenFate :=
  let deletedLineCount := endDeltaLine - startDeltaLine
  if token.deltaLine < startDeltaLine ∨
      token.deltaLine = startDeltaLine ∧ token.endCharacter ≤ startCharacter then
    -- 1a
    .kept token
  else if token.deltaLine = startDeltaLine ∧ token.startCharacter < startCharacter then
    if token.deltaLine = endDeltaLine ∧ token.endCharacter > endCharacter then
      -- 1d
      .kept { token with endCharacter := token.endCharacter - (endCharacter - startCharacter) }
    else
      -- 1b, 1c
      .kept { token with endCharacter := startCharacter }
  else if token.deltaLine = startDeltaLine ∧ token.startCharacter = startCharacter then
    if token.deltaLine = endDeltaLine ∧ token.endCharacter > endCharacter then
      -- 2c
      .kept { token with endCharacter := token.endCharacter - (endCharacter - startCharacter) }
    else
      -- 2a, 2b
      .deleted
  else if token.deltaLine < endDeltaLine ∨
      token.deltaLine = endDeltaLine ∧ token.startCharacter < endCharacter then
    if token.deltaLine = endDeltaLine ∧ token.endCharacter > endCharacter then
      -- 3c
      .kept { token with
        deltaLine := startDeltaLine
        startCharacter := startCharacter
        endCharacter := startCharacter + (token.endCharacter - endCharacter) }
    else
      -- 3a, 3b
      .deleted
  else if token.deltaLine > endDeltaLine then
    -- 4, on a line below
    if deletedLineCount = 0 ∧ ¬ hasDeletedTokens then .stop
    else .kept { token with deltaLine := token.deltaLine - deletedLineCount }
  else if token.deltaLine = endDeltaLine ∧ token.startCharacter ≥ endCharacter then
    -- 4, on the last line where a deletion occurs
    let shift := if horizontalShiftForFirstLineTokens ≠ 0 ∧ token.deltaLine = 0 then
      horizontalShiftForFirstLineTokens else 0
    .kept { token with
      deltaLine := token.deltaLine - deletedLineCount
      startCharacter := token.startCharacter + shift - (endCharacter - startCharacter)
      endCharacter := token.endCharacter + shift - (endCharacter - startCharacter) }
  else .impossible

/-- The loop of `acceptDeleteRange`; tokens are moved to the left in place. In case 1a nothing is
written, which leaves the token where it belongs only if none was deleted before it: tokens are
sorted. -/
def deleteLoop (horizontalShiftForFirstLineTokens startDeltaLine startCharacter endDeltaLine
    endCharacter : Int) : (hasDeletedTokens : Bool) → List SparseToken →
    Except String (List SparseToken)
  | _, [] => .ok []
  | hasDeletedTokens, token :: tokens =>
    match deleteFate horizontalShiftForFirstLineTokens startDeltaLine startCharacter endDeltaLine
      endCharacter hasDeletedTokens token with
    | .kept token =>
      (deleteLoop horizontalShiftForFirstLineTokens startDeltaLine startCharacter endDeltaLine
        endCharacter hasDeletedTokens tokens).map (token.stored :: ·)
    | .deleted =>
      deleteLoop horizontalShiftForFirstLineTokens startDeltaLine startCharacter endDeltaLine
        endCharacter true tokens
    | .stop => .ok (token :: tokens)
    | .impossible => .error "Not possible!"

def acceptDeleteRange (horizontalShiftForFirstLineTokens startDeltaLine startCharacter endDeltaLine
    endCharacter : Int) (tokens : List SparseToken) : Except String (List SparseToken) :=
  deleteLoop horizontalShiftForFirstLineTokens startDeltaLine startCharacter endDeltaLine
    endCharacter false tokens

/-- The text is one digit or letter. -/
def isInsertingPreciselyOneWordCharacter (eolCount firstLineLength firstCharCode : Nat) : Bool :=
  eolCount = 0 && firstLineLength = 1 &&
    (48 ≤ firstCharCode && firstCharCode ≤ 57 || 65 ≤ firstCharCode && firstCharCode ≤ 90 ||
      97 ≤ firstCharCode && firstCharCode ≤ 122)

/-- The body of the loop of `acceptInsertText`. -/
def insertInto (deltaLine character : Int) (eolCount firstLineLength lastLineLength : Nat)
    (isInsertingPreciselyOneWordCharacter : Bool) (token : SparseToken) : SparseToken :=
  if token.deltaLine < deltaLine ∨
      token.deltaLine = deltaLine ∧ token.endCharacter < character then
    -- 1
    token
  else if token.deltaLine = deltaLine ∧ token.endCharacter = character then
    -- 2
    if isInsertingPreciselyOneWordCharacter then
      { token with endCharacter := token.endCharacter + 1 }
    else token
  else if token.deltaLine = deltaLine ∧ token.startCharacter < character ∧
      character < token.endCharacter then
    -- 3
    if eolCount = 0 then { token with endCharacter := token.endCharacter + firstLineLength }
    else { token with endCharacter := character }
  else if token.deltaLine = deltaLine ∧ token.startCharacter = character ∧
      isInsertingPreciselyOneWordCharacter then
    -- 4, and the text is one word character
    token
  else if token.deltaLine = deltaLine then
    -- 4 or 5
    if eolCount = 0 then
      { token with
        deltaLine := token.deltaLine + eolCount
        startCharacter := token.startCharacter + firstLineLength
        endCharacter := token.endCharacter + firstLineLength }
    else
      let tokenLength := token.endCharacter - token.startCharacter
      let startCharacter := lastLineLength + (token.startCharacter - character)
      { token with
        deltaLine := token.deltaLine + eolCount
        startCharacter
        endCharacter := startCharacter + tokenLength }
  else { token with deltaLine := token.deltaLine + eolCount }

def acceptInsertText (deltaLine character : Int)
    (eolCount firstLineLength lastLineLength firstCharCode : Nat) (tokens : List SparseToken) :
    List SparseToken :=
  tokens.map fun token => (insertInto deltaLine character eolCount firstLineLength lastLineLength
    (isInsertingPreciselyOneWordCharacter eolCount firstLineLength firstCharCode) token).stored

end SparseMultilineTokensStorage

/-! ## The block -/

structure SparseMultilineTokens where
  startLineNumber : Int
  endLineNumber : Int
  tokens : List SparseToken
deriving DecidableEq, Repr

namespace SparseMultilineTokens

open SparseMultilineTokensStorage

def create (startLineNumber : Int) (tokens : List SparseToken) : SparseMultilineTokens :=
  ⟨startLineNumber, startLineNumber + getMaxDeltaLine tokens, tokens⟩

def updateEndLineNumber (block : SparseMultilineTokens) : SparseMultilineTokens :=
  { block with endLineNumber := block.startLineNumber + getMaxDeltaLine block.tokens }

/-- `_acceptDeleteRange`. -/
def deleteRange (range : Range) (block : SparseMultilineTokens) :
    Except String SparseMultilineTokens :=
  if range.startLineNumber = range.endLineNumber ∧ range.startColumn = range.endColumn then
    -- nothing to delete
    .ok block
  else
    let firstLineIndex := range.startLineNumber - block.startLineNumber
    let lastLineIndex := range.endLineNumber - block.startLineNumber
    if lastLineIndex < 0 then
      -- entirely before this block
      let deletedLinesCount := lastLineIndex - firstLineIndex
      .ok { block with startLineNumber := block.startLineNumber - deletedLinesCount }
    else
      let tokenMaxDeltaLine := getMaxDeltaLine block.tokens
      if firstLineIndex ≥ tokenMaxDeltaLine + 1 then
        -- entirely after this block
        .ok block
      else if firstLineIndex < 0 ∧ lastLineIndex ≥ tokenMaxDeltaLine + 1 then
        -- encompasses this block
        .ok { block with startLineNumber := 0, tokens := [] }
      else if firstLineIndex < 0 then
        let deletedBefore := -firstLineIndex
        (acceptDeleteRange (range.startColumn - 1) 0 0 lastLineIndex (range.endColumn - 1)
          block.tokens).map fun tokens =>
            { block with startLineNumber := block.startLineNumber - deletedBefore, tokens }
      else
        (acceptDeleteRange 0 firstLineIndex (range.startColumn - 1) lastLineIndex
          (range.endColumn - 1) block.tokens).map fun tokens => { block with tokens }

/-- `_acceptInsertText`. -/
def insertText (position : Position) (eolCount firstLineLength lastLineLength firstCharCode : Nat)
    (block : SparseMultilineTokens) : SparseMultilineTokens :=
  if eolCount = 0 ∧ firstLineLength = 0 then
    -- nothing to insert
    block
  else
    let lineIndex := position.lineNumber - block.startLineNumber
    if lineIndex < 0 then
      -- before this block
      { block with startLineNumber := block.startLineNumber + eolCount }
    else if lineIndex ≥ getMaxDeltaLine block.tokens + 1 then
      -- after this block
      block
    else
      let tokens := acceptInsertText lineIndex (position.column - 1) eolCount firstLineLength
        lastLineLength firstCharCode block.tokens
      { block with tokens }

def acceptEdit (range : Range) (eolCount firstLineLength lastLineLength firstCharCode : Nat)
    (block : SparseMultilineTokens) : Except String SparseMultilineTokens :=
  (block.deleteRange range).map fun block =>
    (block.insertText range.getStartPosition eolCount firstLineLength lastLineLength
      firstCharCode).updateEndLineNumber

def applyEdit (range : Range) (text : Text) (block : SparseMultilineTokens) :
    Except String SparseMultilineTokens :=
  let (eolCount, firstLineLength, lastLineLength, _) := countEOL text
  block.acceptEdit range eolCount firstLineLength lastLineLength
    (match text with
    | [] => 0
    | first :: _ => first.toNat)

end SparseMultilineTokens

end CodeEditor.Tokens
