import CodeEditor.Edits.LineEdit
import CodeEditor.Foundation.EolCounter

/-!
# Contiguous tokens

Model of `ContiguousTokensEditing` in `contiguousTokensEditing.ts`, of
`LineTokens.findIndexInTokensArray` in `lineTokens.ts` and of `ContiguousTokensStore` in
`contiguousTokensStore.ts`. A token array is the list of its pairs of end offset and metadata;
`null` and the shared buffer `EMPTY_LINE_TOKENS` are entries of their own. Arrays that are
changed in place are values here: no two entries share an array.
-/

namespace CodeEditor.Tokens

open Edits

/-- The end offset and the metadata of a token. -/
abbrev Token := Nat × UInt32

/-- What the store has for a line. -/
inductive LineEntry
  | null
  | empty
  | tokens (tokens : List Token)
  deriving DecidableEq

/-! ## Finding tokens -/

/-- The binary search between two indices; `fuel` bounds the number of rounds. -/
def findIndexLoop (tokens : List Token) (desiredIndex : Nat) :
    (fuel low high : Nat) → Nat
  | 0, low, _ => low
  | fuel + 1, low, high =>
    if low < high then
      let mid := low + (high - low) / 2
      let endOffset := (tokens.getD mid (0, 0)).1
      if endOffset = desiredIndex then mid + 1
      else if endOffset < desiredIndex then findIndexLoop tokens desiredIndex fuel (mid + 1) high
      else findIndexLoop tokens desiredIndex fuel low mid
    else low

/-- Each round makes the distance of the two indices smaller. -/
def findIndexInTokensArray (tokens : List Token) (desiredIndex : Nat) : Nat :=
  if tokens.length ≤ 1 then 0
  else findIndexLoop tokens desiredIndex tokens.length 0 (tokens.length - 1)

/-! ## Editing -/

namespace ContiguousTokensEditing

/-- The end offset of the last token. -/
def lastEndOffset (tokens : List Token) : Nat := (tokens.getLastD (0, 0)).1

/-- The loop of `delete` over the tokens behind the first one that is touched: tokens that end
inside the deleted text are left out. -/
def moveDown (delta : Nat) : (lastEnd : Nat) → List Token → List Token
  | _, [] => []
  | lastEnd, token :: tokens =>
    let tokenEndOffset := token.1 - delta
    if tokenEndOffset > lastEnd then
      (tokenEndOffset, token.2) :: moveDown delta tokenEndOffset tokens
    else moveDown delta lastEnd tokens

def delete (lineTokens : LineEntry) (fromChIndex toChIndex : Nat) : LineEntry :=
  match lineTokens with
  | .null => .null
  | .empty => .empty
  | .tokens tokens =>
    if fromChIndex = toChIndex then lineTokens
    else if fromChIndex = 0 ∧ lastEndOffset tokens = toChIndex then .empty
    else
      let fromTokenIndex := findIndexInTokensArray tokens fromChIndex
      let fromTokenStartOffset :=
        if fromTokenIndex > 0 then (tokens.getD (fromTokenIndex - 1) (0, 0)).1 else 0
      let fromToken := tokens.getD fromTokenIndex (0, 0)
      let delta := toChIndex - fromChIndex
      if toChIndex < fromToken.1 then
        -- the deleted text is inside a single token
        .tokens (tokens.take fromTokenIndex ++
          (tokens.drop fromTokenIndex).map fun token => (token.1 - delta, token.2))
      else if fromTokenStartOffset ≠ fromChIndex then
        .tokens (tokens.take fromTokenIndex ++ (fromChIndex, fromToken.2) ::
          moveDown delta fromChIndex (tokens.drop (fromTokenIndex + 1)))
      else
        .tokens (tokens.take fromTokenIndex ++
          moveDown delta fromTokenStartOffset (tokens.drop (fromTokenIndex + 1)))

def deleteBeginning (lineTokens : LineEntry) (toChIndex : Nat) : LineEntry :=
  delete lineTokens 0 toChIndex

def deleteEnding (lineTokens : LineEntry) (fromChIndex : Nat) : LineEntry :=
  match lineTokens with
  | .null => .null
  | .empty => .empty
  | .tokens tokens => delete lineTokens fromChIndex (lastEndOffset tokens)

def append (lineTokens otherTokens : LineEntry) : LineEntry :=
  match lineTokens, otherTokens with
  | _, .empty => lineTokens
  | .empty, _ => otherTokens
  | .null, _ => .null
  | _, .null => .null
  | .tokens myTokens, .tokens otherTokens =>
    .tokens (myTokens ++ otherTokens.map fun token =>
      (token.1 + lastEndOffset myTokens, token.2))

def insert (lineTokens : LineEntry) (chIndex textLength : Nat) : LineEntry :=
  match lineTokens with
  | .null => .null
  | .empty => .empty
  | .tokens tokens =>
    let index := findIndexInTokensArray tokens chIndex
    let fromTokenIndex :=
      if index > 0 ∧ (tokens.getD (index - 1) (0, 0)).1 = chIndex then index - 1 else index
    .tokens (tokens.take fromTokenIndex ++
      (tokens.drop fromTokenIndex).map fun token => (token.1 + textLength, token.2))

end ContiguousTokensEditing

open ContiguousTokensEditing

/-! ## The store -/

/-- The entries by line; `_len` is the length of the array. -/
structure ContiguousTokensStore where
  lineTokens : List LineEntry
  deriving DecidableEq

def getLanguageId (metadata : UInt32) : UInt32 := metadata &&& 0xff

/-- The language, the type Other, no font style, the default colors and balanced brackets. -/
def getDefaultMetadata (topLevelLanguageId : UInt32) : UInt32 :=
  (topLevelLanguageId <<< (0 : UInt32)) ||| ((0 : UInt32) <<< 8) ||| ((0 : UInt32) <<< 11) |||
    ((1 : UInt32) <<< 15) ||| ((2 : UInt32) <<< 24) ||| 0x400

namespace ContiguousTokensStore

def hasDifferentLanguageId (topLevelLanguageId : UInt32) (tokens : Option (List Token)) : Bool :=
  match tokens with
  | some (token :: _) => getLanguageId token.2 != topLevelLanguageId
  | _ => false

def massageTokens (topLevelLanguageId : UInt32) (lineTextLength : Nat)
    (tokens : Option (List Token)) : LineEntry :=
  if lineTextLength = 0 ∧ hasDifferentLanguageId topLevelLanguageId tokens = false then .empty
  else
    match tokens with
    | none => .tokens [(lineTextLength, getDefaultMetadata topLevelLanguageId)]
    | some [] => .tokens [(lineTextLength, getDefaultMetadata topLevelLanguageId)]
    | some (token :: tokens) =>
      -- the last token covers the end of the text
      .tokens ((token :: tokens).dropLast ++
        [(lineTextLength, ((token :: tokens).getLastD token).2)])

def ensureLine (store : ContiguousTokensStore) (lineIndex : Nat) : ContiguousTokensStore :=
  ⟨store.lineTokens ++ List.replicate (lineIndex + 1 - store.lineTokens.length) .null⟩

def deleteLines (store : ContiguousTokensStore) (start deleteCount : Nat) :
    ContiguousTokensStore :=
  ⟨store.lineTokens.take start ++ store.lineTokens.drop (start + deleteCount)⟩

def insertLines (store : ContiguousTokensStore) (insertIndex insertCount : Nat) :
    ContiguousTokensStore :=
  ⟨store.lineTokens.take insertIndex ++ List.replicate insertCount .null ++
    store.lineTokens.drop insertIndex⟩

/-- The store with an entry changed. -/
def modifyLine (store : ContiguousTokensStore) (lineIndex : Nat) (change : LineEntry → LineEntry) :
    ContiguousTokensStore :=
  ⟨store.lineTokens.modify lineIndex change⟩

def setTokens (store : ContiguousTokensStore) (topLevelLanguageId : UInt32)
    (lineIndex lineTextLength : Nat) (tokens : Option (List Token)) (checkEquality : Bool) :
    Bool × ContiguousTokensStore :=
  let massaged := massageTokens topLevelLanguageId lineTextLength tokens
  let ensured := store.ensureLine lineIndex
  let oldTokens := ensured.lineTokens.getD lineIndex .null
  (checkEquality && oldTokens ≠ massaged, ensured.modifyLine lineIndex fun _ => massaged)

def acceptDeleteRange (store : ContiguousTokensStore) (range : Range) : ContiguousTokensStore :=
  let firstLineIndex := range.startLineNumber - 1
  if firstLineIndex ≥ store.lineTokens.length then store
  else if range.startLineNumber = range.endLineNumber then
    if range.startColumn = range.endColumn then store
    else store.modifyLine firstLineIndex fun entry =>
      delete entry (range.startColumn - 1) (range.endColumn - 1)
  else
    let lastLineIndex := range.endLineNumber - 1
    let lastLineTokens :=
      if lastLineIndex < store.lineTokens.length then
        deleteBeginning (store.lineTokens.getD lastLineIndex .null) (range.endColumn - 1)
      else .null
    (store.modifyLine firstLineIndex fun entry =>
        append (deleteEnding entry (range.startColumn - 1)) lastLineTokens).deleteLines
      range.startLineNumber (range.endLineNumber - range.startLineNumber)

def acceptInsertText (store : ContiguousTokensStore) (lineNumber column : Nat)
    (eolCount firstLineLength : Nat) : ContiguousTokensStore :=
  if eolCount = 0 ∧ firstLineLength = 0 then store
  else
    let lineIndex := lineNumber - 1
    if lineIndex ≥ store.lineTokens.length then store
    else if eolCount = 0 then
      store.modifyLine lineIndex fun entry => insert entry (column - 1) firstLineLength
    else
      (store.modifyLine lineIndex fun entry =>
        insert (deleteEnding entry (column - 1)) (column - 1) firstLineLength).insertLines
        lineNumber eolCount

def acceptEdit (store : ContiguousTokensStore) (range : Range) (eolCount firstLineLength : Nat) :
    ContiguousTokensStore :=
  (store.acceptDeleteRange range).acceptInsertText range.startLineNumber range.startColumn
    eolCount firstLineLength

end ContiguousTokensStore

end CodeEditor.Tokens
