import CodeEditor.Tokens.Document
import CodeEditor.Tokens.RangePriorityQueue

/-!
# End states of lines

Model of `FixedArray` in `fixedArray.ts`, and of `TokenizationStateStore`,
`TrackingTokenizationStateStore` and `TokenizerWithStateStoreAndTextModel` in
`textModelTokens.ts`. A tokenizer is a function from the text of a line and a start state.
What throws is `none`, and so is a loop that does not end.
-/

namespace CodeEditor.Tokens

open Edits

/-! ## Arrays with a default value -/

/-- An array that has a default behind its end. -/
structure FixedArray (T : Type) where
  default : T
  store : List T

namespace FixedArray

variable {T : Type}

def get (array : FixedArray T) (index : Nat) : T := array.store.getD index array.default

def set (array : FixedArray T) (index : Nat) (value : T) : FixedArray T :=
  { array with
    store := (array.store ++
      List.replicate (index + 1 - array.store.length) array.default).set index value }

def delete (array : FixedArray T) (deleteIndex deleteCount : Nat) : FixedArray T :=
  if deleteCount = 0 ∨ deleteIndex ≥ array.store.length then array
  else { array with
    store := array.store.take deleteIndex ++ array.store.drop (deleteIndex + deleteCount) }

def insert (array : FixedArray T) (insertIndex insertCount : Nat) : FixedArray T :=
  if insertCount = 0 ∨ insertIndex ≥ array.store.length then array
  else { array with
    store := array.store.take insertIndex ++ List.replicate insertCount array.default ++
      array.store.drop insertIndex }

/-- Inserts or deletes behind what both lengths cover. -/
def replace (array : FixedArray T) (index oldLength newLength : Nat) : FixedArray T :=
  if index ≥ array.store.length then array
  else if oldLength = 0 then array.insert index newLength
  else if newLength = 0 then array.delete index oldLength
  else { array with
    store := array.store.take index ++ List.replicate newLength array.default ++
      array.store.drop (index + oldLength) }

end FixedArray

/-! ## The stores -/

variable {S T : Type}

structure TokenizationStateStore (S : Type) where
  lineEndStates : FixedArray (Option S)

namespace TokenizationStateStore

def getEndState (store : TokenizationStateStore S) (lineNumber : Nat) : Option S :=
  store.lineEndStates.get lineNumber

/-- Whether the end state of the line has changed, and the store with the end state. -/
def setEndState [DecidableEq S] (store : TokenizationStateStore S) (lineNumber : Nat) (state : S) :
    Bool × TokenizationStateStore S :=
  if store.getEndState lineNumber = some state then (false, store)
  else (true, ⟨store.lineEndStates.set lineNumber (some state)⟩)

/-- The last state is kept, even though it is unrelated. -/
def acceptChange (store : TokenizationStateStore S) (range : LineRange) (newLineCount : Nat) :
    TokenizationStateStore S :=
  let length := range.endLineNumberExclusive - range.startLineNumber
  if newLineCount > 0 ∧ length > 0 then
    ⟨store.lineEndStates.replace range.startLineNumber (length - 1) (newLineCount - 1)⟩
  else ⟨store.lineEndStates.replace range.startLineNumber length newLineCount⟩

end TokenizationStateStore

structure TrackingTokenizationStateStore (S : Type) where
  lineCount : Int
  tokenizationStateStore : TokenizationStateStore S
  invalidEndStatesLineNumbers : List OffsetRange

/-- A change of the text, as text models emit it. -/
structure ModelContentChange where
  range : Range
  text : Text
  deriving DecidableEq

namespace TrackingTokenizationStateStore

/-- The constructor. -/
def new (lineCount : Nat) : Option (TrackingTokenizationStateStore S) := do
  let range ← OffsetRange.new 1 (lineCount + 1)
  let invalid ← addRange range []
  some ⟨lineCount, ⟨⟨none, []⟩⟩, invalid⟩

def getEndState (store : TrackingTokenizationStateStore S) (lineNumber : Nat) : Option S :=
  store.tokenizationStateStore.getEndState lineNumber

/-- A changed state makes the state of the next line invalid. -/
def setEndState [DecidableEq S] (store : TrackingTokenizationStateStore S) (lineNumber : Nat)
    (state : S) : Option (Bool × TrackingTokenizationStateStore S) := do
  let invalid ← deleteFrom lineNumber store.invalidEndStatesLineNumbers
  let (r, states) := store.tokenizationStateStore.setEndState lineNumber state
  if r = true ∧ (lineNumber : Int) < store.lineCount then do
    -- the state has changed, so the next one cannot be trusted
    let next ← OffsetRange.new (lineNumber + 1) (lineNumber + 2)
    let invalid ← addRange next invalid
    some (r, ⟨store.lineCount, states, invalid⟩)
  else some (r, ⟨store.lineCount, states, invalid⟩)

/-- The lines that replace others are invalid. -/
def acceptChange (store : TrackingTokenizationStateStore S) (range : LineRange)
    (newLineCount : Nat) : Option (TrackingTokenizationStateStore S) := do
  let lines ← OffsetRange.new range.startLineNumber range.endLineNumberExclusive
  let invalid ← addRangeAndResize lines newLineCount store.invalidEndStatesLineNumbers
  some ⟨store.lineCount + (newLineCount - lines.length),
    store.tokenizationStateStore.acceptChange range newLineCount, invalid⟩

def acceptChanges (store : TrackingTokenizationStateStore S) (changes : List ModelContentChange) :
    Option (TrackingTokenizationStateStore S) :=
  changes.foldlM (fun store c => do
    let range ← LineRange.new c.range.startLineNumber (c.range.endLineNumber + 1)
    store.acceptChange range ((countEOL c.text).1 + 1)) store

def invalidateEndStateRange (store : TrackingTokenizationStateStore S) (range : LineRange) :
    Option (TrackingTokenizationStateStore S) := do
  let lines ← OffsetRange.new range.startLineNumber range.endLineNumberExclusive
  let invalid ← addRange lines store.invalidEndStatesLineNumbers
  some { store with invalidEndStatesLineNumbers := invalid }

def getFirstInvalidEndStateLineNumber (store : TrackingTokenizationStateStore S) : Option Nat :=
  (queueMin store.invalidEndStatesLineNumbers).map Int.toNat

def allStatesValid (store : TrackingTokenizationStateStore S) : Bool :=
  (queueMin store.invalidEndStatesLineNumbers).isNone

/-- A line starts in the end state of the line before. -/
def getStartState (store : TrackingTokenizationStateStore S) (lineNumber : Nat)
    (initialState : S) : Option S :=
  if lineNumber = 1 then some initialState else store.getEndState (lineNumber - 1)

/-- The next line to tokenize, with its start state. -/
def getFirstInvalidLine (store : TrackingTokenizationStateStore S) (initialState : S) :
    Option (Option (Nat × S)) :=
  match store.getFirstInvalidEndStateLineNumber with
  | none => some none
  | some lineNumber => do
      let startState ← store.getStartState lineNumber initialState
      some (some (lineNumber, startState))

end TrackingTokenizationStateStore

/-! ## Tokenizing -/

/-- The tokens and the end state of a line. -/
structure LineTokenizer (S T : Type) where
  initialState : S
  tokenize : Text → S → T × S

/-- Tokenize invalid lines until the first one is behind `lineNumber`; the tokens are added to
`builder`. -/
def LineTokenizer.updateTokensUntilLine [DecidableEq S] (tokenizer : LineTokenizer S T)
    (lines : List Text) (lineNumber : Nat) (store : TrackingTokenizationStateStore S)
    (builder : List (Nat × T)) :
    Option (TrackingTokenizationStateStore S × List (Nat × T)) := do
  let lineToTokenize ← store.getFirstInvalidLine tokenizer.initialState
  match lineToTokenize with
  | none => some (store, builder)
  | some (line, startState) =>
    if line > lineNumber then some (store, builder)
    else do
      let text ← lines[line - 1]?
      let r := tokenizer.tokenize text startState
      let (_, store) ← store.setEndState line r.2
      tokenizer |>.updateTokensUntilLine lines lineNumber store (builder ++ [(line, r.1)])
partial_fixpoint

end CodeEditor.Tokens
