import Mathlib

/-!
# The layout of lines and view zones

Model of `EditorWhitespace`, `PendingChanges` and `LinesLayout` in `linesLayout.ts`. Heights,
line numbers and offsets are integers; a position that a caller asks about is any number, which
`| 0` turns into a 32-bit integer. The id of a whitespace is its number; the letters of the
instance in front of it are left out. Indices of the array of whitespaces are natural numbers,
and the index `-1` is `none`. What throws is `none`.
-/

namespace CodeEditor.ViewLayout

/-- The operator `| 0` on an integer. -/
def toInt32 (value : Int) : Int := Int.bmod value (2 ^ 32)

/-- The operator `| 0` on a number, which drops the fraction first. -/
def truncate (value : Rat) : Int := toInt32 (value.num.tdiv value.den)

structure EditorWhitespace where
  id : Nat
  afterLineNumber : Int
  ordinal : Int
  height : Int
  minWidth : Int
  prefixSum : Int
deriving DecidableEq, Repr

structure PendingChange where
  id : Nat
  newAfterLineNumber : Int
  newHeight : Int
deriving DecidableEq, Repr

structure PendingRemove where
  id : Nat
deriving DecidableEq, Repr

structure PendingChanges where
  hasPending : Bool
  inserts : List EditorWhitespace
  changes : List PendingChange
  removes : List PendingRemove
deriving DecidableEq, Repr

namespace PendingChanges

def empty : PendingChanges := ⟨false, [], [], []⟩

def insert (pending : PendingChanges) (x : EditorWhitespace) : PendingChanges :=
  { pending with hasPending := true, inserts := pending.inserts ++ [x] }

def change (pending : PendingChanges) (x : PendingChange) : PendingChanges :=
  { pending with hasPending := true, changes := pending.changes ++ [x] }

def remove (pending : PendingChanges) (x : PendingRemove) : PendingChanges :=
  { pending with hasPending := true, removes := pending.removes ++ [x] }

end PendingChanges

structure LinesLayout where
  pendingChanges : PendingChanges
  lastWhitespaceId : Nat
  arr : List EditorWhitespace
  prefixSumValidIndex : Int
  minWidth : Int
  lineCount : Int
  lineHeight : Int
  paddingTop : Int
  paddingBottom : Int
deriving DecidableEq, Repr

/-- The constructor. -/
def LinesLayout.new (lineCount lineHeight paddingTop paddingBottom : Int) : LinesLayout :=
  ⟨.empty, 0, [], -1, -1, lineCount, lineHeight, paddingTop, paddingBottom⟩

/-! ## The array of whitespaces -/

/-- The loop of `findInsertionIndex`. -/
def findInsertionIndexLoop (arr : List EditorWhitespace) (afterLineNumber ordinal : Int)
    (low high : Nat) : Nat :=
  if low < high then
    let mid := (low + high) / 2
    match arr[mid]? with
    | none => low  -- not reached: `high` is at most the length of the array
    | some whitespace =>
      if afterLineNumber = whitespace.afterLineNumber then
        if ordinal < whitespace.ordinal then
          findInsertionIndexLoop arr afterLineNumber ordinal low mid
        else findInsertionIndexLoop arr afterLineNumber ordinal (mid + 1) high
      else if afterLineNumber < whitespace.afterLineNumber then
        findInsertionIndexLoop arr afterLineNumber ordinal low mid
      else findInsertionIndexLoop arr afterLineNumber ordinal (mid + 1) high
  else low
termination_by high - low

def findInsertionIndex (arr : List EditorWhitespace) (afterLineNumber ordinal : Int) : Nat :=
  findInsertionIndexLoop arr afterLineNumber ordinal 0 arr.length

def findWhitespaceIndex (arr : List EditorWhitespace) (id : Nat) : Option Nat :=
  arr.findIdx? fun whitespace => whitespace.id == id

namespace LinesLayout

/-- The private `_insertWhitespace`. -/
def insertWhitespace (layout : LinesLayout) (whitespace : EditorWhitespace) : LinesLayout :=
  let insertIndex :=
    findInsertionIndex layout.arr whitespace.afterLineNumber whitespace.ordinal
  { layout with
    arr := layout.arr.insertIdx insertIndex whitespace
    prefixSumValidIndex := min layout.prefixSumValidIndex (insertIndex - 1) }

/-- The private `_removeWhitespace`. -/
def removeWhitespace (layout : LinesLayout) (removeIndex : Nat) : LinesLayout :=
  { layout with
    arr := layout.arr.eraseIdx removeIndex
    prefixSumValidIndex := min layout.prefixSumValidIndex (removeIndex - 1) }

def changeHeight (layout : LinesLayout) (index : Nat) (newHeight : Int) : LinesLayout :=
  { layout with
    arr := layout.arr.modify index fun whitespace => { whitespace with height := newHeight }
    prefixSumValidIndex := min layout.prefixSumValidIndex (index - 1) }

/-- The private `_changeOneWhitespace`. -/
def changeOneWhitespace (layout : LinesLayout) (change : PendingChange) : LinesLayout :=
  match findWhitespaceIndex layout.arr change.id with
  | none => layout
  | some index =>
    match layout.arr[index]? with
    | none => layout  -- not reached: the index has been found
    | some whitespace =>
      let resized := if whitespace.height ≠ change.newHeight then
        layout.changeHeight index change.newHeight else layout
      if whitespace.afterLineNumber ≠ change.newAfterLineNumber then
        (resized.removeWhitespace index).insertWhitespace { whitespace with
          height := change.newHeight, afterLineNumber := change.newAfterLineNumber }
      else resized

def removeOneWhitespace (layout : LinesLayout) (remove : PendingRemove) : LinesLayout :=
  match findWhitespaceIndex layout.arr remove.id with
  | none => layout
  | some index => layout.removeWhitespace index

end LinesLayout

/-- The comparison of `sort`: not above zero. -/
def sortsBefore (a b : EditorWhitespace) : Bool :=
  if a.afterLineNumber = b.afterLineNumber then a.ordinal ≤ b.ordinal
  else a.afterLineNumber ≤ b.afterLineNumber

/-- `toChange.get`: the change that was set last. -/
def changeOf (changes : List PendingChange) (id : Nat) : Option PendingChange :=
  changes.reverse.find? fun change => change.id == id

def applyChange (changes : List PendingChange) (whitespace : EditorWhitespace) :
    EditorWhitespace :=
  match changeOf changes whitespace.id with
  | none => whitespace
  | some change => { whitespace with
      afterLineNumber := change.newAfterLineNumber, height := change.newHeight }

def applyRemoveAndChange (changes : List PendingChange) (removes : List PendingRemove)
    (whitespaces : List EditorWhitespace) : List EditorWhitespace :=
  (whitespaces.filter fun whitespace =>
    !removes.any fun remove => remove.id == whitespace.id).map (applyChange changes)

namespace LinesLayout

/-- Only one thing happened. -/
def commitOne (layout : LinesLayout) (inserts : List EditorWhitespace)
    (changes : List PendingChange) (removes : List PendingRemove) : LinesLayout :=
  let inserted := inserts.foldl insertWhitespace layout
  let changed := changes.foldl changeOneWhitespace inserted
  removes.foldl removeOneWhitespace changed

/-- The array is built anew. -/
def rebuild (layout : LinesLayout) (inserts : List EditorWhitespace)
    (changes : List PendingChange) (removes : List PendingRemove) : LinesLayout :=
  { layout with
    arr := (applyRemoveAndChange changes removes layout.arr ++
      applyRemoveAndChange changes removes inserts).mergeSort sortsBefore
    prefixSumValidIndex := -1 }

def commitPendingChanges (layout : LinesLayout) (inserts : List EditorWhitespace)
    (changes : List PendingChange) (removes : List PendingRemove) : LinesLayout :=
  let layout := if inserts.length > 0 ∨ removes.length > 0 then
    { layout with minWidth := -1 } else layout
  if inserts.length + changes.length + removes.length ≤ 1 then
    layout.commitOne inserts changes removes
  else layout.rebuild inserts changes removes

/-- `PendingChanges.commit`, and `_checkPendingChanges`, which does the same. -/
def checkPendingChanges (layout : LinesLayout) : LinesLayout :=
  let pending := layout.pendingChanges
  if pending.hasPending then
    { layout with pendingChanges := .empty }.commitPendingChanges
      pending.inserts pending.changes pending.removes
  else layout

/-! ## Changes of the layout -/

def setLineHeight (layout : LinesLayout) (lineHeight : Int) : LinesLayout :=
  { layout.checkPendingChanges with lineHeight := lineHeight }

def setPadding (layout : LinesLayout) (paddingTop paddingBottom : Int) : LinesLayout :=
  { layout with paddingTop := paddingTop, paddingBottom := paddingBottom }

def onFlushed (layout : LinesLayout) (lineCount : Int) : LinesLayout :=
  { layout.checkPendingChanges with lineCount := lineCount }

end LinesLayout

/-- Where a line stands after the lines have been deleted. -/
def lineAfterDeletion (fromLineNumber toLineNumber afterLineNumber : Int) : Int :=
  if fromLineNumber ≤ afterLineNumber ∧ afterLineNumber ≤ toLineNumber then fromLineNumber - 1
  else if afterLineNumber > toLineNumber then
    afterLineNumber - (toLineNumber - fromLineNumber + 1)
  else afterLineNumber

/-- Where a line stands after lines have been inserted. -/
def lineAfterInsertion (fromLineNumber toLineNumber afterLineNumber : Int) : Int :=
  if fromLineNumber ≤ afterLineNumber then
    afterLineNumber + (toLineNumber - fromLineNumber + 1)
  else afterLineNumber

def EditorWhitespace.moveLine (line : Int → Int) (whitespace : EditorWhitespace) :
    EditorWhitespace :=
  { whitespace with afterLineNumber := line whitespace.afterLineNumber }

/-- The calls of the accessor that `changeWhitespace` passes to its callback. -/
inductive AccessorCall where
  | insertWhitespace (afterLineNumber ordinal heightInPx minWidth : Int)
  | changeOneWhitespace (id : Nat) (newAfterLineNumber newHeight : Int)
  | removeWhitespace (id : Nat)
deriving DecidableEq, Repr

namespace LinesLayout

def onLinesDeleted (layout : LinesLayout) (fromLineNumber toLineNumber : Int) : LinesLayout :=
  let layout := layout.checkPendingChanges
  let fromLineNumber := toInt32 fromLineNumber
  let toLineNumber := toInt32 toLineNumber
  { layout with
    lineCount := layout.lineCount - (toLineNumber - fromLineNumber + 1)
    arr := layout.arr.map (.moveLine (lineAfterDeletion fromLineNumber toLineNumber)) }

def onLinesInserted (layout : LinesLayout) (fromLineNumber toLineNumber : Int) : LinesLayout :=
  let layout := layout.checkPendingChanges
  let fromLineNumber := toInt32 fromLineNumber
  let toLineNumber := toInt32 toLineNumber
  { layout with
    lineCount := layout.lineCount + (toLineNumber - fromLineNumber + 1)
    arr := layout.arr.map (.moveLine (lineAfterInsertion fromLineNumber toLineNumber)) }

def access (layout : LinesLayout) : AccessorCall → LinesLayout
  | .insertWhitespace afterLineNumber ordinal heightInPx minWidth =>
    { layout with
      lastWhitespaceId := layout.lastWhitespaceId + 1
      pendingChanges := layout.pendingChanges.insert
        { id := layout.lastWhitespaceId + 1, afterLineNumber := toInt32 afterLineNumber
          ordinal := toInt32 ordinal, height := toInt32 heightInPx
          minWidth := toInt32 minWidth, prefixSum := 0 } }
  | .changeOneWhitespace id newAfterLineNumber newHeight =>
    { layout with
      pendingChanges := layout.pendingChanges.change
        ⟨id, toInt32 newAfterLineNumber, toInt32 newHeight⟩ }
  | .removeWhitespace id =>
    { layout with pendingChanges := layout.pendingChanges.remove ⟨id⟩ }

/-- `changeWhitespace` with a callback that makes the calls. -/
def changeWhitespace (layout : LinesLayout) (calls : List AccessorCall) : LinesLayout :=
  (calls.foldl access layout).checkPendingChanges

end LinesLayout

end CodeEditor.ViewLayout
