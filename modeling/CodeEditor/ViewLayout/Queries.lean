import CodeEditor.ViewLayout.Whitespaces

/-!
# Questions about the layout

Model of what `LinesLayout` answers, with the prefix sums that it keeps while it answers.
-/

namespace CodeEditor.ViewLayout

/-- A computation that may change the layout, and that may throw. -/
abbrev Reading (A : Type) := StateT LinesLayout Option A

namespace LinesLayout

def check : Reading Unit := modify checkPendingChanges

def whitespaceAt (index : Nat) : Reading EditorWhitespace := do
  let layout ← get
  StateT.lift layout.arr[index]?

/-! ## Prefix sums -/

/-- The loop over `[i, i + count)`. -/
def accumulateLoop : Nat → Nat → List EditorWhitespace → Option (List EditorWhitespace)
  | 0, _, arr => some arr
  | count + 1, i, arr => do
      let previous ← arr[i - 1]?
      let whitespace ← arr[i]?
      accumulateLoop count (i + 1)
        (arr.set i { whitespace with prefixSum := previous.prefixSum + whitespace.height })

/-- The prefix sums up to an index, where those up to another one are right. -/
def accumulate (arr : List EditorWhitespace) (prefixSumValidIndex : Int) (index : Nat) :
    Option (List EditorWhitespace) :=
  let startIndex := max 0 (prefixSumValidIndex + 1)
  if startIndex = 0 then do
    let first ← arr[0]?
    accumulateLoop index 1 (arr.set 0 { first with prefixSum := first.height })
  else accumulateLoop (index + 1 - startIndex.toNat) startIndex.toNat arr

def getWhitespacesAccumulatedHeight (index : Nat) : Reading Int := do
  check
  let layout ← get
  let arr ← StateT.lift (accumulate layout.arr layout.prefixSumValidIndex index)
  set { layout with
    arr := arr
    prefixSumValidIndex := max layout.prefixSumValidIndex index }
  let whitespace ← whitespaceAt index
  return whitespace.prefixSum

def getWhitespacesTotalHeight : Reading Int := do
  check
  let layout ← get
  if layout.arr.length = 0 then return 0
  else getWhitespacesAccumulatedHeight (layout.arr.length - 1)

def getLinesTotalHeight : Reading Int := do
  check
  let layout ← get
  let whitespacesHeight ← getWhitespacesTotalHeight
  return layout.lineHeight * layout.lineCount + whitespacesHeight + layout.paddingTop +
    layout.paddingBottom

end LinesLayout

/-- The loop of `_findLastWhitespaceBeforeLineNumber`, over the indices in `[low, stop)`. -/
def findLastWhitespaceLoop (arr : List EditorWhitespace) (lineNumber : Int) (low stop : Nat) :
    Option Nat :=
  if low < stop then
    let mid := low + (stop - 1 - low) / 2
    match arr[mid]? with
    | none => none  -- not reached: `stop` is at most the length of the array
    | some whitespace =>
      if whitespace.afterLineNumber < lineNumber then
        match arr[mid + 1]? with
        | none => some mid
        | some following =>
          if following.afterLineNumber ≥ lineNumber then some mid
          else findLastWhitespaceLoop arr lineNumber (mid + 1) stop
      else findLastWhitespaceLoop arr lineNumber low mid
  else none
termination_by stop - low

/-- The private `_findLastWhitespaceBeforeLineNumber`. -/
def findLastWhitespaceBeforeLineNumber (arr : List EditorWhitespace) (lineNumber : Int) :
    Option Nat :=
  findLastWhitespaceLoop arr (toInt32 lineNumber) 0 arr.length

/-- The private `_findFirstWhitespaceAfterLineNumber`. -/
def findFirstWhitespaceAfterLineNumber (arr : List EditorWhitespace) (lineNumber : Int) :
    Option Nat :=
  let firstWhitespaceAfterLineNumber :=
    match findLastWhitespaceBeforeLineNumber arr (toInt32 lineNumber) with
    | none => 0
    | some lastWhitespaceBeforeLineNumber => lastWhitespaceBeforeLineNumber + 1
  if firstWhitespaceAfterLineNumber < arr.length then some firstWhitespaceAfterLineNumber
  else none

namespace LinesLayout

/-! ## Offsets of lines -/

def getWhitespaceAccumulatedHeightBeforeLineNumber (lineNumber : Int) : Reading Int := do
  check
  let layout ← get
  match findLastWhitespaceBeforeLineNumber layout.arr (toInt32 lineNumber) with
  | none => return 0
  | some lastWhitespaceBeforeLineNumber =>
    getWhitespacesAccumulatedHeight lastWhitespaceBeforeLineNumber

def getFirstWhitespaceIndexAfterLineNumber (lineNumber : Int) : Reading (Option Nat) := do
  check
  let layout ← get
  return findFirstWhitespaceAfterLineNumber layout.arr (toInt32 lineNumber)

def getVerticalOffsetForLineNumber (lineNumber : Int) (includeViewZones : Bool) :
    Reading Int := do
  check
  let layout ← get
  let lineNumber := toInt32 lineNumber
  let previousLinesHeight :=
    if lineNumber > 1 then layout.lineHeight * (lineNumber - 1) else 0
  let previousWhitespacesHeight ← getWhitespaceAccumulatedHeightBeforeLineNumber
    (lineNumber - if includeViewZones then 1 else 0)
  return previousLinesHeight + previousWhitespacesHeight + layout.paddingTop

def getVerticalOffsetAfterLineNumber (lineNumber : Int) (includeViewZones : Bool) :
    Reading Int := do
  check
  let layout ← get
  let lineNumber := toInt32 lineNumber
  let previousLinesHeight := layout.lineHeight * lineNumber
  let previousWhitespacesHeight ← getWhitespaceAccumulatedHeightBeforeLineNumber
    (lineNumber + if includeViewZones then 1 else 0)
  return previousLinesHeight + previousWhitespacesHeight + layout.paddingTop

def isAfterLines (verticalOffset : Rat) : Reading Bool := do
  check
  let totalHeight ← getLinesTotalHeight
  return verticalOffset > totalHeight

def isInTopPadding (verticalOffset : Rat) : Reading Bool := do
  let layout ← get
  if layout.paddingTop = 0 then return false
  else do
    check
    let layout ← get
    return verticalOffset < layout.paddingTop

def isInBottomPadding (verticalOffset : Rat) : Reading Bool := do
  let layout ← get
  if layout.paddingBottom = 0 then return false
  else do
    check
    let totalHeight ← getLinesTotalHeight
    let layout ← get
    return verticalOffset ≥ totalHeight - layout.paddingBottom

/-! ## Searching for an offset -/

/-- The loop of `getLineNumberAtOrAfterVerticalOffset`, and of
`getWhitespaceIndexAtOrAfterVerticallOffset`, over slots that have a top and a height. -/
def searchSlot (slot : Nat → Reading (Int × Int)) (verticalOffset : Int) (low high : Nat) :
    Reading Nat :=
  if low < high then do
    let mid := (low + high) / 2
    let (top, height) ← slot mid
    if verticalOffset ≥ top + height then searchSlot slot verticalOffset (mid + 1) high
    else if verticalOffset ≥ top then return mid
    else searchSlot slot verticalOffset low mid
  else return low
termination_by high - low

def lineSlot (lineHeight : Int) (lineNumber : Nat) : Reading (Int × Int) := do
  let verticalOffset ← getVerticalOffsetForLineNumber lineNumber false
  return (toInt32 verticalOffset, lineHeight)

def getLineNumberAtOrAfterVerticalOffset (verticalOffset : Rat) : Reading Int := do
  check
  let layout ← get
  let verticalOffset := truncate verticalOffset
  if verticalOffset < 0 then return 1
  else do
    let linesCount := toInt32 layout.lineCount
    let minLineNumber ← searchSlot (lineSlot layout.lineHeight) verticalOffset 1 linesCount.toNat
    return if (minLineNumber : Int) > linesCount then linesCount else minLineNumber

def getHeightForWhitespaceIndex (index : Nat) : Reading Int := do
  check
  let whitespace ← whitespaceAt index
  return whitespace.height

def getAfterLineNumberForWhitespaceIndex (index : Nat) : Reading Int := do
  check
  let whitespace ← whitespaceAt index
  return whitespace.afterLineNumber

def getIdForWhitespaceIndex (index : Nat) : Reading Nat := do
  check
  let whitespace ← whitespaceAt index
  return whitespace.id

def getWhitespacesCount : Reading Nat := do
  check
  let layout ← get
  return layout.arr.length

/-- The height of the whitespaces in front of an index. -/
def previousWhitespacesHeight (whitespaceIndex : Nat) : Reading Int :=
  if whitespaceIndex > 0 then getWhitespacesAccumulatedHeight (whitespaceIndex - 1)
  else return 0

def getVerticalOffsetForWhitespaceIndex (whitespaceIndex : Nat) : Reading Int := do
  check
  let layout ← get
  let afterLineNumber ← getAfterLineNumberForWhitespaceIndex whitespaceIndex
  let previousLinesHeight :=
    if afterLineNumber ≥ 1 then layout.lineHeight * afterLineNumber else 0
  let previousHeight ← previousWhitespacesHeight whitespaceIndex
  return previousLinesHeight + previousHeight + layout.paddingTop

def whitespaceSlot (whitespaceIndex : Nat) : Reading (Int × Int) := do
  let top ← getVerticalOffsetForWhitespaceIndex whitespaceIndex
  let height ← getHeightForWhitespaceIndex whitespaceIndex
  return (top, height)

def getWhitespaceIndexAtOrAfterVerticallOffset (verticalOffset : Rat) :
    Reading (Option Nat) := do
  check
  let verticalOffset := truncate verticalOffset
  let count ← getWhitespacesCount
  if count = 0 then return none
  else do
    let maxWhitespaceIndex := count - 1
    let (maxWhitespaceVerticalOffset, maxWhitespaceHeight) ← whitespaceSlot maxWhitespaceIndex
    if verticalOffset ≥ maxWhitespaceVerticalOffset + maxWhitespaceHeight then return none
    else do
      let minWhitespaceIndex ← searchSlot whitespaceSlot verticalOffset 0 maxWhitespaceIndex
      return some minWhitespaceIndex

/-! ## Whitespaces of a viewport -/

end LinesLayout

structure ViewWhitespaceViewportData where
  id : Nat
  afterLineNumber : Int
  verticalOffset : Int
  height : Int
deriving DecidableEq, Repr

namespace LinesLayout

def viewportDataAt (index : Nat) : Reading ViewWhitespaceViewportData := do
  let top ← getVerticalOffsetForWhitespaceIndex index
  let height ← getHeightForWhitespaceIndex index
  let id ← getIdForWhitespaceIndex index
  let afterLineNumber ← getAfterLineNumberForWhitespaceIndex index
  return ⟨id, afterLineNumber, top, height⟩

def getWhitespaceAtVerticalOffset (verticalOffset : Rat) :
    Reading (Option ViewWhitespaceViewportData) := do
  check
  let candidateIndex ← getWhitespaceIndexAtOrAfterVerticallOffset (truncate verticalOffset)
  match candidateIndex with
  | none => return none
  | some candidateIndex => do
      let count ← getWhitespacesCount
      if candidateIndex ≥ count then return none
      else do
        let candidate ← viewportDataAt candidateIndex
        if candidate.verticalOffset > truncate verticalOffset then return none
        else return some candidate

/-- The loop of `getWhitespaceViewportData`, over `count` indices. -/
def whitespacesFrom (verticalOffset2 : Int) :
    Nat → Nat → Reading (List ViewWhitespaceViewportData)
  | 0, _ => return []
  | count + 1, i => do
      let data ← viewportDataAt i
      if data.verticalOffset ≥ verticalOffset2 then return []
      else do
        let result ← whitespacesFrom verticalOffset2 count (i + 1)
        return data :: result

def getWhitespaceViewportData (verticalOffset1 verticalOffset2 : Rat) :
    Reading (List ViewWhitespaceViewportData) := do
  check
  let verticalOffset1 := truncate verticalOffset1
  let verticalOffset2 := truncate verticalOffset2
  let startIndex ← getWhitespaceIndexAtOrAfterVerticallOffset verticalOffset1
  let count ← getWhitespacesCount
  match startIndex with
  | none => return []
  | some startIndex => whitespacesFrom verticalOffset2 (count - startIndex) startIndex

def getWhitespaceMinWidth : Reading Int := do
  check
  let layout ← get
  if layout.minWidth = -1 then do
    let minWidth := layout.arr.foldl (fun width whitespace => max width whitespace.minWidth) 0
    set { layout with minWidth := minWidth }
    return minWidth
  else return layout.minWidth

end LinesLayout

/-!
## Lines of a viewport

Model of `getLinesViewportData`.
-/

structure PartialViewLinesViewportData where
  bigNumbersDelta : Int
  startLineNumber : Int
  endLineNumber : Int
  relativeVerticalOffset : List Int
  centeredLineNumber : Int
  completelyVisibleStartLineNumber : Int
  completelyVisibleEndLineNumber : Int
  lineHeight : Int
deriving DecidableEq, Repr

/-- The variables of `getLinesViewportData` that go from line to line. -/
structure LineCursor where
  whitespaceIndex : Nat
  currentWhitespaceAfterLineNumber : Int
  currentWhitespaceHeight : Int
  currentVerticalOffset : Int
  currentLineRelativeOffset : Int
deriving DecidableEq, Repr

def LineCursor.addLine (cursor : LineCursor) (lineHeight : Int) : LineCursor :=
  { cursor with
    currentVerticalOffset := cursor.currentVerticalOffset + lineHeight
    currentLineRelativeOffset := cursor.currentLineRelativeOffset + lineHeight }

namespace LinesLayout

/-- The cursor in front of the loop. -/
def startCursor (endLineNumber verticalOffset delta : Int) (whitespaceCount : Nat) :
    Option Nat → Reading LineCursor
  | none => return ⟨whitespaceCount, endLineNumber + 1, 0, verticalOffset, verticalOffset - delta⟩
  | some whitespaceIndex => do
      let afterLineNumber ← getAfterLineNumberForWhitespaceIndex whitespaceIndex
      let height ← getHeightForWhitespaceIndex whitespaceIndex
      return ⟨whitespaceIndex, toInt32 afterLineNumber, toInt32 height, verticalOffset,
        verticalOffset - delta⟩

/-- The loop over the whitespaces behind a line. -/
def pushWhitespaces (lineNumber endLineNumber : Int) (whitespaceCount : Nat)
    (cursor : LineCursor) : Reading LineCursor :=
  if cursor.currentWhitespaceAfterLineNumber = lineNumber then do
    let pushed := { cursor with
      whitespaceIndex := cursor.whitespaceIndex + 1
      currentVerticalOffset := cursor.currentVerticalOffset + cursor.currentWhitespaceHeight
      currentLineRelativeOffset :=
        cursor.currentLineRelativeOffset + cursor.currentWhitespaceHeight }
    if cursor.whitespaceIndex + 1 ≥ whitespaceCount then
      -- The loop ends, since the line is not behind `endLineNumber`.
      return { pushed with currentWhitespaceAfterLineNumber := endLineNumber + 1 }
    else do
      let afterLineNumber ← getAfterLineNumberForWhitespaceIndex (cursor.whitespaceIndex + 1)
      let height ← getHeightForWhitespaceIndex (cursor.whitespaceIndex + 1)
      pushWhitespaces lineNumber endLineNumber whitespaceCount { pushed with
        currentWhitespaceAfterLineNumber := toInt32 afterLineNumber
        currentWhitespaceHeight := toInt32 height }
  else return cursor
termination_by whitespaceCount - cursor.whitespaceIndex

/-- The first line that reaches the center, once it has been found. -/
def centeredLine (lineHeight : Int) (verticalCenter : Rat)
    (currentLineTop lineNumber centeredLineNumber : Int) : Int :=
  let currentLineBottom := currentLineTop + lineHeight
  if centeredLineNumber = -1 ∧
      ((currentLineTop ≤ verticalCenter ∧ verticalCenter < currentLineBottom) ∨
        currentLineTop > verticalCenter) then lineNumber
  else centeredLineNumber

/-- The loop over `count` lines: the relative offsets, the centered line and the last line. -/
def linesLoop (lineHeight verticalOffset2 : Int) (verticalCenter : Rat) (endLineNumber : Int)
    (whitespaceCount : Nat) :
    Nat → Int → LineCursor → Int → Reading (List Int × Int × Int)
  | 0, _, _, centeredLineNumber => return ([], centeredLineNumber, endLineNumber)
  | count + 1, lineNumber, cursor, centeredLineNumber => do
      let centeredLineNumber := centeredLine lineHeight verticalCenter
        cursor.currentVerticalOffset lineNumber centeredLineNumber
      let following ← pushWhitespaces lineNumber endLineNumber whitespaceCount
        (cursor.addLine lineHeight)
      if following.currentVerticalOffset ≥ verticalOffset2 then
        return ([cursor.currentLineRelativeOffset], centeredLineNumber, lineNumber)
      else do
        let (linesOffsets, centeredLineNumber, lastLineNumber) ← linesLoop lineHeight
          verticalOffset2 verticalCenter endLineNumber whitespaceCount count (lineNumber + 1)
          following centeredLineNumber
        return (cursor.currentLineRelativeOffset :: linesOffsets, centeredLineNumber,
          lastLineNumber)

/-- The multiple of 500000 below an offset, rounded down to a multiple of the line height. -/
def bigNumbersDelta (startLineNumberVerticalOffset lineHeight : Int) : Int :=
  if startLineNumberVerticalOffset ≥ 500000 then
    ((startLineNumberVerticalOffset.fdiv 500000 * 500000).fdiv lineHeight) * lineHeight
  else 0

def getLinesViewportData (verticalOffset1 verticalOffset2 : Rat) :
    Reading PartialViewLinesViewportData := do
  check
  let layout ← get
  let verticalOffset1 := truncate verticalOffset1
  let verticalOffset2 := truncate verticalOffset2
  let lineHeight := layout.lineHeight
  let startLineNumber := toInt32 (← getLineNumberAtOrAfterVerticalOffset verticalOffset1)
  let startLineNumberVerticalOffset :=
    toInt32 (← getVerticalOffsetForLineNumber startLineNumber false)
  let endLineNumber := toInt32 layout.lineCount
  let whitespaceIndex ← getFirstWhitespaceIndexAfterLineNumber startLineNumber
  let whitespaceCount ← getWhitespacesCount
  let delta := LinesLayout.bigNumbersDelta startLineNumberVerticalOffset lineHeight
  let cursor ← startCursor endLineNumber startLineNumberVerticalOffset delta whitespaceCount
    whitespaceIndex
  let verticalCenter : Rat := verticalOffset1 + (verticalOffset2 - verticalOffset1) / 2
  let (linesOffsets, centeredLineNumber, lastLineNumber) ← linesLoop lineHeight verticalOffset2
    verticalCenter endLineNumber whitespaceCount (endLineNumber + 1 - startLineNumber).toNat
    startLineNumber cursor (-1)
  let centeredLineNumber := if centeredLineNumber = -1 then lastLineNumber else centeredLineNumber
  let endLineNumberVerticalOffset :=
    toInt32 (← getVerticalOffsetForLineNumber lastLineNumber false)
  let completelyVisibleStartLineNumber :=
    if startLineNumber < lastLineNumber ∧ startLineNumberVerticalOffset < verticalOffset1 then
      startLineNumber + 1
    else startLineNumber
  let completelyVisibleEndLineNumber :=
    if completelyVisibleStartLineNumber < lastLineNumber ∧
        endLineNumberVerticalOffset + lineHeight > verticalOffset2 then lastLineNumber - 1
    else lastLineNumber
  return {
    bigNumbersDelta := delta
    startLineNumber := startLineNumber
    endLineNumber := lastLineNumber
    relativeVerticalOffset := linesOffsets
    centeredLineNumber := centeredLineNumber
    completelyVisibleStartLineNumber := completelyVisibleStartLineNumber
    completelyVisibleEndLineNumber := completelyVisibleEndLineNumber
    lineHeight := lineHeight }

end LinesLayout

end CodeEditor.ViewLayout
