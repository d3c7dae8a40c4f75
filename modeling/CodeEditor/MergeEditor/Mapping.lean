import CodeEditor.Foundation.Arrays

/-!
# Line range mappings

Model of `LineRange`, `LineRangeMapping`, `DocumentLineRangeMap` and `MappingAlignment` of
the merge editor (`lineRange.ts`, `mapping.ts`). Constructors and assertions that throw
give `none`.
-/

namespace CodeEditor.MergeEditor

/-! ## Ranges of lines -/

structure LineRange where
  startLineNumber : Int
  lineCount : Int
  nonneg : 0 ≤ lineCount
  deriving DecidableEq

namespace LineRange

/-- The constructor. -/
def new (startLineNumber lineCount : Int) : Option LineRange :=
  if nonneg : 0 ≤ lineCount then some ⟨startLineNumber, lineCount, nonneg⟩ else none

def endLineNumberExclusive (range : LineRange) : Int :=
  range.startLineNumber + range.lineCount

/-- The line count is taken from the start of `range`, which has to come first. -/
def join (range other : LineRange) : Option LineRange :=
  new (min range.startLineNumber other.startLineNumber)
    (max range.endLineNumberExclusive other.endLineNumberExclusive - range.startLineNumber)

/-- There is no line between the two ranges. -/
def touches (range other : LineRange) : Bool :=
  range.endLineNumberExclusive ≥ other.startLineNumber &&
    other.endLineNumberExclusive ≥ range.startLineNumber

def isBefore (range other : LineRange) : Bool :=
  other.startLineNumber ≥ range.endLineNumberExclusive

def delta (range : LineRange) (lineDelta : Int) : LineRange :=
  ⟨range.startLineNumber + lineDelta, range.lineCount, range.nonneg⟩

def containsRange (range other : LineRange) : Bool :=
  range.startLineNumber ≤ other.startLineNumber &&
    other.endLineNumberExclusive ≤ range.endLineNumberExclusive

end LineRange

/-! ## Mappings -/

structure LineRangeMapping where
  inputRange : LineRange
  outputRange : LineRange
  deriving DecidableEq

namespace LineRangeMapping

def extendInputRange (mapping : LineRangeMapping) (extendedInputRange : LineRange) :
    Option LineRangeMapping :=
  if !extendedInputRange.containsRange mapping.inputRange then none
  else do
    let startDelta := extendedInputRange.startLineNumber - mapping.inputRange.startLineNumber
    let endDelta := extendedInputRange.endLineNumberExclusive -
      mapping.inputRange.endLineNumberExclusive
    let outputRange ← LineRange.new (mapping.outputRange.startLineNumber + startDelta)
      (mapping.outputRange.lineCount - startDelta + endDelta)
    some ⟨extendedInputRange, outputRange⟩

def join (mapping other : LineRangeMapping) : Option LineRangeMapping := do
  let inputRange ← mapping.inputRange.join other.inputRange
  let outputRange ← mapping.outputRange.join other.outputRange
  some ⟨inputRange, outputRange⟩

/-- The static `join` of a list with a first mapping. -/
def joinAll (first : LineRangeMapping) (rest : List LineRangeMapping) :
    Option LineRangeMapping :=
  rest.foldlM join first

def resultingDeltaFromOriginalToModified (mapping : LineRangeMapping) : Int :=
  mapping.outputRange.endLineNumberExclusive - mapping.inputRange.endLineNumberExclusive

end LineRangeMapping

/-- The condition of the constructor of `DocumentLineRangeMap` on adjacent mappings. -/
def isAdjacent (m1 m2 : LineRangeMapping) : Bool :=
  m1.inputRange.isBefore m2.inputRange && m1.outputRange.isBefore m2.outputRange &&
    m2.inputRange.startLineNumber - m1.inputRange.endLineNumberExclusive =
      m2.outputRange.startLineNumber - m1.outputRange.endLineNumberExclusive

structure DocumentLineRangeMap where
  lineRangeMappings : List LineRangeMapping
  inputLineCount : Int
  adjacent : checkAdjacentItems isAdjacent lineRangeMappings = true

namespace DocumentLineRangeMap

/-- The constructor. -/
def new (lineRangeMappings : List LineRangeMapping) (inputLineCount : Int) :
    Option DocumentLineRangeMap :=
  if adjacent : checkAdjacentItems isAdjacent lineRangeMappings = true then
    some ⟨lineRangeMappings, inputLineCount, adjacent⟩
  else none

end DocumentLineRangeMap

/-- `outputLineCount` for the mappings of a document with `inputLineCount` lines. -/
def outputLineCount (lineRangeMappings : List LineRangeMapping) (inputLineCount : Int) : Int :=
  match lineRangeMappings.getLast? with
  | none => inputLineCount
  | some last => inputLineCount + last.resultingDeltaFromOriginalToModified

/-! ## Alignments -/

/-- The index of one of the two outputs. -/
inductive Source
  | output1
  | output2
  deriving DecidableEq

structure MappingAlignment (T : Type) where
  inputRange : LineRange
  output1Range : LineRange
  output1LineMappings : List T
  output2Range : LineRange
  output2LineMappings : List T

namespace MappingAlignment

variable {T : Type}

def outputRange (alignment : MappingAlignment T) : Source → LineRange
  | .output1 => alignment.output1Range
  | .output2 => alignment.output2Range

def outputLineMappings (alignment : MappingAlignment T) : Source → List T
  | .output1 => alignment.output1LineMappings
  | .output2 => alignment.output2LineMappings

end MappingAlignment

section Compute

variable {T : Type} (mapping : T → LineRangeMapping)

/-- The diffs of both outputs by the start of their input range; the sort is stable. -/
def combinedDiffs (fromInputToOutput1 fromInputToOutput2 : List T) : List (Source × T) :=
  (fromInputToOutput1.map (Source.output1, ·) ++
      fromInputToOutput2.map (Source.output2, ·)).mergeSort fun a b =>
    (mapping a.2).inputRange.startLineNumber ≤ (mapping b.2).inputRange.startLineNumber

/-- What the sweep has gathered for the current group. -/
structure Gathered (T : Type) where
  currentDiffs : Source → List T
  deltaFromBaseToInput : Source → Int

/-- `LineRangeMapping.join(currentDiffs[source]) || new LineRangeMapping(…)`, extended to
the range of the group: the output range of the group. -/
def groupOutput (gathered : Gathered T) (inputRange : LineRange) (source : Source) :
    Option LineRange := do
  let joined ←
    match (gathered.currentDiffs source).map mapping with
    | [] => some ⟨inputRange, inputRange.delta (gathered.deltaFromBaseToInput source)⟩
    | first :: rest => LineRangeMapping.joinAll first rest
  let extended ← joined.extendInputRange inputRange
  some extended.outputRange

/-- The alignment that `pushAndReset` pushes. -/
def pushed (gathered : Gathered T) (inputRange : LineRange) : Option (MappingAlignment T) := do
  let output1Range ← groupOutput mapping gathered inputRange .output1
  let output2Range ← groupOutput mapping gathered inputRange .output2
  some {
    inputRange
    output1Range
    output1LineMappings := gathered.currentDiffs .output1
    output2Range
    output2LineMappings := gathered.currentDiffs .output2 }

/-- Empty both lists of diffs. -/
def Gathered.reset (gathered : Gathered T) : Gathered T :=
  { gathered with currentDiffs := fun _ => [] }

/-- Put a diff into the current group. -/
def Gathered.add (gathered : Gathered T) (source : Source) (diff : T) : Gathered T where
  currentDiffs s :=
    if s = source then gathered.currentDiffs s ++ [diff] else gathered.currentDiffs s
  deltaFromBaseToInput s :=
    if s = source then (mapping diff).resultingDeltaFromOriginalToModified
    else gathered.deltaFromBaseToInput s

/-- The sweep over the combined diffs, with the alignments that are still to come. -/
def alignLoop : List (Source × T) → Gathered T → (currentInputRange : Option LineRange) →
    Option (List (MappingAlignment T))
  | [], _, none => some []
  | [], gathered, some current => do some [← pushed mapping gathered current]
  | (source, diff) :: diffs, gathered, none =>
    alignLoop diffs (gathered.add mapping source diff) (some (mapping diff).inputRange)
  | (source, diff) :: diffs, gathered, some current =>
    let range := (mapping diff).inputRange
    if current.touches range then do
      let joined ← current.join range
      alignLoop diffs (gathered.add mapping source diff) (some joined)
    else do
      let alignment ← pushed mapping gathered current
      let alignments ← alignLoop diffs (gathered.reset.add mapping source diff) (some range)
      some (alignment :: alignments)

def MappingAlignment.compute (fromInputToOutput1 fromInputToOutput2 : List T) :
    Option (List (MappingAlignment T)) :=
  alignLoop mapping (combinedDiffs mapping fromInputToOutput1 fromInputToOutput2)
    ⟨fun _ => [], fun _ => 0⟩ none

def DocumentLineRangeMap.betweenOutputs (inputToOutput1 inputToOutput2 : List T)
    (inputLineCount : Int) : Option DocumentLineRangeMap := do
  let alignments ← MappingAlignment.compute mapping inputToOutput1 inputToOutput2
  new (alignments.map fun m => ⟨m.output1Range, m.output2Range⟩) inputLineCount

end Compute

end CodeEditor.MergeEditor
