import CodeEditor.BracketPairs.Length
import CodeEditor.Edits.LineEdit

/-!
# The position mapper

Model of `BeforeEditPositionMapper` (`beforeEditPositionMapper.ts`). The mapper keeps one
delta for lines, and one for the columns of a single line of the old document; queries come
in the order of their offsets.
-/

namespace CodeEditor.BracketPairs

open List

open Edits (TextLength)

def lengthToObj (length : Length) : TextLength := ⟨length.lines, length.columns⟩

structure TextEditInfoCache where
  endOffsetBeforeObj : TextLength
  endOffsetAfterObj : TextLength
  offsetObj : TextLength

/-- `TextEditInfoCache.from`. -/
def TextEditInfoCache.ofEdit (edit : TextEditInfo) : TextEditInfoCache where
  endOffsetBeforeObj := lengthToObj edit.endOffset
  endOffsetAfterObj := lengthToObj (lengthAdd edit.startOffset edit.newLength)
  offsetObj := lengthToObj edit.startOffset

structure BeforeEditPositionMapper where
  nextEditIdx : Nat
  deltaOldToNewLineCount : Int
  deltaOldToNewColumnCount : Int
  deltaLineIdxInOld : Int
  edits : List TextEditInfoCache

namespace BeforeEditPositionMapper

def new (edits : List TextEditInfo) : BeforeEditPositionMapper :=
  ⟨0, 0, 0, -1, edits.map TextEditInfoCache.ofEdit⟩

def translateOldToCur (mapper : BeforeEditPositionMapper) (oldOffsetObj : TextLength) :
    Length :=
  if (oldOffsetObj.lineCount : Int) = mapper.deltaLineIdxInOld then
    toLength (oldOffsetObj.lineCount + mapper.deltaOldToNewLineCount)
      (oldOffsetObj.columnCount + mapper.deltaOldToNewColumnCount)
  else
    toLength (oldOffsetObj.lineCount + mapper.deltaOldToNewLineCount) oldOffsetObj.columnCount

def translateCurToOld (mapper : BeforeEditPositionMapper) (newOffset : Length) : Length :=
  let offsetObj := lengthToObj newOffset
  if offsetObj.lineCount - mapper.deltaOldToNewLineCount = mapper.deltaLineIdxInOld then
    toLength (offsetObj.lineCount - mapper.deltaOldToNewLineCount)
      (offsetObj.columnCount - mapper.deltaOldToNewColumnCount)
  else toLength (offsetObj.lineCount - mapper.deltaOldToNewLineCount) offsetObj.columnCount

/-- The body of the loop for an edit that is skipped. -/
def skipEdit (mapper : BeforeEditPositionMapper) (nextEdit : TextEditInfoCache) :
    BeforeEditPositionMapper :=
  let nextEditEndOffsetInCurObj :=
    lengthToObj (mapper.translateOldToCur nextEdit.endOffsetAfterObj)
  let nextEditEndOffsetBeforeInCurObj :=
    lengthToObj (mapper.translateOldToCur nextEdit.endOffsetBeforeObj)
  let lineDelta : Int :=
    nextEditEndOffsetInCurObj.lineCount - nextEditEndOffsetBeforeInCurObj.lineCount
  let previousColumnDelta :=
    if mapper.deltaLineIdxInOld = nextEdit.endOffsetBeforeObj.lineCount then
      mapper.deltaOldToNewColumnCount
    else 0
  let columnDelta : Int :=
    nextEditEndOffsetInCurObj.columnCount - nextEditEndOffsetBeforeInCurObj.columnCount
  { mapper with
    nextEditIdx := mapper.nextEditIdx + 1
    deltaOldToNewLineCount := mapper.deltaOldToNewLineCount + lineDelta
    deltaOldToNewColumnCount := previousColumnDelta + columnDelta
    deltaLineIdxInOld := nextEdit.endOffsetBeforeObj.lineCount }

/-- The loop of `adjustNextEdit`, over the edits from `nextEditIdx` on. -/
def adjustLoop (offset : Length) :
    (nextEdits : List TextEditInfoCache) → BeforeEditPositionMapper → BeforeEditPositionMapper
  | [], mapper => mapper
  | nextEdit :: nextEdits, mapper =>
    if lengthLessThanEqual (mapper.translateOldToCur nextEdit.endOffsetAfterObj) offset then
      adjustLoop offset nextEdits (mapper.skipEdit nextEdit)
    else mapper

def adjustNextEdit (mapper : BeforeEditPositionMapper) (offset : Length) :
    BeforeEditPositionMapper :=
  adjustLoop offset (mapper.edits.drop mapper.nextEditIdx) mapper

/-- The offset, and the mapper after the call. -/
def getOffsetBeforeChange (mapper : BeforeEditPositionMapper) (offset : Length) :
    Length × BeforeEditPositionMapper :=
  let mapper := mapper.adjustNextEdit offset
  (mapper.translateCurToOld offset, mapper)

/-- The distance, and the mapper after the call. -/
def getDistanceToNextChange (mapper : BeforeEditPositionMapper) (offset : Length) :
    Option Length × BeforeEditPositionMapper :=
  let mapper := mapper.adjustNextEdit offset
  let nextChangeOffset := mapper.edits[mapper.nextEditIdx]?.map fun nextEdit =>
    mapper.translateOldToCur nextEdit.offsetObj
  (nextChangeOffset.map fun next => lengthDiffNonNegative offset next, mapper)

/-- One of the two queries. -/
inductive Call where
  | getOffsetBeforeChange (offset : Length)
  | getDistanceToNextChange (offset : Length)

def Call.offset : Call → Length
  | .getOffsetBeforeChange offset => offset
  | .getDistanceToNextChange offset => offset

/-- The mapper after a query. -/
def call (mapper : BeforeEditPositionMapper) : Call → BeforeEditPositionMapper
  | .getOffsetBeforeChange offset => (mapper.getOffsetBeforeChange offset).2
  | .getDistanceToNextChange offset => (mapper.getDistanceToNextChange offset).2

/-- The mapper after queries. -/
def run (mapper : BeforeEditPositionMapper) (calls : List Call) : BeforeEditPositionMapper :=
  calls.foldl call mapper

/-! ## The deltas -/

open ExtentEdit

/-- The deltas take places behind `stop` to places behind `newStop`. -/
structure Moves (mapper : BeforeEditPositionMapper) (stop newStop : Extent) : Prop where
  lines : mapper.deltaOldToNewLineCount = newStop.lines - stop.lines
  columns : mapper.deltaLineIdxInOld = stop.lines ∧
      mapper.deltaOldToNewColumnCount = newStop.columns - stop.columns ∨
    mapper.deltaLineIdxInOld = -1 ∧ stop.columns = newStop.columns

section Deltas

variable {mapper : BeforeEditPositionMapper} {stop newStop : Extent}

section

variable (moves : mapper.Moves stop newStop)

include moves

/-- The two directions of a place behind the last skipped edit. -/
theorem Moves.translate (rest : Extent) :
    mapper.translateOldToCur (lengthToObj (stop + rest)) = newStop + rest ∧
      mapper.translateCurToOld (newStop + rest) = stop + rest := by
  obtain ⟨lines, columns⟩ := moves
  simp only [translateOldToCur, translateCurToOld, lengthToObj, lines, Extent.lines_add, toLength]
  by_cases single : rest.lines = 0
  · rw [Extent.columns_add_of_eq _ single, Extent.columns_add_of_eq _ single]
    rcases columns with ⟨line, delta⟩ | ⟨line, same⟩
    · rw [if_pos (by omega), if_pos (by omega)]
      constructor <;> apply Extent.ext <;>
        simp only [Extent.lines_add, Extent.columns_add_of_eq _ single] <;> omega
    · rw [if_neg (by omega), if_neg (by omega)]
      constructor <;> apply Extent.ext <;>
        simp only [Extent.lines_add, Extent.columns_add_of_eq _ single] <;> omega
  · rw [Extent.columns_add_of_ne _ single, Extent.columns_add_of_ne _ single,
      if_neg (by omega), if_neg (by omega)]
    constructor <;> apply Extent.ext <;>
      simp only [Extent.lines_add, Extent.columns_add_of_ne _ single] <;> omega

/-- The end of the new text of the next edit. -/
theorem Moves.endAfter {e : TextEditInfo} (start : stop ≤ e.startOffset) :
    mapper.translateOldToCur (TextEditInfoCache.ofEdit e).endOffsetAfterObj =
      newEnd stop newStop e := by
  have moved := (moves.translate (e.startOffset - stop + e.newLength)).1
  rw [← add_assoc, ← add_assoc, Extent.add_sub_of_le start] at moved
  rw [TextEditInfoCache.ofEdit, lengthAdd_eq]
  exact moved

/-- The deltas behind an edit. -/
theorem Moves.skip {e : TextEditInfo} (start : stop ≤ e.startOffset)
    (ordered : e.startOffset ≤ e.endOffset) :
    (mapper.skipEdit (TextEditInfoCache.ofEdit e)).Moves e.endOffset (newEnd stop newStop e) := by
  obtain ⟨rest, isEnd⟩ := Extent.le_iff_exists_add.mp (start.trans ordered)
  have before : mapper.translateOldToCur (TextEditInfoCache.ofEdit e).endOffsetBeforeObj =
      newStop + rest := by
    rw [← (moves.translate rest).1, ← isEnd]
    rfl
  have after := moves.endAfter start
  have line : (TextEditInfoCache.ofEdit e).endOffsetBeforeObj.lineCount = e.endOffset.lines := rfl
  have endLines : e.endOffset.lines = stop.lines + rest.lines := by rw [isEnd, Extent.lines_add]
  obtain ⟨lines, columns⟩ := moves
  constructor
  · simp only [skipEdit, after, before, lines, lengthToObj, Extent.lines_add]
    omega
  · refine .inl ⟨rfl, ?_⟩
    simp only [skipEdit, after, before, line, lengthToObj]
    -- the old end, moved by the deltas so far
    have moved : ((newStop + rest).columns : Int) = e.endOffset.columns +
        if mapper.deltaLineIdxInOld = e.endOffset.lines then mapper.deltaOldToNewColumnCount
        else 0 := by
      rw [isEnd, Extent.columns_add, Extent.columns_add, ← isEnd]
      by_cases single : rest.lines = 0
      · rw [if_pos single, if_pos single]
        rcases columns with ⟨line, delta⟩ | ⟨line, same⟩
        · rw [if_pos (by omega)]
          omega
        · rw [if_neg (by omega)]
          omega
      · rw [if_neg single, if_neg single, if_neg (by omega)]
        omega
    omega

end

/-! ## The queries -/

end Deltas

/-- The mapper has skipped the edits in front of `rest`, which end at `stop`. -/
structure Skipped (mapper : BeforeEditPositionMapper) (edits rest : List TextEditInfo)
    (stop newStop : Extent) : Prop where
  caches : mapper.edits.drop mapper.nextEditIdx = rest.map TextEditInfoCache.ofEdit
  moves : mapper.Moves stop newStop
  sorted : SortedFrom stop rest
  place : ∀ offset, newStop ≤ offset →
    placeFrom 0 0 edits offset = placeFrom stop newStop rest offset
  nextStart : ∀ offset, newStop ≤ offset →
    nextStartFrom 0 0 edits offset = nextStartFrom stop newStop rest offset

section Queries

variable {mapper : BeforeEditPositionMapper} {edits rest : List TextEditInfo}
  {stop newStop offset : Extent}

theorem Skipped.new (sorted : Sorted edits) : (new edits).Skipped edits edits 0 0 where
  caches := rfl
  moves := ⟨rfl, .inr ⟨rfl, rfl⟩⟩
  sorted := sorted
  place _ _ := rfl
  nextStart _ _ := rfl

/-- One edit that ends at or before the offset is skipped. -/
theorem Skipped.skip {e : TextEditInfo} (skipped : mapper.Skipped edits (e :: rest) stop newStop) :
    (mapper.skipEdit (TextEditInfoCache.ofEdit e)).Skipped edits rest e.endOffset
      (newEnd stop newStop e) := by
  obtain ⟨caches, moves, ⟨start, ordered, later⟩, place, nextStart⟩ := skipped
  constructor
  · rw [map_cons] at caches
    have dropped := congrArg List.tail caches
    rw [tail_drop] at dropped
    exact dropped
  · exact moves.skip start ordered
  · exact later
  · intro offset behind
    rw [place offset ((newStop_le_newEnd e).trans behind), placeFrom, if_pos behind]
  · intro offset behind
    rw [nextStart offset ((newStop_le_newEnd e).trans behind), nextStartFrom, if_pos behind]

/-- The next edit is not entirely at or before the offset. -/
def Waits (rest : List TextEditInfo) (stop newStop offset : Extent) : Prop :=
  ∀ e ∈ rest.head?, ¬newEnd stop newStop e ≤ offset

section

variable (skipped : mapper.Skipped edits rest stop newStop)

include skipped

theorem adjustLoop_skipped (behind : newStop ≤ offset) :
    ∃ rest' stop' newStop', newStop' ≤ offset ∧ Waits rest' stop' newStop' offset ∧
      (adjustLoop offset (rest.map TextEditInfoCache.ofEdit) mapper).Skipped edits rest' stop'
        newStop' := by
  induction rest generalizing mapper stop newStop with
  | nil => exact ⟨[], stop, newStop, behind, by simp [Waits], skipped⟩
  | cons e rest ih =>
    have ends := skipped.moves.endAfter skipped.sorted.1
    rw [map_cons, adjustLoop, ends]
    by_cases before : newEnd stop newStop e ≤ offset
    · rw [if_pos (lengthLessThanEqual_iff.mpr before)]
      exact ih skipped.skip before
    · rw [if_neg (mt lengthLessThanEqual_iff.mp before)]
      exact ⟨e :: rest, stop, newStop, behind, by simpa [Waits] using before, skipped⟩

theorem adjustNextEdit_skipped (behind : newStop ≤ offset) :
    ∃ rest' stop' newStop', newStop' ≤ offset ∧ Waits rest' stop' newStop' offset ∧
      (mapper.adjustNextEdit offset).Skipped edits rest' stop' newStop' := by
  rw [adjustNextEdit, skipped.caches]
  exact adjustLoop_skipped skipped behind

/-- Queries in the order of their offsets keep what the mapper has skipped behind the next
offset. -/
theorem run_skipped {calls : List Call} (behind : ∀ c ∈ calls, newStop ≤ c.offset)
    (last : newStop ≤ offset) (ordered : (calls.map Call.offset ++ [offset]).Pairwise (· ≤ ·)) :
    ∃ rest' stop' newStop', newStop' ≤ offset ∧
      (mapper.run calls).Skipped edits rest' stop' newStop' := by
  induction calls generalizing mapper rest stop newStop with
  | nil => exact ⟨rest, stop, newStop, last, skipped⟩
  | cons c calls ih =>
    have same : mapper.call c = mapper.adjustNextEdit c.offset := by cases c <;> rfl
    have here := behind c (by simp)
    obtain ⟨rest', stop', newStop', upTo, -, skipped'⟩ := adjustNextEdit_skipped skipped here
    rw [← same] at skipped'
    rw [map_cons, cons_append, pairwise_cons] at ordered
    obtain ⟨next, ordered⟩ := ordered
    apply ih skipped' _ _ ordered
    · intro other later
      exact upTo.trans (next _ (mem_append_left _ (mem_map_of_mem later)))
    · exact upTo.trans (next _ (by simp))

theorem Skipped.getOffsetBeforeChange_eq (behind : newStop ≤ offset) :
    (mapper.getOffsetBeforeChange offset).1 = placeFrom 0 0 edits offset := by
  obtain ⟨rest', stop', newStop', upTo, waits, skipped'⟩ := adjustNextEdit_skipped skipped behind
  have moved := (skipped'.moves.translate (offset - newStop')).2
  rw [Extent.add_sub_of_le upTo] at moved
  rw [getOffsetBeforeChange, skipped'.place offset upTo]
  simp only [moved]
  cases rest' with
  | nil => rfl
  | cons e rest' => rw [placeFrom, if_neg (waits e rfl)]

theorem Skipped.getDistanceToNextChange_eq (behind : newStop ≤ offset) :
    (mapper.getDistanceToNextChange offset).1 =
      (nextStartFrom 0 0 edits offset).map fun start => lengthDiffNonNegative offset start := by
  obtain ⟨rest', stop', newStop', upTo, waits, skipped'⟩ := adjustNextEdit_skipped skipped behind
  have next := congrArg List.head? skipped'.caches
  rw [head?_drop] at next
  rw [getDistanceToNextChange, skipped'.nextStart offset upTo]
  simp only [next]
  cases rest' with
  | nil => rfl
  | cons e rest' =>
    have start := (skipped'.moves.translate (e.startOffset - stop')).1
    rw [Extent.add_sub_of_le skipped'.sorted.1] at start
    rw [nextStartFrom, if_neg (waits e rfl), newStart, ← start]
    rfl

end

end Queries

/-- The distance from an offset to a place: zero when the place is not behind it. -/
def IsDistance (offset place distance : Length) : Prop :=
  if offset ≤ place then offset + distance = place else distance = 0

/-- After queries in the order of their offsets, the next ones are answered exactly. Outside of
the new texts the offset found is kept, as the last of those that are taken to the offset
that is asked for, and it is the offset of what stands there if that was there before. The
distance is the one to the start of the first edit that is not entirely at or before the offset. -/
theorem mapper_exact (edits : List TextEditInfo) (calls : List Call) (offset : Length)
    (sorted : Sorted edits)
    (ordered : (calls.map Call.offset ++ [offset]).Pairwise (· ≤ ·)) :
    let mapper := (new edits).run calls
    let old := (mapper.getOffsetBeforeChange offset).1
    (¬Inside edits offset → Kept edits old offset) ∧
      (∀ other, Kept edits other offset → other ≤ old) ∧
      (∀ other, Keeps edits other offset → other = old) ∧
      match (mapper.getDistanceToNextChange offset).1 with
      | none => nextStartFrom 0 0 edits offset = none
      | some distance => ∃ start, nextStartFrom 0 0 edits offset = some start ∧
          IsDistance offset start distance := by
  obtain ⟨rest, stop, newStop, upTo, skipped⟩ := run_skipped (Skipped.new sorted)
    (fun c _ => Extent.zero_le c.offset) (Extent.zero_le offset) ordered
  have isOld := skipped.getOffsetBeforeChange_eq upTo
  have isDistance := skipped.getDistanceToNextChange_eq upTo
  simp only [isOld, isDistance]
  refine ⟨?_, ?_, ?_, ?_⟩
  · exact keptFrom_placeFrom sorted (Extent.zero_le offset)
  · intro other kept
    exact kept.le_placeFrom sorted
  · intro other keeps
    exact keeps.eq_placeFrom sorted
  · cases next : nextStartFrom 0 0 edits offset with
    | none => rfl
    | some start =>
      refine ⟨start, rfl, ?_⟩
      simp only [IsDistance]
      split
      · rename_i before
        rw [lengthDiffNonNegative_of_le before, Extent.add_sub_of_le before]
      · rename_i behind
        exact lengthDiffNonNegative_of_ge (not_le.mp behind).le

/-- Two insertions in one line, asked for behind each of them. -/
theorem mapper_exact_insertions :
    let edits : List TextEditInfo := [⟨⟨0, 1⟩, ⟨0, 1⟩, ⟨0, 2⟩⟩, ⟨⟨0, 4⟩, ⟨0, 4⟩, ⟨1, 0⟩⟩]
    let mapper := (new edits).run [.getDistanceToNextChange ⟨0, 3⟩]
    let old := (mapper.getOffsetBeforeChange ⟨1, 1⟩).1
    (¬Inside edits ⟨1, 1⟩ → Kept edits old ⟨1, 1⟩) ∧
      (∀ other, Kept edits other ⟨1, 1⟩ → other ≤ old) ∧
      (∀ other, Keeps edits other ⟨1, 1⟩ → other = old) ∧
      match (mapper.getDistanceToNextChange ⟨1, 1⟩).1 with
      | none => nextStartFrom 0 0 edits ⟨1, 1⟩ = none
      | some distance => ∃ start, nextStartFrom 0 0 edits ⟨1, 1⟩ = some start ∧
          IsDistance ⟨1, 1⟩ start distance := by
  apply mapper_exact
  · simp [Sorted, SortedFrom, Extent.le_def]
  · simp [Call.offset, Extent.le_def]

example : ((new [⟨⟨0, 1⟩, ⟨0, 1⟩, ⟨0, 2⟩⟩, ⟨⟨0, 4⟩, ⟨0, 4⟩, ⟨1, 0⟩⟩]).getOffsetBeforeChange
    ⟨1, 1⟩).1 = ⟨0, 5⟩ := by decide

end BeforeEditPositionMapper

end CodeEditor.BracketPairs
