import CodeEditor.ViewLayout.Pending

/-!
# Runs

What happens to a layout: calls of the accessor and commits, deleted and inserted lines, other
heights and paddings, and questions. Beside it goes an outline, whose zones change call by call.
-/

namespace CodeEditor.ViewLayout

open Reads List

/-- What a layout stands for. The zones are in no particular order. -/
structure Outline where
  zones : List Zone
  lineCount : Int
  lineHeight : Int
  paddingTop : Int
  paddingBottom : Int

def Zone.moveLine (line : Int → Int) (zone : Zone) : Zone :=
  { zone with afterLineNumber := line zone.afterLineNumber }

namespace Outline

/-- A call of the accessor; an inserted zone has the id `id`. -/
def access (outline : Outline) (id : Nat) : AccessorCall → Outline
  | .insertWhitespace afterLineNumber _ heightInPx _ =>
    { outline with zones := outline.zones ++ [⟨id, afterLineNumber, heightInPx⟩] }
  | .changeOneWhitespace id newAfterLineNumber newHeight =>
    { outline with
      zones := outline.zones.map (changeZone ⟨id, newAfterLineNumber, newHeight⟩) }
  | .removeWhitespace id =>
    { outline with zones := outline.zones.filter fun zone => zone.id ≠ id }

def deleteLines (outline : Outline) (fromLineNumber toLineNumber : Int) : Outline :=
  { outline with
    lineCount := outline.lineCount - (toLineNumber - fromLineNumber + 1)
    zones := outline.zones.map (.moveLine (lineAfterDeletion fromLineNumber toLineNumber)) }

def insertLines (outline : Outline) (fromLineNumber toLineNumber : Int) : Outline :=
  { outline with
    lineCount := outline.lineCount + (toLineNumber - fromLineNumber + 1)
    zones := outline.zones.map (.moveLine (lineAfterInsertion fromLineNumber toLineNumber)) }

end Outline

/-- A line number or a height: a natural number below `2 ^ 31`. -/
def IsNatural (value : Int) : Prop := 0 ≤ value ∧ value < 2 ^ 31

/-- The numbers of a call are natural, and its id is one that the layout has given out. -/
def AccessorCall.Admissible (layout : LinesLayout) : AccessorCall → Prop
  | .insertWhitespace afterLineNumber _ heightInPx _ =>
    IsNatural afterLineNumber ∧ IsNatural heightInPx
  | .changeOneWhitespace id newAfterLineNumber newHeight =>
    id ≤ layout.lastWhitespaceId ∧ IsNatural newAfterLineNumber ∧ IsNatural newHeight
  | .removeWhitespace id => id ≤ layout.lastWhitespaceId

/-- The questions that a layout answers. -/
inductive Query where
  | getWhitespacesTotalHeight
  | getWhitespacesAccumulatedHeight (index : Nat)
  | getLinesTotalHeight
  | getWhitespaceAccumulatedHeightBeforeLineNumber (lineNumber : Int)
  | getFirstWhitespaceIndexAfterLineNumber (lineNumber : Int)
  | getVerticalOffsetForLineNumber (lineNumber : Int) (includeViewZones : Bool)
  | getVerticalOffsetAfterLineNumber (lineNumber : Int) (includeViewZones : Bool)
  | getWhitespaceMinWidth
  | isAfterLines (verticalOffset : Rat)
  | isInTopPadding (verticalOffset : Rat)
  | isInBottomPadding (verticalOffset : Rat)
  | getLineNumberAtOrAfterVerticalOffset (verticalOffset : Rat)
  | getLinesViewportData (verticalOffset1 verticalOffset2 : Rat)
  | getVerticalOffsetForWhitespaceIndex (whitespaceIndex : Nat)
  | getWhitespaceIndexAtOrAfterVerticallOffset (verticalOffset : Rat)
  | getWhitespaceAtVerticalOffset (verticalOffset : Rat)
  | getWhitespaceViewportData (verticalOffset1 verticalOffset2 : Rat)
  | getWhitespacesCount
  | getIdForWhitespaceIndex (index : Nat)
  | getAfterLineNumberForWhitespaceIndex (index : Nat)
  | getHeightForWhitespaceIndex (index : Nat)
deriving DecidableEq, Repr

namespace LinesLayout

/-- Ask a question, for what it does to the layout. -/
def ask : Query → Reading Unit
  | .getWhitespacesTotalHeight => discard getWhitespacesTotalHeight
  | .getWhitespacesAccumulatedHeight index => discard (getWhitespacesAccumulatedHeight index)
  | .getLinesTotalHeight => discard getLinesTotalHeight
  | .getWhitespaceAccumulatedHeightBeforeLineNumber lineNumber =>
    discard (getWhitespaceAccumulatedHeightBeforeLineNumber lineNumber)
  | .getFirstWhitespaceIndexAfterLineNumber lineNumber =>
    discard (getFirstWhitespaceIndexAfterLineNumber lineNumber)
  | .getVerticalOffsetForLineNumber lineNumber includeViewZones =>
    discard (getVerticalOffsetForLineNumber lineNumber includeViewZones)
  | .getVerticalOffsetAfterLineNumber lineNumber includeViewZones =>
    discard (getVerticalOffsetAfterLineNumber lineNumber includeViewZones)
  | .getWhitespaceMinWidth => discard getWhitespaceMinWidth
  | .isAfterLines verticalOffset => discard (isAfterLines verticalOffset)
  | .isInTopPadding verticalOffset => discard (isInTopPadding verticalOffset)
  | .isInBottomPadding verticalOffset => discard (isInBottomPadding verticalOffset)
  | .getLineNumberAtOrAfterVerticalOffset verticalOffset =>
    discard (getLineNumberAtOrAfterVerticalOffset verticalOffset)
  | .getLinesViewportData verticalOffset1 verticalOffset2 =>
    discard (getLinesViewportData verticalOffset1 verticalOffset2)
  | .getVerticalOffsetForWhitespaceIndex whitespaceIndex =>
    discard (getVerticalOffsetForWhitespaceIndex whitespaceIndex)
  | .getWhitespaceIndexAtOrAfterVerticallOffset verticalOffset =>
    discard (getWhitespaceIndexAtOrAfterVerticallOffset verticalOffset)
  | .getWhitespaceAtVerticalOffset verticalOffset =>
    discard (getWhitespaceAtVerticalOffset verticalOffset)
  | .getWhitespaceViewportData verticalOffset1 verticalOffset2 =>
    discard (getWhitespaceViewportData verticalOffset1 verticalOffset2)
  | .getWhitespacesCount => discard getWhitespacesCount
  | .getIdForWhitespaceIndex index => discard (getIdForWhitespaceIndex index)
  | .getAfterLineNumberForWhitespaceIndex index =>
    discard (getAfterLineNumberForWhitespaceIndex index)
  | .getHeightForWhitespaceIndex index => discard (getHeightForWhitespaceIndex index)

end LinesLayout

/-- The layouts that are reached, with their outlines. -/
inductive RunsTo : Outline → LinesLayout → Prop where
  | start {lineCount lineHeight : Int} (paddingTop paddingBottom : Int)
      (lines : 0 ≤ lineCount) (height : 0 < lineHeight) :
      RunsTo ⟨[], lineCount, lineHeight, paddingTop, paddingBottom⟩
        (.new lineCount lineHeight paddingTop paddingBottom)
  | access {outline : Outline} {layout : LinesLayout} {call : AccessorCall}
      (runs : RunsTo outline layout) (admissible : call.Admissible layout) :
      RunsTo (outline.access (layout.lastWhitespaceId + 1) call) (layout.access call)
  | commit {outline : Outline} {layout : LinesLayout} (runs : RunsTo outline layout) :
      RunsTo outline layout.checkPendingChanges
  | onLinesDeleted {outline : Outline} {layout : LinesLayout} {fromLineNumber toLineNumber : Int}
      (runs : RunsTo outline layout) (isFirst : 1 ≤ fromLineNumber)
      (ordered : fromLineNumber ≤ toLineNumber) (isLast : toLineNumber ≤ outline.lineCount)
      (isInt : toLineNumber < 2 ^ 31) :
      RunsTo (outline.deleteLines fromLineNumber toLineNumber)
        (layout.onLinesDeleted fromLineNumber toLineNumber)
  | onLinesInserted {outline : Outline} {layout : LinesLayout} {fromLineNumber toLineNumber : Int}
      (runs : RunsTo outline layout) (isFirst : 1 ≤ fromLineNumber)
      (ordered : fromLineNumber ≤ toLineNumber) (isInt : toLineNumber < 2 ^ 31) :
      RunsTo (outline.insertLines fromLineNumber toLineNumber)
        (layout.onLinesInserted fromLineNumber toLineNumber)
  | onFlushed {outline : Outline} {layout : LinesLayout} {lineCount : Int}
      (runs : RunsTo outline layout) (lines : 0 ≤ lineCount) :
      RunsTo { outline with lineCount := lineCount } (layout.onFlushed lineCount)
  | setLineHeight {outline : Outline} {layout : LinesLayout} {lineHeight : Int}
      (runs : RunsTo outline layout) (height : 0 < lineHeight) :
      RunsTo { outline with lineHeight := lineHeight } (layout.setLineHeight lineHeight)
  | setPadding {outline : Outline} {layout : LinesLayout} (paddingTop paddingBottom : Int)
      (runs : RunsTo outline layout) :
      RunsTo { outline with paddingTop := paddingTop, paddingBottom := paddingBottom }
        (layout.setPadding paddingTop paddingBottom)
  | ask {outline : Outline} {layout answered : LinesLayout} {query : Query}
      (runs : RunsTo outline layout)
      (answers : (LinesLayout.ask query).run layout = some ((), answered)) :
      RunsTo outline answered

/-! ## Batches -/

/-- The calls of a callback, each admissible when it is made. -/
def Admissible : LinesLayout → List AccessorCall → Prop
  | _, [] => True
  | layout, call :: calls => call.Admissible layout ∧ Admissible (layout.access call) calls

/-- The calls of a callback, one after the other. -/
def Outline.accessAll (outline : Outline) : LinesLayout → List AccessorCall → Outline
  | _, [] => outline
  | layout, call :: calls =>
    (outline.access (layout.lastWhitespaceId + 1) call).accessAll (layout.access call) calls

/-- A batch is a run. -/
theorem RunsTo.changeWhitespace (runs : RunsTo outline layout)
    (admissible : Admissible layout calls) :
    RunsTo (outline.accessAll layout calls) (layout.changeWhitespace calls) := by
  unfold LinesLayout.changeWhitespace
  apply RunsTo.commit
  induction calls generalizing outline layout with
  | nil => exact runs
  | cons call calls ih =>
    exact ih (runs.access admissible.1) admissible.2

/-!
## Layouts and outlines

Every step keeps the layout in line with its outline.
-/

/-- The layout stands for its outline. -/
structure Consistent (outline : Outline) (layout : LinesLayout) : Prop where
  represents : Represents outline.zones layout
  nonnegative : ∀ zone ∈ outline.zones, 0 ≤ zone.afterLineNumber ∧ 0 ≤ zone.height
  lineCount : layout.lineCount = outline.lineCount
  lineHeight : layout.lineHeight = outline.lineHeight
  paddingTop : layout.paddingTop = outline.paddingTop
  paddingBottom : layout.paddingBottom = outline.paddingBottom
  lineCount_nonnegative : 0 ≤ outline.lineCount
  lineHeight_positive : 0 < outline.lineHeight

variable {outline : Outline} {layout : LinesLayout}

section

variable {zones : List Zone} (represents : Represents zones layout)

include represents

variable {arr : List EditorWhitespace} {prefixSumValidIndex : Int}

/-- A committed layout with other whitespaces. -/
theorem Represents.of_committed (committed : layout.pendingChanges = .empty)
    (kept : Kept arr prefixSumValidIndex)
    (ids : arr.map EditorWhitespace.id = layout.arr.map EditorWhitespace.id) {moved : List Zone}
    (isMoved : (arr.map EditorWhitespace.zone).Perm moved) : Represents moved
      { layout with arr := arr, prefixSumValidIndex := prefixSumValidIndex } := by
  have idsNow := represents.ids
  have boundNow := represents.ids_le
  rw [committed] at idsNow boundNow
  refine ⟨kept, fun _ => committed, ?_, ?_, represents.changes_le, represents.removes_le, ?_⟩
  · dsimp only
    rw [committed]
    dsimp only [PendingChanges.empty] at idsNow ⊢
    rw [append_nil] at idsNow ⊢
    rwa [ids]
  · dsimp only
    rw [committed]
    dsimp only [PendingChanges.empty] at boundNow ⊢
    rw [append_nil] at boundNow ⊢
    rwa [ids]
  · dsimp only
    rw [committed]
    dsimp only [PendingChanges.empty]
    rw [settle_nil, append_nil]
    exact isMoved

/-- Other prefix sums. -/
theorem Represents.of_zones
    (same : arr.map EditorWhitespace.zone = layout.arr.map EditorWhitespace.zone)
    (sums : SumsTo arr prefixSumValidIndex) (low : -1 ≤ prefixSumValidIndex) : Represents zones
      { layout with arr := arr, prefixSumValidIndex := prefixSumValidIndex } := by
  have ids : (arr ++ layout.pendingChanges.inserts).map EditorWhitespace.id =
      (layout.arr ++ layout.pendingChanges.inserts).map EditorWhitespace.id := by
    rw [← map_id_zone, ← map_id_zone, map_append, same, ← map_append]
  have sorted : arr.Pairwise fun a b => a.afterLineNumber ≤ b.afterLineNumber := by
    have ordered : (layout.arr.map EditorWhitespace.zone).Pairwise
        fun a b => a.afterLineNumber ≤ b.afterLineNumber :=
      pairwise_map.mpr represents.kept.sorted
    rw [← same, pairwise_map] at ordered
    exact ordered
  refine ⟨⟨sorted, sums, low⟩, represents.noPending, ?_, ?_, represents.changes_le,
    represents.removes_le, ?_⟩
  · rw [ids]
    exact represents.ids
  · rw [ids]
    exact represents.ids_le
  · dsimp only
    rw [map_append, same, ← map_append]
    exact represents.zones

theorem Represents.zones_of_committed (committed : layout.pendingChanges = .empty) :
    (layout.arr.map EditorWhitespace.zone).Perm zones := by
  have same := represents.zones
  rw [committed] at same
  dsimp only [PendingChanges.empty] at same
  rwa [settle_nil, append_nil] at same

/-! ## Calls of the accessor -/

theorem Represents.insert (afterLineNumber ordinal height minWidth : Int) :
    Represents (zones ++ [⟨layout.lastWhitespaceId + 1, afterLineNumber, height⟩]) { layout with
        lastWhitespaceId := layout.lastWhitespaceId + 1
        pendingChanges := layout.pendingChanges.insert
          ⟨layout.lastWhitespaceId + 1, afterLineNumber, ordinal, height, minWidth, 0⟩ } := by
  refine ⟨represents.kept, fun noPending => by simp [PendingChanges.insert] at noPending,
    ?_, ?_, ?_, ?_, ?_⟩
  · dsimp only [PendingChanges.insert]
    rw [← append_assoc, map_append, nodup_append]
    refine ⟨represents.ids, nodup_singleton _, ?_⟩
    intro id isOld other isNew
    obtain rfl := mem_singleton.mp isNew
    have := represents.ids_le _ isOld
    dsimp only
    omega
  · intro id isMember
    dsimp only [PendingChanges.insert] at isMember ⊢
    rw [← append_assoc, map_append] at isMember
    rcases mem_append.mp isMember with isOld | isNew
    · exact (represents.ids_le id isOld).trans (Nat.le_succ _)
    · obtain rfl := mem_singleton.mp isNew
      exact le_rfl
  · intro change isMember
    exact (represents.changes_le change isMember).trans (Nat.le_succ _)
  · intro remove isMember
    exact (represents.removes_le remove isMember).trans (Nat.le_succ _)
  · dsimp only [PendingChanges.insert]
    rw [← append_assoc, map_append, settle_append]
    apply represents.zones.append
    rw [map_singleton, settle_fresh]
    · exact List.Perm.refl _
    · intro change isMember
      have := represents.changes_le change isMember
      dsimp only [EditorWhitespace.zone]
      omega
    · intro remove isMember
      have := represents.removes_le remove isMember
      dsimp only [EditorWhitespace.zone]
      omega

theorem Represents.change (change : PendingChange) (isKnown : change.id ≤ layout.lastWhitespaceId) :
    Represents (zones.map (changeZone change))
      { layout with pendingChanges := layout.pendingChanges.change change } := by
  refine ⟨represents.kept, fun noPending => by simp [PendingChanges.change] at noPending,
    represents.ids, represents.ids_le, ?_, represents.removes_le, ?_⟩
  · intro other isMember
    rcases mem_append.mp isMember with isOld | isNew
    · exact represents.changes_le other isOld
    · obtain rfl := mem_singleton.mp isNew
      exact isKnown
  · dsimp only [PendingChanges.change]
    rw [settle_change]
    exact represents.zones.map _

theorem Represents.remove (remove : PendingRemove) (isKnown : remove.id ≤ layout.lastWhitespaceId) :
    Represents (zones.filter fun zone => zone.id ≠ remove.id)
      { layout with pendingChanges := layout.pendingChanges.remove remove } := by
  refine ⟨represents.kept, fun noPending => by simp [PendingChanges.remove] at noPending,
    represents.ids, represents.ids_le, represents.changes_le, ?_, ?_⟩
  · intro other isMember
    rcases mem_append.mp isMember with isOld | isNew
    · exact represents.removes_le other isOld
    · obtain rfl := mem_singleton.mp isNew
      exact isKnown
  · dsimp only [PendingChanges.remove]
    rw [settle_remove]
    exact represents.zones.filter _

end

theorem toInt32_of_isNatural {value : Int} (isNatural : IsNatural value) :
    toInt32 value = value := by
  obtain ⟨low, high⟩ := isNatural
  exact toInt32_eq (by omega) high

theorem Consistent.access (consistent : Consistent outline layout) {call : AccessorCall}
    (admissible : call.Admissible layout) :
    Consistent (outline.access (layout.lastWhitespaceId + 1) call) (layout.access call) := by
  cases call with
  | insertWhitespace afterLineNumber ordinal heightInPx minWidth =>
    obtain ⟨isLine, isHeight⟩ := admissible
    have represents := consistent.represents.insert afterLineNumber (toInt32 ordinal) heightInPx
      (toInt32 minWidth)
    unfold LinesLayout.access Outline.access
    dsimp only
    rw [toInt32_of_isNatural isLine, toInt32_of_isNatural isHeight]
    refine { consistent with represents := represents, nonnegative := ?_ }
    intro zone isMember
    rcases mem_append.mp isMember with isOld | isNew
    · exact consistent.nonnegative zone isOld
    · obtain rfl := mem_singleton.mp isNew
      exact ⟨isLine.1, isHeight.1⟩
  | changeOneWhitespace id newAfterLineNumber newHeight =>
    obtain ⟨isKnown, isLine, isHeight⟩ := admissible
    have represents := consistent.represents.change ⟨id, newAfterLineNumber, newHeight⟩ isKnown
    unfold LinesLayout.access Outline.access
    dsimp only
    rw [toInt32_of_isNatural isLine, toInt32_of_isNatural isHeight]
    refine { consistent with represents := represents, nonnegative := ?_ }
    intro zone isMember
    obtain ⟨old, isOld, rfl⟩ := mem_map.mp isMember
    unfold changeZone
    split_ifs
    · exact ⟨isLine.1, isHeight.1⟩
    · exact consistent.nonnegative old isOld
  | removeWhitespace id =>
    have represents := consistent.represents.remove ⟨id⟩ admissible
    refine { consistent with represents := represents, nonnegative := ?_ }
    intro zone isMember
    exact consistent.nonnegative zone (mem_of_mem_filter isMember)

/-! ## Changes of the lines -/

theorem Consistent.check (consistent : Consistent outline layout) :
    Consistent outline layout.checkPendingChanges ∧
      layout.checkPendingChanges.pendingChanges = .empty := by
  obtain ⟨represents, frame⟩ :=
    LinesLayout.checkPendingChanges_represents consistent.represents
  refine ⟨⟨represents, consistent.nonnegative, ?_, ?_, ?_, ?_, consistent.lineCount_nonnegative,
    consistent.lineHeight_positive⟩, by rw [frame]⟩
  · rw [frame]
    exact consistent.lineCount
  · rw [frame]
    exact consistent.lineHeight
  · rw [frame]
    exact consistent.paddingTop
  · rw [frame]
    exact consistent.paddingBottom

theorem map_zone_moveLine (line : Int → Int) (arr : List EditorWhitespace) :
    (arr.map (.moveLine line)).map EditorWhitespace.zone =
      (arr.map EditorWhitespace.zone).map (.moveLine line) := by
  rw [map_map, map_map]
  rfl

/-- Zones move with their lines. -/
theorem Consistent.moveLines (consistent : Consistent outline layout)
    (committed : layout.pendingChanges = .empty) {line : Int → Int}
    (monotone : ∀ a b, a ≤ b → line a ≤ line b) (nonnegative : ∀ a, 0 ≤ a → 0 ≤ line a)
    {lineCount : Int} (lines : 0 ≤ lineCount) :
    Consistent { outline with
        lineCount := lineCount, zones := outline.zones.map (.moveLine line) }
      { layout with lineCount := lineCount, arr := layout.arr.map (.moveLine line) } := by
  have isMoved : ((layout.arr.map (.moveLine line)).map EditorWhitespace.zone).Perm
      (outline.zones.map (.moveLine line)) := by
    rw [map_zone_moveLine]
    exact (consistent.represents.zones_of_committed committed).map _
  have ids : (layout.arr.map (.moveLine line)).map EditorWhitespace.id =
      layout.arr.map EditorWhitespace.id := by
    rw [map_map]
    rfl
  have represents := consistent.represents.of_committed committed
    (consistent.represents.kept.moveLines monotone) ids isMoved
  refine ⟨⟨represents.kept, represents.noPending, represents.ids, represents.ids_le,
    represents.changes_le, represents.removes_le, represents.zones⟩, ?_, rfl, consistent.lineHeight,
    consistent.paddingTop, consistent.paddingBottom, lines, consistent.lineHeight_positive⟩
  intro zone isMember
  obtain ⟨old, isOld, rfl⟩ := mem_map.mp isMember
  obtain ⟨isLine, isHeight⟩ := consistent.nonnegative old isOld
  exact ⟨nonnegative _ isLine, isHeight⟩

section

variable {fromLineNumber toLineNumber : Int} (consistent : Consistent outline layout)
  (isFirst : 1 ≤ fromLineNumber) (ordered : fromLineNumber ≤ toLineNumber)

include consistent isFirst ordered

theorem Consistent.onLinesDeleted (isLast : toLineNumber ≤ outline.lineCount)
    (isInt : toLineNumber < 2 ^ 31) : Consistent (outline.deleteLines fromLineNumber toLineNumber)
      (layout.onLinesDeleted fromLineNumber toLineNumber) := by
  obtain ⟨checked, committed⟩ := consistent.check
  unfold LinesLayout.onLinesDeleted Outline.deleteLines
  dsimp only
  rw [toInt32_eq (by omega) (by omega), toInt32_eq (by omega) isInt, checked.lineCount]
  apply checked.moveLines committed
  · intro a b upTo
    unfold lineAfterDeletion
    split_ifs <;> omega
  · intro a isLine
    unfold lineAfterDeletion
    split_ifs <;> omega
  · omega

theorem Consistent.onLinesInserted (isInt : toLineNumber < 2 ^ 31) :
    Consistent (outline.insertLines fromLineNumber toLineNumber)
      (layout.onLinesInserted fromLineNumber toLineNumber) := by
  obtain ⟨checked, committed⟩ := consistent.check
  unfold LinesLayout.onLinesInserted Outline.insertLines
  dsimp only
  rw [toInt32_eq (by omega) (by omega), toInt32_eq (by omega) isInt, checked.lineCount]
  apply checked.moveLines committed
  · intro a b upTo
    unfold lineAfterInsertion
    split_ifs <;> omega
  · intro a isLine
    unfold lineAfterInsertion
    split_ifs <;> omega
  · have := consistent.lineCount_nonnegative
    omega

end

end CodeEditor.ViewLayout
