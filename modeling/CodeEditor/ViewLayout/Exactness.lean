import CodeEditor.ViewLayout.Runs
import CodeEditor.ViewLayout.ViewportLines

/-!
# Questions keep the layout

A question commits what is pending and moves prefix sums. Neither changes the outline.
-/

namespace CodeEditor.ViewLayout

open Reads List Int

variable {outline : Outline} {A : Type}

namespace LinesLayout

/-- Pending changes are in the outline already. -/
theorem keeps_check : Keeps (Consistent outline) check :=
  Keeps.modify fun _ consistent => consistent.check.1

/-- Reading a whitespace changes nothing. -/
theorem keeps_whitespaceAt (index : Nat) : Keeps (Consistent outline) (whitespaceAt index) :=
  Keeps.get.bind fun _ => Keeps.lift _

/-- The reads of one whitespace. -/
theorem keeps_check_whitespaceAt (index : Nat) (read : EditorWhitespace → A) :
    Keeps (Consistent outline) (do
      check
      let whitespace ← whitespaceAt index
      return read whitespace) :=
  keeps_check.bind fun _ => (keeps_whitespaceAt index).bind fun _ => Keeps.pure _

/-- Prefix sums up to another index. -/
theorem consistent_accumulate {layout : LinesLayout} (consistent : Consistent outline layout)
    {index : Nat} {arr : List EditorWhitespace}
    (isResult : accumulate layout.arr layout.prefixSumValidIndex index = some arr) :
    Consistent outline { layout with
      arr := arr, prefixSumValidIndex := max layout.prefixSumValidIndex index } := by
  have kept := consistent.represents.kept
  obtain ⟨same, sums⟩ := accumulate_spec kept.low kept.sums isResult
  have represents := consistent.represents.of_zones (map_zone_of_withoutSum same) sums
    (kept.low.trans (le_max_left _ _))
  exact { consistent with represents := represents }

/-- Prefix sums are recorded as far as they are read. -/
theorem keeps_getWhitespacesAccumulatedHeight (index : Nat) :
    Keeps (Consistent outline) (getWhitespacesAccumulatedHeight index) := by
  apply keeps_check.bind
  intro _
  apply Keeps.get_bind
  intro layout consistent
  apply Keeps.lift_bind
  intro arr isResult
  apply (Keeps.set (consistent_accumulate consistent isResult)).bind
  intro _
  exact (keeps_whitespaceAt index).bind fun _ => Keeps.pure _

theorem keeps_getWhitespacesTotalHeight : Keeps (Consistent outline) getWhitespacesTotalHeight := by
  apply keeps_check.bind
  intro _
  apply Keeps.get_bind
  intro layout _
  exact Keeps.ite (Keeps.pure 0) (keeps_getWhitespacesAccumulatedHeight _)

theorem keeps_getLinesTotalHeight : Keeps (Consistent outline) getLinesTotalHeight :=
  keeps_check.bind fun _ => Keeps.get.bind fun _ =>
    keeps_getWhitespacesTotalHeight.bind fun _ => Keeps.pure _

theorem keeps_getWhitespaceAccumulatedHeightBeforeLineNumber (lineNumber : Int) :
    Keeps (Consistent outline) (getWhitespaceAccumulatedHeightBeforeLineNumber lineNumber) := by
  apply keeps_check.bind
  intro _
  apply Keeps.get_bind
  intro layout _
  cases findLastWhitespaceBeforeLineNumber layout.arr (toInt32 lineNumber) with
  | none => exact Keeps.pure 0
  | some index => exact keeps_getWhitespacesAccumulatedHeight index

theorem keeps_getFirstWhitespaceIndexAfterLineNumber (lineNumber : Int) :
    Keeps (Consistent outline) (getFirstWhitespaceIndexAfterLineNumber lineNumber) :=
  keeps_check.bind fun _ => Keeps.get.bind fun _ => Keeps.pure _

theorem keeps_getVerticalOffsetForLineNumber (lineNumber : Int) (includeViewZones : Bool) :
    Keeps (Consistent outline) (getVerticalOffsetForLineNumber lineNumber includeViewZones) :=
  keeps_check.bind fun _ => Keeps.get.bind fun _ =>
    (keeps_getWhitespaceAccumulatedHeightBeforeLineNumber _).bind fun _ => Keeps.pure _

theorem keeps_getVerticalOffsetAfterLineNumber (lineNumber : Int) (includeViewZones : Bool) :
    Keeps (Consistent outline) (getVerticalOffsetAfterLineNumber lineNumber includeViewZones) :=
  keeps_check.bind fun _ => Keeps.get.bind fun _ =>
    (keeps_getWhitespaceAccumulatedHeightBeforeLineNumber _).bind fun _ => Keeps.pure _

theorem keeps_isAfterLines (verticalOffset : Rat) :
    Keeps (Consistent outline) (isAfterLines verticalOffset) :=
  keeps_check.bind fun _ => keeps_getLinesTotalHeight.bind fun _ => Keeps.pure _

theorem keeps_isInTopPadding (verticalOffset : Rat) :
    Keeps (Consistent outline) (isInTopPadding verticalOffset) :=
  Keeps.get.bind fun _ => Keeps.ite (Keeps.pure _)
    (keeps_check.bind fun _ => Keeps.get.bind fun _ => Keeps.pure _)

theorem keeps_isInBottomPadding (verticalOffset : Rat) :
    Keeps (Consistent outline) (isInBottomPadding verticalOffset) :=
  Keeps.get.bind fun _ => Keeps.ite (Keeps.pure _)
    (keeps_check.bind fun _ => keeps_getLinesTotalHeight.bind fun _ =>
      Keeps.get.bind fun _ => Keeps.pure _)

/-! ## Searches -/

/-- The search keeps what its slots keep. -/
theorem keeps_searchSlot {slot : Nat → Reading (Int × Int)}
    (keepsSlot : ∀ i, Keeps (Consistent outline) (slot i)) (verticalOffset : Int)
    (low high : Nat) : Keeps (Consistent outline) (searchSlot slot verticalOffset low high) := by
  fun_induction searchSlot slot verticalOffset low high with
  | case1 low high less mid behind inFront =>
    apply (keepsSlot mid).bind
    rintro ⟨top, height⟩
    exact Keeps.ite behind (Keeps.ite (Keeps.pure _) inFront)
  | case2 low high notLess => exact Keeps.pure low

/-- A slot is a line. -/
theorem keeps_lineSlot (lineHeight : Int) (lineNumber : Nat) :
    Keeps (Consistent outline) (lineSlot lineHeight lineNumber) :=
  (keeps_getVerticalOffsetForLineNumber _ _).bind fun _ => Keeps.pure _

theorem keeps_getLineNumberAtOrAfterVerticalOffset (verticalOffset : Rat) :
    Keeps (Consistent outline) (getLineNumberAtOrAfterVerticalOffset verticalOffset) :=
  keeps_check.bind fun _ => Keeps.get.bind fun _ => Keeps.ite (Keeps.pure _)
    ((keeps_searchSlot (keeps_lineSlot _) _ _ _).bind fun _ => Keeps.pure _)

theorem keeps_getHeightForWhitespaceIndex (index : Nat) :
    Keeps (Consistent outline) (getHeightForWhitespaceIndex index) :=
  keeps_check_whitespaceAt index _

theorem keeps_getAfterLineNumberForWhitespaceIndex (index : Nat) :
    Keeps (Consistent outline) (getAfterLineNumberForWhitespaceIndex index) :=
  keeps_check_whitespaceAt index _

theorem keeps_getIdForWhitespaceIndex (index : Nat) :
    Keeps (Consistent outline) (getIdForWhitespaceIndex index) :=
  keeps_check_whitespaceAt index _

theorem keeps_getWhitespacesCount : Keeps (Consistent outline) getWhitespacesCount :=
  keeps_check.bind fun _ => Keeps.get.bind fun _ => Keeps.pure _

theorem keeps_previousWhitespacesHeight (index : Nat) :
    Keeps (Consistent outline) (previousWhitespacesHeight index) :=
  Keeps.ite (keeps_getWhitespacesAccumulatedHeight _) (Keeps.pure _)

theorem keeps_getVerticalOffsetForWhitespaceIndex (index : Nat) :
    Keeps (Consistent outline) (getVerticalOffsetForWhitespaceIndex index) :=
  keeps_check.bind fun _ => Keeps.get.bind fun _ =>
    (keeps_getAfterLineNumberForWhitespaceIndex index).bind fun _ =>
      (keeps_previousWhitespacesHeight index).bind fun _ => Keeps.pure _

/-- A slot is a whitespace. -/
theorem keeps_whitespaceSlot (index : Nat) : Keeps (Consistent outline) (whitespaceSlot index) :=
  (keeps_getVerticalOffsetForWhitespaceIndex index).bind fun _ =>
    (keeps_getHeightForWhitespaceIndex index).bind fun _ => Keeps.pure _

theorem keeps_getWhitespaceIndexAtOrAfterVerticallOffset (verticalOffset : Rat) :
    Keeps (Consistent outline) (getWhitespaceIndexAtOrAfterVerticallOffset verticalOffset) := by
  apply keeps_check.bind
  intro _
  apply keeps_getWhitespacesCount.bind
  intro count
  refine Keeps.ite (Keeps.pure none) ?_
  apply (keeps_whitespaceSlot _).bind
  rintro ⟨top, height⟩
  exact Keeps.ite (Keeps.pure none)
    ((keeps_searchSlot keeps_whitespaceSlot _ _ _).bind fun _ => Keeps.pure _)

/-- A whitespace with its place. -/
theorem keeps_viewportDataAt (index : Nat) : Keeps (Consistent outline) (viewportDataAt index) :=
  (keeps_getVerticalOffsetForWhitespaceIndex index).bind fun _ =>
    (keeps_getHeightForWhitespaceIndex index).bind fun _ =>
      (keeps_getIdForWhitespaceIndex index).bind fun _ =>
        (keeps_getAfterLineNumberForWhitespaceIndex index).bind fun _ => Keeps.pure _

theorem keeps_getWhitespaceAtVerticalOffset (verticalOffset : Rat) :
    Keeps (Consistent outline) (getWhitespaceAtVerticalOffset verticalOffset) := by
  apply keeps_check.bind
  intro _
  apply (keeps_getWhitespaceIndexAtOrAfterVerticallOffset _).bind
  intro candidateIndex
  cases candidateIndex with
  | none => exact Keeps.pure none
  | some candidateIndex =>
    apply keeps_getWhitespacesCount.bind
    intro count
    exact Keeps.ite (Keeps.pure none) ((keeps_viewportDataAt _).bind fun _ =>
      Keeps.ite (Keeps.pure none) (Keeps.pure _))

theorem keeps_whitespacesFrom (verticalOffset2 : Int) (count i : Nat) :
    Keeps (Consistent outline) (whitespacesFrom verticalOffset2 count i) := by
  induction count generalizing i with
  | zero => exact Keeps.pure []
  | succ count ih =>
    exact (keeps_viewportDataAt i).bind fun _ => Keeps.ite (Keeps.pure [])
      ((ih (i + 1)).bind fun _ => Keeps.pure _)

theorem keeps_getWhitespaceViewportData (verticalOffset1 verticalOffset2 : Rat) :
    Keeps (Consistent outline) (getWhitespaceViewportData verticalOffset1 verticalOffset2) := by
  apply keeps_check.bind
  intro _
  apply (keeps_getWhitespaceIndexAtOrAfterVerticallOffset _).bind
  intro startIndex
  apply keeps_getWhitespacesCount.bind
  intro count
  cases startIndex with
  | none => exact Keeps.pure []
  | some startIndex => exact keeps_whitespacesFrom _ _ _

theorem keeps_getWhitespaceMinWidth : Keeps (Consistent outline) getWhitespaceMinWidth := by
  apply keeps_check.bind
  intro _
  apply Keeps.get_bind
  intro layout consistent
  apply Keeps.ite
  · have kept : Consistent outline { layout with
        minWidth := layout.arr.foldl (fun width whitespace => max width whitespace.minWidth) 0 } :=
      { consistent with
        represents := { consistent.represents with kept := consistent.represents.kept } }
    exact (Keeps.set kept).bind fun _ => Keeps.pure _
  · exact Keeps.pure _

/-! ## Lines of a viewport -/

theorem keeps_startCursor (endLineNumber verticalOffset delta : Int) (whitespaceCount : Nat)
    (whitespaceIndex : Option Nat) :
    Keeps (Consistent outline)
      (startCursor endLineNumber verticalOffset delta whitespaceCount whitespaceIndex) := by
  cases whitespaceIndex with
  | none => exact Keeps.pure _
  | some index =>
    exact (keeps_getAfterLineNumberForWhitespaceIndex index).bind fun _ =>
      (keeps_getHeightForWhitespaceIndex index).bind fun _ => Keeps.pure _

/-- By recursion on the whitespaces in front of a line. -/
theorem keeps_pushWhitespaces (lineNumber endLineNumber : Int) (whitespaceCount : Nat)
    (cursor : LineCursor) :
    Keeps (Consistent outline)
      (pushWhitespaces lineNumber endLineNumber whitespaceCount cursor) := by
  fun_induction pushWhitespaces lineNumber endLineNumber whitespaceCount cursor with
  | case1 cursor same pushed isLast => exact Keeps.pure _
  | case2 cursor same pushed notLast ih =>
    apply (keeps_getAfterLineNumberForWhitespaceIndex _).bind
    intro afterLineNumber
    apply (keeps_getHeightForWhitespaceIndex _).bind
    intro height
    exact ih afterLineNumber height
  | case3 cursor differs => exact Keeps.pure cursor

/-- By recursion on the lines that are left. -/
theorem keeps_linesLoop (lineHeight verticalOffset2 : Int) (verticalCenter : Rat)
    (endLineNumber : Int) (whitespaceCount count : Nat) (lineNumber : Int) (cursor : LineCursor)
    (centeredLineNumber : Int) :
    Keeps (Consistent outline) (linesLoop lineHeight verticalOffset2 verticalCenter endLineNumber
      whitespaceCount count lineNumber cursor centeredLineNumber) := by
  induction count generalizing lineNumber cursor centeredLineNumber with
  | zero => exact Keeps.pure _
  | succ count ih =>
    apply (keeps_pushWhitespaces _ _ _ _).bind
    intro following
    exact Keeps.ite (Keeps.pure _) ((ih _ _ _).bind fun _ => Keeps.pure _)

theorem keeps_getLinesViewportData (verticalOffset1 verticalOffset2 : Rat) :
    Keeps (Consistent outline) (getLinesViewportData verticalOffset1 verticalOffset2) := by
  apply keeps_check.bind
  intro _
  apply Keeps.get_bind
  intro layout _
  apply (keeps_getLineNumberAtOrAfterVerticalOffset _).bind
  intro startLineNumber
  apply (keeps_getVerticalOffsetForLineNumber _ _).bind
  intro startLineNumberVerticalOffset
  apply (keeps_getFirstWhitespaceIndexAfterLineNumber _).bind
  intro whitespaceIndex
  apply keeps_getWhitespacesCount.bind
  intro whitespaceCount
  apply (keeps_startCursor _ _ _ _ _).bind
  intro cursor
  apply (keeps_linesLoop _ _ _ _ _ _ _ _ _).bind
  rintro ⟨linesOffsets, centeredLineNumber, lastLineNumber⟩
  exact (keeps_getVerticalOffsetForLineNumber _ _).bind fun _ => Keeps.pure _

/-- A question keeps the outline. -/
theorem keeps_ask (query : Query) : Keeps (Consistent outline) (ask query) := by
  have discarded : ∀ {B : Type} {read : Reading B}, Keeps (Consistent outline) read →
      Keeps (Consistent outline) (discard read) := by
    intro B read keeps
    exact keeps.bind fun _ => Keeps.pure ()
  cases query with
  | getWhitespacesTotalHeight => exact discarded keeps_getWhitespacesTotalHeight
  | getWhitespacesAccumulatedHeight index =>
    exact discarded (keeps_getWhitespacesAccumulatedHeight index)
  | getLinesTotalHeight => exact discarded keeps_getLinesTotalHeight
  | getWhitespaceAccumulatedHeightBeforeLineNumber lineNumber =>
    exact discarded (keeps_getWhitespaceAccumulatedHeightBeforeLineNumber lineNumber)
  | getFirstWhitespaceIndexAfterLineNumber lineNumber =>
    exact discarded (keeps_getFirstWhitespaceIndexAfterLineNumber lineNumber)
  | getVerticalOffsetForLineNumber lineNumber includeViewZones =>
    exact discarded (keeps_getVerticalOffsetForLineNumber lineNumber includeViewZones)
  | getVerticalOffsetAfterLineNumber lineNumber includeViewZones =>
    exact discarded (keeps_getVerticalOffsetAfterLineNumber lineNumber includeViewZones)
  | getWhitespaceMinWidth => exact discarded keeps_getWhitespaceMinWidth
  | isAfterLines verticalOffset => exact discarded (keeps_isAfterLines verticalOffset)
  | isInTopPadding verticalOffset => exact discarded (keeps_isInTopPadding verticalOffset)
  | isInBottomPadding verticalOffset => exact discarded (keeps_isInBottomPadding verticalOffset)
  | getLineNumberAtOrAfterVerticalOffset verticalOffset =>
    exact discarded (keeps_getLineNumberAtOrAfterVerticalOffset verticalOffset)
  | getLinesViewportData verticalOffset1 verticalOffset2 =>
    exact discarded (keeps_getLinesViewportData verticalOffset1 verticalOffset2)
  | getVerticalOffsetForWhitespaceIndex index =>
    exact discarded (keeps_getVerticalOffsetForWhitespaceIndex index)
  | getWhitespaceIndexAtOrAfterVerticallOffset verticalOffset =>
    exact discarded (keeps_getWhitespaceIndexAtOrAfterVerticallOffset verticalOffset)
  | getWhitespaceAtVerticalOffset verticalOffset =>
    exact discarded (keeps_getWhitespaceAtVerticalOffset verticalOffset)
  | getWhitespaceViewportData verticalOffset1 verticalOffset2 =>
    exact discarded (keeps_getWhitespaceViewportData verticalOffset1 verticalOffset2)
  | getWhitespacesCount => exact discarded keeps_getWhitespacesCount
  | getIdForWhitespaceIndex index => exact discarded (keeps_getIdForWhitespaceIndex index)
  | getAfterLineNumberForWhitespaceIndex index =>
    exact discarded (keeps_getAfterLineNumberForWhitespaceIndex index)
  | getHeightForWhitespaceIndex index => exact discarded (keeps_getHeightForWhitespaceIndex index)

end LinesLayout

/-!
## The layout is exact

In every layout that is reached, the offsets that the layout answers are those of its outline.
-/

open Thresholds

namespace Outline

/-- The offset of a line: the padding, the lines and the zones above it. -/
def offset (outline : Outline) (lineNumber : Int) : Int :=
  outline.paddingTop + (lineNumber - 1) * outline.lineHeight +
    heightBefore outline.zones lineNumber

/-- All sums are 32-bit integers. -/
structure Fits (outline : Outline) : Prop where
  lineCount : outline.lineCount < 2 ^ 31
  lines : ∀ zone ∈ outline.zones, zone.afterLineNumber < 2 ^ 31
  paddingTop : -2 ^ 31 ≤ outline.paddingTop
  heights : totalHeight outline.zones < 2 ^ 31
  total : outline.paddingTop + outline.lineHeight * outline.lineCount +
    totalHeight outline.zones < 2 ^ 31

/-- The vertical layout has the lines, the zones and the paddings of the outline. -/
structure IsOf (outline : Outline) (vertical : VerticalLayout) : Prop where
  zones : vertical.zones.Perm outline.zones
  lineCount : vertical.lineCount = outline.lineCount
  lineHeight : vertical.lineHeight = outline.lineHeight
  paddingTop : vertical.paddingTop = outline.paddingTop

variable {outline : Outline} {vertical : VerticalLayout}

/-- The offsets of a layout are those of its outline. -/
theorem IsOf.offset (isOf : outline.IsOf vertical) (lineNumber : Int) :
    vertical.offset lineNumber = outline.offset lineNumber := by
  unfold VerticalLayout.offset Outline.offset
  rw [isOf.paddingTop, isOf.lineHeight, heightBefore_perm isOf.zones]

theorem IsOf.fits (isOf : outline.IsOf vertical) (fits : outline.Fits) : vertical.Fits := by
  refine ⟨?_, ?_, ?_, ?_, ?_⟩
  · rw [isOf.lineCount]
    exact fits.lineCount
  · intro zone isMember
    exact fits.lines zone (isOf.zones.subset isMember)
  · rw [isOf.paddingTop]
    exact fits.paddingTop
  · rw [totalHeight_perm isOf.zones]
    exact fits.heights
  · rw [isOf.paddingTop, isOf.lineHeight, isOf.lineCount, totalHeight_perm isOf.zones]
    exact fits.total

end Outline

variable {outline : Outline} {layout : LinesLayout}

/-- By induction on the run. -/
theorem consistent_of_runsTo (runs : RunsTo outline layout) : Consistent outline layout := by
  induction runs with
  | start paddingTop paddingBottom lines height =>
    have kept : Kept [] (-1) :=
      ⟨List.Pairwise.nil, fun i _ isNegative => by omega, le_rfl⟩
    exact ⟨⟨kept, fun _ => rfl, nodup_nil, fun id isId => absurd isId not_mem_nil,
      fun change isMember => absurd isMember not_mem_nil,
      fun remove isMember => absurd isMember not_mem_nil, List.Perm.refl _⟩,
      fun zone isMember => absurd isMember not_mem_nil, rfl, rfl, rfl, rfl, lines, height⟩
  | access _ admissible ih => exact ih.access admissible
  | commit _ ih => exact ih.check.1
  | onLinesDeleted _ isFirst ordered isLast isInt ih =>
    exact ih.onLinesDeleted isFirst ordered isLast isInt
  | onLinesInserted _ isFirst ordered isInt ih =>
    exact ih.onLinesInserted isFirst ordered isInt
  | onFlushed _ lines ih =>
    have checked := ih.check.1
    exact { checked with
      represents := { checked.represents with kept := checked.represents.kept }
      lineCount := rfl
      lineCount_nonnegative := lines }
  | setLineHeight _ height ih =>
    have checked := ih.check.1
    exact { checked with
      represents := { checked.represents with kept := checked.represents.kept }
      lineHeight := rfl
      lineHeight_positive := height }
  | setPadding paddingTop paddingBottom _ ih =>
    exact { ih with
      represents :=
        { ih.represents with kept := ih.represents.kept }
      paddingTop := rfl
      paddingBottom := rfl }
  | ask _ answers ih =>
    exact LinesLayout.keeps_ask _ _ _ ih answers

/-- A commit shows a vertical layout of the outline. -/
theorem Consistent.exists_shows (consistent : Consistent outline layout) :
    ∃ vertical, outline.IsOf vertical ∧ Shows vertical layout.checkPendingChanges := by
  obtain ⟨checked, committed⟩ := consistent.check
  have zones := checked.represents.zones_of_committed committed
  have kept := checked.represents.kept
  refine ⟨⟨layout.checkPendingChanges.arr.map EditorWhitespace.zone,
    pairwise_map.mpr kept.sorted, ?_, outline.lineCount, checked.lineCount_nonnegative,
    outline.lineHeight, checked.lineHeight_positive, outline.paddingTop, outline.paddingBottom⟩,
    ⟨zones, rfl, rfl, rfl⟩, ⟨by rw [committed]; rfl, rfl, kept.sums, kept.low, checked.lineCount,
      checked.lineHeight, checked.paddingTop, checked.paddingBottom⟩⟩
  intro zone isMember
  exact checked.nonnegative zone (zones.subset isMember)

/-! ## Answers -/

/-- What a question answers. -/
def answer {A : Type} (read : Reading A) (layout : LinesLayout) : Option A :=
  (read.run layout).map Prod.fst

/-- A question that begins with a commit answers what it answers after the commit. -/
theorem answer_of_yields {A : Type} {next : Unit → Reading A}
    {value : A} (shows : Shows vertical layout.checkPendingChanges)
    (yields : Yields (Shows vertical) (LinesLayout.check >>= next) value) :
    answer (LinesLayout.check >>= next) layout = some value := by
  obtain ⟨answered, runs, _⟩ := yields _ shows
  have same : (LinesLayout.check >>= next).run layout =
      (LinesLayout.check >>= next).run layout.checkPendingChanges := by
    show (next ()).run layout.checkPendingChanges =
      (next ()).run layout.checkPendingChanges.checkPendingChanges
    rw [shows.checkPendingChanges]
  unfold answer
  rw [same, runs]
  rfl

/-- Below `2 ^ 31` the operator `| 0` rounds down. -/
theorem truncate_eq_floor {value : Rat} (low : 0 ≤ value) (high : value < 2 ^ 31) :
    truncate value = ⌊value⌋ := by
  have isFloor : value.num.tdiv value.den = ⌊value⌋ := by
    rw [tdiv_eq_ediv_of_nonneg (Rat.num_nonneg.mpr low), Rat.floor_def']
  have nonnegative : 0 ≤ ⌊value⌋ := floor_nonneg.mpr low
  have small : ⌊value⌋ < 2 ^ 31 := by
    apply floor_lt.mpr
    exact_mod_cast high
  unfold truncate
  rw [isFloor, toInt32_eq (by omega) small]

/-- The layout answers with the offsets of its outline. -/
theorem vertical_layout_exact (runs : RunsTo outline layout) (fits : outline.Fits) :
    (∀ lineNumber, 1 ≤ lineNumber → lineNumber < 2 ^ 31 →
      answer (LinesLayout.getVerticalOffsetForLineNumber lineNumber false) layout =
        some (outline.offset lineNumber)) ∧
    (1 ≤ outline.lineCount → ∀ verticalOffset : Rat, 0 ≤ verticalOffset →
      verticalOffset < 2 ^ 31 → ∃ lineNumber,
        answer (LinesLayout.getLineNumberAtOrAfterVerticalOffset verticalOffset) layout =
          some lineNumber ∧
        (1 ≤ lineNumber ∧ lineNumber ≤ outline.lineCount) ∧
        (∀ n, 1 ≤ n → n < lineNumber →
          ¬verticalOffset < (outline.offset n + outline.lineHeight : Int)) ∧
        (verticalOffset < (outline.offset lineNumber + outline.lineHeight : Int) ∨
          lineNumber = outline.lineCount)) ∧
    (∃ vertical, outline.IsOf vertical ∧ ∀ verticalOffset1 verticalOffset2 : Rat,
      answer (LinesLayout.getWhitespaceViewportData verticalOffset1 verticalOffset2) layout =
        some (vertical.placed.filter fun data =>
          data.verticalOffset + data.height > truncate verticalOffset1 ∧
            data.verticalOffset < truncate verticalOffset2)) ∧
    ∀ verticalOffset1 verticalOffset2 : Rat, ∃ data,
      answer (LinesLayout.getLinesViewportData verticalOffset1 verticalOffset2) layout =
        some data ∧
      (data.relativeVerticalOffset.length : Int) =
        data.endLineNumber + 1 - data.startLineNumber ∧
      ∀ (i : Nat) offset, data.relativeVerticalOffset[i]? = some offset →
        answer (LinesLayout.getVerticalOffsetForLineNumber (data.startLineNumber + i) false)
          layout = some (offset + data.bigNumbersDelta) := by
  obtain ⟨vertical, isOf, shows⟩ := (consistent_of_runsTo runs).exists_shows
  have fitsVertical := isOf.fits fits
  refine ⟨?_, ?_, ⟨vertical, isOf, ?_⟩, ?_⟩
  · intro lineNumber isLine isInt
    rw [← isOf.offset, ← VerticalLayout.lineTop_eq_offset isLine]
    exact answer_of_yields shows (LinesLayout.yields_getVerticalOffsetForLineNumber vertical
      (toInt32_eq (by omega) isInt))
  · intro isNonempty verticalOffset low high
    have isFloor := truncate_eq_floor low high
    obtain ⟨lineNumber, ⟨isLine, before, behind⟩, yields⟩ :=
      LinesLayout.yields_getLineNumberAtOrAfterVerticalOffset fitsVertical
        (by rwa [isOf.lineCount]) (show 0 ≤ truncate verticalOffset by
          rw [isFloor]
          exact floor_nonneg.mpr low)
    rw [isOf.lineCount] at isLine behind
    refine ⟨lineNumber, answer_of_yields shows yields, isLine, ?_, ?_⟩
    · intro n isFirst isBefore
      have ends := before n isFirst isBefore
      rw [isFloor, isOf.offset, isOf.lineHeight] at ends
      exact fun isBelow => absurd (floor_lt.mpr isBelow) (not_lt.mpr ends)
    · rw [isFloor, isOf.offset, isOf.lineHeight] at behind
      exact behind.imp floor_lt.mp id
  · intro verticalOffset1 verticalOffset2
    have listed := answer_of_yields shows
      (LinesLayout.yields_getWhitespaceViewportData verticalOffset1 verticalOffset2)
    simp only [not_le] at listed
    exact listed
  · intro verticalOffset1 verticalOffset2
    obtain ⟨data, yields, length, _, ⟨isStart, isEnd⟩, offsets⟩ :=
      LinesLayout.yields_getLinesViewportData fitsVertical verticalOffset1 verticalOffset2
    refine ⟨data, answer_of_yields shows yields, length, ?_⟩
    intro i offset isOffset
    have inside := (List.getElem?_eq_some_iff.mp isOffset).1
    have small := fitsVertical.lineCount
    rw [offsets i offset isOffset]
    exact answer_of_yields shows (LinesLayout.yields_getVerticalOffsetForLineNumber vertical
      (toInt32_eq (by omega) (by omega)))

/-! ## Positions that `| 0` changes -/

/-- Two lines of height 20, and a zone of height 10 above them. -/
def zoneOnTop : LinesLayout :=
  ((LinesLayout.new 2 20 0 0).access (.insertWhitespace 0 0 10 0)).checkPendingChanges

/-- A run with one whitespace above the first line. -/
theorem runsTo_zoneOnTop : RunsTo ⟨[⟨1, 0, 10⟩], 2, 20, 0, 0⟩ zoneOnTop := by
  have start : RunsTo ⟨[], 2, 20, 0, 0⟩ (.new 2 20 0 0) :=
    RunsTo.start 0 0 (by decide) (by decide)
  have admissible : (AccessorCall.insertWhitespace 0 0 10 0).Admissible (.new 2 20 0 0) :=
    ⟨⟨by decide, by decide⟩, ⟨by decide, by decide⟩⟩
  exact (start.access admissible).commit

theorem fits_zoneOnTop : Outline.Fits ⟨[⟨1, 0, 10⟩], 2, 20, 0, 0⟩ :=
  ⟨by decide, by decide, by decide, by decide, by decide⟩

/-- A zone that begins above `1 / 2` is not listed up to `1 / 2`, and the line at `2 ^ 31` is the
first one. -/
theorem truncated_positions :
    RunsTo ⟨[⟨1, 0, 10⟩], 2, 20, 0, 0⟩ zoneOnTop ∧
    Outline.Fits ⟨[⟨1, 0, 10⟩], 2, 20, 0, 0⟩ ∧
    (answer (LinesLayout.getVerticalOffsetForWhitespaceIndex 0) zoneOnTop = some 0 ∧
      answer (LinesLayout.getHeightForWhitespaceIndex 0) zoneOnTop = some 10 ∧
      answer (LinesLayout.getWhitespaceViewportData 0 (1 / 2)) zoneOnTop = some []) ∧
    answer (LinesLayout.getLineNumberAtOrAfterVerticalOffset (2 ^ 31)) zoneOnTop = some 1 ∧
    Outline.offset ⟨[⟨1, 0, 10⟩], 2, 20, 0, 0⟩ 1 + 20 < 2 ^ 31 :=
  ⟨runsTo_zoneOnTop, fits_zoneOnTop,
    ⟨by decide +kernel, by decide +kernel, by decide +kernel⟩, by decide +kernel, by decide⟩

/-- The second line below the zone. -/
theorem vertical_layout_exact_zoneOnTop :
    answer (LinesLayout.getVerticalOffsetForLineNumber 2 false) zoneOnTop = some 30 :=
  (vertical_layout_exact runsTo_zoneOnTop fits_zoneOnTop).1 2 (by decide) (by decide)

end CodeEditor.ViewLayout
