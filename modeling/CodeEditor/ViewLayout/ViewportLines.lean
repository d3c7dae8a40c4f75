import CodeEditor.ViewLayout.Viewport

/-!
# Offsets of the lines of a viewport

The loop of `getLinesViewportData` adds up the heights of lines and zones. It stays at the
offset of its line, below the step by which large numbers are brought down.
-/

namespace CodeEditor.ViewLayout

open Reads Thresholds List

variable {layout : VerticalLayout}

/-- The cursor has `k` zones above it. -/
structure CursorAt (layout : VerticalLayout) (endLineNumber : Int) (k : Nat)
    (cursor : LineCursor) : Prop where
  index : cursor.whitespaceIndex = k
  next : ∀ zone, layout.zones[k]? = some zone →
    cursor.currentWhitespaceAfterLineNumber = zone.afterLineNumber ∧
      cursor.currentWhitespaceHeight = zone.height
  last : k = layout.zones.length →
    cursor.currentWhitespaceAfterLineNumber = endLineNumber + 1

theorem toInt32_zone (fits : layout.Fits) {index : Nat}
    (isZone : layout.zones[index]? = some zone) :
    toInt32 zone.afterLineNumber = zone.afterLineNumber ∧ toInt32 zone.height = zone.height := by
  have isMember := mem_of_getElem? isZone
  have nonnegative := layout.nonnegative zone isMember
  have isLine := fits.lines zone isMember
  have total := layout.heightOfFirst_le (index + 1)
  have above := layout.heightOfFirst_nonnegative index
  rw [VerticalLayout.heightOfFirst_succ isZone] at total
  have high := fits.heights
  exact ⟨toInt32_eq (by omega) isLine, toInt32_eq (by omega) (by omega)⟩

namespace LinesLayout

/-- The zones behind a line are pushed. -/
theorem yields_pushWhitespaces (fits : layout.Fits) {lineNumber endLineNumber : Int} {k l : Nat}
    (isLine : lineNumber ≤ endLineNumber)
    (behind : ∀ i zone, k ≤ i → layout.zones[i]? = some zone →
      (zone.afterLineNumber = lineNumber ↔ i < l))
    (ordered : k ≤ l) (inside : l ≤ layout.zones.length)
    (isAt : CursorAt layout endLineNumber k cursor) :
    ∃ pushed, CursorAt layout endLineNumber l pushed ∧
      pushed.currentLineRelativeOffset = cursor.currentLineRelativeOffset +
        (layout.heightOfFirst l - layout.heightOfFirst k) ∧
      Yields (Shows layout)
        (pushWhitespaces lineNumber endLineNumber layout.zones.length cursor) pushed := by
  induction size : l - k generalizing k cursor with
  | zero =>
    have same : k = l := by omega
    subst same
    refine ⟨cursor, isAt, by ring, ?_⟩
    have differs : cursor.currentWhitespaceAfterLineNumber ≠ lineNumber := by
      rcases Nat.eq_or_lt_of_le inside with isEnd | isInside
      · rw [isAt.last isEnd]
        omega
      · have isZone := getElem?_eq_getElem isInside
        rw [(isAt.next _ isZone).1]
        exact (behind k _ le_rfl isZone).not.mpr (lt_irrefl k)
    rw [pushWhitespaces, if_neg differs]
    exact Yields.pure cursor
  | succ size ih =>
    have isZone := getElem?_eq_getElem (show k < layout.zones.length by omega)
    obtain ⟨isAfter, isHeight⟩ := isAt.next _ isZone
    have same : cursor.currentWhitespaceAfterLineNumber = lineNumber := by
      rw [isAfter]
      exact (behind k _ le_rfl isZone).mpr (by omega)
    have sum := layout.heightOfFirst_succ isZone
    rw [pushWhitespaces, if_pos same, isAt.index]
    by_cases isLast : k + 1 ≥ layout.zones.length
    · have isEnd : l = k + 1 := by omega
      subst isEnd
      rw [if_pos isLast]
      refine ⟨_, ⟨rfl, ?_, fun _ => rfl⟩, ?_, Yields.pure _⟩
      · intro zone isNext
        rw [getElem?_eq_none isLast] at isNext
        simp at isNext
      · dsimp only
        rw [isHeight, sum]
        ring
    · have isInside : k + 1 < layout.zones.length := by omega
      have isNext := getElem?_eq_getElem isInside
      obtain ⟨sameLine, sameHeight⟩ := toInt32_zone fits isNext
      rw [if_neg isLast]
      have isAtNext : CursorAt layout endLineNumber (k + 1) { cursor with
          whitespaceIndex := k + 1
          currentVerticalOffset := cursor.currentVerticalOffset + cursor.currentWhitespaceHeight
          currentLineRelativeOffset :=
            cursor.currentLineRelativeOffset + cursor.currentWhitespaceHeight
          currentWhitespaceAfterLineNumber := toInt32 layout.zones[k + 1].afterLineNumber
          currentWhitespaceHeight := toInt32 layout.zones[k + 1].height } := by
        refine ⟨rfl, ?_, fun isEnd => by omega⟩
        intro zone isZoneNext
        rw [isNext] at isZoneNext
        obtain rfl := Option.some.inj isZoneNext
        exact ⟨sameLine, sameHeight⟩
      obtain ⟨pushed, isAtEnd, offset, yields⟩ := ih
        (fun i zone above => behind i zone (by omega)) (by omega) isAtNext (by omega)
      refine ⟨pushed, isAtEnd, ?_, ?_⟩
      · rw [offset]
        rw [isHeight, sum]
        ring
      · apply (yields_getAfterLineNumberForWhitespaceIndex isNext).bind
        apply (yields_getHeightForWhitespaceIndex isNext).bind
        exact yields

/-- The offsets of the lines, from a cursor that stands at a line. -/
theorem yields_linesLoop (fits : layout.Fits) {lineHeight verticalOffset2 : Int}
    (isHeight : lineHeight = layout.lineHeight) {verticalCenter : Rat} {endLineNumber delta : Int}
    {count k : Nat} {lineNumber : Int} (isLine : lineNumber + count = endLineNumber + 1)
    (isPositive : 1 ≤ lineNumber ∨ count ≤ 1)
    (splits : SplitsAt (fun zone : Zone => zone.afterLineNumber < lineNumber) layout.zones k)
    (inside : k ≤ layout.zones.length) {cursor : LineCursor}
    (isAt : CursorAt layout endLineNumber k cursor)
    (isOffset : cursor.currentLineRelativeOffset + delta = layout.lineTop lineNumber)
    (centeredLineNumber : Int) :
    ∃ linesOffsets centered lastLineNumber,
      Yields (Shows layout) (linesLoop lineHeight verticalOffset2 verticalCenter endLineNumber
        layout.zones.length count lineNumber cursor centeredLineNumber)
        (linesOffsets, centered, lastLineNumber) ∧
      (linesOffsets.length : Int) = lastLineNumber + 1 - lineNumber ∧
      lastLineNumber ≤ endLineNumber ∧
      ∀ (i : Nat) offset, linesOffsets[i]? = some offset →
        offset + delta = layout.lineTop (lineNumber + i) := by
  induction count generalizing lineNumber k cursor centeredLineNumber with
  | zero =>
    refine ⟨[], centeredLineNumber, endLineNumber, Yields.pure _, ?_, le_rfl, ?_⟩
    · simp only [length_nil]
      omega
    · intro i offset isOffset
      simp at isOffset
  | succ count ih =>
    obtain ⟨l, insideNext, splitsNext⟩ := layout.exists_splitsAt (lineNumber + 1)
    have behind : ∀ i zone, k ≤ i → layout.zones[i]? = some zone →
        (zone.afterLineNumber = lineNumber ↔ i < l) := by
      intro i zone above isZone
      rw [← splitsNext i zone isZone]
      have := (splits i zone isZone).not.mpr (by omega)
      omega
    have ordered : k ≤ l := by
      by_contra before
      have isZone := getElem?_eq_getElem (show l < layout.zones.length by omega)
      have := (splits l _ isZone).mpr (by omega)
      have := (splitsNext l _ isZone).mp (by omega)
      omega
    have isAtLine : CursorAt layout endLineNumber k (cursor.addLine lineHeight) :=
      ⟨isAt.index, isAt.next, isAt.last⟩
    obtain ⟨pushed, isAtNext, pushedOffset, yields⟩ :=
      yields_pushWhitespaces fits (by omega) behind ordered insideNext isAtLine
    have single : ∀ (i : Nat) offset, [cursor.currentLineRelativeOffset][i]? = some offset →
        offset + delta = layout.lineTop (lineNumber + i) := by
      intro i offset isHere
      cases i with
      | zero =>
        obtain rfl := Option.some.inj isHere
        simpa using isOffset
      | succ i => simp at isHere
    by_cases isCovered : pushed.currentVerticalOffset ≥ verticalOffset2
    · refine ⟨[cursor.currentLineRelativeOffset], centeredLine lineHeight verticalCenter
        cursor.currentVerticalOffset lineNumber centeredLineNumber, lineNumber, ?_, ?_, by omega,
        single⟩
      · apply yields.bind
        rw [if_pos isCovered]
        exact Yields.pure _
      · simp only [length_singleton]
        omega
    · cases count with
      | zero =>
        refine ⟨[cursor.currentLineRelativeOffset], centeredLine lineHeight verticalCenter
          cursor.currentVerticalOffset lineNumber centeredLineNumber, endLineNumber, ?_, ?_,
          le_rfl, single⟩
        · apply yields.bind
          rw [if_neg isCovered]
          exact Yields.pure _
        · simp only [length_singleton]
          omega
      | succ count =>
        have isFirst : 1 ≤ lineNumber := by omega
        have nextOffset : pushed.currentLineRelativeOffset + delta =
            layout.lineTop (lineNumber + 1) := by
          rw [VerticalLayout.lineTop_eq_offset (by omega),
            VerticalLayout.offset_succ splits splitsNext,
            ← VerticalLayout.lineTop_eq_offset isFirst, ← isOffset, pushedOffset, isHeight]
          unfold LineCursor.addLine
          ring
        obtain ⟨linesOffsets, centered, lastLineNumber, yieldsRest, length, isLast, rest⟩ :=
          ih (by omega) (.inl (by omega)) splitsNext insideNext isAtNext
            nextOffset (centeredLine lineHeight verticalCenter cursor.currentVerticalOffset
              lineNumber centeredLineNumber)
        refine ⟨cursor.currentLineRelativeOffset :: linesOffsets, centered, lastLineNumber, ?_,
          ?_, isLast, ?_⟩
        · apply yields.bind
          rw [if_neg isCovered]
          apply yieldsRest.bind
          exact Yields.pure _
        · rw [length_cons]
          omega
        · intro i offset isHere
          cases i with
          | zero => exact single 0 offset isHere
          | succ i =>
            rw [rest i offset isHere]
            congr 1
            omega

/-- Some line is at an offset; without lines it may be line 0. -/
theorem exists_line (fits : layout.Fits) (verticalOffset : Rat) :
    ∃ lineNumber, (1 ≤ lineNumber ∧ lineNumber ≤ max 1 layout.lineCount ∨
        lineNumber = 0 ∧ layout.lineCount = 0) ∧
      Yields (Shows layout) (getLineNumberAtOrAfterVerticalOffset verticalOffset) lineNumber := by
  have lines := layout.lineCount_nonnegative
  by_cases negative : truncate verticalOffset < 0
  · refine ⟨1, .inl ⟨le_rfl, le_max_left _ _⟩, ?_⟩
    apply yields_check.bind
    apply Yields.get_bind
    intro s shows
    rw [if_pos negative]
    exact Yields.pure 1
  · by_cases isNonempty : 1 ≤ layout.lineCount
    · obtain ⟨lineNumber, isLine, yields⟩ :=
        yields_getLineNumberAtOrAfterVerticalOffset fits isNonempty (not_lt.mp negative)
      have := isLine.1
      exact ⟨lineNumber, .inl ⟨isLine.1.1, by omega⟩, yields⟩
    · have isZero : layout.lineCount = 0 := by omega
      refine ⟨0, .inr ⟨rfl, isZero⟩, ?_⟩
      apply yields_check.bind
      apply Yields.get_bind
      intro s shows
      rw [if_neg negative, shows.lineCount, isZero]
      have search : Yields (Shows layout) (searchSlot (lineSlot s.lineHeight)
          (truncate verticalOffset) 1 (toInt32 0).toNat) 1 := by
        rw [searchSlot]
        exact Yields.pure 1
      apply search.bind
      exact Yields.pure 0

theorem yields_startCursor (fits : layout.Fits) {k : Nat} (inside : k ≤ layout.zones.length)
    (endLineNumber verticalOffset delta : Int) :
    ∃ cursor, CursorAt layout endLineNumber k cursor ∧
      cursor.currentLineRelativeOffset + delta = verticalOffset ∧
      Yields (Shows layout) (startCursor endLineNumber verticalOffset delta layout.zones.length
        (if k < layout.zones.length then some k else none)) cursor := by
  by_cases less : k < layout.zones.length
  · have isZone := getElem?_eq_getElem less
    obtain ⟨sameLine, sameHeight⟩ := toInt32_zone fits isZone
    rw [if_pos less]
    refine ⟨⟨k, toInt32 layout.zones[k].afterLineNumber, toInt32 layout.zones[k].height,
      verticalOffset, verticalOffset - delta⟩, ⟨rfl, ?_, fun isEnd => by omega⟩,
      Int.sub_add_cancel verticalOffset delta, ?_⟩
    · intro zone isHere
      rw [isZone] at isHere
      obtain rfl := Option.some.inj isHere
      exact ⟨sameLine, sameHeight⟩
    · apply (yields_getAfterLineNumberForWhitespaceIndex isZone).bind
      apply (yields_getHeightForWhitespaceIndex isZone).bind
      exact Yields.pure _
  · have isEnd : k = layout.zones.length := by omega
    rw [if_neg less]
    refine ⟨⟨layout.zones.length, endLineNumber + 1, 0, verticalOffset, verticalOffset - delta⟩,
      ⟨isEnd.symm, ?_, fun _ => rfl⟩, Int.sub_add_cancel verticalOffset delta, Yields.pure _⟩
    intro zone isZone
    rw [getElem?_eq_none (by omega)] at isZone
    simp at isZone

/-- The lines of a viewport have their offsets. -/
theorem yields_getLinesViewportData (fits : layout.Fits) (verticalOffset1 verticalOffset2 : Rat) :
    ∃ data, Yields (Shows layout) (getLinesViewportData verticalOffset1 verticalOffset2) data ∧
      (data.relativeVerticalOffset.length : Int) = data.endLineNumber + 1 - data.startLineNumber ∧
      (data.startLineNumber = 0 → layout.lineCount = 0) ∧
      (0 ≤ data.startLineNumber ∧ data.endLineNumber ≤ layout.lineCount) ∧
      ∀ (i : Nat) offset, data.relativeVerticalOffset[i]? = some offset →
        offset + data.bigNumbersDelta = layout.lineTop (data.startLineNumber + i) := by
  have lines := layout.lineCount_nonnegative
  have small := fits.lineCount
  obtain ⟨startLineNumber, isStart, yieldsStart⟩ := exists_line fits (truncate verticalOffset1)
  have isInt : toInt32 startLineNumber = startLineNumber := toInt32_eq (by omega) (by omega)
  have isIntCount : toInt32 layout.lineCount = layout.lineCount := toInt32_eq (by omega) small
  have isIntOffset : toInt32 (layout.lineTop startLineNumber) = layout.lineTop startLineNumber :=
    toInt32_lineTop fits (by omega)
  obtain ⟨k, inside, splits⟩ := layout.exists_splitsAt startLineNumber
  obtain ⟨cursor, isAt, isOffset, yieldsCursor⟩ := yields_startCursor fits inside
    layout.lineCount (layout.lineTop startLineNumber)
    (bigNumbersDelta (layout.lineTop startLineNumber) layout.lineHeight)
  obtain ⟨linesOffsets, centered, lastLineNumber, yieldsLines, length, isLast, offsets⟩ :=
    @yields_linesLoop layout fits layout.lineHeight (truncate verticalOffset2) rfl
      (truncate verticalOffset1 + (truncate verticalOffset2 - truncate verticalOffset1) / 2)
      layout.lineCount _ (layout.lineCount + 1 - startLineNumber).toNat k startLineNumber
      (by omega) (by omega) splits inside cursor isAt isOffset (-1)
  refine ⟨⟨bigNumbersDelta (layout.lineTop startLineNumber) layout.lineHeight, startLineNumber,
    lastLineNumber, linesOffsets, ?_, ?_, ?_, ?_⟩, ?_, length, ?_, ⟨?_, isLast⟩,
    offsets⟩
  rotate_left 4
  · apply yields_check.bind
    apply Yields.get_bind
    intro s shows
    simp only [shows.lineHeight, shows.lineCount, isIntCount]
    apply yieldsStart.bind
    rw [isInt]
    apply (yields_getVerticalOffsetForLineNumber layout isInt).bind
    rw [isIntOffset]
    apply (yields_getFirstWhitespaceIndexAfterLineNumber isInt splits inside).bind
    apply yields_getWhitespacesCount.bind
    apply yieldsCursor.bind
    apply yieldsLines.bind
    apply (yields_getVerticalOffsetForLineNumber layout
      (toInt32_eq (show -2 ^ 31 ≤ lastLineNumber by omega) (by omega))).bind
    exact Yields.pure _
  · intro isZero
    dsimp only at isZero
    omega
  · dsimp only
    omega

end LinesLayout

end CodeEditor.ViewLayout
