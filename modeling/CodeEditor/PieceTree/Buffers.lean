import CodeEditor.PieceTree.Base

/-!
# Pieces and the text they denote

A cursor of a buffer is canonical when it is the line and column of an offset
(`cursorAt`). `Denotes` says that a piece covers the part of its buffer
between two offsets, with canonical cursors, its length and its line feed
count. The functions of the source that compute with cursors are here shown
to compute with offsets, and pieces keep their meaning when buffers grow.
-/

namespace CodeEditor.PieceTree

open List Nat

/-- The cursor of an offset. -/
def cursorAt (text : Text) (offset : Nat) : BufferCursor :=
  ⟨lineIndex text offset, offset - lineStart text offset⟩

/-- The line starts of a buffer are right. -/
def BufferOk (b : StringBuffer) : Prop :=
  b.lineStarts = lineStartsOf b.buffer

/-! ## Line starts -/

theorem lineStartsFrom_eq (text : Text) (i : Nat) :
    lineStartsFrom i text = (breakEnds text).map (i + ·) := by
  induction i, text using lineStartsFrom.induct with
  | case1 i => simp [lineStartsFrom, breakEnds]
  | case2 i chr isBreak =>
    simp [lineStartsFrom, breakEnds_singleton, isBreak]
  | case3 i chr notBreak =>
    simp [lineStartsFrom, breakEnds_singleton, notBreak]
  | case4 i rest ih =>
    rw [lineStartsFrom, breakEnds_cons_CRLF]
    simp [ih, Function.comp_def, Nat.add_assoc]
  | case5 i following rest notLF ih =>
    rw [lineStartsFrom, breakEnds_cons (by simp [notLF])]
    simp [ih, notLF, Function.comp_def, Nat.add_assoc]
  | case6 i following rest notCR ih =>
    rw [lineStartsFrom, breakEnds_cons (by simp)]
    simp [ih, Function.comp_def, Nat.add_assoc]
  | case7 i chr following rest notCR notLF ih =>
    rw [lineStartsFrom, breakEnds_cons (by simp [notCR])]
    simp [ih, notCR, notLF, Function.comp_def, Nat.add_assoc]

theorem createLineStartsFast_eq (text : Text) : createLineStartsFast text = lineStartsOf text := by
  simp [createLineStartsFast, lineStartsFrom_eq, lineStartsOf]

theorem BufferOk.lineStartAt (ok : BufferOk b) (offset : Nat) :
    b.lineStartAt (lineIndex b.buffer offset) = lineStart b.buffer offset := by
  rw [StringBuffer.lineStartAt, ok, getD_eq_getElem?_getD, lineStartsOf_getElem?_lineIndex]
  rfl

theorem BufferOk.lineStartAt_add_column (ok : BufferOk b) (offset : Nat) :
    b.lineStartAt (cursorAt b.buffer offset).line + (cursorAt b.buffer offset).column = offset := by
  have bound := lineStart_le b.buffer offset
  simp only [cursorAt, ok.lineStartAt]
  omega

/-! ## Cursors as offsets -/

theorem cursorAt_column_eq_zero_iff {text : Text} {offset : Nat} :
    (cursorAt text offset).column = 0 ↔ offset = 0 ∨ breakEndsAt text offset = true := by
  rw [← lineStart_eq_self_iff]
  have bound := lineStart_le text offset
  simp only [cursorAt]
  omega

/-- A cursor determines its offset. -/
theorem cursorAt_injective {text : Text}
    (equal : cursorAt text first = cursorAt text second) : first = second := by
  have firstStart := lineStartsOf_getElem?_lineIndex text first
  have secondStart := lineStartsOf_getElem?_lineIndex text second
  have firstBound := lineStart_le text first
  have secondBound := lineStart_le text second
  simp only [cursorAt, BufferCursor.mk.injEq] at equal
  rw [equal.1, secondStart, Option.some.injEq] at firstStart
  omega

variable {s : PieceTreeBase}

/-- `getLineFeedCnt` is the difference of the lines, and one more when the
second cursor stands inside a `\r\n`. -/
theorem getLineFeedCnt_eq_line_sub {index last : Nat} (start : BufferCursor)
    (ok : BufferOk (s.bufferAt index)) (positive : 0 < last) :
    s.getLineFeedCnt index start (cursorAt (s.bufferAt index).buffer last) =
      lineIndex (s.bufferAt index).buffer last - start.line +
        if insideCRLF (s.bufferAt index).buffer last then 1 else 0 := by
  obtain ⟨before, rfl⟩ : ∃ before, last = before + 1 := ⟨last - 1, by omega⟩
  have offset := ok.lineStartAt_add_column (before + 1)
  simp only [PieceTreeBase.getLineFeedCnt]
  generalize s.bufferAt index = b at *
  have lineEq : (cursorAt b.buffer (before + 1)).line = lineIndex b.buffer (before + 1) := rfl
  cases inside : insideCRLF b.buffer (before + 1) with
  | false =>
    split
    · rfl
    · rename_i notStart
      split
      · rfl
      · split
        · rfl
        · split
          · rename_i isCR
            rw [offset, Nat.add_sub_cancel] at isCR
            exfalso
            refine notStart (cursorAt_column_eq_zero_iff.mpr (.inr ?_))
            have notLF : ¬b.buffer[before + 1]? = some LF := fun isLF => by
              simp [insideCRLF_iff.mpr ⟨isCR, isLF⟩] at inside
            simp [breakEndsAt_succ, isCR, notLF]
          · rfl
  | true =>
    obtain ⟨isCR, isLF⟩ := insideCRLF_iff.mp inside
    have openEnd : breakEndsAt b.buffer (before + 1) = false := by
      simp [breakEndsAt_succ, isCR, isLF]
    have nextEnd : breakEndsAt b.buffer (before + 2) = true := by
      simp [breakEndsAt_succ, isLF]
    have nextLine := lineIndex_succ b.buffer (before + 1)
    rw [nextEnd, if_pos rfl] at nextLine
    have nextStart := ok.lineStartAt (before + 2)
    rw [lineStart_of_breakEndsAt nextEnd, nextLine] at nextStart
    have notColumn : ¬(cursorAt b.buffer (before + 1)).column = 0 := by
      simp [cursorAt_column_eq_zero_iff, openEnd]
    have notLast : ¬(cursorAt b.buffer (before + 1)).line + 1 = b.lineStarts.length := by
      have bound := lineIndex_le_breakCount b.buffer (before + 1 + 1)
      rw [ok, length_lineStartsOf, lineEq]
      omega
    rw [if_neg notColumn, if_neg notLast, offset, lineEq, nextStart,
      if_neg (by omega), Nat.add_sub_cancel, if_pos isCR, if_pos rfl]

/-- `getLineFeedCnt` counts the line breaks between two offsets. -/
theorem getLineFeedCnt_eq {index first last : Nat} (ok : BufferOk (s.bufferAt index))
    (nonempty : first < last) (bounded : last ≤ (s.bufferAt index).buffer.length) :
    s.getLineFeedCnt index (cursorAt (s.bufferAt index).buffer first)
        (cursorAt (s.bufferAt index).buffer last) =
      breakCount (substring (s.bufferAt index).buffer first last) := by
  have count := lineIndex_add_breakCount_substring nonempty bounded
  have ordered := lineIndex_mono (s.bufferAt index).buffer nonempty.le
  rw [getLineFeedCnt_eq_line_sub _ ok (by omega)]
  simp only [cursorAt]
  omega

/-- The binary search ends at the line of the offset. -/
theorem positionSearch_eq (b : StringBuffer) (offset fuel : Nat)
    (low high : Int) (mid midStart : Nat) (ok : BufferOk b)
    (nonnegative : 0 ≤ low)
    (lower : low ≤ lineIndex b.buffer offset)
    (upper : (lineIndex b.buffer offset : Int) ≤ high)
    (valid : high ≤ breakCount b.buffer)
    (enough : high - low < fuel) :
    PieceTreeBase.positionSearch b offset fuel low high mid midStart =
      (lineIndex b.buffer offset, lineStart b.buffer offset) := by
  induction fuel generalizing low high mid midStart with
  | zero => omega
  | succ fuel ih =>
    have tableAt : ∀ line : Nat, (line : Int) ≤ breakCount b.buffer →
        (lineStartsOf b.buffer)[line]? = some (b.lineStartAt line) := by
      intro line bound
      have inside : line < (lineStartsOf b.buffer).length := by
        rw [length_lineStartsOf]
        omega
      rw [StringBuffer.lineStartAt, ok, getD_eq_getElem?_getD, getElem?_eq_getElem inside]
      rfl
    unfold PieceTreeBase.positionSearch
    rw [if_pos (by omega)]
    obtain ⟨middle, middleEq⟩ : ∃ middle : Nat, (low + (high - low) / 2).toNat = middle := ⟨_, rfl⟩
    simp only [middleEq]
    have midStartLe := @lineStart_le_iff _ offset _ _ (tableAt middle (by omega))
    by_cases last : (middle : Int) = high
    · -- the interval has one line left
      have found : lineIndex b.buffer offset = middle := by omega
      rw [if_pos last, ← ok.lineStartAt, found]
    · have midStopLe := @lineStart_le_iff _ offset _ _ (tableAt (middle + 1) (by omega))
      rw [if_neg last]
      split
      · exact ih _ _ _ _ nonnegative lower (by omega) (by omega) (by omega)
      · split
        · exact ih _ _ _ _ (by omega) (by omega) upper valid (by omega)
        · have found : lineIndex b.buffer offset = middle := by omega
          rw [← ok.lineStartAt, found]

/-! ## Pieces -/

/-- The text of a buffer. -/
def bufferText (buffers : List StringBuffer) (index : Nat) : Text :=
  (buffers.getD index ⟨[], []⟩).buffer

/-- The text a piece reads from its buffer; `getPieceContent` by definition. -/
def contentOf (buffers : List StringBuffer) (p : Piece) : Text :=
  let b := buffers.getD p.bufferIndex ⟨[], []⟩
  substring b.buffer (b.lineStartAt p.start.line + p.start.column)
    (b.lineStartAt p.stop.line + p.stop.column)

theorem getPieceContent_eq (s : PieceTreeBase) (p : Piece) :
    s.getPieceContent p = contentOf s.buffers p := rfl

/-- There is a change buffer, and all line starts are right. -/
structure BuffersOk (buffers : List StringBuffer) : Prop where
  nonempty : buffers ≠ []
  lineStarts : ∀ b ∈ buffers, BufferOk b

/-- The piece covers its buffer from the offset `first` to the offset `last`.
An empty piece, which only appears until it is deleted, may have any line feed
count. -/
structure Denotes (buffers : List StringBuffer) (p : Piece)
    (first last : Nat) : Prop where
  known : p.bufferIndex < buffers.length
  ordered : first ≤ last
  bounded : last ≤ (bufferText buffers p.bufferIndex).length
  start : p.start = cursorAt (bufferText buffers p.bufferIndex) first
  stop : p.stop = cursorAt (bufferText buffers p.bufferIndex) last
  length : p.length = last - first
  lineFeedCnt : first < last → p.lineFeedCnt =
    breakCount (substring (bufferText buffers p.bufferIndex) first last)

/-- The piece covers some part of its buffer. -/
def PieceOk (buffers : List StringBuffer) (p : Piece) : Prop :=
  ∃ first last, Denotes buffers p first last

variable {buffers : List StringBuffer} {p : Piece} {first last : Nat}

theorem BuffersOk.getD (ok : BuffersOk buffers) {index : Nat} (known : index < buffers.length) :
    BufferOk (buffers.getD index ⟨[], []⟩) := by
  rw [getD_eq_getElem?_getD, getElem?_eq_getElem known]
  exact ok.lineStarts _ (getElem_mem known)

section

variable (denotes : Denotes buffers p first last) (ok : BuffersOk buffers)

include denotes ok

theorem Denotes.bufferOk : BufferOk (buffers.getD p.bufferIndex ⟨[], []⟩) :=
  ok.getD denotes.known

theorem Denotes.startOffset : (buffers.getD p.bufferIndex ⟨[], []⟩).lineStartAt p.start.line +
      p.start.column = first := by
  rw [denotes.start]
  exact (denotes.bufferOk ok).lineStartAt_add_column first

theorem Denotes.stopOffset : (buffers.getD p.bufferIndex ⟨[], []⟩).lineStartAt p.stop.line +
      p.stop.column = last := by
  rw [denotes.stop]
  exact (denotes.bufferOk ok).lineStartAt_add_column last

theorem Denotes.content : contentOf buffers p =
      substring (bufferText buffers p.bufferIndex) first last := by
  simp only [contentOf, denotes.startOffset ok, denotes.stopOffset ok]
  rfl

end

theorem PieceOk.length_content (pieceOk : PieceOk buffers p)
    (ok : BuffersOk buffers) : (contentOf buffers p).length = p.length := by
  obtain ⟨first, last, denotes⟩ := pieceOk
  rw [denotes.content ok, length_substring_of_le denotes.ordered denotes.bounded, denotes.length]

theorem PieceOk.lineFeedCnt_eq (pieceOk : PieceOk buffers p)
    (ok : BuffersOk buffers) (nonempty : p.length ≠ 0) :
    p.lineFeedCnt = breakCount (contentOf buffers p) := by
  obtain ⟨first, last, denotes⟩ := pieceOk
  have length := denotes.length
  rw [denotes.content ok, denotes.lineFeedCnt (by omega)]

theorem Denotes.positionInBuffer (denotes : Denotes s.buffers p first last)
    (ok : BuffersOk s.buffers) {remainder : Nat} (bounded : remainder ≤ p.length) :
    s.positionInBuffer p remainder =
      cursorAt (bufferText s.buffers p.bufferIndex) (first + remainder) := by
  have ordered := denotes.ordered
  have length := denotes.length
  have startLine : p.start.line = lineIndex (bufferText s.buffers p.bufferIndex) first := by
    rw [denotes.start, cursorAt]
  have stopLine : p.stop.line = lineIndex (bufferText s.buffers p.bufferIndex) last := by
    rw [denotes.stop, cursorAt]
  have startMono := lineIndex_mono (bufferText s.buffers p.bufferIndex)
    (le_add_right first remainder)
  have stopMono := lineIndex_mono (bufferText s.buffers p.bufferIndex)
    (by omega : first + remainder ≤ last)
  have valid := lineIndex_le_breakCount (bufferText s.buffers p.bufferIndex) last
  have searched := positionSearch_eq (s.bufferAt p.bufferIndex)
    (first + remainder) (p.stop.line - p.start.line + 1) p.start.line
    p.stop.line 0 0 (denotes.bufferOk ok) (by omega)
    (by rw [startLine]; exact_mod_cast startMono)
    (by rw [stopLine]; exact_mod_cast stopMono)
    (by rw [stopLine]; exact_mod_cast valid) (by omega)
  have startOffset : (s.bufferAt p.bufferIndex).lineStartAt p.start.line +
      p.start.column = first := denotes.startOffset ok
  simp only [PieceTreeBase.positionInBuffer, startOffset, searched]
  rfl

/-! ## Parts of a piece -/

/-- A piece with the cursors of two offsets and the line feeds that
`getLineFeedCnt` counts between them. -/
theorem denotes_of_cursors (ok : BuffersOk s.buffers) (known : p.bufferIndex < s.buffers.length)
    (ordered : first ≤ last) (bounded : last ≤ (bufferText s.buffers p.bufferIndex).length)
    (start : p.start = cursorAt (bufferText s.buffers p.bufferIndex) first)
    (stop : p.stop = cursorAt (bufferText s.buffers p.bufferIndex) last)
    (length : p.length = last - first) (lineFeedCnt : p.lineFeedCnt =
      s.getLineFeedCnt p.bufferIndex p.start p.stop) : Denotes s.buffers p first last := by
  refine ⟨known, ordered, bounded, start, stop, length, fun nonempty => ?_⟩
  rw [lineFeedCnt, start, stop]
  exact getLineFeedCnt_eq (ok.getD known) nonempty bounded

/-! ## Growing buffers -/

/-- Buffers only grow, and no growth continues a `\r` with a `\n`. -/
structure Extends (old new : List StringBuffer) : Prop where
  length_le : old.length ≤ new.length
  grows : ∀ index < old.length, ∃ more,
    bufferText new index = bufferText old index ++ more ∧
      splitsCRLF (bufferText old index) more = false

theorem Extends.refl (buffers : List StringBuffer) :
    Extends buffers buffers :=
  ⟨le_rfl, fun _ _ => ⟨[], by simp⟩⟩

theorem Extends.trans (first : Extends a b) (second : Extends b c) : Extends a c := by
  refine ⟨first.length_le.trans second.length_le, fun index known => ?_⟩
  obtain ⟨more, moreEq, whole⟩ := first.grows index known
  obtain ⟨rest, restEq, restWhole⟩ :=
    second.grows index (known.trans_le first.length_le)
  refine ⟨more ++ rest, by rw [restEq, moreEq, append_assoc], ?_⟩
  by_cases empty : more = []
  · rw [moreEq] at restWhole
    simpa [empty] using restWhole
  · rw [splitsCRLF_append_right _ _ empty, whole]

variable {old new : List StringBuffer}

/-- A piece denotes the same text after the buffers have grown. -/
theorem Denotes.extend (denotes : Denotes old p first last) (extended : Extends old new) :
    Denotes new p first last := by
  obtain ⟨more, moreEq, whole⟩ := extended.grows p.bufferIndex denotes.known
  have ordered := denotes.ordered
  have bounded := denotes.bounded
  have sameCursor : ∀ {offset}, offset ≤ last → cursorAt (bufferText new p.bufferIndex) offset =
        cursorAt (bufferText old p.bufferIndex) offset := by
    intro offset inside
    rw [moreEq, cursorAt, lineIndex_append_of_le (inside.trans bounded) whole,
      lineStart_append_of_le (inside.trans bounded) whole, cursorAt]
  refine ⟨denotes.known.trans_le extended.length_le, ordered, ?_, ?_, ?_, denotes.length, ?_⟩
  · rw [moreEq, length_append]
    omega
  · rw [denotes.start, sameCursor ordered]
  · rw [denotes.stop, sameCursor le_rfl]
  · rw [moreEq, substring_append_left more ordered bounded]
    exact denotes.lineFeedCnt

theorem PieceOk.extend (pieceOk : PieceOk old p) (extended : Extends old new) : PieceOk new p := by
  obtain ⟨first, last, denotes⟩ := pieceOk
  exact ⟨first, last, denotes.extend extended⟩

theorem PieceOk.contentOf_extend (pieceOk : PieceOk old p) (extended : Extends old new)
    (oldOk : BuffersOk old) (newOk : BuffersOk new) : contentOf new p = contentOf old p := by
  obtain ⟨first, last, denotes⟩ := pieceOk
  obtain ⟨more, moreEq, -⟩ := extended.grows p.bufferIndex denotes.known
  rw [(denotes.extend extended).content newOk, denotes.content oldOk, moreEq,
    substring_append_left more denotes.ordered denotes.bounded]

end CodeEditor.PieceTree
