import CodeEditor.TextBuffer.Applying

/-!
# Many edits as one

A thousand operations and more are replaced by a single one, from the start of the first range to
the end of the last, with the old text between the ranges and the new texts. It does to the text
what they do.
-/

namespace CodeEditor.TextBuffer

open PieceTree List Option Int
open PieceTree.PieceTreeBase (Range)

namespace PieceTreeTextBuffer

variable {b : PieceTreeTextBuffer} {text : Text} {operations : List ValidatedEditOperation}
  {lastEnd : Position} {p : Nat}

/-- The collected text is what the operations make of the text up to the end of the last one. -/
theorem Holds.singleEditText (holds : b.Holds text)
    (replaces : ∀ op ∈ operations, ∃ i j, Replaces b.getEOL text op i j)
    (within : Within text.length p (operations.map replacementOf))
    (valid : ValidAt text lastEnd p) :
    ∃ collected q, b.singleEditText operations lastEnd = some collected ∧
      AllBreaksAre b.getEOL collected ∧
      ValidAt text ((operations.map fun op => getEndPosition op.range).getLastD lastEnd) q ∧
      p ≤ q ∧ patch (text.drop p) p (operations.map replacementOf) = collected ++ text.drop q := by
  induction operations generalizing lastEnd p with
  | nil => exact ⟨[], p, rfl, allBreaksAre_nil _, valid, le_rfl, rfl⟩
  | cons op operations ih =>
    obtain ⟨i, j, own⟩ := replaces op mem_cons_self
    have ordered := own.located.ordered
    rw [map_cons, own.replacementOf] at within
    obtain ⟨start, -, within⟩ := within
    have gap : p ≤ i := ofNat_le.mp start
    have old := holds.getValueInRange valid own.located.start gap
    obtain ⟨collected, q, isCollected, normalized, validEnd, behind, patched⟩ :=
      ih (fun op member => replaces op (mem_cons_of_mem _ member)) within own.located.stop
    have oldNormalized := allBreaksAre_substring holds.normalized (validAt_iff.mp valid).2.1
      (validAt_iff.mp own.located.start).2.1 gap
    refine ⟨substring text p i ++ op.text ++ collected, q, ?_, ?_, ?_, by omega, ?_⟩
    · rw [PieceTreeTextBuffer.singleEditText]
      have range := newRange_of_validAt valid own.located.start gap
      unfold getStartPosition at range old
      rw [range, old, bind_eq_bind, bind_some, isCollected]
      rfl
    · exact allBreaksAre_append (allBreaksAre_append oldNormalized own.normalized) normalized
    · rw [map_cons, getLastD_cons]
      exact validEnd
    · have toStart : ((i : Int) - p).toNat = i - p := by omega
      have toStop : ((j : Int) - p).toNat = j - p := by omega
      rw [map_cons, own.replacementOf, patch_cons]
      rw [toStart, toStop, drop_drop, Nat.add_sub_cancel' (by omega), patched,
        substring_of_le _ gap, drop_take, append_assoc, append_assoc]

theorem getLastD_getEndPosition (first : ValidatedEditOperation)
    (rest : List ValidatedEditOperation) (lastEnd : Position) :
    ((first :: rest).map fun op => getEndPosition op.range).getLastD lastEnd =
      getEndPosition ((first :: rest).getLastD first).range := by
  rw [map_cons, getLastD_cons, getLastD_cons]
  induction rest generalizing first with
  | nil => rfl
  | cons op rest ih =>
    rw [map_cons, getLastD_cons, getLastD_cons, ih]

/-- The single operation replaces everything from the first start to the last end. -/
theorem Holds.toSingleEditOperation (holds : b.Holds text) {first : ValidatedEditOperation}
    {rest : List ValidatedEditOperation}
    (replaces : ∀ op ∈ first :: rest, ∃ i j, Replaces b.getEOL text op i j)
    (within : Within text.length 0 ((first :: rest).map replacementOf)) :
    ∃ single i j, b.toSingleEditOperation first rest = some single ∧
      Replaces b.getEOL text single i j ∧
      patch text 0 [replacementOf single] = patch text 0 ((first :: rest).map replacementOf) ∧
      single.eolCount = (textExtent single.text).lines ∧
      ((textExtent single.text).lines = 0 →
        single.firstLineLength = (textExtent single.text).columns) ∧
      single.lastLineLength = (textExtent single.text).columns := by
  obtain ⟨i, k, own⟩ := replaces first mem_cons_self
  have start := own.located.start
  have inside := (validAt_iff.mp start).1
  have fromStart : Within text.length i ((first :: rest).map replacementOf) := by
    rw [map_cons, own.replacementOf] at within ⊢
    exact ⟨le_refl _, within.2⟩
  obtain ⟨collected, q, isCollected, normalized, stop, behind, patched⟩ :=
    holds.singleEditText replaces fromStart start
  rw [getLastD_getEndPosition] at stop
  have range := newRange_of_validAt start stop behind
  unfold getStartPosition at range start
  unfold getEndPosition at range stop
  have counts := countEOL_spec collected
  unfold PieceTreeTextBuffer.toSingleEditOperation
  dsimp only
  rw [isCollected, bind_eq_bind, bind_some, range]
  have replacesAll : Replaces b.getEOL text
      { sortIndex := 0, identifier := first.identifier,
        range := ⟨first.range.startLineNumber, first.range.startColumn,
          ((first :: rest).getLastD first).range.endLineNumber,
          ((first :: rest).getLastD first).range.endColumn⟩,
        rangeOffset := b.getOffsetAt first.range.startLineNumber first.range.startColumn,
        rangeLength := b.getValueLengthInRange ⟨first.range.startLineNumber,
          first.range.startColumn, ((first :: rest).getLastD first).range.endLineNumber,
          ((first :: rest).getLastD first).range.endColumn⟩ .textDefined,
        text := collected, eolCount := (countEOL collected).1,
        firstLineLength := (countEOL collected).2.1,
        lastLineLength := (countEOL collected).2.2.1,
        forceMoveMarkers := (first :: rest).any (·.forceMoveMarkers),
        isAutoWhitespaceEdit := false } i q :=
    ⟨⟨start, stop, behind⟩, getOffsetAt_of_validAt holds.represents start,
      getValueLengthInRange_of_validAt holds.represents start stop behind, normalized⟩
  refine ⟨_, i, q, rfl, replacesAll, ?_, counts⟩
  have bounded : (i : Int) ≤ 0 + text.length := by omega
  rw [patch_eq_take (natCast_nonneg i) bounded fromStart, replacesAll.replacementOf, patch_cons,
    sub_zero, sub_zero, toNat_natCast, patched]
  rfl

/-- Operations that are made of valid ranges, in ascending order and without overlaps, replace
their ranges at once. -/
theorem Holds.doApplyEdits (holds : b.Holds text)
    (replaces : ∀ op ∈ operations, ∃ i j, Replaces b.getEOL text op i j)
    (sorted : SortedAscending operations)
    (within : Within text.length 0 (operations.map replacementOf)) :
    ∃ after changes, b.doApplyEdits operations = some (after, changes) ∧
      Represents after.pieceTree (patch text 0 (operations.map replacementOf)) := by
  obtain ⟨s', changes, done, represents, -⟩ :=
    doApplyLoop_reverse holds.represents replaces within
  refine ⟨{ b with pieceTree := s' }, changes, ?_, represents⟩
  unfold PieceTreeTextBuffer.doApplyEdits
  rw [sortOps_descending sorted, done]
  rfl

end PieceTreeTextBuffer

/-- A text that stands behind another one begins behind its extent and ends behind both. -/
theorem located_of_parts (back : Text)
    (frontNormalized : AllBreaksAre eol front) (middleNormalized : AllBreaksAre eol middle) :
    Located (front ++ (middle ++ back))
      ⟨(positionOf (textExtent front)).lineNumber, (positionOf (textExtent front)).column,
        (positionOf (textExtent front + textExtent middle)).lineNumber,
        (positionOf (textExtent front + textExtent middle)).column⟩
      front.length (front.length + middle.length) := by
  have bothNormalized := allBreaksAre_append frontNormalized middleNormalized
  have both : (front ++ (middle ++ back)).take (front.length + middle.length) =
      front ++ middle := by
    rw [← append_assoc]
    exact take_left' length_append
  refine ⟨validAt_iff.mpr ⟨?_, ?_, ?_⟩, validAt_iff.mpr ⟨?_, ?_, ?_⟩, Nat.le_add_right _ _⟩
  · rw [length_append]
    exact Nat.le_add_right _ _
  · unfold insideCRLF
    rw [take_left]
    exact not_splits_of_allBreaksAre frontNormalized _
  · rw [take_left]
    rfl
  · rw [length_append, length_append]
    omega
  · unfold insideCRLF
    rw [both]
    exact not_splits_of_allBreaksAre bothNormalized _
  · rw [both, textExtent_append (not_splits_of_allBreaksAre frontNormalized _)]
    rfl

/-- The operation is what the buffer makes of one with a valid range. -/
def IsValidated (b : PieceTreeTextBuffer) (text : Text) (op : ValidatedEditOperation) : Prop :=
  ∃ index raw i j, op = b.validate index raw ∧ Located text raw.range i j

/-- The single operation does to the text what the operations do, and its inverse range is the
range of its text afterwards. -/
theorem toSingleEditOperation_same (b : PieceTreeTextBuffer) (reachable : Reachable b.pieceTree)
    (normalized : AllBreaksAre b.getEOL b.pieceTree.getLinesRawContent)
    (first : ValidatedEditOperation) (rest : List ValidatedEditOperation)
    (validated : ∀ op ∈ first :: rest, IsValidated b b.pieceTree.getLinesRawContent op)
    (sorted : SortedAscending (first :: rest))
    (disjoint : touchingRanges (first :: rest) ≠ none) :
    ∃ single byMany byOne changes changes',
      b.toSingleEditOperation first rest = some single ∧
      b.doApplyEdits (first :: rest) = some (byMany, changes) ∧
      b.doApplyEdits [single] = some (byOne, changes') ∧
      byOne.pieceTree.getLinesRawContent = byMany.pieceTree.getLinesRawContent ∧
      ∃ (offset length : Nat) (range : Range),
        single.rangeOffset = offset ∧ single.rangeLength = length ∧
        offset + length ≤ b.pieceTree.getLinesRawContent.length ∧
        byOne.pieceTree.getLinesRawContent =
          splice b.pieceTree.getLinesRawContent offset length single.text ∧
        getInverseEditRanges [single] = [range] ∧
        Located byOne.pieceTree.getLinesRawContent range offset (offset + single.text.length) := by
  have holds : b.Holds b.pieceTree.getLinesRawContent := ⟨reachable.represents, normalized⟩
  generalize b.pieceTree.getLinesRawContent = text at *
  have replaces : ∀ op ∈ first :: rest, ∃ i j, Replaces b.getEOL text op i j := by
    intro op member
    obtain ⟨index, raw, i, j, rfl, located⟩ := validated op member
    exact ⟨i, j, holds.validate located index⟩
  have within := within_of_disjoint replaces disjoint
  obtain ⟨single, i, j, isSingle, own, same, counts⟩ :=
    holds.toSingleEditOperation replaces within
  obtain ⟨byMany, changes, many, representsMany⟩ := holds.doApplyEdits replaces sorted within
  have ordered := own.located.ordered
  have inside := (validAt_iff.mp own.located.stop).1
  have replacesOne : ∀ op ∈ [single], ∃ i j, Replaces b.getEOL text op i j := by
    intro op member
    rw [mem_singleton.mp member]
    exact ⟨i, j, own⟩
  have withinOne : Within text.length 0 ([single].map replacementOf) :=
    within_of_disjoint replacesOne nofun
  obtain ⟨byOne, changes', one, representsOne⟩ :=
    holds.doApplyEdits replacesOne (pairwise_singleton _ _) withinOne
  rw [map_singleton] at representsOne
  have isSplice : patch text 0 [replacementOf single] =
      text.take i ++ (single.text ++ text.drop j) := by
    rw [own.replacementOf, patch_cons]
    rfl
  have length : (text.take i).length = i := by
    rw [length_take]
    omega
  obtain ⟨-, startWhole, isStart⟩ := validAt_iff.mp own.located.start
  have frontNormalized : AllBreaksAre b.getEOL (text.take i) := by
    rw [← take_append_drop i text] at normalized
    exact (allBreaksAre_parts normalized startWhole).1
  have located := located_of_parts (text.drop j) frontNormalized own.normalized
  rw [length] at located
  have inverse := inverseEditRange_positionOf single (textExtent (text.take i)) counts.1 counts.2.1
    counts.2.2
  refine ⟨single, byMany, byOne, changes, changes', isSingle, many, one, ?_, i, j - i,
    inverseEditRange single (getStartPosition single.range).lineNumber
      (getStartPosition single.range).column, own.rangeOffset, ?_, by omega, ?_, rfl, ?_⟩
  · rw [representsOne.getLinesRawContent, representsMany.getLinesRawContent, same]
  · rw [own.rangeLength]
    omega
  · rw [representsOne.getLinesRawContent, isSplice, splice, Nat.add_sub_cancel' ordered,
      append_assoc]
  · rw [representsOne.getLinesRawContent, isSplice, isStart, inverse]
    exact located

/-- A letter in front of a line break, and a line break that goes. -/
theorem toSingleEditOperation_same_sample :
    ∃ (b : PieceTreeTextBuffer) (first second single : ValidatedEditOperation)
      (byMany byOne : PieceTreeTextBuffer) (changes changes' : List ContentChange),
      b.pieceTree.getLinesRawContent = [97, CR, LF, 98] ∧
        b.toSingleEditOperation first [second] = some single ∧
        b.doApplyEdits [first, second] = some (byMany, changes) ∧
        b.doApplyEdits [single] = some (byOne, changes') ∧
        byOne.pieceTree.getLinesRawContent = byMany.pieceTree.getLinesRawContent := by
  obtain ⟨s, created, represents, isEOL⟩ := create_represents 0 initialChunks_sample
  have isText : s.getLinesRawContent = [97, CR, LF, 98] := represents.getLinesRawContent
  have before : Located [97, CR, LF, 98] ⟨1, 2, 1, 2⟩ 1 1 :=
    ⟨validAt_iff.mpr (by decide), validAt_iff.mpr (by decide), le_rfl⟩
  have across : Located [97, CR, LF, 98] ⟨1, 2, 2, 1⟩ 1 3 :=
    ⟨validAt_iff.mpr (by decide), validAt_iff.mpr (by decide), by decide⟩
  obtain ⟨single, byMany, byOne, changes, changes', isSingle, many, one, same, -⟩ :=
    toSingleEditOperation_same ⟨s, [], false, false, false⟩ (.create initialChunks_sample created)
      (by
        change AllBreaksAre s.eol s.getLinesRawContent
        rw [isText, isEOL]
        decide)
      (PieceTreeTextBuffer.validate ⟨s, [], false, false, false⟩ 0
        ⟨none, ⟨1, 2, 1, 2⟩, some [98], false, false, false⟩)
      [PieceTreeTextBuffer.validate ⟨s, [], false, false, false⟩ 1
        ⟨none, ⟨1, 2, 2, 1⟩, none, false, false, false⟩]
      (by
        change ∀ op ∈ _, IsValidated _ s.getLinesRawContent op
        rw [isText, forall_mem_cons, forall_mem_singleton]
        exact ⟨⟨_, _, _, _, rfl, before⟩, ⟨_, _, _, _, rfl, across⟩⟩)
      (by
        refine pairwise_cons.mpr ⟨?_, pairwise_singleton _ _⟩
        intro op member
        rw [mem_singleton.mp member]
        exact show (-1 : Int) < 0 by decide)
      (show some true ≠ none from nofun)
  exact ⟨⟨s, [], false, false, false⟩, _, _, single, byMany, byOne, changes, changes', isText,
    isSingle, many, one, same⟩

end CodeEditor.TextBuffer
