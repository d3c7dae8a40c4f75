import CodeEditor.Edits.LineEdit
import CodeEditor.Edits.Composition

/-!
# Offsets of lines

The transformer of a text that is given by its lines. A line is named by the lines in
front of it, and its offset is the length of these lines with their line feeds.
-/

namespace CodeEditor.Edits

open List Option Nat

/-! ## The tables of the transformer -/

/-- The offsets at which lines start. -/
def lineStarts : (offset : Nat) → List Text → List Nat
  | _, [] => []
  | offset, line :: lines => offset :: lineStarts (offset + line.length + 1) lines

/-- The offsets at which lines end. -/
def lineEnds : (offset : Nat) → List Text → List Nat
  | _, [] => []
  | offset, line :: lines =>
    (offset + line.length) :: lineEnds (offset + line.length + 1) lines

theorem scan_plain (plain : Plain line) (rest : Text) (i : Nat)
    {previous : Option CodeUnit} (notCR : previous ≠ some CR) :
    ∃ last, last ≠ some CR ∧ PositionOffsetTransformer.scan (line ++ rest) i previous =
      PositionOffsetTransformer.scan rest (i + line.length) last := by
  induction line generalizing i previous with
  | nil => exact ⟨previous, notCR, rfl⟩
  | cons unit line ih =>
    obtain ⟨noCR, noLF⟩ := plain
    rw [mem_cons, not_or] at noCR noLF
    obtain ⟨last, isNot, scanned⟩ := @ih ⟨noCR.2, noLF.2⟩ (i + 1) (some unit)
      (by simpa using fun isCR => noCR.1 isCR.symm)
    refine ⟨last, isNot, ?_⟩
    have notLF : unit ≠ LF := Ne.symm noLF.1
    rw [cons_append, PositionOffsetTransformer.scan, scanned]
    simp only [notLF, if_false]
    rw [length_cons, Nat.add_comm line.length, ← Nat.add_assoc]

theorem scan_joinLines {lines : List Text} (nonempty : lines ≠ [])
    (plain : ∀ line ∈ lines, Plain line) (i : Nat) {previous : Option CodeUnit}
    (notCR : previous ≠ some CR) :
    PositionOffsetTransformer.scan (joinLines lines) i previous =
      ((lineStarts i lines).tail, lineEnds i lines) := by
  induction lines generalizing i previous with
  | nil => contradiction
  | cons line lines ih =>
    have own := plain line (by simp)
    cases lines with
    | nil =>
      obtain ⟨last, -, scanned⟩ := scan_plain own [] i notCR
      rw [append_nil] at scanned
      rw [joinLines_singleton, scanned]
      rfl
    | cons next lines =>
      obtain ⟨last, isNot, scanned⟩ := scan_plain own (LF :: joinLines (next :: lines)) i notCR
      have rest := @ih (by simp) (fun other member => plain other (mem_cons_of_mem _ member))
        (i + line.length + 1) (some LF) (by simp)
      rw [joinLines_cons line (by simp), scanned, PositionOffsetTransformer.scan, rest]
      simp only [if_true, isNot, if_false]
      rfl

theorem lineStarts_getElem? (front : List Text) (line : Text) (back : List Text)
    (offset : Nat) : (lineStarts offset (front ++ line :: back))[front.length]? =
      some (offset + (closeLines front).length) := by
  induction front generalizing offset with
  | nil => rfl
  | cons other front ih =>
    rw [cons_append, lineStarts, length_cons, getElem?_cons_succ,
      ih, closeLines_cons, length_append, length_cons]
    congr 1
    omega

theorem lineEnds_getElem? (front : List Text) (line : Text) (back : List Text)
    (offset : Nat) : (lineEnds offset (front ++ line :: back))[front.length]? =
      some (offset + (closeLines front).length + line.length) := by
  induction front generalizing offset with
  | nil => rfl
  | cons other front ih =>
    rw [cons_append, lineEnds, length_cons, getElem?_cons_succ,
      ih, closeLines_cons, length_append, length_cons]
    congr 1
    omega

theorem length_lineStarts (offset : Nat) (lines : List Text) :
    (lineStarts offset lines).length = lines.length := by
  induction lines generalizing offset with
  | nil => rfl
  | cons line lines ih => simp [lineStarts, ih]

/-! ## The transformer -/

/-- A document with its lines. -/
structure Lines where
  lines : List Text
  nonempty : lines ≠ []
  plain : ∀ line ∈ lines, Plain line

namespace Lines

variable {ls : Lines} {front back : List Text} {line : Text}

def text (ls : Lines) : Text := joinLines ls.lines

theorem lineStarts_eq (ls : Lines) :
    (PositionOffsetTransformer.new ls.text).lineStartOffsetByLineIdx = lineStarts 0 ls.lines := by
  have scanned := scan_joinLines ls.nonempty ls.plain 0 (show none ≠ some CR by simp)
  have some := ls.nonempty
  rw [PositionOffsetTransformer.new, text, scanned]
  cases lines : ls.lines with
  | nil => contradiction
  | cons line rest => rfl

theorem lineEnds_eq (ls : Lines) :
    (PositionOffsetTransformer.new ls.text).lineEndOffsetByLineIdx = lineEnds 0 ls.lines := by
  have scanned := scan_joinLines ls.nonempty ls.plain 0 (show none ≠ some CR by simp)
  rw [PositionOffsetTransformer.new, text, scanned]

theorem getOffset_eq (split : ls.lines = front ++ line :: back) (column : Nat) :
    (PositionOffsetTransformer.new ls.text).getOffset ⟨front.length + 1, column + 1⟩ =
      some ((closeLines front).length + column) := by
  have start := lineStarts_getElem? front line back 0
  simp only [PositionOffsetTransformer.getOffset, PositionOffsetTransformer.ofLine, lineStarts_eq,
    split, Nat.succ_ne_zero, if_false, Nat.add_sub_cancel, start, bind_eq_bind,
    bind_some]
  congr 1
  omega

theorem getLineLength_eq (split : ls.lines = front ++ line :: back) :
    (PositionOffsetTransformer.new ls.text).getLineLength (front.length + 1) =
      some line.length := by
  have start := lineStarts_getElem? front line back 0
  have stop := lineEnds_getElem? front line back 0
  simp only [PositionOffsetTransformer.getLineLength, PositionOffsetTransformer.ofLine,
    lineStarts_eq, lineEnds_eq, split, Nat.succ_ne_zero, if_false, Nat.add_sub_cancel, start, stop,
    bind_eq_bind, bind_some]
  congr 1
  omega

theorem length_text (split : ls.lines = front ++ [line]) :
    ls.text.length = (closeLines front).length + line.length := by
  rw [text, split, ← closeLines_append_joinLines front (by simp), joinLines_singleton,
    length_append]

theorem textLength_eq (split : ls.lines = front ++ [line]) :
    (PositionOffsetTransformer.new ls.text).textLength = ⟨front.length, line.length⟩ := by
  have start := lineStarts_getElem? front line [] 0
  have length := length_text split
  have isText : (PositionOffsetTransformer.new ls.text).text = ls.text := rfl
  rw [PositionOffsetTransformer.textLength, isText, lineStarts_eq, length_lineStarts, split,
    length_append, length_singleton, Nat.add_sub_cancel, getD_eq_getElem?_getD,
    start, length]
  simp

/-- Offsets of earlier lines are smaller. -/
theorem any_lineStarts (ls : Lines) {column : Nat} (split : ls.lines = front ++ line :: back)
    (inside : column ≤ line.length) (k : Nat) :
    ((lineStarts 0 ls.lines)[k]?).any
        (fun i : Nat => decide ((i : Int) ≤ ((closeLines front).length + column : Nat))) =
      decide (k ≤ front.length) := by
  by_cases within : k < ls.lines.length
  · obtain ⟨other, isOther⟩ : ∃ other, ls.lines[k]? = some other :=
      ⟨_, List.getElem?_eq_getElem within⟩
    have parts : ls.lines = ls.lines.take k ++ other :: ls.lines.drop (k + 1) := by
      have isGet := List.getElem?_eq_some_iff.mp isOther
      rw [← isGet.2, List.getElem_cons_drop, List.take_append_drop]
    have length : (ls.lines.take k).length = k := by
      rw [List.length_take]
      omega
    have start := lineStarts_getElem? (ls.lines.take k) other (ls.lines.drop (k + 1)) 0
    rw [← parts, length, Nat.zero_add] at start
    rw [start, any_some, decide_eq_decide]
    constructor
    · intro below
      by_contra behind
      -- the line is complete in front of a later line
      have taken : ls.lines.take k = front ++ line :: back.take (k - front.length - 1) := by
        rw [split, List.take_append, List.take_of_length_le (by omega)]
        congr 1
        obtain ⟨m, isM⟩ : ∃ m, k - front.length = m + 1 := ⟨k - front.length - 1, by omega⟩
        rw [isM, List.take_succ_cons, Nat.add_sub_cancel]
      rw [taken, closeLines_append, closeLines_cons, List.length_append, List.length_append,
        List.length_cons] at below
      omega
    · intro upTo
      have taken : ls.lines.take k = front.take k := by
        rw [split, List.take_append_of_le_length upTo]
      rw [taken]
      have sum : (closeLines front).length =
          (closeLines (front.take k)).length + (closeLines (front.drop k)).length := by
        rw [← List.length_append, ← closeLines_append, List.take_append_drop]
      omega
  · have beyond : (lineStarts 0 ls.lines)[k]? = none := by
      rw [List.getElem?_eq_none]
      rw [length_lineStarts]
      omega
    have outside : ¬(k ≤ front.length) := by
      rw [split, List.length_append, List.length_cons] at within
      omega
    rw [beyond, any_none, decide_eq_false outside]

theorem getPosition_eq {column : Nat} (split : ls.lines = front ++ line :: back)
    (inside : column ≤ line.length) :
    (PositionOffsetTransformer.new ls.text).getPosition ((closeLines front).length + column : Nat) =
      some ⟨front.length + 1, column + 1⟩ := by
  have start := lineStarts_getElem? front line back 0
  have search : findLastIdxMonotonous (lineStarts 0 ls.lines)
      (fun i : Nat => decide ((i : Int) ≤ ((closeLines front).length + column : Nat))) =
        front.length := by
    rw [findLastIdxMonotonous, @findIdxBehindLast_eq _ _ _ (front.length + 1)]
    · omega
    · intro k less
      rw [any_lineStarts ls split inside, decide_eq_true_eq]
      omega
    · intro k atLeast
      rw [any_lineStarts ls split inside, decide_eq_false_iff_not]
      omega
    · omega
    · rw [length_lineStarts, split, length_append, length_cons]
      omega
  rw [PositionOffsetTransformer.getPosition, lineStarts_eq]
  simp only [search, PositionOffsetTransformer.ofLine]
  have index : ((front.length : Int) + 1).toNat = front.length + 1 := by omega
  simp only [index, Nat.succ_ne_zero, if_false, Nat.add_sub_cancel, split, start,
    bind_eq_bind, bind_some]
  congr 2
  omega

/-- Every offset lies in a line. -/
theorem exists_line (ls : Lines) {offset : Nat} (inside : offset ≤ ls.text.length) :
    ∃ front line back column, ls.lines = front ++ line :: back ∧ column ≤ line.length ∧
      offset = (closeLines front).length + column := by
  have general : ∀ lines : List Text, lines ≠ [] → ∀ offset ≤ (joinLines lines).length,
      ∃ front line back column, lines = front ++ line :: back ∧ column ≤ line.length ∧
        offset = (closeLines front).length + column := by
    intro lines
    induction lines with
    | nil => intro empty; contradiction
    | cons line lines ih =>
      intro _ offset inside
      by_cases first : offset ≤ line.length
      · exact ⟨[], line, lines, offset, rfl, first, by simp⟩
      · have more : lines ≠ [] := by
          rintro rfl
          rw [joinLines_singleton] at inside
          omega
        rw [joinLines_cons line more, length_append, length_cons] at inside
        obtain ⟨front, other, back, column, rfl, upTo, isOffset⟩ :=
          ih more (offset - line.length - 1) (by omega)
        refine ⟨line :: front, other, back, column, rfl, upTo, ?_⟩
        rw [closeLines_cons, length_append, length_cons]
        omega
  exact general ls.lines ls.nonempty offset inside

end Lines

/-!
## Line edits as edits of the text

A line edit becomes a replacement of text in one of four forms: whole lines without the
last line feed, lines with their line feeds, lines with the line feeds in front of them, or
everything. A form leaves the text in front of a line or behind a line, and the last
form but one cannot start where a form before it stops in front of the same line.
-/

/-- The replacement of a line edit that stands between the lines `front` and `back` and
replaces the lines `old`. -/
def textReplacement (front old back newLines : List Text) : Replacement CodeUnit :=
  if newLines ≠ [] ∧ old ≠ [] then
    ⟨(closeLines front).length, (closeLines front).length + (joinLines old).length,
      joinLines newLines⟩
  else if back ≠ [] then
    ⟨(closeLines front).length, (closeLines (front ++ old)).length, closeLines newLines⟩
  else if front ≠ [] then
    ⟨(joinLines front).length, (joinLines (front ++ old)).length, openLines newLines⟩
  else ⟨0, (joinLines old).length, []⟩

namespace Lines

variable {ls : Lines} {front old back newLines : List Text}

/-- A position at the start of a line. -/
theorem getOffset_lineStart (split : ls.lines = front ++ back) (inside : back ≠ []) :
    (PositionOffsetTransformer.new ls.text).getOffset ⟨front.length + 1, 1⟩ =
      some (closeLines front).length := by
  cases back with
  | nil => contradiction
  | cons line back => exact getOffset_eq split 0

/-- A position at the end of a line. -/
theorem getOffset_lineEnd (split : ls.lines = front ++ back) (nonempty : front ≠ []) :
    ∃ length, (PositionOffsetTransformer.new ls.text).getLineLength front.length = some length ∧
      (PositionOffsetTransformer.new ls.text).getOffset ⟨front.length, length + 1⟩ =
        some (joinLines front).length := by
  cases front using List.reverseRecOn with
  | nil => contradiction
  | append_singleton front line =>
    rw [append_assoc, singleton_append] at split
    have length := getLineLength_eq split
    have offset := getOffset_eq split line.length
    refine ⟨line.length, ?_, ?_⟩
    · simpa using length
    · rw [← closeLines_append_joinLines front (by simp), joinLines_singleton,
        length_append, length_append]
      exact offset

theorem lineCount_eq (ls : Lines) :
    (PositionOffsetTransformer.new ls.text).textLength.lineCount + 1 = ls.lines.length := by
  have nonempty := ls.nonempty
  cases lines : ls.lines using List.reverseRecOn with
  | nil => contradiction
  | append_singleton front line => simp [textLength_eq lines]

/-- The position behind the text. -/
theorem exists_last (ls : Lines) :
    ∃ length, (PositionOffsetTransformer.new ls.text).textLength.addToPosition ⟨1, 1⟩ =
        ⟨ls.lines.length, length + 1⟩ ∧
      (PositionOffsetTransformer.new ls.text).getLineLength ls.lines.length = some length ∧
      (PositionOffsetTransformer.new ls.text).getOffset ⟨ls.lines.length, length + 1⟩ =
        some ls.text.length := by
  have nonempty := ls.nonempty
  cases lines : ls.lines using List.reverseRecOn with
  | nil => contradiction
  | append_singleton front line =>
    have count : (front ++ [line]).length = front.length + 1 := by simp
    refine ⟨line.length, ?_, ?_, ?_⟩
    · rw [textLength_eq lines, TextLength.addToPosition, count]
      split
      · rename_i first
        have empty : front.length = 0 := first
        rw [empty, Nat.add_comm 1 line.length]
      · rw [Nat.add_comm 1 front.length]
    · rw [count, getLineLength_eq lines]
    · rw [count, getOffset_eq lines line.length, length_text lines]

end Lines

theorem Range.new_eq {startLineNumber startColumn endLineNumber endColumn : Nat}
    (ordered : startLineNumber < endLineNumber ∨
      startLineNumber = endLineNumber ∧ startColumn ≤ endColumn) :
    Range.new startLineNumber startColumn endLineNumber endColumn =
      ⟨startLineNumber, startColumn, endLineNumber, endColumn⟩ := by
  rw [Range.new, if_neg]
  omega

theorem getOffsetRange_eq {t : PositionOffsetTransformer} {range : Range}
    {first last : Nat} (isFirst : t.getOffset range.getStartPosition = some first)
    (isLast : t.getOffset range.getEndPosition = some last) (ordered : first ≤ last) :
    ∃ offsets, t.getOffsetRange range = some offsets ∧ offsets.start = first ∧
      offsets.endExclusive = last := by
  obtain ⟨offsets, isRange, start, stop⟩ := @OffsetRange.exists_new first last (by omega)
  refine ⟨offsets, ?_, start, stop⟩
  simp only [PositionOffsetTransformer.getOffsetRange, isFirst, isLast, bind_eq_bind, bind_some]
  exact isRange

namespace SingleLineEdit

variable {ls : Lines} {front old back : List Text} {e : SingleLineEdit}

/-- The edit replaces the lines `old` behind the lines `front`. -/
structure Covers (e : SingleLineEdit) (front old : List Text) : Prop where
  start : e.lineRange.startLineNumber = front.length + 1
  stop : e.lineRange.endLineNumberExclusive = front.length + old.length + 1

theorem toSingleEdit_of {range : Range} {text : Text}
    (isEdit : e.toSingleTextEdit ls.text = some ⟨range, text⟩)
    (isFirst : (PositionOffsetTransformer.new ls.text).getOffset range.getStartPosition =
      some first)
    (isLast : (PositionOffsetTransformer.new ls.text).getOffset range.getEndPosition = some last)
    (ordered : first ≤ last) :
    ∃ edit, e.toSingleEdit ls.text = some edit ∧ edit.replacement = ⟨first, last, text⟩ := by
  obtain ⟨offsets, isRange, start, stop⟩ := getOffsetRange_eq isFirst isLast ordered
  refine ⟨⟨offsets, text⟩, ?_, ?_⟩
  · simp only [toSingleEdit, isEdit, isRange, bind_eq_bind, bind_some]
  · rw [SingleOffsetEdit.replacement, start, stop]

/-- Lines are replaced by lines. -/
theorem toSingleEdit_replace (covers : e.Covers front old)
    (split : ls.lines = front ++ (old ++ back)) (new : e.newLines ≠ []) (replaced : old ≠ []) :
    ∃ edit, e.toSingleEdit ls.text = some edit ∧
      edit.replacement = textReplacement front old back e.newLines := by
  have isFirst := Lines.getOffset_lineStart split (by simp [replaced])
  obtain ⟨length, isLength, isLast⟩ := @Lines.getOffset_lineEnd ls (front ++ old) back
    (by rw [split, append_assoc]) (by simp [replaced])
  have positive := length_pos_of_ne_nil replaced
  have total : (front ++ old).length = front.length + old.length := length_append
  have notNew : ¬(e.newLines.length = 0) := by simpa using new
  have notEmpty : ¬(e.lineRange.isEmpty = true) := by
    rw [LineRange.isEmpty, decide_eq_true_eq, covers.start, covers.stop]
    omega
  have stopLine : e.lineRange.endLineNumberExclusive - 1 = (front ++ old).length := by
    rw [covers.stop, total]
    omega
  have joined : (joinLines (front ++ old)).length =
      (closeLines front).length + (joinLines old).length := by
    rw [← closeLines_append_joinLines front replaced, length_append]
  have isEdit : e.toSingleTextEdit ls.text =
      some ⟨⟨front.length + 1, 1, (front ++ old).length, length + 1⟩, joinLines e.newLines⟩ := by
    rw [toSingleTextEdit]
    simp only [notNew, notEmpty, if_false, stopLine, isLength, bind_eq_bind,
      bind_some, Bool.false_eq_true]
    rw [covers.start, Range.new_eq (by omega)]
  obtain ⟨edit, isSome, replacement⟩ := toSingleEdit_of isEdit isFirst isLast (by omega)
  refine ⟨edit, isSome, ?_⟩
  rw [replacement, textReplacement, if_pos ⟨new, replaced⟩, joined]
  simp

/-- Lines are inserted or deleted in front of another line. -/
theorem toSingleEdit_inside (covers : e.Covers front old)
    (split : ls.lines = front ++ (old ++ back)) (one : e.newLines = [] ∨ old = [])
    (inside : back ≠ []) :
    ∃ edit, e.toSingleEdit ls.text = some edit ∧
      edit.replacement = textReplacement front old back e.newLines := by
  have isFirst := Lines.getOffset_lineStart split (by simp [inside])
  have isLast := @Lines.getOffset_lineStart ls (front ++ old) back
    (by rw [split, append_assoc]) inside
  have positive := length_pos_of_ne_nil inside
  have count := ls.lineCount_eq
  rw [split, length_append, length_append] at count
  have total : (front ++ old).length = front.length + old.length := length_append
  have form : textReplacement front old back e.newLines =
      ⟨(closeLines front).length, (closeLines (front ++ old)).length, closeLines e.newLines⟩ := by
    rw [textReplacement, if_neg (by tauto), if_pos inside]
  have isEdit : e.toSingleTextEdit ls.text =
      some ⟨⟨front.length + 1, 1, (front ++ old).length + 1, 1⟩, closeLines e.newLines⟩ := by
    rw [toSingleTextEdit]
    by_cases empty : e.newLines = []
    · have notLast : ¬(e.lineRange.endLineNumberExclusive =
          (PositionOffsetTransformer.new ls.text).textLength.lineCount + 2) := by
        rw [covers.stop]
        omega
      simp only [empty, length_nil, if_true, notLast, if_false, closeLines_nil]
      rw [covers.start, covers.stop, Range.new_eq (by omega), total]
    · have none : old = [] := one.resolve_left empty
      subst none
      have isEmpty : e.lineRange.isEmpty = true := by
        rw [LineRange.isEmpty, decide_eq_true_eq, covers.start, covers.stop]
        rfl
      have notLast : ¬(e.lineRange.startLineNumber =
          (PositionOffsetTransformer.new ls.text).textLength.lineCount + 2) := by
        rw [covers.start]
        omega
      have notNew : ¬(e.newLines.length = 0) := by simpa using empty
      simp only [notNew, isEmpty, notLast, if_true, if_false]
      rw [covers.start, Range.fromPositions, Range.new_eq (by simp), append_nil]
      rfl
  have more : (closeLines front).length ≤ (closeLines (front ++ old)).length := by
    rw [closeLines_append, length_append]
    omega
  obtain ⟨edit, isSome, replacement⟩ := toSingleEdit_of isEdit isFirst isLast more
  exact ⟨edit, isSome, by rw [replacement, form]⟩

/-- Lines are inserted or deleted behind all other lines, or everything is deleted. -/
theorem toSingleEdit_last (covers : e.Covers front old)
    (split : ls.lines = front ++ old) (one : e.newLines = [] ∨ old = []) :
    ∃ edit, e.toSingleEdit ls.text = some edit ∧
      edit.replacement = textReplacement front old [] e.newLines := by
  obtain ⟨lastLength, isStop, isLastLength, isLast⟩ := ls.exists_last
  have count := ls.lineCount_eq
  have total : ls.lines.length = front.length + old.length := by
    rw [split, length_append]
  have text : ls.text.length = (joinLines (front ++ old)).length := by
    rw [Lines.text, split]
  have notWide : ¬(e.newLines ≠ [] ∧ old ≠ []) := by tauto
  by_cases first : front = []
  · subst first
    have empty : e.newLines = [] := by
      apply one.resolve_right
      rintro rfl
      exact ls.nonempty split
    have startLine : e.lineRange.startLineNumber = 1 := covers.start
    have isAll : e.lineRange.endLineNumberExclusive =
        (PositionOffsetTransformer.new ls.text).textLength.lineCount + 2 := by
      rw [covers.stop, length_nil]
      rw [length_nil] at total
      omega
    have isFirst := @Lines.getOffset_lineStart ls [] ls.lines rfl ls.nonempty
    have isEdit : e.toSingleTextEdit ls.text =
        some ⟨⟨1, 1, ls.lines.length, lastLength + 1⟩, []⟩ := by
      rw [toSingleTextEdit]
      simp only [empty, length_nil, if_true, isAll, startLine, gt_iff_lt, lt_irrefl,
        if_false, bind_eq_bind, bind_some, isStop]
      rw [Range.fromPositions, Range.new_eq (by simp only; omega)]
    obtain ⟨edit, isSome, replacement⟩ := toSingleEdit_of isEdit isFirst isLast (zero_le _)
    refine ⟨edit, isSome, ?_⟩
    rw [replacement, textReplacement, if_neg notWide, if_neg (by simp), if_neg (by simp), text]
    rfl
  · have form : textReplacement front old [] e.newLines =
        ⟨(joinLines front).length, (joinLines (front ++ old)).length, openLines e.newLines⟩ := by
      rw [textReplacement, if_neg notWide, if_neg (by simp), if_pos first]
    have positive := length_pos_of_ne_nil first
    have more : (joinLines front).length ≤ (joinLines (front ++ old)).length := by
      rw [← joinLines_append_openLines first, length_append]
      omega
    obtain ⟨length, isLength, isFirst⟩ := Lines.getOffset_lineEnd split first
    by_cases empty : e.newLines = []
    · have isAll : e.lineRange.endLineNumberExclusive =
          (PositionOffsetTransformer.new ls.text).textLength.lineCount + 2 := by
        rw [covers.stop]
        omega
      have notFirst : e.lineRange.startLineNumber > 1 := by
        rw [covers.start]
        omega
      have before : e.lineRange.startLineNumber - 1 = front.length := by
        rw [covers.start]
        omega
      have ordered : front.length < ls.lines.length ∨
          front.length = ls.lines.length ∧ length + 1 ≤ lastLength + 1 := by
        by_cases none : old.length = 0
        · have same : ls.lines.length = front.length := by omega
          rw [same, isLength] at isLastLength
          have sameLength := Option.some.inj isLastLength
          omega
        · omega
      have isEdit : e.toSingleTextEdit ls.text =
          some ⟨⟨front.length, length + 1, ls.lines.length, lastLength + 1⟩, []⟩ := by
        rw [toSingleTextEdit]
        simp only [empty, length_nil, if_true, isAll, notFirst, before, isLength,
          bind_eq_bind, bind_some, isStop]
        rw [Range.fromPositions, Range.new_eq ordered]
      obtain ⟨edit, isSome, replacement⟩ := toSingleEdit_of isEdit isFirst isLast (by
        rw [text]
        exact more)
      refine ⟨edit, isSome, ?_⟩
      rw [replacement, form, text, empty]
      rfl
    · have none : old = [] := one.resolve_left empty
      subst none
      have isEmpty : e.lineRange.isEmpty = true := by
        rw [LineRange.isEmpty, decide_eq_true_eq, covers.start, covers.stop]
        rfl
      have isBehind : e.lineRange.startLineNumber =
          (PositionOffsetTransformer.new ls.text).textLength.lineCount + 2 := by
        rw [covers.start]
        simp only [length_nil] at total
        omega
      have notNew : ¬(e.newLines.length = 0) := by simpa using empty
      have before : (PositionOffsetTransformer.new ls.text).textLength.lineCount + 2 - 1 =
          front.length := by
        simp only [length_nil] at total
        omega
      have isEdit : e.toSingleTextEdit ls.text =
          some ⟨⟨front.length, length + 1, front.length, length + 1⟩, openLines e.newLines⟩ := by
        rw [toSingleTextEdit]
        simp only [notNew, isEmpty, isBehind, before, isLength, if_true, if_false,
          bind_eq_bind, bind_some]
        rw [Range.fromPositions, Range.new_eq (by simp)]
        rfl
      obtain ⟨edit, isSome, replacement⟩ := toSingleEdit_of isEdit isFirst isFirst (le_refl _)
      refine ⟨edit, isSome, ?_⟩
      rw [replacement, form, append_nil]

end SingleLineEdit

end CodeEditor.Edits
