import CodeEditor.Edits.LineEdit
import CodeEditor.Foundation.EolCounter

/-!
# Documents under edits

The lines of a text model, and what replacing a range by a text makes of them. The lines
around the range stay; the lines of the inserted text continue the text in front of the range
and are continued by the text behind it.
-/

namespace CodeEditor.Tokens

open Edits List

/-! ## Documents -/

/-- The lines of a text model. -/
structure IsDocument (lines : List Text) : Prop where
  nonempty : lines ≠ []
  plain : ∀ line ∈ lines, Plain line

/-- The line with the given number. -/
def lineContent (lines : List Text) (lineNumber : Nat) : Text := lines.getD (lineNumber - 1) []

/-- The range lies in the document and does not end before it starts. -/
structure IsValidRange (lines : List Text) (range : Range) : Prop where
  startLine_pos : 1 ≤ range.startLineNumber
  startColumn_pos : 1 ≤ range.startColumn
  startColumn_le : range.startColumn ≤ (lineContent lines range.startLineNumber).length + 1
  lines_ordered : range.startLineNumber ≤ range.endLineNumber
  endLine_le : range.endLineNumber ≤ lines.length
  endColumn_pos : 1 ≤ range.endColumn
  endColumn_le : range.endColumn ≤ (lineContent lines range.endLineNumber).length + 1
  columns_ordered : range.startLineNumber = range.endLineNumber →
    range.startColumn ≤ range.endColumn

instance (lines : List Text) (range : Range) : Decidable (IsValidRange lines range) :=
  decidable_of_iff
    (1 ≤ range.startLineNumber ∧ 1 ≤ range.startColumn ∧
      range.startColumn ≤ (lineContent lines range.startLineNumber).length + 1 ∧
      range.startLineNumber ≤ range.endLineNumber ∧ range.endLineNumber ≤ lines.length ∧
      1 ≤ range.endColumn ∧
      range.endColumn ≤ (lineContent lines range.endLineNumber).length + 1 ∧
      (range.startLineNumber = range.endLineNumber → range.startColumn ≤ range.endColumn))
    ⟨fun ⟨a, b, c, d, e, f, g, h⟩ => ⟨a, b, c, d, e, f, g, h⟩,
      fun ⟨a, b, c, d, e, f, g, h⟩ => ⟨a, b, c, d, e, f, g, h⟩⟩

/-- The text of the first line of a range in front of the range. -/
def textBefore (lines : List Text) (range : Range) : Text :=
  (lineContent lines range.startLineNumber).take (range.startColumn - 1)

/-- The text of the last line of a range behind the range. -/
def textBehind (lines : List Text) (range : Range) : Text :=
  (lineContent lines range.endLineNumber).drop (range.endColumn - 1)

/-- The document with the text of a range replaced. -/
def replaceRange (lines : List Text) (range : Range) (text : Text) : List Text :=
  lines.take (range.startLineNumber - 1) ++
    splitLines (textBefore lines range ++ text ++ textBehind lines range) ++
    lines.drop range.endLineNumber

/-! ## Texts around lines -/

section Around

variable {α : Type}

/-- The lines with a text put in front of the first one. -/
def prependFirst (before : List α) : List (List α) → List (List α)
  | [] => [before]
  | line :: lines => (before ++ line) :: lines

/-- The lines with a text put behind the last one. -/
def appendLast (behind : List α) : List (List α) → List (List α)
  | [] => [behind]
  | [line] => [line ++ behind]
  | line :: next :: lines => line :: appendLast behind (next :: lines)

theorem appendLast_concat (behind : List α) (lines : List (List α)) (last : List α) :
    appendLast behind (lines ++ [last]) = lines ++ [last ++ behind] := by
  induction lines with
  | nil => rfl
  | cons line lines ih =>
    cases lines with
    | nil => rfl
    | cons next lines =>
      rw [cons_append, cons_append, appendLast, ← cons_append, ih]
      rfl

theorem length_prependFirst (before : List α) {lines : List (List α)} (nonempty : lines ≠ []) :
    (prependFirst before lines).length = lines.length := by
  cases lines with
  | nil => exact absurd rfl nonempty
  | cons line lines => rfl

theorem length_appendLast (behind : List α) {lines : List (List α)} (nonempty : lines ≠ []) :
    (appendLast behind lines).length = lines.length := by
  obtain ⟨front, last, rfl⟩ := (eq_nil_or_concat' lines).resolve_left nonempty
  simp [appendLast_concat]

end Around

/-! ## Plain texts around a text -/

theorem plain_take (plain : Plain line) (count : Nat) : Plain (line.take count) :=
  ⟨fun member => plain.1 (mem_of_mem_take member), fun member => plain.2 (mem_of_mem_take member)⟩

theorem plain_drop (plain : Plain line) (count : Nat) : Plain (line.drop count) :=
  ⟨fun member => plain.1 (mem_of_mem_drop member), fun member => plain.2 (mem_of_mem_drop member)⟩

theorem plain_of_mem_splitLines {text line : Text} (member : line ∈ splitLines text) :
    Plain line := by
  induction text using break_induction generalizing line with
  | nil =>
    obtain rfl : line = [] := by simpa [splitLines] using member
    decide
  | crlf rest ih =>
    rw [splitLines_CRLF, mem_cons] at member
    rcases member with rfl | member
    · decide
    · exact ih member
  | cons unit rest whole ih =>
    rw [splitLines_cons whole] at member
    by_cases isBreak : unit = CR ∨ unit = LF
    · rw [if_pos isBreak, mem_cons] at member
      rcases member with rfl | member
      · decide
      · exact ih member
    · rw [if_neg isBreak] at member
      rw [not_or] at isBreak
      cases lines : splitLines rest with
      | nil => exact absurd lines (splitLines_ne_nil rest)
      | cons first more =>
        rw [lines, consHead, mem_cons] at member
        rw [lines] at ih
        rcases member with rfl | member
        · have plain := ih mem_cons_self
          unfold Plain at *
          simp [plain, Ne.symm isBreak.1, Ne.symm isBreak.2]
        · exact ih (mem_cons_of_mem _ member)

theorem splitLines_prepend {before : Text} (plain : Plain before) (text : Text) :
    splitLines (before ++ text) = prependFirst before (splitLines text) := by
  cases lines : splitLines text with
  | nil => exact absurd lines (splitLines_ne_nil text)
  | cons line more =>
    have whole : splitsCRLF before text = false := by
      have notCR : before.getLast? ≠ some CR := by
        intro isCR
        exact plain.1 (mem_of_getLast? isCR)
      simp [splitsCRLF, endsWithCR, notCR]
    have joined := @splitLines_append before text [] more before line whole
      (splitLines_of_plain plain) lines
    rwa [nil_append] at joined

theorem splitLines_append_plain (plain : Plain behind) (text : Text) :
    splitLines (text ++ behind) = appendLast behind (splitLines text) := by
  obtain ⟨front, last, equal⟩ :=
    (eq_nil_or_concat' (splitLines text)).resolve_left (splitLines_ne_nil text)
  have whole : splitsCRLF text behind = false := by
    have notLF : behind.head? ≠ some LF := by
      intro isLF
      exact plain.2 (mem_of_head? isLF)
    simp [splitsCRLF, startsWithLF, notLF]
  rw [splitLines_append whole equal (splitLines_of_plain plain), equal, appendLast_concat]

/-! ## Edited documents -/

variable {lines : List Text} {range : Range}

section

variable (document : IsDocument lines)

include document

theorem IsDocument.plain_lineContent (lineNumber : Nat) : Plain (lineContent lines lineNumber) := by
  unfold lineContent
  rw [getD_eq_getElem?_getD]
  cases isLine : lines[lineNumber - 1]? with
  | none => decide
  | some line => exact document.plain line (mem_of_getElem? isLine)

/-- The lines that replace the lines of a range. -/
theorem splitLines_between (range : Range) (text : Text) :
    splitLines (textBefore lines range ++ text ++ textBehind lines range) =
      appendLast (textBehind lines range)
        (prependFirst (textBefore lines range) (splitLines text)) := by
  have before : Plain (textBefore lines range) := plain_take (document.plain_lineContent _) _
  have behind : Plain (textBehind lines range) := plain_drop (document.plain_lineContent _) _
  rw [splitLines_append_plain behind, splitLines_prepend before]

theorem length_splitLines_between (range : Range) (text : Text) :
    (splitLines (textBefore lines range ++ text ++ textBehind lines range)).length =
      (countEOL text).1 + 1 := by
  have nonempty := splitLines_ne_nil text
  have prepended : prependFirst (textBefore lines range) (splitLines text) ≠ [] := by
    cases splitLines text <;> simp [prependFirst]
  rw [splitLines_between document, length_appendLast _ prepended, length_prependFirst _ nonempty,
    eolCount_add_one]

theorem IsDocument.replaceRange (range : Range) (text : Text) :
    IsDocument (replaceRange lines range text) where
  nonempty := by
    unfold Tokens.replaceRange
    simp [splitLines_ne_nil]
  plain := by
    intro line member
    unfold Tokens.replaceRange at member
    rw [mem_append, mem_append] at member
    rcases member with (member | member) | member
    · exact document.plain line (mem_of_mem_take member)
    · exact plain_of_mem_splitLines member
    · exact document.plain line (mem_of_mem_drop member)

theorem length_replaceRange (valid : IsValidRange lines range) (text : Text) :
    (replaceRange lines range text).length + range.endLineNumber =
      lines.length + (range.startLineNumber + (countEOL text).1) := by
  have startLine := valid.startLine_pos
  have ordered := valid.lines_ordered
  have endLine := valid.endLine_le
  unfold replaceRange
  rw [length_append, length_append, length_splitLines_between document, length_take, length_drop]
  omega

end

/-- The lines in front of a range stay. -/
theorem lineContent_replaceRange_before (valid : IsValidRange lines range) (text : Text)
    {lineNumber : Nat} (positive : 1 ≤ lineNumber) (inFront : lineNumber < range.startLineNumber) :
    lineContent (replaceRange lines range text) lineNumber = lineContent lines lineNumber := by
  have ordered := valid.lines_ordered
  have endLine := valid.endLine_le
  unfold replaceRange lineContent
  rw [append_assoc, getD_eq_getElem?_getD, getElem?_append_left (by simp; omega),
    getElem?_take_of_lt (by omega), getD_eq_getElem?_getD]

/-- The lines behind a range stay, at shifted numbers. -/
theorem lineContent_replaceRange_behind (document : IsDocument lines)
    (valid : IsValidRange lines range) (text : Text) {lineNumber : Nat}
    (isBehind : range.endLineNumber < lineNumber) :
    lineContent (replaceRange lines range text)
        (lineNumber - range.endLineNumber + range.startLineNumber + (countEOL text).1) =
      lineContent lines lineNumber := by
  have startLine := valid.startLine_pos
  have ordered := valid.lines_ordered
  have endLine := valid.endLine_le
  have inserted := length_splitLines_between document range text
  unfold replaceRange lineContent
  have front : (lines.take (range.startLineNumber - 1) ++
      splitLines (textBefore lines range ++ text ++ textBehind lines range)).length =
      range.startLineNumber + (countEOL text).1 := by
    rw [length_append, inserted, length_take]
    omega
  rw [getD_eq_getElem?_getD, getElem?_append_right (by omega), front,
    getElem?_drop, getD_eq_getElem?_getD]
  congr 2
  omega

end CodeEditor.Tokens
