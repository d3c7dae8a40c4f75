import CodeEditor.Foundation.LineTable

/-!
# Counting line breaks

Model of `countEOL` in `eolCounter.ts`, and what it counts in terms of the lines of the text.
-/

namespace CodeEditor

open List

/-- The kinds of line breaks that a text has: none, `\n`, `\r\n`, or others as well. -/
inductive StringEOL
  | unknown
  | lf
  | crlf
  | invalid
  deriving DecidableEq

/-- The bitwise or of the numbers 0, 1, 2 and 3. -/
def StringEOL.or : StringEOL → StringEOL → StringEOL
  | .unknown, eol => eol
  | eol, .unknown => eol
  | .lf, .lf => .lf
  | .crlf, .crlf => .crlf
  | _, _ => .invalid

/-- The variables of `countEOL`. -/
structure EOLCount where
  eolCount : Nat
  firstLineLength : Nat
  lastLineStart : Nat
  eol : StringEOL
  deriving DecidableEq

/-- A line break that starts at `i` and ends at `next`. -/
def EOLCount.add (c : EOLCount) (i next : Nat) (eol : StringEOL) : EOLCount :=
  ⟨c.eolCount + 1, if c.eolCount = 0 then i else c.firstLineLength, next, c.eol.or eol⟩

/-- The loop of `countEOL`. -/
def countEOLLoop : (i : Nat) → (text : Text) → EOLCount → EOLCount
  | _, [], c => c
  | i, [chr], c =>
    if chr = CR then c.add i (i + 1) .invalid
    else if chr = LF then c.add i (i + 1) .lf
    else c
  | i, chr :: following :: rest, c =>
    if chr = CR then
      if following = LF then countEOLLoop (i + 2) rest (c.add i (i + 2) .crlf)
      else countEOLLoop (i + 1) (following :: rest) (c.add i (i + 1) .invalid)
    else if chr = LF then countEOLLoop (i + 1) (following :: rest) (c.add i (i + 1) .lf)
    else countEOLLoop (i + 1) (following :: rest) c

/-- `countEOL`: the number of line breaks, the lengths of the first and of the last line,
and the kind of the line breaks. -/
def countEOL (text : Text) : Nat × Nat × Nat × StringEOL :=
  let c := countEOLLoop 0 text ⟨0, 0, 0, .unknown⟩
  (c.eolCount, if c.eolCount = 0 then text.length else c.firstLineLength,
    text.length - c.lastLineStart, c.eol)

theorem countEOLLoop_CRLF (i : Nat) (rest : Text) (c : EOLCount) :
    countEOLLoop i (CR :: LF :: rest) c = countEOLLoop (i + 2) rest (c.add i (i + 2) .crlf) := by
  simp [countEOLLoop]

theorem countEOLLoop_cons {unit : CodeUnit} {rest : Text}
    (whole : ¬(unit = CR ∧ startsWithLF rest = true)) (i : Nat) (c : EOLCount) :
    countEOLLoop i (unit :: rest) c =
      if unit = CR ∨ unit = LF then
        countEOLLoop (i + 1) rest (c.add i (i + 1) (if unit = CR then .invalid else .lf))
      else countEOLLoop (i + 1) rest c := by
  cases rest with
  | nil =>
    by_cases isCR : unit = CR
    · simp [countEOLLoop, isCR]
    · by_cases isLF : unit = LF <;> simp [countEOLLoop, isCR, isLF]
  | cons following rest =>
    by_cases isCR : unit = CR
    · have notLF : following ≠ LF := by
        intro isLF
        exact whole ⟨isCR, by simp [startsWithLF, isLF]⟩
      simp [countEOLLoop, isCR, notLF]
    · by_cases isLF : unit = LF <;> simp [countEOLLoop, isCR, isLF]

theorem eolCount_countEOLLoop (text : Text) (i : Nat) (c : EOLCount) :
    (countEOLLoop i text c).eolCount = c.eolCount + (lineBreaks text).length := by
  induction text using break_induction generalizing i c with
  | nil => rfl
  | crlf rest ih =>
    rw [countEOLLoop_CRLF, ih, lineBreaks_CRLF, length_cons]
    simp only [EOLCount.add]
    omega
  | cons unit rest whole ih =>
    rw [countEOLLoop_cons whole, lineBreaks_cons whole]
    by_cases isBreak : unit = CR ∨ unit = LF
    · rw [if_pos isBreak, if_pos isBreak, ih, length_append, length_singleton]
      simp only [EOLCount.add]
      omega
    · rw [if_neg isBreak, if_neg isBreak, ih, nil_append]

/-- One line more than line breaks. -/
theorem eolCount_add_one (text : Text) : (countEOL text).1 + 1 = (splitLines text).length := by
  rw [countEOL, eolCount_countEOLLoop, length_splitLines, length_lineBreaks]
  simp

theorem firstLineLength_countEOLLoop (text : Text) (i : Nat) (c : EOLCount) :
    (countEOLLoop i text c).firstLineLength =
      if c.eolCount = 0 ∧ lineBreaks text ≠ [] then i + ((splitLines text).headD []).length
      else c.firstLineLength := by
  induction text using break_induction generalizing i c with
  | nil => simp [countEOLLoop, lineBreaks]
  | crlf rest ih =>
    rw [countEOLLoop_CRLF, ih, lineBreaks_CRLF, splitLines_CRLF]
    by_cases first : c.eolCount = 0 <;> simp [EOLCount.add, first]
  | cons unit rest whole ih =>
    rw [countEOLLoop_cons whole, lineBreaks_cons whole, splitLines_cons whole]
    by_cases isBreak : unit = CR ∨ unit = LF
    · rw [if_pos isBreak, if_pos isBreak, if_pos isBreak, ih]
      by_cases first : c.eolCount = 0 <;> simp [EOLCount.add, first]
    · rw [if_neg isBreak, if_neg isBreak, if_neg isBreak, ih, nil_append]
      congr 1
      cases lines : splitLines rest with
      | nil => exact absurd lines (splitLines_ne_nil rest)
      | cons line lines =>
        simp only [headD_cons, consHead, length_cons]
        omega

theorem splitLines_of_lineBreaks_eq_nil {text : Text} (none : lineBreaks text = []) :
    splitLines text = [text] := by
  induction text using break_induction with
  | nil => rfl
  | crlf rest => simp [lineBreaks_CRLF] at none
  | cons unit rest whole ih =>
    rw [lineBreaks_cons whole] at none
    rw [splitLines_cons whole]
    by_cases isBreak : unit = CR ∨ unit = LF
    · simp [isBreak] at none
    · rw [if_neg isBreak, nil_append] at none
      rw [if_neg isBreak, ih none]
      rfl

/-- The first line ends at the first line break. -/
theorem firstLineLength_countEOL (text : Text) :
    (countEOL text).2.1 = ((splitLines text).headD []).length := by
  have count := eolCount_countEOLLoop text 0 ⟨0, 0, 0, .unknown⟩
  simp only [countEOL]
  by_cases single : lineBreaks text = []
  · rw [single, length_nil] at count
    rw [if_pos count, splitLines_of_lineBreaks_eq_nil single, headD_cons]
  · have positive : (lineBreaks text).length ≠ 0 := by simpa using single
    rw [if_neg (by omega), firstLineLength_countEOLLoop, if_pos ⟨rfl, single⟩, Nat.zero_add]

/-! ## Kinds of line breaks -/

/-- The line breaks of a kind. -/
def StringEOL.Allows : StringEOL → Text → Prop
  | .unknown, _ => False
  | .lf, lineBreak => lineBreak = [LF]
  | .crlf, lineBreak => lineBreak = [CR, LF]
  | .invalid, _ => True

theorem StringEOL.allows_or_left {first : StringEOL}
    (allows : first.Allows lineBreak) (second : StringEOL) :
    (first.or second).Allows lineBreak := by
  cases first with
  | unknown => exact allows.elim
  | lf | crlf => cases second <;> first | exact allows | exact trivial
  | invalid => cases second <;> exact trivial

theorem StringEOL.allows_or_right (first : StringEOL) {second : StringEOL}
    (allows : second.Allows lineBreak) : (first.or second).Allows lineBreak := by
  cases first with
  | unknown => exact allows
  | lf | crlf => cases second <;> first | exact allows | exact trivial | exact allows.elim
  | invalid => cases second <;> exact trivial

/-- The loop ends with a kind that allows what it has seen. -/
theorem allows_countEOLLoop (text : Text) (i : Nat) (c : EOLCount) :
    (∀ lineBreak, c.eol.Allows lineBreak → (countEOLLoop i text c).eol.Allows lineBreak) ∧
      ∀ lineBreak ∈ lineBreaks text, (countEOLLoop i text c).eol.Allows lineBreak := by
  induction text using break_induction generalizing i c with
  | nil =>
    exact ⟨fun lineBreak allows => allows, fun lineBreak member => absurd member not_mem_nil⟩
  | crlf rest ih =>
    obtain ⟨before, later⟩ := ih (i + 2) (c.add i (i + 2) .crlf)
    rw [countEOLLoop_CRLF, lineBreaks_CRLF, forall_mem_cons]
    exact ⟨fun lineBreak allows => before lineBreak (StringEOL.allows_or_left allows _),
      before _ (StringEOL.allows_or_right _ rfl), later⟩
  | cons unit rest whole ih =>
    rw [countEOLLoop_cons whole, lineBreaks_cons whole, forall_mem_append]
    split
    next isBreak =>
      obtain ⟨before, later⟩ := ih (i + 1) (c.add i (i + 1) (if unit = CR then .invalid else .lf))
      refine ⟨fun lineBreak allows => before lineBreak (StringEOL.allows_or_left allows _), ?_,
        later⟩
      intro lineBreak member
      rw [mem_singleton.mp member]
      apply before _ (StringEOL.allows_or_right _ _)
      split
      · exact trivial
      · rw [isBreak.resolve_left (by assumption)]
        rfl
    next plain =>
      obtain ⟨before, later⟩ := ih (i + 1) c
      exact ⟨before, fun lineBreak member => absurd member not_mem_nil, later⟩

end CodeEditor
