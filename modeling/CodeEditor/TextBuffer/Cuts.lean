import CodeEditor.Foundation.Extents
import CodeEditor.PieceTree.Ranges
import CodeEditor.PieceTree.Runs
import CodeEditor.TextBuffer.TextBuffer

/-!
# Positions as cuts of a text

A valid position cuts the text, and not inside of a `\r\n`. Its line and its column say how far
the front reaches, and what follows it is found by adding how far that reaches.
-/

namespace CodeEditor.TextBuffer

open PieceTree List Nat

/-- How far a text reaches: its line breaks, and the length of what follows the last of them. -/
def textExtent (text : Text) : Extent :=
  ⟨breakCount text, text.length - lineStart text text.length⟩

/-- The position that an extent leads to. -/
def positionOf (e : Extent) : Position := ⟨e.lines + 1, e.columns + 1⟩

theorem lineStart_length (text : Text) :
    lineStart text text.length = (breakEnds text).getLastD 0 := rfl

/-- Texts that do not cut a `\r\n` reach as far together as one behind the other. -/
theorem textExtent_append {first second : Text} (whole : splitsCRLF first second = false) :
    textExtent (first ++ second) = textExtent first + textExtent second := by
  have isStart := lineStart_le first first.length
  unfold textExtent
  apply Extent.ext
  · rw [Extent.lines_add, breakCount_append_of_not_splits whole]
  · rw [Extent.columns_add]
    dsimp only
    rw [length_append, ← length_append, lineStart_length,
      breakEnds_append_of_not_splits whole, length_append]
    split
    next none =>
      rw [eq_nil_of_length_eq_zero none, map_nil, append_nil, lineStart_length,
        lineStart_length, eq_nil_of_length_eq_zero none]
      rw [lineStart_length] at isStart
      simp only [getLastD_nil]
      omega
    next some =>
      obtain ⟨initial, last, isLast⟩ := (eq_nil_or_concat' (breakEnds second)).resolve_left
        fun isNil => some (by rw [breakCount, isNil, length_nil])
      rw [lineStart_length second, isLast, map_append, ← append_assoc, map_singleton,
        getLastD_concat, getLastD_concat]
      omega

variable {text : Text}

/-- Where an offset lies in a text, the front of the text reaches. -/
theorem textExtent_take {offset : Nat} (inside : offset ≤ text.length)
    (whole : insideCRLF text offset = false) :
    textExtent (text.take offset) = ⟨lineIndex text offset, offset - lineStart text offset⟩ := by
  have length : (text.take offset).length = offset := by
    rw [length_take]
    omega
  have upTo : offset ≤ (text.take offset).length := by rw [length]
  have index := lineIndex_append_of_le upTo whole
  have start := lineStart_append_of_le upTo whole
  rw [take_append_drop] at index start
  unfold textExtent breakCount breakEnds
  rw [length, index, start]
  rfl

section Lines

variable {text front line back : Text} {k length : Nat}

/-- An offset in a line lies on it. -/
theorem lineIndex_of_lineAt (lineAt : LineAt text k front line back)
    (bounded : length ≤ line.length) :
    lineIndex text (front.length + length) = k ∧
      lineStart text (front.length + length) = front.length := by
  have index : lineIndex text (front.length + length) = k := by
    apply lineIndex_eq_of_bounds lineAt.start (le_add_right _ _)
    intro next isNext
    rcases lineAt.next with ⟨-, isLast⟩ | ⟨lineBreak, rest, -, isBreak, behind⟩
    · have bound := lineStartsOf_isSome isNext
      omega
    · have positive : 0 < lineBreak.length := by
        rcases mem_lineBreaks (mem_of_getElem? isBreak) with rfl | rfl | rfl <;> simp
      rw [behind, Option.some.injEq] at isNext
      omega
  have start := lineStartsOf_getElem?_lineIndex text (front.length + length)
  rw [index, lineAt.start, Option.some.injEq] at start
  exact ⟨index, start.symm⟩

/-- A text that is cut in a line is not cut inside of a `\r\n`. -/
theorem insideCRLF_of_lineAt (lineAt : LineAt text k front line back)
    (bounded : length ≤ line.length) : insideCRLF text (front.length + length) = false := by
  cases length with
  | zero => exact (lineStart_split lineAt.start).2.1
  | succ length =>
    rw [← Bool.not_eq_true]
    intro inside
    have isCR : text[front.length + length]? = some CR := (insideCRLF_iff.mp inside).1
    rw [lineAt.text_eq, append_assoc, getElem?_append_right (Nat.le_add_right _ _),
      Nat.add_sub_cancel_left, getElem?_append_left (by omega)] at isCR
    exact lineAt.plain.1 (mem_of_getElem? isCR)

/-- An offset on a line that is not inside of a `\r\n` lies in the line. -/
theorem le_length_of_lineAt {offset : Nat} (inside : offset ≤ text.length)
    (whole : insideCRLF text offset = false)
    (lineAt : LineAt text (lineIndex text offset) front line back) :
    offset ≤ front.length + line.length := by
  have isText := lineAt.text_eq
  rcases lineAt.next with ⟨isNil, -⟩ | ⟨lineBreak, rest, isBack, isBreak, next⟩
  · rw [isText, isNil, append_nil, length_append] at inside
    exact inside
  · have less := lt_of_lineStartsOf_succ next
    rcases mem_lineBreaks (mem_of_getElem? isBreak) with rfl | rfl | rfl
    · rw [length_singleton] at less
      omega
    · rw [length_singleton] at less
      omega
    · by_contra beyond
      rw [length_cons, length_singleton] at less
      obtain rfl : offset = front.length + line.length + 1 := by omega
      rw [← Bool.not_eq_true, insideCRLF_iff] at whole
      apply whole
      have isRest : text = front ++ line ++ (CR :: LF :: rest) := by rw [isText, isBack]; rfl
      rw [isRest, ← length_append]
      constructor
      · rw [getElem?_append_right (Nat.le_refl _), Nat.sub_self]
        rfl
      · rw [getElem?_append_right (Nat.le_add_right _ 1), Nat.add_sub_cancel_left]
        rfl

end Lines

/-- A valid position is a cut that is not inside of a `\r\n`. -/
theorem validAt_iff : ValidAt text position offset ↔
      offset ≤ text.length ∧ insideCRLF text offset = false ∧
        position = positionOf (textExtent (text.take offset)) := by
  constructor
  · rintro ⟨k, front, line, back, lineAt, isLine, length, bounded, isColumn, rfl⟩
    have isText := lineAt.text_eq
    have total := congrArg List.length isText
    rw [length_append, length_append] at total
    have inside : front.length + length ≤ text.length := by omega
    have whole := insideCRLF_of_lineAt lineAt bounded
    obtain ⟨index, start⟩ := lineIndex_of_lineAt lineAt bounded
    refine ⟨inside, whole, ?_⟩
    rw [textExtent_take inside whole, index, start, positionOf]
    obtain ⟨lineNumber, column⟩ := position
    dsimp only at isLine isColumn
    rw [isLine, isColumn, Nat.add_sub_cancel_left]
  · rintro ⟨inside, whole, rfl⟩
    rw [textExtent_take inside whole]
    have start := lineStartsOf_getElem?_lineIndex text offset
    have below := lineStart_le text offset
    obtain ⟨front, line, back, lineAt⟩ := lineAt_of_lt text (lineIndex_le_breakCount text offset)
    have sameStart := lineAt.start
    rw [start, Option.some.injEq] at sameStart
    have bounded := le_length_of_lineAt inside whole lineAt
    exact ⟨_, front, line, back, lineAt, rfl, offset - lineStart text offset, by omega, rfl,
      by omega⟩

theorem position_of_validAt (valid : ValidAt text position offset) :
    position.lineNumber = lineIndex text offset + 1 ∧
      position.column = (offset : Int) - lineStart text offset + 1 := by
  obtain ⟨inside, whole, rfl⟩ := validAt_iff.mp valid
  have below := lineStart_le text offset
  rw [textExtent_take inside whole, positionOf]
  dsimp only
  omega

/-! ## Texts with one kind of line breaks -/

section Normalized

variable {eol : EOL} {text first second : Text}

/-- Behind such a text no `\r\n` is cut. -/
theorem not_splits_of_allBreaksAre (normalized : AllBreaksAre eol first) (second : Text) :
    splitsCRLF first second = false := by
  rw [splitsCRLF, AllBreaksAre.endsWithCR normalized, Bool.false_and]

theorem allBreaksAre_append (firstNormalized : AllBreaksAre eol first)
    (secondNormalized : AllBreaksAre eol second) : AllBreaksAre eol (first ++ second) :=
  firstNormalized.append secondNormalized (not_splits_of_allBreaksAre firstNormalized second)

/-- The parts of such a text have the same line breaks. -/
theorem allBreaksAre_parts (normalized : AllBreaksAre eol (first ++ second))
    (whole : splitsCRLF first second = false) :
    AllBreaksAre eol first ∧ AllBreaksAre eol second := by
  unfold AllBreaksAre at normalized
  rw [lineBreaks_append whole, forall_mem_append] at normalized
  exact normalized

theorem allBreaksAre_nil (eol : EOL) : AllBreaksAre eol [] := by
  intro lineBreak member
  cases member

end Normalized

/-- Other line breaks reach as far. -/
theorem textExtent_replaceEOL (eol : EOL) (text : Text) :
    textExtent (replaceEOL eol.text text) = textExtent text := by
  have lineBreak : textExtent eol.text = ⟨1, 0⟩ := by cases eol <;> decide
  have whole : ∀ rest, splitsCRLF eol.text rest = false := by
    intro rest
    rw [splitsCRLF, eol.endsWithCR_text, Bool.false_and]
  induction text using break_induction with
  | nil => rfl
  | crlf rest ih =>
    rw [replaceEOL_CRLF, textExtent_append (whole _), ih, lineBreak]
    exact (@textExtent_append [CR, LF] rest rfl).symm
  | cons unit rest here ih =>
    have split : splitsCRLF [unit] rest = false := by
      simpa [splitsCRLF, endsWithCR] using here
    have cut : textExtent (unit :: rest) = textExtent [unit] + textExtent rest :=
      textExtent_append split
    rw [replaceEOL_cons _ here, cut]
    split_ifs with isBreak
    · rw [textExtent_append (whole _), ih, lineBreak]
      obtain rfl | rfl := isBreak <;> rfl
    · rw [singleton_append, ← singleton_append, textExtent_append, ih]
      rw [splitsCRLF, endsWithCR]
      simp only [not_or] at isBreak
      simp [isBreak.1]

/-- The positions of a text are those of the text with other line breaks. -/
theorem validAt_replaceEOL (eol : EOL) (valid : ValidAt text position offset) :
    ∃ offset', ValidAt (replaceEOL eol.text text) position offset' := by
  obtain ⟨inside, whole, rfl⟩ := validAt_iff.mp valid
  have parts := replaceEOL_append eol.text (whole : splitsCRLF _ _ = false)
  rw [take_append_drop] at parts
  refine ⟨(replaceEOL eol.text (text.take offset)).length, validAt_iff.mpr ⟨?_, ?_, ?_⟩⟩
  · rw [parts, length_append]
    omega
  · rw [insideCRLF, parts, take_left, splitsCRLF,
      AllBreaksAre.endsWithCR (allBreaksAre_replaceEOL eol _), Bool.false_and]
  · rw [parts, take_left, textExtent_replaceEOL]

/-! ## Two positions -/

section Two

variable {text : Text} {p q : Position} {i j : Nat}

/-- The text between two cuts reaches from the one to the other. -/
theorem textExtent_between (whole : insideCRLF text i = false) (ordered : i ≤ j) :
    textExtent (text.take j) = textExtent (text.take i) + textExtent ((text.take j).drop i) := by
  have isFront : text.take i = (text.take j).take i := by
    rw [take_take, min_eq_left ordered]
  have notSplit : splitsCRLF (text.take i) ((text.take j).drop i) = false := by
    rw [drop_take]
    apply @splitsCRLF_take_right _ _ []
    rw [append_nil]
    exact whole
  rw [← textExtent_append notSplit, isFront, take_append_drop]

theorem textExtent_ne_zero {first : Text} (nonempty : first ≠ []) : textExtent first ≠ 0 := by
  intro isZero
  have lines : breakCount first = 0 := congrArg Extent.lines isZero
  have columns : first.length - lineStart first first.length = 0 := congrArg Extent.columns isZero
  rw [lineStart_length, eq_nil_of_length_eq_zero lines, getLastD_nil] at columns
  exact nonempty (eq_nil_of_length_eq_zero columns)

theorem textExtent_le (whole : insideCRLF text i = false) (ordered : i ≤ j) :
    textExtent (text.take i) ≤ textExtent (text.take j) := by
  rw [textExtent_between whole ordered]
  exact Extent.le_add _ _

theorem textExtent_lt (whole : insideCRLF text i = false) (less : i < j)
    (inside : j ≤ text.length) : textExtent (text.take i) < textExtent (text.take j) := by
  rw [textExtent_between whole less.le]
  apply Extent.lt_add
  apply textExtent_ne_zero
  apply ne_nil_of_length_pos
  rw [length_drop, length_take]
  omega

theorem isBefore_positionOf : isBefore (positionOf a) (positionOf b) = true ↔ a < b := by
  rw [Extent.lt_def]
  unfold isBefore positionOf
  dsimp only
  split_ifs <;> simp <;> omega

/-- The offsets of valid positions are ordered as the positions are. -/
theorem isBefore_iff (first : ValidAt text p i) (second : ValidAt text q j) :
    isBefore p q = true ↔ i < j := by
  obtain ⟨inside, whole, rfl⟩ := validAt_iff.mp first
  obtain ⟨inside', whole', rfl⟩ := validAt_iff.mp second
  rw [isBefore_positionOf]
  constructor
  · intro before
    by_contra notLess
    exact absurd before (not_lt_of_ge (textExtent_le whole' (by omega)))
  · intro less
    exact textExtent_lt whole less inside'

theorem newRange_positionOf {a b : Extent} (ordered : a ≤ b) :
    newRange (positionOf a).lineNumber (positionOf a).column (positionOf b).lineNumber
        (positionOf b).column =
      ⟨(positionOf a).lineNumber, (positionOf a).column, (positionOf b).lineNumber,
        (positionOf b).column⟩ := by
  rw [Extent.le_def] at ordered
  unfold newRange positionOf
  dsimp only
  rw [if_neg (by omega)]

/-- The constructor of a range leaves valid positions in their order. -/
theorem newRange_of_validAt (first : ValidAt text p i) (second : ValidAt text q j)
    (ordered : i ≤ j) :
    newRange p.lineNumber p.column q.lineNumber q.column =
      ⟨p.lineNumber, p.column, q.lineNumber, q.column⟩ := by
  obtain ⟨inside, whole, rfl⟩ := validAt_iff.mp first
  obtain ⟨inside', whole', rfl⟩ := validAt_iff.mp second
  exact newRange_positionOf (textExtent_le whole ordered)

theorem offset_unique_of_validAt (first : ValidAt text p i) (second : ValidAt text p j) :
    i = j := by
  have notBefore := (isBefore_iff first second).mpr
  have notBehind := (isBefore_iff second first).mpr
  have irreflexive : isBefore p p = false := by simp [isBefore]
  rw [irreflexive] at notBefore notBehind
  by_contra different
  rcases lt_or_gt_of_ne different with less | greater
  · cases notBefore less
  · cases notBehind greater

/-- Two positions are in the same order in all texts that have them. -/
theorem le_iff_of_validAt {text text' : Text}
    (first : ValidAt text p i) (second : ValidAt text q j) (first' : ValidAt text' p i')
    (second' : ValidAt text' q j') : i ≤ j ↔ i' ≤ j' := by
  rw [← not_lt, ← not_lt, ← isBefore_iff second first, isBefore_iff second' first']

end Two

/-! ## Counting line breaks -/

/-- The loop counts the line breaks and remembers the end of the last one. -/
theorem countEOLLoop_spec (text : Text) (i : Nat) (c : EOLCount) :
    (countEOLLoop i text c).eolCount = c.eolCount + breakCount text ∧
      (countEOLLoop i text c).lastLineStart =
        ((breakEnds text).map (i + ·)).getLastD c.lastLineStart := by
  induction text using break_induction generalizing i c with
  | nil => exact ⟨rfl, rfl⟩
  | crlf rest ih =>
    obtain ⟨count, last⟩ := ih (i + 2) (c.add i (i + 2) .crlf)
    rw [countEOLLoop_CRLF, breakCount, breakEnds_cons_CRLF, count, last, map_cons,
      getLastD_cons, map_map, length_cons, length_map]
    refine ⟨?_, ?_⟩
    · change c.eolCount + 1 + (breakEnds rest).length = _
      omega
    · simp only [Function.comp_def, add_assoc]
      rfl
  | cons unit rest whole ih =>
    rw [countEOLLoop_cons whole, breakCount, breakEnds_cons whole]
    split
    next isBreak =>
      obtain ⟨count, last⟩ := ih (i + 1) (c.add i (i + 1) (if unit = CR then .invalid else .lf))
      rw [count, last, singleton_append, map_cons, getLastD_cons, map_map, length_cons, length_map]
      refine ⟨?_, ?_⟩
      · change c.eolCount + 1 + (breakEnds rest).length = _
        omega
      · simp only [Function.comp_def, add_assoc]
        rfl
    next plain =>
      obtain ⟨count, last⟩ := ih (i + 1) c
      rw [count, last, nil_append, map_map, length_map]
      refine ⟨rfl, ?_⟩
      simp only [Function.comp_def, add_assoc]

/-- The counts say how far the text reaches. -/
theorem countEOL_spec (text : Text) : (countEOL text).1 = (textExtent text).lines ∧
      ((textExtent text).lines = 0 → (countEOL text).2.1 = (textExtent text).columns) ∧
      (countEOL text).2.2.1 = (textExtent text).columns := by
  obtain ⟨count, last⟩ := countEOLLoop_spec text 0 ⟨0, 0, 0, .unknown⟩
  have isCount : (countEOLLoop 0 text ⟨0, 0, 0, .unknown⟩).eolCount = breakCount text := by
    rw [count]
    exact zero_add _
  have isLast : (countEOLLoop 0 text ⟨0, 0, 0, .unknown⟩).lastLineStart =
      lineStart text text.length := by
    rw [last, lineStart_length]
    simp only [zero_add, map_id']
  unfold countEOL textExtent
  dsimp only
  rw [isCount, isLast]
  refine ⟨rfl, ?_, rfl⟩
  intro none
  rw [if_pos none, lineStart_length, eq_nil_of_length_eq_zero none]
  rfl

/-- The range that an operation leaves behind reaches as far as its text. -/
theorem inverseEditRange_positionOf (op : ValidatedEditOperation) (e : Extent)
    (eolCount : op.eolCount = (textExtent op.text).lines)
    (firstLineLength : (textExtent op.text).lines = 0 →
      op.firstLineLength = (textExtent op.text).columns)
    (lastLineLength : op.lastLineLength = (textExtent op.text).columns) :
    inverseEditRange op (positionOf e).lineNumber (positionOf e).column =
      ⟨(positionOf e).lineNumber, (positionOf e).column,
        (positionOf (e + textExtent op.text)).lineNumber,
        (positionOf (e + textExtent op.text)).column⟩ := by
  have lines : (positionOf (e + textExtent op.text)).lineNumber =
      (positionOf e).lineNumber + (textExtent op.text).lines := by
    unfold positionOf
    dsimp only
    rw [Extent.lines_add]
    omega
  rw [← newRange_positionOf (Extent.le_add e (textExtent op.text)), lines]
  unfold inverseEditRange
  split
  next nonempty =>
    dsimp only
    split
    next single =>
      have none : (textExtent op.text).lines = 0 := by omega
      have columns : (positionOf (e + textExtent op.text)).column =
          (positionOf e).column + (textExtent op.text).columns := by
        unfold positionOf
        dsimp only
        rw [Extent.columns_add_of_eq _ none]
        omega
      rw [firstLineLength none, columns, none, Int.natCast_zero, Int.add_zero]
    next several =>
      have columns : (positionOf (e + textExtent op.text)).column =
          (textExtent op.text).columns + 1 := by
        unfold positionOf
        rw [Extent.columns_add_of_ne _ (by omega)]
      rw [lastLineLength, columns]
      congr 1
      omega
  next isEmpty =>
    have isNil : op.text = [] := eq_nil_of_length_eq_zero (by omega)
    rw [isNil]
    rfl

end CodeEditor.TextBuffer
