import CodeEditor.PieceTree.LineReads

/-!
# Reading all lines

`getLinesContent` walks over the pieces and keeps a `\r` at the end of a piece
in suspense until it has seen the next one.
-/

namespace CodeEditor.PieceTree

open PieceTreeBase List Bool Nat

/-- A text whose breaks are all the same end of line does not end in `\r`. -/
theorem AllBreaksAre.endsWithCR {eol : EOL} {text : Text}
    (all : AllBreaksAre eol text) : endsWithCR text = false := by
  by_contra ends
  obtain ⟨initial, rfl⟩ := endsWithCR_iff.mp (by simpa using ends)
  have member : [CR] ∈ lineBreaks (initial ++ [CR]) := by
    rw [lineBreaks_append (by simp [splitsCRLF])]
    exact mem_append_right _ (by decide)
  have same := all [CR] member
  cases eol <;> revert same <;> decide

theorem splitLines_of_no_break {text : Text} (none : breakCount text = 0) :
    splitLines text = [text] := by
  obtain ⟨front, line, back, lineAt⟩ := lineAt_of_lt text (zero_le _)
  have start := lineAt.start
  have frontEmpty : front = [] := by
    simpa [lineStartsOf] using start.symm
  rcases lineAt.next with ⟨backEmpty, -⟩ | ⟨lineBreak, rest, -, isBreak, -⟩
  · have single : (splitLines text).length = 1 := by
      rw [length_splitLines, none]
    obtain ⟨own, equal⟩ := List.length_eq_one_iff.mp single
    have here := lineAt.here
    have textEq := lineAt.text_eq
    simp_all
  · have count := (List.getElem?_eq_some_iff.mp isBreak).1
    rw [length_lineBreaks, none] at count
    omega

section Piece

variable {s : PieceTreeBase} {p : Piece}

section

variable (pieceOk : PieceOk s.buffers p) (ok : BuffersOk s.buffers)

include pieceOk ok

/-- The line table of the buffer, read from a piece. -/
theorem PieceOk.lineStartAt {j a : Nat}
    (here : (lineStartsOf (contentOf s.buffers p))[j]? = some a) (positive : 0 < j)
    (inside : p.start.line + j ≤ p.stop.line) :
    (s.bufferAt p.bufferIndex).lineStartAt (p.start.line + j) =
      s.offsetInBuffer p.bufferIndex p.start + a := by
  obtain ⟨i, rfl⟩ := Nat.exists_eq_succ_of_ne_zero (Nat.pos_iff_ne_zero.mp positive)
  have value := pieceOk.lineStart_eq ok here
  have later : 0 < a := by
    have first : (lineStartsOf (contentOf s.buffers p))[0]? = some 0 := rfl
    exact lineStartsOf_strictMono first here positive
  have notNegative : ¬((i.succ : Int) - 1 < 0) := by omega
  have index : (((i.succ : Nat) : Int) - 1).toNat = i := by omega
  have notBeyond : ¬(p.start.line + i + 1 > p.stop.line) := by omega
  simp only [PieceTreeBase.getAccumulatedValue, if_neg notNegative, index, if_neg notBeyond]
    at value
  simp only [PieceTreeBase.offsetInBuffer]
  rw [show p.start.line + i.succ = p.start.line + i + 1 by omega]
  omega

/-- How many lines of the buffer a piece spans: one less than its breaks say
when it ends inside a `\r\n` of the buffer. -/
theorem PieceOk.stop_line (nonempty : p.length ≠ 0) : ∃ inside : Bool,
      p.stop.line + (if inside then 1 else 0) = p.start.line + breakCount (contentOf s.buffers p) ∧
      (inside = true → endsWithCR (contentOf s.buffers p) = true) ∧
      (endsWithCR (contentOf s.buffers p) = true → (p.stop.column = 0 ↔ inside = false)) := by
  obtain ⟨front, back, textEq, denotes⟩ := pieceOk.exists_part ok
  have lengthEq := pieceOk.length_content ok
  have notEmpty : contentOf s.buffers p ≠ [] := fun none => nonempty (by
    rw [← lengthEq, none]; rfl)
  have frontLength : (front ++ contentOf s.buffers p).length =
      front.length + p.length := by rw [length_append, lengthEq]
  have insideEq : insideCRLF (bufferText s.buffers p.bufferIndex)
      (front.length + p.length) = splitsCRLF (contentOf s.buffers p) back := by
    rw [insideCRLF, textEq, ← append_assoc, ← frontLength, take_left,
      drop_left, splitsCRLF_append_left _ _ notEmpty]
  refine ⟨splitsCRLF (contentOf s.buffers p) back, ?_, ?_, ?_⟩
  · have count := lineIndex_add_breakCount_substring
      (by omega : front.length < front.length + p.length) denotes.bounded
    rw [insideEq, ← denotes.content ok] at count
    rw [denotes.start, denotes.stop]
    exact count.symm
  · exact fun split => (and_eq_true_iff.mp split).1
  · intro ends
    have lineEnd : breakEndsAt (bufferText s.buffers p.bufferIndex)
        (front.length + p.length) = !splitsCRLF (contentOf s.buffers p) back := by
      have joint := breakEndsAt_append_joint (front ++ contentOf s.buffers p) back
      rw [frontLength, append_assoc, ← textEq, splitsCRLF_append_left _ _ notEmpty] at joint
      rw [joint, ← frontLength, breakEndsAt_length_of_endsWithCR]
      · simp
      · rw [endsWithCR_append_of_ne_nil _ notEmpty, ends]
    rw [denotes.stop, cursorAt_column_eq_zero_iff, lineEnd]
    simp
    omega

theorem PieceOk.substring {a b : Nat} (ordered : a ≤ b) (bounded : b ≤ p.length) :
    CodeEditor.substring (s.bufferAt p.bufferIndex).buffer
        (s.offsetInBuffer p.bufferIndex p.start + a)
        (s.offsetInBuffer p.bufferIndex p.start + b) =
      ((contentOf s.buffers p).take b).drop a := by
  rw [← pieceOk.pieceSubstring ok ordered bounded, PieceTreeBase.pieceSubstring]
  rfl

/-- A line of the piece, read from the buffer without its break. -/
theorem PieceOk.lineWithoutEOL (flag : FlagHolds s (contentOf s.buffers p)) {j a b : Nat}
    (here : (splitLines (contentOf s.buffers p))[j]? = some line)
    (start : (lineStartsOf (contentOf s.buffers p))[j]? = some a)
    (stop : (lineStartsOf (contentOf s.buffers p))[j + 1]? = some b) :
    s.lineWithoutEOL (s.bufferAt p.bufferIndex).buffer (s.offsetInBuffer p.bufferIndex p.start + a)
        (s.offsetInBuffer p.bufferIndex p.start + b) = line ∧
      (s.eolNormalized = true → a + s.eol.text.length ≤ b) := by
  have lengthEq := pieceOk.length_content ok
  obtain ⟨front, back, lineAt⟩ := lineAt_of_getElem? here
  have startEq := lineAt.start
  rw [start, Option.some.injEq] at startEq
  rcases lineAt.next with ⟨-, last⟩ | ⟨lineBreak, rest, rfl, isBreak, next⟩
  · have bound := lineStartsOf_isSome stop
    omega
  · rw [stop, Option.some.injEq] at next
    have textEq := lineAt.text_eq
    have total := congrArg List.length textEq
    simp only [length_append] at total
    have member := mem_of_getElem? isBreak
    have part : ((contentOf s.buffers p).take b).drop a = line ++ lineBreak := by
      rw [textEq, startEq, next, append_assoc, ← append_assoc line,
        ← append_assoc front, take_left' (by simp; omega), drop_left]
    simp only [PieceTreeBase.lineWithoutEOL]
    split
    · rename_i normalized
      have eolEq : lineBreak = s.eol.text := flag normalized lineBreak member
      rw [← eolEq]
      refine ⟨?_, fun _ => by omega⟩
      rw [show s.offsetInBuffer p.bufferIndex p.start + b - lineBreak.length =
        s.offsetInBuffer p.bufferIndex p.start + (b - lineBreak.length) by omega,
        pieceOk.substring ok (by omega) (by omega),
        show b - lineBreak.length = front.length + line.length by omega, textEq,
        startEq, take_left' (by simp), drop_left]
    · rename_i mixed
      refine ⟨?_, fun normalized => absurd normalized mixed⟩
      rw [pieceOk.substring ok (by omega) (by omega), part]
      exact stripEOL_line lineAt.plain (mem_lineBreaks member)

/-- The first line and the inner lines that `linesOfPiece` pushes. -/
theorem PieceOk.innerLines (flag : FlagHolds s (contentOf s.buffers p)) {n : Nat}
    (lines : p.stop.line = p.start.line + (n + 1))
    (enough : n + 1 ≤ breakCount (contentOf s.buffers p)) : (if s.eolNormalized then
        CodeEditor.substring (s.bufferAt p.bufferIndex).buffer
          (s.offsetInBuffer p.bufferIndex p.start)
          (max (s.offsetInBuffer p.bufferIndex p.start)
            ((s.bufferAt p.bufferIndex).lineStartAt (p.start.line + 1) - s.eol.text.length))
      else
        stripEOL (CodeEditor.substring (s.bufferAt p.bufferIndex).buffer
          (s.offsetInBuffer p.bufferIndex p.start)
          ((s.bufferAt p.bufferIndex).lineStartAt (p.start.line + 1)))) ::
      ((List.range n).map fun i =>
        s.lineWithoutEOL (s.bufferAt p.bufferIndex).buffer
          ((s.bufferAt p.bufferIndex).lineStartAt (p.start.line + 1 + i))
          ((s.bufferAt p.bufferIndex).lineStartAt (p.start.line + 1 + i + 1))) =
      (splitLines (contentOf s.buffers p)).take (n + 1) := by
  have line : ∀ j, j ≤ n → ∃ line a b, (splitLines (contentOf s.buffers p))[j]? = some line ∧
      (lineStartsOf (contentOf s.buffers p))[j]? = some a ∧
      (lineStartsOf (contentOf s.buffers p))[j + 1]? = some b := by
    intro j inside
    exact ⟨_, _, _, getElem?_eq_getElem (by rw [length_splitLines]; omega),
      getElem?_eq_getElem (by rw [length_lineStartsOf]; omega),
      getElem?_eq_getElem (by rw [length_lineStartsOf]; omega)⟩
  refine ext_getElem? fun j => ?_
  rcases Nat.lt_or_ge n j with beyond | inside
  · rw [getElem?_eq_none (by simp; omega), getElem?_eq_none (by simp; omega)]
  obtain ⟨text, a, b, here, start, stop⟩ := line j inside
  obtain ⟨value, room⟩ := pieceOk.lineWithoutEOL ok flag here start stop
  have stopAt := pieceOk.lineStartAt ok stop (Nat.succ_pos j) (by omega)
  rw [getElem?_take_of_lt (by omega), here]
  cases j with
  | zero =>
    have zero : a = 0 := by simpa [lineStartsOf] using start.symm
    subst zero
    rw [getElem?_cons_zero, Option.some.injEq, stopAt]
    simp only [PieceTreeBase.lineWithoutEOL, Nat.add_zero] at value
    split
    · rename_i normalized
      have := room normalized
      rw [if_pos normalized] at value
      rw [Nat.max_eq_right (by omega)]
      exact value
    · rename_i mixed
      rwa [if_neg mixed] at value
  | succ i =>
    have startAt := pieceOk.lineStartAt ok start (Nat.succ_pos i) (by omega)
    rw [getElem?_cons_succ, getElem?_map,
      getElem?_range (by omega), Option.map_some, Option.some.injEq,
      show p.start.line + 1 + i = p.start.line + (i + 1) by omega, startAt,
      show p.start.line + (i + 1) + 1 = p.start.line + (i + 1 + 1) by omega, stopAt]
    exact value

/-- The test for a dangling `\r` looks at the last unit of the piece. -/
theorem PieceOk.suspends_iff (nonempty : p.length ≠ 0)
    (flag : FlagHolds s (contentOf s.buffers p)) : (s.eolNormalized = false ∧
        (s.bufferAt p.bufferIndex).buffer[
          s.offsetInBuffer p.bufferIndex p.start + p.length - 1]? = some CR) ↔
      endsWithCR (contentOf s.buffers p) = true := by
  have lengthEq := pieceOk.length_content ok
  have lastUnit : (contentOf s.buffers p).getLast? = (s.bufferAt p.bufferIndex).buffer[
        s.offsetInBuffer p.bufferIndex p.start + p.length - 1]? := by
    rw [getLast?_eq_getElem?, lengthEq, ← pieceOk.substr ok,
      CodeEditor.substr, getElem?_take_of_lt (by omega), getElem?_drop,
      Nat.add_sub_assoc (by omega)]
  rw [← lastUnit]
  constructor
  · rintro ⟨-, last⟩
    simpa [endsWithCR] using last
  · intro ends
    refine ⟨?_, by simpa [endsWithCR] using ends⟩
    by_contra normalized
    rw [AllBreaksAre.endsWithCR (flag (by simpa using normalized))] at ends
    exact absurd ends (by simp)

/-- The last line that `linesOfPiece` reads, up to `rest`. -/
theorem PieceOk.lastLine {n : Nat} {kept rest : Text}
    (ending : contentOf s.buffers p = kept ++ rest) (joint : splitsCRLF kept rest = false)
    (count : breakCount kept = n + 1) (span : p.stop.line = p.start.line + (n + 1)) :
    splitLines kept = (splitLines (contentOf s.buffers p)).take (n + 1) ++
      [CodeEditor.substr (s.bufferAt p.bufferIndex).buffer
        ((s.bufferAt p.bufferIndex).lineStartAt p.stop.line)
        (p.stop.column - rest.length)] := by
  have lengthEq := pieceOk.length_content ok
  have stopOffset := pieceOk.offsetInBuffer_stop ok
  have total : kept.length + rest.length = p.length := by
    rw [← lengthEq, ending, List.length_append]
  obtain ⟨lines, last, keptLines⟩ :=
    (List.eq_nil_or_concat' (splitLines kept)).resolve_left (splitLines_ne_nil kept)
  have size := length_splitLines kept
  rw [keptLines, count, List.length_append, List.length_singleton] at size
  have linesLength : lines.length = n + 1 := by omega
  obtain ⟨next, more, restLines⟩ := List.exists_cons_of_ne_nil (splitLines_ne_nil rest)
  have here : (splitLines kept)[n + 1]? = some last := by
    rw [keptLines, ← linesLength]
    simp
  obtain ⟨front, back, lineAt⟩ := lineAt_of_getElem? here
  have backEmpty : back = [] := by
    rcases lineAt.next with ⟨empty, -⟩ | ⟨lineBreak, -, -, isBreak, -⟩
    · exact empty
    · have bound := (List.getElem?_eq_some_iff.mp isBreak).1
      rw [length_lineBreaks, count] at bound
      omega
  have keptEq := lineAt.text_eq
  rw [backEmpty, List.append_nil] at keptEq
  have start : (lineStartsOf (contentOf s.buffers p))[n + 1]? = some front.length := by
    rw [ending, lineStartsOf_append_left joint (by omega), lineAt.start]
  have startAt := pieceOk.lineStartAt ok start (succ_pos n) (by omega)
  rw [← span] at startAt
  have column : p.stop.column - rest.length = last.length := by
    have sizes := congrArg List.length keptEq
    rw [List.length_append] at sizes
    simp only [PieceTreeBase.offsetInBuffer] at stopOffset startAt
    omega
  have value : CodeEditor.substr (s.bufferAt p.bufferIndex).buffer
      (s.offsetInBuffer p.bufferIndex p.start + front.length) last.length = last := by
    have content := pieceOk.substr ok
    rw [ending, keptEq, List.append_assoc, CodeEditor.substr] at content
    have behind := congrArg (fun text => (text.drop front.length).take last.length) content
    simp only [List.drop_left, List.take_left, List.drop_take, List.drop_drop,
      List.take_take] at behind
    rw [min_eq_left (by
      have sizes := congrArg List.length keptEq
      rw [List.length_append] at sizes
      omega)] at behind
    exact behind
  rw [startAt, column, value, keptLines, ending,
    splitLines_append joint keptLines restLines, List.take_left' linesLength]

/-- What the lines get of a text: all but a last `\r`, which stays in suspense. -/
def Adds (content : Text) (acc acc' : LinesState) : Prop :=
  ∃ kept next more, splitLines kept = next :: more ∧
    acc'.lines ++ [acc'.currentLine] = acc.lines ++ (acc.currentLine ++ next) :: more ∧
    (content = kept ++ [CR] ∧ acc'.danglingCR = true ∨
      content = kept ∧ endsWithCR content = false ∧ acc'.danglingCR = false)

/-- A piece within one line of its buffer. -/
theorem PieceOk.adds_of_sameLine (nonempty : p.length ≠ 0)
    (flag : FlagHolds s (contentOf s.buffers p)) {acc acc' : LinesState}
    (fresh : acc.danglingCR = false) (sameLine : p.start.line = p.stop.line)
    (result : acc' = s.linesOfPiece p (s.offsetInBuffer p.bufferIndex p.start) p.length acc) :
    Adds (contentOf s.buffers p) acc acc' := by
  have lengthEq := pieceOk.length_content ok
  have suspends := pieceOk.suspends_iff ok nonempty flag
  have content := pieceOk.substr ok
  obtain ⟨inside, lines, insideEnds, -⟩ := pieceOk.stop_line ok nonempty
  have initial : ∀ kept, contentOf s.buffers p = kept ++ [CR] →
      CodeEditor.substr (s.bufferAt p.bufferIndex).buffer
        (s.offsetInBuffer p.bufferIndex p.start) (p.length - 1) = kept := by
    intro kept split
    rw [split, length_append, length_singleton] at lengthEq
    rw [split] at content
    have shorter := congrArg (List.take (p.length - 1)) content
    rwa [CodeEditor.substr, take_take, min_eq_left (by omega), take_left' (by omega)] at shorter
  unfold PieceTreeBase.linesOfPiece at result
  rw [if_pos sameLine] at result
  by_cases ends : endsWithCR (contentOf s.buffers p) = true
  · rw [if_pos (suspends.mpr ends)] at result
    obtain ⟨kept, split⟩ := endsWithCR_iff.mp ends
    refine ⟨kept, kept, [], ?_, ?_, .inl ⟨split, by rw [result]⟩⟩
    · refine splitLines_of_no_break ?_
      have count : breakCount (contentOf s.buffers p) ≤ 1 := by
        split at lines <;> omega
      have longer := length_splitLines (contentOf s.buffers p)
      rw [split, splitLines_concat_CR, length_append, length_splitLines, ← split] at longer
      simp only [length_singleton] at longer
      omega
    · rw [result, initial kept split]
  · rw [if_neg (fun both => ends (suspends.mp both))] at result
    have notInside : inside = false := by
      by_contra isInside
      exact ends (insideEnds (by simpa using isInside))
    refine ⟨contentOf s.buffers p, contentOf s.buffers p, [], ?_, ?_,
      .inr ⟨rfl, by simpa using ends, by rw [result]; exact fresh⟩⟩
    · refine splitLines_of_no_break ?_
      rw [notInside] at lines
      simp only [false_eq_true, if_false] at lines
      omega
    · rw [result, content]

/-- A piece over several lines of its buffer. -/
theorem PieceOk.adds_of_lines (nonempty : p.length ≠ 0)
    (flag : FlagHolds s (contentOf s.buffers p)) {acc acc' : LinesState}
    (sameLine : ¬p.start.line = p.stop.line)
    (result : acc' = s.linesOfPiece p (s.offsetInBuffer p.bufferIndex p.start) p.length acc) :
    Adds (contentOf s.buffers p) acc acc' := by
  have suspends := pieceOk.suspends_iff ok nonempty flag
  have stopOffset := pieceOk.offsetInBuffer_stop ok
  obtain ⟨inside, lines, insideEnds, columnZero⟩ := pieceOk.stop_line ok nonempty
  unfold PieceTreeBase.linesOfPiece at result
  rw [if_neg sameLine] at result
  have ordered : p.start.line ≤ p.stop.line := by
    split at lines
    · rename_i isInside
      obtain ⟨kept, ending⟩ := endsWithCR_iff.mp (insideEnds isInside)
      have some : 0 < breakCount (contentOf s.buffers p) :=
        breakCount_pos_of_mem (.inl rfl) (by rw [ending]; simp)
      omega
    · omega
  obtain ⟨n, span⟩ : ∃ n, p.stop.line = p.start.line + (n + 1) :=
    ⟨p.stop.line - p.start.line - 1, by omega⟩
  have enough : n + 1 ≤ breakCount (contentOf s.buffers p) := by omega
  have pushed := pieceOk.innerLines ok flag span enough
  have inner : p.stop.line - (p.start.line + 1) = n := by omega
  simp only [inner] at result
  generalize (if s.eolNormalized = true then _ else _) = first at pushed result
  generalize ((List.range n).map _) = others at pushed result
  rw [show (s.bufferAt p.bufferIndex).lineStartAt p.stop.line + p.stop.column =
    s.offsetInBuffer p.bufferIndex p.start + p.length from stopOffset] at result
  by_cases ends : endsWithCR (contentOf s.buffers p) = true
  · rw [if_pos (suspends.mpr ends)] at result
    obtain ⟨kept, ending⟩ := endsWithCR_iff.mp ends
    have allLines : splitLines (contentOf s.buffers p) = splitLines kept ++ [[]] := by
      rw [ending, splitLines_concat_CR]
    have counts := congrArg List.length allLines
    rw [length_append, length_splitLines, length_splitLines, length_singleton] at counts
    by_cases column : p.stop.column = 0
    · rw [if_pos column] at result
      rw [(columnZero ends).mp column] at lines
      simp only [false_eq_true, if_false] at lines
      rw [allLines, take_left' (by rw [length_splitLines]; omega)] at pushed
      refine ⟨kept, first, others, pushed.symm, ?_, .inl ⟨ending, by rw [result]⟩⟩
      rw [result]
      rw [getLastD_eq_getLast?, getLast?_eq_some_getLast (by simp),
        Option.getD_some, dropLast_append_getLast]
    · rw [if_neg column] at result
      have isInside : inside = true := by
        by_contra notInside
        exact column ((columnZero ends).mpr (by simpa using notInside))
      rw [isInside, if_pos rfl] at lines
      have lastLine := pieceOk.lastLine ok ending (by simp [splitsCRLF]) (by omega) span
      rw [← pushed, cons_append] at lastLine
      refine ⟨kept, first, _, lastLine, ?_, .inl ⟨ending, by rw [result]⟩⟩
      rw [result]
      simp
  · rw [if_neg (fun both => ends (suspends.mp both))] at result
    have notInside : inside = false := by
      by_contra isInside
      exact ends (insideEnds (by simpa using isInside))
    rw [notInside] at lines
    simp only [false_eq_true, if_false] at lines
    have lastLine := pieceOk.lastLine ok (append_nil _).symm
      (by simp [splitsCRLF]) (by omega) span
    rw [← pushed, cons_append] at lastLine
    refine ⟨contentOf s.buffers p, first, _, lastLine, ?_,
      .inr ⟨rfl, by simpa using ends, by rw [result]⟩⟩
    rw [result]
    simp

end

end Piece

/-! ## The walk over the pieces -/

section Walk

variable {s : PieceTreeBase} {es : List Entry} {text : Text}

/-- The lines collected of a text: a `\r` at its end is in suspense. -/
def Collected (text : Text) (acc : LinesState) : Prop :=
  ∃ kept, acc.lines ++ [acc.currentLine] = splitLines kept ∧
    (text = kept ++ [CR] ∧ acc.danglingCR = true ∨
      text = kept ∧ endsWithCR text = false ∧ acc.danglingCR = false)

theorem Collected.linesOfPiece {acc : LinesState}
    (pieceOk : PieceOk s.buffers p) (ok : BuffersOk s.buffers)
    (nonempty : p.length ≠ 0) (flag : FlagHolds s (contentOf s.buffers p))
    (joint : splitsCRLF text (contentOf s.buffers p) = false)
    (lines : acc.lines ++ [acc.currentLine] = splitLines text)
    (fresh : acc.danglingCR = false) :
    Collected (text ++ contentOf s.buffers p)
      (s.linesOfPiece p (s.offsetInBuffer p.bufferIndex p.start) p.length acc) := by
  have notEmpty : contentOf s.buffers p ≠ [] := fun none => nonempty (by
    rw [← pieceOk.length_content ok, none]; rfl)
  obtain ⟨kept, next, more, keptLines, pushed, ending⟩ : Adds (contentOf s.buffers p) acc
      (s.linesOfPiece p (s.offsetInBuffer p.bufferIndex p.start) p.length acc) := by
    by_cases sameLine : p.start.line = p.stop.line
    · exact pieceOk.adds_of_sameLine ok nonempty flag fresh sameLine rfl
    · exact pieceOk.adds_of_lines ok nonempty flag sameLine rfl
  refine ⟨text ++ kept, ?_, ?_⟩
  · have keptJoint : splitsCRLF text kept = false := by
      rcases ending with ⟨split, -⟩ | ⟨split, -⟩
      · by_cases empty : kept = []
        · simp [empty, splitsCRLF]
        · rwa [split, splitsCRLF_append_right _ _ empty] at joint
      · rwa [← split]
    rw [pushed, splitLines_append keptJoint lines.symm keptLines]
  · rcases ending with ⟨split, dangling⟩ | ⟨split, noCR, plain⟩
    · exact .inl ⟨by rw [split, append_assoc], dangling⟩
    · refine .inr ⟨by rw [split], ?_, plain⟩
      rw [endsWithCR_append_of_ne_nil _ notEmpty, noCR]

theorem Collected.linesStep {x : TreeNode} (collected : Collected text acc)
    (pieceOk : PieceOk s.buffers x.piece) (ok : BuffersOk s.buffers)
    (nonempty : x.piece.length ≠ 0)
    (flag : FlagHolds s (contentOf s.buffers x.piece))
    (joint : splitsCRLF text (contentOf s.buffers x.piece) = false) :
    Collected (text ++ contentOf s.buffers x.piece) (s.linesStep acc x) := by
  obtain ⟨kept, lines, ending⟩ := collected
  unfold PieceTreeBase.linesStep
  simp only [if_neg nonempty]
  rcases ending with ⟨split, dangling⟩ | ⟨split, -, plain⟩
  · -- no break is cut between two pieces, so the `\r` was a break of its own
    have noLF : (s.bufferAt x.piece.bufferIndex).buffer[
        s.offsetInBuffer x.piece.bufferIndex x.piece.start]? ≠ some LF := by
      intro first
      have begins : startsWithLF (contentOf s.buffers x.piece) = true := by
        rw [← pieceOk.substr ok, startsWithLF, head?_eq_getElem?,
          CodeEditor.substr, getElem?_take_of_lt (by omega), getElem?_drop]
        simpa using first
      rw [splitsCRLF, begins, split] at joint
      simp [endsWithCR] at joint
    simp only [PieceTreeBase.offsetInBuffer] at noLF
    rw [if_pos dangling, if_neg noLF]
    simp only [Nat.sub_zero, if_neg nonempty, Nat.add_zero]
    refine Collected.linesOfPiece pieceOk ok nonempty flag joint ?_ rfl
    rw [split, splitLines_concat_CR, lines]
  · rw [plain]
    exact Collected.linesOfPiece pieceOk ok nonempty flag joint (by rw [split, lines]) plain

theorem collected_foldl {nodes : List TreeNode} (sound : Sound s.buffers (nodes.map entry))
    (flag : FlagHolds s (textOf s.buffers (nodes.map entry)))
    (joint : splitsCRLF text (textOf s.buffers (nodes.map entry)) = false)
    (collected : Collected text acc) :
    Collected (text ++ textOf s.buffers (nodes.map entry)) (nodes.foldl s.linesStep acc) := by
  induction nodes generalizing text acc with
  | nil => simpa using collected
  | cons x nodes ih =>
    obtain ⟨rest, pieceOk, nonempty, lengthEq, -, restJoint⟩ := sound.cons
    simp only [map_cons, textOf_cons, entry] at flag joint ⊢
    have pieceLength : x.piece.length ≠ 0 := by
      rw [← lengthEq]
      exact fun zero => nonempty (eq_nil_of_length_eq_zero zero)
    have flags : FlagHolds s (contentOf s.buffers x.piece) ∧
        FlagHolds s (textOf s.buffers (nodes.map entry)) := by
      constructor <;> intro normalized lineBreak member <;>
        refine flag normalized lineBreak ?_ <;> rw [lineBreaks_append restJoint]
      · exact mem_append_left _ member
      · exact mem_append_right _ member
    have pieceJoint : splitsCRLF text (contentOf s.buffers x.piece) = false := by
      rwa [splitsCRLF_append_right _ _ nonempty] at joint
    rw [← append_assoc]
    refine ih rest flags.2 ?_ (collected.linesStep pieceOk sound.ok pieceLength flags.1 pieceJoint)
    rwa [splitsCRLF_append_left _ _ nonempty]

/-- Reading all lines agrees with splitting the text. -/
theorem Inv.getLinesContent (inv : Inv s es) (flag : FlagHolds s (textOf s.buffers es)) :
    s.getLinesContent = splitLines (textOf s.buffers es) := by
  have nodes : s.root.inorder.map entry = es := inv.rep.holds.entries_eq
  have sound := inv.sound
  rw [← nodes] at sound flag ⊢
  have start : Collected [] ⟨[], [], false⟩ := ⟨[], rfl, .inr ⟨rfl, rfl, rfl⟩⟩
  obtain ⟨kept, lines, ending⟩ := collected_foldl sound flag
    (by simp [splitsCRLF, endsWithCR]) start
  rw [nil_append] at ending
  unfold PieceTreeBase.getLinesContent
  rcases ending with ⟨split, dangling⟩ | ⟨split, -, plain⟩
  · rw [split, splitLines_concat_CR, ← lines]
    simp [dangling]
  · rw [split, ← lines]
    simp [plain]

end Walk

end CodeEditor.PieceTree
