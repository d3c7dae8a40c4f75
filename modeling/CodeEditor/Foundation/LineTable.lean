import CodeEditor.Foundation.Lines

/-!
# Lines by number

The lines of a text, its line breaks and the table of its line starts describe
the same cut of the text.
-/

namespace CodeEditor

open List Option Nat

/-- Shifting a table of line starts. -/
theorem lineStartsOf_cons_break {unit : CodeUnit} (whole : ¬(unit = CR ∧ startsWithLF rest = true))
    (isBreak : unit = CR ∨ unit = LF) :
    lineStartsOf (unit :: rest) = 0 :: (lineStartsOf rest).map (1 + ·) := by
  rw [lineStartsOf, breakEnds_cons whole, if_pos isBreak]
  rfl

theorem lineStartsOf_cons_plain {unit : CodeUnit} {rest : Text} (plain : ¬(unit = CR ∨ unit = LF)) :
    lineStartsOf (unit :: rest) = 0 :: (breakEnds rest).map (1 + ·) := by
  rw [lineStartsOf, breakEnds_cons (fun both => plain (.inl both.1)), if_neg plain]
  rfl

theorem lineStartsOf_cons_CRLF (rest : Text) :
    lineStartsOf (CR :: LF :: rest) = 0 :: (lineStartsOf rest).map (2 + ·) := by
  rw [lineStartsOf, breakEnds_cons_CRLF]
  rfl

/-- Both ways to count the breaks agree. -/
theorem length_lineBreaks (text : Text) : (lineBreaks text).length = breakCount text := by
  induction text using break_induction with
  | nil => rfl
  | crlf rest ih =>
    simp [lineBreaks_CRLF, breakCount, breakEnds_cons_CRLF, ih]
  | cons unit rest whole ih =>
    rw [lineBreaks_cons whole, breakCount, breakEnds_cons whole]
    simp only [length_append, length_map, ih]
    split <;> rfl

theorem splitLines_ne_nil (text : Text) : splitLines text ≠ [] := by
  induction text using break_induction with
  | nil => simp [splitLines]
  | crlf rest => simp [splitLines_CRLF]
  | cons unit rest whole ih =>
    rw [splitLines_cons whole]
    split
    · simp
    · cases splitLines rest <;> simp [consHead]

theorem length_consHead (unit : CodeUnit) {lines : List Text}
    (nonempty : lines ≠ []) : (consHead unit lines).length = lines.length := by
  cases lines with
  | nil => exact absurd rfl nonempty
  | cons line lines => rfl

theorem length_splitLines (text : Text) : (splitLines text).length = breakCount text + 1 := by
  rw [← length_lineBreaks]
  induction text using break_induction with
  | nil => rfl
  | crlf rest ih =>
    simp [splitLines_CRLF, lineBreaks_CRLF, ih]
  | cons unit rest whole ih =>
    rw [splitLines_cons whole, lineBreaks_cons whole]
    split
    · simp [ih]
    · rw [length_consHead _ (splitLines_ne_nil rest), ih]
      simp

/-- The line number `k`, counted from zero, stands between `front` and `back`. -/
structure LineAt (text : Text) (k : Nat) (front line back : Text) : Prop where
  text_eq : text = front ++ line ++ back
  here : (splitLines text)[k]? = some line
  start : (lineStartsOf text)[k]? = some front.length
  plain : CR ∉ line ∧ LF ∉ line
  next : back = [] ∧ k = breakCount text ∨
    ∃ lineBreak rest, back = lineBreak ++ rest ∧
      (lineBreaks text)[k]? = some lineBreak ∧
      (lineStartsOf text)[k + 1]? =
        some (front.length + line.length + lineBreak.length)

/-- The line in a text that has something more in front. -/
theorem LineAt.shift {text : Text}
    (lineAt : LineAt text k front line back) (before : Text) {lineBreak : Text}
    (lines : splitLines (before ++ text) = [] :: splitLines text)
    (starts : lineStartsOf (before ++ text) = 0 :: (lineStartsOf text).map (before.length + ·))
    (breaks : lineBreaks (before ++ text) = lineBreak :: lineBreaks text) :
    LineAt (before ++ text) (k + 1) (before ++ front) line back := by
  refine ⟨by rw [lineAt.text_eq]; simp, ?_, ?_, lineAt.plain, ?_⟩
  · simpa [lines] using lineAt.here
  · rw [starts, getElem?_cons_succ, getElem?_map, lineAt.start]
    simp
  · rcases lineAt.next with ⟨last, number⟩ | ⟨own, rest, backEq, here, next⟩
    · refine .inl ⟨last, ?_⟩
      rw [← length_lineBreaks, breaks, length_cons, length_lineBreaks, number]
    · refine .inr ⟨own, rest, backEq, ?_, ?_⟩
      · simpa [breaks] using here
      · rw [starts, getElem?_cons_succ, getElem?_map, next]
        simp
        omega

variable {k : Nat}

/-- Every line of a text stands somewhere. -/
theorem lineAt_of_lt (text : Text) (bounded : k ≤ breakCount text) :
    ∃ front line back, LineAt text k front line back := by
  induction text using break_induction generalizing k with
  | nil =>
    have zero : k = 0 := by simpa [breakCount, breakEnds] using bounded
    subst zero
    exact ⟨[], [], [], rfl, rfl, rfl, by simp, .inl ⟨rfl, rfl⟩⟩
  | crlf rest ih =>
    cases k with
    | zero =>
      refine ⟨[], [], CR :: LF :: rest, by simp, by simp [splitLines_CRLF], rfl,
        by simp, .inr ⟨[CR, LF], rest, rfl, by simp [lineBreaks_CRLF], ?_⟩⟩
      rw [lineStartsOf_cons_CRLF]
      simp [lineStartsOf]
    | succ k =>
      have inside : k ≤ breakCount rest := by
        simpa [← length_lineBreaks, lineBreaks_CRLF] using bounded
      obtain ⟨front, line, back, lineAt⟩ := ih inside
      exact ⟨CR :: LF :: front, line, back, lineAt.shift [CR, LF] (splitLines_CRLF rest)
          (lineStartsOf_cons_CRLF rest) (lineBreaks_CRLF rest)⟩
  | cons unit rest whole ih =>
    by_cases isBreak : unit = CR ∨ unit = LF
    · have lines := splitLines_cons whole
      have breaks := lineBreaks_cons whole
      have starts := lineStartsOf_cons_break whole isBreak
      rw [if_pos isBreak] at lines breaks
      cases k with
      | zero =>
        refine ⟨[], [], unit :: rest, by simp, by simp [lines], rfl, by simp,
          .inr ⟨[unit], rest, rfl, by simp [breaks], ?_⟩⟩
        rw [starts]
        simp [lineStartsOf]
      | succ k =>
        have inside : k ≤ breakCount rest := by
          simpa [← length_lineBreaks, breaks] using bounded
        obtain ⟨front, line, back, lineAt⟩ := ih inside
        exact ⟨unit :: front, line, back, lineAt.shift [unit] lines starts breaks⟩
    · have lines := splitLines_cons whole
      have breaks := lineBreaks_cons whole
      have starts := @lineStartsOf_cons_plain unit rest isBreak
      rw [if_neg isBreak] at lines breaks
      rw [nil_append] at breaks
      have sameCount : breakCount (unit :: rest) = breakCount rest := by
        rw [← length_lineBreaks, breaks, length_lineBreaks]
      obtain ⟨front, line, back, lineAt⟩ := ih (by omega : k ≤ breakCount rest)
      obtain ⟨first, more, restLines⟩ :=
        exists_cons_of_ne_nil (splitLines_ne_nil rest)
      have here := lineAt.here
      have start := lineAt.start
      rw [not_or] at isBreak
      have next : ∀ position, (lineStartsOf rest)[k + 1]? = some position →
          (lineStartsOf (unit :: rest))[k + 1]? = some (1 + position) := by
        intro position found
        rw [starts, getElem?_cons_succ, getElem?_map]
        rw [lineStartsOf, getElem?_cons_succ] at found
        rw [found]
        rfl
      cases k with
      | zero =>
        obtain rfl : front = [] := by
          simpa [lineStartsOf] using start.symm
        refine ⟨[], unit :: line, back, by simp [lineAt.text_eq], ?_, rfl, ?_, ?_⟩
        · rw [restLines] at here lines
          simpa [lines, consHead] using here
        · simpa [Ne.symm isBreak.1, Ne.symm isBreak.2] using lineAt.plain
        · rcases lineAt.next with ⟨last, number⟩ | ⟨own, tail, backEq, found, nextStart⟩
          · exact .inl ⟨last, by omega⟩
          · refine .inr ⟨own, tail, backEq, by rw [breaks]; exact found, ?_⟩
            rw [next _ nextStart]
            simp
            omega
      | succ k =>
        refine ⟨unit :: front, line, back, by simp [lineAt.text_eq], ?_, ?_, lineAt.plain, ?_⟩
        · rw [restLines] at here lines
          simpa [lines, consHead] using here
        · rw [starts, getElem?_cons_succ, getElem?_map]
          rw [lineStartsOf, getElem?_cons_succ] at start
          simp [start]
          omega
        · rcases lineAt.next with ⟨last, number⟩ | ⟨own, tail, backEq, found, nextStart⟩
          · exact .inl ⟨last, by omega⟩
          · refine .inr ⟨own, tail, backEq, by rw [breaks]; exact found, ?_⟩
            rw [next _ nextStart]
            simp
            omega

theorem stripEOL_line {line lineBreak : Text} (plain : CR ∉ line ∧ LF ∉ line)
    (isBreak : lineBreak = [CR] ∨ lineBreak = [LF] ∨ lineBreak = [CR, LF]) :
    stripEOL (line ++ lineBreak) = line := by
  have notCR : line.getLast? ≠ some CR := fun last =>
    plain.1 (mem_of_getLast? last)
  rcases isBreak with rfl | rfl | rfl
  · simp [stripEOL]
  · simp [stripEOL, notCR]
  · have split : line ++ [CR, LF] = (line ++ [CR]) ++ [LF] := by simp
    rw [stripEOL, split]
    simp

theorem mem_lineBreaks {text lineBreak : Text} (member : lineBreak ∈ lineBreaks text) :
    lineBreak = [CR] ∨ lineBreak = [LF] ∨ lineBreak = [CR, LF] := by
  induction text using break_induction with
  | nil => simp [lineBreaks] at member
  | crlf rest ih =>
    rw [lineBreaks_CRLF, mem_cons] at member
    rcases member with rfl | later
    · simp
    · exact ih later
  | cons unit rest whole ih =>
    rw [lineBreaks_cons whole, mem_append] at member
    rcases member with here | later
    · split at here
      · rename_i isBreak
        rw [mem_singleton.mp here]
        rcases isBreak with rfl | rfl <;> simp
      · simp at here
    · exact ih later

theorem lineAt_of_getElem? {text line : Text} (here : (splitLines text)[k]? = some line) :
    ∃ front back, LineAt text k front line back := by
  have bound := (List.getElem?_eq_some_iff.mp here).1
  rw [length_splitLines] at bound
  obtain ⟨front, own, back, lineAt⟩ := lineAt_of_lt text (by omega : k ≤ breakCount text)
  have same := lineAt.here
  rw [here, Option.some.injEq] at same
  subst same
  exact ⟨front, back, lineAt⟩

/-! ## Joining texts -/

theorem lineStartsOf_append (whole : splitsCRLF first second = false) :
    lineStartsOf (first ++ second) =
      lineStartsOf first ++ (breakEnds second).map (first.length + ·) := by
  rw [lineStartsOf, breakEnds_append_of_not_splits whole]
  rfl

/-- The start of a line behind the breaks of the first text. -/
theorem lineStartsOf_append_add (whole : splitsCRLF first second = false) (positive : 0 < k) :
    (lineStartsOf (first ++ second))[breakCount first + k]? =
      ((lineStartsOf second)[k]?).map (first.length + ·) := by
  obtain ⟨k, rfl⟩ := Nat.exists_eq_succ_of_ne_zero (Nat.pos_iff_ne_zero.mp positive)
  rw [lineStartsOf_append whole, getElem?_append_right
    (by rw [length_lineStartsOf]; omega), length_lineStartsOf,
    show breakCount first + k.succ - (breakCount first + 1) = k by omega,
    getElem?_map, lineStartsOf, getElem?_cons_succ]

theorem lineStartsOf_append_left (whole : splitsCRLF first second = false)
    (bounded : k ≤ breakCount first) :
    (lineStartsOf (first ++ second))[k]? = (lineStartsOf first)[k]? := by
  rw [lineStartsOf_append whole, getElem?_append_left]
  rw [length_lineStartsOf]
  omega

theorem lineStartsOf_isSome {text : Text} {k start : Nat}
    (here : (lineStartsOf text)[k]? = some start) : k ≤ breakCount text := by
  have bound := (List.getElem?_eq_some_iff.mp here).1
  rw [length_lineStartsOf] at bound
  omega

/-- The lines of a joined text. -/
theorem lineIndex_append_add (whole : splitsCRLF first second = false) (offset : Nat) :
    lineIndex (first ++ second) (first.length + offset) =
      breakCount first + lineIndex second offset := by
  rw [lineIndex, endsUpTo_append_right, endsUpTo_append_joint, whole]
  simp [breakCount, lineIndex]

theorem lineStart_append_add {first second : Text} (some : lineIndex second offset ≠ 0) :
    lineStart (first ++ second) (first.length + offset) =
      first.length + lineStart second offset := by
  rw [lineStart, endsUpTo_append_right, lineStart]
  obtain ⟨initial, last, equal⟩ :=
    (eq_nil_or_concat' (endsUpTo second offset)).resolve_left
      (fun none => some (by rw [lineIndex, none]; rfl))
  rw [equal]
  simp

/-! ## The first line of a text -/

/-- The text up to the end of its first break, less the last `endOffset` code
units; the whole text when it has no break. -/
def firstLine (endOffset : Nat) (text : Text) : Text :=
  match (breakEnds text).head? with
  | some stop => text.take (stop - endOffset)
  | none => text

section

variable {text : Text} {k start : Nat} (here : (lineStartsOf text)[k]? = some start)

include here

/-- A text is cut at the start of a line. -/
theorem lineStart_split : start ≤ text.length ∧
      splitsCRLF (text.take start) (text.drop start) = false ∧
      breakCount (text.take start) = k := by
  obtain ⟨front, line, back, lineAt⟩ := lineAt_of_lt text (lineStartsOf_isSome here)
  have bounded : start ≤ text.length := by
    have same := lineAt.start
    rw [here, Option.some.injEq] at same
    rw [same, lineAt.text_eq]
    simp
  have ownLine : lineIndex text start = k :=
    lineIndex_eq_of_bounds here le_rfl fun next nextHere =>
      lineStartsOf_strictMono here nextHere (lt_succ_self k)
  have joint : splitsCRLF (text.take start) (text.drop start) = false := by
    by_contra split
    have inside : insideCRLF text start = true := by
      rw [insideCRLF]
      simpa using split
    have own := lineStartsOf_getElem?_lineIndex text start
    rw [ownLine, here, Option.some.injEq] at own
    rcases lineStart_eq_self_iff.mp own.symm with rfl | ends
    · simp [insideCRLF] at inside
    · cases start with
      | zero => simp at ends
      | succ before =>
        obtain ⟨isCR, isLF⟩ := insideCRLF_iff.mp inside
        simp [breakEndsAt_succ, isCR, isLF] at ends
  refine ⟨bounded, joint, ?_⟩
  have count := @lineIndex_append_of_le (text.take start) (text.drop start) start
    (by simp [bounded]) joint
  rw [take_append_drop, ownLine] at count
  rw [count, lineIndex, endsUpTo_of_length_le (by rw [length_take]; omega)]
  rfl

/-- The breaks behind the start of a line. -/
theorem breakEnds_drop_lineStart : (breakEnds (text.drop start)).head? =
      ((lineStartsOf text)[k + 1]?).map (· - start) := by
  obtain ⟨bounded, joint, count⟩ := lineStart_split here
  have ends := breakEnds_append_of_not_splits joint
  rw [take_append_drop] at ends
  rw [lineStartsOf, getElem?_cons_succ, ends,
    getElem?_append_right (by rw [← breakCount, count]), ← breakCount, count,
    Nat.sub_self, getElem?_map, length_take, Nat.min_eq_left bounded,
    head?_eq_getElem?]
  cases (breakEnds (text.drop start))[0]? <;> simp

theorem lineBreaks_drop_lineStart :
    (lineBreaks (text.drop start)).head? = (lineBreaks text)[k]? := by
  obtain ⟨-, joint, count⟩ := lineStart_split here
  have breaks := lineBreaks_append joint
  rw [take_append_drop] at breaks
  rw [breaks, getElem?_append_right (by rw [length_lineBreaks, count]),
    length_lineBreaks, count, Nat.sub_self, head?_eq_getElem?]

end

/-- A line that is the last one. -/
theorem LineAt.firstLine_last {text front line : Text} {k endOffset : Nat}
    (lineAt : LineAt text k front line []) (last : k = breakCount text) :
    firstLine endOffset (text.drop front.length) = line := by
  have next : (lineStartsOf text)[k + 1]? = none := by
    rw [getElem?_eq_none_iff, length_lineStartsOf]
    omega
  rw [firstLine, breakEnds_drop_lineStart lineAt.start, next]
  simp [lineAt.text_eq]

/-- A line with its break. -/
theorem LineAt.firstLine_break {text front line lineBreak rest : Text}
    {k endOffset : Nat} (lineAt : LineAt text k front line (lineBreak ++ rest))
    (next : (lineStartsOf text)[k + 1]? = some (front.length + line.length + lineBreak.length)) :
    firstLine endOffset (text.drop front.length) =
      (line ++ lineBreak).take (line.length + lineBreak.length - endOffset) := by
  have dropped : text.drop front.length = (line ++ lineBreak) ++ rest := by
    rw [lineAt.text_eq]
    simp
  rw [firstLine, breakEnds_drop_lineStart lineAt.start, next, dropped]
  simp only [map_some]
  rw [show front.length + line.length + lineBreak.length - front.length =
    line.length + lineBreak.length by omega, take_append_of_le_length]
  rw [length_append]
  omega

theorem firstLine_append_of_no_break {endOffset : Nat} (none : breakCount front = 0)
    (short : ∀ stop, (breakEnds rest).head? = some stop → endOffset ≤ stop) :
    firstLine endOffset (front ++ rest) = front ++ firstLine endOffset rest := by
  have noEnds : breakEnds front = [] := eq_nil_of_length_eq_zero none
  have whole : splitsCRLF front rest = false := by
    rw [splitsCRLF, endsWithCR_eq_false]
    · rfl
    · intro member
      have := breakCount_pos_of_mem (.inl rfl) member
      omega
  rw [firstLine, firstLine, breakEnds_append_of_not_splits whole, noEnds, nil_append, head?_map]
  cases first : (breakEnds rest).head? with
  | none => rfl
  | some stop =>
    have := short stop first
    simp only [map_some]
    rw [show front.length + stop - endOffset = front.length + (stop - endOffset) by
      omega, take_length_add_append]

theorem firstLine_append_of_break (rest : Text)
    {endOffset stop : Nat} (first : (breakEnds front).head? = some stop)
    (whole : splitsCRLF front rest = false) :
    firstLine endOffset (front ++ rest) = front.take (stop - endOffset) := by
  have bounded : stop ≤ front.length :=
    (mem_endsUpTo.mp (mem_of_mem_head? first)).1
  rw [firstLine, breakEnds_append_of_not_splits whole, head?_append, first]
  simp only [some_or]
  rw [take_append_of_le_length (by omega)]

/-- A break does not reach behind its end. -/
theorem length_le_of_head {text lineBreak : Text} {stop : Nat}
    (isBreak : (lineBreaks text).head? = some lineBreak)
    (ends : (breakEnds text).head? = some stop) : lineBreak.length ≤ stop := by
  obtain ⟨front, line, back, lineAt⟩ := lineAt_of_lt text (zero_le _)
  rcases lineAt.next with ⟨-, none⟩ | ⟨own, rest, -, here, next⟩
  · have noBreaks : lineBreaks text = [] :=
      eq_nil_of_length_eq_zero (by rw [length_lineBreaks, none])
    simp [noBreaks] at isBreak
  · rw [head?_eq_getElem?, here, Option.some.injEq] at isBreak
    rw [lineStartsOf, getElem?_cons_succ, ← head?_eq_getElem?, ends, Option.some.injEq] at next
    subst isBreak
    omega

/-- Appending a text continues the last line. -/
theorem splitLines_append {first second : Text} {lines more : List Text}
    {last next : Text} (whole : splitsCRLF first second = false)
    (firstLines : splitLines first = lines ++ [last])
    (secondLines : splitLines second = next :: more) :
    splitLines (first ++ second) = lines ++ (last ++ next) :: more := by
  induction first using break_induction generalizing lines last with
  | nil =>
    have single : ([[]] : List Text) = lines ++ [last] := firstLines
    obtain ⟨rfl, rfl⟩ : lines = [] ∧ last = [] := by
      cases lines with
      | nil => simpa using single.symm
      | cons line lines => simp at single
    simpa using secondLines
  | crlf rest ih =>
    have restWhole : splitsCRLF rest second = false := by
      by_cases empty : rest = []
      · simp [empty]
      · rwa [← splitsCRLF_append_left [CR, LF] second empty]
    obtain ⟨lines, rfl⟩ : ∃ rest, lines = [] :: rest := by
      cases lines with
      | nil =>
        have none : splitLines rest = [] := by simpa using (List.cons.inj firstLines).2
        exact absurd none (splitLines_ne_nil rest)
      | cons line lines => exact ⟨lines, by rw [(List.cons.inj firstLines).1]⟩
    rw [cons_append, cons_append, splitLines_CRLF, ih restWhole (List.cons.inj firstLines).2]
    rfl
  | cons unit rest here ih =>
    obtain ⟨there, restWhole⟩ := whole_of_splits_eq_false whole here
    rw [cons_append, splitLines_cons there]
    rw [splitLines_cons here] at firstLines
    obtain ⟨front, final, restLines⟩ :=
      (eq_nil_or_concat' (splitLines rest)).resolve_left (splitLines_ne_nil rest)
    have joined := ih restWhole restLines
    rw [joined]
    rw [restLines] at firstLines
    split at firstLines
    · rename_i isBreak
      rw [← cons_append] at firstLines
      obtain ⟨rfl, sameLast⟩ := append_inj' firstLines rfl
      obtain rfl : final = last := by simpa using sameLast
      rw [if_pos isBreak]
      rfl
    · rename_i plain
      rw [if_neg plain]
      cases front with
      | nil =>
        obtain ⟨rfl, sameLast⟩ := append_inj'
          (show [] ++ [unit :: final] = lines ++ [last] from firstLines) rfl
        obtain rfl : unit :: final = last := by simpa using sameLast
        rfl
      | cons line front =>
        rw [cons_append, consHead, ← cons_append] at firstLines
        obtain ⟨rfl, sameLast⟩ := append_inj' firstLines rfl
        obtain rfl : final = last := by simpa using sameLast
        rfl

theorem splitLines_concat_CR (text : Text) :
    splitLines (text ++ [CR]) = splitLines text ++ [[]] := by
  obtain ⟨lines, last, equal⟩ :=
    (eq_nil_or_concat' (splitLines text)).resolve_left (splitLines_ne_nil text)
  have joined := @splitLines_append text [CR] lines [[]] last []
    (by simp [splitsCRLF]) equal (by decide)
  rw [joined, equal]
  simp

end CodeEditor
