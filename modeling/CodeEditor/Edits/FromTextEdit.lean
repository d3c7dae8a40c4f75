import CodeEditor.Edits.TextEditLines

/-!
# From edits of the text to line edits

A text edit is first made into a line edit that writes all lines that it touches, and then
the first and the last of these lines are left out where the edit does not change them.
-/

namespace CodeEditor.Edits

open List Nat Int

/-! ## Whole lines -/

/-- Lines with a text in front of the first and one behind the last of them. -/
def wrapLines (before after : Text) (lines : List Text) : List Text :=
  let lines := lines.modifyHead (before ++ ·)
  lines.modify (lines.length - 1) (· ++ after)

variable {lines : List Text}

theorem joinLines_modifyHead (nonempty : lines ≠ []) (before : Text) :
    joinLines (lines.modifyHead (before ++ ·)) = before ++ joinLines lines := by
  cases lines with
  | nil => contradiction
  | cons line lines =>
    rw [modifyHead_cons]
    by_cases single : lines = []
    · rw [single, joinLines_singleton, joinLines_singleton]
    · rw [joinLines_cons _ single, joinLines_cons _ single, append_assoc]

theorem joinLines_modify_last (nonempty : lines ≠ []) (after : Text) :
    joinLines (lines.modify (lines.length - 1) (· ++ after)) = joinLines lines ++ after := by
  cases lines using List.reverseRecOn with
  | nil => contradiction
  | append_singleton init line =>
    rw [modify_concat, ← closeLines_append_joinLines init (by simp),
      ← closeLines_append_joinLines init (by simp), joinLines_singleton, joinLines_singleton,
      append_assoc]

theorem joinLines_wrapLines (nonempty : lines ≠ []) (before after : Text) :
    joinLines (wrapLines before after lines) = before ++ joinLines lines ++ after := by
  have some : lines.modifyHead (before ++ ·) ≠ [] := by
    rw [Ne, ← length_eq_zero_iff, length_modifyHead, length_eq_zero_iff]
    exact nonempty
  rw [wrapLines, joinLines_modify_last some, joinLines_modifyHead nonempty]

theorem wrapLines_ne_nil (nonempty : lines ≠ []) (before after : Text) :
    wrapLines before after lines ≠ [] := by
  rw [Ne, ← length_eq_zero_iff, wrapLines, length_modify, length_modifyHead, length_eq_zero_iff]
  exact nonempty

/-- The first line starts with the text in front. -/
theorem wrapLines_head (before after : Text) (lines : List Text) :
    ∀ line ∈ (wrapLines before after lines).head?, before <+: line := by
  cases lines with
  | nil => simp [wrapLines]
  | cons first lines =>
    intro line isFirst
    cases lines with
    | nil =>
      cases isFirst
      exact (prefix_append before first).trans (prefix_append _ after)
    | cons second lines =>
      cases isFirst
      exact prefix_append before first

/-- The last line ends with the text behind. -/
theorem wrapLines_last (before after : Text) (lines : List Text) :
    ∀ line ∈ (wrapLines before after lines).getLast?, after <:+ line := by
  rw [wrapLines]
  cases lines.modifyHead (before ++ ·) using List.reverseRecOn with
  | nil => simp
  | append_singleton init last =>
    intro line isLast
    rw [modify_concat, getLast?_concat] at isLast
    cases isLast
    exact suffix_append last after

/-! ## Leaving out lines -/

/-- A line edit inside another one that does the same. -/
structure Narrows (lines : List Text) (plain narrow : SingleLineEdit) : Prop where
  start : plain.lineRange.startLineNumber ≤ narrow.lineRange.startLineNumber
  stop : narrow.lineRange.endLineNumberExclusive ≤ plain.lineRange.endLineNumberExclusive
  same : ∀ (index : Nat) (edits : List (Replacement Text)),
    index + 1 ≤ plain.lineRange.startLineNumber →
    Within (lines.length + 1) plain.lineRange.endLineNumberExclusive edits →
    patch (lines.drop index) (index + 1) (plain.replacement :: edits) =
      patch (lines.drop index) (index + 1) (narrow.replacement :: edits)

namespace Narrows

variable {lines : List Text} {plain middle narrow : SingleLineEdit}

theorem refl (lines : List Text) (plain : SingleLineEdit) : Narrows lines plain plain :=
  ⟨le_refl _, le_refl _, fun _ _ _ _ => rfl⟩

theorem trans (first : Narrows lines plain middle) (second : Narrows lines middle narrow) :
    Narrows lines plain narrow where
  start := le_trans first.start second.start
  stop := le_trans second.stop first.stop
  same := by
    intro index edits inFront within
    rw [first.same index edits inFront within]
    apply second.same index edits (le_trans inFront first.start)
    exact within.of_le (Int.ofNat_le.mpr first.stop)

/-- The first line is written again. -/
theorem shift {start stop : Nat} {ordered : start ≤ stop} {newLines : List Text}
    (first : 1 ≤ start) (less : start + 1 ≤ stop) (here : lines[start - 1]? = some line) :
    Narrows lines ⟨⟨start, stop, ordered⟩, line :: newLines⟩
      ⟨⟨start + 1, stop, less⟩, newLines⟩ where
  start := le_succ start
  stop := le_refl stop
  same := by
    intro index edits inFront within
    simp only at inFront
    have isHere : (lines.drop index)[((start : Int) - (index + 1)).toNat]? = some line := by
      rw [getElem?_drop, ← here]
      congr 1
      omega
    have moved : ((start + 1 : Nat) : Int) = start + 1 := by omega
    simp only [SingleLineEdit.replacement, moved]
    exact patch_shift (by omega) isHere

/-- The last line is written again. -/
theorem pop {start stop : Nat} {ordered : start ≤ stop} {newLines : List Text}
    (less : start ≤ stop - 1) (proper : start < stop) (bounded : stop ≤ lines.length + 1)
    (here : lines[stop - 2]? = some line) :
    Narrows lines ⟨⟨start, stop, ordered⟩, newLines ++ [line]⟩
      ⟨⟨start, stop - 1, less⟩, newLines⟩ where
  start := le_refl start
  stop := sub_le stop 1
  same := by
    intro index edits inFront within
    simp only at inFront within
    have isHere : (lines.drop index)[((stop : Int) - 1 - (index + 1)).toNat]? = some line := by
      rw [getElem?_drop, ← here]
      congr 1
      omega
    have isStop : ((stop - 1 : Nat) : Int) = stop - 1 := by omega
    have length : ((lines.drop index).length : Int) = lines.length - index := by
      rw [length_drop]
      omega
    simp only [SingleLineEdit.replacement, isStop]
    exact patch_pop (by omega) (by omega) within (by omega) isHere

end Narrows

/-- A first and a last line, of which only the text that survives is left, are left out. -/
theorem trim_narrows {lines newLines : List Text} {start stop : Nat} {first last : Text}
    {startBeforeNewLine endAfterNewLine : Bool} (notFirst : 1 ≤ start) (proper : start < stop)
    (bounded : stop ≤ lines.length + 1)
    (head : ∀ line ∈ newLines.head?, first <+: line)
    (isFirst : startBeforeNewLine = true → lines[start - 1]? = some first)
    (tail : ∀ line ∈ newLines.getLast?, last <:+ line)
    (isLast : endAfterNewLine = true → lines[stop - 2]? = some last)
    (nonempty : newLines ≠ []) :
    ∃ narrow, SingleLineEdit.trim startBeforeNewLine endAfterNewLine first last start stop
        newLines = some narrow ∧
      Narrows lines ⟨⟨start, stop, le_of_lt proper⟩, newLines⟩ narrow := by
  -- the two steps, each on what the step before it leaves
  have shifted : ∃ start' newLines', start ≤ start' ∧ ∃ ordered : start' ≤ stop,
      (if startBeforeNewLine && (newLines.headD []).length = first.length then start + 1
        else start) = start' ∧
      (if startBeforeNewLine && (newLines.headD []).length = first.length then newLines.tail
        else newLines) = newLines' ∧
      (∀ line ∈ newLines'.getLast?, last <:+ line) ∧
      Narrows lines ⟨⟨start, stop, le_of_lt proper⟩, newLines⟩
        ⟨⟨start', stop, ordered⟩, newLines'⟩ := by
    split
    · rename_i shifts
      rw [Bool.and_eq_true, decide_eq_true_eq] at shifts
      refine ⟨start + 1, newLines.tail, le_succ start, proper, rfl, rfl, ?_, ?_⟩
      · cases newLines with
        | nil => contradiction
        | cons line others =>
          cases others with
          | nil => simp
          | cons other others =>
            exact tail
      · cases newLines with
        | nil => contradiction
        | cons line others =>
          have same : first = line := (head line rfl).eq_of_length shifts.2.symm
          rw [← same]
          exact Narrows.shift notFirst proper (isFirst shifts.1)
    · exact ⟨start, newLines, le_refl _, le_of_lt proper, rfl, rfl, tail, Narrows.refl ..⟩
  obtain ⟨start', newLines', atLeast, ordered, isStart, isLines, tail', narrows⟩ := shifted
  simp only [SingleLineEdit.trim, isStart, isLines]
  split
  · rename_i pops
    simp only [Bool.and_eq_true, decide_eq_true_eq] at pops
    obtain ⟨⟨⟨more, less⟩, after⟩, length⟩ := pops
    cases newLines' using List.reverseRecOn with
    | nil => simp at more
    | append_singleton init line =>
      have same : last = line := by
        apply (tail' line (by simp)).eq_of_length
        rw [← length]
        simp
      have upTo : start' ≤ stop - 1 := by omega
      refine ⟨⟨⟨start', stop - 1, upTo⟩, init⟩, ?_, ?_⟩
      · rw [LineRange.new, dif_pos upTo]
        simp
      · apply narrows.trans
        rw [← same]
        exact Narrows.pop upTo less bounded (isLast after)
  · refine ⟨⟨⟨start', stop, ordered⟩, newLines'⟩, ?_, narrows⟩
    rw [LineRange.new, dif_pos ordered]
    rfl

/-! ## One edit -/

theorem Lines.between_line {ls : Lines} {front back : List Text} {line : Text} {first last : Nat}
    (split : ls.lines = front ++ line :: back) (inside : last ≤ line.length) :
    between ls.text 0 ((closeLines front).length + first : Nat)
        ((closeLines front).length + last : Nat) = (line.take last).drop first := by
  have text : ls.text = closeLines front ++ (line ++ openLines back) := by
    have joined : line ++ openLines back = joinLines (line :: back) := by
      have joined := @joinLines_append_openLines [line] (by simp) back
      rwa [joinLines_singleton] at joined
    rw [Lines.text, split, joined, closeLines_append_joinLines _ (by simp)]
  have toFirst : ((((closeLines front).length + first : Nat) : Int) - 0).toNat =
      (closeLines front).length + first := by omega
  have count : ((((closeLines front).length + last : Nat) : Int) -
      ((closeLines front).length + first : Nat)).toNat = last - first := by omega
  rw [between, toFirst, count, text, drop_length_add_append, ← drop_take,
    take_append_of_le_length inside]

/-- An edit that replaces the lines from one line up to another one. -/
theorem SingleLineEdit.textReplacement_lines {ls : Lines} {front back front' back' : List Text}
    {line line' : Text} {e : SingleLineEdit} (split : ls.lines = front ++ line :: back)
    (split' : ls.lines = front' ++ line' :: back') (le : front.length ≤ front'.length)
    (start : e.lineRange.startLineNumber = front.length + 1)
    (stop : e.lineRange.endLineNumberExclusive = front'.length + 2) (new : e.newLines ≠ []) :
    e.textReplacement ls.lines = ⟨(closeLines front).length,
      ((closeLines front').length + line'.length : Nat), joinLines e.newLines⟩ := by
  obtain ⟨old, isOld⟩ : ∃ old, front' ++ [line'] = front ++ old := by
    rw [append_cons] at split'
    have isPrefix := prefix_of_prefix_length_le (split ▸ prefix_append front _)
      (split' ▸ prefix_append (front' ++ [line']) back') (by simp; omega)
    obtain ⟨old, isOld⟩ := isPrefix
    exact ⟨old, isOld.symm⟩
  have sizes := congrArg List.length isOld
  simp only [length_append, length_singleton] at sizes
  have replaced : old ≠ [] := by
    rintro rfl
    rw [length_nil] at sizes
    omega
  have length : (closeLines front').length + line'.length =
      (closeLines front).length + (joinLines old).length := by
    have texts : (joinLines (front' ++ [line'])).length = (joinLines (front ++ old)).length := by
      rw [isOld]
    rw [← closeLines_append_joinLines front' (by simp), ← closeLines_append_joinLines _ replaced,
      joinLines_singleton, length_append, length_append] at texts
    exact texts
  rw [@SingleLineEdit.textReplacement_eq ls.lines front old back' e ⟨start, by omega⟩
    (by rw [split', ← append_assoc, ← isOld]; simp), Edits.textReplacement,
    if_pos ⟨new, replaced⟩, length, natCast_add]

/-- A replacement of text, a line edit of all its lines and a line edit without the lines
that do not change. -/
structure Converts (ls : Lines) (r : Replacement CodeUnit) (plain narrow : SingleLineEdit) :
    Prop where
  first : 1 ≤ plain.lineRange.startLineNumber
  proper : plain.lineRange.startLineNumber < plain.lineRange.endLineNumberExclusive
  bounded : plain.lineRange.endLineNumberExclusive ≤ ls.lines.length + 1
  nonempty : plain.newLines ≠ []
  start : (plain.textReplacement ls.lines).start ≤ r.start
  ordered : r.start ≤ r.stop
  stop : r.stop ≤ (plain.textReplacement ls.lines).stop
  text : (plain.textReplacement ls.lines).text =
    between ls.text 0 (plain.textReplacement ls.lines).start r.start ++
      joinLines (splitLines r.text) ++
      between ls.text 0 r.stop (plain.textReplacement ls.lines).stop
  narrows : Narrows ls.lines plain narrow

theorem fromSingleTextEdit_eq (spans : Spans ls t r) :
    ∃ plain narrow, SingleLineEdit.fromSingleTextEdit t ls.text = some narrow ∧
      Converts ls r plain narrow ∧
      plain.lineRange.startLineNumber = t.range.startLineNumber ∧
      plain.lineRange.endLineNumberExclusive = t.range.endLineNumber + 1 := by
  have lineOrder := spans.start.le spans.stop spans.ordered
  obtain ⟨front, line, back, column, split, upTo, isPosition, isOffset⟩ := spans.start
  obtain ⟨front', line', back', column', split', upTo', isPosition', isOffset'⟩ := spans.stop
  obtain ⟨startLine, startColumn⟩ := Position.mk.inj isPosition
  obtain ⟨endLine, endColumn⟩ := Position.mk.inj isPosition'
  have lineStart : Located ls ⟨front.length + 1, 1⟩ ((closeLines front).length + 0 : Nat) :=
    ⟨front, line, back, 0, split, Nat.zero_le _, rfl, rfl⟩
  have lineEnd : Located ls ⟨front'.length + 1, line'.length + 1⟩
      ((closeLines front').length + line'.length : Nat) :=
    ⟨front', line', back', line'.length, split', Nat.le_refl _, rfl, rfl⟩
  have before := getValueOfRange_eq lineStart spans.start (by rw [isOffset]; omega)
  have after := getValueOfRange_eq spans.stop lineEnd (by rw [isOffset']; omega)
  rw [isOffset, Lines.between_line split upTo] at before
  rw [isOffset', Lines.between_line split' (Nat.le_refl _)] at after
  rw [take_length] at after
  have le : front.length ≤ front'.length := by
    rw [isPosition, isPosition'] at lineOrder
    simp only at lineOrder
    omega
  have some := wrapLines_ne_nil (splitLines_ne_nil r.text) (line.take column) (line'.drop column')
  have length := Lines.getLineLength_eq split
  have length' := Lines.getLineLength_eq split'
  have inside : front'.length + 2 ≤ ls.lines.length + 1 := by
    rw [split', length_append, length_cons]
    omega
  obtain ⟨narrow, isNarrow, narrows⟩ := @trim_narrows ls.lines
    (wrapLines (line.take column) (line'.drop column') (splitLines r.text))
    (front.length + 1) (front'.length + 2) (line.take column) (line'.drop column')
    (decide (column + 1 = line.length + 1)) (decide (column' + 1 = 1)) (by omega) (by omega)
    inside (wrapLines_head _ _ _)
    (by
      intro isBefore
      rw [decide_eq_true_eq] at isBefore
      rw [split, take_of_length_le (by omega)]
      simp)
    (wrapLines_last _ _ _)
    (by
      intro isAfter
      rw [decide_eq_true_eq] at isAfter
      have none : column' = 0 := by omega
      rw [split', none]
      simp)
    some
  have form := @SingleLineEdit.textReplacement_lines ls front back front' back' line line'
    ⟨⟨front.length + 1, front'.length + 2, by omega⟩,
      wrapLines (line.take column) (line'.drop column') (splitLines r.text)⟩ split split' le
    rfl rfl some
  refine ⟨⟨⟨front.length + 1, front'.length + 2, by omega⟩,
    wrapLines (line.take column) (line'.drop column') (splitLines r.text)⟩, narrow, ?_,
    ⟨Nat.le_add_left 1 _, by simp only; omega, inside, some, ?_, spans.ordered, ?_, ?_, narrows⟩,
    startLine.symm, by simp only; omega⟩
  · have first : t.range.startLineNumber = front.length + 1 := startLine
    have firstColumn : t.range.startColumn = column + 1 := startColumn
    have last : t.range.endLineNumber = front'.length + 1 := endLine
    have lastColumn : t.range.endColumn = column' + 1 := endColumn
    simp only [SingleLineEdit.fromSingleTextEdit, first, firstColumn, last, lastColumn, before,
      after, length, length', Option.bind_eq_bind, Option.bind_some, spans.text]
    exact isNarrow
  · rw [form, isOffset]
    simp only
    omega
  · rw [form, isOffset']
    simp only
    omega
  · have inFront := @Lines.between_line ls front back line 0 column split upTo
    have behind := @Lines.between_line ls front' back' line' column' line'.length split'
      (Nat.le_refl _)
    rw [Nat.add_zero, drop_zero] at inFront
    rw [take_length] at behind
    rw [form, isOffset, isOffset']
    rw [inFront, behind, joinLines_wrapLines (splitLines_ne_nil _)]

/-! ## All edits -/

/-- Edits that share lines, as one replacement with its line edits. -/
structure Group where
  replacement : Replacement CodeUnit
  plain : SingleLineEdit
  narrow : SingleLineEdit

/-- The replacement with line feeds for all line breaks. -/
def Group.normalized (group : Group) : Replacement CodeUnit :=
  ⟨group.replacement.start, group.replacement.stop,
    joinLines (splitLines group.replacement.text)⟩

/-- What the loop makes of the edits it has collected and of the edits that are left. -/
structure Grouped (ls : Lines) (textEdits : List SingleTextEdit)
    (patches : List (Replacement CodeUnit)) (groups : List Group) : Prop where
  converts : ∀ group ∈ groups, Converts ls group.replacement group.plain group.narrow
  within : ∀ line : Nat, line ≤ ls.lines.length + 1 →
    (∀ t ∈ textEdits.head?, line ≤ t.range.startLineNumber) →
    Within (ls.lines.length + 1) line (groups.map (·.plain.replacement))
  same : ∀ last position : Int, 0 ≤ position → Within last position patches →
    patch (ls.text.drop position.toNat) position patches =
      patch (ls.text.drop position.toNat) position (groups.map (·.replacement))

theorem Grouped.nil (ls : Lines) : Grouped ls [] [] [] where
  converts := by simp
  within := by
    intro line le _
    exact Int.ofNat_le.mpr le
  same := fun _ _ _ _ => rfl

variable {patches later : List (Replacement CodeUnit)} {rest edits : List SingleTextEdit}
  {r : Replacement CodeUnit}

/-- The edits of one group, in front of the others. -/
theorem Grouped.cons {ls : Lines} {t : SingleTextEdit} {groups : List Group}
    {plain narrow : SingleLineEdit}
    (converts : Converts ls (joinPatches ls.text (r :: patches)) plain narrow)
    (start : plain.lineRange.startLineNumber = t.range.startLineNumber)
    (apart : ∀ next ∈ edits.head?,
      plain.lineRange.endLineNumberExclusive ≤ next.range.startLineNumber)
    (grouped : Grouped ls edits later groups) :
    Grouped ls (t :: rest ++ edits) (r :: patches ++ later)
      (⟨joinPatches ls.text (r :: patches), plain, narrow⟩ :: groups) where
  converts := by
    intro group member
    obtain rfl | member := mem_cons.mp member
    · exact converts
    · exact grouped.converts group member
  within := by
    intro line _ isStart
    have inFront := isStart t rfl
    refine ⟨?_, ?_, ?_⟩
    · exact Int.ofNat_le.mpr (start ▸ inFront)
    · exact Int.ofNat_le.mpr plain.lineRange.ordered
    · exact grouped.within _ converts.bounded apart
  same := by
    intro last position nonneg within
    have own := within.of_append.1
    have behind := @within_joinPatches ls.text _ _ _ _ _ within
    have bounds := @joinPatches_ordered ls.text _ _ _ _ own
    have inFront := own.1
    have rest := grouped.same last (joinPatches ls.text (r :: patches)).stop (by omega) behind
    have dropped : (ls.text.drop position.toNat).drop
        ((joinPatches ls.text (r :: patches)).stop - position).toNat =
        ls.text.drop (joinPatches ls.text (r :: patches)).stop.toNat := by
      rw [drop_drop]
      congr 1
      omega
    rw [patch_joinPatches nonneg own, map_cons, patch_cons, patch_cons, dropped, rest]

/-- The edits that were collected are closed in front of an edit on another line. -/
theorem Grouped.close {t : SingleTextEdit}
    (spans : List.Forall₂ (Spans ls) (t :: rest) (r :: patches))
    (others : List.Forall₂ (Spans ls) edits later)
    (within : Within last position (r :: patches ++ later)) (apart : ∀ next ∈ edits.head?,
      next.range.startLineNumber ≠ ((t :: rest).getLastD t).range.endLineNumber)
    (grouped : Grouped ls edits later groups) :
    ∃ joined group, SingleTextEdit.joinEdits (t :: rest) ls.text = some joined ∧
      SingleLineEdit.fromSingleTextEdit joined ls.text = some group.narrow ∧
      Grouped ls (t :: rest ++ edits) (r :: patches ++ later) (group :: groups) := by
  obtain ⟨joined, isJoined, joinedSpans, isStart, isStop⟩ := joinEdits_eq spans within.of_append.1
  obtain ⟨plain, narrow, isNarrow, converts, start, stop⟩ := fromSingleTextEdit_eq joinedSpans
  refine ⟨joined, ⟨_, plain, narrow⟩, isJoined, isNarrow, grouped.cons converts ?_ ?_⟩
  · rw [start]
    exact congrArg Position.lineNumber isStart
  · intro next isNext
    have otherLine := apart next isNext
    have behind := @within_joinPatches ls.text _ _ _ _ _ within
    cases others with
    | nil => cases isNext
    | cons own _ =>
      cases isNext
      have lineOrder := joinedSpans.stop.le own.start behind.1
      have sameLine := congrArg Position.lineNumber isStop
      simp only [Range.getStartPosition, Range.getEndPosition] at lineOrder sameLine
      omega

/-- The loop: the edits that were collected and the edits that are left are grouped. -/
theorem fromTextEditLoop_eq (spans : List.Forall₂ (Spans ls) edits patches)
    (currentSpans : List.Forall₂ (Spans ls) currentEdits currentPatches)
    (within : Within last position (currentPatches ++ patches))
    (open' : edits = [] → currentEdits = []) :
    ∃ groups, LineEdit.fromTextEditLoop ls.text edits currentEdits = some (groups.map (·.narrow)) ∧
      Grouped ls (currentEdits ++ edits) (currentPatches ++ patches) groups := by
  induction spans generalizing currentEdits currentPatches position with
  | nil =>
    cases open' rfl
    cases currentSpans
    exact ⟨[], rfl, Grouped.nil ls⟩
  | @cons edit r edits patches own others ih =>
    have grown : List.Forall₂ (Spans ls) (currentEdits ++ [edit]) (currentPatches ++ [r]) :=
      rel_append currentSpans (.cons own .nil)
    rw [append_cons currentPatches] at within
    rw [append_cons currentEdits edit edits, append_cons currentPatches, LineEdit.fromTextEditLoop]
    by_cases shares : edits.head?.any (·.range.startLineNumber = edit.range.endLineNumber)
    · simp only [shares, if_true]
      apply ih grown within
      rintro rfl
      simp at shares
    · simp only [shares]
      have isLast : (currentEdits ++ [edit]).getLast? = some edit := getLast?_concat
      revert grown within isLast
      obtain ⟨t, rest, isEdits⟩ := exists_cons_of_ne_nil (show currentEdits ++ [edit] ≠ [] by simp)
      obtain ⟨r', patches', isPatches⟩ := exists_cons_of_ne_nil
        (show currentPatches ++ [r] ≠ [] by simp)
      rw [isEdits, isPatches]
      intro within grown isLast
      obtain ⟨groups, isSome, grouped⟩ := @ih [] [] _ .nil
        (@within_joinPatches ls.text _ _ _ _ _ within) (fun _ => rfl)
      obtain ⟨joined, group, isJoined, isNarrow, grouped'⟩ := grouped.close grown others within (by
        intro next isNext same
        apply shares
        rw [isNext, Option.any_some, decide_eq_true_eq, same, getLastD_eq_getLast?, isLast]
        rfl)
      refine ⟨group :: groups, ?_, grouped'⟩
      rw [isJoined]
      simp only [Bool.false_eq_true, if_false, Option.bind_eq_bind, Option.bind_some, isNarrow,
        isSome]
      rfl

/-! ## What the line edit does -/

namespace Grouped

variable {ls : Lines} {groups : List Group}

section

variable (converts : ∀ group ∈ groups, Converts ls group.replacement group.plain group.narrow)

include converts

/-- All lines that the edits touch are written; no edit deletes or inserts lines only. -/
theorem patch_plain (within : Within (ls.lines.length + 1) 1 (groups.map (·.plain.replacement))) :
    Within ls.text.length 0 (groups.map (·.plain.textReplacement ls.lines)) ∧
      patch ls.text 0 (groups.map (·.plain.textReplacement ls.lines)) =
        joinLines (patch ls.lines 1 (groups.map (·.plain.replacement))) := by
  have walk := @LineEdit.patch_of_free ls (groups.map (·.plain))
  simp only [map_map] at walk
  apply walk within
  · intro plain member deletes
    obtain ⟨group, inGroups, rfl⟩ := mem_map.mp member
    exact (converts group inGroups).nonempty deletes.1
  · rw [isChain_iff_getElem]
    intro i less collides
    have member := getElem_mem less
    obtain ⟨group, inGroups, isGroup⟩ := mem_map.mp member
    exact (converts group inGroups).nonempty (isGroup ▸ collides.1)

/-- The lines that the edits touch are written with what the edits do not change. -/
theorem patch_wide {position : Int} (nonneg : 0 ≤ position) (within : Within ls.text.length position
      (groups.map (·.plain.textReplacement ls.lines))) :
    patch (ls.text.drop position.toNat) position (groups.map (·.normalized)) =
      patch (ls.text.drop position.toNat) position
        (groups.map (·.plain.textReplacement ls.lines)) := by
  induction groups generalizing position with
  | nil => rfl
  | cons group groups ih =>
    have own := converts group (by simp)
    rw [map_cons] at within
    obtain ⟨inFront, -, behind⟩ := within
    have start := own.start
    have ordered := own.ordered
    have stop := own.stop
    have bounded := behind.le
    have rest := ih (fun other member =>
      converts other (mem_cons_of_mem _ member)) (show 0 ≤ group.replacement.stop by omega)
      (behind.of_le stop)
    have dropped : (ls.text.drop position.toNat).drop (group.replacement.stop - position).toNat =
        ls.text.drop group.replacement.stop.toNat := by
      rw [drop_drop]
      congr 1
      omega
    have narrowed : patch (ls.text.drop position.toNat) position
        (group.normalized :: groups.map (·.normalized)) =
        patch (ls.text.drop position.toNat) position
          (group.normalized :: groups.map (·.plain.textReplacement ls.lines)) := by
      have isStop : group.normalized.stop = group.replacement.stop := rfl
      rw [patch_cons, patch_cons, isStop, dropped, rest]
    rw [map_cons, map_cons, narrowed]
    apply @patch_widen _ _ _ _ group.normalized _ _ inFront start ordered stop behind
    · rw [length_drop]
      omega
    · simp only [Group.normalized]
      rw [between_drop nonneg inFront, between_drop nonneg (by omega), own.text]

/-- The lines that do not change are left out. -/
theorem patch_narrow {index : Nat} (within : Within (ls.lines.length + 1) (index + 1)
      (groups.map (·.plain.replacement))) :
    Within (ls.lines.length + 1) (index + 1) (groups.map (·.narrow.replacement)) ∧
      patch (ls.lines.drop index) (index + 1) (groups.map (·.plain.replacement)) =
        patch (ls.lines.drop index) (index + 1) (groups.map (·.narrow.replacement)) := by
  induction groups generalizing index with
  | nil => exact ⟨within, rfl⟩
  | cons group groups ih =>
    have own := converts group (by simp)
    obtain ⟨inFront, ordered, behind⟩ := within
    obtain ⟨start, stop, same⟩ := own.narrows
    have proper := own.proper
    simp only [SingleLineEdit.replacement] at inFront behind
    have isStop : ((group.plain.lineRange.endLineNumberExclusive - 1 : Nat) : Int) + 1 =
        group.plain.lineRange.endLineNumberExclusive := by omega
    obtain ⟨later, rest⟩ := @ih (fun other member =>
      converts other (mem_cons_of_mem _ member))
      (group.plain.lineRange.endLineNumberExclusive - 1) (by rw [isStop]; exact behind)
    rw [isStop] at later rest
    have dropped : (ls.lines.drop index).drop
        ((group.plain.lineRange.endLineNumberExclusive : Int) - (index + 1)).toNat =
        ls.lines.drop (group.plain.lineRange.endLineNumberExclusive - 1) := by
      rw [drop_drop]
      congr 1
      omega
    refine ⟨⟨?_, Int.ofNat_le.mpr group.narrow.lineRange.ordered, ?_⟩, ?_⟩
    · simp only [SingleLineEdit.replacement]
      omega
    · exact later.of_le (Int.ofNat_le.mpr stop)
    · rw [map_cons, map_cons, ← same index _ (by omega) later, patch_cons, patch_cons]
      simp only [SingleLineEdit.replacement] at rest ⊢
      rw [dropped, rest]

end

end Grouped

/-!
## Line edits and text edits agree

An edit of the text and the line edit made from it give the same document, as long as no
new text brings a carriage return: lines are split at every line break and joined with line
feeds. A line edit and the edit of the text made from it give the same document, as long
as no deletion at the end has to borrow the line break of its neighbour.
-/

/-! ## Line edits from text edits -/

theorem areSorted_of_within {edits : List SingleLineEdit} {last position : Int}
    (within : Within last position (edits.map (·.replacement))) : areSorted edits = true := by
  rw [areSorted, checkAdjacentItems_iff]
  induction edits generalizing position with
  | nil => exact .nil
  | cons e edits ih =>
    rw [isChain_cons]
    refine ⟨?_, ih within.2.2⟩
    intro next isNext
    cases edits with
    | nil => cases isNext
    | cons other edits =>
      cases isNext
      exact decide_eq_true (Int.ofNat_le.mp within.2.2.1)

/-- The new texts bring no carriage return. -/
def OffsetEdit.BringsNoCR (e : OffsetEdit) : Prop := ∀ edit ∈ e.edits, CR ∉ edit.newText

instance (e : OffsetEdit) : Decidable e.BringsNoCR :=
  inferInstanceAs (Decidable (∀ edit ∈ e.edits, _))

theorem CR_not_mem_joinLines (plain : ∀ line ∈ lines, CR ∉ line) : CR ∉ joinLines lines := by
  induction lines with
  | nil => simp [joinLines]
  | cons line lines ih =>
    have own := plain line (by simp)
    have rest := ih fun other member =>
      plain other (mem_cons_of_mem _ member)
    by_cases single : lines = []
    · rw [single, joinLines_singleton]
      exact own
    · rw [joinLines_cons _ single, mem_append, mem_cons, not_or, not_or]
      exact ⟨own, by decide, rest⟩

theorem CR_not_mem_splitLines {text line : Text} (member : line ∈ splitLines text) : CR ∉ line := by
  obtain ⟨k, here⟩ := List.mem_iff_getElem?.mp member
  have less : k < (splitLines text).length := (List.getElem?_eq_some_iff.mp here).1
  rw [length_splitLines] at less
  obtain ⟨front, own, back, lineAt⟩ := lineAt_of_lt text (show k ≤ breakCount text by omega)
  have same : own = line := Option.some.inj (lineAt.here.symm.trans here)
  rw [← same]
  exact lineAt.plain.1

theorem Lines.CR_not_mem (ls : Lines) : CR ∉ ls.text :=
  CR_not_mem_joinLines fun line member => (ls.plain line member).1

namespace LineEdit

variable {ls : Lines} {e : OffsetEdit}

/-- The line edit of an edit replaces what the edit replaces, with line feeds for all line
breaks of the new texts. -/
theorem fromEdit_eq (valid : e.ValidOn ls.text) :
    ∃ (le : LineEdit) (groups : List Group), fromEdit e ls.text = some le ∧ le.apply ls.lines ≠ [] ∧
      joinLines (le.apply ls.lines) = patch ls.text 0 (groups.map Group.normalized) ∧
      e.apply ls.text = patch ls.text 0 (groups.map Group.replacement) := by
  obtain ⟨textEdits, isText, spans⟩ := fromOffsetEdit_eq valid
  obtain ⟨groups, isSome, grouped⟩ := fromTextEditLoop_eq spans .nil valid.within (fun _ => rfl)
  have plains := grouped.within 1 (by omega) (by
    intro t isFirst
    cases textEdits with
    | nil => cases isFirst
    | cons first rest =>
      cases isFirst
      obtain ⟨r, patches, own, -, -⟩ := forall₂_cons_left_iff.mp spans
      obtain ⟨front, line, back, column, -, -, isPosition, -⟩ := own.start
      have isLine := congrArg Position.lineNumber isPosition
      simp only [Range.getStartPosition] at isLine
      omega)
  obtain ⟨wides, same⟩ := Grouped.patch_plain grouped.converts plains
  have widened := Grouped.patch_wide grouped.converts (le_refl 0) wides
  obtain ⟨narrows, narrowed⟩ := @Grouped.patch_narrow ls groups grouped.converts 0 plains
  have edited := grouped.same _ 0 (le_refl 0) valid.within
  have sorted : areSorted (groups.map (·.narrow)) = true := by
    apply @areSorted_of_within _ (ls.lines.length + 1) 1
    rw [map_map]
    exact narrows
  have validOn : ValidOn ⟨groups.map (·.narrow), sorted⟩ ls.lines := by
    intro narrow member
    obtain ⟨group, inGroups, rfl⟩ := mem_map.mp member
    have converts := grouped.converts group inGroups
    exact ⟨le_trans converts.first converts.narrows.start,
      le_trans converts.narrows.stop converts.bounded⟩
  have lines : apply ⟨groups.map (·.narrow), sorted⟩ ls.lines =
      patch ls.lines 1 (groups.map (·.plain.replacement)) := by
    rw [apply_eq validOn, map_map]
    exact narrowed.symm
  refine ⟨⟨groups.map (·.narrow), sorted⟩, groups, ?_, ?_, ?_, ?_⟩
  · rw [fromEdit, isText]
    simp only [Option.bind_eq_bind, Option.bind_some]
    rw [fromTextEdit, isSome]
    simp only [Option.bind_eq_bind, Option.bind_some]
    rw [new, dif_pos sorted]
  · rw [lines]
    cases groups with
    | nil => exact ls.nonempty
    | cons group groups =>
      have some := (grouped.converts group (by simp)).nonempty
      rw [map_cons, patch_cons]
      simp [SingleLineEdit.replacement, some]
  · rw [lines, ← same]
    exact widened.symm
  · rw [OffsetEdit.apply_eq valid.within]
    exact edited

/-- The lines follow the text exactly when no new text brings a carriage return. -/
theorem fromEdit_iff (valid : e.ValidOn ls.text) :
    (∃ le, fromEdit e ls.text = some le ∧ (le.apply ls.lines ≠ [] →
      joinLines (le.apply ls.lines) = e.apply ls.text)) ↔ e.BringsNoCR := by
  obtain ⟨le, groups, isSome, nonempty, lines, text⟩ := fromEdit_eq valid
  have edited : e.apply ls.text = patch ls.text 0 (asPatch e.edits) :=
    OffsetEdit.apply_eq valid.within
  constructor
  · rintro ⟨other, isOther, same⟩
    rw [isSome] at isOther
    cases isOther
    intro edit member inText
    have inResult : CR ∈ e.apply ls.text := by
      rw [edited]
      exact mem_patch_of_mem_text (mem_map_of_mem member) inText
    rw [← same nonempty, lines] at inResult
    rcases mem_patch inResult with inLines | ⟨r, inGroups, inNew⟩
    · exact ls.CR_not_mem inLines
    · obtain ⟨group, -, rfl⟩ := mem_map.mp inGroups
      exact CR_not_mem_joinLines (fun _ inSplit => CR_not_mem_splitLines inSplit) inNew
  · intro noCR
    refine ⟨le, isSome, fun _ => ?_⟩
    have normal : groups.map Group.normalized = groups.map Group.replacement := by
      apply map_congr_left
      intro group inGroups
      have plain : CR ∉ group.replacement.text := by
        intro inText
        have inResult : CR ∈ patch ls.text 0 (asPatch e.edits) := by
          rw [← edited, text]
          exact mem_patch_of_mem_text (mem_map_of_mem inGroups) inText
        rcases mem_patch inResult with inLines | ⟨r, inPatch, inNew⟩
        · exact ls.CR_not_mem inLines
        · obtain ⟨edit, inEdits, rfl⟩ := mem_map.mp inPatch
          exact noCR edit inEdits inNew
      rw [Group.normalized, joinLines_splitLines_eq _ plain]
    rw [lines, text, normal]

/-! ## Both directions -/

/-- When line edits and text edits agree. From the text to the lines: exactly when no new
text brings a carriage return. From the lines to the text: exactly when no edit deletes
all lines, and no edit that deletes the lines from a line on has an edit right in front of
it that only inserts or only deletes. -/
theorem line_edits_and_text_edits_agree_iff (ls : Lines) :
    (∀ e : OffsetEdit, e.ValidOn ls.text →
      ((∃ le, fromEdit e ls.text = some le ∧ (le.apply ls.lines ≠ [] →
        joinLines (le.apply ls.lines) = e.apply ls.text)) ↔ e.BringsNoCR)) ∧
    (∀ le : LineEdit, le.ValidOn ls.lines → le.apply ls.lines ≠ [] →
      ((∃ edit, le.toEdit ls.text = some edit ∧
        edit.apply ls.text = joinLines (le.apply ls.lines)) ↔
      (∀ edit ∈ le.edits, ¬edit.DeletesAll ls.lines) ∧
        le.edits.IsChain fun a b => ¬SingleLineEdit.Collides ls.lines a b)) :=
  ⟨fun _ valid => fromEdit_iff valid, fun _ valid nonempty => toEdit_iff valid nonempty⟩

/-- The lines `a`, `b` and `c`. -/
def threeLines : Lines := ⟨[[97], [98], [99]], by decide, by decide⟩

/-- A line is inserted behind line 1 as text; line 2 is replaced and line 3 is deleted as
lines. -/
theorem line_edits_and_text_edits_agree_sample :
    (∃ le, fromEdit ⟨[⟨⟨1, 1, by decide⟩, [LF, 120]⟩], by decide⟩ threeLines.text = some le ∧
      (le.apply threeLines.lines ≠ [] → joinLines (le.apply threeLines.lines) =
        OffsetEdit.apply ⟨[⟨⟨1, 1, by decide⟩, [LF, 120]⟩], by decide⟩ threeLines.text)) ∧
    ∃ edit, toEdit ⟨[⟨⟨2, 3, by decide⟩, [[120]]⟩, ⟨⟨3, 4, by decide⟩, []⟩], by decide⟩
        threeLines.text = some edit ∧
      edit.apply threeLines.text = joinLines [[97], [120]] :=
  ⟨((line_edits_and_text_edits_agree_iff threeLines).1
      ⟨[⟨⟨1, 1, by decide⟩, [LF, 120]⟩], by decide⟩ (by simp [OffsetEdit.ValidOn]; decide)).mpr
      (by decide),
    ((line_edits_and_text_edits_agree_iff threeLines).2
      ⟨[⟨⟨2, 3, by decide⟩, [[120]]⟩, ⟨⟨3, 4, by decide⟩, []⟩], by decide⟩ (by decide)
      (by decide)).mpr (by decide)⟩

/-- Lines 2 and 3 are deleted by two edits: the second one starts with the line break that
the first one deletes, and the edit of the text cannot be built. -/
theorem neighbouring_deletions_throw :
    LineEdit.ValidOn ⟨[⟨⟨2, 3, by decide⟩, []⟩, ⟨⟨3, 4, by decide⟩, []⟩], by decide⟩
        threeLines.lines ∧
      apply ⟨[⟨⟨2, 3, by decide⟩, []⟩, ⟨⟨3, 4, by decide⟩, []⟩], by decide⟩
        threeLines.lines = [[97]] ∧
      toEdit ⟨[⟨⟨2, 3, by decide⟩, []⟩, ⟨⟨3, 4, by decide⟩, []⟩], by decide⟩
        threeLines.text = none := by
  decide

end LineEdit

end CodeEditor.Edits
