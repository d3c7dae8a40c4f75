import CodeEditor.Foundation.Surrogates

/-!
# Line breaks of monospace text

Model of `createLineBreaks` in `monospaceLineBreaksComputer.ts` and of the data it returns.
A full width character takes a whole number of columns, so all columns are whole numbers, which
doubles add exactly; with another ratio the program adds rounded columns, which the model leaves
out. The classifier of the characters is a parameter. No list of injected texts is the empty list.
-/

namespace CodeEditor.ViewModel

open List Option Bool

inductive CharacterClass where
  | NONE
  | BREAK_BEFORE
  | BREAK_AFTER
  | BREAK_IDEOGRAPHIC
deriving DecidableEq, Repr

inductive WrappingIndent where
  | None
  | Same
  | Indent
  | DeepIndent
deriving DecidableEq, Repr

inductive InjectedTextCursorStops where
  | Both
  | Right
  | Left
  | None
deriving DecidableEq, Repr

structure InjectedTextOptions where
  content : Text
  cursorStops : Option InjectedTextCursorStops
deriving DecidableEq, Repr

structure LineInjectedText where
  column : Nat
  options : InjectedTextOptions
deriving DecidableEq, Repr

structure ModelLineProjectionData where
  injectionOffsets : Option (List Nat)
  injectionOptions : Option (List InjectedTextOptions)
  breakOffsets : List Nat
  breakOffsetsVisibleColumn : List Int
  wrappedTextIndentLength : Nat
deriving DecidableEq, Repr

/-- The loop of `applyInjectedText`, behind `lastOriginalOffset`. -/
def applyInjectedTextLoop (lineText : Text) : List LineInjectedText → Nat → Text
  | [], lastOriginalOffset => lineText.drop lastOriginalOffset
  | injectedText :: injectedTexts, lastOriginalOffset =>
    substring lineText lastOriginalOffset (injectedText.column - 1) ++
      injectedText.options.content ++
        applyInjectedTextLoop lineText injectedTexts (injectedText.column - 1)

def applyInjectedText (lineText : Text) (injectedTexts : List LineInjectedText) : Text :=
  applyInjectedTextLoop lineText injectedTexts 0

/-! ## Widths -/

def isFullWidthCharacter (charCode : CodeUnit) : Bool :=
  (0x2E80 ≤ charCode && charCode ≤ 0xD7AF) || (0xF900 ≤ charCode && charCode ≤ 0xFAFF) ||
    (0xFF01 ≤ charCode && charCode ≤ 0xFF5E)

/-- A tab. -/
def TAB : CodeUnit := 9

/-- A space. -/
def SPACE : CodeUnit := 32

/-- How a line is measured. The program divides the widths of two characters to know how many
columns a full width character takes; here this is a whole number. -/
structure Metrics where
  tabSize : Nat
  columnsForFullWidthChar : Nat

namespace Metrics

variable (m : Metrics)

def computeCharWidth (charCode : CodeUnit) (visibleColumn : Int) : Int :=
  if charCode = TAB then m.tabSize - visibleColumn % m.tabSize
  else if isFullWidthCharacter charCode then m.columnsForFullWidthChar
  else if charCode < 32 then m.columnsForFullWidthChar
  else 1

def tabCharacterWidth (visibleColumn tabSize : Nat) : Nat := tabSize - visibleColumn % tabSize

def firstNonWhitespaceIndex (text : Text) : Option Nat :=
  text.findIdx? fun charCode => charCode ≠ SPACE ∧ charCode ≠ TAB

def computeWrappedTextIndentLength (lineText : Text) (firstLineBreakColumn : Int)
    (wrappingIndent : WrappingIndent) : Nat :=
  if wrappingIndent = .None then 0
  else
    match firstNonWhitespaceIndex lineText with
    | none => 0
    | some firstNonWhitespaceIndex =>
      let existing := (lineText.take firstNonWhitespaceIndex).foldl (fun length charCode =>
        length + if charCode = TAB then tabCharacterWidth length m.tabSize else 1) 0
      let numberOfAdditionalTabs :=
        if wrappingIndent = .DeepIndent then 2 else if wrappingIndent = .Indent then 1 else 0
      let length := (List.range numberOfAdditionalTabs).foldl (fun length _ =>
        length + tabCharacterWidth length m.tabSize) existing
      -- not even one character would fit
      if length + m.columnsForFullWidthChar > firstLineBreakColumn then 0 else length

end Metrics

def canBreak (prevCharCodeClass : CharacterClass) (charCode : CodeUnit)
    (charCodeClass : CharacterClass) (isKeepAll : Bool) : Bool :=
  charCode ≠ SPACE ∧
    ((prevCharCodeClass = .BREAK_AFTER ∧ charCodeClass ≠ .BREAK_AFTER) ∨
      (prevCharCodeClass ≠ .BREAK_BEFORE ∧ charCodeClass = .BREAK_BEFORE) ∨
      (¬isKeepAll ∧ prevCharCodeClass = .BREAK_IDEOGRAPHIC ∧ charCodeClass ≠ .BREAK_AFTER) ∨
      (¬isKeepAll ∧ charCodeClass = .BREAK_IDEOGRAPHIC ∧ prevCharCodeClass ≠ .BREAK_BEFORE))

/-! ## The loop -/

/-- The variables of the loop. -/
structure LineBreaks where
  breakingOffsets : List Nat
  breakingOffsetsVisibleColumn : List Int
  breakOffset : Nat
  breakOffsetVisibleColumn : Int
  breakingColumn : Int
  prevCharCodeClass : CharacterClass
  visibleColumn : Int

section Loop

variable (m : Metrics) (classifier : CodeUnit → CharacterClass) (isKeepAll : Bool)
  (wrappedLineBreakColumn : Int)

/-- One turn of the loop, for a character of a class and a width. -/
def LineBreaks.turn (s : LineBreaks) (charStartOffset : Nat) (charCode : CodeUnit)
    (charCodeClass : CharacterClass) (charWidth : Int) : LineBreaks :=
  let s :=
    if canBreak s.prevCharCodeClass charCode charCodeClass isKeepAll then
      { s with breakOffset := charStartOffset, breakOffsetVisibleColumn := s.visibleColumn }
    else s
  let visibleColumn := s.visibleColumn + charWidth
  if visibleColumn > s.breakingColumn then
    let (breakOffset, breakOffsetVisibleColumn) :=
      if s.breakOffset = 0 ∨
          visibleColumn - s.breakOffsetVisibleColumn > wrappedLineBreakColumn then
        -- the break has to be right in front of this character
        (charStartOffset, visibleColumn - charWidth)
      else (s.breakOffset, s.breakOffsetVisibleColumn)
    { breakingOffsets := s.breakingOffsets ++ [breakOffset]
      breakingOffsetsVisibleColumn := s.breakingOffsetsVisibleColumn ++ [breakOffsetVisibleColumn]
      breakOffset := 0
      breakOffsetVisibleColumn
      breakingColumn := breakOffsetVisibleColumn + wrappedLineBreakColumn
      prevCharCodeClass := charCodeClass
      visibleColumn }
  else { s with prevCharCodeClass := charCodeClass, visibleColumn }

/-- The loop from the offset `i` on, with the text behind it. -/
def LineBreaks.loop : Text → (i : Nat) → LineBreaks → LineBreaks
  | [], _, s => s
  | [charCode], i, s =>
    if isHighSurrogate charCode then
      s.turn isKeepAll wrappedLineBreakColumn i charCode .NONE 2
    else s.turn isKeepAll wrappedLineBreakColumn i charCode (classifier charCode)
      (m.computeCharWidth charCode s.visibleColumn)
  | charCode :: next :: text, i, s =>
    -- a surrogate pair is a single unit
    if isHighSurrogate charCode then
      loop text (i + 2) (s.turn isKeepAll wrappedLineBreakColumn i charCode .NONE 2)
    else
      loop (next :: text) (i + 1)
        (s.turn isKeepAll wrappedLineBreakColumn i charCode (classifier charCode)
          (m.computeCharWidth charCode s.visibleColumn))

/-- The variables in front of the loop, and the offset where it starts. -/
def LineBreaks.start (lineText : Text) (firstLineBreakColumn : Int) : LineBreaks × Nat :=
  let prevCharCode := lineText[0]?.getD 0
  let width := m.computeCharWidth prevCharCode 0
  if isHighSurrogate prevCharCode then
    (⟨[], [], 0, 0, firstLineBreakColumn, classifier (lineText[1]?.getD 0), width + 1⟩, 2)
  else (⟨[], [], 0, 0, firstLineBreakColumn, classifier prevCharCode, width⟩, 1)

def createLineBreaks (lineText : Text) (injectedTexts : List LineInjectedText)
    (firstLineBreakColumn : Int) (wrappingIndent : WrappingIndent) :
    Option ModelLineProjectionData :=
  let lineText := applyInjectedText lineText injectedTexts
  let injects := 0 < injectedTexts.length
  let injectionOptions := if injects then some (injectedTexts.map (·.options)) else none
  let injectionOffsets := if injects then some (injectedTexts.map (·.column - 1)) else none
  if firstLineBreakColumn = -1 ∨ lineText.length ≤ 1 then
    if injects then some ⟨injectionOffsets, injectionOptions, [lineText.length], [], 0⟩ else none
  else
    let wrappedTextIndentLength :=
      m.computeWrappedTextIndentLength lineText firstLineBreakColumn wrappingIndent
    let (s, startOffset) := LineBreaks.start m classifier lineText firstLineBreakColumn
    let s := s.loop m classifier isKeepAll (firstLineBreakColumn - wrappedTextIndentLength)
      (lineText.drop startOffset) startOffset
    if s.breakingOffsets.length = 0 ∧ ¬injects then none
    else
      some ⟨injectionOffsets, injectionOptions, s.breakingOffsets ++ [lineText.length],
        s.breakingOffsetsVisibleColumn ++ [s.visibleColumn], wrappedTextIndentLength⟩

end Loop

/-!
## The lines fit

Every line up to the current character fits or is a single character; so is the part behind the
last break, up to a remembered offset and up to the current character.
-/

/-- One code unit, or a surrogate pair. -/
def IsCharacter (text : Text) : Prop :=
  (∃ charCode, text = [charCode]) ∨
    ∃ high low, text = [high, low] ∧ isHighSurrogate high = true ∧ isLowSurrogate low = true

/-- The offset lies between the two halves of a surrogate pair. -/
def InsidePair (text : Text) (offset : Nat) : Prop :=
  ∃ high low, text[offset - 1]? = some high ∧ text[offset]? = some low ∧
    isHighSurrogate high = true ∧ isLowSurrogate low = true

namespace Metrics

variable (m : Metrics)

/-- The column behind a text that starts in a column. -/
def columnFrom : Int → Text → Int
  | column, [] => column
  | column, [charCode] => column + m.computeCharWidth charCode column
  | column, charCode :: next :: text =>
    if isHighSurrogate charCode then columnFrom (column + 2) text
    else columnFrom (column + m.computeCharWidth charCode column) (next :: text)

/-- The visible column of an offset of the text. -/
def visibleColumn (text : Text) (offset : Nat) : Int := m.columnFrom 0 (text.take offset)

/-- The line between two offsets is no wider than the limit, or a single character. -/
def Fits (text : Text) (limit : Int) (start stop : Nat) : Prop :=
  m.visibleColumn text stop - m.visibleColumn text start ≤ limit ∨
    IsCharacter ((text.take stop).drop start)

/-- The offsets cut a text into lines that fit, and no surrogate pair is cut. -/
structure Partitions (text : Text) (firstLine wrappedLine : Int) (offsets : List Nat) : Prop where
  ascending : (0 :: offsets).Pairwise (· < ·)
  last : offsets.getLast? = some text.length
  apart : ∀ offset ∈ offsets, ¬InsidePair text offset
  fits : ∀ k start stop : Nat, (0 :: offsets)[k]? = some start → offsets[k]? = some stop →
    m.Fits text (if k = 0 then firstLine else wrappedLine) start stop

theorem columnFrom_append {first second : Text} (wellFormed : isWellFormed first = true) :
    m.columnFrom column (first ++ second) = m.columnFrom (m.columnFrom column first) second := by
  induction first using isWellFormed.induct generalizing column with
  | case1 => rfl
  | case2 unit =>
    simp only [isWellFormed, and_eq_true, not_eq_true'] at wellFormed
    cases second with
    | nil => rfl
    | cons next second =>
      simp [columnFrom, wellFormed.1]
  | case3 unit next text high ih =>
    simp only [isWellFormed, high, if_true, and_eq_true] at wellFormed
    simp only [cons_append, columnFrom, high, if_true]
    exact ih wellFormed.2
  | case4 unit next text notHigh ih =>
    simp only [isWellFormed, notHigh, false_eq_true, if_false, and_eq_true] at wellFormed
    simp only [cons_append, columnFrom, notHigh, false_eq_true, if_false]
    exact ih wellFormed.2

end Metrics

theorem not_high_of_getLast? {text : Text} (wellFormed : isWellFormed text = true)
    (isLast : text.getLast? = some last) : isHighSurrogate last = false := by
  induction text using isWellFormed.induct with
  | case1 => simp at isLast
  | case2 unit =>
    simp only [isWellFormed, and_eq_true, not_eq_true'] at wellFormed
    obtain rfl : unit = last := by simpa using isLast
    exact wellFormed.1
  | case3 unit next text high ih =>
    simp only [isWellFormed, high, if_true, and_eq_true] at wellFormed
    cases text with
    | nil =>
      obtain rfl : next = last := by simpa using isLast
      by_contra isHigh
      have isLow := wellFormed.1
      simp only [isHighSurrogate, isLowSurrogate, and_eq_true, decide_eq_true_eq,
        UInt16.le_iff_toNat_le] at isHigh isLow
      simp at isHigh isLow
      omega
    | cons unit text => exact ih wellFormed.2 (by simpa using isLast)
  | case4 unit next text notHigh ih =>
    simp only [isWellFormed, notHigh, false_eq_true, if_false, and_eq_true] at wellFormed
    exact ih wellFormed.2 (by simpa using isLast)

theorem not_insidePair {first second : Text} (wellFormed : isWellFormed first = true)
    (nonempty : first ≠ []) : ¬InsidePair (first ++ second) first.length := by
  rintro ⟨high, low, isHigh, -, high', -⟩
  have positive := length_pos_iff.mpr nonempty
  rw [getElem?_append_left (by omega), ← getLast?_eq_getElem?] at isHigh
  rw [not_high_of_getLast? wellFormed isHigh] at high'
  contradiction

theorem isWellFormed_append {first second : Text} (wellFormed : isWellFormed first = true) :
    isWellFormed (first ++ second) = isWellFormed second := by
  induction first using isWellFormed.induct with
  | case1 => rfl
  | case2 unit =>
    simp only [isWellFormed, and_eq_true, not_eq_true'] at wellFormed
    cases second with
    | nil => simp [isWellFormed, wellFormed]
    | cons next second => simp [isWellFormed, wellFormed]
  | case3 unit next text high ih =>
    simp only [isWellFormed, high, if_true, and_eq_true] at wellFormed
    simp [isWellFormed, high, wellFormed.1, ih wellFormed.2]
  | case4 unit next text notHigh ih =>
    simp only [isWellFormed, notHigh, false_eq_true, if_false, and_eq_true,
      not_eq_true'] at wellFormed
    have rest := ih wellFormed.2
    rw [cons_append] at rest
    simp [isWellFormed, notHigh, wellFormed.1, rest]

section Invariant

variable (m : Metrics) (text : Text) (firstLine wrappedLine : Int)

/-- The lines up to the last break, and the limit of the line behind it. -/
inductive Broken : List Nat → (last : Nat) → (limit : Int) → Prop where
  | start : Broken [] 0 firstLine
  | line {offsets : List Nat} {last stop : Nat} {limit : Int} (broken : Broken offsets last limit)
      (ordered : last < stop) (apart : ¬InsidePair text stop)
      (fits : m.Fits text limit last stop) :
      Broken (offsets ++ [stop]) stop wrappedLine

/-- What holds in front of the character at `i`. -/
structure LineBreaks.Ok (s : LineBreaks) (i last : Nat) (limit : Int) : Prop where
  broken : Broken m text firstLine wrappedLine s.breakingOffsets last limit
  columns : s.breakingOffsetsVisibleColumn = s.breakingOffsets.map (m.visibleColumn text)
  here : s.visibleColumn = m.visibleColumn text i
  breakingColumn : s.breakingColumn = m.visibleColumn text last + limit
  behind : last < i
  apart : ¬InsidePair text i
  fits : m.Fits text limit last i
  remembered : s.breakOffset ≠ 0 → last < s.breakOffset ∧ s.breakOffset ≤ i ∧
    ¬InsidePair text s.breakOffset ∧ m.Fits text limit last s.breakOffset ∧
      s.breakOffsetVisibleColumn = m.visibleColumn text s.breakOffset

variable {m text firstLine wrappedLine}

theorem LineBreaks.Ok.turn {s : LineBreaks}
    (ok : s.Ok m text firstLine wrappedLine i last limit) (isKeepAll : Bool) (charCode : CodeUnit)
    (charCodeClass : CharacterClass) {charWidth : Int} {next : Nat} (later : i < next)
    (width : m.visibleColumn text next = m.visibleColumn text i + charWidth)
    (isCharacter : IsCharacter ((text.take next).drop i)) (apart : ¬InsidePair text next) :
    ∃ last limit, (s.turn isKeepAll wrappedLine i charCode charCodeClass charWidth).Ok m text
      firstLine wrappedLine next last limit := by
  unfold LineBreaks.turn
  -- the offset may have been remembered just now
  generalize isNow : (if canBreak s.prevCharCodeClass charCode charCodeClass isKeepAll then
      { s with breakOffset := i, breakOffsetVisibleColumn := s.visibleColumn } else s) = t
  have okNow : t.Ok m text firstLine wrappedLine i last limit := by
    rw [← isNow]
    split_ifs
    · exact { ok with remembered := fun _ => ⟨ok.behind, le_rfl, ok.apart, ok.fits, ok.here⟩ }
    · exact ok
  have column : t.visibleColumn + charWidth = m.visibleColumn text next := by
    rw [okNow.here, width]
  by_cases wide : t.visibleColumn + charWidth > t.breakingColumn
  · dsimp only
    rw [if_pos wide]
    by_cases forced : t.breakOffset = 0 ∨
        t.visibleColumn + charWidth - t.breakOffsetVisibleColumn > wrappedLine
    · rw [if_pos forced]
      have isHere : t.visibleColumn + charWidth - charWidth = m.visibleColumn text i := by
        rw [okNow.here]
        ring
      refine ⟨i, wrappedLine, ⟨.line okNow.broken okNow.behind okNow.apart okNow.fits, ?_, column,
        ?_, later, apart, .inr isCharacter, fun absurd => (absurd rfl).elim⟩⟩
      · rw [map_append, okNow.columns, isHere]
        rfl
      · rw [isHere]
    · rw [if_neg forced]
      obtain ⟨remembers, shorter⟩ := not_or.mp forced
      obtain ⟨isLater, upTo, isApart, isFitting, isColumn⟩ := okNow.remembered remembers
      refine ⟨t.breakOffset, wrappedLine, ⟨.line okNow.broken isLater isApart isFitting, ?_, column,
        ?_, upTo.trans_lt later, apart, .inl ?_, fun absurd => (absurd rfl).elim⟩⟩
      · rw [map_append, okNow.columns, isColumn]
        rfl
      · rw [isColumn]
      · rw [column, isColumn] at shorter
        exact not_lt.mp shorter
  · dsimp only
    rw [if_neg wide]
    refine ⟨last, limit, ⟨okNow.broken, okNow.columns, column, okNow.breakingColumn,
      okNow.behind.trans later, apart, .inl ?_, fun remembers => ?_⟩⟩
    · rw [column, okNow.breakingColumn] at wide
      linarith
    · obtain ⟨isLater, upTo, rest⟩ := okNow.remembered remembers
      exact ⟨isLater, upTo.trans later.le, rest⟩

/-- A text behind a well-formed front, when its next character has been read. -/
theorem visibleColumn_of_split {first character rest : Text}
    (wellFormed : isWellFormed first = true) (split : text = first ++ (character ++ rest)) :
    m.visibleColumn text (first.length + character.length) =
        m.columnFrom (m.visibleColumn text first.length) character ∧
      (text.take (first.length + character.length)).drop first.length = character := by
  have front : text.take (first.length + character.length) = first ++ character := by
    rw [split, ← append_assoc, ← length_append, take_left]
  refine ⟨?_, by rw [front, drop_left]⟩
  rw [Metrics.visibleColumn, front, m.columnFrom_append wellFormed, Metrics.visibleColumn, split,
    take_left]

variable {classifier : CodeUnit → CharacterClass}

theorem LineBreaks.Ok.loop {isKeepAll : Bool} {rest first : Text} {i : Nat} {s : LineBreaks}
    {last : Nat} {limit : Int} (ok : s.Ok m text firstLine wrappedLine i last limit)
    (split : text = first ++ rest) (length : first.length = i)
    (firstOk : isWellFormed first = true) (restOk : isWellFormed rest = true) :
    ∃ last limit, (s.loop m classifier isKeepAll wrappedLine rest i).Ok m text firstLine wrappedLine
      text.length last limit := by
  -- one character is read
  have reads : ∀ {character later : Text} {charCode : CodeUnit} {charCodeClass : CharacterClass}
      {charWidth : Int} {i : Nat} {s : LineBreaks} {first : Text} {last : Nat} {limit : Int},
      s.Ok m text firstLine wrappedLine i last limit → text = first ++ (character ++ later) →
      first.length = i → isWellFormed first = true → isWellFormed character = true →
      IsCharacter character →
      m.columnFrom s.visibleColumn character = s.visibleColumn + charWidth →
      ∃ last limit, (s.turn isKeepAll wrappedLine i charCode charCodeClass charWidth).Ok m text
        firstLine wrappedLine (i + character.length) last limit := by
    rintro character later charCode charCodeClass charWidth i s first last limit ok split rfl
      firstOk characterOk isCharacter width
    obtain ⟨column, isSlice⟩ := @visibleColumn_of_split m text first character later firstOk split
    have nonempty : character ≠ [] := by
      rcases isCharacter with ⟨unit, rfl⟩ | ⟨high, low, rfl, -⟩ <;> simp
    have positive := length_pos_iff.mpr nonempty
    refine ok.turn isKeepAll charCode charCodeClass (Nat.lt_add_of_pos_right positive) ?_
      (by rw [isSlice]; exact isCharacter) ?_
    · rw [column, ← ok.here, width]
    · rw [split, ← append_assoc, ← length_append]
      apply not_insidePair
      · rw [isWellFormed_append firstOk, characterOk]
      · simp [nonempty]
  induction rest using isWellFormed.induct generalizing first i s last limit with
  | case1 =>
    obtain rfl : text = first := by rw [split, append_nil]
    exact ⟨last, limit, length ▸ ok⟩
  | case2 unit =>
    have plain : isHighSurrogate unit = false := by
      simp only [isWellFormed, and_eq_true, not_eq_true'] at restOk
      exact restOk.1
    have whole : text.length = i + [unit].length := by rw [split, length_append, length]
    simp only [LineBreaks.loop, plain, false_eq_true, if_false, whole]
    exact reads ok (by rw [split, append_nil]) length firstOk restOk (.inl ⟨unit, rfl⟩) rfl
  | case3 unit next later high ih =>
    simp only [isWellFormed, high, if_true, and_eq_true] at restOk
    have pairOk : isWellFormed [unit, next] = true := by
      simp [isWellFormed, high, restOk.1]
    simp only [LineBreaks.loop, high, if_true]
    obtain ⟨last, limit, okNow⟩ := @reads [unit, next] later unit .NONE 2 i s first last limit ok
      split length firstOk pairOk (.inr ⟨unit, next, rfl, high, restOk.1⟩)
      (by simp [Metrics.columnFrom, high])
    exact @ih (first ++ [unit, next]) (i + 2) _ last limit okNow
      (by rw [split, append_assoc]; rfl) (by rw [length_append, length]; rfl)
      (by rw [isWellFormed_append firstOk, pairOk]) restOk.2
  | case4 unit next later notHigh ih =>
    simp only [isWellFormed, notHigh, false_eq_true, if_false, and_eq_true, not_eq_true'] at restOk
    have plain : isHighSurrogate unit = false := by simpa using notHigh
    have unitOk : isWellFormed [unit] = true := by simp [isWellFormed, plain, restOk.1]
    simp only [LineBreaks.loop, plain, false_eq_true, if_false]
    obtain ⟨last, limit, okNow⟩ := @reads [unit] (next :: later) unit (classifier unit)
      (m.computeCharWidth unit s.visibleColumn) i s first last limit ok split length firstOk
      unitOk (.inl ⟨unit, rfl⟩) rfl
    exact @ih (first ++ [unit]) (i + 1) _ last limit okNow
      (by rw [split, append_assoc]; rfl) (by rw [length_append, length]; rfl)
      (by rw [isWellFormed_append firstOk, unitOk]) restOk.2

section

variable (broken : Broken m text firstLine wrappedLine offsets last limit)

include broken

theorem Broken.limit_eq : limit = (if offsets.length = 0 then firstLine else wrappedLine) ∧
      (0 :: offsets)[offsets.length]? = some last := by
  cases broken with
  | start => simp
  | line => simp

theorem Broken.fits {k start stop : Nat} (isStart : (0 :: offsets)[k]? = some start)
    (isStop : offsets[k]? = some stop) :
    m.Fits text (if k = 0 then firstLine else wrappedLine) start stop := by
  induction broken with
  | start => simp at isStop
  | @line offsets last stop' limit broken ordered apart fits ih =>
    rw [← cons_append] at isStart
    rcases Nat.lt_trichotomy k offsets.length with less | rfl | more
    · rw [getElem?_append_left (by simp; omega)] at isStart
      rw [getElem?_append_left less] at isStop
      exact ih isStart isStop
    · obtain ⟨isLimit, isLast⟩ := broken.limit_eq
      rw [getElem?_append_left (by simp), isLast] at isStart
      obtain rfl := Option.some.inj isStart
      obtain rfl : stop' = stop := by simpa using isStop
      exact isLimit ▸ fits
    · rw [getElem?_eq_none (by simp; omega)] at isStop
      simp at isStop

theorem Broken.apart : ∀ offset ∈ offsets, ¬InsidePair text offset := by
  induction broken with
  | start => simp
  | line broken ordered apart fits ih =>
    intro offset isMember
    rcases mem_append.mp isMember with isOld | isNew
    · exact ih offset isOld
    · rwa [mem_singleton.mp isNew]

theorem Broken.ascending :
    (0 :: offsets).Pairwise (· < ·) ∧ ∀ offset ∈ 0 :: offsets, offset ≤ last := by
  induction broken with
  | start => simp
  | @line offsets last stop limit broken ordered apart fits ih =>
    obtain ⟨ascending, bounded⟩ := ih
    rw [← cons_append]
    refine ⟨pairwise_append.mpr ⟨ascending, pairwise_singleton _ _, ?_⟩, ?_⟩
    · intro offset isOld other isNew
      rw [mem_singleton.mp isNew]
      exact (bounded offset isOld).trans_lt ordered
    · intro offset isMember
      rcases mem_append.mp isMember with isOld | isNew
      · exact ((bounded offset isOld).trans_lt ordered).le
      · exact (mem_singleton.mp isNew).le

/-- With the line behind the last break, the text is partitioned. -/
theorem Broken.partitions (ordered : last < text.length)
    (fits : m.Fits text limit last text.length) :
    m.Partitions text firstLine wrappedLine (offsets ++ [text.length]) := by
  have whole : Broken m text firstLine wrappedLine (offsets ++ [text.length])
      text.length wrappedLine := by
    refine .line broken ordered ?_ fits
    rintro ⟨high, low, -, isLow, -⟩
    simp at isLow
  exact ⟨whole.ascending.1, getLast?_concat, whole.apart, fun k start stop => whole.fits⟩

end

/-- In front of the second character, everything is one line. -/
theorem LineBreaks.start_ok {firstLineBreakColumn : Int} (wellFormed : isWellFormed text = true)
    (long : 1 < text.length) : ∃ first rest, text = first ++ rest ∧
      first.length = (LineBreaks.start m classifier text firstLineBreakColumn).2 ∧
      isWellFormed first = true ∧ isWellFormed rest = true ∧
      (LineBreaks.start m classifier text firstLineBreakColumn).1.Ok m text firstLineBreakColumn
        wrappedLine first.length 0 firstLineBreakColumn := by
  have opens : ∀ {character rest : Text} {charClass : CharacterClass} {width : Int},
      text = character ++ rest → isWellFormed character = true → IsCharacter character →
      m.columnFrom 0 character = width →
      LineBreaks.Ok m text firstLineBreakColumn wrappedLine
        ⟨[], [], 0, 0, firstLineBreakColumn, charClass, width⟩ character.length 0
        firstLineBreakColumn := by
    intro character rest charClass width split characterOk isCharacter isWidth
    have nonempty : character ≠ [] := by
      rcases isCharacter with ⟨unit, rfl⟩ | ⟨high, low, rfl, -⟩ <;> simp
    refine ⟨.start, rfl, ?_, ?_, length_pos_iff.mpr nonempty, ?_, .inr ?_,
      fun absurd => (absurd rfl).elim⟩
    · rw [Metrics.visibleColumn, split, take_left, isWidth]
    · simp [Metrics.visibleColumn, Metrics.columnFrom]
    · rw [split]
      exact not_insidePair characterOk nonempty
    · rwa [split, take_left, drop_zero]
  obtain ⟨unit, tail, rfl⟩ := exists_cons_of_length_pos (Nat.zero_lt_of_lt long)
  cases tail with
  | nil => simp at long
  | cons next rest =>
    cases high : isHighSurrogate unit with
    | true =>
      simp only [isWellFormed, high, if_true, and_eq_true] at wellFormed
      have pairOk : isWellFormed [unit, next] = true := by
        simp [isWellFormed, high, wellFormed.1]
      simp only [LineBreaks.start, getElem?_cons_zero, getD_some, high, if_true]
      refine ⟨[unit, next], rest, rfl, rfl, pairOk, wellFormed.2,
        opens rfl pairOk (.inr ⟨unit, next, rfl, high, wellFormed.1⟩) ?_⟩
      -- a high surrogate alone would take one column
      have single : m.computeCharWidth unit 0 = 1 := by
        simp only [isHighSurrogate, and_eq_true, decide_eq_true_eq, UInt16.le_iff_toNat_le] at high
        simp at high
        have notTab : unit ≠ TAB := by
          rintro rfl
          simp [TAB] at high
        have narrow : isFullWidthCharacter unit = false := by
          simp [isFullWidthCharacter, UInt16.le_iff_toNat_le]
          omega
        have printable : ¬unit < 32 := by
          simp [UInt16.lt_iff_toNat_lt]
          omega
        simp [Metrics.computeCharWidth, notTab, narrow, printable]
      rw [single]
      simp [Metrics.columnFrom, high]
    | false =>
      simp only [isWellFormed, high, false_eq_true, if_false, and_eq_true,
        not_eq_true'] at wellFormed
      have unitOk : isWellFormed [unit] = true := by simp [isWellFormed, high, wellFormed.1]
      simp only [LineBreaks.start, getElem?_cons_zero, getD_some, high, false_eq_true, if_false]
      exact ⟨[unit], next :: rest, rfl, rfl, unitOk, wellFormed.2,
        opens rfl unitOk (.inl ⟨unit, rfl⟩) (zero_add _)⟩

end Invariant

theorem applyInjectedText_ne_nil {lineText : Text} {injectedTexts : List LineInjectedText}
    (contents : ∀ t ∈ injectedTexts, t.options.content ≠ []) (injects : 0 < injectedTexts.length) :
    applyInjectedText lineText injectedTexts ≠ [] := by
  obtain ⟨injectedText, rest, rfl⟩ := exists_cons_of_length_pos injects
  have content := contents injectedText (by simp)
  simp [applyInjectedText, applyInjectedTextLoop, content]

end CodeEditor.ViewModel
