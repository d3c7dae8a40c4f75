import CodeEditor.Foundation.Text

/-!
# Line breaks by offset

The line breaks of a text are `\r\n`, a `\r` that no `\n` follows, and a `\n`
that no `\r` precedes. Whether a break ends at an offset depends on two
neighbouring code units only (`breakEndsAt`), which is what makes line tables
of prefixes, suffixes and concatenations easy to relate.

`lineIndex` and `lineStart` turn an offset into a zero-based line and the
offset at which that line starts; `lineStartsOf` is the table of all line
starts of a text.
-/

namespace CodeEditor

open List Nat

/-- A line break of the text ends at this offset. -/
def breakEndsAt (text : Text) : Nat → Bool
  | 0 => false
  | offset + 1 =>
    text[offset]? == some LF ||
      (text[offset]? == some CR && text[offset + 1]? != some LF)

/-- The ends of the line breaks that end at or before an offset. -/
def endsUpTo (text : Text) (offset : Nat) : List Nat :=
  (List.range (offset + 1)).filter (breakEndsAt text)

/-- The ends of all line breaks of a text. -/
def breakEnds (text : Text) : List Nat := endsUpTo text text.length

/-- The number of line breaks of a text. -/
def breakCount (text : Text) : Nat := (breakEnds text).length

/-- The zero-based line an offset lies on. -/
def lineIndex (text : Text) (offset : Nat) : Nat :=
  (endsUpTo text offset).length

/-- The start of the line an offset lies on. -/
def lineStart (text : Text) (offset : Nat) : Nat :=
  (endsUpTo text offset).getLastD 0

/-- The starts of all lines of a text. -/
def lineStartsOf (text : Text) : List Nat := 0 :: breakEnds text

@[simp] theorem breakEndsAt_zero (text : Text) :
    breakEndsAt text 0 = false := rfl

theorem breakEndsAt_succ (text : Text) (offset : Nat) :
    breakEndsAt text (offset + 1) =
      (text[offset]? == some LF ||
        (text[offset]? == some CR && text[offset + 1]? != some LF)) := rfl

variable {text : Text} {offset : Nat}

theorem breakEndsAt_of_length_lt (beyond : text.length < offset) :
    breakEndsAt text offset = false := by
  cases offset with
  | zero => rfl
  | succ offset =>
    have none : text[offset]? = none :=
      getElem?_eq_none (by omega)
    simp [breakEndsAt_succ, none]

theorem mem_endsUpTo {offset position : Nat} : position ∈ endsUpTo text offset ↔
      position ≤ offset ∧ breakEndsAt text position = true := by
  simp [endsUpTo]

theorem endsUpTo_succ (text : Text) (offset : Nat) : endsUpTo text (offset + 1) =
      endsUpTo text offset ++
        if breakEndsAt text (offset + 1) then [offset + 1] else [] := by
  unfold endsUpTo
  rw [range_succ, filter_append]
  congr 1
  simp [filter_cons]

@[simp] theorem endsUpTo_zero (text : Text) : endsUpTo text 0 = [] := by
  simp [endsUpTo]

theorem endsUpTo_of_length_le (beyond : text.length ≤ offset) :
    endsUpTo text offset = breakEnds text := by
  induction offset with
  | zero =>
    have empty : text.length = 0 := by omega
    rw [breakEnds, empty]
  | succ offset ih =>
    by_cases last : text.length = offset + 1
    · rw [breakEnds, last]
    · rw [endsUpTo_succ, breakEndsAt_of_length_lt (by omega), ih (by omega)]
      simp

section

variable (text : Text)

theorem endsUpTo_prefix_of_le {first second : Nat} (ordered : first ≤ second) :
    endsUpTo text first <+: endsUpTo text second := by
  obtain ⟨extra, rfl⟩ := Nat.exists_eq_add_of_le ordered
  clear ordered
  induction extra with
  | zero => exact prefix_refl _
  | succ extra ih =>
    rw [← Nat.add_assoc, endsUpTo_succ]
    exact ih.trans (prefix_append _ _)

theorem endsUpTo_prefix_breakEnds (offset : Nat) : endsUpTo text offset <+: breakEnds text := by
  by_cases inside : offset ≤ text.length
  · exact endsUpTo_prefix_of_le text inside
  · have same : endsUpTo text offset = breakEnds text :=
      endsUpTo_of_length_le (by omega)
    exact same ▸ prefix_refl _

theorem endsUpTo_pairwise (offset : Nat) : (endsUpTo text offset).Pairwise (· < ·) :=
  (pairwise_lt_range).filter _

theorem breakEnds_pairwise : (breakEnds text).Pairwise (· < ·) :=
  endsUpTo_pairwise text text.length

theorem lineIndex_mono {first second : Nat} (ordered : first ≤ second) :
    lineIndex text first ≤ lineIndex text second :=
  (endsUpTo_prefix_of_le text ordered).length_le

theorem lineIndex_le_breakCount (offset : Nat) : lineIndex text offset ≤ breakCount text :=
  (endsUpTo_prefix_breakEnds text offset).length_le

theorem lineStart_le (offset : Nat) : lineStart text offset ≤ offset := by
  unfold lineStart
  cases last : (endsUpTo text offset).getLast? with
  | none => simp [getLastD_eq_getLast?, last]
  | some position =>
    have member := mem_of_getLast? last
    have bound := (mem_endsUpTo.mp member).1
    simpa [getLastD_eq_getLast?, last] using bound

@[simp] theorem length_lineStartsOf : (lineStartsOf text).length = breakCount text + 1 := rfl

/-- The line table holds, at the line of an offset, the start of that line. -/
theorem lineStartsOf_getElem?_lineIndex (offset : Nat) :
    (lineStartsOf text)[lineIndex text offset]? = some (lineStart text offset) := by
  obtain ⟨later, equal⟩ := endsUpTo_prefix_breakEnds text offset
  unfold lineStartsOf lineIndex lineStart
  rw [← equal]
  cases last : (endsUpTo text offset).getLast? with
  | none =>
    have empty : endsUpTo text offset = [] := by simpa using last
    simp [empty]
  | some position =>
    obtain ⟨earlier, decomposed⟩ := getLast?_eq_some_iff.mp last
    simp [decomposed]

end

/-- The line after the line of an offset starts behind the offset. -/
theorem lt_of_lineStartsOf_succ {offset next : Nat}
    (present : (lineStartsOf text)[lineIndex text offset + 1]? = some next) : offset < next := by
  obtain ⟨later, equal⟩ := endsUpTo_prefix_breakEnds text offset
  have sorted := breakEnds_pairwise text
  unfold lineStartsOf lineIndex at present
  rw [← equal] at present sorted
  have member : next ∈ later := by
    have : later[0]? = some next := by
      simpa [getElem?_append_right] using present
    exact mem_of_getElem? this
  by_contra inside
  have isEnd : breakEndsAt text next = true := by
    have : next ∈ breakEnds text := by rw [← equal]; simp [member]
    exact (mem_endsUpTo.mp this).2
  have earlier : next ∈ endsUpTo text offset :=
    mem_endsUpTo.mpr ⟨by omega, isEnd⟩
  exact absurd ((pairwise_append.mp sorted).2.2 next earlier next member) (lt_irrefl next)

theorem lineStartsOf_pairwise (text : Text) : (lineStartsOf text).Pairwise (· < ·) := by
  refine pairwise_cons.mpr ⟨?_, breakEnds_pairwise text⟩
  intro position member
  have isEnd := (mem_endsUpTo.mp member).2
  cases position with
  | zero => simp at isEnd
  | succ position => omega

theorem lineStartsOf_strictMono {first second firstStart secondStart : Nat}
    (firstHere : (lineStartsOf text)[first]? = some firstStart)
    (secondHere : (lineStartsOf text)[second]? = some secondStart) (less : first < second) :
    firstStart < secondStart := by
  obtain ⟨firstBound, rfl⟩ := List.getElem?_eq_some_iff.mp firstHere
  obtain ⟨secondBound, rfl⟩ := List.getElem?_eq_some_iff.mp secondHere
  exact List.pairwise_iff_getElem.mp (lineStartsOf_pairwise text)
    first second firstBound secondBound less

/-- A line starts at or before an offset exactly when it is not behind the
line of the offset. -/
theorem lineStart_le_iff {offset line start : Nat}
    (here : (lineStartsOf text)[line]? = some start) :
    start ≤ offset ↔ line ≤ lineIndex text offset := by
  have ownStart := lineStartsOf_getElem?_lineIndex text offset
  have bound := lineStart_le text offset
  rcases lt_trichotomy line (lineIndex text offset) with less | rfl | more
  · have := lineStartsOf_strictMono here ownStart less
    exact ⟨fun _ => less.le, fun _ => by omega⟩
  · rw [here, Option.some.injEq] at ownStart
    exact ⟨fun _ => le_rfl, fun _ => by omega⟩
  · -- the next line starts behind the offset, and `line` not before it
    have inside : lineIndex text offset + 1 < (lineStartsOf text).length := by
      have := (List.getElem?_eq_some_iff.mp here).1
      omega
    obtain ⟨following, next⟩ : ∃ following,
        (lineStartsOf text)[lineIndex text offset + 1]? = some following :=
      ⟨_, List.getElem?_eq_getElem inside⟩
    have behind := lt_of_lineStartsOf_succ next
    refine ⟨fun _ => ?_, fun _ => by omega⟩
    by_cases equal : lineIndex text offset + 1 = line
    · rw [equal, here, Option.some.injEq] at next
      omega
    · have := lineStartsOf_strictMono next here (by omega)
      omega

/-- An offset lies on the line whose start is at or before it and whose
successor starts behind it. -/
theorem lineIndex_eq_of_bounds {offset line start : Nat}
    (here : (lineStartsOf text)[line]? = some start) (atOrAfter : start ≤ offset)
    (beforeNext : ∀ next, (lineStartsOf text)[line + 1]? = some next →
      offset < next) : lineIndex text offset = line := by
  have lower := (lineStart_le_iff here).mp atOrAfter
  by_contra different
  have inside : line + 1 < (lineStartsOf text).length := by
    have := lineIndex_le_breakCount text offset
    rw [length_lineStartsOf]
    omega
  have next := getElem?_eq_getElem inside
  have behind := beforeNext _ next
  have upper := (lineStart_le_iff next).mpr (lt_of_le_of_ne lower (Ne.symm different))
  omega

/-! ## Concatenation -/

theorem breakEndsAt_append_of_lt {first : Text} (second : Text) (inside : offset < first.length) :
    breakEndsAt (first ++ second) offset = breakEndsAt first offset := by
  cases offset with
  | zero => rfl
  | succ offset =>
    rw [breakEndsAt_succ, breakEndsAt_succ, getElem?_append_left (by omega),
      getElem?_append_left (by omega)]

/-- At the joint of two texts the break of the first survives unless a
`\r\n` is cut there. -/
theorem breakEndsAt_append_joint (first second : Text) :
    breakEndsAt (first ++ second) first.length =
      (breakEndsAt first first.length && !splitsCRLF first second) := by
  rcases eq_nil_or_concat' first with rfl | ⟨initial, last, rfl⟩
  · simp
  · have here : (initial ++ [last] ++ second)[initial.length]? = some last := by
      simp
    have next : (initial ++ [last] ++ second)[initial.length + 1]? = second.head? := by
      rw [append_assoc, getElem?_append_right (by omega)]
      simp [head?_eq_getElem?]
    simp only [length_append, length_singleton, breakEndsAt_succ,
      splitsCRLF, endsWithCR_concat, startsWithLF, here, next]
    by_cases isLF : last = LF
    · simp [isLF]
    · have notLF : (last == LF) = false := beq_false_of_ne isLF
      by_cases isCR : last = CR
      · simp [isCR, bne]
      · simp [notLF, beq_false_of_ne isCR]

theorem breakEndsAt_append_right (first second : Text) (positive : 0 < offset) :
    breakEndsAt (first ++ second) (first.length + offset) =
      breakEndsAt second offset := by
  obtain ⟨offset, rfl⟩ := Nat.exists_eq_succ_of_ne_zero (Nat.pos_iff_ne_zero.mp positive)
  rw [show first.length + offset.succ = (first.length + offset) + 1 by omega,
    breakEndsAt_succ, breakEndsAt_succ,
    getElem?_append_right (by omega),
    getElem?_append_right (by omega)]
  simp [Nat.add_assoc]

theorem endsUpTo_append_of_lt {first : Text} (second : Text) (inside : offset < first.length) :
    endsUpTo (first ++ second) offset = endsUpTo first offset := by
  apply filter_congr
  intro position member
  exact breakEndsAt_append_of_lt second (by have := mem_range.mp member; omega)

theorem endsUpTo_append_joint (first second : Text) : endsUpTo (first ++ second) first.length =
      if splitsCRLF first second then (breakEnds first).dropLast
      else breakEnds first := by
  cases length : first.length with
  | zero =>
    have empty : first = [] := eq_nil_of_length_eq_zero length
    simp [empty, breakEnds]
  | succ offset =>
    have joint := breakEndsAt_append_joint first second
    rw [length] at joint
    rw [breakEnds, length, endsUpTo_succ, endsUpTo_succ, joint,
      endsUpTo_append_of_lt second (by omega)]
    cases splits : splitsCRLF first second with
    | false => simp
    | true =>
      have ends : endsWithCR first = true := by
        simp only [splitsCRLF, Bool.and_eq_true] at splits
        exact splits.1
      obtain ⟨initial, rfl⟩ := endsWithCR_iff.mp ends
      have same : initial.length = offset := by simpa using length
      have isEnd : breakEndsAt (initial ++ [CR]) (offset + 1) = true := by
        simp [breakEndsAt_succ, ← same]
      simp [isEnd]

theorem endsUpTo_append_right (first second : Text) (offset : Nat) :
    endsUpTo (first ++ second) (first.length + offset) = endsUpTo (first ++ second) first.length ++
        (endsUpTo second offset).map (first.length + ·) := by
  induction offset with
  | zero => simp
  | succ offset ih =>
    rw [← Nat.add_assoc, endsUpTo_succ, ih, endsUpTo_succ,
      show first.length + offset + 1 = first.length + (offset + 1) by omega,
      breakEndsAt_append_right first second (by omega)]
    cases breakEndsAt second (offset + 1) <;> simp

/-- The break ends of a concatenation. -/
theorem breakEnds_append (first second : Text) : breakEnds (first ++ second) =
      endsUpTo (first ++ second) first.length ++ (breakEnds second).map (first.length + ·) := by
  rw [breakEnds, length_append, endsUpTo_append_right]
  rfl

theorem breakEnds_append_of_not_splits (whole : splitsCRLF first second = false) :
    breakEnds (first ++ second) = breakEnds first ++ (breakEnds second).map (first.length + ·) := by
  rw [breakEnds_append, endsUpTo_append_joint, whole]
  rfl

theorem breakCount_append_of_not_splits (whole : splitsCRLF first second = false) :
    breakCount (first ++ second) = breakCount first + breakCount second := by
  simp [breakCount, breakEnds_append_of_not_splits whole]

/-! ## Reading a text from its front -/

theorem breakEnds_singleton (unit : CodeUnit) :
    breakEnds [unit] = if unit = CR ∨ unit = LF then [1] else [] := by
  have zero : endsUpTo [unit] 0 = [] := endsUpTo_zero _
  rw [breakEnds, length_singleton, endsUpTo_succ, zero]
  by_cases isCR : unit = CR
  · simp [breakEndsAt_succ, isCR]
  · by_cases isLF : unit = LF
    · simp [breakEndsAt_succ, isLF]
    · simp [breakEndsAt_succ, isCR, isLF]

theorem breakEnds_CRLF : breakEnds [CR, LF] = [2] := by decide

/-- The break ends of a text that does not start with `\r\n`. -/
theorem breakEnds_cons {unit : CodeUnit} (whole : ¬(unit = CR ∧ startsWithLF rest = true)) :
    breakEnds (unit :: rest) = (if unit = CR ∨ unit = LF then [1] else []) ++
        (breakEnds rest).map (1 + ·) := by
  have joint : splitsCRLF [unit] rest = false := by
    have single : endsWithCR [unit] = (unit == CR) := endsWithCR_concat [] unit
    rw [splitsCRLF, single]
    by_cases isCR : unit = CR
    · simpa [isCR] using whole
    · simp [isCR]
  have joined := breakEnds_append_of_not_splits joint
  rwa [breakEnds_singleton] at joined

/-- The break ends of a text that starts with `\r\n`. -/
theorem breakEnds_cons_CRLF (rest : Text) :
    breakEnds (CR :: LF :: rest) = 2 :: (breakEnds rest).map (2 + ·) := by
  have joint : splitsCRLF [CR, LF] rest = false := by
    simp [splitsCRLF, endsWithCR]
  have joined := breakEnds_append_of_not_splits joint
  rwa [breakEnds_CRLF] at joined

/-! ## Moving by one offset -/

theorem lineIndex_succ (text : Text) (offset : Nat) : lineIndex text (offset + 1) =
      lineIndex text offset +
        if breakEndsAt text (offset + 1) then 1 else 0 := by
  unfold lineIndex
  rw [endsUpTo_succ]
  split <;> simp

theorem lineStart_of_breakEndsAt (ends : breakEndsAt text offset = true) :
    lineStart text offset = offset := by
  cases offset with
  | zero => simp at ends
  | succ offset => simp [lineStart, endsUpTo_succ, ends]

theorem lineStart_succ_of_not_breakEndsAt (open_ : breakEndsAt text (offset + 1) = false) :
    lineStart text (offset + 1) = lineStart text offset := by
  simp [lineStart, endsUpTo_succ, open_]

/-- An offset is the start of a line exactly when a break ends there, or at
the start of the text. -/
theorem lineStart_eq_self_iff : lineStart text offset = offset ↔
      offset = 0 ∨ breakEndsAt text offset = true := by
  constructor
  · intro equal
    cases offset with
    | zero => exact .inl rfl
    | succ offset =>
      right
      by_contra open_
      have := lineStart_succ_of_not_breakEndsAt (eq_false_of_ne_true open_)
      have := lineStart_le text offset
      omega
  · rintro (rfl | ends)
    · have := lineStart_le text 0
      omega
    · exact lineStart_of_breakEndsAt ends

/-! ## Parts of a text -/

/-- The offset lies between the two halves of a `\r\n`. -/
def insideCRLF (text : Text) (offset : Nat) : Bool :=
  splitsCRLF (text.take offset) (text.drop offset)

theorem insideCRLF_iff : insideCRLF text (offset + 1) = true ↔
      text[offset]? = some CR ∧ text[offset + 1]? = some LF := by
  unfold insideCRLF splitsCRLF endsWithCR startsWithLF
  by_cases inside : offset < text.length
  · have front : text.take (offset + 1) = text.take offset ++ [text[offset]] :=
      take_succ_eq_append_getElem inside
    simp only [front, getElem?_eq_getElem inside]
    simp [head?_drop, -take_append_getElem]
  · simp [getElem?_eq_none (Nat.le_of_not_lt inside),
      getElem?_eq_none (show text.length ≤ offset + 1 by omega)]

/-- A line break character is part of some break. -/
theorem breakCount_pos_of_mem {unit : CodeUnit} (isBreak : unit = CR ∨ unit = LF)
    (member : unit ∈ text) : 0 < breakCount text := by
  obtain ⟨front, back, rfl⟩ := List.append_of_mem member
  have following : (front ++ unit :: back)[front.length + 1]? = back[0]? := by
    rw [List.getElem?_append_right (by omega)]
    simp
  rcases isBreak with rfl | rfl
  · by_cases isLF : back[0]? = some LF
    · have present : front.length + 2 ∈ breakEnds (front ++ CR :: back) := by
        refine mem_endsUpTo.mpr ⟨?_, ?_⟩
        · have := (List.getElem?_eq_some_iff.mp isLF).1
          simp only [List.length_append, List.length_cons]
          omega
        · simp [breakEndsAt_succ, following, isLF]
      exact List.length_pos_of_mem present
    · have present : front.length + 1 ∈ breakEnds (front ++ CR :: back) := by
        refine mem_endsUpTo.mpr ⟨by simp, ?_⟩
        simp [breakEndsAt_succ, following, isLF]
      exact List.length_pos_of_mem present
  · have present : front.length + 1 ∈ breakEnds (front ++ LF :: back) := by
      refine mem_endsUpTo.mpr ⟨by simp, ?_⟩
      simp [breakEndsAt_succ]
    exact List.length_pos_of_mem present

/-- The breaks of a part of a text: those that end inside it, and one more
when the part ends inside a `\r\n`. -/
theorem lineIndex_add_breakCount_substring {first last : Nat} (nonempty : first < last)
    (bounded : last ≤ text.length) : lineIndex text first + breakCount (substring text first last) =
      lineIndex text last + if insideCRLF text last then 1 else 0 := by
  obtain ⟨front, rest, rfl, rfl⟩ : ∃ front rest, text = front ++ rest ∧ front.length = first :=
    ⟨text.take first, text.drop first, by simp, by simp; omega⟩
  obtain ⟨middle, back, rfl, length⟩ : ∃ middle back, rest = middle ++ back ∧
      middle.length = last - front.length := by
    rw [length_append] at bounded
    exact ⟨rest.take (last - front.length), rest.drop (last - front.length),
      by simp, by simp; omega⟩
  obtain rfl : last = front.length + middle.length := by omega
  have part : substring (front ++ (middle ++ back)) front.length
      (front.length + middle.length) = middle := substring_append _ _ _
  have cut : insideCRLF (front ++ (middle ++ back))
      (front.length + middle.length) = splitsCRLF middle back := by
    have middleNonempty : middle ≠ [] := by
      rintro rfl
      simp at nonempty
    have taken : (front ++ (middle ++ back)).take
        (front.length + middle.length) = front ++ middle := by
      rw [← append_assoc, ← length_append, take_left]
    have dropped : (front ++ (middle ++ back)).drop (front.length + middle.length) = back := by
      rw [← append_assoc, ← length_append, drop_left]
    rw [insideCRLF, taken, dropped, splitsCRLF,
      endsWithCR_append_of_ne_nil _ middleNonempty, splitsCRLF]
  rw [part, cut]
  unfold lineIndex breakCount
  rw [endsUpTo_append_right, length_append, length_map]
  rw [endsUpTo_append_joint middle back]
  cases splits : splitsCRLF middle back with
  | false => simp
  | true =>
    obtain ⟨initial, rfl⟩ :=
      endsWithCR_iff.mp (Bool.and_eq_true_iff.mp splits).1
    have positive : 0 < breakCount (initial ++ [CR]) :=
      breakCount_pos_of_mem (.inl rfl) (by simp)
    simp only [breakCount] at positive
    simp
    omega

/-! ## Growing texts -/

section

variable {first second : Text} {offset : Nat} (inside : offset ≤ first.length)
  (whole : splitsCRLF first second = false)

include inside whole

theorem endsUpTo_append_of_le : endsUpTo (first ++ second) offset = endsUpTo first offset := by
  rcases lt_or_eq_of_le inside with less | rfl
  · exact endsUpTo_append_of_lt second less
  · rw [endsUpTo_append_joint, whole]
    rfl

theorem lineIndex_append_of_le : lineIndex (first ++ second) offset = lineIndex first offset := by
  rw [lineIndex, endsUpTo_append_of_le inside whole, lineIndex]

theorem lineStart_append_of_le : lineStart (first ++ second) offset = lineStart first offset := by
  rw [lineStart, endsUpTo_append_of_le inside whole, lineStart]

end

/-! ## Texts in parts -/

theorem splitsCRLF_append_left
    (first : Text) {middle : Text} (second : Text) (nonempty : middle ≠ []) :
    splitsCRLF (first ++ middle) second = splitsCRLF middle second := by
  rw [splitsCRLF, endsWithCR_append_of_ne_nil _ nonempty, splitsCRLF]

theorem splitsCRLF_append_right
    (first : Text) {middle : Text} (second : Text) (nonempty : middle ≠ []) :
    splitsCRLF first (middle ++ second) = splitsCRLF first middle := by
  rw [splitsCRLF, startsWithLF_append_of_ne_nil _ nonempty, splitsCRLF]

theorem splitsCRLF_drop_left (count : Nat) (whole : splitsCRLF first second = false) :
    splitsCRLF (first.drop count) second = false := by
  by_cases empty : first.drop count = []
  · simp [empty]
  · rwa [← take_append_drop count first, splitsCRLF_append_left _ _ empty] at whole

theorem splitsCRLF_take_right {first second rest : Text} (count : Nat)
    (whole : splitsCRLF first (second ++ rest) = false) :
    splitsCRLF first (second.take count) = false := by
  by_cases empty : second.take count = []
  · simp [empty]
  · rwa [← take_append_drop count second, append_assoc, splitsCRLF_append_right _ _ empty] at whole

/-- No `\r\n` of the whole text is cut between two parts. -/
def Whole : List Text → Prop
  | [] => True
  | part :: parts => splitsCRLF part parts.flatten = false ∧ Whole parts

@[simp] theorem whole_nil : Whole [] := trivial

@[simp] theorem whole_cons (part : Text) (parts : List Text) :
    Whole (part :: parts) ↔ splitsCRLF part parts.flatten = false ∧ Whole parts :=
  Iff.rfl

variable {first second : List Text}

/-- Two sequences of parts join to a whole one when nothing is cut between
them. -/
theorem whole_append : Whole (first ++ second) ↔ Whole first ∧ Whole second ∧
        splitsCRLF first.flatten second.flatten = false := by
  induction first with
  | nil => simp
  | cons part parts ih =>
    rw [cons_append, whole_cons, ih, whole_cons, flatten_append, flatten_cons]
    by_cases empty : parts.flatten = []
    · simp [empty]
      tauto
    · rw [splitsCRLF_append_right _ _ empty, splitsCRLF_append_left _ _ empty]
      tauto

/-- The breaks of a text are those of its parts. -/
theorem breakCount_flatten {parts : List Text} (whole : Whole parts) :
    breakCount parts.flatten = (parts.map breakCount).sum := by
  induction parts with
  | nil => simp [breakCount, breakEnds]
  | cons part parts ih =>
    obtain ⟨joint, rest⟩ := whole
    rw [flatten_cons, breakCount_append_of_not_splits joint, ih rest, map_cons, sum_cons]

theorem endsWithCR_eq_false (absent : CR ∉ text) : endsWithCR text = false := by
  cases ends : endsWithCR text with
  | false => rfl
  | true =>
    obtain ⟨initial, rfl⟩ := endsWithCR_iff.mp ends
    simp at absent

/-- Empty parts do not matter. -/
theorem whole_append_nil : Whole (first ++ [] :: second) ↔ Whole (first ++ second) := by
  rw [whole_append, whole_append, whole_cons, flatten_cons, nil_append]
  simp

theorem whole_append_if {part : Text} :
    Whole (first ++ (if part = [] then [] else [part]) ++ second) ↔
      Whole (first ++ part :: second) := by
  split
  · rename_i empty
    rw [empty, whole_append_nil, append_nil]
  · rw [append_assoc, singleton_append]

theorem whole_tail_LF {rest : Text} {parts : List Text}
    (whole : Whole ((LF :: rest) :: parts)) : Whole (rest :: parts) := by
  refine ⟨?_, whole.2⟩
  by_cases empty : rest = []
  · simp [empty]
  · have same := splitsCRLF_append_left [LF] parts.flatten empty
    rw [← same]
    exact whole.1

/-- Joining the two halves of a `\r\n` in a part of their own. -/
theorem whole_join {initial rest : Text} (left : Whole (first ++ [initial ++ [CR]]))
    (right : Whole ((LF :: rest) :: second)) :
    Whole (first ++ initial :: [CR, LF] :: rest :: second) := by
  obtain ⟨firstWhole, -, joint⟩ := whole_append.mp left
  refine whole_append.mpr ⟨firstWhole, ⟨?_, ?_, whole_tail_LF right⟩, ?_⟩
  · simp [splitsCRLF]
  · simp [splitsCRLF, endsWithCR]
  · by_cases empty : initial = []
    · simp [empty, splitsCRLF]
    · simp only [flatten_cons, flatten_nil, append_nil] at joint ⊢
      rw [splitsCRLF_append_right _ _ empty] at joint ⊢
      exact joint

end CodeEditor
