import CodeEditor.Edits.LineEditApply

/-!
# Edits of the text as line edits

An edit of the text is widened to whole lines. Edits that share a line are joined first,
so that every line edit has lines of its own, and lines that an edit does not change are
left out of it at the end.
-/

namespace CodeEditor.Edits

open List Option

/-! ## Positions -/

/-- A position of the document and its offset. -/
def Located (ls : Lines) (position : Position) (offset : Int) : Prop :=
  ∃ front line back column, ls.lines = front ++ line :: back ∧ column ≤ line.length ∧
    position = ⟨front.length + 1, column + 1⟩ ∧
    offset = ((closeLines front).length + column : Nat)

namespace Located

variable {ls : Lines} {position later : Position} {offset next : Int}

theorem getOffset (located : Located ls position offset) :
    (PositionOffsetTransformer.new ls.text).getOffset position = some offset.toNat ∧
      0 ≤ offset := by
  obtain ⟨front, line, back, column, split, inside, rfl, rfl⟩ := located
  refine ⟨?_, Int.natCast_nonneg _⟩
  rw [Lines.getOffset_eq split, Int.toNat_natCast]

section

variable (located : Located ls position offset) (located' : Located ls later next)
  (ordered : offset ≤ next)

include located located' ordered

/-- Later offsets are on later lines, or later on the same line. -/
theorem le : position.lineNumber < later.lineNumber ∨
      position.lineNumber = later.lineNumber ∧ position.column ≤ later.column := by
  obtain ⟨front, line, back, column, split, inside, rfl, rfl⟩ := located
  obtain ⟨front', line', back', column', split', inside', rfl, rfl⟩ := located'
  simp only
  rcases Nat.lt_trichotomy front.length front'.length with less | same | greater
  · omega
  · have sameFront : front = front' := by
      rw [split] at split'
      exact (append_inj split' same).1
    rw [sameFront] at ordered ⊢
    omega
  · exfalso
    rw [split] at split'
    have longer : front = front' ++ line' :: back'.take (front.length - front'.length - 1) := by
      have taken := congrArg (List.take front.length) split'
      rw [take_left, take_append, take_of_length_le (by omega)] at taken
      obtain ⟨m, isM⟩ : ∃ m, front.length - front'.length = m + 1 :=
        ⟨front.length - front'.length - 1, by omega⟩
      rw [isM, take_succ_cons] at taken
      rw [isM, Nat.add_sub_cancel]
      exact taken
    rw [longer, closeLines_append, closeLines_cons, length_append, length_append,
      length_cons] at ordered
    omega

theorem isBeforeOrEqual : position.isBeforeOrEqual later = true := by
  have before := located.le located' ordered
  rw [Position.isBeforeOrEqual]
  rcases before with less | ⟨same, columns⟩
  · rw [if_pos less]
  · rw [if_neg (by omega), if_neg (by omega), decide_eq_true_eq]
    exact columns

theorem fromPositions : Range.fromPositions position later =
      ⟨position.lineNumber, position.column, later.lineNumber, later.column⟩ := by
  have before := located.le located' ordered
  exact Range.new_eq before

end

end Located

theorem Lines.exists_located (ls : Lines) {offset : Int} (nonneg : 0 ≤ offset)
    (inside : offset ≤ ls.text.length) :
    ∃ position, (PositionOffsetTransformer.new ls.text).getPosition offset = some position ∧
      Located ls position offset := by
  obtain ⟨front, line, back, column, split, upTo, isOffset⟩ :=
    @Lines.exists_line ls offset.toNat (by omega)
  have same : offset = ((closeLines front).length + column : Nat) := by omega
  refine ⟨⟨front.length + 1, column + 1⟩, ?_, front, line, back, column, split, upTo, rfl, same⟩
  rw [same]
  exact Lines.getPosition_eq split upTo

/-- The text between two positions. -/
theorem getValueOfRange_eq {position later : Position} {offset next : Int}
    (located : Located ls position offset) (located' : Located ls later next)
    (ordered : offset ≤ next) :
    getValueOfRange ls.text (Range.fromPositions position later) =
      some (between ls.text 0 offset next) := by
  obtain ⟨isFirst, nonneg⟩ := located.getOffset
  obtain ⟨isLast, -⟩ := located'.getOffset
  rw [located.fromPositions located' ordered]
  obtain ⟨offsets, isRange, start, stop⟩ := @getOffsetRange_eq
    (PositionOffsetTransformer.new ls.text)
    ⟨position.lineNumber, position.column, later.lineNumber, later.column⟩ _ _ isFirst isLast
    (by omega)
  rw [getValueOfRange, isRange]
  simp only [bind_eq_bind, bind_some]
  have isStart : offsets.start = offset := by omega
  have isStop : offsets.endExclusive = next := by omega
  rw [isStart, isStop, substringBetween_eq nonneg ordered, between, Int.sub_zero]

/-! ## Text edits -/

/-- A text edit and its replacement of the text. -/
structure Spans (ls : Lines) (t : SingleTextEdit) (r : Replacement CodeUnit) : Prop where
  start : Located ls t.range.getStartPosition r.start
  stop : Located ls t.range.getEndPosition r.stop
  ordered : r.start ≤ r.stop
  text : t.text = r.text

theorem spans_of_edit (ls : Lines) {edit : SingleOffsetEdit} (nonneg : 0 ≤ edit.replaceRange.start)
    (inside : edit.replaceRange.endExclusive ≤ ls.text.length) :
    ∃ range, (PositionOffsetTransformer.new ls.text).getRange edit.replaceRange = some range ∧
      Spans ls ⟨range, edit.newText⟩ edit.replacement := by
  have ordered := edit.replaceRange.ordered
  obtain ⟨start, isStart, located⟩ := ls.exists_located nonneg (by omega)
  obtain ⟨stop, isStop, located'⟩ := @Lines.exists_located ls edit.replaceRange.endExclusive
    (by omega) inside
  refine ⟨Range.fromPositions start stop, ?_, ?_⟩
  · rw [PositionOffsetTransformer.getRange, isStart, isStop]
    rfl
  · rw [located.fromPositions located' ordered]
    exact ⟨located, located', ordered, rfl⟩

theorem spans_of_edits {ls : Lines} {edits : List SingleOffsetEdit}
    (valid : ∀ edit ∈ edits, 0 ≤ edit.replaceRange.start ∧
      edit.replaceRange.endExclusive ≤ ls.text.length) :
    ∃ textEdits, (edits.mapM fun e => do
        let range ← (PositionOffsetTransformer.new ls.text).getRange e.replaceRange
        some (⟨range, e.newText⟩ : SingleTextEdit)) = some textEdits ∧
      List.Forall₂ (Spans ls) textEdits (asPatch edits) := by
  induction edits with
  | nil => exact ⟨[], rfl, .nil⟩
  | cons edit edits ih =>
    have own := valid edit (by simp)
    obtain ⟨range, isRange, spans⟩ := spans_of_edit ls own.1 own.2
    obtain ⟨rest, isRest, spansRest⟩ := ih fun other member =>
      valid other (mem_cons_of_mem _ member)
    refine ⟨⟨range, edit.newText⟩ :: rest, ?_, .cons spans spansRest⟩
    rw [mapM_cons, isRest, isRange]
    rfl

/-- Sorted edits pass the check of the constructor. -/
theorem checkAdjacent_of_spans
    (spans : List.Forall₂ (Spans ls) textEdits patches) (within : Within last position patches) :
    checkAdjacentItems (fun a b => a.range.getEndPosition.isBeforeOrEqual b.range.getStartPosition)
      textEdits = true := by
  rw [checkAdjacentItems_iff]
  induction spans generalizing position with
  | nil => exact .nil
  | cons first rest ih =>
    rw [isChain_cons]
    refine ⟨?_, ih within.2.2⟩
    cases rest with
    | nil => simp
    | cons second rest =>
      intro next isNext
      cases isNext
      exact first.stop.isBeforeOrEqual second.start within.2.2.1

theorem fromOffsetEdit_eq {ls : Lines} {e : OffsetEdit} (valid : e.ValidOn ls.text) :
    ∃ textEdits, TextEdit.fromOffsetEdit e ls.text = some textEdits ∧
      List.Forall₂ (Spans ls) textEdits (asPatch e.edits) := by
  obtain ⟨textEdits, isSome, spans⟩ := spans_of_edits valid
  refine ⟨textEdits, ?_, spans⟩
  have sorted := checkAdjacent_of_spans spans valid.within
  rw [TextEdit.fromOffsetEdit, isSome]
  simp only [bind_eq_bind, bind_some]
  rw [TextEdit.new, if_pos sorted]

/-! ## Joining edits -/

/-- The replacements as one, with the text between them. -/
def joinPatches (text : Text) : List (Replacement CodeUnit) → Replacement CodeUnit
  | [] => ⟨0, 0, []⟩
  | [r] => r
  | first :: second :: rest =>
    let joined := joinPatches text (second :: rest)
    ⟨first.start, joined.stop,
      first.text ++ (between text 0 first.stop joined.start ++ joined.text)⟩

theorem joinPatches_start (text : Text) (r : Replacement CodeUnit)
    (rest : List (Replacement CodeUnit)) : (joinPatches text (r :: rest)).start = r.start := by
  cases rest <;> rfl

variable {text : Text} {r : Replacement CodeUnit}

theorem joinPatches_ordered {last position : Int} {rest : List (Replacement CodeUnit)}
    (within : Within last position (r :: rest)) : r.start ≤ (joinPatches text (r :: rest)).stop ∧
      (joinPatches text (r :: rest)).stop ≤ last := by
  induction rest generalizing r position with
  | nil => exact ⟨within.2.1, within.2.2⟩
  | cons second rest ih =>
    have later := ih within.2.2
    have gap := within.2.2.1
    have ordered := within.2.1
    refine ⟨?_, later.2⟩
    change r.start ≤ (joinPatches text (second :: rest)).stop
    omega

theorem within_joinPatches {last position : Int} {rest later : List (Replacement CodeUnit)}
    (within : Within last position (r :: rest ++ later)) :
    Within last (joinPatches text (r :: rest)).stop later := by
  induction rest generalizing r position with
  | nil => exact within.2.2
  | cons second rest ih => exact ih within.2.2

/-- Joined replacements do what they do one by one. -/
theorem patch_joinPatches {last position : Int} (nonneg : 0 ≤ position)
    {first : Replacement CodeUnit} {rest : List (Replacement CodeUnit)}
    {later : List (Replacement CodeUnit)} (within : Within last position (first :: rest)) :
    patch (text.drop position.toNat) position (first :: rest ++ later) =
      patch (text.drop position.toNat) position (joinPatches text (first :: rest) :: later) := by
  induction rest generalizing first position with
  | nil => rfl
  | cons second rest ih =>
    obtain ⟨start, ordered, within'⟩ := within
    have gap := within'.1
    have inner := @ih first.stop (by omega) second within'
    have bounds := @joinPatches_ordered text _ _ _ _ within'
    have isStart := joinPatches_start text second rest
    have dropped : (text.drop position.toNat).drop (first.stop - position).toNat =
        text.drop first.stop.toNat := by
      rw [drop_drop]
      congr 1
      omega
    have gapText : between (text.drop position.toNat) position first.stop
        (joinPatches text (second :: rest)).start =
        between text 0 first.stop (joinPatches text (second :: rest)).start := by
      rw [between, between, dropped, Int.sub_zero]
    have joined := @patch_join _ (text.drop position.toNat) position first
      (joinPatches text (second :: rest)) later start ordered (by omega) (by omega)
    rw [gapText] at joined
    rw [joinPatches, ← joined, cons_append, patch_cons, patch_cons, dropped, inner]

section

variable {t : SingleTextEdit} {rest : List SingleTextEdit} {r : Replacement CodeUnit}
  {patches : List (Replacement CodeUnit)}
  (spans : List.Forall₂ (Spans ls) (t :: rest) (r :: patches))
  (within : Within last position (r :: patches))

include spans within

theorem joinTexts_eq :
    joinTexts ls.text (t :: rest) = some (joinPatches ls.text (r :: patches)).text ∧
      Located ls ((t :: rest).getLastD t).range.getEndPosition
        (joinPatches ls.text (r :: patches)).stop := by
  induction rest generalizing t r patches position with
  | nil =>
    obtain ⟨own, none⟩ := forall₂_cons.mp spans
    cases none
    exact ⟨by rw [joinTexts, own.text]; rfl, own.stop⟩
  | cons second rest ih =>
    obtain ⟨own, others⟩ := forall₂_cons.mp spans
    cases others with
    | cons next others =>
      rename_i r' patches'
      obtain ⟨texts, located⟩ := ih (.cons next others) within.2.2
      have isStart := joinPatches_start ls.text r' patches'
      have gap := getValueOfRange_eq own.stop next.start within.2.2.1
      refine ⟨?_, ?_⟩
      · rw [joinTexts, gap, texts]
        simp only [bind_eq_bind, bind_some]
        rw [joinPatches, isStart, own.text, append_assoc]
      · cases rest <;> exact located

/-- Joined edits span the joined replacements. -/
theorem joinEdits_eq : ∃ joined, SingleTextEdit.joinEdits (t :: rest) ls.text = some joined ∧
      Spans ls joined (joinPatches ls.text (r :: patches)) ∧
      joined.range.getStartPosition = t.range.getStartPosition ∧
      joined.range.getEndPosition = ((t :: rest).getLastD t).range.getEndPosition := by
  obtain ⟨own, others⟩ := forall₂_cons.mp spans
  cases others with
  | nil => exact ⟨t, rfl, own, rfl, rfl⟩
  | @cons second r' rest patches' next others =>
    obtain ⟨texts, located⟩ := joinTexts_eq spans within
    have bounds := @joinPatches_ordered ls.text _ _ _ _ within
    have located' : Located ls t.range.getStartPosition
        (joinPatches ls.text (r :: r' :: patches')).start := by
      exact own.start
    have ordered : (joinPatches ls.text (r :: r' :: patches')).start ≤
        (joinPatches ls.text (r :: r' :: patches')).stop := by
      exact bounds.1
    have lastOf : (t :: second :: rest).getLastD t = (second :: rest).getLastD t := by
      cases rest <;> rfl
    have ranges := located'.fromPositions located ordered
    rw [lastOf] at located ranges ⊢
    refine ⟨⟨Range.fromPositions t.range.getStartPosition
      ((second :: rest).getLastD t).range.getEndPosition, _⟩, by
        rw [SingleTextEdit.joinEdits, texts]
        rfl, ?_, ?_, ?_⟩
    · rw [ranges]
      exact ⟨located', located, ordered, rfl⟩
    · rw [ranges]
      rfl
    · rw [ranges]
      rfl

end

end CodeEditor.Edits
