import CodeEditor.Edits.LineEditText

/-!
# Applying a line edit to the lines and to the text

The text that is left to edit stands in front of a line or behind a line. Walking over the
edits from left to right keeps the text that was written equal to the lines that were
written, closed by line feeds or joined.
-/

namespace CodeEditor.Edits

open List Int

/-! ## Lines -/

/-- A line edit as a replacement of lines, which are counted from 1. -/
def SingleLineEdit.replacement (e : SingleLineEdit) : Replacement Text :=
  ⟨e.lineRange.startLineNumber, e.lineRange.endLineNumberExclusive, e.newLines⟩

variable {lines : List Text}

theorem linesBetween_eq {first last : Nat} (inside : last ≤ lines.length) :
    LineEdit.linesBetween lines first last = (lines.drop first).take (last - first) := by
  apply ext_getElem?
  intro i
  rw [LineEdit.linesBetween, getElem?_map, getElem?_take, getElem?_drop]
  by_cases less : i < last - first
  · have here : first + i < lines.length := by omega
    rw [getElem?_range' less, if_pos less]
    simp [here]
  · rw [if_neg less, getElem?_eq_none (by simpa using less)]
    rfl

theorem applyLoop_lines {edits : List SingleLineEdit} {index : Nat}
    (within : Within (lines.length + 1) (index + 1) (edits.map (·.replacement)))
    (result : List Text) : LineEdit.applyLoop lines edits result index =
      result ++ patch (lines.drop index) (index + 1) (edits.map (·.replacement)) := by
  induction edits generalizing result index with
  | nil =>
    rw [LineEdit.applyLoop, linesBetween_eq (Nat.le_refl _), map_nil, patch_nil, take_of_length_le]
    rw [length_drop]
  | cons e edits ih =>
    obtain ⟨start, ordered, later⟩ := within
    have bound := later.le
    simp only [SingleLineEdit.replacement] at start ordered later bound
    have rest := @ih (e.lineRange.endLineNumberExclusive - 1) (by
      have isStop : (e.lineRange.endLineNumberExclusive : Int) =
          (e.lineRange.endLineNumberExclusive - 1 : Nat) + 1 := by omega
      rw [← isStop]
      exact later)
    have toStart : ((e.lineRange.startLineNumber : Int) - (index + 1)).toNat =
        e.lineRange.startLineNumber - 1 - index := by omega
    have toStop : ((e.lineRange.endLineNumberExclusive : Int) - (index + 1)).toNat =
        e.lineRange.endLineNumberExclusive - 1 - index := by omega
    have dropped : index + (e.lineRange.endLineNumberExclusive - 1 - index) =
        e.lineRange.endLineNumberExclusive - 1 := by omega
    have isStop : ((e.lineRange.endLineNumberExclusive - 1 : Nat) : Int) + 1 =
        e.lineRange.endLineNumberExclusive := by omega
    rw [LineEdit.applyLoop, rest, linesBetween_eq (by omega), map_cons, patch_cons]
    simp only [SingleLineEdit.replacement, toStart, toStop, drop_drop, dropped, isStop,
      append_assoc]

/-- The line edit is one of these lines. -/
def LineEdit.ValidOn (e : LineEdit) (lines : List Text) : Prop :=
  ∀ edit ∈ e.edits, 1 ≤ edit.lineRange.startLineNumber ∧
    edit.lineRange.endLineNumberExclusive ≤ lines.length + 1

instance (e : LineEdit) (lines : List Text) : Decidable (e.ValidOn lines) :=
  inferInstanceAs (Decidable (∀ edit ∈ e.edits, _ ∧ _))

theorem within_of_areSorted {edits : List SingleLineEdit} {position last : Nat}
    (sorted : areSorted edits = true)
    (first : ∀ e ∈ edits.head?, position ≤ e.lineRange.startLineNumber)
    (ends : ∀ e ∈ edits, e.lineRange.endLineNumberExclusive ≤ last) (le : position ≤ last) :
    Within last position (edits.map (·.replacement)) := by
  induction edits generalizing position with
  | nil => exact ofNat_le.mpr le
  | cons e edits ih =>
    rw [areSorted, checkAdjacentItems_iff, isChain_cons] at sorted
    refine ⟨ofNat_le.mpr (first e rfl), ofNat_le.mpr e.lineRange.ordered, ?_⟩
    apply ih
    · rw [areSorted, checkAdjacentItems_iff]
      exact sorted.2
    · intro next isNext
      exact of_decide_eq_true (sorted.1 next isNext)
    · exact fun other member => ends other (mem_cons_of_mem _ member)
    · exact ends e (by simp)

theorem LineEdit.ValidOn.within {e : LineEdit} (valid : e.ValidOn lines) :
    Within (lines.length + 1) 1 (e.edits.map (·.replacement)) := by
  apply @within_of_areSorted e.edits 1 (lines.length + 1) e.sorted _ _ (by omega)
  · intro edit isFirst
    exact (valid edit (mem_of_mem_head? isFirst)).1
  · exact fun edit member => (valid edit member).2

theorem LineEdit.apply_eq {e : LineEdit} (valid : e.ValidOn lines) :
    e.apply lines = patch lines 1 (e.edits.map (·.replacement)) :=
  @applyLoop_lines lines e.edits 0 valid.within []

/-! ## The text -/

namespace SingleLineEdit

/-- The replacement of text for a line edit. -/
def textReplacement (lines : List Text) (e : SingleLineEdit) : Replacement CodeUnit :=
  Edits.textReplacement (lines.take (e.lineRange.startLineNumber - 1))
    ((lines.drop (e.lineRange.startLineNumber - 1)).take
      (e.lineRange.endLineNumberExclusive - e.lineRange.startLineNumber))
    (lines.drop (e.lineRange.endLineNumberExclusive - 1)) e.newLines

theorem textReplacement_eq {lines front old back : List Text} {e : SingleLineEdit}
    (covers : e.Covers front old) (split : lines = front ++ (old ++ back)) :
    e.textReplacement lines = Edits.textReplacement front old back e.newLines := by
  have start : e.lineRange.startLineNumber - 1 = front.length := by
    rw [covers.start, Nat.add_sub_cancel]
  have count : e.lineRange.endLineNumberExclusive - e.lineRange.startLineNumber = old.length := by
    rw [covers.start, covers.stop]
    omega
  have stop : e.lineRange.endLineNumberExclusive - 1 = front.length + old.length := by
    rw [covers.stop, Nat.add_sub_cancel]
  rw [textReplacement, start, count, stop, split, take_left, drop_left, take_left,
    drop_length_add_append, drop_left]

/-- The edit deletes all lines. -/
def DeletesAll (lines : List Text) (e : SingleLineEdit) : Prop :=
  e.newLines = [] ∧ e.lineRange.startLineNumber = 1 ∧
    e.lineRange.endLineNumberExclusive = lines.length + 1

instance (lines : List Text) (e : SingleLineEdit) : Decidable (e.DeletesAll lines) :=
  inferInstanceAs (Decidable (_ ∧ _ ∧ _))

/-- The second edit deletes all lines from a line on, and the first edit only inserts or
only deletes in front of that line. -/
def Collides (lines : List Text) (first second : SingleLineEdit) : Prop :=
  second.newLines = [] ∧ second.lineRange.endLineNumberExclusive = lines.length + 1 ∧
    1 < second.lineRange.startLineNumber ∧
    second.lineRange.startLineNumber ≤ lines.length ∧
    first.lineRange.endLineNumberExclusive = second.lineRange.startLineNumber ∧
    (first.newLines = [] ∨ first.lineRange.isEmpty = true)

instance (lines : List Text) (first second : SingleLineEdit) :
    Decidable (Collides lines first second) :=
  inferInstanceAs (Decidable (_ ∧ _ ∧ _ ∧ _ ∧ _ ∧ _))

theorem exists_parts {front rest : List Text} {e : SingleLineEdit} {last : Int}
    {edits : List (Replacement Text)}
    (within : Within last (front.length + 1) (e.replacement :: edits))
    (bounded : last ≤ front.length + rest.length + 1) :
    ∃ between old back, rest = between ++ (old ++ back) ∧ e.Covers (front ++ between) old := by
  obtain ⟨start, ordered, later⟩ := within
  have stop := later.le
  have range := e.lineRange.ordered
  simp only [replacement] at start stop
  refine ⟨rest.take (e.lineRange.startLineNumber - 1 - front.length),
    (rest.drop (e.lineRange.startLineNumber - 1 - front.length)).take
      (e.lineRange.endLineNumberExclusive - e.lineRange.startLineNumber), _,
    by rw [take_append_drop, take_append_drop], ?_, ?_⟩
  · rw [length_append, length_take]
    omega
  · rw [length_append, length_take, length_take, length_drop]
    omega

end SingleLineEdit

open SingleLineEdit (DeletesAll Collides)

/-- What is left of the text and of the lines gives the same, in front of a line and behind
a line. -/
structure Agrees (ls : Lines) (edits : List SingleLineEdit) (front rest written : List Text) :
    Prop where
  /-- In front of a line; the next edit must not start behind the line before. -/
  closed : rest ≠ [] → (∀ e ∈ edits.head?, ¬(e.newLines = [] ∧
      e.lineRange.endLineNumberExclusive = ls.lines.length + 1 ∧
      e.lineRange.startLineNumber = front.length + 1)) →
    Within ls.text.length (closeLines front).length (edits.map (·.textReplacement ls.lines)) ∧
    closeLines written ++ patch (joinLines rest) (closeLines front).length
        (edits.map (·.textReplacement ls.lines)) =
      joinLines (written ++ patch rest (front.length + 1) (edits.map (·.replacement)))
  /-- Behind a line. -/
  joined : front ≠ [] → written ≠ [] →
    Within ls.text.length (joinLines front).length (edits.map (·.textReplacement ls.lines)) ∧
    joinLines written ++ patch (openLines rest) (joinLines front).length
        (edits.map (·.textReplacement ls.lines)) =
      joinLines (written ++ patch rest (front.length + 1) (edits.map (·.replacement)))

namespace Agrees

variable {ls : Lines} {e : SingleLineEdit} {edits : List SingleLineEdit}
  {front between old back rest written : List Text}

theorem nil (split : ls.lines = front ++ rest) : Agrees ls [] front rest written where
  closed := by
    intro inside _
    constructor
    · change ((closeLines front).length : Int) ≤ ls.text.length
      rw [Lines.text, split, ← closeLines_append_joinLines front inside, length_append]
      omega
    · exact closeLines_append_joinLines written inside
  joined := by
    intro nonempty some
    constructor
    · change ((joinLines front).length : Int) ≤ ls.text.length
      rw [Lines.text, split, ← joinLines_append_openLines nonempty, length_append]
      omega
    · exact joinLines_append_openLines some rest

section

variable (covers : e.Covers (front ++ between) old)

include covers

/-- The lines after one edit. -/
theorem lines_eq : patch (between ++ (old ++ back)) (front.length + 1)
        ((e :: edits).map (·.replacement)) =
      between ++ (e.newLines ++
        patch back ((front ++ between ++ old).length + 1) (edits.map (·.replacement))) := by
  have start := covers.start
  have stop := covers.stop
  have isStop : (e.lineRange.endLineNumberExclusive : Int) =
      (front ++ between ++ old).length + 1 := by
    rw [stop, @length_append _ (front ++ between)]
    omega
  rw [length_append] at start stop
  rw [map_cons, patch_parts]
  · simp only [SingleLineEdit.replacement, isStop]
  · simp only [SingleLineEdit.replacement]
    omega
  · simp only [SingleLineEdit.replacement]
    omega

/-- An edit that starts at the beginning of a line: `oldText` is its part of the text, with
`backText` behind it. -/
theorem step {oldText newText backText newWritten : Text} (more : old ++ back ≠ [])
    (form : e.textReplacement ls.lines = ⟨(closeLines (front ++ between)).length,
      (closeLines (front ++ between)).length + oldText.length, newText⟩)
    (isText : joinLines (old ++ back) = oldText ++ backText)
    (isNew : closeLines (written ++ between) ++ newText = newWritten)
    (within : Within ls.text.length ((closeLines (front ++ between)).length + oldText.length : Int)
      (edits.map (·.textReplacement ls.lines))) (rest : newWritten ++ patch backText
        ((closeLines (front ++ between)).length + oldText.length : Int)
        (edits.map (·.textReplacement ls.lines)) =
      joinLines (written ++ between ++ e.newLines ++
        patch back ((front ++ between ++ old).length + 1) (edits.map (·.replacement)))) :
    Agrees ls (e :: edits) front (between ++ (old ++ back)) written := by
  constructor
  · intro inside _
    have text : joinLines (between ++ (old ++ back)) =
        closeLines between ++ (oldText ++ backText) := by
      rw [← isText, closeLines_append_joinLines _ more]
    obtain ⟨within', step⟩ := @patch_step _ (closeLines between) oldText backText
      (closeLines front).length _ (e.textReplacement ls.lines) _ (by
        rw [form, closeLines_append, length_append]
        exact natCast_add ..) (by rw [form]) (by rw [form]; exact within)
    refine ⟨within', ?_⟩
    rw [lines_eq covers, text, map_cons, step, form]
    rw [← append_assoc, ← append_assoc, ← closeLines_append, isNew, rest]
    simp only [append_assoc]
  · intro nonempty some
    have text : openLines (between ++ (old ++ back)) =
        (openLines between ++ [LF]) ++ (oldText ++ backText) := by
      rw [← isText, openLines_append, openLines_eq_cons more]
      simp
    have start : (closeLines (front ++ between)).length =
        (joinLines front).length + (openLines between ++ [LF]).length := by
      rw [closeLines_append, length_append, length_append, length_closeLines nonempty,
        length_openLines, length_singleton]
      omega
    obtain ⟨within', step⟩ := @patch_step _ (openLines between ++ [LF]) oldText backText
      (joinLines front).length _ (e.textReplacement ls.lines) _ (by
        rw [form, start]
        exact natCast_add ..) (by rw [form]) (by rw [form]; exact within)
    refine ⟨within', ?_⟩
    have moved : joinLines written ++ (openLines between ++ [LF] ++ newText) = newWritten := by
      rw [← isNew, ← @joinLines_append_LF (written ++ between) (by simp [some]),
        ← joinLines_append_openLines some]
      simp
    rw [lines_eq covers, text, map_cons, step, form]
    rw [← append_assoc (openLines between ++ [LF]), ← append_assoc (joinLines written), moved, rest]
    simp only [append_assoc]

/-- Lines are replaced by lines. -/
theorem replace (split : ls.lines = front ++ (between ++ (old ++ back))) (new : e.newLines ≠ [])
    (replaced : old ≠ [])
    (later : Agrees ls edits (front ++ between ++ old) back (written ++ between ++ e.newLines)) :
    Agrees ls (e :: edits) front (between ++ (old ++ back)) written := by
  obtain ⟨within, rest⟩ := later.joined (by simp [replaced]) (by simp [new])
  have form := @SingleLineEdit.textReplacement_eq ls.lines (front ++ between) old back e covers
    (by rw [split, append_assoc])
  rw [textReplacement, if_pos ⟨new, replaced⟩] at form
  have stop : (joinLines (front ++ between ++ old)).length =
      (closeLines (front ++ between)).length + (joinLines old).length := by
    rw [← closeLines_append_joinLines _ replaced, length_append]
  rw [stop, natCast_add] at within rest
  exact step covers (by simp [replaced]) form (joinLines_append_openLines replaced back).symm
    (closeLines_append_joinLines _ new) within rest

/-- Lines are inserted or deleted in front of a line. -/
theorem inside (split : ls.lines = front ++ (between ++ (old ++ back)))
    (one : e.newLines = [] ∨ old = []) (more : back ≠ [])
    (free : ∀ next ∈ edits.head?, ¬(next.newLines = [] ∧
      next.lineRange.endLineNumberExclusive = ls.lines.length + 1 ∧
      next.lineRange.startLineNumber = (front ++ between ++ old).length + 1))
    (later : Agrees ls edits (front ++ between ++ old) back (written ++ between ++ e.newLines)) :
    Agrees ls (e :: edits) front (between ++ (old ++ back)) written := by
  obtain ⟨within, rest⟩ := later.closed more free
  have form := @SingleLineEdit.textReplacement_eq ls.lines (front ++ between) old back e covers
    (by rw [split, append_assoc])
  rw [textReplacement, if_neg (by tauto), if_pos more] at form
  have stop : ((closeLines (front ++ between ++ old)).length : Int) =
      (closeLines (front ++ between)).length + (closeLines old).length := by
    rw [closeLines_append (front ++ between), length_append]
    exact natCast_add ..
  rw [stop] at form within rest
  exact step covers (by simp [more]) form (closeLines_append_joinLines old more).symm
    (closeLines_append ..).symm within rest

/-- Lines are inserted or deleted behind all other lines. -/
theorem last (split : ls.lines = front ++ (between ++ old)) (one : e.newLines = [] ∨ old = [])
    (behind : front ++ between ≠ [])
    (later : Agrees ls edits (front ++ between ++ old) [] (written ++ between ++ e.newLines)) :
    Agrees ls (e :: edits) front (between ++ old) written := by
  have form := @SingleLineEdit.textReplacement_eq ls.lines (front ++ between) old [] e covers
    (by rw [split]; simp)
  rw [textReplacement, if_neg (by tauto), if_neg (by simp), if_pos behind] at form
  have stop : ((joinLines (front ++ between ++ old)).length : Int) =
      (joinLines (front ++ between)).length + (openLines old).length := by
    rw [← joinLines_append_openLines behind, length_append]
    exact natCast_add ..
  have lines := @lines_eq e edits front between old [] covers
  rw [append_nil] at lines
  constructor
  · intro inside notHere
    have some : between ≠ [] := by
      rintro rfl
      have none : e.newLines ≠ [] := by
        intro none
        apply notHere e rfl
        refine ⟨none, ?_, ?_⟩
        · rw [covers.stop, split]
          simp
        · rw [covers.start]
          simp
      apply inside
      simpa using one.resolve_left none
    obtain ⟨within, rest⟩ := later.joined (by simp [some]) (by simp [some])
    have text : joinLines (between ++ old) = joinLines between ++ (openLines old ++ []) := by
      rw [append_nil, joinLines_append_openLines some]
    obtain ⟨within', step⟩ := @patch_step _ (joinLines between) (openLines old) []
      (closeLines front).length _ (e.textReplacement ls.lines) _ (by
        rw [form, ← closeLines_append_joinLines _ some, length_append]
        exact natCast_add ..) (by rw [form]; exact stop) (by rw [form]; exact within)
    refine ⟨within', ?_⟩
    rw [lines, text, map_cons, step, form]
    rw [← append_assoc, ← append_assoc, closeLines_append_joinLines _ some,
      joinLines_append_openLines (by simp [some])]
    rw [openLines_nil] at rest
    rw [rest]
    simp only [append_assoc]
  · intro nonempty some
    obtain ⟨within, rest⟩ := later.joined (by simp [nonempty]) (by simp [some])
    have text : openLines (between ++ old) = openLines between ++ (openLines old ++ []) := by
      rw [append_nil, openLines_append]
    obtain ⟨within', step⟩ := @patch_step _ (openLines between) (openLines old) []
      (joinLines front).length _ (e.textReplacement ls.lines) _ (by
        rw [form, ← joinLines_append_openLines nonempty, length_append]
        exact natCast_add ..) (by rw [form]; exact stop) (by rw [form]; exact within)
    refine ⟨within', ?_⟩
    rw [lines, text, map_cons, step, form]
    rw [← append_assoc, ← append_assoc, joinLines_append_openLines some,
      joinLines_append_openLines (by simp [some])]
    rw [openLines_nil] at rest
    rw [rest]
    simp only [append_assoc]

end

end Agrees

theorem agrees {ls : Lines} {edits : List SingleLineEdit} {front rest : List Text}
    (split : ls.lines = front ++ rest)
    (within : Within (ls.lines.length + 1) (front.length + 1) (edits.map (·.replacement)))
    (keeps : ∀ e ∈ edits, ¬e.DeletesAll ls.lines)
    (free : edits.IsChain fun a b => ¬Collides ls.lines a b) (written : List Text) :
    Agrees ls edits front rest written := by
  induction edits generalizing front rest written with
  | nil => exact Agrees.nil split
  | cons e edits ih =>
    have total : ls.lines.length = front.length + rest.length := by
      rw [split, length_append]
    obtain ⟨between, old, back, rfl, covers⟩ :=
      @SingleLineEdit.exists_parts front rest e _ _ within (by omega)
    have isStop : (e.replacement.stop : Int) = (front ++ between ++ old).length + 1 := by
      change (e.lineRange.endLineNumberExclusive : Int) = _
      rw [covers.stop, @length_append _ (front ++ between)]
      omega
    have keepsOne := keeps e (by simp)
    rw [isChain_cons] at free
    have later := @ih (front ++ between ++ old) back (by rw [split]; simp) (isStop ▸ within.2.2)
      (fun other member => keeps other (mem_cons_of_mem _ member)) free.2
      (written ++ between ++ e.newLines)
    by_cases both : e.newLines ≠ [] ∧ old ≠ []
    · exact later.replace covers split both.1 both.2
    · have one : e.newLines = [] ∨ old = [] := by tauto
      by_cases more : back ≠ []
      · apply later.inside covers split one more
        rintro next isNext ⟨nothing, toEnd, here⟩
        have positive := length_pos_of_ne_nil more
        have sizes : ls.lines.length = (front ++ between ++ old).length + back.length := by
          rw [split]
          simp only [length_append]
          omega
        have behind : e.lineRange.endLineNumberExclusive = next.lineRange.startLineNumber := by
          rw [covers.stop, here, @length_append _ (front ++ between)]
        have notFirst : next.lineRange.startLineNumber ≠ 1 := by
          intro first
          exact keeps next (mem_cons_of_mem _ (mem_of_mem_head? isNext)) ⟨nothing, first, toEnd⟩
        apply free.1 next isNext
        refine ⟨nothing, toEnd, by omega, by omega, behind, ?_⟩
        apply one.imp_right
        rintro rfl
        rw [LineRange.isEmpty, decide_eq_true_eq, covers.start, covers.stop, length_nil,
          Nat.add_zero]
      · have none : back = [] := by tauto
        subst none
        rw [append_nil] at split ⊢
        apply later.last covers split one
        intro nothing
        have inFront : front = [] ∧ between = [] := append_eq_nil_iff.mp nothing
        obtain ⟨rfl, rfl⟩ := inFront
        apply keepsOne
        refine ⟨?_, covers.start, ?_⟩
        · apply one.resolve_right
          rintro rfl
          exact ls.nonempty split
        · rw [covers.stop, split]
          simp

namespace SingleLineEdit

variable {ls : Lines} {e : SingleLineEdit}

section

variable (first : 1 ≤ e.lineRange.startLineNumber)
  (last : e.lineRange.endLineNumberExclusive ≤ ls.lines.length + 1)

include first last

theorem exists_split :
    ∃ front old back, ls.lines = front ++ (old ++ back) ∧ e.Covers front old := by
  obtain ⟨front, old, back, split, covers⟩ := @exists_parts [] ls.lines e (ls.lines.length + 1) []
    ⟨by simp only [replacement, length_nil]; omega,
      ofNat_le.mpr e.lineRange.ordered, by simp only [replacement, Within]; omega⟩
    (by simp)
  exact ⟨front, old, back, split, covers⟩

/-- A line edit of the document becomes its replacement of text. -/
theorem toSingleEdit_eq : ∃ edit, e.toSingleEdit ls.text = some edit ∧
      edit.replacement = e.textReplacement ls.lines := by
  obtain ⟨front, old, back, split, covers⟩ := exists_split first last
  rw [textReplacement_eq covers split]
  by_cases both : e.newLines ≠ [] ∧ old ≠ []
  · exact toSingleEdit_replace covers split both.1 both.2
  · have one : e.newLines = [] ∨ old = [] := by tauto
    by_cases more : back ≠ []
    · exact toSingleEdit_inside covers split one more
    · have none : back = [] := by tauto
      subst none
      rw [append_nil] at split
      exact toSingleEdit_last covers split one

theorem textReplacement_bounds : 0 ≤ (e.textReplacement ls.lines).start ∧
      (e.textReplacement ls.lines).stop ≤ ls.text.length := by
  obtain ⟨front, old, back, split, covers⟩ := exists_split first last
  have text : ls.text = joinLines (front ++ (old ++ back)) := by rw [Lines.text, split]
  rw [textReplacement_eq covers split, Edits.textReplacement, text]
  split
  · rename_i both
    rw [← closeLines_append_joinLines front (by simp [both.2]),
      ← joinLines_append_openLines both.2, length_append, length_append]
    simp only
    omega
  · split
    · rename_i more
      rw [← append_assoc, ← closeLines_append_joinLines (front ++ old) more, length_append]
      simp only
      omega
    · rename_i none
      have none : back = [] := by tauto
      subst none
      split
      · rw [append_nil]
        simp only
        omega
      · rename_i noFront
        have noFront : front = [] := by tauto
        subst noFront
        rw [append_nil, nil_append]
        simp only
        omega

end

/-- An insertion in front of the first line. -/
theorem textReplacement_first (ls : Lines) (start : e.lineRange.startLineNumber = 1)
    (stop : e.lineRange.endLineNumberExclusive = 1) :
    e.textReplacement ls.lines = ⟨0, 0, closeLines e.newLines⟩ := by
  rw [@textReplacement_eq ls.lines [] [] ls.lines e ⟨start, stop⟩ rfl, Edits.textReplacement,
    if_neg (by simp), if_pos ls.nonempty]
  rfl

/-- An insertion behind the last line. -/
theorem textReplacement_behind (ls : Lines)
    (start : e.lineRange.startLineNumber = ls.lines.length + 1)
    (stop : e.lineRange.endLineNumberExclusive = ls.lines.length + 1) :
    e.textReplacement ls.lines = ⟨ls.text.length, ls.text.length, openLines e.newLines⟩ := by
  rw [@textReplacement_eq ls.lines ls.lines [] [] e ⟨start, by rw [stop]; rfl⟩ (by simp),
    Edits.textReplacement, if_neg (by simp), if_neg (by simp), if_pos ls.nonempty,
    append_nil]
  rfl

/-- The deletion of everything. -/
theorem textReplacement_all (ls : Lines) (deletes : e.DeletesAll ls.lines) :
    e.textReplacement ls.lines = ⟨0, ls.text.length, []⟩ := by
  obtain ⟨nothing, start, stop⟩ := deletes
  rw [@textReplacement_eq ls.lines [] ls.lines [] e ⟨start, by rw [stop]; simp⟩ (by simp),
    Edits.textReplacement, if_neg (by simp [nothing]), if_neg (by simp), if_neg (by simp)]
  rfl

end SingleLineEdit

namespace LineEdit

variable {ls : Lines} {e : LineEdit}

theorem mapM_toSingleEdit {edits : List SingleLineEdit}
    (valid : ∀ e ∈ edits, 1 ≤ e.lineRange.startLineNumber ∧
      e.lineRange.endLineNumberExclusive ≤ ls.lines.length + 1) :
    ∃ offsetEdits, edits.mapM (·.toSingleEdit ls.text) = some offsetEdits ∧
      asPatch offsetEdits = edits.map (·.textReplacement ls.lines) := by
  induction edits with
  | nil => exact ⟨[], rfl, rfl⟩
  | cons e edits ih =>
    have own := valid e (by simp)
    obtain ⟨edit, isEdit, replacement⟩ := SingleLineEdit.toSingleEdit_eq own.1 own.2
    obtain ⟨rest, isRest, patches⟩ := ih fun other member =>
      valid other (mem_cons_of_mem _ member)
    refine ⟨edit :: rest, ?_, ?_⟩
    · rw [mapM_cons, isEdit, isRest]
      rfl
    · rw [asPatch_cons, replacement, patches, map_cons]

variable {edits : List SingleOffsetEdit}

theorem edits_of_new {edit : OffsetEdit} (isNew : OffsetEdit.new edits = some edit) :
    edit.edits = edits := by
  unfold OffsetEdit.new at isNew
  split at isNew
  · cases isNew
    rfl
  · cases isNew

/-- The replacements of text do what the replacements of lines do. -/
theorem patch_of_free {edits : List SingleLineEdit}
    (within : Within (ls.lines.length + 1) 1 (edits.map (·.replacement)))
    (keeps : ∀ edit ∈ edits, ¬edit.DeletesAll ls.lines)
    (free : edits.IsChain fun a b => ¬Collides ls.lines a b) :
    Within ls.text.length 0 (edits.map (·.textReplacement ls.lines)) ∧
      patch ls.text 0 (edits.map (·.textReplacement ls.lines)) =
        joinLines (patch ls.lines 1 (edits.map (·.replacement))) := by
  have walk := @agrees ls edits [] ls.lines rfl within keeps free []
  apply walk.closed ls.nonempty
  rintro edit isFirst ⟨nothing, toEnd, here⟩
  exact keeps edit (mem_of_mem_head? isFirst) ⟨nothing, here, toEnd⟩

/-- The edit of the text does what the line edit does. -/
theorem toEdit_of_free (valid : e.ValidOn ls.lines)
    (keeps : ∀ edit ∈ e.edits, ¬edit.DeletesAll ls.lines)
    (free : e.edits.IsChain fun a b => ¬Collides ls.lines a b) :
    ∃ edit, e.toEdit ls.text = some edit ∧ edit.apply ls.text = joinLines (e.apply ls.lines) := by
  obtain ⟨offsetEdits, isSome, patches⟩ := mapM_toSingleEdit valid
  obtain ⟨within, same⟩ := patch_of_free valid.within keeps free
  rw [← patches] at within same
  obtain ⟨edit, isNew, edits⟩ := OffsetEdit.new_of_within within
  refine ⟨edit, ?_, ?_⟩
  · rw [toEdit, isSome]
    exact isNew
  · rw [OffsetEdit.apply_eq (edits ▸ within), edits, apply_eq valid]
    exact same

theorem chain_of_sorted {lastEndEx : Int} (sorted : Sorted lastEndEx edits) :
    (asPatch edits).IsChain fun a b => a.stop ≤ b.start := by
  induction edits generalizing lastEndEx with
  | nil => exact .nil
  | cons edit edits ih =>
    rw [asPatch_cons, isChain_cons]
    refine ⟨?_, ih sorted.2⟩
    cases edits with
    | nil => simp
    | cons next edits =>
      intro patch isNext
      have same : next.replacement = patch := Option.some.inj isNext
      rw [← same]
      exact sorted.2.1

/-- An edit that cannot be built: the second edit starts in front of the end of the first. -/
theorem textReplacement_overlap {a b : SingleLineEdit}
    (valid : 1 ≤ a.lineRange.startLineNumber) (collides : Collides ls.lines a b) :
    (b.textReplacement ls.lines).start < (a.textReplacement ls.lines).stop := by
  obtain ⟨nothing, toEnd, notFirst, inside, behind, one⟩ := collides
  obtain ⟨front, old, back, split, covers⟩ := @SingleLineEdit.exists_split ls a valid (by omega)
  have sizes : ls.lines.length = front.length + old.length + back.length := by
    rw [split]
    simp only [length_append]
    omega
  have stop := covers.stop
  have more : back ≠ [] := by
    rintro rfl
    rw [length_nil] at sizes
    omega
  have only : ¬(a.newLines ≠ [] ∧ old ≠ []) := by
    rintro ⟨new, some⟩
    have positive := length_pos_of_ne_nil some
    have start := covers.start
    rcases one with none | empty
    · exact new none
    · rw [LineRange.isEmpty, decide_eq_true_eq] at empty
      omega
  have total : (front ++ old).length = front.length + old.length := length_append
  have covers' : b.Covers (front ++ old) back := by
    constructor
    · omega
    · omega
  have nonempty : front ++ old ≠ [] := by
    intro none
    rw [none, length_nil] at total
    omega
  rw [SingleLineEdit.textReplacement_eq covers split,
    @SingleLineEdit.textReplacement_eq ls.lines (front ++ old) back [] b covers'
      (by rw [split]; simp), textReplacement, textReplacement, if_neg only, if_pos more,
    if_neg (by simp [nothing]), if_neg (by simp), if_pos nonempty, length_closeLines nonempty]
  simp only
  omega

/-- Deleting everything takes a line feed too many or too few. -/
theorem apply_ne_of_deletesAll {edit : OffsetEdit} (valid : e.ValidOn ls.lines)
    {all : SingleLineEdit} (member : all ∈ e.edits) (deletes : all.DeletesAll ls.lines)
    (isEdit : e.toEdit ls.text = some edit) (nonempty : e.apply ls.lines ≠ []) :
    edit.apply ls.text ≠ joinLines (e.apply ls.lines) := by
  obtain ⟨offsetEdits, isSome, patches⟩ := mapM_toSingleEdit valid
  have edits : edit.edits = offsetEdits := by
    rw [toEdit, isSome] at isEdit
    exact edits_of_new isEdit
  have validOn : edit.ValidOn ls.text := by
    intro offsetEdit inEdits
    have inPatch : offsetEdit.replacement ∈ asPatch offsetEdits := by
      rw [← edits]
      exact mem_map_of_mem inEdits
    rw [patches] at inPatch
    obtain ⟨lineEdit, inLineEdits, same⟩ := mem_map.mp inPatch
    have own := valid lineEdit inLineEdits
    have bounds := SingleLineEdit.textReplacement_bounds own.1 own.2
    rw [same] at bounds
    exact bounds
  obtain ⟨before, behind, split⟩ := append_of_mem member
  have within := valid.within
  rw [split, map_append, map_cons] at within
  obtain ⟨isBefore, -, isBehind⟩ := within.split
  obtain ⟨nothing, start, stop⟩ := deletes
  -- the edits in front insert at the first line, those behind it insert behind the last line
  have points : ∀ other ∈ before, other.lineRange.startLineNumber = 1 ∧
      other.lineRange.endLineNumberExclusive = 1 := by
    intro other inBefore
    have bounds := isBefore.bounds_of_mem (mem_map_of_mem inBefore)
    simp only [SingleLineEdit.replacement, start] at bounds
    omega
  have points' : ∀ other ∈ behind, other.lineRange.startLineNumber = ls.lines.length + 1 ∧
        other.lineRange.endLineNumberExclusive = ls.lines.length + 1 := by
    intro other inBehind
    have bounds := isBehind.bounds_of_mem (mem_map_of_mem inBehind)
    simp only [SingleLineEdit.replacement, stop] at bounds
    omega
  have lines : e.apply ls.lines = before.flatMap (·.newLines) ++ behind.flatMap (·.newLines) := by
    have deleted := @patch_parts _ [] ls.lines [] 1 all.replacement
      (behind.map (·.replacement)) (by simp [SingleLineEdit.replacement, start]) (by
        simp only [SingleLineEdit.replacement, start, stop]
        omega)
    have inserted := @patch_points _ ([] : List Text) all.replacement.stop
      (behind.map (·.replacement)) [] (by
        intro r inPatch
        obtain ⟨other, inBehind, rfl⟩ := mem_map.mp inPatch
        have point := points' other inBehind
        rw [SingleLineEdit.replacement, SingleLineEdit.replacement, point.1, point.2, stop]
        exact ⟨rfl, rfl⟩)
    rw [append_nil, patch_nil, append_nil] at inserted
    rw [append_nil, nil_append] at deleted
    rw [apply_eq valid, split, map_append, map_cons, patch_points, deleted, inserted,
      flatMap_map, flatMap_map]
    · simp [SingleLineEdit.replacement, nothing]
    · intro r inPatch
      obtain ⟨other, inBefore, rfl⟩ := mem_map.mp inPatch
      have point := points other inBefore
      simp only [SingleLineEdit.replacement, point.1, point.2]
      omega
  have text : edit.apply ls.text =
      closeLines (before.flatMap (·.newLines)) ++ openLines (behind.flatMap (·.newLines)) := by
    have isAll := SingleLineEdit.textReplacement_all ls ⟨nothing, start, stop⟩
    have deleted := @patch_parts _ [] ls.text [] 0 (all.textReplacement ls.lines)
      (behind.map (·.textReplacement ls.lines)) (by simp [isAll]) (by simp [isAll])
    have inserted := @patch_points _ ([] : Text) (all.textReplacement ls.lines).stop
      (behind.map (·.textReplacement ls.lines)) [] (by
        intro r inPatch
        obtain ⟨other, inBehind, rfl⟩ := mem_map.mp inPatch
        have point := points' other inBehind
        rw [SingleLineEdit.textReplacement_behind ls point.1 point.2, isAll]
        exact ⟨rfl, rfl⟩)
    have texts : (before.map (·.textReplacement ls.lines)).flatMap (·.text) =
        closeLines (before.flatMap (·.newLines)) := by
      rw [flatMap_map, closeLines, flatMap_assoc]
      apply flatMap_congr
      intro other inBefore
      have point := points other inBefore
      rw [SingleLineEdit.textReplacement_first ls point.1 point.2]
      rfl
    have texts' : (behind.map (·.textReplacement ls.lines)).flatMap (·.text) =
        openLines (behind.flatMap (·.newLines)) := by
      rw [flatMap_map, openLines, flatMap_assoc]
      apply flatMap_congr
      intro other inBehind
      have point := points' other inBehind
      rw [SingleLineEdit.textReplacement_behind ls point.1 point.2]
      rfl
    rw [append_nil, patch_nil, append_nil, texts'] at inserted
    rw [append_nil, nil_append] at deleted
    rw [OffsetEdit.apply_eq validOn.within, edits, patches, split, map_append, map_cons,
      patch_points, deleted, inserted, texts, isAll]
    · rfl
    · intro r inPatch
      obtain ⟨other, inBefore, rfl⟩ := mem_map.mp inPatch
      have point := points other inBefore
      rw [SingleLineEdit.textReplacement_first ls point.1 point.2]
      exact ⟨rfl, rfl⟩
  intro same
  rw [lines] at nonempty same
  have lengths := congrArg List.length same
  rw [text, length_append, length_openLines, ← length_append, ← closeLines_append,
    length_closeLines nonempty] at lengths
  omega

/-- The text follows the lines exactly when no edit deletes all lines and no edit that
deletes the last lines has an insertion or a deletion right in front of it. -/
theorem toEdit_iff (valid : e.ValidOn ls.lines) (nonempty : e.apply ls.lines ≠ []) :
    (∃ edit, e.toEdit ls.text = some edit ∧ edit.apply ls.text = joinLines (e.apply ls.lines)) ↔
    (∀ edit ∈ e.edits, ¬edit.DeletesAll ls.lines) ∧
      e.edits.IsChain fun a b => ¬Collides ls.lines a b := by
  constructor
  · rintro ⟨edit, isEdit, same⟩
    constructor
    · intro all member deletes
      exact apply_ne_of_deletesAll valid member deletes isEdit nonempty same
    · obtain ⟨offsetEdits, isSome, patches⟩ := mapM_toSingleEdit valid
      rw [toEdit, isSome] at isEdit
      have chain := chain_of_sorted edit.sorted
      rw [edits_of_new isEdit, patches, isChain_map] at chain
      apply chain.imp_of_mem_imp
      intro a b inEdits inEdits' ordered collides
      have overlap := textReplacement_overlap (valid a inEdits).1 collides
      omega
  · rintro ⟨keeps, free⟩
    exact toEdit_of_free valid keeps free

end LineEdit

end CodeEditor.Edits
