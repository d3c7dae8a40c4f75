import CodeEditor.Edits.TextEditInverse

/-!
# Mapped positions follow the text

`mapPosition` moves positions by a line delta, and in one line by a column delta. The lines
are always right. How far the columns are off is computed beside the loop.
-/

namespace CodeEditor.Edits

open List Bool Nat

/-! ## The specification -/

/-- How much longer the edits in front of a position make the document; those that start at
the position do not count. -/
def growthBefore (edits : List SingleTextEdit) (doc : Text) (position : Position) : Int :=
  ((edits.filter fun e => e.range.getEndPosition.isBeforeOrEqual position &&
    e.range.getStartPosition ≠ position).map fun e => e.growthIn doc).sum

/-- A position is strictly inside the range of an edit. -/
def SingleTextEdit.StrictlyContains (edit : SingleTextEdit) (position : Position) : Prop :=
  edit.range.getStartPosition.isBefore position = true ∧
    position.isBefore edit.range.getEndPosition = true

def Position.mapped (position : Position) : MappedPosition :=
  ⟨position.lineNumber, position.column⟩

/-- A position is taken to where the text behind it is. -/
def TextEdit.Follows (edits : List SingleTextEdit) (doc : Text) (position : Position) : Prop :=
  ∃ result target, TextEdit.apply edits doc = some result ∧
    TextEdit.mapPosition edits position = .position target.mapped ∧ IsPosition result target ∧
    (offsetOf result target : Int) = offsetOf doc position + growthBefore edits doc position ∧
    ((∀ e ∈ edits, e.range.getStartPosition ≠ position) →
      result[offsetOf result target]? = doc[offsetOf doc position]?)

/-! ## How far the columns are off -/

/-- How far the columns behind an edit are off, when those in front of it are by `slip`. -/
def SingleTextEdit.slipBehind (edit : SingleTextEdit) (slip : Int) : Int :=
  if LF ∈ edit.text then edit.range.endColumn - 1 - lostColumns edit.text
  else if edit.range.endLineNumber = edit.range.startLineNumber then
    slip - lostColumns edit.text
  else slip - lostColumns edit.text - (edit.range.startColumn - 1)

/-- How far the mapped column is off; so far, the columns of a line are off by `slip`. -/
def slipFrom (position : Position) : (edits : List SingleTextEdit) → (line : Nat) →
    (slip : Int) → Int
  | [], line, slip => if position.lineNumber = line then slip else 0
  | edit :: edits, line, slip =>
    if position.isBeforeOrEqual edit.range.getStartPosition then
      if position.lineNumber = line then slip else 0
    else
      slipFrom position edits edit.range.endLineNumber
        (edit.slipBehind (if edit.range.startLineNumber = line then slip else 0))

def columnSlip (edits : List SingleTextEdit) (position : Position) : Int :=
  slipFrom position edits 0 0

/-- The deltas move what stands behind the old text to behind the new one, apart from the
columns of one line, which are off. -/
def Drifts (front newFront : Text) (lineDelta curLine columnDelta : Int) (line : Nat)
    (slip : Int) : Prop :=
  ∀ gap, (positionBehind (front ++ gap)).moved lineDelta curLine columnDelta =
    ⟨(positionBehind (newFront ++ gap)).lineNumber,
      (positionBehind (newFront ++ gap)).column +
        if (positionBehind (front ++ gap)).lineNumber = line then slip else 0⟩

theorem Drifts.start : Drifts [] [] 0 0 0 0 0 := by
  intro gap
  simp [Position.moved]

section Step

variable {front newFront : Text} {lineDelta curLine columnDelta slip : Int} {line : Nat}

theorem Drifts.append (drifts : Drifts front newFront lineDelta curLine columnDelta line slip)
    (gap : Text) :
    Drifts (front ++ gap) (newFront ++ gap) lineDelta curLine columnDelta line slip := by
  intro more
  rw [append_assoc, append_assoc]
  exact drifts (gap ++ more)

/-- The column delta behind an edit is right but for what the columns are off. -/
theorem column_columnDelta (front newFront old new : Text) (slip : Int) :
    ((positionBehind (front ++ old)).column : Int) +
        SingleTextEdit.columnDelta ⟨rangeBehind front old, new⟩
          ((positionBehind newFront).column - (positionBehind front).column + slip) =
      (positionBehind (newFront ++ new)).column +
        SingleTextEdit.slipBehind ⟨rangeBehind front old, new⟩ slip := by
  obtain ⟨lines, columns⟩ := countedExtent_spec new
  simp only [SingleTextEdit.columnDelta, SingleTextEdit.slipBehind, rangeBehind, Range.between,
    Range.getStartPosition, Range.getEndPosition, positionBehind, Position.ofExtent, ofText_eq,
    TextLength.ofExtent, lines, extent_append, Extent.lines_add]
  by_cases breaks : LF ∈ new
  · have several : (extent isLineFeed new).lines ≠ 0 :=
      fun none => lines_extent_eq_zero_iff.mp none breaks
    rw [if_neg several, if_pos breaks, Extent.columns_add_of_ne _ several]
    omega
  · have single := lines_extent_eq_zero_iff.mpr breaks
    rw [if_pos single, if_neg breaks, Extent.columns_add_of_eq _ single]
    by_cases sameLine : (extent isLineFeed old).lines = 0
    · rw [if_neg (by omega), if_pos (by omega), Extent.columns_add_of_eq _ sameLine]
      omega
    · rw [if_pos (by omega), if_neg (by omega), Extent.columns_add_of_ne _ sameLine]
      omega

/-- One edit: the deltas behind it, and how far the columns are off there. -/
theorem Drifts.edit (drifts : Drifts front newFront lineDelta curLine columnDelta line slip)
    (old new : Text) :
    Drifts (front ++ old) (newFront ++ new) (lineDelta + ((TextLength.ofText new).lineCount -
        ((rangeBehind front old).endLineNumber - (rangeBehind front old).startLineNumber : Int)))
      ((rangeBehind front old).endLineNumber + (lineDelta + ((TextLength.ofText new).lineCount -
        ((rangeBehind front old).endLineNumber - (rangeBehind front old).startLineNumber : Int))))
      (SingleTextEdit.columnDelta ⟨rangeBehind front old, new⟩
        (if (rangeBehind front old).startLineNumber + lineDelta ≠ curLine then 0
          else columnDelta))
      (rangeBehind front old).endLineNumber
      (SingleTextEdit.slipBehind ⟨rangeBehind front old, new⟩
        (if (rangeBehind front old).startLineNumber = line then slip else 0)) := by
  have moved := drifts []
  rw [append_nil, append_nil, Position.moved, MappedPosition.mk.injEq] at moved
  obtain ⟨startLine, startColumn⟩ := moved
  have counted := (countedExtent_spec new).1
  have delta : (if (rangeBehind front old).startLineNumber + lineDelta ≠ curLine then 0
      else columnDelta) = (positionBehind newFront).column - (positionBehind front).column +
        if (rangeBehind front old).startLineNumber = line then slip else 0 := by
    simp only [rangeBehind, Range.between]
    omega
  have column := column_columnDelta front newFront old new
    (if (rangeBehind front old).startLineNumber = line then slip else 0)
  rw [delta]
  intro gap
  generalize SingleTextEdit.columnDelta ⟨rangeBehind front old, new⟩ _ = columnDelta' at column ⊢
  simp only [Position.moved, MappedPosition.mk.injEq, rangeBehind, Range.between, positionBehind,
    Position.ofExtent, ofText_eq, TextLength.ofExtent, extent_append, Extent.lines_add,
    counted] at startLine column ⊢
  refine ⟨by omega, ?_⟩
  rw [Extent.columns_add _ (extent isLineFeed gap), Extent.columns_add _ (extent isLineFeed gap)]
  by_cases single : (extent isLineFeed gap).lines = 0
  · rw [if_pos single, if_pos single, if_pos (by omega), if_pos (by omega)]
    omega
  · rw [if_neg single, if_neg single, if_neg (by omega), if_neg (by omega)]

end Step

/-! ## The run of the loop -/

theorem isBefore_positionAt {doc : Text} {first last : Nat} (inside : last ≤ doc.length) :
    (positionAt doc first).isBefore (positionAt doc last) = true ↔ first < last := by
  rw [positionAt, positionAt, positionBehind, positionBehind, isBefore_ofExtent, ← not_le, ← not_le]
  exact not_congr (extent_take_le_iff isLineFeed inside)

theorem offsetOf_positionAt {doc : Text} {offset : Nat} (inside : offset ≤ doc.length) :
    offsetOf doc (positionAt doc offset) = offset := by
  have located := offsetOf_positionBehind (doc.take offset) (doc.drop offset)
  rw [take_append_drop, length_take, min_eq_left inside] at located
  exact located

theorem positionBehind_eq {doc front back : Text} (isDoc : doc = front ++ back) :
    positionBehind front = positionAt doc front.length := by
  rw [isDoc, positionAt_append]

/-- The edit is one of the document behind an offset. -/
def SingleTextEdit.IsBehind (edit : SingleTextEdit) (doc : Text) (offset : Nat) : Prop :=
  ∃ first last, offset ≤ first ∧ first ≤ last ∧ last ≤ doc.length ∧
    edit.range = .between (positionAt doc first) (positionAt doc last)

theorem SingleTextEdit.IsBehind.of_le {edit : SingleTextEdit}
    {offset earlier : Nat} (behind : edit.IsBehind doc offset) (le : earlier ≤ offset) :
    edit.IsBehind doc earlier := by
  obtain ⟨first, last, start, rest⟩ := behind
  exact ⟨first, last, le_trans le start, rest⟩

/-- An edit that makes a change is behind the text in front of the change. -/
theorem isBehind_change {doc front old new back : Text} (isDoc : doc = front ++ (old ++ back)) :
    SingleTextEdit.IsBehind ⟨rangeBehind front old, new⟩ doc front.length := by
  have isDoc' : doc = front ++ old ++ back := by rw [isDoc, append_assoc]
  refine ⟨front.length, (front ++ old).length, le_refl _, ?_, ?_, ?_⟩
  · rw [length_append]
    exact le_add_right _ _
  · rw [isDoc']
    exact (prefix_append _ _).length_le
  · rw [← positionBehind_eq isDoc, ← positionBehind_eq isDoc']
    rfl

theorem isBehind_changeEdits {doc tail front : Text}
    (isDoc : doc = front ++ Change.before changes tail) :
    ∀ e ∈ changeEdits front changes, e.IsBehind doc front.length := by
  induction changes generalizing front with
  | nil => simp [changeEdits]
  | cons change changes ih =>
    rw [changeEdits, forall_mem_cons]
    rw [Change.before_cons, ← append_assoc] at isDoc
    constructor
    · apply (isBehind_change isDoc).of_le
      rw [length_append]
      exact le_add_right _ _
    · intro e later
      rw [← append_assoc] at isDoc
      apply (ih isDoc e later).of_le
      rw [length_append, length_append, add_assoc]
      exact le_add_right _ _

variable {edits : List SingleTextEdit}

/-- The edits behind an offset do not count. -/
theorem growthBefore_eq_zero (behind : ∀ e ∈ edits, e.IsBehind doc offset) :
    growthBefore edits doc (positionAt doc offset) = 0 := by
  rw [growthBefore, filter_eq_nil_iff.mpr, map_nil, sum_nil]
  intro e member counts
  obtain ⟨first, last, start, ordered, stop, range⟩ := behind e member
  rw [and_eq_true, decide_eq_true_eq, range, getEndPosition_between,
    getStartPosition_between, isBeforeOrEqual_positionAt stop] at counts
  apply counts.2
  rw [show first = offset by omega]

section Run

variable {doc result tail front newFront : Text} {changes : List (Change CodeUnit)}
  {lineDelta curLine columnDelta slip : Int} {line offset : Nat}

/-- What the loop gives: a place of the result and how far its column is off. -/
def Lands (doc result : Text) (edits : List SingleTextEdit) (position : Position)
    (mapped : Mapped) (growth slip : Int) (offset : Nat) : Prop :=
  ∃ target ≤ result.length, mapped = .position ⟨(positionAt result target).lineNumber,
      (positionAt result target).column + slip⟩ ∧
    (target : Int) = offset + (growth + growthBefore edits doc position) ∧
    ((∀ e ∈ edits, e.range.getStartPosition ≠ position) → result[target]? = doc[offset]?)

/-- The position is not behind the start of the next edit. -/
theorem lands_between {gap back newBack : Text} (isDoc : doc = front ++ (gap ++ back))
    (isResult : result = newFront ++ (gap ++ newBack))
    (drifts : Drifts front newFront lineDelta curLine columnDelta line slip)
    (behindFront : front.length ≤ offset) (upTo : offset ≤ (front ++ gap).length)
    (behind : ∀ e ∈ edits, e.IsBehind doc offset)
    (same : (∀ e ∈ edits, e.range.getStartPosition ≠ positionAt doc offset) →
      offset = (front ++ gap).length → newBack.head? = back.head?) :
    Lands doc result edits (positionAt doc offset)
      (.position ((positionAt doc offset).moved lineDelta curLine columnDelta))
      (newFront.length - front.length)
      (if (positionAt doc offset).lineNumber = line then slip else 0) offset := by
  rw [length_append] at upTo
  obtain ⟨k, rfl⟩ := Nat.exists_eq_add_of_le behindFront
  have inGap : k ≤ gap.length := by omega
  have parts : gap = gap.take k ++ gap.drop k := (take_append_drop k gap).symm
  have count : (gap.take k).length = k := by rw [length_take, Nat.min_eq_left inGap]
  have place : positionAt doc (front.length + k) = positionBehind (front ++ gap.take k) := by
    have isDoc' : doc = front ++ gap.take k ++ (gap.drop k ++ back) := by
      rw [isDoc, append_assoc, ← append_assoc (gap.take k), ← parts]
    rw [positionBehind_eq isDoc', length_append, count]
  have newPlace : positionAt result (newFront.length + k) =
      positionBehind (newFront ++ gap.take k) := by
    have isResult' : result = newFront ++ gap.take k ++ (gap.drop k ++ newBack) := by
      rw [isResult, append_assoc, ← append_assoc (gap.take k), ← parts]
    rw [positionBehind_eq isResult', length_append, count]
  have skip : ∀ first rest : Text, (first ++ rest)[first.length + k]? = rest[k]? := by
    intro first rest
    rw [getElem?_append_right (Nat.le_add_right _ _), Nat.add_sub_cancel_left]
  refine ⟨newFront.length + k, ?_, ?_, ?_, ?_⟩
  · rw [isResult, length_append, length_append]
    omega
  · rw [newPlace, place, drifts (gap.take k)]
  · rw [growthBefore_eq_zero behind]
    omega
  · intro noStart
    rw [isDoc, isResult, skip, skip]
    by_cases inner : k < gap.length
    · rw [getElem?_append_left inner, getElem?_append_left inner]
    · have atEnd : k = gap.length := by omega
      have heads := same noStart (by rw [length_append, atEnd])
      rw [atEnd, getElem?_append_right (Nat.le_refl _),
        getElem?_append_right (Nat.le_refl _), Nat.sub_self, ← head?_eq_getElem?,
        ← head?_eq_getElem?, heads]

/-- An edit in front of the position counts. -/
theorem Lands.cons {edit : SingleTextEdit} {position : Position} {mapped : Mapped} {growth : Int}
    (lands : Lands doc result edits position mapped (growth + edit.growthIn doc) slip offset)
    (stop : edit.range.getEndPosition.isBeforeOrEqual position = true)
    (start : edit.range.getStartPosition ≠ position) :
    Lands doc result (edit :: edits) position mapped growth slip offset := by
  obtain ⟨target, inside, isMapped, isTarget, same⟩ := lands
  refine ⟨target, inside, isMapped, ?_, ?_⟩
  · rw [growthBefore, filter_cons_of_pos (by simp [stop, start]), map_cons, sum_cons]
    rw [growthBefore] at isTarget
    omega
  · intro noStart
    exact same fun e later => noStart e (mem_cons_of_mem _ later)

/-- The loop lands where the text behind the position is, apart from the column. -/
theorem mapPositionFrom_lands (isDoc : doc = front ++ Change.before changes tail)
    (isResult : result = newFront ++ Change.after changes tail)
    (drifts : Drifts front newFront lineDelta curLine columnDelta line slip)
    (behindFront : front.length ≤ offset) (inside : offset ≤ doc.length)
    (outside : ∀ e ∈ changeEdits front changes, ¬e.StrictlyContains (positionAt doc offset)) :
    Lands doc result (changeEdits front changes) (positionAt doc offset)
      (TextEdit.mapPositionFrom (positionAt doc offset) (changeEdits front changes) lineDelta
        curLine columnDelta)
      (newFront.length - front.length)
      (slipFrom (positionAt doc offset) (changeEdits front changes) line slip) offset := by
  induction changes generalizing front newFront lineDelta curLine columnDelta line slip with
  | nil =>
    have isDoc' : doc = front ++ (tail ++ []) := by rw [isDoc, Change.before_nil, append_nil]
    have isResult' : result = newFront ++ (tail ++ []) := by rw [isResult, Change.after_nil,
      append_nil]
    rw [changeEdits, TextEdit.mapPositionFrom, slipFrom]
    apply lands_between isDoc' isResult' drifts behindFront
    · rwa [isDoc', append_nil] at inside
    · simp
    · simp
  | cons change changes ih =>
    have atStart : positionBehind (front ++ change.gap) =
        positionAt doc (front ++ change.gap).length := by
      apply positionBehind_eq
      rw [isDoc, Change.before_cons, append_assoc]
    have isDoc' : doc = front ++ change.gap ++ change.old ++ Change.before changes tail := by
      rw [isDoc, Change.before_cons]
      simp only [append_assoc]
    have atStop := positionBehind_eq isDoc'
    have parts := isDoc'
    rw [append_assoc] at parts
    have own := @isBehind_change doc _ _ change.new _ parts
    have count : (front ++ change.gap ++ change.old).length =
        (front ++ change.gap).length + change.old.length := length_append
    rw [changeEdits, forall_mem_cons] at outside
    rw [changeEdits, TextEdit.mapPositionFrom, slipFrom]
    by_cases upTo : offset ≤ (front ++ change.gap).length
    · have before : (positionAt doc offset).isBeforeOrEqual
          (rangeBehind (front ++ change.gap) change.old).getStartPosition = true := by
        rw [rangeBehind, getStartPosition_between, atStart]
        exact (isBeforeOrEqual_positionAt inside).mpr upTo
      simp only [before, if_true]
      apply lands_between isDoc isResult drifts behindFront upTo
      · rw [forall_mem_cons]
        constructor
        · exact own.of_le upTo
        · intro e later
          apply (isBehind_changeEdits isDoc' e later).of_le
          omega
      · intro noStart atGap
        have starts := noStart _ (mem_cons_self ..)
        rw [rangeBehind, getStartPosition_between, atStart, atGap] at starts
        exact absurd rfl starts
    · have behindStart : (front ++ change.gap).length < offset := by omega
      have stopInside : (front ++ change.gap ++ change.old).length ≤ doc.length := by
        rw [isDoc']
        exact (prefix_append _ _).length_le
      have behindStop : (front ++ change.gap ++ change.old).length ≤ offset := by
        by_contra! inRange
        apply outside.1
        rw [SingleTextEdit.StrictlyContains, rangeBehind, getStartPosition_between,
          getEndPosition_between, atStart, atStop]
        exact ⟨(isBefore_positionAt inside).mpr behindStart,
          (isBefore_positionAt stopInside).mpr inRange⟩
      have notBefore : (positionAt doc offset).isBeforeOrEqual
          (rangeBehind (front ++ change.gap) change.old).getStartPosition = false := by
        rw [rangeBehind, getStartPosition_between, atStart, eq_false_iff]
        exact mt (isBeforeOrEqual_positionAt inside).mp upTo
      have notInside : (positionAt doc offset).isBefore
          (rangeBehind (front ++ change.gap) change.old).getEndPosition = false := by
        rw [rangeBehind, getEndPosition_between, atStop, eq_false_iff]
        exact mt (isBefore_positionAt stopInside).mp (by omega)
      have isResult' : result =
          newFront ++ change.gap ++ change.new ++ Change.after changes tail := by
        rw [isResult, Change.after_cons]
        simp only [append_assoc]
      have rest := ih isDoc' isResult'
        ((drifts.append change.gap).edit change.old change.new) behindStop outside.2
      simp only [notBefore, notInside, false_eq_true, if_false]
      have growth := growthIn_change (front ++ change.gap) (Change.before changes tail) change
      rw [← parts] at growth
      apply Lands.cons
      · rw [growth]
        have sum : (newFront.length : Int) - front.length + change.growth =
            ((newFront ++ change.gap ++ change.new).length : Nat) -
              ((front ++ change.gap ++ change.old).length : Nat) := by
          simp only [Change.growth, length_append]
          omega
        rw [sum]
        exact rest
      · rw [rangeBehind, getEndPosition_between, atStop]
        exact (isBeforeOrEqual_positionAt stopInside).mpr behindStop
      · rw [rangeBehind, getStartPosition_between, atStart]
        intro equal
        have offsets := congrArg (offsetOf doc) equal
        rw [offsetOf_positionAt inside, offsetOf_positionAt (by omega)] at offsets
        omega

end Run

/-! ## Where positions go -/

namespace TextEdit

/-- A position that no edit strictly contains follows the text when the columns are not off
there, and only then. -/
theorem mapPosition_follows_iff (edits : List SingleTextEdit) (doc : Text)
    (position : Position) (valid : ValidOn edits doc) (isPosition : IsPosition doc position)
    (outside : ∀ e ∈ edits, ¬e.StrictlyContains position)
    (short : doc.length < MAX_SAFE_INTEGER) :
    Follows edits doc position ↔ columnSlip edits position = 0 := by
  obtain ⟨changes, tail, isDoc, rfl⟩ := valid.exists_changes
  obtain ⟨offset, inside, rfl⟩ := isPosition
  have applied := apply_changeEdits changes tail (isDoc ▸ short)
  rw [← isDoc] at applied
  obtain ⟨target, inResult, isMapped, isTarget, same⟩ :=
    @mapPositionFrom_lands doc (Change.after changes tail) tail [] [] changes 0 0 0 0 0 offset
      isDoc rfl Drifts.start (zero_le _) inside outside
  rw [Int.sub_self, Int.zero_add] at isTarget
  have atTarget := offsetOf_positionAt inResult
  constructor
  · rintro ⟨result, found, isResult, isFound, ⟨place, inPlace, rfl⟩, offsets, -⟩
    rw [applied, Option.some.injEq] at isResult
    rw [← isResult] at inPlace isFound offsets
    rw [offsetOf_positionAt inPlace, offsetOf_positionAt inside] at offsets
    have samePlace : place = target := by omega
    rw [mapPosition, isMapped, samePlace, Mapped.position.injEq, Position.mapped,
      MappedPosition.mk.injEq] at isFound
    rw [columnSlip]
    omega
  · intro noSlip
    rw [columnSlip] at noSlip
    refine ⟨_, positionAt (Change.after changes tail) target, applied, ?_,
      ⟨target, inResult, rfl⟩, ?_, ?_⟩
    · rw [mapPosition, isMapped, noSlip, Int.add_zero, Position.mapped]
    · rw [atTarget, offsetOf_positionAt inside, isTarget]
    · rw [atTarget, offsetOf_positionAt inside]
      exact same

/-- The second character of `ab` is mapped behind an insertion at the start. -/
theorem mapPosition_follows_inserted :
    Follows [⟨⟨1, 1, 1, 1⟩, [120]⟩] [97, 98] ⟨1, 2⟩ ↔
      columnSlip [⟨⟨1, 1, 1, 1⟩, [120]⟩] ⟨1, 2⟩ = 0 := by
  have isStart : IsPosition [97, 98] ⟨1, 1⟩ := ⟨0, by decide, by decide⟩
  apply mapPosition_follows_iff
  · constructor
    · simpa [Range.getStartPosition] using isStart
    · simpa [Range.getEndPosition] using isStart
    · decide
    · rfl
  · exact ⟨1, by decide, by decide⟩
  · simp [SingleTextEdit.StrictlyContains, Range.getStartPosition, Range.getEndPosition,
      Position.isBefore]
  · decide

/-- The line break of `abc`, `def` is deleted with the characters around it: the `f` is
mapped two columns too far to the left. -/
theorem mapPosition_loses_startColumn :
    ValidOn [⟨⟨1, 3, 2, 2⟩, []⟩] [97, 98, 99, 10, 100, 101, 102] ∧
      IsPosition [97, 98, 99, 10, 100, 101, 102] ⟨2, 3⟩ ∧
      (∀ e ∈ [(⟨⟨1, 3, 2, 2⟩, []⟩ : SingleTextEdit)], ¬e.StrictlyContains ⟨2, 3⟩) ∧
      ¬Follows [⟨⟨1, 3, 2, 2⟩, []⟩] [97, 98, 99, 10, 100, 101, 102] ⟨2, 3⟩ := by
  have isStart : IsPosition [97, 98, 99, 10, 100, 101, 102] ⟨1, 3⟩ := ⟨2, by decide, by decide⟩
  have isStop : IsPosition [97, 98, 99, 10, 100, 101, 102] ⟨2, 2⟩ := ⟨5, by decide, by decide⟩
  have applied : apply [⟨⟨1, 3, 2, 2⟩, []⟩] [97, 98, 99, 10, 100, 101, 102] =
      some [97, 98, 101, 102] := by decide
  have mapped : mapPosition [⟨⟨1, 3, 2, 2⟩, []⟩] ⟨2, 3⟩ = .position ⟨1, 2⟩ := by decide
  refine ⟨?_, ⟨6, by decide, by decide⟩, ?_, ?_⟩
  · constructor
    · simpa [Range.getStartPosition] using isStart
    · simpa [Range.getEndPosition] using isStop
    · decide
    · rfl
  · simp [SingleTextEdit.StrictlyContains, Range.getStartPosition, Range.getEndPosition,
      Position.isBefore]
  · rintro ⟨result, ⟨line, column⟩, isResult, isMapped, -, offsets, -⟩
    rw [applied, Option.some.injEq] at isResult
    rw [mapped] at isMapped
    simp only [Position.mapped, Mapped.position.injEq, MappedPosition.mk.injEq] at isMapped
    have isLine : line = 1 := by omega
    have isColumn : column = 2 := by omega
    rw [← isResult, isLine, isColumn] at offsets
    revert offsets
    decide

end TextEdit

end CodeEditor.Edits
