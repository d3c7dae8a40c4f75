import CodeEditor.Edits.TextPositions

/-!
# Text edits as changes

The edits that are valid on a document cut it up into changes. What `apply` gives and what
`getNewRanges` should give are read off the cut.
-/

namespace CodeEditor.Edits

open List Option Nat

/-- The ranges are ranges of the document, and they pass the check of the constructor. -/
structure TextEdit.ValidOn (edits : List SingleTextEdit) (doc : Text) : Prop where
  starts : ∀ e ∈ edits, IsPosition doc e.range.getStartPosition
  stops : ∀ e ∈ edits, IsPosition doc e.range.getEndPosition
  ordered : ∀ e ∈ edits,
    e.range.getStartPosition.isBeforeOrEqual e.range.getEndPosition = true
  constructed : TextEdit.new edits = some edits

/-- The range of a text behind another. -/
def rangeBehind (front text : Text) : Range :=
  .between (positionBehind front) (positionBehind (front ++ text))

/-- The edits that make changes behind a text. -/
def changeEdits : (front : Text) → List (Change CodeUnit) → List SingleTextEdit
  | _, [] => []
  | front, change :: changes =>
    ⟨rangeBehind (front ++ change.gap) change.old, change.new⟩ ::
      changeEdits (front ++ change.gap ++ change.old) changes

/-! ## The cut -/

theorem isBeforeOrEqual_positionAt {doc : Text} {first last : Nat} (inside : first ≤ doc.length) :
    (positionAt doc first).isBeforeOrEqual (positionAt doc last) = true ↔ first ≤ last := by
  rw [positionAt, positionAt, positionBehind, positionBehind, isBeforeOrEqual_ofExtent]
  exact extent_take_le_iff isLineFeed inside

theorem take_split (doc : Text) {first last : Nat} (ordered : first ≤ last) :
    doc.take last = doc.take first ++ (doc.take last).drop first := by
  conv_lhs => rw [← take_append_drop first (doc.take last)]
  rw [take_take, min_eq_left ordered]

/-- Edits in order behind an offset cut up the rest of the document. -/
theorem exists_changes_behind {doc : Text} {edits : List SingleTextEdit} {offset : Nat}
    (inside : offset ≤ doc.length)
    (starts : ∀ e ∈ edits, IsPosition doc e.range.getStartPosition)
    (stops : ∀ e ∈ edits, IsPosition doc e.range.getEndPosition)
    (ordered : ∀ e ∈ edits, e.range.getStartPosition.isBeforeOrEqual e.range.getEndPosition = true)
    (sorted : edits.IsChain fun a b =>
      a.range.getEndPosition.isBeforeOrEqual b.range.getStartPosition = true)
    (behind : ∀ e ∈ edits.head?,
      (positionAt doc offset).isBeforeOrEqual e.range.getStartPosition = true) :
    ∃ changes tail, doc.drop offset = Change.before changes tail ∧
      edits = changeEdits (doc.take offset) changes := by
  induction edits generalizing offset with
  | nil => exact ⟨[], doc.drop offset, rfl, rfl⟩
  | cons e edits ih =>
    obtain ⟨first, inFirst, isFirst⟩ := starts e (by simp)
    obtain ⟨last, inLast, isLast⟩ := stops e (by simp)
    have own := ordered e (by simp)
    have gap := behind e (by simp)
    rw [isFirst, isLast, isBeforeOrEqual_positionAt inFirst] at own
    rw [isFirst, isBeforeOrEqual_positionAt inside] at gap
    rw [isChain_cons] at sorted
    have later := sorted.1
    rw [isLast] at later
    obtain ⟨changes, tail, isRest, areEdits⟩ := ih inLast
      (fun other member => starts other (mem_cons_of_mem _ member))
      (fun other member => stops other (mem_cons_of_mem _ member))
      (fun other member => ordered other (mem_cons_of_mem _ member)) sorted.2 later
    have toFirst := take_split doc gap
    have toLast := take_split doc own
    refine ⟨⟨(doc.take first).drop offset, (doc.take last).drop first, e.text⟩ :: changes, tail,
      ?_, ?_⟩
    · rw [Change.before_cons, ← isRest]
      have whole : doc = doc.take offset ++ ((doc.take first).drop offset ++
          ((doc.take last).drop first ++ doc.drop last)) := by
        rw [← append_assoc, ← toFirst, ← append_assoc, ← toLast, take_append_drop]
      conv_lhs => rw [whole]
      rw [drop_append, length_take, Nat.min_eq_left inside, Nat.sub_self,
        drop_of_length_le, drop_zero, nil_append]
      rw [length_take]
      omega
    · rw [changeEdits, rangeBehind, ← toFirst, ← toLast, ← areEdits]
      congr 1
      have range := Range.between_positions e.range
      rw [isFirst, isLast] at range
      rw [show Range.between (positionBehind (doc.take first))
        (positionBehind (doc.take last)) = e.range from range]

theorem TextEdit.ValidOn.exists_changes (valid : TextEdit.ValidOn edits doc) :
    ∃ changes tail, doc = Change.before changes tail ∧ edits = changeEdits [] changes := by
  have sorted := valid.constructed
  rw [TextEdit.new] at sorted
  split at sorted
  · rename_i checked
    apply @exists_changes_behind doc edits 0 (zero_le _) valid.starts valid.stops valid.ordered
      (checkAdjacentItems_iff.mp checked)
    intro e member
    obtain ⟨first, inFirst, isFirst⟩ := valid.starts e (mem_of_mem_head? member)
    rw [isFirst, isBeforeOrEqual_positionAt (zero_le _)]
    exact zero_le _
  · cases sorted

/-- The edits of changes pass the check of the constructor. -/
theorem new_changeEdits (front : Text) (changes : List (Change CodeUnit)) :
    TextEdit.new (changeEdits front changes) = some (changeEdits front changes) := by
  rw [TextEdit.new, if_pos]
  rw [checkAdjacentItems_iff]
  induction changes generalizing front with
  | nil => exact .nil
  | cons change changes ih =>
    rw [changeEdits, isChain_cons]
    refine ⟨?_, ih _⟩
    cases changes with
    | nil => simp [changeEdits]
    | cons next changes =>
      intro e member
      cases member
      exact isBeforeOrEqual_ofExtent.mpr (extent_le_append _ _)

/-! ## What is applied -/

theorem applyFrom_changeEdits (front : Text) (changes : List (Change CodeUnit)) (tail : Text)
    (short : (front ++ Change.before changes tail).length < MAX_SAFE_INTEGER) :
    TextEdit.applyFrom (front ++ Change.before changes tail) (changeEdits front changes)
      (positionBehind front) = some (Change.after changes tail) := by
  induction changes generalizing front with
  | nil =>
    have value := valueBetween_eq front tail []
    rw [append_nil] at value
    rw [changeEdits, TextEdit.applyFrom, endPositionExclusive_eq]
    exact value short
  | cons change changes ih =>
    have parts : front ++ Change.before (change :: changes) tail =
        front ++ change.gap ++ change.old ++ Change.before changes tail := by
      simp [append_assoc]
    have rest := ih (front ++ change.gap ++ change.old) (parts ▸ short)
    have value := valueBetween_eq front change.gap (change.old ++ Change.before changes tail) short
    rw [changeEdits, TextEdit.applyFrom]
    simp only [rangeBehind, getStartPosition_between, getEndPosition_between]
    rw [Change.before_cons, value, ← Change.before_cons, parts, rest, Change.after_cons]
    simp [append_assoc]

theorem apply_changeEdits (changes : List (Change CodeUnit)) (tail : Text)
    (short : (Change.before changes tail).length < MAX_SAFE_INTEGER) :
    TextEdit.apply (changeEdits [] changes) (Change.before changes tail) =
      some (Change.after changes tail) :=
  applyFrom_changeEdits [] changes tail short

/-! ## Offsets in the result -/

/-- The offset of a position. -/
def offsetOf (doc : Text) (position : Position) : Nat :=
  ((PositionOffsetTransformer.new doc).getOffset position).getD 0

/-- How much longer an edit makes the document. -/
def SingleTextEdit.growthIn (edit : SingleTextEdit) (doc : Text) : Int :=
  edit.text.length -
    (offsetOf doc edit.range.getEndPosition - offsetOf doc edit.range.getStartPosition)

/-- The ranges that the texts of edits take in the result; `growth` is how much longer the
earlier edits make the document. -/
def occupied (doc result : Text) : (growth : Int) → List SingleTextEdit → List Range
  | _, [] => []
  | growth, edit :: edits =>
    let start := (offsetOf doc edit.range.getStartPosition + growth).toNat
    .between (positionAt result start) (positionAt result (start + edit.text.length)) ::
      occupied doc result (growth + edit.growthIn doc) edits

theorem offsetOf_positionBehind (front back : Text) :
    offsetOf (front ++ back) (positionBehind front) = front.length := by
  rw [offsetOf, getOffset_positionBehind, getD_some]

theorem positionAt_append (front back : Text) :
    positionAt (front ++ back) front.length = positionBehind front := by
  rw [positionAt, take_left]

/-- The change of the document behind a text. -/
theorem growthIn_change (front back : Text) (change : Change CodeUnit) :
    SingleTextEdit.growthIn ⟨rangeBehind front change.old, change.new⟩
      (front ++ (change.old ++ back)) = change.growth := by
  have start := offsetOf_positionBehind front (change.old ++ back)
  have stop := offsetOf_positionBehind (front ++ change.old) back
  rw [append_assoc] at stop
  simp only [SingleTextEdit.growthIn, rangeBehind, getStartPosition_between,
    getEndPosition_between, start, stop, Change.growth, length_append]
  omega

/-- The texts of changes take the ranges of the changes back. -/
theorem occupied_changeEdits (front newFront tail : Text) (changes : List (Change CodeUnit)) :
    occupied (front ++ Change.before changes tail) (newFront ++ Change.after changes tail)
        (newFront.length - front.length) (changeEdits front changes) =
      (changeEdits newFront (changes.map Change.swap)).map SingleTextEdit.range := by
  induction changes generalizing front newFront with
  | nil => rfl
  | cons change changes ih =>
    have old : front ++ Change.before (change :: changes) tail =
        front ++ change.gap ++ (change.old ++ Change.before changes tail) := by
      simp [append_assoc]
    have new : newFront ++ Change.after (change :: changes) tail =
        newFront ++ change.gap ++ (change.new ++ Change.after changes tail) := by
      simp [append_assoc]
    have start := offsetOf_positionBehind (front ++ change.gap)
      (change.old ++ Change.before changes tail)
    have newStart := positionAt_append (newFront ++ change.gap)
      (change.new ++ Change.after changes tail)
    have newStop := positionAt_append (newFront ++ change.gap ++ change.new)
      (Change.after changes tail)
    have rest := ih (front ++ change.gap ++ change.old) (newFront ++ change.gap ++ change.new)
    have growth := growthIn_change (front ++ change.gap) (Change.before changes tail) change
    rw [old, new, map_cons, changeEdits, changeEdits, occupied, map_cons]
    simp only [growth]
    simp only [rangeBehind, getStartPosition_between, start]
    have isStart : (((front ++ change.gap).length : Nat) +
        ((newFront.length : Int) - front.length)).toNat = (newFront ++ change.gap).length := by
      rw [length_append, length_append]
      omega
    have isStop : (newFront ++ change.gap).length + change.new.length =
        (newFront ++ change.gap ++ change.new).length := length_append.symm
    have sum : (newFront.length : Int) - front.length + change.growth =
        ((newFront ++ change.gap ++ change.new).length : Nat) -
          ((front ++ change.gap ++ change.old).length : Nat) := by
      simp only [Change.growth, length_append]
      omega
    rw [isStart, isStop, newStart, sum, ← append_assoc (front ++ change.gap),
      ← append_assoc (newFront ++ change.gap), newStop, rest]
    rfl

/-!
## The inverse of a text edit

`getNewRanges` follows the edits with an offset for the lines and one for the columns. The
two are right while the lengths of the texts are, which `ofText` counts in code points.
-/

/-! ## The new ranges -/

/-- The offsets of the loop take what stands behind the old text to behind the new one. -/
structure Tracks (front newFront : Text) (previousEditEndLineNumber : Nat)
    (lineOffset columnOffset : Int) : Prop where
  lines : ∀ gap, ((extent isLineFeed (front ++ gap)).lines : Int) + lineOffset =
    (extent isLineFeed (newFront ++ gap)).lines
  columns : ∀ gap, ((extent isLineFeed (front ++ gap)).columns : Int) +
    (if (extent isLineFeed (front ++ gap)).lines + 1 = previousEditEndLineNumber then columnOffset
      else 0) = (extent isLineFeed (newFront ++ gap)).columns

theorem Tracks.start : Tracks [] [] 0 0 0 := by
  constructor
  · simp
  · simp

/-- Behind an edit, the offsets are the differences of its ends. -/
theorem Tracks.behind (front newFront : Text) :
    Tracks front newFront (positionBehind front).lineNumber
      ((positionBehind newFront).lineNumber - (positionBehind front).lineNumber)
      ((positionBehind newFront).column - (positionBehind front).column) := by
  simp only [positionBehind, Position.ofExtent]
  constructor
  · intro gap
    rw [extent_append, extent_append, Extent.lines_add, Extent.lines_add]
    omega
  · intro gap
    rw [extent_append, extent_append, Extent.lines_add, Extent.columns_add, Extent.columns_add]
    by_cases single : (extent isLineFeed gap).lines = 0
    · rw [if_pos single, if_pos single, if_pos (by omega)]
      omega
    · rw [if_neg single, if_neg single, if_neg (by omega)]
      omega

theorem createRange_ofExtent (a e : Extent) : (TextLength.ofExtent e).createRange (.ofExtent a) =
      .between (.ofExtent a) (.ofExtent (a + e)) := by
  have ordered := Range.new_ofExtent (Extent.le_add a e)
  have sum := addToPosition_ofExtent a e
  rw [← sum] at ordered ⊢
  rw [TextLength.addToPosition] at ordered ⊢
  rw [TextLength.createRange]
  by_cases single : (TextLength.ofExtent e).lineCount = 0
  · rw [if_pos single] at ordered ⊢
    rw [if_pos single]
    exact ordered
  · rw [if_neg single] at ordered ⊢
    rw [if_neg single]
    exact ordered

theorem rangeBehind_injective {front text : Text} {e : Extent}
    (equal : Range.between (positionBehind front) (.ofExtent (extent isLineFeed front + e)) =
      rangeBehind front text) : e = extent isLineFeed text := by
  have stops := congrArg Range.getEndPosition equal
  have extents := Position.ofExtent_injective stops
  rw [extent_append] at extents
  exact Extent.add_left_cancel extents

/-- The new ranges are those of the changes back when no columns are lost, and only then. -/
theorem newRangesFrom_eq_iff {front newFront : Text} {changes : List (Change CodeUnit)}
    {previousEditEndLineNumber : Nat} {lineOffset columnOffset : Int}
    (tracks : Tracks front newFront previousEditEndLineNumber lineOffset columnOffset) :
    TextEdit.newRangesFrom (changeEdits front changes) previousEditEndLineNumber lineOffset
        columnOffset =
      (changeEdits newFront (changes.map Change.swap)).map SingleTextEdit.range ↔
    ∀ change ∈ changes, lostColumns change.new = 0 := by
  induction changes generalizing front newFront previousEditEndLineNumber lineOffset
      columnOffset with
  | nil => simp [changeEdits, TextEdit.newRangesFrom]
  | cons change changes ih =>
    have lines := tracks.lines change.gap
    have columns := tracks.columns change.gap
    have start : (⟨(((rangeBehind (front ++ change.gap) change.old).startLineNumber : Int) +
          lineOffset).toNat,
        (((rangeBehind (front ++ change.gap) change.old).startColumn : Int) +
          if (rangeBehind (front ++ change.gap) change.old).startLineNumber =
            previousEditEndLineNumber then columnOffset else 0).toNat⟩ : Position) =
        positionBehind (newFront ++ change.gap) := by
      simp only [rangeBehind, Range.between, positionBehind, Position.ofExtent, Position.mk.injEq]
      constructor
      · omega
      · split_ifs at columns ⊢ <;> omega
    have range := createRange_ofExtent (extent isLineFeed (newFront ++ change.gap))
      (countedExtent change.new)
    rw [changeEdits, TextEdit.newRangesFrom, map_cons, changeEdits, map_cons]
    rw [start, ofText_eq, positionBehind, range, cons_eq_cons, forall_mem_cons,
      ← countedExtent_eq_iff]
    have first : Range.between (positionBehind (newFront ++ change.gap))
          (.ofExtent (extent isLineFeed (newFront ++ change.gap) + countedExtent change.new)) =
        rangeBehind (newFront ++ change.gap) change.new ↔
          countedExtent change.new = extent isLineFeed change.new := by
      refine ⟨rangeBehind_injective, ?_⟩
      intro counted
      rw [counted, ← extent_append]
      rfl
    refine (and_congr_left' first).trans (and_congr_right ?_)
    intro counted
    rw [counted, ← extent_append]
    exact ih (Tracks.behind (front ++ change.gap ++ change.old)
      (newFront ++ change.gap ++ change.new))

/-! ## The inverse -/

/-- What the edits replace in the document. -/
theorem values_changeEdits (front tail : Text) (changes : List (Change CodeUnit)) :
    (changeEdits front changes).mapM
        (fun e => getValueOfRange (front ++ Change.before changes tail) e.range) =
      some (changes.map Change.old) := by
  induction changes generalizing front with
  | nil => rfl
  | cons change changes ih =>
    have value := getValueOfRange_between (front ++ change.gap) change.old
      (Change.before changes tail)
    have rest := ih (front ++ change.gap ++ change.old)
    have parts : front ++ Change.before (change :: changes) tail =
        front ++ change.gap ++ (change.old ++ Change.before changes tail) := by
      simp [append_assoc]
    rw [changeEdits, mapM_cons, parts, rangeBehind, value, ← append_assoc, rest]
    rfl

theorem forall_changeEdits {property : Text → Prop} {front : Text}
    {changes : List (Change CodeUnit)} :
    (∀ e ∈ changeEdits front changes, property e.text) ↔
      ∀ change ∈ changes, property change.new := by
  induction changes generalizing front with
  | nil => simp [changeEdits]
  | cons change changes ih =>
    rw [changeEdits, forall_mem_cons, forall_mem_cons, ih]

theorem zipWith_swap (front : Text) (changes : List (Change CodeUnit)) :
    ((changeEdits front (changes.map Change.swap)).map SingleTextEdit.range).zipWith
        SingleTextEdit.mk (changes.map Change.old) =
      changeEdits front (changes.map Change.swap) := by
  induction changes generalizing front with
  | nil => rfl
  | cons change changes ih =>
    have rest := ih (front ++ change.gap ++ change.new)
    exact congrArg₂ List.cons rfl rest

namespace TextEdit

/-- The inverse takes the result of the edits back to the document. -/
def Undone (edits : List SingleTextEdit) (doc : Text) : Prop :=
  ∃ result undo, apply edits doc = some result ∧ inverse edits doc = some undo ∧
    apply undo result = some doc

/-- The new ranges are those that the texts take in the result. -/
def RangesExact (edits : List SingleTextEdit) (doc : Text) : Prop :=
  ∃ result, apply edits doc = some result ∧ getNewRanges edits = occupied doc result 0 edits

/-- With exact ranges, the inverse makes the changes back. -/
theorem inverse_changeEdits {changes : List (Change CodeUnit)} {tail : Text}
    (exactly : getNewRanges (changeEdits [] changes) =
      (changeEdits [] (changes.map Change.swap)).map SingleTextEdit.range) :
    inverse (changeEdits [] changes) (Change.before changes tail) =
      some (changeEdits [] (changes.map Change.swap)) := by
  have values := values_changeEdits [] tail changes
  have zipped := zipWith_swap [] changes
  rw [nil_append] at values
  rw [inverse, values, exactly]
  simp only [bind_eq_bind, bind_some]
  rw [zipped, new_changeEdits]

/-- The inverse undoes the edits, and the new ranges are exact, when no text has a surrogate
pair behind its last line feed, and only then. -/
theorem inverse_undoes_iff (edits : List SingleTextEdit) (doc : Text)
    (valid : ValidOn edits doc) (short : doc.length < MAX_SAFE_INTEGER)
    (shortResult : ∀ result ∈ apply edits doc, result.length < MAX_SAFE_INTEGER) :
    Undone edits doc ∧ RangesExact edits doc ↔
      ∀ e ∈ edits, surrogatePairs (lastLine e.text) = 0 := by
  obtain ⟨changes, tail, rfl, rfl⟩ := valid.exists_changes
  have applied := apply_changeEdits changes tail short
  have ranges := @newRangesFrom_eq_iff [] [] changes 0 0 0 Tracks.start
  have taken := occupied_changeEdits [] [] tail changes
  rw [nil_append, nil_append, Int.sub_self] at taken
  have texts := @forall_changeEdits (fun text => surrogatePairs (lastLine text) = 0) [] changes
  refine Iff.trans ?_ (ranges.trans texts.symm)
  constructor
  · rintro ⟨-, result, isResult, exactly⟩
    rw [applied, Option.some.injEq] at isResult
    rw [← isResult, taken] at exactly
    exact exactly
  · intro exactly
    have undo := @inverse_changeEdits changes tail exactly
    have shorter := shortResult _ applied
    rw [← Change.before_swap] at shorter
    have back := apply_changeEdits (changes.map Change.swap) tail shorter
    rw [Change.before_swap, Change.after_swap] at back
    refine ⟨⟨_, _, applied, undo, back⟩, _, applied, ?_⟩
    rw [taken]
    exact exactly

/-- A line feed is put between the characters of `ab`, behind an `x`. -/
theorem inverse_undoes_inserted :
    Undone [⟨⟨1, 2, 1, 2⟩, [120, 10]⟩] [97, 98] ∧
        RangesExact [⟨⟨1, 2, 1, 2⟩, [120, 10]⟩] [97, 98] ↔
      ∀ e ∈ [(⟨⟨1, 2, 1, 2⟩, [120, 10]⟩ : SingleTextEdit)],
        surrogatePairs (lastLine e.text) = 0 := by
  have isPosition : IsPosition [97, 98] ⟨1, 2⟩ := ⟨1, by decide, by decide⟩
  have applied : apply [⟨⟨1, 2, 1, 2⟩, [120, 10]⟩] [97, 98] = some [97, 120, 10, 98] := by decide
  apply inverse_undoes_iff
  · constructor
    · simpa [Range.getStartPosition] using isPosition
    · simpa [Range.getEndPosition] using isPosition
    · decide
    · rfl
  · decide
  · rw [applied]
    decide

/-- A surrogate pair that is put into an empty document is not taken out again. -/
theorem inverse_keeps_lowSurrogate :
    ValidOn [⟨⟨1, 1, 1, 1⟩, [0xD83D, 0xDE00]⟩] [] ∧
      ¬Undone [⟨⟨1, 1, 1, 1⟩, [0xD83D, 0xDE00]⟩] [] ∧
      ¬RangesExact [⟨⟨1, 1, 1, 1⟩, [0xD83D, 0xDE00]⟩] [] := by
  have isPosition : IsPosition [] ⟨1, 1⟩ := ⟨0, by decide, by decide⟩
  have applied : apply [⟨⟨1, 1, 1, 1⟩, [0xD83D, 0xDE00]⟩] [] = some [0xD83D, 0xDE00] := by decide
  have undo : inverse [⟨⟨1, 1, 1, 1⟩, [0xD83D, 0xDE00]⟩] [] =
      some [⟨⟨1, 1, 1, 2⟩, []⟩] := by decide
  have valid : ValidOn [⟨⟨1, 1, 1, 1⟩, [0xD83D, 0xDE00]⟩] [] := by
    constructor
    · simpa [Range.getStartPosition] using isPosition
    · simpa [Range.getEndPosition] using isPosition
    · decide
    · rfl
  refine ⟨valid, ?_, ?_⟩
  · rintro ⟨result, undone, isResult, isUndone, isDoc⟩
    rw [applied, Option.some.injEq] at isResult
    rw [undo, Option.some.injEq] at isUndone
    rw [← isResult, ← isUndone] at isDoc
    revert isDoc
    decide
  · rintro ⟨result, isResult, exactly⟩
    rw [applied, Option.some.injEq] at isResult
    rw [← isResult] at exactly
    revert exactly
    decide

end TextEdit

end CodeEditor.Edits
