import CodeEditor.Foundation.Patch
import CodeEditor.TextBuffer.Cuts

/-!
# Operations on a text

What a buffer reads between valid positions, what it makes of an operation, and what it makes of
a document when the operations are applied from bottom to top: they replace their ranges at once.
-/

namespace CodeEditor.TextBuffer

open PieceTree List Option Bool Nat Int
open PieceTree.PieceTreeBase (Range)

/-! ## Line breaks of an operation -/

/-- An operation gets the line breaks of the buffer. -/
theorem allBreaksAre_validText (eol : EOL) (text : Text) :
    AllBreaksAre eol (PieceTreeTextBuffer.validText eol text) := by
  have seen : ∀ lineBreak ∈ lineBreaks text, (countEOL text).2.2.2.Allows lineBreak :=
    (allows_countEOLLoop text 0 ⟨0, 0, 0, .unknown⟩).2
  cases eol
  all_goals
    unfold PieceTreeTextBuffer.validText
    dsimp only
    split
    next expected =>
      intro lineBreak member
      have allows := seen lineBreak member
      rcases expected with isUnknown | isExpected
      · rw [isUnknown] at allows
        exact allows.elim
      · rw [isExpected] at allows
        exact allows
    next other => exact allBreaksAre_replaceEOL _ text

namespace PieceTreeTextBuffer

/-! ## Reading between positions -/

/-- The buffer holds a text with its line breaks. -/
structure Holds (b : PieceTreeTextBuffer) (text : Text) : Prop where
  represents : Represents b.pieceTree text
  normalized : AllBreaksAre b.getEOL text

variable {b : PieceTreeTextBuffer} {text : Text} {p q : Position} {i j : Nat}

theorem getOffsetAt_of_validAt (represents : Represents b.pieceTree text)
    (valid : ValidAt text p i) : b.getOffsetAt p.lineNumber p.column = i := by
  obtain ⟨es, inv, rfl, -⟩ := represents
  exact inv.getOffsetAt_of_valid valid

theorem Holds.setEOL (holds : b.Holds text) (eol : EOL) :
    ∃ b', b.setEOL eol = some b' ∧ b'.Holds (replaceEOL eol.text text) := by
  obtain ⟨es, inv, rfl, -⟩ := holds.represents
  obtain ⟨s', es', changed, inv', isText, isEOL, -, reset⟩ := inv.setEOL eol
  refine ⟨{ b with pieceTree := s' }, ?_, ⟨es', inv', isText, visitedOk_reset _ reset⟩, ?_⟩
  · rw [PieceTreeTextBuffer.setEOL, changed]
    rfl
  · rw [PieceTreeTextBuffer.getEOL, isEOL]
    exact allBreaksAre_replaceEOL eol _

/-- A part of a text with one kind of line breaks has the same line breaks. -/
theorem allBreaksAre_substring (normalized : AllBreaksAre eol text)
    (first : insideCRLF text i = false) (second : insideCRLF text j = false) (ordered : i ≤ j) :
    AllBreaksAre eol (substring text i j) := by
  rw [substring_of_le _ ordered]
  have front : AllBreaksAre eol (text.take j) := by
    rw [← take_append_drop j text] at normalized
    exact (allBreaksAre_parts normalized second).1
  have isFront : text.take i = (text.take j).take i := by
    rw [take_take, min_eq_left ordered]
  have whole : splitsCRLF ((text.take j).take i) ((text.take j).drop i) = false := by
    rw [← isFront, drop_take]
    apply @splitsCRLF_take_right _ _ []
    rw [append_nil]
    exact first
  rw [← take_append_drop i (text.take j)] at front
  exact (allBreaksAre_parts front whole).2

/-- The range of two valid positions is empty when they are one. -/
theorem isEmptyRange_iff (first : ValidAt text p i) (second : ValidAt text q j) :
    isEmptyRange ⟨p.lineNumber, p.column, q.lineNumber, q.column⟩ = true ↔ i = j := by
  unfold isEmptyRange
  rw [and_eq_true, decide_eq_true_eq, decide_eq_true_eq]
  constructor
  · rintro ⟨sameLine, sameColumn⟩
    have same : p = q := by
      cases p
      cases q
      exact congrArg₂ Position.mk sameLine sameColumn
    subst same
    exact offset_unique_of_validAt first second
  · rintro rfl
    rw [(validAt_iff.mp first).2.2, (validAt_iff.mp second).2.2]
    exact ⟨rfl, rfl⟩

/-- The value between two valid positions is the text between their offsets. -/
theorem Holds.getValueInRange (holds : b.Holds text) (first : ValidAt text p i)
    (second : ValidAt text q j) (ordered : i ≤ j) :
    b.getValueInRange ⟨p.lineNumber, p.column, q.lineNumber, q.column⟩ .textDefined =
      some (substring text i j) := by
  have isEmpty := isEmptyRange_iff first second
  unfold PieceTreeTextBuffer.getValueInRange
  split
  next empty =>
    obtain rfl := isEmpty.mp empty
    rw [substring_of_le _ le_rfl, drop_eq_nil_of_le (by rw [length_take]; omega)]
  next nonempty =>
    have normalized := allBreaksAre_substring holds.normalized (validAt_iff.mp first).2.1
      (validAt_iff.mp second).2.1 ordered
    obtain ⟨es, inv, rfl, -⟩ := holds.represents
    have different : i ≠ j := fun same => nonempty (isEmpty.mpr same)
    rw [inv.getValueInRange first second (by omega)]
    split
    · exact congrArg some (replaceEOL_eq_self normalized)
    · rfl

/-- The length between two valid positions is the distance of their offsets. -/
theorem getValueLengthInRange_of_validAt (represents : Represents b.pieceTree text)
    (first : ValidAt text p i) (second : ValidAt text q j) (ordered : i ≤ j) :
    b.getValueLengthInRange ⟨p.lineNumber, p.column, q.lineNumber, q.column⟩ .textDefined =
      (j : Int) - i := by
  have isEmpty := isEmptyRange_iff first second
  unfold PieceTreeTextBuffer.getValueLengthInRange
  split
  next empty =>
    obtain rfl := isEmpty.mp empty
    omega
  next nonempty =>
    dsimp only
    split
    next sameLine =>
      obtain ⟨isLine, isColumn⟩ := position_of_validAt first
      obtain ⟨isLine', isColumn'⟩ := position_of_validAt second
      have start := lineStartsOf_getElem?_lineIndex text i
      rw [show lineIndex text i = lineIndex text j by omega,
        lineStartsOf_getElem?_lineIndex, Option.some.injEq] at start
      omega
    next otherLine =>
      rw [getOffsetAt_of_validAt represents first, getOffsetAt_of_validAt represents second,
        if_neg (by exact fun different => different rfl)]
      omega

end PieceTreeTextBuffer

/-! ## Operations as replacements -/

/-- A range between two valid positions, with their offsets. -/
structure Located (text : Text) (range : Range) (first second : Nat) : Prop where
  start : ValidAt text (getStartPosition range) first
  stop : ValidAt text (getEndPosition range) second
  ordered : first ≤ second

/-- The operation replaces a part of the text by a text with the line breaks of the buffer. -/
structure Replaces (eol : EOL) (text : Text) (op : ValidatedEditOperation) (first second : Nat) :
    Prop where
  located : Located text op.range first second
  rangeOffset : op.rangeOffset = first
  rangeLength : op.rangeLength = (second : Int) - first
  normalized : AllBreaksAre eol op.text

/-- What an operation does to a text. -/
def replacementOf (op : ValidatedEditOperation) : Replacement CodeUnit :=
  ⟨op.rangeOffset, op.rangeOffset + op.rangeLength, op.text⟩

section Operations

variable {eol : EOL} {text : Text} {op : ValidatedEditOperation}
  {operations : List ValidatedEditOperation} {i j : Nat}

theorem Replaces.replacementOf (replaces : Replaces eol text op i j) :
    replacementOf op = ⟨i, j, op.text⟩ := by
  unfold TextBuffer.replacementOf
  rw [replaces.rangeOffset, replaces.rangeLength]
  congr 1
  omega

/-- What the buffer makes of an operation with a valid range. -/
theorem PieceTreeTextBuffer.Holds.validate {b : PieceTreeTextBuffer} (holds : b.Holds text)
    {raw : ValidAnnotatedEditOperation} (located : Located text raw.range i j) (index : Nat) :
    Replaces b.getEOL text (b.validate index raw) i j where
  located := located
  rangeOffset := PieceTreeTextBuffer.getOffsetAt_of_validAt holds.represents located.start
  rangeLength := PieceTreeTextBuffer.getValueLengthInRange_of_validAt holds.represents
    located.start located.stop located.ordered
  normalized := by
    unfold PieceTreeTextBuffer.validate
    dsimp only
    split
    · exact allBreaksAre_nil _
    · exact allBreaksAre_validText _ _

theorem isBeforeOrEqual_of_isBefore (before : isBefore p q = true) :
    isBeforeOrEqual p q = true := by
  unfold isBefore at before
  unfold isBeforeOrEqual
  split_ifs at before ⊢ <;> simp_all
  omega

/-- Ranges that do not overlap come one behind the other. -/
theorem touchingRanges_cons {a b : ValidatedEditOperation}
    (disjoint : touchingRanges (a :: b :: operations) ≠ none) :
    isBefore (getStartPosition b.range) (getEndPosition a.range) = false ∧
      touchingRanges (b :: operations) ≠ none := by
  unfold touchingRanges at disjoint
  dsimp only at disjoint
  split at disjoint
  next beforeOrEqual =>
    split at disjoint
    next before => exact absurd rfl disjoint
    next notBefore =>
      refine ⟨not_eq_true _ ▸ notBefore, ?_⟩
      intro overlap
      rw [overlap] at disjoint
      exact disjoint rfl
  next behind =>
    refine ⟨?_, disjoint⟩
    rw [← not_eq_true]
    exact fun before => behind (isBeforeOrEqual_of_isBefore before)

theorem within_of_disjoint (replaces : ∀ op ∈ operations, ∃ i j, Replaces eol text op i j)
    (disjoint : touchingRanges operations ≠ none) :
    Within text.length 0 (operations.map replacementOf) := by
  induction operations with
  | nil => exact natCast_nonneg _
  | cons a operations ih =>
    obtain ⟨i, j, first⟩ := replaces a mem_cons_self
    have ordered := first.located.ordered
    have inside := (validAt_iff.mp first.located.stop).1
    rw [map_cons, first.replacementOf]
    cases operations with
    | nil =>
      refine ⟨?_, ?_, ?_⟩
      · exact natCast_nonneg _
      · exact Int.ofNat_le.mpr ordered
      · exact Int.ofNat_le.mpr inside
    | cons b operations =>
      obtain ⟨notBefore, rest⟩ := touchingRanges_cons disjoint
      obtain ⟨i', j', second⟩ := replaces b (mem_cons_of_mem _ mem_cons_self)
      have within := ih (fun op member => replaces op (mem_cons_of_mem _ member)) rest
      have behind : j ≤ i' := by
        by_contra overlap
        have before := (isBefore_iff second.located.start first.located.stop).mpr (by omega)
        rw [notBefore] at before
        cases before
      refine ⟨?_, ?_, ?_⟩
      · exact natCast_nonneg _
      · exact Int.ofNat_le.mpr ordered
      · rw [map_cons, second.replacementOf] at within ⊢
        exact ⟨Int.ofNat_le.mpr behind, within.2⟩

/-! ## From bottom to top -/

theorem sortOpsDescending_swap (a b : ValidatedEditOperation) :
    sortOpsDescending b a = sortOpsAscending a b := by
  have swap : compareRangesUsingEnds b.range a.range = -compareRangesUsingEnds a.range b.range := by
    unfold compareRangesUsingEnds
    split_ifs <;> omega
  unfold sortOpsDescending sortOpsAscending
  dsimp only
  split_ifs <;> omega

theorem sortOpsAscending_swap (a b : ValidatedEditOperation) :
    sortOpsAscending b a = -sortOpsAscending a b := by
  unfold sortOpsAscending compareRangesUsingEnds
  dsimp only
  split_ifs <;> omega

/-- In ascending order, no two at one place in the order. -/
def SortedAscending (operations : List ValidatedEditOperation) : Prop :=
  operations.Pairwise fun a b => sortOpsAscending a b < 0

theorem orderedInsert_last {α : Type} {r : α → α → Prop} [DecidableRel r] {a : α} {list : List α}
    (last : ∀ b ∈ list, ¬r a b) : list.orderedInsert r a = list ++ [a] := by
  induction list with
  | nil => rfl
  | cons b list ih =>
    obtain ⟨first, rest⟩ := forall_mem_cons.mp last
    rw [orderedInsert_cons, if_neg first, ih rest, cons_append]

/-- Sorting the other way turns a sorted list around. -/
theorem sortOps_descending (sorted : SortedAscending operations) :
    sortOps sortOpsDescending operations = operations.reverse := by
  induction operations with
  | nil => rfl
  | cons a operations ih =>
    obtain ⟨first, rest⟩ := pairwise_cons.mp sorted
    have sortedRest := ih rest
    unfold sortOps at sortedRest ⊢
    rw [insertionSort_cons, sortedRest, reverse_cons]
    apply orderedInsert_last
    intro b member
    have less := first b (mem_reverse.mp member)
    rw [sortOpsDescending_swap, sortOpsAscending_swap]
    omega

theorem splice_splice (text value : Text) {offset count : Nat} (inside : offset ≤ text.length) :
    splice (splice text offset count []) offset 0 value =
      text.take offset ++ (value ++ text.drop (offset + count)) := by
  have length : (text.take offset).length = offset := by
    rw [length_take]
    omega
  unfold splice
  rw [append_nil, add_zero, take_left' length, drop_left' length, append_assoc]

end Operations

section Applying

variable {s : PieceTreeBase} {text : Text} {op : ValidatedEditOperation}
  {operations : List ValidatedEditOperation} {i j : Nat}

section

variable (represents : Represents s text)

include represents

theorem exists_delete {offset count : Nat} (inside : offset + count ≤ text.length) :
    ∃ s', s.delete offset count = some s' ∧ Represents s' (splice text offset count []) ∧
      s'.eol = s.eol := by
  obtain ⟨es, inv, rfl, -⟩ := represents
  rw [inv.rep.length_text] at inside
  obtain ⟨s', es', deleted, updated, -⟩ := inv.delete inside
  exact ⟨s', deleted, ⟨es', updated.inv, updated.text_eq,
    visitedOk_reset _ updated.lastVisitedLine⟩, updated.eol⟩

theorem exists_insert {offset : Nat} {value : Text} (inside : offset ≤ text.length)
    (nonempty : value ≠ []) (normalized : AllBreaksAre s.eol value) :
    ∃ s', s.insert offset value true = some s' ∧ Represents s' (splice text offset 0 value) ∧
      s'.eol = s.eol := by
  obtain ⟨es, inv, rfl, -⟩ := represents
  rw [inv.rep.length_text] at inside
  obtain ⟨s', es', inserted, updated, -⟩ := inv.insert inside nonempty fun _ => normalized
  exact ⟨s', inserted, ⟨es', updated.inv, updated.text_eq,
    visitedOk_reset _ updated.lastVisitedLine⟩, updated.eol⟩

/-- One operation of the loop replaces its range. -/
theorem doApplyLoop_cons (rangeOffset : op.rangeOffset = i)
    (rangeLength : op.rangeLength = (j : Int) - i) (ordered : i ≤ j) (inside : j ≤ text.length)
    (empty : isEmptyRange op.range = true → i = j) (normalized : AllBreaksAre s.eol op.text) :
    ∃ s', Represents s' (text.take i ++ (op.text ++ text.drop j)) ∧ s'.eol = s.eol ∧
      ∀ later after changes, PieceTreeTextBuffer.doApplyLoop s' later = some (after, changes) →
        ∃ all, PieceTreeTextBuffer.doApplyLoop s (op :: later) = some (after, all) := by
  by_cases skipped : (isEmptyRange op.range && op.text.length = 0) = true
  · have isSkipped := skipped
    rw [and_eq_true, decide_eq_true_eq] at isSkipped
    obtain rfl := empty isSkipped.1
    rw [eq_nil_of_length_eq_zero isSkipped.2, nil_append, take_append_drop]
    refine ⟨s, represents, rfl, ?_⟩
    intro later after changes done
    exact ⟨changes, by rw [PieceTreeTextBuffer.doApplyLoop, if_pos skipped, done]⟩
  · have isOffset : op.rangeOffset.toNat = i := by omega
    have isLength : op.rangeLength.toNat = j - i := by omega
    obtain ⟨deleted, isDeleted, representsDeleted, eolDeleted⟩ :=
      exists_delete represents (show i + (j - i) ≤ text.length by omega)
    by_cases nonempty : op.text.length > 0
    · have stillInside : i ≤ (splice text i (j - i) []).length := by
        unfold splice
        rw [length_append, length_append, length_take]
        omega
      obtain ⟨inserted, isInserted, representsInserted, eolInserted⟩ :=
        exists_insert representsDeleted stillInside (ne_nil_of_length_pos nonempty)
          (by rw [eolDeleted]; exact normalized)
      rw [splice_splice _ _ (by omega), Nat.add_sub_cancel' ordered] at representsInserted
      refine ⟨inserted, representsInserted, eolInserted.trans eolDeleted, ?_⟩
      intro later after changes done
      rw [PieceTreeTextBuffer.doApplyLoop, if_neg skipped, isOffset, isLength, isDeleted]
      simp only [bind_eq_bind, bind_some]
      rw [if_pos nonempty, isInserted, bind_some, done]
      exact ⟨_, rfl⟩
    · have isNil : op.text = [] := eq_nil_of_length_eq_zero (by omega)
      rw [splice, append_nil, Nat.add_sub_cancel' ordered] at representsDeleted
      rw [isNil, nil_append]
      refine ⟨deleted, representsDeleted, eolDeleted, ?_⟩
      intro later after changes done
      rw [PieceTreeTextBuffer.doApplyLoop, if_neg skipped, isOffset, isLength, isDeleted]
      simp only [bind_eq_bind, bind_some]
      rw [if_neg nonempty, done]
      exact ⟨_, rfl⟩

/-- From bottom to top the operations replace their ranges at once. -/
theorem doApplyLoop_reverse (replaces : ∀ op ∈ operations, ∃ i j, Replaces s.eol last op i j)
    (within : Within text.length 0 (operations.map replacementOf)) :
    ∃ s' changes, PieceTreeTextBuffer.doApplyLoop s operations.reverse = some (s', changes) ∧
      Represents s' (patch text 0 (operations.map replacementOf)) ∧ s'.eol = s.eol := by
  induction operations using List.reverseRecOn generalizing s text with
  | nil => exact ⟨s, [], rfl, represents, rfl⟩
  | append_singleton operations op ih =>
    obtain ⟨i, j, own⟩ := replaces op (mem_append_right _ mem_cons_self)
    have ordered := own.located.ordered
    rw [map_append, map_singleton, own.replacementOf] at within ⊢
    obtain ⟨front, -, inside⟩ := within.split
    have inside : (j : Int) ≤ text.length := inside
    have empty : isEmptyRange op.range = true → i = j :=
      (PieceTreeTextBuffer.isEmptyRange_iff own.located.start own.located.stop).mp
    obtain ⟨s', represents', eol', later⟩ := doApplyLoop_cons represents own.rangeOffset
      own.rangeLength ordered (by omega) empty own.normalized
    have length : (text.take i).length = i := by
      rw [length_take]
      omega
    have frontFits : Within (0 + ((text.take i).length : Int)) 0
        (operations.map replacementOf) := by
      rw [length, zero_add]
      exact front
    have grown : Within ((text.take i ++ (op.text ++ text.drop j)).length : Int) 0
        (operations.map replacementOf) := by
      apply front.of_last
      rw [length_append, length]
      exact Int.ofNat_le.mpr (le_add_right _ _)
    have others : ∀ other ∈ operations, ∃ i j, Replaces s'.eol last other i j := by
      intro other member
      rw [eol']
      exact replaces other (mem_append_left _ member)
    obtain ⟨after, changes, done, representsAfter, eolAfter⟩ :=
      ih represents' others grown
    obtain ⟨all, isAll⟩ := later _ _ _ done
    refine ⟨after, all, by rw [reverse_append]; exact isAll, ?_, eolAfter.trans eol'⟩
    rw [patch_concat _ frontFits] at representsAfter
    have snoc : patch text 0 (operations.map replacementOf ++ [⟨i, j, op.text⟩]) =
        patch (text.take ((i : Int) - 0).toNat) 0 (operations.map replacementOf) ++
          (op.text ++ text.drop ((j : Int) - 0).toNat) :=
      patch_snoc front (Int.ofNat_le.mpr ordered) (by dsimp only; omega)
    rw [snoc, sub_zero, sub_zero, toNat_natCast, toNat_natCast]
    exact representsAfter

end

end Applying

end CodeEditor.TextBuffer
