import CodeEditor.Edits.LineEditText
import CodeEditor.Edits.TextEdit
import CodeEditor.Foundation.Changes
import CodeEditor.Foundation.Extents

/-!
# Positions in any text

A position tells how far the text in front of it reaches, its extent. With this, the
transformer, the ranges and the edits of a text are described without its lines, for texts
with any code units in them.
-/

namespace CodeEditor.Edits

open List Option Nat

def isLineFeed (unit : CodeUnit) : Bool := unit = LF

/-- The position at an extent. -/
def Position.ofExtent (e : Extent) : Position := ⟨e.lines + 1, e.columns + 1⟩

/-- The position behind a text. -/
def positionBehind (text : Text) : Position := .ofExtent (extent isLineFeed text)

/-- The position of an offset. -/
def positionAt (doc : Text) (offset : Nat) : Position := positionBehind (doc.take offset)

/-- A position of a document. -/
def IsPosition (doc : Text) (position : Position) : Prop :=
  ∃ offset ≤ doc.length, position = positionAt doc offset

/-- The range from one position to another. -/
def Range.between (start stop : Position) : Range :=
  ⟨start.lineNumber, start.column, stop.lineNumber, stop.column⟩

@[simp] theorem getStartPosition_between (start stop : Position) :
    (Range.between start stop).getStartPosition = start := rfl

@[simp] theorem getEndPosition_between (start stop : Position) :
    (Range.between start stop).getEndPosition = stop := rfl

theorem Range.between_positions (range : Range) :
    Range.between range.getStartPosition range.getEndPosition = range := rfl

/-! ## The order of positions -/

theorem isBeforeOrEqual_ofExtent :
    (Position.ofExtent a).isBeforeOrEqual (.ofExtent b) = true ↔ a ≤ b := by
  rw [Position.isBeforeOrEqual, Extent.le_def]
  simp only [Position.ofExtent, add_lt_add_iff_right, add_le_add_iff_right]
  rcases lt_trichotomy a.lines b.lines with less | same | greater
  · simp [less]
  · simp [same]
  · rw [if_neg (lt_asymm greater), if_pos greater]
    simp
    omega

theorem isBefore_ofExtent : (Position.ofExtent a).isBefore (.ofExtent b) = true ↔ a < b := by
  rw [Position.isBefore, Extent.lt_def]
  simp only [Position.ofExtent, add_lt_add_iff_right]
  rcases lt_trichotomy a.lines b.lines with less | same | greater
  · simp [less]
  · simp [same]
  · rw [if_neg (lt_asymm greater), if_pos greater]
    simp
    omega

theorem Position.ofExtent_injective {a b : Extent}
    (equal : Position.ofExtent a = .ofExtent b) : a = b := by
  simp only [Position.ofExtent, Position.mk.injEq, add_right_cancel_iff] at equal
  exact Extent.ext equal.1 equal.2

theorem Range.new_ofExtent {a b : Extent} (ordered : a ≤ b) :
    Range.new (Position.ofExtent a).lineNumber (Position.ofExtent a).column
      (Position.ofExtent b).lineNumber (Position.ofExtent b).column =
        .between (.ofExtent a) (.ofExtent b) := by
  rw [Extent.le_def] at ordered
  apply Range.new_eq
  simp only [Position.ofExtent]
  omega

/-! ## The transformer -/

/-- The start of the line in which a text ends. -/
theorem scan_lineStart (front back : Text) (start i : Nat) (previous : Option CodeUnit) :
    (start :: (PositionOffsetTransformer.scan (front ++ back) i previous).1)[
        (extent isLineFeed front).lines]? =
      some (if (extent isLineFeed front).lines = 0 then start
        else i + front.length - (extent isLineFeed front).columns) := by
  induction front generalizing start i previous with
  | nil => rfl
  | cons unit front ih =>
    rw [cons_append, PositionOffsetTransformer.scan, extent_cons, length_cons]
    by_cases isLF : unit = LF
    · have first : unitExtent (isLineFeed unit) = ⟨1, 0⟩ := by
        rw [isLF]
        rfl
      simp only [isLF, if_true] at first ⊢
      have count : (⟨1, 0⟩ + extent isLineFeed front : Extent).lines =
          (extent isLineFeed front).lines + 1 := by
        rw [Extent.lines_add, add_comm]
      rw [first, count, getElem?_cons_succ, ih, if_neg (succ_ne_zero _), Extent.columns_add]
      by_cases single : (extent isLineFeed front).lines = 0
      · rw [if_pos single, if_pos single, columns_extent_of_lines isLineFeed single]
        simp only [zero_add, Option.some.injEq]
        omega
      · rw [if_neg single, if_neg single]
        congr 1
        omega
    · have first : unitExtent (isLineFeed unit) = ⟨0, 1⟩ := by
        rw [isLineFeed, decide_eq_false isLF]
        rfl
      simp only [isLF, if_false]
      rw [first, Extent.lines_add, zero_add, ih, Extent.columns_add]
      by_cases single : (extent isLineFeed front).lines = 0
      · rw [if_pos single, if_pos single]
      · rw [if_neg single, if_neg single, if_neg single]
        congr 1
        omega

theorem lineStart_eq (front back : Text) :
    (PositionOffsetTransformer.new (front ++ back)).lineStartOffsetByLineIdx[
        (extent isLineFeed front).lines]? =
      some (front.length - (extent isLineFeed front).columns) := by
  refine Eq.trans (scan_lineStart front back 0 0 none) ?_
  split
  · rename_i single
    rw [columns_extent_of_lines isLineFeed single, Nat.sub_self]
  · rw [Nat.zero_add]

theorem getOffset_positionBehind (front back : Text) :
    (PositionOffsetTransformer.new (front ++ back)).getOffset (positionBehind front) =
      some front.length := by
  have columns := columns_extent_le isLineFeed front
  have start := lineStart_eq front back
  simp only [PositionOffsetTransformer.getOffset, PositionOffsetTransformer.ofLine,
    positionBehind, Position.ofExtent, Nat.succ_ne_zero, if_false, Nat.add_sub_cancel, start,
    bind_eq_bind, bind_some]
  congr 1
  omega

theorem length_scan (text : Text) (i : Nat) (previous : Option CodeUnit) :
    (PositionOffsetTransformer.scan text i previous).1.length = (extent isLineFeed text).lines := by
  induction text generalizing i previous with
  | nil => rfl
  | cons unit text ih =>
    rw [PositionOffsetTransformer.scan, extent_cons, Extent.lines_add]
    by_cases isLF : unit = LF
    · have first : (unitExtent (isLineFeed unit)).lines = 1 := by
        rw [isLF]
        rfl
      simp only [isLF, if_true] at first ⊢
      rw [length_cons, ih, first, add_comm]
    · have first : (unitExtent (isLineFeed unit)).lines = 0 := by
        rw [isLineFeed, decide_eq_false isLF]
        rfl
      simp only [isLF, if_false]
      rw [ih, first, zero_add]

/-- A text length and an extent that say the same. -/
def TextLength.ofExtent (e : Extent) : TextLength := ⟨e.lines, e.columns⟩

theorem addToPosition_ofExtent (a e : Extent) :
    (TextLength.ofExtent e).addToPosition (.ofExtent a) = .ofExtent (a + e) := by
  rw [TextLength.addToPosition, Extent.add_def]
  simp only [TextLength.ofExtent]
  by_cases single : e.lines = 0
  · simp only [single, if_true, Position.ofExtent]
    rw [add_right_comm]
  · simp only [single, if_false, Position.ofExtent]
    rw [add_right_comm]

theorem textLength_eq (text : Text) :
    (PositionOffsetTransformer.new text).textLength = .ofExtent (extent isLineFeed text) := by
  have columns := columns_extent_le isLineFeed text
  have start := lineStart_eq text []
  rw [append_nil] at start
  have lines : (PositionOffsetTransformer.new text).lineStartOffsetByLineIdx.length - 1 =
      (extent isLineFeed text).lines := by
    rw [PositionOffsetTransformer.new, length_cons, length_scan, Nat.add_sub_cancel]
  have isText : (PositionOffsetTransformer.new text).text = text := rfl
  rw [PositionOffsetTransformer.textLength, lines, getD_eq_getElem?_getD, start, isText,
    getD_some, TextLength.ofExtent, TextLength.mk.injEq]
  exact ⟨rfl, by omega⟩

theorem endPositionExclusive_eq (text : Text) :
    endPositionExclusive text = positionBehind text := by
  have sum := addToPosition_ofExtent 0 (extent isLineFeed text)
  rw [zero_add] at sum
  rw [endPositionExclusive, textLength_eq]
  exact sum

/-! ## Texts between positions -/

theorem extent_le_append (front middle : Text) :
    extent isLineFeed front ≤ extent isLineFeed (front ++ middle) := by
  rw [extent_append]
  exact Extent.le_add _ _

theorem getValueOfRange_between (front middle back : Text) :
    getValueOfRange (front ++ (middle ++ back))
      (.between (positionBehind front) (positionBehind (front ++ middle))) = some middle := by
  have isFirst := getOffset_positionBehind front (middle ++ back)
  have isLast := getOffset_positionBehind (front ++ middle) back
  rw [append_assoc] at isLast
  obtain ⟨offsets, isRange, start, stop⟩ := getOffsetRange_eq
    (show (PositionOffsetTransformer.new (front ++ (middle ++ back))).getOffset
      (Range.between (positionBehind front)
        (positionBehind (front ++ middle))).getStartPosition = some front.length from isFirst)
    isLast (by rw [length_append]; omega)
  rw [getValueOfRange, isRange]
  simp only [bind_eq_bind, bind_some]
  rw [start, stop, substringBetween, Int.toNat_natCast, Int.toNat_natCast, length_append,
    substring_append]

/-- The throw of `rangeFromPositions` does not happen, nor does its first case change
anything: no column is larger than the largest safe integer. -/
theorem valueBetween_eq (front middle back : Text)
    (short : (front ++ (middle ++ back)).length < MAX_SAFE_INTEGER) :
    valueBetween (front ++ (middle ++ back)) (positionBehind front)
      (positionBehind (front ++ middle)) = some middle := by
  have ordered := extent_le_append front middle
  have value := getValueOfRange_between front middle back
  rw [valueBetween]
  by_cases touch : middle = []
  · -- nothing is between equal positions, in both cases
    have point : ∀ p : Position, Range.isEmpty (Range.fromPositions p p) = true := by
      intro p
      rw [Range.fromPositions, Range.new, if_neg (by omega), Range.isEmpty, decide_eq_true_eq]
      exact ⟨rfl, rfl⟩
    have always := isBeforeOrEqual_ofExtent.mpr (le_refl (extent isLineFeed front))
    rw [touch, append_nil, rangeFromPositions]
    split
    · simp [point]
    · rw [positionBehind, always]
      simp only [Bool.not_true, Bool.false_eq_true, if_false, bind_eq_bind, bind_some]
      rw [show Range.new _ _ _ _ = Range.fromPositions (.ofExtent (extent isLineFeed front))
        (.ofExtent (extent isLineFeed front)) from rfl, point, if_pos rfl]
  · have notLast : ¬((positionBehind front).lineNumber =
        (positionBehind (front ++ middle)).lineNumber ∧
        (positionBehind front).column = MAX_SAFE_INTEGER) := by
      rintro ⟨-, last⟩
      have columns := columns_extent_le isLineFeed front
      have nonempty := length_pos_iff.mpr touch
      rw [length_append, length_append] at short
      simp only [positionBehind, Position.ofExtent] at last
      omega
    have before := isBeforeOrEqual_ofExtent.mpr ordered
    rw [rangeFromPositions, if_neg notLast, positionBehind, positionBehind, before]
    simp only [Bool.not_true, Bool.false_eq_true, if_false, bind_eq_bind, bind_some]
    rw [Range.new_ofExtent ordered]
    split
    · rename_i isEmpty
      rw [Range.isEmpty, decide_eq_true_eq] at isEmpty
      have equal := @Position.ofExtent_injective (extent isLineFeed front)
        (extent isLineFeed (front ++ middle)) (by
          rw [Position.mk.injEq]
          exact isEmpty)
      rw [extent_append] at equal
      have later := Extent.lt_add (extent isLineFeed front) (extent_ne_zero isLineFeed touch)
      rw [← equal] at later
      exact absurd later (lt_irrefl _)
    · exact value

/-!
## Code points and columns

`TextLength.ofText` counts code points, and columns are code units. The two agree when no
surrogate pair stands behind the last line feed of the text.
-/

/-- The number of surrogate pairs. -/
def surrogatePairs : Text → Nat
  | [] => 0
  | [_] => 0
  | unit :: next :: text =>
    if isHighSurrogate unit ∧ isLowSurrogate next then surrogatePairs text + 1
    else surrogatePairs (next :: text)

/-- The text behind the last line feed. -/
def lastLine : Text → Text
  | [] => []
  | unit :: text => if LF ∈ unit :: text then lastLine text else unit :: text

/-- The surrogate pairs that shorten the last line of a text in code points. -/
def lostColumns (text : Text) : Nat := surrogatePairs (lastLine text)

theorem lines_extent_eq_zero_iff {text : Text} :
    (extent isLineFeed text).lines = 0 ↔ LF ∉ text := by
  induction text with
  | nil => simp
  | cons unit text ih =>
    rw [extent_cons, Extent.lines_add, Nat.add_eq_zero_iff, ih, mem_cons, not_or]
    apply and_congr_left
    intro _
    by_cases isLF : unit = LF
    · simp [isLF, isLineFeed, unitExtent]
    · simp [isLF, Ne.symm isLF, isLineFeed, unitExtent]

theorem lostColumns_cons_of_mem {text : Text} (unit : CodeUnit) (mem : LF ∈ unit :: text) :
    lostColumns (unit :: text) = lostColumns text := by
  rw [lostColumns, lastLine, if_pos mem, lostColumns]

theorem lostColumns_of_notMem {text : Text} (notMem : LF ∉ text) :
    lostColumns text = surrogatePairs text := by
  cases text with
  | nil => rfl
  | cons unit text => rw [lostColumns, lastLine, if_neg notMem]

/-- A code point is a line feed, or one column. -/
def isLineFeedPoint (c : Text) : Bool := c = [LF]

/-- What the loop of `ofText` has counted in front of the code points is added to. -/
theorem foldl_countCodePoint (points : List Text) (a : Extent) :
    points.foldl TextLength.countCodePoint (.ofExtent a) =
      .ofExtent (a + extent isLineFeedPoint points) := by
  induction points generalizing a with
  | nil => rw [extent_nil, add_zero, foldl_nil]
  | cons c points ih =>
    have step : TextLength.countCodePoint (.ofExtent a) c =
        .ofExtent (a + unitExtent (isLineFeedPoint c)) := by
      by_cases isLF : c = [LF]
      · simp [TextLength.countCodePoint, isLF, isLineFeedPoint, unitExtent, Extent.add_def,
          TextLength.ofExtent]
      · simp [TextLength.countCodePoint, isLF, isLineFeedPoint, unitExtent, Extent.add_def,
          TextLength.ofExtent]
    rw [foldl_cons, step, ih, extent_cons, add_assoc]

/-- The extent that `ofText` finds. -/
def countedExtent (text : Text) : Extent := extent isLineFeedPoint (codePoints text)

theorem ofText_eq (text : Text) : TextLength.ofText text = .ofExtent (countedExtent text) := by
  have folded := foldl_countCodePoint (codePoints text) 0
  rw [zero_add] at folded
  exact folded

/-- A code unit in front, which is a code point. -/
theorem counted_step {unit : CodeUnit} {text : Text}
    (lines : (countedExtent text).lines = (extent isLineFeed text).lines)
    (columns : (countedExtent text).columns + lostColumns text = (extent isLineFeed text).columns)
    (alone : LF ∉ unit :: text → surrogatePairs (unit :: text) = surrogatePairs text) :
    (unitExtent (isLineFeedPoint [unit]) + countedExtent text).lines =
        (extent isLineFeed (unit :: text)).lines ∧
      (unitExtent (isLineFeedPoint [unit]) + countedExtent text).columns +
        lostColumns (unit :: text) = (extent isLineFeed (unit :: text)).columns := by
  have same : isLineFeedPoint [unit] = isLineFeed unit := by
    simp [isLineFeedPoint, isLineFeed]
  rw [same, extent_cons, Extent.lines_add, Extent.lines_add, lines, Extent.columns_add,
    Extent.columns_add, lines]
  refine ⟨rfl, ?_⟩
  by_cases single : (extent isLineFeed text).lines = 0
  · rw [if_pos single, if_pos single]
    have notMem := lines_extent_eq_zero_iff.mp single
    by_cases isLF : unit = LF
    · rw [lostColumns_cons_of_mem unit (by simp [isLF])]
      omega
    · have plain : LF ∉ unit :: text := by
        rw [mem_cons, not_or]
        exact ⟨Ne.symm isLF, notMem⟩
      rw [lostColumns_of_notMem notMem] at columns
      rw [lostColumns_of_notMem plain, alone plain]
      omega
  · rw [if_neg single, if_neg single, lostColumns_cons_of_mem unit]
    · exact columns
    · have mem := mt lines_extent_eq_zero_iff.mpr single
      rw [not_not] at mem
      exact mem_cons_of_mem _ mem

/-- The lines are counted right, and of the columns those of pairs are lost. -/
theorem countedExtent_spec (text : Text) :
    (countedExtent text).lines = (extent isLineFeed text).lines ∧
      (countedExtent text).columns + lostColumns text = (extent isLineFeed text).columns := by
  induction text using codePoints.induct with
  | case1 => exact ⟨rfl, rfl⟩
  | case2 unit =>
    have step := @counted_step unit [] rfl rfl fun _ => rfl
    exact step
  | case3 unit next text pair ih =>
    obtain ⟨lines, columns⟩ := ih
    have plain : ∀ u : CodeUnit, isHighSurrogate u ∨ isLowSurrogate u → u ≠ LF := by
      rintro u surrogate rfl
      revert surrogate
      decide
    have high := plain unit (.inl pair.1)
    have low := plain next (.inr pair.2)
    have point : countedExtent (unit :: next :: text) = ⟨0, 1⟩ + countedExtent text := by
      have noBreak : isLineFeedPoint [unit, next] = false := by simp [isLineFeedPoint]
      rw [countedExtent, codePoints, if_pos pair, extent_cons, noBreak]
      rfl
    have units : extent isLineFeed (unit :: next :: text) = ⟨0, 2⟩ + extent isLineFeed text := by
      rw [extent_cons, extent_cons, ← add_assoc]
      simp [isLineFeed, high, low, unitExtent, Extent.add_def]
    have member : LF ∈ unit :: next :: text ↔ LF ∈ text := by
      simp [Ne.symm high, Ne.symm low]
    rw [point, units, Extent.lines_add, Extent.lines_add, Extent.columns_add,
      Extent.columns_add, lines]
    refine ⟨rfl, ?_⟩
    by_cases single : (extent isLineFeed text).lines = 0
    · have notMem := lines_extent_eq_zero_iff.mp single
      rw [lostColumns_of_notMem notMem] at columns
      rw [if_pos single, if_pos single, lostColumns_of_notMem (mt member.mp notMem),
        surrogatePairs, if_pos pair]
      simp only
      omega
    · have mem := mt lines_extent_eq_zero_iff.mpr single
      rw [not_not] at mem
      rw [if_neg single, if_neg single, lostColumns_cons_of_mem unit (member.mpr mem),
        lostColumns_cons_of_mem next (mem_cons_of_mem _ mem)]
      exact columns
  | case4 unit next text pair ih =>
    have point : countedExtent (unit :: next :: text) =
        unitExtent (isLineFeedPoint [unit]) + countedExtent (next :: text) := by
      rw [countedExtent, codePoints, if_neg pair]
      rfl
    rw [point]
    apply counted_step ih.1 ih.2
    intro _
    rw [surrogatePairs, if_neg pair]

/-- The code points are the columns when no pair is behind the last line feed, and only
then. -/
theorem countedExtent_eq_iff {text : Text} :
    countedExtent text = extent isLineFeed text ↔ lostColumns text = 0 := by
  obtain ⟨lines, columns⟩ := countedExtent_spec text
  constructor
  · intro equal
    rw [equal] at columns
    omega
  · intro none
    apply Extent.ext lines
    omega

end CodeEditor.Edits
