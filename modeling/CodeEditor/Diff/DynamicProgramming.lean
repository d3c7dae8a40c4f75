import CodeEditor.Foundation.Loops
import CodeEditor.Diff.Sequences

/-!
# Diffing by dynamic programming

Model of `DynamicProgrammingDiffing.compute` in `dynamicProgrammingDiffing.ts`, without a
timeout. Scores are of any type with sums and an order: the source's are doubles, and of their
arithmetic the proofs use only that -1 is below 0. A cell that was never set is `none`;
calculating with one would give `NaN`, so it ends the model, and the proofs show that this
does not happen.
-/

namespace CodeEditor.Diff

open List Option

/-! ## Tables -/

structure Array2D (T : Type) where
  width : Nat
  height : Nat
  array : Nat → Option T

namespace Array2D

def new (T : Type) (width height : Nat) : Array2D T := ⟨width, height, fun _ => none⟩

def get {T : Type} (table : Array2D T) (x y : Nat) : Option T :=
  table.array (x + y * table.width)

def set {T : Type} (table : Array2D T) (x y : Nat) (value : T) : Array2D T :=
  { table with array := Function.update table.array (x + y * table.width) (some value) }

theorem get_set_same {T : Type} (table : Array2D T) (x y : Nat) (value : T) :
    (table.set x y value).get x y = some value := by
  simp [get, set]

/-- Another cell inside the width keeps its value. -/
theorem get_set_other {T : Type} {table : Array2D T} {x y x' y' : Nat} {value : T}
    (inside : x < table.width) (inside' : x' < table.width) (different : ¬(x' = x ∧ y' = y)) :
    (table.set x y value).get x' y' = table.get x' y' := by
  have otherIndex : x' + y' * table.width ≠ x + y * table.width := by
    intro same
    have sameX : x' = x := by
      have := congrArg (· % table.width) same
      simpa [Nat.mod_eq_of_lt inside, Nat.mod_eq_of_lt inside'] using this
    subst sameX
    have positive : 0 < table.width := by omega
    exact different ⟨rfl, Nat.eq_of_mul_eq_mul_right positive (by omega)⟩
  simp [get, set, Function.update_of_ne otherIndex]

end Array2D

/-! ## The algorithm -/

section Compute

variable {E S : Type} [DecidableEq E] [LinearOrder S]
variable [Zero S] [One S] [Neg S] [Add S] [NatCast S]

structure Tables (S : Type) where
  lcsLengths : Array2D S
  directions : Array2D Nat
  lengths : Array2D Nat

def Tables.new (S : Type) (width height : Nat) : Tables S :=
  ⟨.new S width height, .new Nat width height, .new Nat width height⟩

/-- The score of a common subsequence that ends with this pair of elements. -/
def extendedSeqScore (seq1 seq2 : ISequence E) (equalityScore : Option (Nat → Nat → S))
    (tables : Tables S) (s1 s2 : Nat) : Option S := do
  if seq1.getElement s1 = seq2.getElement s2 then
    let score ← (if s1 = 0 ∨ s2 = 0 then some 0 else tables.lcsLengths.get (s1 - 1) (s2 - 1))
    let score ←
      (if s1 > 0 ∧ s2 > 0 ∧ tables.directions.get (s1 - 1) (s2 - 1) = some 3 then
        -- Prefer consecutive diagonals
        (tables.lengths.get (s1 - 1) (s2 - 1)).map fun length => score + length
      else some score)
    some (score + match equalityScore with
      | some equalityScore => equalityScore s1 s2
      | none => 1)
  else some (-1)

/-- What the body of the two loops does to `lengths` and `directions`. -/
def setDirection (tables : Tables S) (s1 s2 : Nat)
    (horizontalLen verticalLen extendedSeqScore newValue : S) : Option (Tables S) :=
  if newValue = extendedSeqScore then do
    -- Prefer diagonals
    let prevLen ← (if s1 > 0 ∧ s2 > 0 then tables.lengths.get (s1 - 1) (s2 - 1) else some 0)
    some { tables with
      lengths := tables.lengths.set s1 s2 (prevLen + 1)
      directions := tables.directions.set s1 s2 3 }
  else if newValue = horizontalLen then
    some { tables with
      lengths := tables.lengths.set s1 s2 0
      directions := tables.directions.set s1 s2 1 }
  else if newValue = verticalLen then
    some { tables with
      lengths := tables.lengths.set s1 s2 0
      directions := tables.directions.set s1 s2 2 }
  else some tables

/-- The body of the two loops that fill the tables. -/
def fillCell (seq1 seq2 : ISequence E) (equalityScore : Option (Nat → Nat → S)) (s1 : Nat)
    (tables : Tables S) (s2 : Nat) : Option (Tables S) := do
  let horizontalLen ← (if s1 = 0 then some 0 else tables.lcsLengths.get (s1 - 1) s2)
  let verticalLen ← (if s2 = 0 then some 0 else tables.lcsLengths.get s1 (s2 - 1))
  let extendedSeqScore ← extendedSeqScore seq1 seq2 equalityScore tables s1 s2
  let newValue := max (max horizontalLen verticalLen) extendedSeqScore
  let tables ← setDirection tables s1 s2 horizontalLen verticalLen extendedSeqScore newValue
  some { tables with lcsLengths := tables.lcsLengths.set s1 s2 newValue }

def fillTables (seq1 seq2 : ISequence E) (equalityScore : Option (Nat → Nat → S)) :
    Option (Tables S) :=
  forLoop seq1.length (Tables.new S seq1.length seq2.length) fun tables s1 =>
    forLoop seq2.length tables (fillCell seq1 seq2 equalityScore s1)

/-- What backtracking has pushed, and the last positions that it aligned. -/
structure Backtracked where
  result : List SequenceDiff
  lastAligningPosS1 : Int
  lastAligningPosS2 : Int

def reportDecreasingAligningPositions (state : Backtracked) (s1 s2 : Int) :
    Option Backtracked := do
  if s1 + 1 ≠ state.lastAligningPosS1 ∨ s2 + 1 ≠ state.lastAligningPosS2 then
    let diff ← SequenceDiff.new (s1 + 1) state.lastAligningPosS1 (s2 + 1) state.lastAligningPosS2
    some ⟨state.result ++ [diff], s1, s2⟩
  else some ⟨state.result, s1, s2⟩

/-- The loop that follows the directions, with `s1 + 1` and `s2 + 1` elements to go. -/
def backtrack (directions : Array2D Nat) : (todo1 todo2 : Nat) → Backtracked →
    Option Backtracked
  | todo1 + 1, todo2 + 1, state =>
    if directions.get todo1 todo2 = some 3 then do
      let state ← reportDecreasingAligningPositions state todo1 todo2
      backtrack directions todo1 todo2 state
    else if directions.get todo1 todo2 = some 1 then
      backtrack directions todo1 (todo2 + 1) state
    else backtrack directions (todo1 + 1) todo2 state
  | _, _, state => some state
termination_by todo1 todo2 => todo1 + todo2

/-- `compute` with `equalityScore` undefined or given. -/
def DynamicProgrammingDiffing.compute (seq1 seq2 : ISequence E)
    (equalityScore : Option (Nat → Nat → S)) : Option DiffAlgorithmResult := do
  if seq1.length = 0 ∨ seq2.length = 0 then some (DiffAlgorithmResult.trivial seq1 seq2)
  else
    let tables ← fillTables seq1 seq2 equalityScore
    let state ← backtrack tables.directions seq1.length seq2.length
      ⟨[], seq1.length, seq2.length⟩
    let state ← reportDecreasingAligningPositions state (-1) (-1)
    some ⟨state.result.reverse, false⟩

end Compute

/-!
## Diffing by dynamic programming aligns

The scores only matter for the choice of a direction. What backtracking rests on is that
direction 3 is given to pairs of equal elements only; it goes on from the last pair that it
has aligned, which is the front of an unchanged part.
-/

variable {E S : Type} [Zero S] [LinearOrder S]
variable {seq1 seq2 : ISequence E}

/-! ## The tables -/

/-- The loops have come to a cell: the cells before it are set, with values that are not
negative, and direction 3 is for equal elements. -/
structure Filled (seq1 seq2 : ISequence E) (tables : Tables S) (s1 s2 : Nat) : Prop where
  lcsWidth : tables.lcsLengths.width = seq1.length
  directionsWidth : tables.directions.width = seq1.length
  lengthsWidth : tables.lengths.width = seq1.length
  lcsLengths : ∀ x < seq1.length, ∀ y < seq2.length, (x < s1 ∨ x = s1 ∧ y < s2) →
    ∃ value, tables.lcsLengths.get x y = some value ∧ 0 ≤ value
  lengths : ∀ x < seq1.length, ∀ y < seq2.length, (x < s1 ∨ x = s1 ∧ y < s2) →
    ∃ length, tables.lengths.get x y = some length
  directions : ∀ x < seq1.length, ∀ y, tables.directions.get x y = some 3 →
    seq1.getElement x = seq2.getElement y

variable {tables : Tables S} {s1 s2 : Nat}

theorem filled_new : Filled seq1 seq2 (Tables.new S seq1.length seq2.length) 0 0 where
  lcsWidth := rfl
  directionsWidth := rfl
  lengthsWidth := rfl
  lcsLengths := by intro x _ y _ before; omega
  lengths := by intro x _ y _ before; omega
  directions := by
    intro x _ y isThree
    cases isThree

/-- The loops go on to the next row. -/
theorem Filled.nextRow (filled : Filled seq1 seq2 tables s1 seq2.length) :
    Filled seq1 seq2 tables (s1 + 1) 0 where
  lcsWidth := filled.lcsWidth
  directionsWidth := filled.directionsWidth
  lengthsWidth := filled.lengthsWidth
  lcsLengths := fun x inX y inY before => filled.lcsLengths x inX y inY (by omega)
  lengths := fun x inX y inY before => filled.lengths x inX y inY (by omega)
  directions := filled.directions

/-- A cell is set. -/
theorem Filled.set (filled : Filled seq1 seq2 tables s1 s2) (inside : s1 < seq1.length)
    {value : S} {length direction : Nat} (nonneg : 0 ≤ value)
    (sound : direction = 3 → seq1.getElement s1 = seq2.getElement s2) :
    Filled seq1 seq2 ⟨tables.lcsLengths.set s1 s2 value, tables.directions.set s1 s2 direction,
        tables.lengths.set s1 s2 length⟩ s1 (s2 + 1) where
  lcsWidth := filled.lcsWidth
  directionsWidth := filled.directionsWidth
  lengthsWidth := filled.lengthsWidth
  lcsLengths := by
    intro x inX y inY before
    by_cases same : x = s1 ∧ y = s2
    · obtain ⟨rfl, rfl⟩ := same
      exact ⟨value, Array2D.get_set_same _ _ _ _, nonneg⟩
    · rw [Array2D.get_set_other (by rwa [filled.lcsWidth]) (by rwa [filled.lcsWidth]) same]
      exact filled.lcsLengths x inX y inY (by omega)
  lengths := by
    intro x inX y inY before
    by_cases same : x = s1 ∧ y = s2
    · obtain ⟨rfl, rfl⟩ := same
      exact ⟨length, Array2D.get_set_same _ _ _ _⟩
    · rw [Array2D.get_set_other (by rwa [filled.lengthsWidth]) (by rwa [filled.lengthsWidth]) same]
      exact filled.lengths x inX y inY (by omega)
  directions := by
    intro x inX y isThree
    by_cases same : x = s1 ∧ y = s2
    · obtain ⟨rfl, rfl⟩ := same
      rw [Array2D.get_set_same] at isThree
      exact sound (Option.some.inj isThree)
    · rw [Array2D.get_set_other (by rwa [filled.directionsWidth])
        (by rwa [filled.directionsWidth]) same] at isThree
      exact filled.directions x inX y isThree

/-- The cell before in one direction, or 0 at the border. -/
theorem Filled.neighbour (filled : Filled seq1 seq2 tables s1 s2) {x y : Nat} (border : Prop)
    [Decidable border] (inside : ¬border → x < seq1.length ∧ y < seq2.length ∧
      (x < s1 ∨ x = s1 ∧ y < s2)) :
    ∃ value, (if border then some 0 else tables.lcsLengths.get x y) = some value ∧ 0 ≤ value := by
  split_ifs with isBorder
  · exact ⟨0, rfl, le_rfl⟩
  · have ⟨inX, inY, before⟩ := inside isBorder
    exact filled.lcsLengths x inX y inY before

/-- The length of the run of diagonals in front of a cell. -/
theorem Filled.diagonalLength (filled : Filled seq1 seq2 tables s1 s2)
    (inside : s1 < seq1.length) (inside' : s2 < seq2.length) (positive : s1 > 0 ∧ s2 > 0) :
    ∃ length, tables.lengths.get (s1 - 1) (s2 - 1) = some length :=
  filled.lengths (s1 - 1) (by omega) (s2 - 1) (by omega) (Or.inl (by omega))

variable [DecidableEq E] [One S] [Neg S] [Add S] [NatCast S]

section

variable (filled : Filled seq1 seq2 tables s1 s2) (inside : s1 < seq1.length)
  (inside' : s2 < seq2.length) (equalityScore : Option (Nat → Nat → S))

include filled inside inside' equalityScore

theorem Filled.extendedSeqScore :
    ∃ score, extendedSeqScore seq1 seq2 equalityScore tables s1 s2 = some score ∧
      (seq1.getElement s1 ≠ seq2.getElement s2 → score = -1) := by
  unfold Diff.extendedSeqScore
  by_cases equal : seq1.getElement s1 = seq2.getElement s2
  · have ⟨score, isScore, _⟩ := filled.neighbour (x := s1 - 1) (y := s2 - 1)
      (s1 = 0 ∨ s2 = 0) (by omega)
    rw [if_pos equal, isScore, bind_eq_bind, bind_some]
    by_cases diagonal : s1 > 0 ∧ s2 > 0 ∧ tables.directions.get (s1 - 1) (s2 - 1) = some 3
    · have ⟨length, isLength⟩ :=
        filled.diagonalLength inside inside' ⟨diagonal.1, diagonal.2.1⟩
      rw [if_pos diagonal, isLength]
      exact ⟨_, rfl, fun different => absurd equal different⟩
    · rw [if_neg diagonal]
      exact ⟨_, rfl, fun different => absurd equal different⟩
  · rw [if_neg equal]
    exact ⟨-1, rfl, fun _ => rfl⟩

/-- The body of the loops sets the cell, whichever direction it chooses. -/
theorem Filled.fillCell (negOne : (-1 : S) < 0) :
    ∃ tables', fillCell seq1 seq2 equalityScore s1 tables s2 = some tables' ∧
      Filled seq1 seq2 tables' s1 (s2 + 1) := by
  have ⟨horizontalLen, isHorizontal, horizontalNonneg⟩ :=
    filled.neighbour (x := s1 - 1) (y := s2) (s1 = 0) (by omega)
  have ⟨verticalLen, isVertical, _⟩ :=
    filled.neighbour (x := s1) (y := s2 - 1) (s2 = 0) (by omega)
  have ⟨score, isScore, scoreOf⟩ := filled.extendedSeqScore inside inside' equalityScore
  have nonneg : 0 ≤ max (max horizontalLen verticalLen) score :=
    horizontalNonneg.trans ((le_max_left _ _).trans (le_max_left _ _))
  rw [Diff.fillCell, isHorizontal, isVertical, isScore]
  simp only [bind_eq_bind, bind_some]
  unfold setDirection
  by_cases isExtended : max (max horizontalLen verticalLen) score = score
  · have equal : seq1.getElement s1 = seq2.getElement s2 := by
      by_contra different
      have negative : score < 0 := by
        rw [scoreOf different]
        exact negOne
      rw [isExtended] at nonneg
      exact absurd nonneg (not_le.mpr negative)
    by_cases positive : s1 > 0 ∧ s2 > 0
    · have ⟨length, isLength⟩ := filled.diagonalLength inside inside' positive
      rw [if_pos isExtended, if_pos positive, isLength]
      exact ⟨_, rfl, filled.set inside nonneg fun _ => equal⟩
    · rw [if_pos isExtended, if_neg positive]
      exact ⟨_, rfl, filled.set inside nonneg fun _ => equal⟩
  · rw [if_neg isExtended]
    by_cases isHorizontal : max (max horizontalLen verticalLen) score = horizontalLen
    · rw [if_pos isHorizontal]
      exact ⟨_, rfl, filled.set inside nonneg fun isThree => by omega⟩
    · have isVertical : max (max horizontalLen verticalLen) score = verticalLen := by
        rcases max_choice (max horizontalLen verticalLen) score with isMax | isMax
        · rcases max_choice horizontalLen verticalLen with isMax' | isMax'
          · exact absurd (isMax.trans isMax') isHorizontal
          · exact isMax.trans isMax'
        · exact absurd isMax isExtended
      rw [if_neg isHorizontal, if_pos isVertical]
      exact ⟨_, rfl, filled.set inside nonneg fun isThree => by omega⟩

end

theorem fillTables_filled (negOne : (-1 : S) < 0) (seq1 seq2 : ISequence E)
    (equalityScore : Option (Nat → Nat → S)) :
    ∃ tables, fillTables seq1 seq2 equalityScore = some tables ∧
      Filled seq1 seq2 tables seq1.length 0 := by
  refine forLoop_invariant (fun s1 tables => Filled seq1 seq2 tables s1 0) filled_new ?_
  intro s1 inside tables filled
  have ⟨tables', runs, filled'⟩ := forLoop_invariant
    (fun s2 tables => Filled seq1 seq2 tables s1 s2) filled fun s2 inside' tables filled =>
      filled.fillCell inside inside' equalityScore negOne
  exact ⟨tables', runs, filled'.nextRow⟩

/-! ## Backtracking -/

/-- From the last aligned positions on, the pushed differences are valid and separated, and
the first of them does not start there. -/
structure Aligned (seq1 seq2 : ISequence E) (state : Backtracked) : Prop where
  valid : ValidFrom seq1 seq2 state.lastAligningPosS1 state.lastAligningPosS2
    state.result.reverse
  separated : Separated state.result.reverse
  behind : ∀ diff ∈ state.result.reverse.head?,
    state.lastAligningPosS1 < diff.seq1Range.start ∧
      state.lastAligningPosS2 < diff.seq2Range.start

variable {state : Backtracked}

omit [DecidableEq E] in
/-- What a report pushes is in front of what was pushed before. -/
theorem Aligned.report (aligned : Aligned seq1 seq2 state) (s1 s2 : Int)
    (before1 : s1 + 1 ≤ state.lastAligningPosS1) (before2 : s2 + 1 ≤ state.lastAligningPosS2) :
    ∃ result, reportDecreasingAligningPositions state s1 s2 = some ⟨result, s1, s2⟩ ∧
      ValidFrom seq1 seq2 (s1 + 1) (s2 + 1) result.reverse ∧ Separated result.reverse ∧
      ∀ diff ∈ result.reverse.head?, s1 < diff.seq1Range.start ∧ s2 < diff.seq2Range.start := by
  unfold reportDecreasingAligningPositions
  split_ifs with changed
  · refine ⟨_, by rw [SequenceDiff.new_eq before1 before2]; rfl, ?_, ?_, ?_⟩
    · rw [reverse_concat]
      exact ⟨Unchanged.refl _ _, aligned.valid⟩
    · rw [reverse_concat, Separated, isChain_cons]
      exact ⟨aligned.behind, aligned.separated⟩
    · rw [reverse_concat]
      intro diff isHead
      obtain rfl := Option.some.inj isHead
      exact ⟨Int.lt_succ s1, Int.lt_succ s2⟩
  · simp only [not_or, not_not] at changed
    refine ⟨state.result, rfl, ?_, aligned.separated, ?_⟩
    · rw [changed.1, changed.2]
      exact aligned.valid
    · intro diff isHead
      have := aligned.behind diff isHead
      omega

omit [DecidableEq E] in
/-- A report of two equal elements. -/
theorem Aligned.reportEqual (aligned : Aligned seq1 seq2 state) (s1 s2 : Int)
    (before1 : s1 + 1 ≤ state.lastAligningPosS1) (before2 : s2 + 1 ≤ state.lastAligningPosS2)
    (equal : seq1.getElement s1 = seq2.getElement s2) :
    ∃ state', reportDecreasingAligningPositions state s1 s2 = some state' ∧
      Aligned seq1 seq2 state' ∧ state'.lastAligningPosS1 = s1 ∧
      state'.lastAligningPosS2 = s2 := by
  have ⟨result, runs, valid, separated, behind⟩ := aligned.report s1 s2 before1 before2
  exact ⟨_, runs, ⟨valid.prepend (Unchanged.single equal), separated, behind⟩, rfl, rfl⟩

omit [DecidableEq E] in
/-- Backtracking goes on to where it has aligned all that it can. -/
theorem Aligned.backtrack {directions : Array2D Nat} {todo1 todo2 : Nat}
    (sound : ∀ x < seq1.length, ∀ y, directions.get x y = some 3 →
      seq1.getElement x = seq2.getElement y)
    (aligned : Aligned seq1 seq2 state) (inside : todo1 ≤ seq1.length)
    (before1 : todo1 ≤ state.lastAligningPosS1) (before2 : todo2 ≤ state.lastAligningPosS2) :
    ∃ state', backtrack directions todo1 todo2 state = some state' ∧ Aligned seq1 seq2 state' ∧
      0 ≤ state'.lastAligningPosS1 ∧ 0 ≤ state'.lastAligningPosS2 := by
  fun_induction Diff.backtrack directions todo1 todo2 state with
  | case1 todo1 todo2 state isThree ih =>
    have ⟨state', runs, aligned', eq1, eq2⟩ := aligned.reportEqual todo1 todo2
      (by omega) (by omega) (sound todo1 (by omega) todo2 isThree)
    rw [runs, bind_eq_bind, bind_some]
    exact ih state' aligned' (by omega) (by omega) (by omega)
  | case2 todo1 todo2 state notThree isOne ih =>
    exact ih aligned (by omega) (by omega) before2
  | case3 todo1 todo2 state notThree notOne ih =>
    exact ih aligned inside before1 (by omega)
  | case4 todo1 todo2 state ended =>
    exact ⟨state, rfl, aligned, by omega, by omega⟩

/-! ## The result -/

/-- The computed differences align the sequences, and there is an aligned element between
differences that follow each other. -/
theorem DynamicProgrammingDiffing.compute_valid (negOne : (-1 : S) < 0)
    (seq1 seq2 : ISequence E) (equalityScore : Option (Nat → Nat → S)) :
    ∃ diffs, compute seq1 seq2 equalityScore = some ⟨diffs, false⟩ ∧
      Valid seq1 seq2 diffs ∧ Separated diffs := by
  unfold compute
  split_ifs with empty
  · exact ⟨_, rfl, valid_trivial, isChain_singleton _⟩
  · have ⟨tables, fills, filled⟩ := fillTables_filled negOne seq1 seq2 equalityScore
    have start : Aligned seq1 seq2 ⟨[], seq1.length, seq2.length⟩ :=
      ⟨Unchanged.refl _ _, isChain_nil, by simp⟩
    have ⟨state, tracks, aligned, nonneg1, nonneg2⟩ :=
      start.backtrack filled.directions le_rfl le_rfl (le_refl (seq2.length : Int))
    have ⟨result, reports, valid, separated, _⟩ :=
      aligned.report (-1) (-1) (by omega) (by omega)
    refine ⟨result.reverse, ?_, valid, separated⟩
    rw [fills, bind_eq_bind, bind_some, tracks, bind_eq_bind,
      bind_some, reports]
    rfl

/-- The sequence of some numbers. -/
def numbers (elements : List Int) : ISequence Int :=
  ⟨elements.length, fun offset => elements.getD offset.toNat 0⟩

/-- A score that prefers later pairs. -/
theorem compute_valid_numbers :
    ∃ diffs, DynamicProgrammingDiffing.compute (S := Int) (numbers [1, 2, 3]) (numbers [2, 3, 3])
        (some fun offset1 offset2 => offset1 + offset2) = some ⟨diffs, false⟩ ∧
      Valid (numbers [1, 2, 3]) (numbers [2, 3, 3]) diffs ∧ Separated diffs :=
  DynamicProgrammingDiffing.compute_valid (by decide) _ _ _

end CodeEditor.Diff
