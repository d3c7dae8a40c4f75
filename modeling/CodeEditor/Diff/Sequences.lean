import CodeEditor.Edits.OffsetEdit

/-!
# Sequences and their differences

Model of `ISequence`, `SequenceDiff` and `DiffAlgorithmResult` in `diffAlgorithm.ts`, and what
it means that a list of differences aligns two sequences.
-/

namespace CodeEditor.Diff

open Edits

/-! ## Sequences -/

/-- What is read outside of a sequence is left open. -/
structure ISequence (E : Type) where
  length : Nat
  getElement : Int → E

/-! ## Differences -/

structure SequenceDiff where
  seq1Range : OffsetRange
  seq2Range : OffsetRange
  deriving DecidableEq

/-- `new SequenceDiff(new OffsetRange(start1, end1), new OffsetRange(start2, end2))`, which
throws on reversed ranges. -/
def SequenceDiff.new (start1 end1 start2 end2 : Int) : Option SequenceDiff := do
  let seq1Range ← OffsetRange.new start1 end1
  let seq2Range ← OffsetRange.new start2 end2
  some ⟨seq1Range, seq2Range⟩

structure DiffAlgorithmResult where
  diffs : List SequenceDiff
  hitTimeout : Bool
  deriving DecidableEq

def OffsetRange.ofLength (length : Nat) : OffsetRange := ⟨0, length, Int.natCast_nonneg length⟩

def DiffAlgorithmResult.trivial {E : Type} (seq1 seq2 : ISequence E) : DiffAlgorithmResult :=
  ⟨[⟨OffsetRange.ofLength seq1.length, OffsetRange.ofLength seq2.length⟩], false⟩

/-! ## Alignments -/

variable {E : Type} (seq1 seq2 : ISequence E)

/-- The elements from two offsets up to two others are not changed: there are as many in
both sequences, and they are pairwise equal. -/
structure Unchanged (start1 end1 start2 end2 : Int) : Prop where
  ordered : start1 ≤ end1
  length_eq : end1 - start1 = end2 - start2
  element_eq : ∀ i, 0 ≤ i → i < end1 - start1 →
    seq1.getElement (start1 + i) = seq2.getElement (start2 + i)

/-- From two offsets on, the differences are sorted and disjoint in both sequences, and
everything between and behind them is unchanged. -/
def ValidFrom (offset1 offset2 : Int) : List SequenceDiff → Prop
  | [] => Unchanged seq1 seq2 offset1 seq1.length offset2 seq2.length
  | diff :: diffs =>
    Unchanged seq1 seq2 offset1 diff.seq1Range.start offset2 diff.seq2Range.start ∧
      ValidFrom diff.seq1Range.endExclusive diff.seq2Range.endExclusive diffs

/-- The differences align the sequences. -/
def Valid (diffs : List SequenceDiff) : Prop := ValidFrom seq1 seq2 0 0 diffs

/-- There is an element between two differences that follow each other, in both sequences. -/
def Separated (diffs : List SequenceDiff) : Prop :=
  diffs.IsChain fun before after =>
    before.seq1Range.endExclusive < after.seq1Range.start ∧
      before.seq2Range.endExclusive < after.seq2Range.start

variable {seq1 seq2}

theorem Unchanged.refl (offset1 offset2 : Int) :
    Unchanged seq1 seq2 offset1 offset1 offset2 offset2 :=
  ⟨Int.le_refl _, by omega, fun i nonneg less => by omega⟩

/-- Two unchanged parts after each other. -/
theorem Unchanged.trans (first : Unchanged seq1 seq2 a b a' b')
    (second : Unchanged seq1 seq2 b c b' c') : Unchanged seq1 seq2 a c a' c' where
  ordered := Int.le_trans first.ordered second.ordered
  length_eq := by
    have := first.length_eq
    have := second.length_eq
    omega
  element_eq := by
    intro i nonneg less
    have := first.length_eq
    by_cases inFirst : i < b - a
    · exact first.element_eq i nonneg inFirst
    · have equal := second.element_eq (i - (b - a)) (by omega) (by omega)
      rwa [show b + (i - (b - a)) = a + i by omega,
        show b' + (i - (b - a)) = a' + i by omega] at equal

/-- One pair of equal elements. -/
theorem Unchanged.single {offset1 offset2 : Int}
    (equal : seq1.getElement offset1 = seq2.getElement offset2) :
    Unchanged seq1 seq2 offset1 (offset1 + 1) offset2 (offset2 + 1) where
  ordered := by omega
  length_eq := by omega
  element_eq := by
    intro i nonneg less
    obtain rfl : i = 0 := by omega
    simpa using equal

/-- An unchanged part in front of what is valid. -/
theorem ValidFrom.prepend
    (unchanged : Unchanged seq1 seq2 a b a' b') (valid : ValidFrom seq1 seq2 b b' diffs) :
    ValidFrom seq1 seq2 a a' diffs := by
  cases diffs with
  | nil => exact unchanged.trans valid
  | cons diff diffs => exact ⟨unchanged.trans valid.1, valid.2⟩

theorem SequenceDiff.new_eq {start1 end1 start2 end2 : Int} (ordered1 : start1 ≤ end1)
    (ordered2 : start2 ≤ end2) :
    SequenceDiff.new start1 end1 start2 end2 =
      some ⟨⟨start1, end1, ordered1⟩, ⟨start2, end2, ordered2⟩⟩ := by
  simp [SequenceDiff.new, OffsetRange.new, ordered1, ordered2]

/-- One difference over everything. -/
theorem valid_trivial : Valid seq1 seq2 (DiffAlgorithmResult.trivial seq1 seq2).diffs :=
  ⟨Unchanged.refl 0 0, Unchanged.refl _ _⟩

end CodeEditor.Diff
