import CodeEditor.BracketPairs.Length
import CodeEditor.Foundation.LineTable

/-!
# Packed lengths

The operations of `length.ts` on packed numbers while no count reaches the factor. They
add, subtract and compare as lengths do, and all numbers are exact in a double.
-/

namespace CodeEditor.BracketPairs

open List Nat

def lengthOfStringObj (str : Text) : Length :=
  let lines := splitLines str
  ⟨lines.length - 1, (lines.getLastD []).length⟩

theorem lengthOfStringObj_eq {str last : Text} {lines : List Text}
    (split : splitLines str = lines ++ [last]) :
    lengthOfStringObj str = ⟨lines.length, last.length⟩ := by
  simp [lengthOfStringObj, split]

/-- The lengths of two strings add up unless a `\r\n` is cut. -/
theorem lengthOfStringObj_append {first second : Text} (whole : splitsCRLF first second = false) :
    lengthOfStringObj (first ++ second) = lengthOfStringObj first + lengthOfStringObj second := by
  obtain ⟨lines, last, firstLines⟩ :=
    (eq_nil_or_concat' (splitLines first)).resolve_left (splitLines_ne_nil first)
  obtain ⟨next, more, secondLines⟩ :=
    exists_cons_of_ne_nil (splitLines_ne_nil second)
  have joined := splitLines_append whole firstLines secondLines
  rw [lengthOfStringObj_eq firstLines]
  rcases eq_nil_or_concat' more with rfl | ⟨rows, final, rfl⟩
  · rw [lengthOfStringObj_eq joined, @lengthOfStringObj_eq _ _ [] secondLines]
    simp [Extent.add_def]
  · rw [← cons_append, ← append_assoc] at joined
    rw [← cons_append] at secondLines
    rw [lengthOfStringObj_eq joined, lengthOfStringObj_eq secondLines]
    simp [Extent.add_def]

namespace Packed

def lengthZero : Nat := 0

def sumLengths {α : Type} (items : List α) (lengthFn : α → Nat) : Nat :=
  items.foldl (fun a b => lengthAdd a (lengthFn b)) lengthZero

def lengthLessThan (l1 l2 : Nat) : Bool := l1 < l2

def lengthLessThanEqual (l1 l2 : Nat) : Bool := l1 ≤ l2

def lengthOfString (str : Text) : Nat :=
  let lines := splitLines str
  pack ⟨lines.length - 1, (lines.getLastD []).length⟩

/-- Neither of the counts reaches the factor. -/
def Small (length : Length) : Prop := length.lines < factor ∧ length.columns < factor

instance (length : Length) : Decidable (Small length) := inferInstanceAs (Decidable (_ ∧ _))

variable {a b c : Length}

theorem Small.fits (small : Small a) : Fits a := small.2

/-- The numbers of the program are doubles: those that stand for small lengths, and the sum that
`lengthAdd` forms first, are below `2 ^ 53` and so exact. -/
theorem pack_add_pack_lt (small : Small a) (small' : Small b) :
    pack a < 2 ^ 52 ∧ pack a + pack b < 2 ^ 53 := by
  have bound : ∀ {c : Length}, Small c → pack c < 2 ^ 52 := by
    rintro c ⟨lines, columns⟩
    have rows := mul_le_mul_right factor (succ_le_of_lt lines)
    rw [succ_mul] at rows
    simp only [pack, factor] at *
    omega
  have first := bound small
  have second := bound small'
  exact ⟨first, by omega⟩

theorem lengthZero_eq : lengthZero = pack 0 := rfl

/-- A sum of packed lengths is the packed sum when the items and all sums on the way are small. -/
theorem sumLengths_pack {α : Type} (items : List α) (lengthFn : α → Length)
    (small : ∀ item ∈ items, Small (lengthFn item))
    (sums : ∀ front, front <+: items → Small (BracketPairs.sumLengths front lengthFn)) :
    sumLengths items (fun item => pack (lengthFn item)) =
      pack (BracketPairs.sumLengths items lengthFn) := by
  induction items using List.reverseRecOn with
  | nil => exact lengthZero_eq
  | append_singleton items item ih =>
    have front := ih (fun item here => small item (mem_append_left _ here))
      fun front isPrefix => sums front (isPrefix.trans (prefix_append _ _))
    rw [sumLengths] at front ⊢
    rw [foldl_concat, front,
      lengthAdd_pack (sums items (prefix_append _ _)).fits (small item (by simp)).fits,
      BracketPairs.sumLengths, BracketPairs.sumLengths, foldl_concat, BracketPairs.lengthAdd_eq]

/-- The second of two lengths spans a line. -/
theorem sumLengths_pack_sample :
    sumLengths [Extent.mk 10 5, ⟨1, 3⟩] pack = pack ⟨11, 3⟩ := by
  refine sumLengths_pack [Extent.mk 10 5, ⟨1, 3⟩] id (by decide) fun front isPrefix => ?_
  rw [prefix_iff_eq_take.mp isPrefix]
  have all : ∀ n ≤ 2, Small (BracketPairs.sumLengths ([Extent.mk 10 5, ⟨1, 3⟩].take n) id) := by
    decide
  exact all _ isPrefix.length_le

theorem lengthLessThan_pack (fits : Fits a) (fits' : Fits b) :
    lengthLessThan (pack a) (pack b) = true ↔ a < b := by
  rw [lengthLessThan, decide_eq_true_iff, ← not_le, pack_le_iff fits' fits, not_le]

theorem lengthLessThanEqual_pack (fits : Fits a) (fits' : Fits b) :
    lengthLessThanEqual (pack a) (pack b) = true ↔ a ≤ b := by
  rw [lengthLessThanEqual, decide_eq_true_iff, pack_le_iff fits fits']

theorem lengthAdd_assoc_pack (fits : Fits a) (fits' : Fits b) (fits'' : Fits c)
    (first : Fits (a + b)) (second : Fits (b + c)) :
    lengthAdd (lengthAdd (pack a) (pack b)) (pack c) =
      lengthAdd (pack a) (lengthAdd (pack b) (pack c)) := by
  rw [lengthAdd_pack fits fits', lengthAdd_pack first fits'', lengthAdd_pack fits' fits'',
    lengthAdd_pack fits second, add_assoc]

theorem zero_fits : Fits 0 := show 0 < factor by decide

theorem lengthAdd_diff_pack (fits : Fits a) (fits' : Fits b) (le : a ≤ b) :
    lengthAdd (pack a) (lengthDiffNonNegative (pack a) (pack b)) = pack b := by
  have difference : Fits (b - a) := by
    have bound : b.columns < factor := fits'
    rw [Fits, Extent.sub_def]
    split
    · exact lt_of_le_of_lt (sub_le _ _) bound
    · exact bound
  rw [lengthDiffNonNegative_pack fits fits', lengthDiffNonNegative_of_le le,
    lengthAdd_pack fits difference, Extent.add_sub_of_le le]

theorem lengthDiff_add_pack (fits : Fits a) (fits' : Fits b) (sum : Fits (a + b)) :
    lengthDiffNonNegative (pack a) (lengthAdd (pack a) (pack b)) = pack b := by
  rw [lengthAdd_pack fits fits', lengthDiffNonNegative_pack fits sum,
    lengthDiffNonNegative_of_le (Extent.le_add a b), Extent.add_sub_cancel]

/-- Packed lengths whose counts and sums stay below the factor are an ordered monoid that
adds, subtracts and compares as pairs do, and the lengths of strings are a homomorphism. -/
theorem packed_lengths_faithful :
    (∀ a, Small a → lengthToObj (pack a) = a) ∧
    (∀ a b, Small a → Small b → Small (a + b) →
      lengthAdd (pack a) (pack b) = pack (BracketPairs.lengthAdd a b)) ∧
    (∀ a b c, Small a → Small b → Small c → Small (a + b) → Small (b + c) → Small (a + b + c) →
      lengthAdd (lengthAdd (pack a) (pack b)) (pack c) =
        lengthAdd (pack a) (lengthAdd (pack b) (pack c))) ∧
    (∀ a, Small a → lengthAdd lengthZero (pack a) = pack a ∧
      lengthAdd (pack a) lengthZero = pack a) ∧
    (∀ a b, Small a → Small b →
      (lengthLessThan (pack a) (pack b) = true ↔
        a.lines < b.lines ∨ a.lines = b.lines ∧ a.columns < b.columns) ∧
      (lengthLessThanEqual (pack a) (pack b) = true ↔
        a.lines < b.lines ∨ a.lines = b.lines ∧ a.columns ≤ b.columns)) ∧
    (∀ a b, Small a → Small b → lengthLessThanEqual (pack a) (pack b) = true →
      lengthAdd (pack a) (lengthDiffNonNegative (pack a) (pack b)) = pack b) ∧
    (∀ a b, Small a → Small b → Small (a + b) →
      lengthDiffNonNegative (pack a) (lengthAdd (pack a) (pack b)) = pack b) ∧
    (∀ a a' b b', Small a → Small a' → Small b → Small b' → Small (a + b) → Small (a' + b') →
      lengthLessThanEqual (pack a) (pack a') = true →
      lengthLessThanEqual (pack b) (pack b') = true →
      lengthLessThanEqual (lengthAdd (pack a) (pack b)) (lengthAdd (pack a') (pack b')) = true) ∧
    (∀ s t, Small (lengthOfStringObj s) → Small (lengthOfStringObj t) →
      Small (lengthOfStringObj s + lengthOfStringObj t) → splitsCRLF s t = false →
      lengthOfString (s ++ t) = lengthAdd (lengthOfString s) (lengthOfString t)) := by
  refine ⟨fun a small => lengthToObj_pack small.fits, ?_, ?_, ?_, ?_, ?_, ?_, ?_, ?_⟩
  · intro a b small small' _
    rw [lengthAdd_pack small.fits small'.fits, BracketPairs.lengthAdd_eq]
  · intro a b c small small' small'' first second _
    exact lengthAdd_assoc_pack small.fits small'.fits small''.fits first.fits second.fits
  · intro a small
    rw [lengthZero_eq, lengthAdd_pack zero_fits small.fits, lengthAdd_pack small.fits zero_fits,
      zero_add, add_zero]
    exact ⟨rfl, rfl⟩
  · intro a b small small'
    rw [lengthLessThan_pack small.fits small'.fits, lengthLessThanEqual_pack small.fits small'.fits,
      Extent.lt_def, Extent.le_def]
    exact ⟨Iff.rfl, Iff.rfl⟩
  · intro a b small small' le
    exact lengthAdd_diff_pack small.fits small'.fits
      ((lengthLessThanEqual_pack small.fits small'.fits).mp le)
  · intro a b small small' sum
    exact lengthDiff_add_pack small.fits small'.fits sum.fits
  · intro a a' b b' small first small' second sum sum' le le'
    rw [lengthLessThanEqual_pack small.fits first.fits] at le
    rw [lengthLessThanEqual_pack small'.fits second.fits] at le'
    rw [lengthAdd_pack small.fits small'.fits, lengthAdd_pack first.fits second.fits,
      lengthLessThanEqual_pack sum.fits sum'.fits]
    calc a + b ≤ a' + b := Extent.add_le_add_right b le
      _ ≤ a' + b' := Extent.add_le_add_iff_left.mpr le'
  · intro s t small small' _ whole
    exact (congrArg pack (lengthOfStringObj_append whole)).trans
      (lengthAdd_pack small.fits small'.fits).symm

/-- Columns of the first length are dropped when the second spans lines. -/
theorem packed_lengths_faithful_sample :
    lengthAdd (pack ⟨10, 5⟩) (pack ⟨20, 3⟩) = pack ⟨30, 3⟩ :=
  packed_lengths_faithful.2.1 ⟨10, 5⟩ ⟨20, 3⟩ (by decide) (by decide) (by decide)

end Packed

end CodeEditor.BracketPairs
