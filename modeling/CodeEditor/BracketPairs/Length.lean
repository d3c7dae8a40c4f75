import CodeEditor.Foundation.Extents

/-!
# Lengths

Model of `length.ts`. A length is a number of lines and a number of columns. The program
packs the two into one number and asks that nothing overflows: `Packed` holds the
operations on packed numbers, which agree with those on lengths while the columns fit. Numbers
are natural numbers here and doubles there, so they agree with the program below `2 ^ 53`.
-/

namespace CodeEditor.BracketPairs

open Nat

/-- Lines, and columns behind the last of them. -/
abbrev Length := Extent

/-- `TextEditInfo` of `beforeEditPositionMapper.ts`. -/
abbrev TextEditInfo := ExtentEdit

def lengthZero : Length := 0

def lengthIsZero (length : Length) : Bool := length = lengthZero

/-- A length from its two counts. -/
def toLength (lineCount columnCount : Int) : Length := ⟨lineCount.toNat, columnCount.toNat⟩

/-- The columns start anew with the lines of the second length. -/
def lengthAdd (length1 length2 : Length) : Length :=
  if length2.lines ≥ 1 then ⟨length1.lines + length2.lines, length2.columns⟩
  else ⟨length1.lines, length1.columns + length2.columns⟩

/-- The lengths of all items, one behind the other. -/
def sumLengths {α : Type} (items : List α) (lengthFn : α → Length) : Length :=
  items.foldl (fun a b => lengthAdd a (lengthFn b)) lengthZero

def lengthEquals (length1 length2 : Length) : Bool := length1 = length2

def lengthLessThanEqual (length1 length2 : Length) : Bool :=
  length1.lines < length2.lines ∨
    length1.lines = length2.lines ∧ length1.columns ≤ length2.columns

/-- What is missing from the first length to the second, if anything. -/
def lengthDiffNonNegative (length1 length2 : Length) : Length :=
  if lengthLessThanEqual length2 length1 then lengthZero
  else if length1.lines = length2.lines then ⟨0, length2.columns - length1.columns⟩
  else ⟨length2.lines - length1.lines, length2.columns⟩

@[simp] theorem lengthZero_eq : lengthZero = 0 := rfl

@[simp] theorem lengthIsZero_iff {length : Length} :
    lengthIsZero length = true ↔ length = 0 := decide_eq_true_iff

@[simp] theorem lengthAdd_eq (length1 length2 : Length) :
    lengthAdd length1 length2 = length1 + length2 := by
  rw [lengthAdd, Extent.add_def]
  by_cases single : length2.lines = 0
  · rw [if_neg (by omega), if_pos single]
  · rw [if_pos (by omega), if_neg single]

@[simp] theorem lengthEquals_iff :
    lengthEquals length1 length2 = true ↔ length1 = length2 := decide_eq_true_iff

@[simp] theorem lengthLessThanEqual_iff :
    lengthLessThanEqual length1 length2 = true ↔ length1 ≤ length2 := by
  rw [lengthLessThanEqual, decide_eq_true_iff, Extent.le_def]

variable {length1 length2 : Length}

/-- The difference of ordered lengths. -/
theorem lengthDiffNonNegative_of_le (ordered : length1 ≤ length2) :
    lengthDiffNonNegative length1 length2 = length2 - length1 := by
  rw [lengthDiffNonNegative, Extent.sub_def]
  by_cases equal : length2 ≤ length1
  · rw [if_pos (lengthLessThanEqual_iff.mpr equal), le_antisymm equal ordered]
    simp
    rfl
  · rw [if_neg (mt lengthLessThanEqual_iff.mp equal)]
    by_cases same : length1.lines = length2.lines
    · rw [if_pos same, if_pos same.symm]
    · rw [if_neg same, if_neg (Ne.symm same)]

theorem lengthDiffNonNegative_of_ge (ordered : length2 ≤ length1) :
    lengthDiffNonNegative length1 length2 = 0 := by
  rw [lengthDiffNonNegative, if_pos (lengthLessThanEqual_iff.mpr ordered), lengthZero_eq]

/-- The loop is a sum. -/
theorem sumLengths_eq {α : Type} (items : List α) (lengthFn : α → Length) :
    sumLengths items lengthFn = (items.map lengthFn).sum := by
  have general : ∀ a, items.foldl (fun a b => lengthAdd a (lengthFn b)) a =
      a + (items.map lengthFn).sum := by
    induction items with
    | nil => simp
    | cons item items ih =>
      intro a
      rw [List.foldl_cons, ih, lengthAdd_eq, List.map_cons, List.sum_cons, add_assoc]
  rw [sumLengths, general, lengthZero_eq, zero_add]

/-! ## Packed lengths -/

namespace Packed

/-- The lines of a packed length start here. -/
def factor : Nat := 2 ^ 26

/-- `toLength`, with both counts in one number. -/
def pack (length : Length) : Nat := length.lines * factor + length.columns

def lengthToObj (l : Nat) : Length := ⟨l / factor, l - l / factor * factor⟩

def lengthAdd (l1 l2 : Nat) : Nat :=
  if l2 ≥ factor then l1 + l2 - l1 % factor else l1 + l2

def lengthDiffNonNegative (l1 l2 : Nat) : Nat :=
  if l2 ≤ l1 then 0
  else
    let lineCount1 := l1 / factor
    let lineCount2 := l2 / factor
    let colCount2 := l2 - lineCount2 * factor
    if lineCount1 = lineCount2 then colCount2 - (l1 - lineCount1 * factor)
    else (lineCount2 - lineCount1) * factor + colCount2

/-- The columns do not overflow into the lines. -/
def Fits (length : Length) : Prop := length.columns < factor

variable {a b : Length}

theorem pack_div (fits : Fits a) : pack a / factor = a.lines := by
  rw [pack, Nat.add_comm, Nat.add_mul_div_right _ _ (by decide), Nat.div_eq_of_lt fits,
    Nat.zero_add]

theorem pack_mod (fits : Fits a) : pack a % factor = a.columns := by
  rw [pack, Nat.add_comm, Nat.add_mul_mod_self_right, Nat.mod_eq_of_lt fits]

theorem lengthToObj_pack (fits : Fits a) : lengthToObj (pack a) = a := by
  rw [lengthToObj, pack_div fits, pack, Nat.add_sub_cancel_left]

/-- Packed numbers compare as lengths do. -/
theorem pack_le_iff (fits : Fits a) (fits' : Fits b) : pack a ≤ pack b ↔ a ≤ b := by
  have bound : a.columns < factor := fits
  have bound' : b.columns < factor := fits'
  rw [Extent.le_def, pack, pack]
  constructor
  · intro le
    rcases lt_trichotomy a.lines b.lines with less | same | greater
    · exact .inl less
    · rw [same] at le
      exact .inr ⟨same, by omega⟩
    · have rows := mul_le_mul_right factor (succ_le_of_lt greater)
      rw [succ_mul] at rows
      omega
  · rintro (less | ⟨same, columns⟩)
    · have rows := mul_le_mul_right factor (succ_le_of_lt less)
      rw [succ_mul] at rows
      omega
    · rw [same]
      omega

/-- Packed lengths are added as lengths are. -/
theorem lengthAdd_pack (fits : Fits a) (fits' : Fits b) :
    lengthAdd (pack a) (pack b) = pack (a + b) := by
  have bound' : b.columns < factor := fits'
  have columns := pack_mod fits
  have lines : pack b ≥ factor ↔ b.lines ≠ 0 := by
    rw [pack]
    constructor
    · rintro atLeast single
      rw [single, Nat.zero_mul] at atLeast
      omega
    · intro several
      have rows := Nat.mul_le_mul_right factor (Nat.one_le_iff_ne_zero.mpr several)
      omega
  rw [lengthAdd, Extent.add_def]
  by_cases single : b.lines = 0
  · rw [if_neg (by rw [lines]; exact not_not.mpr single), if_pos single]
    simp only [pack, single]
    omega
  · rw [if_pos (lines.mpr single), if_neg single, columns]
    simp only [pack, Nat.add_mul]
    omega

/-- Packed lengths are subtracted as lengths are. -/
theorem lengthDiffNonNegative_pack (fits : Fits a) (fits' : Fits b) :
    lengthDiffNonNegative (pack a) (pack b) = pack (BracketPairs.lengthDiffNonNegative a b) := by
  have columns : ∀ {c : Length}, Fits c → pack c - c.lines * factor = c.columns := by
    intro c _
    rw [pack, Nat.add_sub_cancel_left]
  rw [lengthDiffNonNegative, BracketPairs.lengthDiffNonNegative]
  simp only [pack_div fits, pack_div fits', columns fits, columns fits']
  by_cases below : b ≤ a
  · rw [if_pos ((pack_le_iff fits' fits).mpr below), if_pos (lengthLessThanEqual_iff.mpr below)]
    rfl
  · rw [if_neg (mt (pack_le_iff fits' fits).mp below), if_neg (mt lengthLessThanEqual_iff.mp below)]
    by_cases same : a.lines = b.lines
    · rw [if_pos same, if_pos same, pack]
      simp
    · rw [if_neg same, if_neg same, pack]

end Packed

end CodeEditor.BracketPairs
