import Mathlib

/-!
# Texts of UTF-16 code units

A text is the list of its UTF-16 code units. Offsets, lengths and the
character tests all count code units, as the string type of the modelled
language does.
-/

namespace CodeEditor

open Nat

open List hiding count

/-- One UTF-16 code unit. -/
abbrev CodeUnit := UInt16

/-- A string, as the list of its code units. -/
abbrev Text := List CodeUnit

/-- The carriage return `\r`. -/
def CR : CodeUnit := 13

/-- The line feed `\n`. -/
def LF : CodeUnit := 10

@[simp] theorem CR_ne_LF : CR ≠ LF := by decide

@[simp] theorem LF_ne_CR : LF ≠ CR := by decide

@[simp] theorem CR_beq_LF : (CR == LF) = false := by decide

@[simp] theorem LF_beq_CR : (LF == CR) = false := by decide

/-- The code units between two offsets; the smaller offset comes first, as in
`String.prototype.substring`. -/
def substring (text : Text) (first second : Nat) : Text :=
  (text.take (max first second)).drop (min first second)

/-- At most `count` code units from an offset on, as in
`String.prototype.substr`. -/
def substr (text : Text) (start count : Nat) : Text :=
  (text.drop start).take count

/-- Replace `count` code units from an offset on. -/
def splice (text : Text) (offset count : Nat) (value : Text) : Text :=
  text.take offset ++ value ++ text.drop (offset + count)

/-- The text starts with `\n`. -/
def startsWithLF (text : Text) : Bool := text.head? == some LF

/-- The text ends with `\r`. -/
def endsWithCR (text : Text) : Bool := text.getLast? == some CR

/-- A `\r\n` is cut when the two texts are written one after the other. -/
def splitsCRLF (first second : Text) : Bool :=
  endsWithCR first && startsWithLF second

theorem substring_of_le (text : Text) {first second : Nat} (ordered : first ≤ second) :
    substring text first second = (text.take second).drop first := by
  rw [substring, Nat.max_eq_right ordered, Nat.min_eq_left ordered]

/-- The part of a text between a prefix and a suffix. -/
theorem substring_append (front middle back : Text) :
    substring (front ++ (middle ++ back)) front.length (front.length + middle.length) = middle := by
  rw [substring_of_le _ (le_add_right _ _), take_append, drop_append]
  simp

variable {text : Text}

theorem length_substring_of_le {first second : Nat} (ordered : first ≤ second)
    (bounded : second ≤ text.length) : (substring text first second).length = second - first := by
  rw [substring_of_le _ ordered]
  simp
  omega

theorem substring_take (text : Text) {first last count : Nat} (bounded : first + count ≤ last) :
    substring text first (first + count) = (substring text first last).take count := by
  rw [substring_of_le _ (Nat.le_add_right first count),
    substring_of_le _ (by omega), take_drop, take_take,
    Nat.min_eq_left bounded]

theorem substring_drop (text : Text) {first last count : Nat} (bounded : first + count ≤ last) :
    substring text (first + count) last = (substring text first last).drop count := by
  rw [substring_of_le _ bounded, substring_of_le _ (by omega), drop_drop]

theorem substring_append_left {front : Text} (back : Text)
    {first last : Nat} (ordered : first ≤ last) (bounded : last ≤ front.length) :
    substring (front ++ back) first last = substring front first last := by
  rw [substring_of_le _ ordered, substring_of_le _ ordered, take_append_of_le_length bounded]

theorem splice_append (front middle back value : Text) :
    splice (front ++ middle ++ back) front.length middle.length value = front ++ value ++ back := by
  rw [splice, append_assoc front, take_left, ← append_assoc, ← length_append, drop_left]

theorem mem_of_mem_splice {text value : Text} {offset count : Nat}
    {unit : CodeUnit} (member : unit ∈ splice text offset count value) :
    unit ∈ text ∨ unit ∈ value := by
  simp only [splice, mem_append] at member
  rcases member with (front | new) | back
  · exact .inl (mem_of_mem_take front)
  · exact .inr new
  · exact .inl (mem_of_mem_drop back)

@[simp] theorem startsWithLF_nil : startsWithLF [] = false := rfl

@[simp] theorem endsWithCR_nil : endsWithCR [] = false := rfl

@[simp] theorem startsWithLF_cons (unit : CodeUnit) (text : Text) :
    startsWithLF (unit :: text) = (unit == LF) := by
  simp [startsWithLF]

@[simp] theorem endsWithCR_concat (text : Text) (unit : CodeUnit) :
    endsWithCR (text ++ [unit]) = (unit == CR) := by
  simp [endsWithCR]

theorem startsWithLF_append_of_ne_nil {first : Text} (second : Text) (nonempty : first ≠ []) :
    startsWithLF (first ++ second) = startsWithLF first := by
  cases first with
  | nil => exact absurd rfl nonempty
  | cons unit rest => simp

theorem endsWithCR_append_of_ne_nil (first : Text) {second : Text} (nonempty : second ≠ []) :
    endsWithCR (first ++ second) = endsWithCR second := by
  simp [endsWithCR, getLast?_append, getLast?_eq_some_getLast nonempty]

@[simp] theorem splitsCRLF_nil_left (text : Text) :
    splitsCRLF [] text = false := rfl

@[simp] theorem splitsCRLF_nil_right (text : Text) :
    splitsCRLF text [] = false := by
  simp [splitsCRLF]

theorem startsWithLF_iff : startsWithLF text = true ↔ ∃ rest, text = LF :: rest := by
  cases text with
  | nil => simp
  | cons unit rest => simp

theorem endsWithCR_iff : endsWithCR text = true ↔ ∃ rest, text = rest ++ [CR] := by
  constructor
  · intro ends
    have last : text.getLast? = some CR := by simpa [endsWithCR] using ends
    obtain ⟨rest, equal⟩ := getLast?_eq_some_iff.mp last
    exact ⟨rest, equal⟩
  · rintro ⟨rest, rfl⟩
    simp

end CodeEditor
