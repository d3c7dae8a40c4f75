import CodeEditor.Foundation.LineTable

/-!
# Lines joined with line feeds

The text of a list of lines, and the lines of such a text. Lines are plain: no line
break stands inside a line.
-/

namespace CodeEditor

open List

/-- `lines.join('\n')`. -/
def joinLines (lines : List Text) : Text := [LF].intercalate lines

/-- No line break stands in the line. -/
def Plain (line : Text) : Prop := CR ∉ line ∧ LF ∉ line

instance (line : Text) : Decidable (Plain line) := inferInstanceAs (Decidable (_ ∧ _))

@[simp] theorem joinLines_singleton (line : Text) : joinLines [line] = line := by
  simp [joinLines]

variable {lines : List Text}

theorem joinLines_cons (line : Text) (nonempty : lines ≠ []) :
    joinLines (line :: lines) = line ++ LF :: joinLines lines := by
  rw [joinLines, intercalate_cons_of_ne_nil nonempty]
  simp [joinLines]

theorem joinLines_append {first second : List Text} (left : first ≠ []) (right : second ≠ []) :
    joinLines (first ++ second) = joinLines first ++ LF :: joinLines second := by
  induction first with
  | nil => contradiction
  | cons line lines ih =>
    by_cases single : lines = []
    · subst single
      rw [singleton_append, joinLines_cons line right, joinLines_singleton]
    · rw [cons_append, joinLines_cons line (by simp [single]), ih single,
        joinLines_cons line single]
      simp

/-- Lines with a line feed behind each of them, in front of other lines. -/
theorem flatMap_append_joinLines (lines : List Text) {rest : List Text} (nonempty : rest ≠ []) :
    lines.flatMap (· ++ [LF]) ++ joinLines rest = joinLines (lines ++ rest) := by
  induction lines with
  | nil => rfl
  | cons line lines ih =>
    rw [flatMap_cons, append_assoc, ih, cons_append, joinLines_cons line (by simp [nonempty])]
    simp

/-- Lines with a line feed in front of each of them, behind other lines. -/
theorem joinLines_append_flatMap (nonempty : lines ≠ []) (rest : List Text) :
    joinLines lines ++ rest.flatMap (LF :: ·) = joinLines (lines ++ rest) := by
  induction rest generalizing lines with
  | nil => simp
  | cons line rest ih =>
    have grown : joinLines (lines ++ [line]) = joinLines lines ++ LF :: line := by
      rw [joinLines_append nonempty (by simp), joinLines_singleton]
    rw [flatMap_cons, ← append_assoc, ← grown, ih (by simp), append_assoc, singleton_append]

theorem splitLines_of_plain (plain : Plain line) : splitLines line = [line] := by
  induction line with
  | nil => rfl
  | cons unit line ih =>
    obtain ⟨noCR, noLF⟩ := plain
    rw [mem_cons, not_or] at noCR noLF
    have notCR : unit ≠ CR := fun isCR => noCR.1 isCR.symm
    have notLF : unit ≠ LF := fun isLF => noLF.1 isLF.symm
    rw [splitLines_cons (fun both => notCR both.1), ih ⟨noCR.2, noLF.2⟩]
    simp [notCR, notLF, consHead]

theorem splitLines_joinLines (nonempty : lines ≠ []) (plain : ∀ line ∈ lines, Plain line) :
    splitLines (joinLines lines) = lines := by
  induction lines with
  | nil => contradiction
  | cons line lines ih =>
    have first := plain line (by simp)
    by_cases single : lines = []
    · subst single
      rw [joinLines_singleton, splitLines_of_plain first]
    · have rest := ih single fun other member =>
        plain other (mem_cons_of_mem _ member)
      have tail : splitLines (LF :: joinLines lines) = [] :: lines := by
        rw [splitLines_cons (fun both => LF_ne_CR both.1), rest]
        simp
      have whole : splitsCRLF line (LF :: joinLines lines) = false := by
        rw [splitsCRLF, endsWithCR_eq_false first.1]
        rfl
      rw [joinLines_cons line single]
      have joined := @splitLines_append line (LF :: joinLines lines) [] lines line [] whole
        (splitLines_of_plain first) tail
      simpa using joined

/-! ## Lines with a line feed behind each of them -/

/-- The lines with a line feed behind each of them. -/
def closeLines (lines : List Text) : Text := lines.flatMap (· ++ [LF])

/-- The lines with a line feed in front of each of them. -/
def openLines (lines : List Text) : Text := lines.flatMap (LF :: ·)

@[simp] theorem closeLines_nil : closeLines [] = [] := rfl

@[simp] theorem openLines_nil : openLines [] = [] := rfl

@[simp] theorem closeLines_append (first second : List Text) :
    closeLines (first ++ second) = closeLines first ++ closeLines second :=
  flatMap_append

@[simp] theorem openLines_append (first second : List Text) :
    openLines (first ++ second) = openLines first ++ openLines second :=
  flatMap_append

@[simp] theorem closeLines_cons (line : Text) (lines : List Text) :
    closeLines (line :: lines) = line ++ LF :: closeLines lines := by
  simp [closeLines]

@[simp] theorem openLines_cons (line : Text) (lines : List Text) :
    openLines (line :: lines) = LF :: (line ++ openLines lines) := rfl

theorem closeLines_append_joinLines (lines : List Text) {rest : List Text}
    (nonempty : rest ≠ []) : closeLines lines ++ joinLines rest = joinLines (lines ++ rest) :=
  flatMap_append_joinLines lines nonempty

theorem joinLines_append_openLines (nonempty : lines ≠ []) (rest : List Text) :
    joinLines lines ++ openLines rest = joinLines (lines ++ rest) :=
  joinLines_append_flatMap nonempty rest

/-- A line feed behind the last line closes all lines. -/
theorem joinLines_append_LF (nonempty : lines ≠ []) :
    joinLines lines ++ [LF] = closeLines lines := by
  have joined := @closeLines_append_joinLines lines [[]] (by simp)
  rw [joinLines_append nonempty (by simp), joinLines_singleton, append_nil] at joined
  exact joined.symm

/-- The line feed between two parts can stand on either side. -/
theorem openLines_append_LF (lines : List Text) :
    openLines lines ++ [LF] = LF :: closeLines lines := by
  induction lines with
  | nil => rfl
  | cons line lines ih =>
    rw [openLines_cons, closeLines_cons, cons_append, append_assoc, ih]

theorem openLines_eq_cons (nonempty : lines ≠ []) : openLines lines = LF :: joinLines lines := by
  have joined := @joinLines_append_openLines [[]] (by simp) lines
  rw [joinLines_singleton, nil_append, singleton_append, joinLines_cons _ nonempty] at joined
  exact joined

theorem length_openLines (lines : List Text) :
    (openLines lines).length = (closeLines lines).length := by
  have both := congrArg List.length (openLines_append_LF lines)
  simp only [length_append, length_cons, length_nil] at both
  omega

theorem length_closeLines (nonempty : lines ≠ []) :
    (closeLines lines).length = (joinLines lines).length + 1 := by
  rw [← joinLines_append_LF nonempty, length_append, length_singleton]

/-- Joining what was split makes every line break a line feed. -/
theorem joinLines_splitLines_eq (text : Text) (plain : CR ∉ text) :
    joinLines (splitLines text) = text := by
  induction text with
  | nil => rfl
  | cons unit text ih =>
    rw [mem_cons, not_or] at plain
    have notCR : unit ≠ CR := fun isCR => plain.1 isCR.symm
    have rest := ih plain.2
    have some := splitLines_ne_nil text
    rw [splitLines_cons (fun both => notCR both.1)]
    by_cases isLF : unit = LF
    · simp only [isLF, or_true, if_true]
      rw [joinLines_cons _ some, rest, nil_append]
    · simp only [notCR, isLF, or_self, if_false]
      cases lines : splitLines text with
      | nil => exact absurd lines some
      | cons line others =>
        rw [lines] at rest
        rw [consHead]
        cases others with
        | nil => simpa using rest
        | cons other others =>
          rw [← rest]
          rfl

end CodeEditor
