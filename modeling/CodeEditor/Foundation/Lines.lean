import CodeEditor.Foundation.LineBreaks

/-!
# Splitting a text into lines

The regular expression `/\r\n|\r|\n/` of the modelled code splits a text into
lines, lists its line breaks or replaces them. The three readings are defined
by recursion over the text, `\r\n` first.
-/

namespace CodeEditor

open List

/-- The two end-of-line sequences a document can use. -/
inductive EOL
  | lf
  | crlf
  deriving DecidableEq, Repr

/-- The text of an end-of-line sequence. -/
def EOL.text : EOL → Text
  | .lf => [LF]
  | .crlf => [CR, LF]

/-- Put a code unit in front of the first line. -/
def consHead (unit : CodeUnit) : List Text → List Text
  | [] => [[unit]]
  | line :: lines => (unit :: line) :: lines

/-- `text.split(/\r\n|\r|\n/)`. -/
def splitLines : Text → List Text
  | [] => [[]]
  | [unit] =>
    if unit = CR ∨ unit = LF then [[], []] else [[unit]]
  | unit :: following :: rest =>
    if unit = CR then
      if following = LF then [] :: splitLines rest
      else [] :: splitLines (following :: rest)
    else if unit = LF then [] :: splitLines (following :: rest)
    else consHead unit (splitLines (following :: rest))

/-- The line breaks of a text, in order. -/
def lineBreaks : Text → List Text
  | [] => []
  | [unit] => if unit = CR ∨ unit = LF then [[unit]] else []
  | unit :: following :: rest =>
    if unit = CR then
      if following = LF then [CR, LF] :: lineBreaks rest
      else [CR] :: lineBreaks (following :: rest)
    else if unit = LF then [LF] :: lineBreaks (following :: rest)
    else lineBreaks (following :: rest)

/-- `text.replace(/\r\n|\r|\n/g, eol)`. -/
def replaceEOL (eol : Text) : Text → Text
  | [] => []
  | [unit] => if unit = CR ∨ unit = LF then eol else [unit]
  | unit :: following :: rest =>
    if unit = CR then
      if following = LF then eol ++ replaceEOL eol rest
      else eol ++ replaceEOL eol (following :: rest)
    else if unit = LF then eol ++ replaceEOL eol (following :: rest)
    else unit :: replaceEOL eol (following :: rest)

/-- `text.replace(/(\r\n|\r|\n)$/, '')`. -/
def stripEOL (text : Text) : Text :=
  if text.getLast? = some LF then
    if text.dropLast.getLast? = some CR then text.dropLast.dropLast
    else text.dropLast
  else if text.getLast? = some CR then text.dropLast
  else text

/-- Every line break of the text is the given end-of-line sequence. -/
def AllBreaksAre (eol : EOL) (text : Text) : Prop :=
  ∀ lineBreak ∈ lineBreaks text, lineBreak = eol.text

instance (eol : EOL) (text : Text) : Decidable (AllBreaksAre eol text) :=
  inferInstanceAs (Decidable (∀ lineBreak ∈ lineBreaks text, _))

/-! ## Reading a text break by break -/

/-- Induction over a text that takes a `\r\n` as one step. -/
theorem break_induction {motive : Text → Prop} (nil : motive [])
    (crlf : ∀ rest, motive rest → motive (CR :: LF :: rest))
    (cons : ∀ unit rest, ¬(unit = CR ∧ startsWithLF rest = true) →
      motive rest → motive (unit :: rest)) :
    ∀ text, motive text
  | [] => nil
  | [unit] => cons unit [] (by simp) nil
  | unit :: following :: rest => by
      by_cases joined : unit = CR ∧ following = LF
      · obtain ⟨rfl, rfl⟩ := joined
        exact crlf rest (break_induction nil crlf cons rest)
      · exact cons unit (following :: rest) (by simpa using joined)
          (break_induction nil crlf cons (following :: rest))

section Steps

variable {unit : CodeUnit} {rest : Text}

theorem replaceEOL_CRLF (eol rest : Text) :
    replaceEOL eol (CR :: LF :: rest) = eol ++ replaceEOL eol rest := by
  simp [replaceEOL]

theorem replaceEOL_cons (eol : Text) (whole : ¬(unit = CR ∧ startsWithLF rest = true)) :
    replaceEOL eol (unit :: rest) =
      (if unit = CR ∨ unit = LF then eol else [unit]) ++ replaceEOL eol rest := by
  cases rest with
  | nil =>
    simp only [replaceEOL]
    split <;> simp
  | cons following rest =>
    by_cases isCR : unit = CR
    · have notLF : following ≠ LF := by simpa [isCR] using whole
      simp [replaceEOL, isCR, notLF]
    · by_cases isLF : unit = LF
      · simp [replaceEOL, isLF]
      · simp [replaceEOL, isCR, isLF]

theorem lineBreaks_CRLF (rest : Text) :
    lineBreaks (CR :: LF :: rest) = [CR, LF] :: lineBreaks rest := by
  simp [lineBreaks]

theorem lineBreaks_cons (whole : ¬(unit = CR ∧ startsWithLF rest = true)) :
    lineBreaks (unit :: rest) =
      (if unit = CR ∨ unit = LF then [[unit]] else []) ++ lineBreaks rest := by
  cases rest with
  | nil =>
    simp only [lineBreaks]
    split <;> simp
  | cons following rest =>
    by_cases isCR : unit = CR
    · have notLF : following ≠ LF := by simpa [isCR] using whole
      simp [lineBreaks, isCR, notLF]
    · by_cases isLF : unit = LF
      · simp [lineBreaks, isLF]
      · simp [lineBreaks, isCR, isLF]

theorem splitLines_CRLF (rest : Text) : splitLines (CR :: LF :: rest) = [] :: splitLines rest := by
  simp [splitLines]

theorem splitLines_cons (whole : ¬(unit = CR ∧ startsWithLF rest = true)) :
    splitLines (unit :: rest) =
      if unit = CR ∨ unit = LF then [] :: splitLines rest
      else consHead unit (splitLines rest) := by
  cases rest with
  | nil => simp [splitLines, consHead]
  | cons following rest =>
    by_cases isCR : unit = CR
    · have notLF : following ≠ LF := by simpa [isCR] using whole
      simp [splitLines, isCR, notLF]
    · by_cases isLF : unit = LF
      · simp [splitLines, isLF]
      · simp [splitLines, isCR, isLF]

end Steps

/-- What the joint of two texts says about the first code unit. -/
theorem whole_of_splits_eq_false {unit : CodeUnit} {rest second : Text}
    (whole : splitsCRLF (unit :: rest) second = false)
    (here : ¬(unit = CR ∧ startsWithLF rest = true)) :
    ¬(unit = CR ∧ startsWithLF (rest ++ second) = true) ∧ splitsCRLF rest second = false := by
  by_cases empty : rest = []
  · subst empty
    refine ⟨?_, rfl⟩
    rintro ⟨rfl, starts⟩
    simp [splitsCRLF, endsWithCR] at whole
    simp [whole] at starts
  · rw [startsWithLF_append_of_ne_nil _ empty]
    exact ⟨here, by rwa [← splitsCRLF_append_left [unit] second empty]⟩

theorem replaceEOL_append (eol : Text) (whole : splitsCRLF first second = false) :
    replaceEOL eol (first ++ second) = replaceEOL eol first ++ replaceEOL eol second := by
  induction first using break_induction with
  | nil => rfl
  | crlf rest ih =>
    have rest' : splitsCRLF rest second = false := by
      by_cases empty : rest = []
      · simp [empty]
      · rwa [← splitsCRLF_append_left [CR, LF] second empty]
    simp [replaceEOL_CRLF, ih rest']
  | cons unit rest here ih =>
    obtain ⟨there, rest'⟩ := whole_of_splits_eq_false whole here
    rw [cons_append, replaceEOL_cons eol there, replaceEOL_cons eol here, ih rest', append_assoc]

theorem lineBreaks_append (whole : splitsCRLF first second = false) :
    lineBreaks (first ++ second) = lineBreaks first ++ lineBreaks second := by
  induction first using break_induction with
  | nil => rfl
  | crlf rest ih =>
    have rest' : splitsCRLF rest second = false := by
      by_cases empty : rest = []
      · simp [empty]
      · rwa [← splitsCRLF_append_left [CR, LF] second empty]
    simp [lineBreaks_CRLF, ih rest']
  | cons unit rest here ih =>
    obtain ⟨there, rest'⟩ := whole_of_splits_eq_false whole here
    rw [cons_append, lineBreaks_cons there, lineBreaks_cons here, ih rest', append_assoc]

theorem AllBreaksAre.append
    (firstAll : AllBreaksAre eol first) (secondAll : AllBreaksAre eol second)
    (whole : splitsCRLF first second = false) :
    AllBreaksAre eol (first ++ second) := by
  intro lineBreak member
  rw [lineBreaks_append whole, mem_append] at member
  exact member.elim (firstAll lineBreak) (secondAll lineBreak)

variable {text : Text}

/-- A text whose breaks are all `\n` has no `\r`. -/
theorem not_mem_CR_of_allBreaksAre (all : AllBreaksAre .lf text) : CR ∉ text := by
  unfold AllBreaksAre at all
  induction text using break_induction with
  | nil => simp
  | crlf rest => exact absurd (all [CR, LF] (by simp [lineBreaks_CRLF])) (by decide)
  | cons unit rest whole ih =>
    rw [lineBreaks_cons whole] at all
    have notCR : unit ≠ CR := by
      rintro rfl
      exact absurd (all [CR] (by simp)) (by decide)
    rw [mem_cons, not_or]
    exact ⟨notCR.symm, ih fun lineBreak member =>
      all lineBreak (mem_append_right _ member)⟩

/-! ## Replacing the breaks -/

theorem EOL.endsWithCR_text (eol : EOL) : endsWithCR eol.text = false := by
  cases eol <;> decide

theorem EOL.text_ne_nil (eol : EOL) : eol.text ≠ [] := by
  cases eol <;> decide

theorem EOL.allBreaksAre_text (eol : EOL) : AllBreaksAre eol eol.text := by
  cases eol <;> decide

theorem replaceEOL_ne_nil (eol : EOL) (nonempty : text ≠ []) : replaceEOL eol.text text ≠ [] := by
  induction text using break_induction with
  | nil => exact absurd rfl nonempty
  | crlf rest => simp [replaceEOL_CRLF, eol.text_ne_nil]
  | cons unit rest whole =>
    rw [replaceEOL_cons _ whole]
    split <;> simp [eol.text_ne_nil]

/-- No replaced text ends in a `\r`. -/
theorem endsWithCR_replaceEOL (eol : EOL) (text : Text) :
    endsWithCR (replaceEOL eol.text text) = false := by
  induction text using break_induction with
  | nil => rfl
  | crlf rest ih =>
    rw [replaceEOL_CRLF]
    by_cases empty : replaceEOL eol.text rest = []
    · rw [empty, append_nil, eol.endsWithCR_text]
    · rw [endsWithCR_append_of_ne_nil _ empty, ih]
  | cons unit rest whole ih =>
    rw [replaceEOL_cons _ whole]
    by_cases empty : replaceEOL eol.text rest = []
    · rw [empty, append_nil]
      split
      · exact eol.endsWithCR_text
      · rename_i plain
        rw [not_or] at plain
        simpa [endsWithCR] using plain.1
    · rw [endsWithCR_append_of_ne_nil _ empty, ih]

theorem allBreaksAre_replaceEOL (eol : EOL) (text : Text) :
    AllBreaksAre eol (replaceEOL eol.text text) := by
  induction text using break_induction with
  | nil => simp [AllBreaksAre, replaceEOL, lineBreaks]
  | crlf rest ih =>
    exact eol.allBreaksAre_text.append ih (by simp [splitsCRLF, eol.endsWithCR_text])
  | cons unit rest whole ih =>
    rw [replaceEOL_cons _ whole]
    split
    · exact eol.allBreaksAre_text.append ih (by simp [splitsCRLF, eol.endsWithCR_text])
    · rename_i plain
      refine AllBreaksAre.append ?_ ih ?_
      · simp [AllBreaksAre, lineBreaks, plain]
      · rw [not_or] at plain
        simp [splitsCRLF, endsWithCR, plain.1]

/-- Nothing is replaced in a text that has only the breaks asked for. -/
theorem replaceEOL_eq_self (all : AllBreaksAre eol text) : replaceEOL eol.text text = text := by
  unfold AllBreaksAre at all
  induction text using break_induction with
  | nil => rfl
  | crlf rest ih =>
    rw [lineBreaks_CRLF, forall_mem_cons] at all
    rw [replaceEOL_CRLF, ih all.2, ← all.1]
    rfl
  | cons unit rest whole ih =>
    rw [lineBreaks_cons whole, forall_mem_append] at all
    rw [replaceEOL_cons _ whole, ih all.2]
    split
    · rename_i isBreak
      rw [if_pos isBreak] at all
      rw [← all.1 [unit] (by simp)]
      rfl
    · rfl

/-- The last of two replacements of the line breaks counts. -/
theorem replaceEOL_replaceEOL (eol first : EOL) (text : Text) :
    replaceEOL eol.text (replaceEOL first.text text) = replaceEOL eol.text text := by
  have single : replaceEOL eol.text first.text = eol.text := by
    cases eol <;> cases first <;> decide
  have whole : ∀ rest, splitsCRLF first.text rest = false := by
    intro rest
    rw [splitsCRLF, first.endsWithCR_text, Bool.false_and]
  induction text using break_induction with
  | nil => rfl
  | crlf rest ih =>
    rw [replaceEOL_CRLF, replaceEOL_append _ (whole _), single, ih, replaceEOL_CRLF]
  | cons unit rest here ih =>
    rw [replaceEOL_cons _ here, replaceEOL_cons _ here]
    split
    · rw [replaceEOL_append _ (whole _), single, ih]
    · rename_i plain
      rw [singleton_append, singleton_append,
        replaceEOL_cons _ (fun both => plain (.inl both.1)), if_neg plain, ih,
        singleton_append]

theorem replaceEOL_flatten {parts : List Text} (eol : Text) (whole : Whole parts) :
    replaceEOL eol parts.flatten = (parts.map (replaceEOL eol)).flatten := by
  induction parts with
  | nil => rfl
  | cons part parts ih =>
    rw [flatten_cons, replaceEOL_append eol whole.1, ih whole.2]
    rfl

end CodeEditor
