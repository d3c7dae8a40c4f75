import CodeEditor.Tokens.SparseEdits

/-!
# Deletion and insertion together

The deletion and the insertion of an edit make of a token what becomes of it, exactly when the
horizontal shift does not miss it, no single word character is inserted where it starts, and its
numbers fit into the array. Then the tokens stay in order.
-/

namespace CodeEditor.Tokens

open Option

namespace TextChange

variable {change : TextChange} {first : Int} {token : PlacedToken}

/-- What is left of the token starts where the text is inserted. -/
def StartsAt (change : TextChange) (token : PlacedToken) : Prop :=
  ¬ change.Before token ∧ token.line = change.endLine ∧ token.start ≤ change.endCharacter ∧
    change.endCharacter < token.stop

/-- The condition on the tokens of a block that starts on the line `first`. -/
def Fine (change : TextChange) (first : Int) (token : PlacedToken) : Prop :=
  (change.Misses first token → change.startCharacter = 0) ∧
    (change.oneWordCharacter = true → ¬ change.StartsAt token)

/-! ## Tokens in front of the change -/

theorem edited_of_before (valid : change.Valid) (before : change.Before token) (first : Int) :
    (change.deleted first token).map change.inserted = change.image token := by
  obtain ⟨order, start, stop, one⟩ := valid
  unfold deleted image
  rw [if_pos before, if_pos before]
  by_cases after : change.After token
  · rw [if_pos after, if_pos after]
    unfold inserted column
    simp only [map_some]
    split_ifs
    all_goals first | omega | simp
    all_goals omega
  · rw [if_neg after, if_neg after]
    by_cases reaches : token.line = change.startLine ∧ change.startCharacter ≤ token.stop
    · have cut : (if token.line = change.startLine ∧ change.startCharacter < token.stop then
          some { token with stop := change.startCharacter } else some token) =
          some { token with stop := change.startCharacter } := by
        split_ifs
        · rfl
        · have atStart : token.stop = change.startCharacter := by omega
          rw [← atStart]
      rw [if_pos reaches, cut, map_some]
      unfold inserted
      rw [if_neg (by simp; omega), if_pos ⟨reaches.1, rfl⟩]
      split_ifs <;> simp
    · rw [if_neg reaches, if_neg (by omega), map_some]
      unfold inserted
      rw [if_pos (by omega)]

/-! ## Tokens behind the change -/

/-- The text that is inserted in front of a token moves it, unless it is to grow it. -/
theorem inserted_behind {metadata : ℕ} {start stop : Int} (behind : change.startCharacter ≤ start)
    (nonempty : start < stop) :
    change.inserted ⟨change.startLine, start, stop, metadata⟩ =
      if start = change.startCharacter ∧ change.oneWordCharacter then
        ⟨change.startLine, start, stop, metadata⟩
      else ⟨change.startLine + change.eolCount, change.column + (start - change.startCharacter),
        change.column + (stop - change.startCharacter), metadata⟩ := by
  unfold inserted
  dsimp only
  rw [if_neg (by omega), if_neg (by omega), if_neg (by omega)]
  simp only [true_and, if_true]

/-- A token that is too far to the left does not come where it belongs. -/
theorem inserted_ne (valid : change.Valid) {metadata : ℕ} {start stop start' : Int}
    (nonempty : start < stop) (notFirst : change.startCharacter ≠ 0) :
    change.inserted ⟨change.startLine, start, stop, metadata⟩ ≠
      ⟨change.startLine + change.eolCount, start', change.column + stop, metadata⟩ := by
  obtain ⟨-, first, -, one⟩ := valid
  unfold inserted column
  generalize change.oneWordCharacter = oneWord at *
  intro same
  cases oneWord
  all_goals
    simp only [Bool.false_eq_true, and_true, and_false, if_false, if_true, true_and,
      forall_const] at *
    split_ifs at same
    all_goals injection same
    all_goals omega

/-- The token is on the last line of the deletion. -/
theorem edited_iff_of_last (valid : change.Valid) (nonempty : token.start < token.stop)
    (before : ¬ change.Before token) (after : change.After token)
    (line : token.line = change.endLine) :
    (change.deleted first token).map change.inserted = change.image token ↔
      change.Fine first token := by
  have reaches : change.endCharacter < token.stop := by
    omega
  have starts : change.StartsAt token ↔ token.start ≤ change.endCharacter :=
    ⟨fun starts => starts.2.2.1, fun start => ⟨before, line, start, reaches⟩⟩
  have sameLine : token.line - change.endLine = 0 := by omega
  unfold deleted image
  rw [if_neg before, if_neg before, if_pos after, if_pos after]
  rw [if_pos line, if_pos line, sameLine, Int.add_zero, Int.add_zero, map_some, Fine, starts]
  by_cases missed : change.Misses first token ∧ change.startCharacter ≠ 0
  · rw [iff_false_right fun fine => missed.2 (fine.1 missed.1), if_pos missed.1, Int.zero_add,
      Int.zero_add]
    have wrong (start' : Int) : change.inserted ⟨change.startLine,
          max token.start change.endCharacter - change.endCharacter,
          token.stop - change.endCharacter, token.metadata⟩ ≠
        ⟨change.startLine + change.eolCount, start',
          change.column + (token.stop - change.endCharacter), token.metadata⟩ :=
      inserted_ne valid (by omega) missed.2
    split_ifs
    all_goals
      intro same
      exact wrong _ (Option.some.inj same)
  · have fine : change.Misses first token → change.startCharacter = 0 := by
      intro misses
      by_contra notFirst
      exact missed ⟨misses, notFirst⟩
    have column : (if change.Misses first token then 0 else change.startCharacter) =
        change.startCharacter := by
      split_ifs with misses
      · exact (fine misses).symm
      · rfl
    rw [column, inserted_behind (by omega) (by omega), and_iff_right fine]
    unfold TextChange.column
    generalize change.oneWordCharacter = oneWord at *
    cases oneWord
    all_goals
      simp only [Bool.false_eq_true, and_true, and_false, if_false, if_true, forall_const,
        false_imp_iff, iff_true] at *
      split_ifs
      all_goals simp
      all_goals omega

theorem edited_iff (valid : change.Valid) (nonempty : token.start < token.stop)
    (inBlock : first ≤ token.line) :
    (change.deleted first token).map change.inserted = change.image token ↔
      change.Fine first token := by
  by_cases before : change.Before token
  · rw [iff_true_left (edited_of_before valid before first)]
    refine ⟨?_, fun _ starts => starts.1 before⟩
    intro misses
    omega
  · by_cases after : change.After token
    · by_cases line : token.line = change.endLine
      · exact edited_iff_of_last valid nonempty before after line
      · have below : change.endLine < token.line := by
          omega
        rw [Fine, iff_true_right ⟨fun misses => absurd misses.2.1 line,
          fun _ starts => line starts.2.1⟩]
        unfold deleted image
        rw [if_neg before, if_neg before, if_pos after, if_pos after]
        rw [if_neg line, if_neg line, map_some]
        unfold inserted
        dsimp only
        rw [if_neg (by omega), if_neg (by omega), if_neg (by omega), if_neg (by omega),
          if_neg (by omega)]
        simp
        omega
    · have missesNot : ¬ change.Misses first token := fun misses =>
        after (.inr ⟨misses.2.1, misses.2.2.1⟩)
      have startsNot : ¬ change.StartsAt token := fun starts =>
        after (.inr ⟨starts.2.1, starts.2.2.2⟩)
      rw [Fine, iff_true_right ⟨fun misses => absurd misses missesNot, fun _ => startsNot⟩]
      unfold deleted image
      rw [if_neg before, if_neg before, if_neg after, if_neg after]
      rfl

/-! ## Stored numbers -/

/-- The first line of a block after the deletion. -/
def firstLeft (change : TextChange) (first : Int) : Int :=
  if change.endLine < first then first - (change.endLine - change.startLine)
  else min first change.startLine

/-- The first line of a block after the edit. -/
def firstLine (change : TextChange) (first : Int) : Int :=
  change.firstLeft first + if change.endLine < first then (change.eolCount : Int) else 0

/-- What an edit makes of a token, with the numbers stored after the deletion and after the
insertion. -/
def edited (change : TextChange) (first : Int) (token : PlacedToken) : Option PlacedToken :=
  (change.deleted first token).map fun left =>
    (change.inserted (left.stored (change.firstLeft first))).stored (change.firstLine first)

/-- No number that is stored reaches `2 ^ 32`. -/
def Fits (change : TextChange) (first : Int) (token : PlacedToken) : Prop :=
  ∀ left, change.deleted first token = some left → left.stop < 2 ^ 32 ∧
    (change.inserted left).stop < 2 ^ 32 ∧
    (change.inserted left).line - change.firstLine first < 2 ^ 32

/-- The line of what is left of a token. -/
theorem deleted_line (valid : change.Valid) (left : change.deleted first token = some token') :
    token'.line = min token.line change.startLine + max 0 (token.line - change.endLine) := by
  have order := valid.order
  unfold deleted at left
  split_ifs at left
  all_goals
    cases left
    simp only [Before, After] at *
    omega

theorem deleted_inBlock (valid : change.Valid) (inBlock : first ≤ token.line)
    (word : token.line - first < 2 ^ 32) (left : change.deleted first token = some token') :
    change.firstLeft first ≤ token'.line ∧ token'.line - change.firstLeft first < 2 ^ 32 := by
  have order := valid.order
  rw [deleted_line valid left, firstLeft]
  split_ifs <;> omega

theorem deleted_valid (valid : change.Valid) (nonneg : 0 ≤ token.start)
    (nonempty : token.start < token.stop) (left : change.deleted first token = some token') :
    0 ≤ token'.start ∧ token'.start < token'.stop := by
  obtain ⟨order, start, stop, -⟩ := valid
  unfold deleted at left
  split_ifs at left
  all_goals
    cases left
    simp only [Before, After] at *
    omega

theorem inserted_valid (nonneg : 0 ≤ token.start) (nonempty : token.start < token.stop) :
    0 ≤ (change.inserted token).start ∧
      (change.inserted token).start < (change.inserted token).stop := by
  unfold inserted column
  split_ifs
  all_goals first
    | omega
    | dsimp only
      omega

theorem inserted_line (token : PlacedToken) : token.line ≤ (change.inserted token).line := by
  unfold inserted
  split_ifs
  all_goals first
    | exact Int.le_refl _
    | exact Int.le_add_of_nonneg_right (Int.natCast_nonneg _)

theorem inserted_of_above (above : change.startLine < token.line) :
    change.inserted token = { token with line := token.line + change.eolCount } := by
  unfold inserted
  rw [if_neg (by omega), if_neg (by omega), if_neg (by omega), if_neg (by omega), if_neg (by omega)]

/-- A token is gone only if it is deleted. -/
theorem isSome_deleted (token : PlacedToken) :
    ((change.deleted first token).map change.inserted).isSome = (change.image token).isSome := by
  unfold deleted image
  by_cases before : change.Before token
  · rw [if_pos before, if_pos before]
    split_ifs <;> rfl
  · rw [if_neg before, if_neg before]
    by_cases after : change.After token
    · rw [if_pos after, if_pos after]
      split_ifs <;> rfl
    · rw [if_neg after, if_neg after]
      rfl

/-- What is left of a token on the last line of the deletion, and what becomes of it. -/
theorem deleted_last (before : ¬ change.Before token) (line : token.line = change.endLine)
    (reaches : change.endCharacter < token.stop) :
    (∃ column, (column = 0 ∨ column = change.startCharacter) ∧ change.deleted first token = some
      ⟨change.startLine, column + (max token.start change.endCharacter - change.endCharacter),
        column + (token.stop - change.endCharacter), token.metadata⟩) ∧
    ∃ start, change.image token = some ⟨change.startLine + change.eolCount, start,
      change.column + (token.stop - change.endCharacter), token.metadata⟩ := by
  have after : change.After token := .inr ⟨line, reaches⟩
  have sameLine : token.line - change.endLine = 0 := by omega
  unfold deleted image
  rw [if_neg before, if_neg before, if_pos after, if_pos after, if_pos line, if_pos line, sameLine,
    Int.add_zero, Int.add_zero]
  refine ⟨⟨_, ?_, rfl⟩, ?_⟩
  · split_ifs
    · exact .inl rfl
    · exact .inr rfl
  · split_ifs <;> exact ⟨_, rfl⟩

/-- Where the code misplaces a token, it comes before its place. -/
theorem inserted_le (valid : change.Valid) (nonempty : token.start < token.stop)
    (inBlock : first ≤ token.line) (left : change.deleted first token = some token')
    (becomes : change.image token = some moved) :
    (change.inserted token').line ≤ moved.line ∧ (change.inserted token').stop ≤ moved.stop := by
  by_cases last : ¬ change.Before token ∧ token.line = change.endLine ∧
      change.endCharacter < token.stop
  · obtain ⟨before, line, reaches⟩ := last
    obtain ⟨⟨column, isColumn, isLeft⟩, start, isImage⟩ :=
      @deleted_last change first token before line reaches
    obtain ⟨-, nonneg, -, one⟩ := valid
    rw [isLeft] at left
    rw [isImage] at becomes
    cases left
    cases becomes
    unfold inserted TextChange.column
    generalize change.oneWordCharacter = oneWord at *
    cases oneWord
    all_goals
      simp only [Bool.false_eq_true, and_true, and_false, if_false, if_true, true_and,
        forall_const] at *
      split_ifs
      all_goals dsimp only
      all_goals omega
  · have fine : change.Fine first token := by
      refine ⟨fun misses => ?_, fun _ starts => last ⟨starts.1, starts.2.1, starts.2.2.2⟩⟩
      by_contra
      refine last ⟨?_, misses.2.1, misses.2.2.1⟩
      omega
    have same := (edited_iff valid nonempty inBlock).mpr fine
    rw [left, becomes, map_some] at same
    rw [Option.some.inj same]
    exact ⟨le_rfl, le_rfl⟩

/-- Where the deletion moves the end of a token too far, its line is wrong, or its place is. -/
theorem stored_ne (valid : change.Valid) (inBlock : first ≤ token.line)
    (word : token.line - first < 2 ^ 32) (stop : token.stop < 2 ^ 32)
    (left : change.deleted first token = some token') (wraps : 2 ^ 32 ≤ token'.stop)
    (becomes : change.image token = some moved) :
    (change.inserted (token'.stored (change.firstLeft first))).stored (change.firstLine first) ≠
      moved := by
  obtain ⟨order, startNonneg, stopNonneg, -⟩ := valid
  have last : ¬ change.Before token ∧ token.line = change.endLine ∧
      change.endCharacter < token.stop := by
    unfold deleted at left
    split_ifs at left
    all_goals
      cases left
      simp only [Before, After] at *
      omega
  obtain ⟨before, line, reaches⟩ := last
  obtain ⟨⟨column, isColumn, isLeft⟩, start, isImage⟩ :=
    @deleted_last change first token before line reaches
  rw [isLeft] at left
  rw [isImage] at becomes
  cases left
  cases becomes
  dsimp only at wraps
  have isFirst : change.firstLine first = change.firstLeft first ∧
      change.firstLeft first ≤ change.startLine ∧
      change.startLine - change.firstLeft first < 2 ^ 32 := by
    unfold firstLine firstLeft
    rw [if_neg (by omega), if_neg (by omega)]
    omega
  obtain ⟨isFirst, above, near⟩ := isFirst
  -- the end is stored in front of the insertion, which leaves the token where it is
  have small : (column + (token.stop - change.endCharacter)) % 2 ^ 32 < change.startCharacter := by
    omega
  have sameLine : change.firstLeft first + (change.startLine - change.firstLeft first) % 2 ^ 32 =
      change.startLine := by
    rw [Int.emod_eq_of_lt (by omega) near]
    omega
  unfold inserted PlacedToken.stored
  dsimp only
  rw [if_pos (.inr ⟨sameLine, small⟩), isFirst, sameLine, sameLine]
  intro same
  injection same with lines _ stops
  have single : change.eolCount = 0 := by omega
  unfold TextChange.column at stops
  rw [if_pos single] at stops
  omega

/-- A token comes where it belongs if and only if it is fine, and its numbers fit. -/
theorem edited_stored_iff (valid : change.Valid) (nonneg : 0 ≤ token.start)
    (nonempty : token.start < token.stop) (inBlock : first ≤ token.line)
    (word : token.line - first < 2 ^ 32) (stop : token.stop < 2 ^ 32) :
    change.edited first token = change.image token ↔
      change.Fine first token ∧ change.Fits first token := by
  have whole := edited_iff valid nonempty inBlock
  have isSome := @isSome_deleted change first token
  unfold edited Fits
  cases left : change.deleted first token with
  | none =>
    rw [left] at whole
    simpa using whole
  | some token' =>
    rw [left] at whole isSome
    obtain ⟨moved, becomes⟩ := isSome_iff_exists.mp isSome.symm
    rw [becomes] at whole ⊢
    simp only [map_some, Option.some.injEq] at whole ⊢
    obtain ⟨above, near⟩ := deleted_inBlock valid inBlock word left
    obtain ⟨nonneg', nonempty'⟩ := deleted_valid valid nonneg nonempty left
    obtain ⟨nonneg'', nonempty''⟩ := @inserted_valid change _ nonneg' nonempty'
    have above' : change.firstLine first ≤ (change.inserted token').line := by
      unfold firstLine
      split_ifs with aboveBlock
      · have order := valid.order
        have line := deleted_line valid left
        rw [inserted_of_above (by omega)]
        exact Int.add_le_add_right above _
      · rw [Int.add_zero]
        exact above.trans (inserted_line token')
    constructor
    · intro same
      have fits : token'.stop < 2 ^ 32 := by
        by_contra wraps
        exact stored_ne valid inBlock word stop left (by omega) becomes same
      rw [PlacedToken.stored_eq above near nonneg' nonempty' fits] at same
      obtain ⟨line, last⟩ := inserted_le valid nonempty inBlock left becomes
      have words : moved.line - change.firstLine first < 2 ^ 32 ∧ moved.stop < 2 ^ 32 := by
        obtain ⟨lines, stops⟩ := PlacedToken.stored_words (change.firstLine first)
          (change.inserted token')
        rw [← same]
        exact ⟨lines.2, stops⟩
      have fits' := PlacedToken.stored_eq above' (by omega) nonneg'' nonempty'' (by omega)
      rw [fits'] at same
      refine ⟨whole.mp same, ?_⟩
      rintro _ ⟨⟩
      omega
    · rintro ⟨fine, fits⟩
      obtain ⟨first, second, third⟩ := fits token' rfl
      rw [PlacedToken.stored_eq above near nonneg' nonempty' first,
        PlacedToken.stored_eq above' third nonneg'' nonempty'' second]
      exact whole.mpr fine

/-! ## The order of what becomes of tokens -/

/-- The end of a token that starts in front of the change on its first line. -/
def StopsAt (change : TextChange) (token : PlacedToken) (stop : Int) : Prop :=
  token.stop < change.startCharacter ∧ stop = token.stop ∨
    change.startCharacter ≤ token.stop ∧ change.startCharacter ≤ stop ∧
      (change.eolCount = 0 → stop ≤ change.column ∨
        token.line = change.endLine ∧ change.endCharacter < token.stop ∧
          stop = change.column + (token.stop - change.endCharacter))

/-- The four places of a token, and what becomes of it there. -/
theorem image_cases (valid : change.Valid)
    (startsNot : change.oneWordCharacter = true → ¬ change.StartsAt token)
    (becomes : change.image token = some token') :
    token.line < change.startLine ∧ token' = token ∨
    token.line = change.startLine ∧ token.start < change.startCharacter ∧
      token'.line = token.line ∧ token'.start = token.start ∧
      change.StopsAt token token'.stop ∨
    token.line = change.endLine ∧ ¬ change.Before token ∧ change.endCharacter < token.stop ∧
      token'.line = change.startLine + change.eolCount ∧
      token'.start = change.column + (max token.start change.endCharacter - change.endCharacter) ∧
      token'.stop = change.column + (token.stop - change.endCharacter) ∨
    change.endLine < token.line ∧
      token'.line = change.startLine + change.eolCount + (token.line - change.endLine) ∧
      token'.start = token.start ∧ token'.stop = token.stop := by
  obtain ⟨order, start, stop, one⟩ := valid
  unfold image at becomes
  by_cases before : change.Before token
  · rw [if_pos before] at becomes
    rcases before with above | ⟨line, inFront⟩
    · left
      rw [if_neg (by simp only [After]; omega), if_neg (by omega)] at becomes
      exact ⟨above, (Option.some.inj becomes).symm⟩
    · right; left
      by_cases after : change.After token
      · rw [if_pos after] at becomes
        unfold StopsAt column
        unfold column at becomes
        split_ifs at becomes
        all_goals cases becomes
        all_goals simp
        all_goals omega
      · rw [if_neg after] at becomes
        unfold StopsAt column
        generalize change.oneWordCharacter = oneWord at *
        cases oneWord
        all_goals
          simp only [Bool.false_eq_true, if_false, if_true, forall_const] at *
          split_ifs at becomes
          all_goals cases becomes
          all_goals simp
          all_goals omega
  · rw [if_neg before] at becomes
    by_cases after : change.After token
    · rw [if_pos after] at becomes
      rcases after with below | ⟨line, reaches⟩
      · rw [if_neg (by omega)] at becomes
        cases becomes
        exact .inr (.inr (.inr ⟨below, rfl, rfl, rfl⟩))
      · right; right; left
        rw [if_pos line] at becomes
        refine ⟨line, before, reaches, ?_⟩
        by_cases early : token.start ≤ change.endCharacter
        · have many : change.oneWordCharacter = false := by
            by_contra one
            exact startsNot (by simpa using one) ⟨before, line, early, reaches⟩
          rw [if_pos early, many] at becomes
          cases becomes
          simp
          omega
        · rw [if_neg early] at becomes
          cases becomes
          simp
          omega
    · rw [if_neg after] at becomes
      cases becomes

/-- What becomes of a token is not empty, and has no negative characters. -/
theorem image_valid (valid : change.Valid)
    (nonneg : 0 ≤ token.start) (nonempty : token.start < token.stop)
    (startsNot : change.oneWordCharacter = true → ¬ change.StartsAt token)
    (becomes : change.image token = some token') :
    0 ≤ token'.start ∧ token'.start < token'.stop := by
  have columnNonneg : 0 ≤ change.column := by
    have start := valid.start
    unfold column
    split_ifs <;> omega
  rcases image_cases valid startsNot becomes with
    ⟨-, rfl⟩ | ⟨-, inFront, -, start, stop⟩ | ⟨-, -, reaches, -, start, stop⟩ | ⟨-, -, start, stop⟩
  · exact ⟨nonneg, nonempty⟩
  · rcases stop with ⟨-, stop⟩ | ⟨-, stop, -⟩ <;> omega
  · omega
  · omega

/-- Tokens that do not overlap become tokens that do not. -/
theorem image_before (valid : change.Valid) {a b a' b' : PlacedToken}
    (before : a.Before b) (nonemptyA : a.start < a.stop) (nonemptyB : b.start < b.stop)
    (startsNotA : change.oneWordCharacter = true → ¬ change.StartsAt a)
    (startsNotB : change.oneWordCharacter = true → ¬ change.StartsAt b)
    (becomesA : change.image a = some a') (becomesB : change.image b = some b') :
    a'.Before b' := by
  have order := valid.order
  rcases image_cases valid startsNotA becomesA with
    ⟨above, rfl⟩ | ⟨line, inFront, line', start', stop'⟩ |
      ⟨line, notBefore, reaches, line', start', stop'⟩ | ⟨below, line', start', stop'⟩
  · rcases image_cases valid startsNotB becomesB with
      ⟨_, rfl⟩ | ⟨_, _, _, _, _⟩ | ⟨_, _, _, _, _, _⟩ | ⟨_, _, _, _⟩ <;> omega
  · rcases image_cases valid startsNotB becomesB with
      ⟨_, rfl⟩ | ⟨_, _, _, _, _⟩ | ⟨_, _, _, _, _, _⟩ | ⟨_, _, _, _⟩
    · omega
    · rcases stop' with ⟨_, _⟩ | ⟨_, _, _⟩ <;> omega
    · by_cases single : change.eolCount = 0
      · have column : change.startCharacter ≤ change.column := by
          rw [TextChange.column, if_pos single]
          omega
        rcases stop' with ⟨_, _⟩ | ⟨_, _, most⟩
        · omega
        · rcases most single with _ | ⟨_, _, _⟩ <;> omega
      · omega
    · omega
  · rcases image_cases valid startsNotB becomesB with
      ⟨_, rfl⟩ | ⟨_, _, _, _, _⟩ | ⟨_, _, _, _, _, _⟩ | ⟨_, _, _, _⟩ <;> omega
  · rcases image_cases valid startsNotB becomesB with
      ⟨_, rfl⟩ | ⟨_, _, _, _, _⟩ | ⟨_, _, _, _, _, _⟩ | ⟨_, _, _, _⟩ <;> omega

end TextChange

end CodeEditor.Tokens
