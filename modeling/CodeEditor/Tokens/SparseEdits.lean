import CodeEditor.Tokens.SparseMultilineTokens

/-!
# Sparse tokens follow the text

Where an edit moves the characters of a token, and what `acceptEdit` makes of it. The two agree
unless a deletion that starts above the block, behind the first column, ends in front of or inside
a token that its horizontal shift misses, a single word character is inserted where a token starts,
or a number does not fit into an element of the array.
-/

namespace CodeEditor.Tokens

open Edits List

/-! ## Where the characters are -/

/-- A token with its line in the document. -/
structure PlacedToken where
  line : Int
  start : Int
  stop : Int
  metadata : Nat
deriving DecidableEq, Repr

def SparseToken.placed (startLineNumber : Int) (token : SparseToken) : PlacedToken :=
  ⟨startLineNumber + token.deltaLine, token.startCharacter, token.endCharacter, token.metadata⟩

def SparseMultilineTokens.placed (block : SparseMultilineTokens) : List PlacedToken :=
  block.tokens.map (·.placed block.startLineNumber)

/-- The order of tokens that do not overlap. -/
abbrev PlacedToken.Before (first second : PlacedToken) : Prop :=
  first.line < second.line ∨ first.line = second.line ∧ first.stop ≤ second.start

/-- The text from one character up to another is replaced by a text with so many line breaks, and
a first and a last line of so many characters. -/
structure TextChange where
  startLine : Int
  startCharacter : Int
  endLine : Int
  endCharacter : Int
  eolCount : ℕ
  firstLineLength : ℕ
  lastLineLength : ℕ
  oneWordCharacter : Bool

namespace TextChange

/-- The replaced text does not end before it starts, and lines have no negative characters. -/
structure Valid (change : TextChange) : Prop where
  order : change.startLine < change.endLine ∨
    change.startLine = change.endLine ∧ change.startCharacter ≤ change.endCharacter
  start : 0 ≤ change.startCharacter
  stop : 0 ≤ change.endCharacter
  oneWordCharacter : change.oneWordCharacter = true →
    change.eolCount = 0 ∧ change.firstLineLength = 1

/-- The token has characters in front of the change. -/
abbrev Before (change : TextChange) (token : PlacedToken) : Prop :=
  token.line < change.startLine ∨
    token.line = change.startLine ∧ token.start < change.startCharacter

/-- The token has characters behind the change. -/
abbrev After (change : TextChange) (token : PlacedToken) : Prop :=
  change.endLine < token.line ∨
    token.line = change.endLine ∧ change.endCharacter < token.stop

/-- Where the text behind the change goes. -/
def column (change : TextChange) : Int :=
  if change.eolCount = 0 then change.startCharacter + change.firstLineLength
  else change.lastLineLength

/-- What becomes of a token. The characters that it keeps are where the change moves them; a token
that the change is inside of is extended, or cut if there are line breaks; and a single word
character extends a token that it touches. -/
def image (change : TextChange) (token : PlacedToken) : Option PlacedToken :=
  let growth : Int := if change.oneWordCharacter then 1 else 0
  if change.Before token then
    if change.After token then
      if change.eolCount = 0 then
        some { token with stop := change.column + (token.stop - change.endCharacter) }
      else some { token with stop := change.startCharacter }
    else if token.line = change.startLine ∧ change.startCharacter ≤ token.stop then
      some { token with stop := change.startCharacter + growth }
    else some token
  else if change.After token then
    let line := change.startLine + change.eolCount + (token.line - change.endLine)
    if token.line = change.endLine then
      if token.start ≤ change.endCharacter then
        some { token with
          line
          start := change.column - growth
          stop := change.column + (token.stop - change.endCharacter) }
      else
        some { token with
          line
          start := change.column + (token.start - change.endCharacter)
          stop := change.column + (token.stop - change.endCharacter) }
    else some { token with line }
  else none

end TextChange

/-! ## Well-formed blocks -/

/-- The order of tokens that do not overlap. -/
def SparseToken.Before (first second : SparseToken) : Prop :=
  first.deltaLine < second.deltaLine ∨
    first.deltaLine = second.deltaLine ∧ first.endCharacter ≤ second.startCharacter

/-- The numbers of the tokens are elements of the array. The tokens are not empty, sorted, and do
not overlap. -/
structure WellFormed (tokens : List SparseToken) : Prop where
  words : ∀ token ∈ tokens, token.deltaLine < 2 ^ 32 ∧ token.endCharacter < 2 ^ 32
  valid : ∀ token ∈ tokens, 0 ≤ token.deltaLine ∧ 0 ≤ token.startCharacter ∧
    token.startCharacter < token.endCharacter
  sorted : tokens.Pairwise SparseToken.Before

/-- Storing the numbers of a stored token changes nothing. -/
theorem WellFormed.stored_eq {tokens : List SparseToken} (wellFormed : WellFormed tokens)
    {token : SparseToken} (member : token ∈ tokens) : token.stored = token := by
  obtain ⟨nonneg, start, nonempty⟩ := wellFormed.valid token member
  obtain ⟨line, stop⟩ := wellFormed.words token member
  rw [SparseToken.stored, Int.emod_eq_of_lt nonneg line, Int.emod_eq_of_lt start (by omega),
    Int.emod_eq_of_lt (by omega) stop]

/-- A token of a block that starts on the line `first`, when its numbers are stored. -/
def PlacedToken.stored (first : Int) (token : PlacedToken) : PlacedToken where
  line := first + (token.line - first) % 2 ^ 32
  start := token.start % 2 ^ 32
  stop := token.stop % 2 ^ 32
  metadata := token.metadata

theorem placed_stored (first : Int) (token : SparseToken) :
    token.stored.placed first = (token.placed first).stored first := by
  simp [SparseToken.stored, SparseToken.placed, PlacedToken.stored]

/-- The numbers that are stored are elements of the array. -/
theorem PlacedToken.stored_words (first : Int) (token : PlacedToken) :
    (first ≤ (token.stored first).line ∧ (token.stored first).line - first < 2 ^ 32) ∧
      (token.stored first).stop < 2 ^ 32 := by
  simp only [stored]
  omega

theorem PlacedToken.stored_eq {first : Int} {token : PlacedToken} (inBlock : first ≤ token.line)
    (line : token.line - first < 2 ^ 32) (start : 0 ≤ token.start)
    (nonempty : token.start < token.stop) (stop : token.stop < 2 ^ 32) :
    token.stored first = token := by
  rw [stored, Int.emod_eq_of_lt (by omega) line, Int.emod_eq_of_lt start (by omega),
    Int.emod_eq_of_lt (by omega) stop]
  simp

namespace SparseMultilineTokensStorage

variable {tokens : List SparseToken}

/-- The last token is on the last line. -/
theorem le_getMaxDeltaLine
    (sorted : tokens.Pairwise fun first second => first.deltaLine ≤ second.deltaLine) :
    ∀ token ∈ tokens, token.deltaLine ≤ getMaxDeltaLine tokens := by
  intro token member
  rw [getMaxDeltaLine]
  rcases tokens.eq_nil_or_concat with rfl | ⟨front, last, rfl⟩
  · simp at member
  · rw [concat_eq_append] at *
    rw [getLast?_concat]
    rcases mem_append.mp member with inFront | isLast
    · exact (pairwise_append.mp sorted).2.2 token inFront last (by simp)
    · have same : token = last := mem_singleton.mp isLast
      exact Int.le_of_eq (congrArg SparseToken.deltaLine same)

/-! ## Deleting -/

/-- The token that is left. -/
def TokenFate.token? : TokenFate → Option SparseToken
  | .kept token => some token
  | _ => none

section Delete

variable {shift startLine startCharacter endLine endCharacter : Int}

/-- What is left of a token. -/
def afterDelete (shift startLine startCharacter endLine endCharacter : Int)
    (token : SparseToken) : Option SparseToken :=
  (deleteFate shift startLine startCharacter endLine endCharacter true token).token?

/-- When tokens have been deleted already, a token is kept or deleted. -/
theorem deleteFate_true (token : SparseToken) :
    (∃ token', deleteFate shift startLine startCharacter endLine endCharacter true token =
      .kept token') ∨
    deleteFate shift startLine startCharacter endLine endCharacter true token = .deleted := by
  unfold deleteFate
  simp only [not_true_eq_false, and_false, if_false]
  split_ifs
  all_goals first | exact .inl ⟨_, rfl⟩ | exact .inr rfl | omega

/-- The loop ends early only where nothing would change. -/
theorem deleteFate_false (token : SparseToken) :
    deleteFate shift startLine startCharacter endLine endCharacter false token =
      deleteFate shift startLine startCharacter endLine endCharacter true token ∨
    deleteFate shift startLine startCharacter endLine endCharacter false token = .stop ∧
      endLine < token.deltaLine ∧ endLine = startLine := by
  unfold deleteFate
  simp only [Bool.false_eq_true, not_false_eq_true, not_true_eq_false, and_true, and_false,
    if_false]
  split_ifs
  all_goals first | exact .inl rfl | exact .inr ⟨rfl, by omega⟩

theorem afterDelete_below (below : endLine < token.deltaLine) (single : endLine = startLine) :
    afterDelete shift startLine startCharacter endLine endCharacter token = some token := by
  subst single
  unfold afterDelete deleteFate
  simp only [not_true_eq_false, and_false, if_false, Int.sub_self, Int.sub_zero]
  split_ifs
  all_goals first | omega | rfl

/-- The loop deals with the tokens one by one. -/
theorem deleteLoop_eq (sorted : tokens.Pairwise SparseToken.Before)
    (stored : ∀ token ∈ tokens, token.stored = token) (hasDeletedTokens : Bool) :
    deleteLoop shift startLine startCharacter endLine endCharacter hasDeletedTokens tokens =
      .ok (tokens.filterMap fun token =>
        (afterDelete shift startLine startCharacter endLine endCharacter token).map
          SparseToken.stored) := by
  induction tokens generalizing hasDeletedTokens with
  | nil => rfl
  | cons token tokens ih =>
    obtain ⟨behind, sorted⟩ := pairwise_cons.mp sorted
    have fate : deleteFate shift startLine startCharacter endLine endCharacter hasDeletedTokens
        token = deleteFate shift startLine startCharacter endLine endCharacter true token ∨
      deleteFate shift startLine startCharacter endLine endCharacter hasDeletedTokens token =
        .stop ∧ endLine < token.deltaLine ∧ endLine = startLine := by
      cases hasDeletedTokens with
      | true => exact .inl rfl
      | false => exact deleteFate_false token
    have rest := ih sorted fun other later => stored other (mem_cons_of_mem _ later)
    rw [deleteLoop]
    rcases fate with same | ⟨stops, below, single⟩
    · rw [same]
      rcases deleteFate_true token with ⟨token', kept⟩ | deleted
      · rw [kept, filterMap_cons_some (by rw [afterDelete, kept]; rfl), rest]
        rfl
      · rw [deleted, filterMap_cons_none (by rw [afterDelete, deleted]; rfl)]
        exact rest true
    · rw [stops]
      have unchanged : ((token :: tokens).filterMap fun token =>
          (afterDelete shift startLine startCharacter endLine endCharacter token).map
            SparseToken.stored) = (token :: tokens).filterMap some := by
        apply filterMap_congr
        intro other member
        rw [afterDelete_below _ single, Option.map_some, stored other member]
        rcases mem_cons.mp member with rfl | later
        · exact below
        · rcases behind other later with lower | ⟨sameLine, -⟩
          · omega
          · omega
      rw [unchanged, filterMap_some]

end Delete

end SparseMultilineTokensStorage

/-! ## The deletion and the insertion of an edit -/

namespace TextChange

/-- A deletion that starts above the block shifts only the tokens that are behind it on the first
line of the block, and not at its start. -/
abbrev Misses (change : TextChange) (startLineNumber : Int) (token : PlacedToken) : Prop :=
  change.startLine < startLineNumber ∧ token.line = change.endLine ∧
    change.endCharacter < token.stop ∧
    ¬ (change.endLine = startLineNumber ∧ change.endCharacter ≤ token.start ∧ 0 < token.start)

/-- What the deletion leaves of a token of a block. -/
def deleted (change : TextChange) (startLineNumber : Int) (token : PlacedToken) :
    Option PlacedToken :=
  if change.Before token then
    if change.After token then
      some { token with stop := token.stop - (change.endCharacter - change.startCharacter) }
    else if token.line = change.startLine ∧ change.startCharacter < token.stop then
      some { token with stop := change.startCharacter }
    else some token
  else if change.After token then
    let line := change.startLine + (token.line - change.endLine)
    if token.line = change.endLine then
      let column := if change.Misses startLineNumber token then 0 else change.startCharacter
      some { token with
        line
        start := column + (max token.start change.endCharacter - change.endCharacter)
        stop := column + (token.stop - change.endCharacter) }
    else some { token with line }
  else none

/-- What the insertion does with a token. -/
def inserted (change : TextChange) (token : PlacedToken) : PlacedToken :=
  if token.line < change.startLine ∨
      token.line = change.startLine ∧ token.stop < change.startCharacter then token
  else if token.line = change.startLine ∧ token.stop = change.startCharacter then
    if change.oneWordCharacter then { token with stop := token.stop + 1 } else token
  else if token.line = change.startLine ∧ token.start < change.startCharacter ∧
      change.startCharacter < token.stop then
    if change.eolCount = 0 then { token with stop := token.stop + change.firstLineLength }
    else { token with stop := change.startCharacter }
  else if token.line = change.startLine ∧ token.start = change.startCharacter ∧
      change.oneWordCharacter then token
  else if token.line = change.startLine then
    { token with
      line := token.line + change.eolCount
      start := change.column + (token.start - change.startCharacter)
      stop := change.column + (token.stop - change.startCharacter) }
  else { token with line := token.line + change.eolCount }

end TextChange

section Change

open SparseMultilineTokensStorage

variable {change : TextChange} {first : Int} {token : SparseToken}

/-- The loop does with a token of a block on line `first` what the deletion does. -/
def Deletes (change : TextChange) (first : Int) (token : SparseToken) : Prop :=
  (afterDelete 0 (change.startLine - first) change.startCharacter (change.endLine - first)
    change.endCharacter token).map (·.placed first) = change.deleted first (token.placed first)

/-- A token with characters in front of the change keeps these. -/
theorem placed_afterDelete_before (valid : change.Valid)
    (before : change.Before (token.placed first)) : Deletes change first token := by
  obtain ⟨order, -, -, -⟩ := valid
  unfold Deletes TextChange.deleted
  split_ifs
  all_goals
    simp only [SparseToken.placed, TextChange.Before, TextChange.After] at *
    unfold afterDelete deleteFate
    split_ifs
    all_goals first | omega | simp [TokenFate.token?]

/-- A token with characters behind the change only moves with them. -/
theorem placed_afterDelete_after (valid : change.Valid) (inside : first ≤ change.startLine)
    (notBefore : ¬change.Before (token.placed first)) (after : change.After (token.placed first)) :
    Deletes change first token := by
  obtain ⟨order, start, stop, -⟩ := valid
  unfold Deletes TextChange.deleted
  split_ifs
  all_goals
    simp only [SparseToken.placed, TextChange.Before, TextChange.After, TextChange.Misses] at *
    unfold afterDelete deleteFate
    split_ifs
    all_goals first | omega | simp [TokenFate.token?]
    all_goals omega

/-- A token in the change is deleted. -/
theorem placed_afterDelete_within (nonempty : token.startCharacter < token.endCharacter)
    (notBefore : ¬change.Before (token.placed first))
    (notAfter : ¬change.After (token.placed first)) : Deletes change first token := by
  unfold Deletes TextChange.deleted
  rw [if_neg notBefore, if_neg notAfter]
  simp only [SparseToken.placed, TextChange.Before, TextChange.After] at *
  unfold afterDelete deleteFate
  split_ifs
  all_goals first | omega | simp [TokenFate.token?]

theorem placed_afterDelete_inside (valid : change.Valid) (inside : first ≤ change.startLine)
    (nonempty : token.startCharacter < token.endCharacter) : Deletes change first token := by
  by_cases before : change.Before (token.placed first)
  · exact placed_afterDelete_before valid before
  · by_cases after : change.After (token.placed first)
    · exact placed_afterDelete_after valid inside before after
    · exact placed_afterDelete_within nonempty before after

theorem placed_afterDelete_above (valid : change.Valid) (above : change.startLine < first)
    (reaches : first ≤ change.endLine) (inBlock : 0 ≤ token.deltaLine)
    (nonneg : 0 ≤ token.startCharacter) (nonempty : token.startCharacter < token.endCharacter) :
    (afterDelete change.startCharacter 0 0 (change.endLine - first) change.endCharacter token).map
      (·.placed change.startLine) = change.deleted first (token.placed first) := by
  obtain ⟨order, start, stop, -⟩ := valid
  have notBefore : ¬ change.Before (token.placed first) := by
    simp only [TextChange.Before, SparseToken.placed]
    omega
  unfold TextChange.deleted
  unfold afterDelete deleteFate
  simp only [not_true_eq_false, and_false, if_false]
  rw [if_neg (by omega), if_neg (by omega)]
  split_ifs
  all_goals
    simp only [SparseToken.placed, TextChange.After, TextChange.Misses] at *
    first | omega | simp [TokenFate.token?]
  all_goals omega

theorem placed_insertInto (change : TextChange) (first : Int) (token : SparseToken) :
    (insertInto (change.startLine - first) change.startCharacter change.eolCount
      change.firstLineLength change.lastLineLength change.oneWordCharacter token).placed first =
      change.inserted (token.placed first) := by
  unfold TextChange.inserted TextChange.column
  generalize change.oneWordCharacter = oneWord
  cases oneWord
  all_goals
    simp only [Bool.false_eq_true, and_true, and_false, if_false, if_true]
    split_ifs
    all_goals
      simp only [SparseToken.placed] at *
      unfold insertInto
      simp only [Bool.false_eq_true, and_true, and_false, if_false, if_true]
      split_ifs
      all_goals first | omega | simp
      all_goals omega

end Change

end CodeEditor.Tokens
