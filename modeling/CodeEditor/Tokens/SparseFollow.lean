import CodeEditor.Tokens.SparseImages

/-!
# Blocks of sparse tokens follow the text

The cases that `acceptEdit` distinguishes by lines agree with what becomes of the tokens one by
one.
-/

namespace CodeEditor.Tokens

open Edits SparseMultilineTokensStorage Option Int
open List hiding range

/-- The change of an edit. -/
def TextChange.ofEdit (range : Range)
    (eolCount firstLineLength lastLineLength firstCharCode : ℕ) : TextChange where
  startLine := range.startLineNumber
  startCharacter := range.startColumn - 1
  endLine := range.endLineNumber
  endCharacter := range.endColumn - 1
  eolCount := eolCount
  firstLineLength := firstLineLength
  lastLineLength := lastLineLength
  oneWordCharacter :=
    isInsertingPreciselyOneWordCharacter eolCount firstLineLength firstCharCode

/-- A range that does not end before it starts, with columns from 1 on. -/
structure ValidRange (range : Range) : Prop where
  order : range.startLineNumber < range.endLineNumber ∨
    range.startLineNumber = range.endLineNumber ∧ range.startColumn ≤ range.endColumn
  start : 1 ≤ range.startColumn
  stop : 1 ≤ range.endColumn

theorem ValidRange.change {range : Range} (valid : ValidRange range)
    (eolCount firstLineLength lastLineLength firstCharCode : ℕ) :
    (TextChange.ofEdit range eolCount firstLineLength lastLineLength firstCharCode).Valid := by
  obtain ⟨order, start, stop⟩ := valid
  refine ⟨?_, ?_, ?_, ?_⟩
  · simp only [TextChange.ofEdit]
    omega
  · simp only [TextChange.ofEdit]
    omega
  · simp only [TextChange.ofEdit]
    omega
  · intro one
    simp only [TextChange.ofEdit, isInsertingPreciselyOneWordCharacter, Bool.and_eq_true,
      decide_eq_true_eq] at one
    exact one.1

namespace TextChange

variable {change : TextChange} {first : Int} {token : PlacedToken}

/-- Where nothing is deleted, nothing happens. -/
theorem deleted_of_empty (lines : change.startLine = change.endLine)
    (characters : change.startCharacter = change.endCharacter) (inBlock : first ≤ token.line)
    (nonempty : token.start < token.stop) : change.deleted first token = some token := by
  have missesNot : ¬ change.Misses first token := by
    omega
  unfold deleted
  by_cases before : change.Before token
  · rw [if_pos before]
    split_ifs with after cut
    · rw [characters, Int.sub_self, Int.sub_zero]
    · simp only [After] at after
      have same : change.startCharacter = token.stop := by omega
      rw [same]
    · rfl
  · have after : change.After token := by
      omega
    dsimp only
    have line : change.startLine + (token.line - change.endLine) = token.line := by omega
    rw [line]
    split_ifs with last
    · have start : change.startCharacter +
          (max token.start change.endCharacter - change.endCharacter) = token.start := by omega
      have stop : change.startCharacter + (token.stop - change.endCharacter) = token.stop := by
        omega
      rw [start, stop]
    · rfl

/-- The deletion is above the token. -/
theorem deleted_of_above (valid : change.Valid) (above : change.endLine < token.line) :
    change.deleted first token =
      some { token with line := token.line - (change.endLine - change.startLine) } := by
  have order := valid.order
  have before : ¬ change.Before token := by
    omega
  have line : change.startLine + (token.line - change.endLine) =
      token.line - (change.endLine - change.startLine) := by omega
  unfold deleted
  rw [if_neg before, if_pos (.inl above), if_neg (by omega), line]

/-- The deletion is below the token. -/
theorem deleted_of_below (valid : change.Valid) (below : token.line < change.startLine) :
    change.deleted first token = some token := by
  have order := valid.order
  have after : ¬ change.After token := by
    omega
  unfold deleted
  rw [if_pos (.inl below), if_neg after, if_neg (by omega)]

/-- The deletion is around the line of the token. -/
theorem deleted_of_around (above : change.startLine < token.line)
    (below : token.line < change.endLine) : change.deleted first token = none := by
  have before : ¬ change.Before token := by
    omega
  have after : ¬ change.After token := by
    omega
  unfold deleted
  rw [if_neg before, if_neg after]

/-- Where nothing is inserted, nothing happens. -/
theorem inserted_of_empty (valid : change.Valid) (single : change.eolCount = 0)
    (nothing : change.firstLineLength = 0) : change.inserted token = token := by
  have notOne : change.oneWordCharacter = false := by
    by_contra one
    have length := (valid.oneWordCharacter (by simpa using one)).2
    omega
  unfold inserted column
  rw [notOne, single, nothing]
  cases token
  simp only [Bool.false_eq_true, and_false, if_false, if_true, Int.cast_ofNat_Int, Int.add_zero]
  split_ifs
  all_goals simp

theorem inserted_of_below (below : token.line < change.startLine) :
    change.inserted token = token := by
  unfold inserted
  rw [if_pos (.inl below)]

end TextChange

/-- Two ways to go on with the same items agree if they do for each item. -/
theorem filterMap_eq_filterMap_iff {α β : Type*} {f g : α → Option β} {items : List α}
    (domain : ∀ item ∈ items, (f item).isSome = (g item).isSome) :
    items.filterMap f = items.filterMap g ↔ ∀ item ∈ items, f item = g item := by
  refine ⟨?_, filterMap_congr⟩
  intro same
  induction items with
  | nil =>
    intro item member
    cases member
  | cons head items ih =>
    have headDomain := domain head (.head _)
    have tailDomain (item : α) (member : item ∈ items) := domain item (.tail _ member)
    cases ofF : f head with
    | none =>
      have ofG : g head = none := by
        rw [← not_isSome_iff_eq_none, ← headDomain, ofF]
        exact Bool.false_ne_true
      rw [filterMap_cons_none ofF, filterMap_cons_none ofG] at same
      rw [forall_mem_cons]
      exact ⟨ofF.trans ofG.symm, ih tailDomain same⟩
    | some value =>
      obtain ⟨value', ofG⟩ : ∃ value', g head = some value' := by
        rw [← isSome_iff_exists, ← headDomain, ofF]
        rfl
      rw [filterMap_cons_some ofF, filterMap_cons_some ofG] at same
      obtain ⟨heads, tails⟩ := List.cons.inj same
      rw [forall_mem_cons, ofF, ofG, heads]
      exact ⟨rfl, ih tailDomain tails⟩

/-! ## Blocks -/

namespace SparseMultilineTokens

/-- No token is above the first line, and lines do not decrease. -/
structure InLines (block : SparseMultilineTokens) : Prop where
  nonneg : ∀ token ∈ block.tokens, 0 ≤ token.deltaLine
  sorted : block.tokens.Pairwise fun first second => first.deltaLine ≤ second.deltaLine

variable {block : SparseMultilineTokens}

theorem neg_one_le_getMaxDeltaLine {tokens : List SparseToken}
    (nonneg : ∀ token ∈ tokens, 0 ≤ token.deltaLine) : -1 ≤ getMaxDeltaLine tokens := by
  rw [getMaxDeltaLine]
  split
  · exact Int.le_refl _
  · rename_i token isLast
    have inTokens := nonneg token (mem_of_getLast? isLast)
    omega

theorem inLines_of_wellFormed (wellFormed : WellFormed block.tokens) : block.InLines where
  nonneg token member := (wellFormed.valid token member).1
  sorted := wellFormed.sorted.imp fun before => by
    rcases before with above | ⟨same, -⟩
    · exact le_of_lt above
    · exact le_of_eq same

/-- The lines of the tokens in the document. -/
theorem inLines_iff : block.InLines ↔ (∀ token ∈ block.placed, block.startLineNumber ≤ token.line) ∧
      block.placed.Pairwise fun first second => first.line ≤ second.line := by
  rw [placed, List.forall_mem_map, pairwise_map]
  constructor
  · intro inLines
    refine ⟨?_, inLines.sorted.imp ?_⟩
    · intro token member
      exact Int.le_add_of_nonneg_right (inLines.nonneg token member)
    · intro first second order
      exact Int.add_le_add_left order _
  · rintro ⟨nonneg, sorted⟩
    refine ⟨?_, sorted.imp ?_⟩
    · intro token member
      have inBlock := nonneg token member
      simp only [SparseToken.placed] at inBlock
      omega
    · intro first second order
      simp only [SparseToken.placed] at order
      omega

variable {change : TextChange} {first : Int}

variable {range : Range} {eolCount firstLineLength lastLineLength firstCharCode : ℕ}

/-- `_acceptDeleteRange` stores of every token what is left of it. -/
theorem placed_deleteRange (wellFormed : WellFormed block.tokens) (valid : ValidRange range)
    (isEdit : change = .ofEdit range eolCount firstLineLength lastLineLength firstCharCode) :
    ∃ block', block.deleteRange range = .ok block' ∧
      block'.placed = block.placed.filterMap (fun token =>
        (change.deleted block.startLineNumber token).map
          (·.stored (change.firstLeft block.startLineNumber))) ∧
      (block'.tokens = [] ∨ block'.startLineNumber = change.firstLeft block.startLineNumber) := by
  have validChange : change.Valid := isEdit ▸ valid.change _ _ _ _
  have startLine : change.startLine = range.startLineNumber := by rw [isEdit]; rfl
  have startCharacter : change.startCharacter = range.startColumn - 1 := by rw [isEdit]; rfl
  have endLine : change.endLine = range.endLineNumber := by rw [isEdit]; rfl
  have endCharacter : change.endCharacter = range.endColumn - 1 := by rw [isEdit]; rfl
  have inLines := inLines_of_wellFormed wellFormed
  obtain ⟨inBlock, -⟩ := inLines_iff.mp inLines
  have most := le_getMaxDeltaLine inLines.sorted
  have order := validChange.order
  -- nothing is stored: every token is left as it is
  have kept {startLineNumber endLineNumber : Int}
      (isFirst : startLineNumber = change.firstLeft block.startLineNumber)
      (isLeft : ∀ token ∈ block.tokens,
        change.deleted block.startLineNumber (token.placed block.startLineNumber) =
          some (token.placed startLineNumber)) :
      placed ⟨startLineNumber, endLineNumber, block.tokens⟩ = block.placed.filterMap (fun token =>
        (change.deleted block.startLineNumber token).map
          (·.stored (change.firstLeft block.startLineNumber))) := by
    rw [placed, placed, filterMap_map, ← filterMap_eq_map]
    apply filterMap_congr
    intro token member
    simp only [Function.comp_apply]
    rw [isLeft token member, map_some, ← isFirst, ← placed_stored, wellFormed.stored_eq member]
  -- every token is stored
  have stored {startLineNumber : Int} {left : SparseToken → Option SparseToken}
      (isFirst : startLineNumber = change.firstLeft block.startLineNumber)
      (isLeft : ∀ token ∈ block.tokens, (left token).map (·.placed startLineNumber) =
        change.deleted block.startLineNumber (token.placed block.startLineNumber)) :
      (block.tokens.filterMap fun token => (left token).map SparseToken.stored).map
        (·.placed startLineNumber) = block.placed.filterMap (fun token =>
          (change.deleted block.startLineNumber token).map
            (·.stored (change.firstLeft block.startLineNumber))) := by
    rw [map_filterMap, placed, filterMap_map]
    apply filterMap_congr
    intro token member
    simp only [Function.comp_apply]
    rw [← isLeft token member, ← isFirst, Option.map_map, Option.map_map]
    congr 1
    exact funext fun left => placed_stored startLineNumber left
  unfold deleteRange
  dsimp only
  split_ifs with nothing above below around reachesUp
  · have isFirst : block.startLineNumber = change.firstLeft block.startLineNumber := by
      unfold TextChange.firstLeft
      split_ifs <;> omega
    refine ⟨block, rfl, kept isFirst ?_, .inr isFirst⟩
    intro token member
    exact TextChange.deleted_of_empty (by omega) (by omega) (inBlock _ (mem_map_of_mem member))
      (wellFormed.valid token member).2.2
  · refine ⟨_, rfl, kept ?_ ?_, .inr ?_⟩
    · rw [TextChange.firstLeft, if_pos (by omega)]
      omega
    · intro token member
      have nonneg := inLines.nonneg token member
      rw [TextChange.deleted_of_above validChange (by simp only [SparseToken.placed]; omega)]
      simp only [SparseToken.placed, Option.some.injEq, PlacedToken.mk.injEq, and_true]
      omega
    · rw [TextChange.firstLeft, if_pos (by omega)]
      dsimp only
      omega
  · have atLeast := neg_one_le_getMaxDeltaLine inLines.nonneg
    have isFirst : block.startLineNumber = change.firstLeft block.startLineNumber := by
      unfold TextChange.firstLeft
      split_ifs <;> omega
    refine ⟨block, rfl, kept isFirst ?_, .inr isFirst⟩
    intro token member
    have last := most token member
    exact TextChange.deleted_of_below validChange (by simp only [SparseToken.placed]; omega)
  · refine ⟨_, rfl, ?_, .inl rfl⟩
    symm
    rw [placed, placed, map_nil, filterMap_eq_nil_iff]
    intro token member
    obtain ⟨relative, inTokens, rfl⟩ := List.mem_map.mp member
    have nonneg := inLines.nonneg relative inTokens
    have last := most relative inTokens
    rw [TextChange.deleted_of_around (by simp only [SparseToken.placed]; omega)
      (by simp only [SparseToken.placed]; omega), map_none]
  · have isFirst : block.startLineNumber - -(range.startLineNumber - block.startLineNumber) =
        change.firstLeft block.startLineNumber := by
      unfold TextChange.firstLeft
      split_ifs <;> omega
    have newStart : change.firstLeft block.startLineNumber = change.startLine := by omega
    rw [acceptDeleteRange, deleteLoop_eq wellFormed.sorted fun _ => wellFormed.stored_eq]
    refine ⟨_, rfl, stored isFirst ?_, .inr isFirst⟩
    intro token member
    obtain ⟨nonneg, start, nonempty⟩ := wellFormed.valid token member
    rw [isFirst, newStart, ← startCharacter, ← endLine, ← endCharacter]
    exact placed_afterDelete_above validChange (by omega) (by omega) nonneg start nonempty
  · have isFirst : block.startLineNumber = change.firstLeft block.startLineNumber := by
      unfold TextChange.firstLeft
      split_ifs <;> omega
    have inside : block.startLineNumber ≤ change.startLine := by omega
    rw [acceptDeleteRange, deleteLoop_eq wellFormed.sorted fun _ => wellFormed.stored_eq]
    refine ⟨_, rfl, stored isFirst ?_, .inr isFirst⟩
    intro token member
    rw [← startCharacter, ← startLine, ← endLine, ← endCharacter]
    exact placed_afterDelete_inside validChange inside (wellFormed.valid token member).2.2

/-- `_acceptInsertText` stores of every token what the insertion makes of it. -/
theorem placed_insertText (inLines : block.InLines)
    (words : ∀ token ∈ block.tokens, token.stored = token) (valid : ValidRange range)
    (isEdit : change = .ofEdit range eolCount firstLineLength lastLineLength firstCharCode)
    (isFirst : block.tokens = [] ∨ block.startLineNumber = change.firstLeft first) :
    let block' := block.insertText range.getStartPosition eolCount firstLineLength lastLineLength
      firstCharCode
    block'.placed = block.placed.map (fun token =>
        (change.inserted token).stored (change.firstLine first)) ∧
      (block'.tokens = [] ∨ block'.startLineNumber = change.firstLine first) := by
  have validChange : change.Valid := isEdit ▸ valid.change _ _ _ _
  have startLine : change.startLine = range.getStartPosition.lineNumber := by rw [isEdit]; rfl
  have startCharacter : change.startCharacter = range.getStartPosition.column - 1 := by
    rw [isEdit]; rfl
  have single : change.eolCount = eolCount := by rw [isEdit]; rfl
  have length : change.firstLineLength = firstLineLength := by rw [isEdit]; rfl
  have order := validChange.order
  have most := le_getMaxDeltaLine inLines.sorted
  rcases isFirst with isEmpty | isFirst
  · unfold insertText
    dsimp only
    split_ifs <;> simp [placed, isEmpty, acceptInsertText]
  -- nothing is stored: every token is left as it is
  have kept {startLineNumber endLineNumber : Int}
      (isFirst : startLineNumber = change.firstLine first)
      (isInserted : ∀ token ∈ block.tokens,
        change.inserted (token.placed block.startLineNumber) = token.placed startLineNumber) :
      placed ⟨startLineNumber, endLineNumber, block.tokens⟩ = block.placed.map (fun token =>
        (change.inserted token).stored (change.firstLine first)) := by
    rw [placed, placed, List.map_map]
    apply List.map_congr_left
    intro token member
    simp only [Function.comp_apply]
    rw [isInserted token member, ← isFirst, ← placed_stored, words token member]
  unfold insertText
  dsimp only
  split_ifs with nothing above below
  · have isFirst : block.startLineNumber = change.firstLine first := by
      unfold TextChange.firstLine
      split_ifs <;> omega
    refine ⟨kept isFirst fun token _ => ?_, .inr isFirst⟩
    exact TextChange.inserted_of_empty validChange (single.trans nothing.1) (length.trans nothing.2)
  · have isFirst : block.startLineNumber + eolCount = change.firstLine first := by
      unfold TextChange.firstLine
      unfold TextChange.firstLeft at *
      split_ifs at * <;> omega
    refine ⟨kept isFirst ?_, .inr isFirst⟩
    intro token member
    have nonneg := inLines.nonneg token member
    rw [TextChange.inserted_of_above (by simp only [SparseToken.placed]; omega), single]
    simp only [SparseToken.placed, PlacedToken.mk.injEq, and_true]
    omega
  all_goals
    have isFirst : block.startLineNumber = change.firstLine first := by
      unfold TextChange.firstLine
      unfold TextChange.firstLeft at *
      split_ifs at * <;> omega
  · refine ⟨kept isFirst ?_, .inr isFirst⟩
    intro token member
    have last := most token member
    apply TextChange.inserted_of_below
    simp only [SparseToken.placed]
    omega
  · refine ⟨?_, .inr isFirst⟩
    rw [placed, placed, List.map_map, acceptInsertText, List.map_map]
    apply List.map_congr_left
    intro token member
    simp only [Function.comp_apply]
    rw [placed_stored, isFirst, ← placed_insertInto, ← isFirst, startLine, startCharacter, isEdit]
    rfl

/-! ## Whole edits -/

/-- A block is well-formed if its tokens are where they are in the document. -/
theorem wellFormed_iff : WellFormed block.tokens ↔ (∀ token ∈ block.placed,
      (block.startLineNumber ≤ token.line ∧ token.line - block.startLineNumber < 2 ^ 32) ∧
        0 ≤ token.start ∧ token.start < token.stop ∧ token.stop < 2 ^ 32) ∧
      block.placed.Pairwise PlacedToken.Before := by
  have before (first second : SparseToken) : first.Before second ↔
      (first.placed block.startLineNumber).Before (second.placed block.startLineNumber) := by
    simp only [SparseToken.Before, PlacedToken.Before, SparseToken.placed]
    omega
  rw [placed, List.forall_mem_map, pairwise_map]
  constructor
  · rintro ⟨words, valid, sorted⟩
    refine ⟨?_, sorted.imp fun {first second} => (before first second).mp⟩
    intro token member
    have word := words token member
    have characters := valid token member
    simp only [SparseToken.placed]
    omega
  · rintro ⟨valid, sorted⟩
    refine ⟨?_, ?_, sorted.imp fun {first second} => (before first second).mpr⟩
    all_goals
      intro token member
      have characters := valid token member
      simp only [SparseToken.placed] at characters
      omega

/-- `acceptEdit` stores what the edit makes of every token. -/
theorem placed_acceptEdit (wellFormed : WellFormed block.tokens) (valid : ValidRange range)
    (isEdit : change = .ofEdit range eolCount firstLineLength lastLineLength firstCharCode) :
    ∃ block', block.acceptEdit range eolCount firstLineLength lastLineLength firstCharCode =
        .ok block' ∧
      block'.placed = block.placed.filterMap (change.edited block.startLineNumber) ∧
      (block'.tokens = [] ∨ block'.startLineNumber = change.firstLine block.startLineNumber) := by
  have validChange : change.Valid := isEdit ▸ valid.change _ _ _ _
  obtain ⟨left, deletes, placedLeft, isFirst⟩ := placed_deleteRange wellFormed valid isEdit
  obtain ⟨validTokens, sorted⟩ := wellFormed_iff.mp wellFormed
  obtain ⟨inLines, words⟩ : left.InLines ∧ ∀ token ∈ left.tokens, token.stored = token := by
    rcases isFirst with isEmpty | isFirst
    · exact ⟨⟨by simp [isEmpty], by simp [isEmpty]⟩, by simp [isEmpty]⟩
    refine ⟨inLines_iff.mpr ⟨?_, ?_⟩, ?_⟩
    · intro token' member
      rw [placedLeft] at member
      obtain ⟨token, -, isLeft⟩ := mem_filterMap.mp member
      obtain ⟨token, -, rfl⟩ := Option.map_eq_some_iff.mp isLeft
      rw [isFirst]
      exact (PlacedToken.stored_words _ token).1.1
    · rw [placedLeft, pairwise_filterMap]
      refine sorted.imp_of_mem fun {a b} inA inB before a' leftOfA b' leftOfB => ?_
      obtain ⟨a', isA, rfl⟩ := Option.map_eq_some_iff.mp leftOfA
      obtain ⟨b', isB, rfl⟩ := Option.map_eq_some_iff.mp leftOfB
      have lineA := TextChange.deleted_line validChange isA
      have lineB := TextChange.deleted_line validChange isB
      have inBlockA := TextChange.deleted_inBlock validChange (validTokens a inA).1.1
        (validTokens a inA).1.2 isA
      have inBlockB := TextChange.deleted_inBlock validChange (validTokens b inB).1.1
        (validTokens b inB).1.2 isB
      simp only [PlacedToken.stored]
      omega
    · intro token member
      have isLeft : token.placed left.startLineNumber ∈ left.placed := mem_map_of_mem member
      rw [placedLeft] at isLeft
      obtain ⟨other, -, isLeft⟩ := mem_filterMap.mp isLeft
      obtain ⟨other, -, isStored⟩ := Option.map_eq_some_iff.mp isLeft
      simp only [PlacedToken.stored, SparseToken.placed, PlacedToken.mk.injEq, isFirst] at isStored
      cases token
      simp only [SparseToken.stored, SparseToken.mk.injEq, and_true] at isStored ⊢
      omega
  obtain ⟨placed', inBlock⟩ := placed_insertText inLines words valid isEdit isFirst
  refine ⟨_, congrArg (Except.map _) deletes, ?_, inBlock⟩
  refine placed'.trans ?_
  rw [placedLeft, map_filterMap]
  apply filterMap_congr
  intro token member
  rw [Option.map_map]
  rfl

/-- The tokens are well-formed again, and where the edit moves their characters, if and only if
the deletion misses none that it has to shift, no single word character is inserted where a token
starts, and no number reaches `2 ^ 32`. -/
theorem acceptEdit_follows (block : SparseMultilineTokens) (wellFormed : WellFormed block.tokens)
    (range : Range) (valid : ValidRange range)
    (eolCount firstLineLength lastLineLength firstCharCode : ℕ) :
    let change := TextChange.ofEdit range eolCount firstLineLength lastLineLength firstCharCode
    ∃ block', block.acceptEdit range eolCount firstLineLength lastLineLength firstCharCode =
        .ok block' ∧
      (WellFormed block'.tokens ∧ block'.placed = block.placed.filterMap change.image ↔
        ∀ token ∈ block.placed, change.Fine block.startLineNumber token ∧
          change.Fits block.startLineNumber token) := by
  intro change
  have validChange : change.Valid := valid.change _ _ _ _
  obtain ⟨validTokens, sorted⟩ := wellFormed_iff.mp wellFormed
  obtain ⟨block', accepts, placed', isFirst⟩ := placed_acceptEdit wellFormed valid rfl
  refine ⟨block', accepts, ?_⟩
  have follows : block'.placed = block.placed.filterMap change.image ↔
      ∀ token ∈ block.placed, change.Fine block.startLineNumber token ∧
        change.Fits block.startLineNumber token := by
    rw [placed', filterMap_eq_filterMap_iff]
    · refine forall₂_congr fun token member => ?_
      obtain ⟨⟨line, word⟩, start, nonempty, stop⟩ := validTokens token member
      exact TextChange.edited_stored_iff validChange start nonempty line word stop
    · intro token _
      simpa [TextChange.edited] using TextChange.isSome_deleted token
  rw [follows]
  refine ⟨And.right, fun fine => ⟨?_, fine⟩⟩
  have images := follows.mpr fine
  rw [wellFormed_iff]
  constructor
  · intro token' member
    have isFirst : block'.startLineNumber = change.firstLine block.startLineNumber := by
      rcases isFirst with isEmpty | isFirst
      · simp [placed, isEmpty] at member
      · exact isFirst
    have isStored := member
    rw [placed'] at isStored
    rw [images] at member
    obtain ⟨token, inTokens, becomes⟩ := mem_filterMap.mp member
    obtain ⟨-, nonneg, nonempty, -⟩ := validTokens token inTokens
    obtain ⟨nonneg', nonempty'⟩ :=
      TextChange.image_valid validChange nonneg nonempty (fine token inTokens).1.2 becomes
    obtain ⟨other, -, isEdited⟩ := mem_filterMap.mp isStored
    obtain ⟨left, -, rfl⟩ := Option.map_eq_some_iff.mp isEdited
    obtain ⟨lines, stops⟩ := PlacedToken.stored_words (change.firstLine block.startLineNumber)
      (change.inserted (left.stored (change.firstLeft block.startLineNumber)))
    rw [isFirst]
    exact ⟨lines, nonneg', nonempty', stops⟩
  · rw [images, pairwise_filterMap]
    refine sorted.imp_of_mem fun {a b} inA inB before a' becomesA b' becomesB => ?_
    exact TextChange.image_before validChange before (validTokens a inA).2.2.1
      (validTokens b inB).2.2.1 (fine a inA).1.2 (fine b inB).1.2 becomesA becomesB

/-- Two lines above a block are deleted together with its first three characters. -/
theorem acceptEdit_follows_deletion :
    let block := create 3 [⟨0, 4, 6, 1⟩, ⟨1, 0, 2, 1⟩]
    let range : Range := ⟨1, 3, 3, 4⟩
    let change := TextChange.ofEdit range 0 0 0 0
    ∃ block', block.acceptEdit range 0 0 0 0 = .ok block' ∧
      (WellFormed block'.tokens ∧ block'.placed = block.placed.filterMap change.image ↔
        ∀ token ∈ block.placed, change.Fine block.startLineNumber token ∧
          change.Fits block.startLineNumber token) :=
  acceptEdit_follows (create 3 [⟨0, 4, 6, 1⟩, ⟨1, 0, 2, 1⟩])
    ⟨by decide, by decide, by simp [create, SparseToken.Before]⟩ ⟨1, 3, 3, 4⟩
    ⟨by decide, by decide, by decide⟩ 0 0 0 0

/-- The line break in front of a block is deleted, and its first token is not shifted; a letter is
typed where a token ends and another starts, and the tokens overlap. -/
theorem acceptEdit_loses_text :
    (∃ block', (create 2 [⟨0, 0, 3, 1⟩]).acceptEdit ⟨1, 5, 2, 1⟩ 0 0 0 0 = .ok block' ∧
      block'.placed = [⟨1, 0, 3, 1⟩] ∧
      (create 2 [⟨0, 0, 3, 1⟩]).placed.filterMap
        (TextChange.ofEdit ⟨1, 5, 2, 1⟩ 0 0 0 0).image = [⟨1, 4, 7, 1⟩]) ∧
    ∃ block', (create 1 [⟨0, 0, 2, 1⟩, ⟨0, 2, 5, 2⟩]).acceptEdit ⟨1, 3, 1, 3⟩ 0 1 1 97 =
        .ok block' ∧
      block'.placed = [⟨1, 0, 3, 1⟩, ⟨1, 2, 5, 2⟩] ∧ ¬ WellFormed block'.tokens := by
  refine ⟨⟨_, rfl, by decide, by decide⟩, ⟨1, 1, [⟨0, 0, 3, 1⟩, ⟨0, 2, 5, 2⟩]⟩, by decide,
    by decide, ?_⟩
  intro wellFormed
  have overlap : SparseToken.Before ⟨0, 0, 3, 1⟩ ⟨0, 2, 5, 2⟩ :=
    rel_of_pairwise_cons wellFormed.sorted (.head _)
  simp [SparseToken.Before] at overlap

end SparseMultilineTokens

end CodeEditor.Tokens
