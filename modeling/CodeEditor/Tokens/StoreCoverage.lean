import CodeEditor.Tokens.LineCells

/-!
# A store of tokens beside its document

Every entry of a store with tokens covers its line, in every run of edits and of tokens that
are set, as long as no edit joins text of a line with the entry `EMPTY_LINE_TOKENS` and tokens.
-/

namespace CodeEditor.Tokens

open Edits ContiguousTokensEditing ContiguousTokensStore List

/-- The entries of a store are entries of the lines of a document, and cover them. -/
structure Covered (doc : List (List Cell)) (store : ContiguousTokensStore) : Prop where
  length_le : store.lineTokens.length ≤ doc.length
  entry : ∀ (i : Nat) line entry, doc[i]? = some line → store.lineTokens[i]? = some entry →
    EntryCovers line entry

/-! ## Conditions on steps -/

/-- No token but the last one reaches the end of the line, or the entry becomes
`EMPTY_LINE_TOKENS`. -/
def SetsWell (topLevelLanguageId : UInt32) (lineTextLength : Nat) (tokens : Option (List Token)) :
    Prop :=
  (lineTextLength = 0 ∧ hasDifferentLanguageId topLevelLanguageId tokens = false) ∨
    ∀ list ∈ tokens, ∀ token ∈ list.dropLast, token.1 < lineTextLength

/-- Where a range joins two lines that have entries: no text stays beside `EMPTY_LINE_TOKENS` if
tokens stay in the other line, and behind tokens no token of no length begins the last line. -/
structure JoinsWell (range : Range) (first last : List Cell)
    (firstEntry lastEntry : LineEntry) : Prop where
  of_empty : firstEntry = .empty →
    KeepsTokens lastEntry (last.length - (range.endColumn - 1)) (range.endColumn - 1) →
    range.startColumn - 1 = 0
  of_tokens_empty :
    KeepsTokens firstEntry (range.startColumn - 1) (first.length - (range.startColumn - 1)) →
    lastEntry = .empty → last.length - (range.endColumn - 1) = 0
  of_tokens :
    KeepsTokens firstEntry (range.startColumn - 1) (first.length - (range.startColumn - 1)) →
    KeepsTokens lastEntry (last.length - (range.endColumn - 1)) (range.endColumn - 1) →
    ∀ tokens, lastEntry = .tokens tokens → ∀ token ∈ tokens.head?, 0 < token.1

/-- The condition on an edit. -/
def EditsWell (doc : List (List Cell)) (store : ContiguousTokensStore) (range : Range) : Prop :=
  range.startLineNumber < range.endLineNumber → ∀ first last firstEntry lastEntry,
    doc[range.startLineNumber - 1]? = some first → doc[range.endLineNumber - 1]? = some last →
    store.lineTokens[range.startLineNumber - 1]? = some firstEntry →
    store.lineTokens[range.endLineNumber - 1]? = some lastEntry →
    JoinsWell range first last firstEntry lastEntry

/-! ## Edits in two steps -/

/-- The range in front of the character at the start of a range. -/
def startOf (range : Range) : Range :=
  ⟨range.startLineNumber, range.startColumn, range.startLineNumber, range.startColumn⟩

theorem getElem?_replace {α : Type} {list middle : List α} {first : Nat}
    (inside : first ≤ list.length) (behind i : Nat) :
    (list.take first ++ middle ++ list.drop behind)[i]? =
      if i < first then list[i]?
      else if i < first + middle.length then middle[i - first]?
      else list[i - (first + middle.length) + behind]? := by
  have front : (list.take first).length = first := by rw [length_take, min_eq_left inside]
  by_cases before : i < first
  · rw [if_pos before, append_assoc, getElem?_append_left (by omega), getElem?_take_of_lt before]
  · rw [if_neg before]
    by_cases isNew : i < first + middle.length
    · rw [if_pos isNew, getElem?_append_left (by rw [length_append]; omega),
        getElem?_append_right (by omega), front]
    · rw [if_neg isNew, getElem?_append_right (by rw [length_append]; omega),
        length_append, front, getElem?_drop, Nat.add_comm]

variable {doc : List (List Cell)} {store : ContiguousTokensStore} {range : Range}

theorem getD_eq_of_getElem? {i : Nat} (isLine : doc[i]? = some line) : doc.getD i [] = line := by
  rw [getD_eq_getElem?_getD, isLine, Option.getD_some]

/-- What a valid range says of the cells. -/
structure IsCellRange (doc : List (List Cell)) (range : Range) (first last : List Cell) :
    Prop where
  startLine_pos : 1 ≤ range.startLineNumber
  lines_ordered : range.startLineNumber ≤ range.endLineNumber
  endLine_le : range.endLineNumber ≤ doc.length
  isFirst : doc[range.startLineNumber - 1]? = some first
  isLast : doc[range.endLineNumber - 1]? = some last
  start_le : range.startColumn - 1 ≤ first.length
  stop_le : range.endColumn - 1 ≤ last.length
  columns_ordered : range.startLineNumber = range.endLineNumber →
    range.startColumn - 1 ≤ range.endColumn - 1

theorem isCellRange_of_valid (valid : IsValidRange (doc.map textOf) range) :
    ∃ first last, IsCellRange doc range first last := by
  have ordered := valid.lines_ordered
  have bound := valid.endLine_le
  have positive := valid.startLine_pos
  have startLe := valid.startColumn_le
  have stopLe := valid.endColumn_le
  rw [length_map] at bound
  rw [lineContent_map_textOf, length_textOf] at startLe stopLe
  have isFirst : doc[range.startLineNumber - 1]? = some doc[range.startLineNumber - 1] :=
    getElem?_eq_getElem (by omega)
  have isLast : doc[range.endLineNumber - 1]? = some doc[range.endLineNumber - 1] :=
    getElem?_eq_getElem (by omega)
  rw [getD_eq_of_getElem? isFirst] at startLe
  rw [getD_eq_of_getElem? isLast] at stopLe
  refine ⟨_, _, positive, ordered, bound, isFirst, isLast, by omega, by omega, ?_⟩
  intro same
  have columns := valid.columns_ordered same
  omega

theorem replaceCells_nil (cells : IsCellRange doc range first last) :
    replaceCells doc range [] = doc.take (range.startLineNumber - 1) ++
      [first.take (range.startColumn - 1) ++ last.drop (range.endColumn - 1)] ++
      doc.drop range.endLineNumber := by
  unfold replaceCells
  rw [getD_eq_of_getElem? cells.isFirst, getD_eq_of_getElem? cells.isLast]
  simp [splitLines, fresh, prependFirst, appendLast]

/-- Replacing a range is deleting its text and inserting the new text. -/
theorem replaceCells_eq (cells : IsCellRange doc range first last) (text : Text) :
    replaceCells doc range text =
      replaceCells (replaceCells doc range []) (startOf range) text := by
  have positive := cells.startLine_pos
  have ordered := cells.lines_ordered
  have bound := cells.endLine_le
  have front : (doc.take (range.startLineNumber - 1)).length = range.startLineNumber - 1 := by
    rw [length_take]
    omega
  have before : (first.take (range.startColumn - 1)).length = range.startColumn - 1 := by
    rw [length_take, min_eq_left cells.start_le]
  have isDeleted := replaceCells_nil cells
  generalize replaceCells doc range [] = deleted at isDeleted ⊢
  have line : deleted[range.startLineNumber - 1]? =
      some (first.take (range.startColumn - 1) ++ last.drop (range.endColumn - 1)) := by
    rw [isDeleted, append_assoc, getElem?_append_right (by omega), front, Nat.sub_self]
    rfl
  have isTake : deleted.take (range.startLineNumber - 1) =
      doc.take (range.startLineNumber - 1) := by
    rw [isDeleted, append_assoc, take_left' front]
  have isDrop : deleted.drop range.startLineNumber = doc.drop range.endLineNumber := by
    rw [isDeleted]
    apply drop_left'
    rw [length_append, front, length_singleton]
    omega
  unfold replaceCells startOf
  rw [getD_eq_of_getElem? line, getD_eq_of_getElem? cells.isFirst,
    getD_eq_of_getElem? cells.isLast, isTake, isDrop, take_left' before,
    drop_left' before]

/-! ## The steps -/

/-- Lines behind the last entry may be any. -/
theorem Covered.outside (covered : Covered doc store) {first : Nat} (bound : first ≤ doc.length)
    (outside : store.lineTokens.length ≤ first) (more : List (List Cell)) :
    Covered (doc.take first ++ more) store := by
  have front : (doc.take first).length = first := by rw [List.length_take, min_eq_left bound]
  refine ⟨by rw [List.length_append]; omega, ?_⟩
  intro i line entry isLine isEntry
  have inside := (List.getElem?_eq_some_iff.mp isEntry).1
  rw [List.getElem?_append_left (by omega), List.getElem?_take_of_lt (by omega)] at isLine
  exact covered.entry i line entry isLine isEntry

/-- Lines and their entries are replaced together. -/
theorem Covered.splice (covered : Covered doc store) (first behind : Nat)
    {lines : List (List Cell)} {entries : List LineEntry} (inside : first ≤ store.lineTokens.length)
    (bound : behind ≤ doc.length) (covers : List.Forall₂ EntryCovers lines entries) :
    Covered (doc.take first ++ lines ++ doc.drop behind)
      ⟨store.lineTokens.take first ++ entries ++ store.lineTokens.drop behind⟩ := by
  have lengthLe := covered.length_le
  have sameLength := covers.length_eq
  refine ⟨by simp only [List.length_append, List.length_take, List.length_drop]; omega, ?_⟩
  intro i line entry isLine isEntry
  rw [getElem?_replace (by omega)] at isLine
  rw [getElem?_replace inside, ← sameLength] at isEntry
  split_ifs at isLine isEntry with before isNew
  · exact covered.entry i line entry isLine isEntry
  · obtain ⟨lt, rfl⟩ := List.getElem?_eq_some_iff.mp isLine
    obtain ⟨lt', rfl⟩ := List.getElem?_eq_some_iff.mp isEntry
    exact (List.forall₂_iff_get.mp covers).2 _ lt lt'
  · exact covered.entry _ line entry isLine isEntry

/-- A line between the lines in front of it and behind it. -/
theorem take_append_line_drop {i : Nat} (isLine : doc[i]? = some line) :
    doc.take i ++ [line] ++ doc.drop (i + 1) = doc := by
  obtain ⟨inside, rfl⟩ := List.getElem?_eq_some_iff.mp isLine
  rw [List.append_assoc, List.singleton_append, ← List.drop_eq_getElem_cons inside,
    List.take_append_drop]

theorem modifyLine_eq {lineIndex : Nat} {entry : LineEntry}
    (isEntry : store.lineTokens[lineIndex]? = some entry) (change : LineEntry → LineEntry) :
    store.modifyLine lineIndex change = ⟨store.lineTokens.take lineIndex ++ [change entry] ++
      store.lineTokens.drop (lineIndex + 1)⟩ := by
  obtain ⟨inside, rfl⟩ := List.getElem?_eq_some_iff.mp isEntry
  unfold modifyLine
  rw [List.modify_eq_take_cons_drop inside, List.append_assoc, List.singleton_append]

/-- The entries up to a changed one. -/
theorem take_modifyLine {lineIndex next : Nat} {entry : LineEntry}
    (isEntry : store.lineTokens[lineIndex]? = some entry) (isNext : lineIndex + 1 = next)
    (change : LineEntry → LineEntry) :
    (store.modifyLine lineIndex change).lineTokens.take next =
      store.lineTokens.take lineIndex ++ [change entry] := by
  have inside := (List.getElem?_eq_some_iff.mp isEntry).1
  rw [modifyLine_eq isEntry]
  exact List.take_left' (by simp; omega)

theorem drop_modifyLine {lineIndex behind : Nat} (isBehind : lineIndex < behind)
    (change : LineEntry → LineEntry) :
    (store.modifyLine lineIndex change).lineTokens.drop behind = store.lineTokens.drop behind := by
  unfold modifyLine
  rw [drop_modify_of_lt _ _ _ _ isBehind]

theorem acceptDeleteRange_covered
    (cells : IsCellRange doc range first last) (covered : Covered doc store)
    (well : EditsWell doc store range) :
    Covered (replaceCells doc range []) (store.acceptDeleteRange range) := by
  have positive := cells.startLine_pos
  have ordered := cells.lines_ordered
  have bound := cells.endLine_le
  have isBehind : range.startLineNumber - 1 + 1 = range.startLineNumber := by omega
  rw [replaceCells_nil cells]
  unfold acceptDeleteRange
  dsimp only
  by_cases outside : range.startLineNumber - 1 ≥ store.lineTokens.length
  · -- the store has no entry for a line of the range
    rw [if_pos outside, append_assoc]
    exact covered.outside (by omega) outside _
  · rw [if_neg outside]
    obtain ⟨firstEntry, isFirstEntry⟩ : ∃ entry,
        store.lineTokens[range.startLineNumber - 1]? = some entry :=
      ⟨_, getElem?_eq_getElem (by omega)⟩
    have firstCovers := covered.entry _ _ _ cells.isFirst isFirstEntry
    by_cases oneLine : range.startLineNumber = range.endLineNumber
    · rw [if_pos oneLine]
      obtain rfl : first = last := by
        have isLast := cells.isLast
        rw [← oneLine, cells.isFirst] at isLast
        exact Option.some.inj isLast
      have deleted := covered.splice (range.startLineNumber - 1) range.endLineNumber (by omega)
        bound (.cons (delete_covers firstCovers (cells.columns_ordered oneLine) cells.stop_le) .nil)
      rw [← oneLine, ← isBehind, Nat.add_sub_cancel] at deleted ⊢
      by_cases nothing : range.startColumn = range.endColumn
      · rwa [if_pos nothing, nothing, take_append_drop, take_append_line_drop cells.isFirst]
      · rw [if_neg nothing, modifyLine_eq isFirstEntry]
        exact deleted
    · -- the rest of the last line is appended to the rest of the first line
      rw [if_neg oneLine]
      have joined : EntryCovers
          (first.take (range.startColumn - 1) ++ last.drop (range.endColumn - 1))
          (append (deleteEnding firstEntry (range.startColumn - 1))
            (if range.endLineNumber - 1 < store.lineTokens.length then
              deleteBeginning (store.lineTokens.getD (range.endLineNumber - 1) .null)
                (range.endColumn - 1)
            else .null)) := by
        have left := deleteEnding_covers firstCovers cells.start_le
        by_cases hasLast : range.endLineNumber - 1 < store.lineTokens.length
        · obtain ⟨lastEntry, isLastEntry⟩ : ∃ entry,
              store.lineTokens[range.endLineNumber - 1]? = some entry :=
            ⟨_, getElem?_eq_getElem hasLast⟩
          have lastCovers := covered.entry _ _ _ cells.isLast isLastEntry
          have joins := well (by omega) first last firstEntry lastEntry cells.isFirst cells.isLast
            isFirstEntry isLastEntry
          rw [if_pos hasLast, getD_eq_getElem?_getD, isLastEntry, Option.getD_some]
          exact append_covers left (deleteBeginning_covers lastCovers cells.stop_le)
            (appendsWell_of_keeps firstCovers lastCovers cells.start_le cells.stop_le
              joins.of_empty joins.of_tokens_empty joins.of_tokens)
        · rw [if_neg hasLast]
          cases deleteEnding firstEntry (range.startColumn - 1) <;> trivial
      have spliced := covered.splice (range.startLineNumber - 1) range.endLineNumber (by omega)
        bound (.cons joined .nil)
      unfold deleteLines
      rwa [Nat.add_sub_cancel' ordered, take_modifyLine isFirstEntry isBehind,
        drop_modifyLine (by omega)]

/-- The lines that stand for a line after a text is inserted into it. -/
def insertedLines (line : List Cell) (column : Nat) (text : Text) : List (List Cell) :=
  appendLast (line.drop (column - 1))
    (prependFirst (line.take (column - 1)) ((splitLines text).map fresh))

/-- A text of one line continues the line; the first line of another text ends it. -/
theorem insertedLines_eq (line : List Cell) (column : Nat) (text : Text) :
    ∃ more, more.length = (countEOL text).1 ∧ insertedLines line column text =
      (line.take (column - 1) ++ fresh ((splitLines text).headD []) ++
        if (countEOL text).1 = 0 then line.drop (column - 1) else []) :: more := by
  have count := eolCount_add_one text
  unfold insertedLines
  cases lines : splitLines text with
  | nil => exact absurd lines (splitLines_ne_nil text)
  | cons head more =>
    rw [lines, length_cons] at count
    cases more with
    | nil =>
      rw [if_pos (by simpa using count)]
      exact ⟨[], (Nat.succ.inj count).symm, by simp [prependFirst, appendLast]⟩
    | cons next more =>
      rw [if_neg (by simp only [length_cons] at count; omega)]
      refine ⟨appendLast (line.drop (column - 1)) ((next :: more).map fresh), ?_,
        by simp [prependFirst, appendLast]⟩
      rw [length_appendLast _ (by simp), length_map]
      omega

theorem acceptInsertText_covered {lineNumber column : Nat}
    (positive : 1 ≤ lineNumber) (isLine : doc[lineNumber - 1]? = some line)
    (bound : column - 1 ≤ line.length) (covered : Covered doc store) (text : Text) :
    Covered (replaceCells doc ⟨lineNumber, column, lineNumber, column⟩ text)
      (store.acceptInsertText lineNumber column (countEOL text).1 (countEOL text).2.1) := by
  have inside := (List.getElem?_eq_some_iff.mp isLine).1
  have isBehind : lineNumber - 1 + 1 = lineNumber := by omega
  have isDoc : replaceCells doc ⟨lineNumber, column, lineNumber, column⟩ text =
      doc.take (lineNumber - 1) ++ insertedLines line column text ++ doc.drop lineNumber := by
    unfold replaceCells insertedLines
    rw [getD_eq_of_getElem? isLine]
  obtain ⟨more, count, isInserted⟩ := insertedLines_eq line column text
  rw [isDoc, firstLineLength_countEOL, isInserted]
  generalize (splitLines text).headD [] = head
  generalize (countEOL text).1 = eolCount at *
  unfold acceptInsertText
  by_cases nothing : eolCount = 0 ∧ head.length = 0
  · -- the text is empty
    obtain ⟨rfl, isEmpty⟩ := nothing
    obtain rfl := List.length_eq_zero_iff.mp isEmpty
    obtain rfl := List.length_eq_zero_iff.mp count
    rw [if_pos rfl, ← isBehind, Nat.add_sub_cancel]
    have same : line.take (column - 1) ++ fresh [] ++ line.drop (column - 1) = line := by
      simp [fresh]
    rwa [same, take_append_line_drop isLine]
  · rw [if_neg nothing]
    by_cases outside : lineNumber - 1 ≥ store.lineTokens.length
    · rw [if_pos outside, List.append_assoc]
      exact covered.outside (by omega) outside _
    · rw [if_neg outside]
      obtain ⟨lineEntry, isLineEntry⟩ : ∃ entry, store.lineTokens[lineNumber - 1]? = some entry :=
        ⟨_, List.getElem?_eq_getElem (by omega)⟩
      have lineCovers := covered.entry _ _ _ isLine isLineEntry
      by_cases oneLine : eolCount = 0
      · rw [if_pos oneLine, if_pos oneLine]
        obtain rfl := List.length_eq_zero_iff.mp (count.trans oneLine)
        have inserted := covered.splice (lineNumber - 1) (lineNumber - 1 + 1) (by omega) inside
          (.cons (insert_covers lineCovers bound head) .nil)
        rw [modifyLine_eq isLineEntry, ← isBehind]
        exact inserted
      · rw [if_neg oneLine, if_neg oneLine, List.append_nil]
        -- the end of the line is cut off, and the lines of the text have no entries
        have endingLength : column - 1 ≤ (line.take (column - 1)).length := by
          rw [List.length_take, min_eq_left bound]
        have inserted := insert_covers (deleteEnding_covers lineCovers bound) endingLength head
        rw [List.take_of_length_le (by rw [List.length_take]; omega),
          List.drop_of_length_le (by rw [List.length_take]; omega), List.append_nil] at inserted
        have unset : List.Forall₂ EntryCovers more (List.replicate eolCount .null) := by
          refine List.forall₂_iff_get.mpr ⟨by rw [List.length_replicate, count], ?_⟩
          intro i _ _
          simp [EntryCovers]
        have spliced := covered.splice (lineNumber - 1) lineNumber (by omega) (by omega)
          (.cons inserted unset)
        unfold insertLines
        rw [take_modifyLine isLineEntry isBehind, drop_modifyLine (by omega)]
        simpa using spliced

theorem acceptEdit_covered (covered : Covered doc store)
    (valid : IsValidRange (doc.map textOf) range) (well : EditsWell doc store range)
    (text : Text) :
    Covered (replaceCells doc range text)
      (store.acceptEdit range (countEOL text).1 (countEOL text).2.1) := by
  obtain ⟨first, last, cells⟩ := isCellRange_of_valid valid
  have positive := cells.startLine_pos
  have ordered := cells.lines_ordered
  have bound := cells.endLine_le
  have deleted := acceptDeleteRange_covered cells covered well
  have before : (first.take (range.startColumn - 1)).length = range.startColumn - 1 := by
    rw [length_take, min_eq_left cells.start_le]
  have isLine : (replaceCells doc range [])[range.startLineNumber - 1]? =
      some (first.take (range.startColumn - 1) ++ last.drop (range.endColumn - 1)) := by
    rw [replaceCells_nil cells, getElem?_replace (by omega), if_neg (by omega),
      length_singleton, if_pos (by omega), Nat.sub_self]
    rfl
  rw [replaceCells_eq cells]
  exact acceptInsertText_covered positive isLine
    (by rw [length_append, before]; exact Nat.le_add_right _ _) deleted text

end Tokens
end CodeEditor

/-!
## Runs of a token store

Edits of a document and tokens that are set for its lines, in any order.
-/

namespace CodeEditor
namespace Tokens

open Edits ContiguousTokensEditing ContiguousTokensStore List Nat

/-- Documents and stores that are reached by edits that are allowed, and by tokens that are
allowed for the length of a line. -/
inductive RunsTo (sets : UInt32 → Nat → Option (List Token) → Prop)
    (edits : List (List Cell) → ContiguousTokensStore → Range → Prop) :
    List (List Cell) → ContiguousTokensStore → Prop
  | start {lines : List Text} : IsDocument lines → RunsTo sets edits (lines.map fresh) ⟨[]⟩
  | setTokens {doc store} {lineIndex : Nat} {line languageId tokens} (checkEquality : Bool) :
      RunsTo sets edits doc store → doc[lineIndex]? = some line →
      (∀ list ∈ tokens, list.Pairwise fun a b => a.1 < b.1) →
      sets languageId line.length tokens →
      RunsTo sets edits
        (doc.modify lineIndex (remember (massageTokens languageId line.length tokens)))
        (store.setTokens languageId lineIndex line.length tokens checkEquality).2
  | acceptEdit {doc store range} (text : Text) : RunsTo sets edits doc store →
      IsValidRange (doc.map textOf) range → edits doc store range →
      RunsTo sets edits (replaceCells doc range text)
        (store.acceptEdit range (countEOL text).1 (countEOL text).2.1)

/-! ## Setting tokens -/

/-- The metadata of an entry is what the characters of its line remember. -/
theorem remember_covers {line : List Cell} {tokens : List Token} (rising : Rising 0 tokens)
    (nonempty : tokens ≠ []) (length : stopOf 0 tokens = line.length) :
    EntryCovers (remember (.tokens tokens) line) (.tokens tokens) := by
  refine ⟨rising, nonempty, ?_⟩
  rw [forall₂_iff_get]
  unfold remember
  have lengths : line.length = (expand tokens).length := by rw [rising.length_expand, length]
  refine ⟨by simpa using lengths, ?_⟩
  intro i inLine inTokens
  have isMetadata := getElem?_expand rising nonempty
    (show i < stopOf 0 tokens by rw [← rising.length_expand]; exact inTokens)
  rw [getElem?_eq_getElem inTokens] at isMetadata
  intro old isOld
  simp only [get_eq_getElem, getElem_mapIdx, Option.mem_some_iff] at isOld ⊢
  rw [← isOld, Option.some.inj isMetadata]

variable {tokens : Option (List Token)}

theorem massageTokens_covers {line : List Cell}
    (increasing : ∀ list ∈ tokens, list.Pairwise fun a b => a.1 < b.1)
    (well : SetsWell languageId line.length tokens) :
    EntryCovers (remember (massageTokens languageId line.length tokens) line)
      (massageTokens languageId line.length tokens) := by
  have default : ∀ metadata : UInt32,
      EntryCovers (remember (.tokens [(line.length, metadata)]) line)
        (.tokens [(line.length, metadata)]) := by
    intro metadata
    exact remember_covers (rising_cons.mpr ⟨zero_le _, rising_nil _⟩) (by simp) rfl
  unfold massageTokens
  by_cases isEmpty : line.length = 0 ∧ hasDifferentLanguageId languageId tokens = false
  · rw [if_pos isEmpty]
    trivial
  · rw [if_neg isEmpty]
    have inside := well.resolve_left isEmpty
    cases tokens with
    | none => exact default _
    | some list =>
      cases list with
      | nil => exact default _
      | cons token rest =>
        have low := inside _ rfl
        have rising : ((token :: rest).dropLast).Pairwise fun a b => a.1 < b.1 :=
          (increasing _ rfl).sublist (dropLast_sublist _)
        apply remember_covers
        · apply rising_append.mpr
          refine ⟨⟨fun _ _ => zero_le _, rising⟩, rising_cons.mpr ⟨zero_le _, rising_nil _⟩, ?_⟩
          intro a isFirst b isLast
          obtain rfl := mem_singleton.mp isLast
          exact low a isFirst
        · simp
        · rw [stopOf_append, stopOf_cons, stopOf_nil]

theorem ensureLine_covered (covered : Covered doc store) {lineIndex : Nat}
    (inside : lineIndex < doc.length) : Covered doc (store.ensureLine lineIndex) := by
  have lengthLe := covered.length_le
  unfold ensureLine
  refine ⟨by rw [length_append, length_replicate]; omega, ?_⟩
  intro i line entry isLine isEntry
  rw [getElem?_append, getElem?_replicate] at isEntry
  split_ifs at isEntry
  · exact covered.entry i line entry isLine isEntry
  · obtain rfl := Option.some.inj isEntry
    trivial

theorem setTokens_covered (covered : Covered doc store) {lineIndex : Nat}
    (isLine : doc[lineIndex]? = some line)
    (increasing : ∀ list ∈ tokens, list.Pairwise fun a b => a.1 < b.1)
    (well : SetsWell languageId line.length tokens) (checkEquality : Bool) :
    Covered (doc.modify lineIndex (remember (massageTokens languageId line.length tokens)))
      (store.setTokens languageId lineIndex line.length tokens checkEquality).2 := by
  obtain ⟨inside, rfl⟩ := List.getElem?_eq_some_iff.mp isLine
  have hasEntry : lineIndex < (store.ensureLine lineIndex).lineTokens.length := by
    unfold ensureLine
    rw [List.length_append, List.length_replicate]
    omega
  unfold setTokens
  dsimp only
  rw [modifyLine_eq (List.getElem?_eq_getElem hasEntry), List.modify_eq_take_cons_drop inside,
    ← List.singleton_append, ← List.append_assoc]
  exact (ensureLine_covered covered inside).splice lineIndex (lineIndex + 1) hasEntry.le inside
    (.cons (massageTokens_covers increasing well) .nil)

/-! ## Runs -/

theorem covered_of_runsTo (runs : RunsTo SetsWell EditsWell doc store) : Covered doc store := by
  induction runs with
  | start => exact ⟨zero_le _, fun i line entry _ isEntry => by simp at isEntry⟩
  | setTokens checkEquality _ isLine increasing well ih =>
    exact setTokens_covered ih isLine increasing well checkEquality
  | acceptEdit text _ valid well ih =>
    exact acceptEdit_covered ih valid well text

/-- Token arrays have increasing end offsets up to the length of their line, and the characters
have the metadata they had when the tokens of their line were set. -/
theorem tokens_cover_lines {doc : List (List Cell)} {store : ContiguousTokensStore}
    (runs : RunsTo SetsWell EditsWell doc store) :
    store.lineTokens.length ≤ doc.length ∧
      ∀ (i : Nat) (cells : List Cell) (tokens : List Token), doc[i]? = some cells →
        store.lineTokens[i]? = some (.tokens tokens) →
        (tokens ≠ [] ∧ tokens.Pairwise fun a b => a.1 < b.1) ∧
        lastEndOffset tokens = cells.length ∧
        ∀ (offset : Nat) (cell : Cell) (metadata : UInt32), cells[offset]? = some cell →
          cell.2 = some metadata → metadataAt tokens offset = metadata := by
  have covered := covered_of_runsTo runs
  refine ⟨covered.length_le, ?_⟩
  intro i cells tokens isLine isTokens
  have covers := covered.entry i cells _ isLine isTokens
  have length := covers.length
  obtain ⟨rising, nonempty, carries⟩ := covers
  refine ⟨⟨nonempty, rising.2⟩, by rw [lastEndOffset_eq, length], ?_⟩
  intro offset cell metadata isCell remembers
  obtain ⟨inside, isElement⟩ := List.getElem?_eq_some_iff.mp isCell
  have isMetadata := getElem?_expand rising nonempty (by rwa [← length])
  obtain ⟨inTokens, isHere⟩ := List.getElem?_eq_some_iff.mp isMetadata
  have same := (List.forall₂_iff_get.mp carries).2 offset inside inTokens
  rw [List.get_eq_getElem, List.get_eq_getElem, isElement, isHere] at same
  exact (same metadata remembers).symm

/-! ## Text typed into an empty line -/

/-- A character is typed into an empty line, and the line is joined with the next one: the joined
line has the tokens of the next line alone. -/
theorem joined_tokens_too_short :
    RunsTo (fun _ _ _ => True) (fun _ _ _ => True) [[(98, none), (97, some (getDefaultMetadata 1))]]
        ⟨[.tokens [(1, getDefaultMetadata 1)]]⟩ ∧
      lastEndOffset [(1, getDefaultMetadata 1)] ≠
        [((98 : CodeUnit), none), (97, some (getDefaultMetadata 1))].length := by
  constructor
  · have start : RunsTo (fun _ _ _ => True) (fun _ _ _ => True)
        [[], [((97 : CodeUnit), none)]] ⟨[]⟩ :=
      RunsTo.start (show IsDocument [[], [97]] from ⟨by decide, by decide⟩)
    have second : RunsTo (fun _ _ _ => True) (fun _ _ _ => True)
        [[], [((97 : CodeUnit), some (getDefaultMetadata 1))]]
        ⟨[.null, .tokens [(1, getDefaultMetadata 1)]]⟩ :=
      @RunsTo.setTokens _ _ _ _ 1 _ 1 none false start rfl (by simp) trivial
    have first : RunsTo (fun _ _ _ => True) (fun _ _ _ => True)
        [[], [((97 : CodeUnit), some (getDefaultMetadata 1))]]
        ⟨[.empty, .tokens [(1, getDefaultMetadata 1)]]⟩ :=
      @RunsTo.setTokens _ _ _ _ 0 _ 1 none false second rfl (by simp) trivial
    have typed : RunsTo (fun _ _ _ => True) (fun _ _ _ => True)
        [[((98 : CodeUnit), none)], [((97 : CodeUnit), some (getDefaultMetadata 1))]]
        ⟨[.empty, .tokens [(1, getDefaultMetadata 1)]]⟩ :=
      @RunsTo.acceptEdit _ _ _ _ ⟨1, 1, 1, 1⟩ [98] first (by decide) trivial
    exact @RunsTo.acceptEdit _ _ _ _ ⟨1, 2, 2, 1⟩ [] typed (by decide) trivial
  · decide

/-- A character is typed between two tokens. -/
theorem tokens_cover_lines_sample :
    lastEndOffset [(2, 5), (3, 6)] = 3 ∧ metadataAt [(2, 5), (3, 6)] 2 = 6 := by
  have start : RunsTo SetsWell EditsWell [[((97 : CodeUnit), none), (98, none)]] ⟨[]⟩ :=
    RunsTo.start (show IsDocument [[97, 98]] from ⟨by decide, by decide⟩)
  have set : RunsTo SetsWell EditsWell [[((97 : CodeUnit), some 5), (98, some 6)]]
      ⟨[.tokens [(1, 5), (2, 6)]]⟩ :=
    @RunsTo.setTokens _ _ _ _ 0 _ 1 (some [(1, 5), (2, 6)]) false start rfl (by simp)
      (.inr (by simp))
  have typed : RunsTo SetsWell EditsWell [[((97 : CodeUnit), some 5), (99, none), (98, some 6)]]
      ⟨[.tokens [(2, 5), (3, 6)]]⟩ :=
    @RunsTo.acceptEdit _ _ _ _ ⟨1, 2, 1, 2⟩ [99] set (by decide)
      fun several => absurd several (by decide)
  obtain ⟨-, length, carried⟩ := (tokens_cover_lines typed).2 0 _ _ rfl rfl
  exact ⟨length, carried 2 _ 6 rfl rfl⟩

end CodeEditor.Tokens
