import CodeEditor.Tokens.Coverage
import CodeEditor.Tokens.Document

/-!
# Characters with their metadata

A document whose characters remember the metadata they had when the tokens of their line were
set last. The operations on the tokens of a line keep what the remaining characters remember.
-/

namespace CodeEditor.Tokens

open Edits ContiguousTokensEditing List

/-- A character, and the metadata it had when the tokens of its line were set last; a character
that was inserted since then has none. -/
abbrev Cell := CodeUnit × Option UInt32

def textOf (line : List Cell) : Text := line.map (·.1)

/-- The characters of an inserted text. -/
def fresh (text : Text) : List Cell := text.map fun unit => (unit, none)

/-- The document with the text of a range replaced. -/
def replaceCells (doc : List (List Cell)) (range : Range) (text : Text) : List (List Cell) :=
  doc.take (range.startLineNumber - 1) ++
    appendLast ((doc.getD (range.endLineNumber - 1) []).drop (range.endColumn - 1))
      (prependFirst ((doc.getD (range.startLineNumber - 1) []).take (range.startColumn - 1))
        ((splitLines text).map fresh)) ++
    doc.drop range.endLineNumber

/-- The characters of a line after its tokens have been set. -/
def remember (entry : LineEntry) (line : List Cell) : List Cell :=
  match entry with
  | .tokens tokens => line.mapIdx fun i cell => (cell.1, some (metadataAt tokens i))
  | _ => line

/-! ## The text of the cells -/

@[simp] theorem length_textOf (line : List Cell) : (textOf line).length = line.length :=
  length_map _

theorem lineContent_map_textOf (doc : List (List Cell)) (lineNumber : Nat) :
    lineContent (doc.map textOf) lineNumber = textOf (doc.getD (lineNumber - 1) []) := by
  unfold lineContent
  rw [getD_eq_getElem?_getD, getD_eq_getElem?_getD, getElem?_map]
  cases doc[lineNumber - 1]? <;> rfl

/-! ## Tokens that cover a line -/

/-- The metadata is the one that the character remembers. -/
def Carries (cell : Cell) (metadata : UInt32) : Prop := ∀ old ∈ cell.2, old = metadata

/-- Token arrays cover their line, with the metadata that the characters remember. -/
def EntryCovers (line : List Cell) : LineEntry → Prop
  | .tokens tokens =>
    Rising 0 tokens ∧ tokens ≠ [] ∧ List.Forall₂ Carries line (expand tokens)
  | _ => True

theorem carries_fresh (text : Text) (metadata : UInt32) :
    List.Forall₂ Carries (fresh text) (List.replicate text.length metadata) := by
  induction text with
  | nil => exact .nil
  | cons unit text ih =>
    refine .cons ?_ ih
    intro old isOld
    cases isOld

theorem EntryCovers.length
    (covers : EntryCovers line (.tokens tokens)) : line.length = stopOf 0 tokens := by
  rw [← covers.1.length_expand]
  exact covers.2.2.length_eq

variable {entry : LineEntry}

theorem delete_covers (covers : EntryCovers line entry) {fromCh toCh : Nat}
    (ordered : fromCh ≤ toCh) (bound : toCh ≤ line.length) :
    EntryCovers (line.take fromCh ++ line.drop toCh) (delete entry fromCh toCh) := by
  cases entry with
  | null => trivial
  | empty => trivial
  | tokens tokens =>
    have length := covers.length
    obtain ⟨rising, nonempty, carries⟩ := covers
    by_cases same : fromCh = toCh
    · subst same
      unfold delete
      rw [take_append_drop]
      simp only [if_true]
      exact ⟨rising, nonempty, carries⟩
    · by_cases all : fromCh = 0 ∧ stopOf 0 tokens = toCh
      · unfold delete
        dsimp only
        rw [if_neg same, if_pos (by rwa [lastEndOffset_eq])]
        trivial
      · obtain ⟨remaining, isRemaining, remainingRising, _, expanded⟩ :=
          delete_runs rising nonempty (lt_of_le_of_ne ordered same) (by omega) all
        rw [isRemaining]
        have kept : List.Forall₂ Carries (line.take fromCh ++ line.drop toCh)
            (expand remaining) := by
          rw [expanded]
          exact rel_append (forall₂_take _ carries) (forall₂_drop _ carries)
        refine ⟨remainingRising, ?_, kept⟩
        rintro rfl
        have none := kept.length_eq
        simp only [length_append, length_take, length_drop] at none
        have empty : (expand ([] : List Token)).length = 0 := rfl
        omega

theorem deleteEnding_tokens (tokens : List Token) (fromCh : Nat) :
    deleteEnding (.tokens tokens) fromCh = delete (.tokens tokens) fromCh (stopOf 0 tokens) := by
  rw [← lastEndOffset_eq]
  rfl

theorem deleteEnding_covers (covers : EntryCovers line entry) {fromCh : Nat}
    (bound : fromCh ≤ line.length) :
    EntryCovers (line.take fromCh) (deleteEnding entry fromCh) := by
  cases entry with
  | null => trivial
  | empty => trivial
  | tokens tokens =>
    have length := covers.length
    have deleted := delete_covers covers bound (le_refl line.length)
    rw [drop_length, append_nil, length] at deleted
    rwa [deleteEnding_tokens]

theorem deleteBeginning_covers (covers : EntryCovers line entry) {toCh : Nat}
    (bound : toCh ≤ line.length) : EntryCovers (line.drop toCh) (deleteBeginning entry toCh) := by
  have deleted := delete_covers covers (Nat.zero_le toCh) bound
  rwa [take_zero, nil_append] at deleted

theorem insert_covers (covers : EntryCovers line entry) {index : Nat}
    (bound : index ≤ line.length) (text : Text) :
    EntryCovers (line.take index ++ fresh text ++ line.drop index)
      (ContiguousTokensEditing.insert entry index text.length) := by
  cases entry with
  | null => trivial
  | empty => trivial
  | tokens tokens =>
    have length := covers.length
    obtain ⟨rising, nonempty, carries⟩ := covers
    obtain ⟨inserted, metadata, isInserted, insertedRising, some, expanded⟩ :=
      insert_runs rising nonempty (length ▸ bound) text.length
    rw [isInserted]
    refine ⟨insertedRising, some, ?_⟩
    rw [expanded]
    exact rel_append (rel_append (forall₂_take _ carries)
      (carries_fresh text metadata)) (forall₂_drop _ carries)

/-- What has to hold of two entries whose lines are joined. -/
structure AppendsWell (first : List Cell) (firstEntry : LineEntry) (second : List Cell)
    (secondEntry : LineEntry) : Prop where
  of_empty : firstEntry = .empty → ∀ tokens, secondEntry = .tokens tokens → first = []
  of_tokens_empty : ∀ tokens, firstEntry = .tokens tokens → secondEntry = .empty → second = []
  of_tokens : ∀ tokens, firstEntry = .tokens tokens →
    ∀ others, secondEntry = .tokens others → Rising 1 others

theorem append_covers
    (firstCovers : EntryCovers first firstEntry) (secondCovers : EntryCovers second secondEntry)
    (well : AppendsWell first firstEntry second secondEntry) :
    EntryCovers (first ++ second) (append firstEntry secondEntry) := by
  cases firstEntry with
  | null => cases secondEntry <;> trivial
  | empty =>
    cases secondEntry with
    | null => trivial
    | empty => trivial
    | tokens tokens =>
      obtain rfl := well.of_empty rfl tokens rfl
      exact secondCovers
  | tokens tokens =>
    cases secondEntry with
    | null => trivial
    | empty =>
      obtain rfl := well.of_tokens_empty tokens rfl rfl
      rw [append_nil]
      exact firstCovers
    | tokens others =>
      have positive := well.of_tokens tokens rfl others rfl
      obtain ⟨rising, nonempty, carries⟩ := firstCovers
      obtain ⟨_, _, otherCarries⟩ := secondCovers
      unfold append
      simp only
      rw [lastEndOffset_eq]
      refine ⟨rising_append.mpr ⟨rising, (positive.add _).le (Nat.zero_le _), ?_⟩,
        by simp [nonempty],
        ?_⟩
      · intro t isFirst other member
        have low := rising.le_stopOf t isFirst
        have high := (positive.add (stopOf 0 tokens)).1 other member
        omega
      · have moved := expandFrom_add (stopOf 0 tokens) 0 others
        rw [Nat.zero_add] at moved
        unfold expand at carries otherCarries ⊢
        rw [expandFrom_append]
        unfold moveRuns at moved
        rw [moved]
        exact rel_append carries otherCarries

/-! ## What an entry keeps -/

/-- The entry has tokens, and not all of them are deleted with `deleted` characters of the line
if `kept` characters stay. -/
def KeepsTokens (entry : LineEntry) (kept deleted : Nat) : Prop :=
  (∃ tokens, entry = .tokens tokens) ∧ (0 < kept ∨ deleted = 0)

theorem delete_eq_empty (isEmpty : delete entry fromCh toCh = .empty) :
    entry = .empty ∨ (fromCh = 0 ∧ ∃ tokens, entry = .tokens tokens ∧ stopOf 0 tokens = toCh) := by
  cases entry with
  | null => cases isEmpty
  | empty => exact .inl rfl
  | tokens tokens =>
    right
    unfold delete at isEmpty
    dsimp only at isEmpty
    rw [lastEndOffset_eq] at isEmpty
    split_ifs at isEmpty with same all
    exact ⟨all.1, tokens, rfl, all.2⟩

theorem delete_eq_tokens (covers : EntryCovers line entry)
    (isTokens : delete entry fromCh toCh = .tokens tokens) (ordered : fromCh ≤ toCh)
    (bound : toCh ≤ line.length) :
    ∃ old, entry = .tokens old ∧ (0 < fromCh + (line.length - toCh) ∨ fromCh = toCh) ∧
      (Rising 1 old → Rising 1 tokens) := by
  cases entry with
  | null => cases isTokens
  | empty => cases isTokens
  | tokens old =>
    have length := covers.length
    obtain ⟨rising, nonempty, carries⟩ := covers
    refine ⟨old, rfl, ?_⟩
    by_cases same : fromCh = toCh
    · refine ⟨.inr same, ?_⟩
      unfold delete at isTokens
      dsimp only at isTokens
      rw [if_pos same] at isTokens
      obtain rfl := LineEntry.tokens.inj isTokens
      exact fun positive => positive
    · by_cases all : fromCh = 0 ∧ stopOf 0 old = toCh
      · unfold delete at isTokens
        dsimp only at isTokens
        rw [if_neg same, if_pos (by rwa [lastEndOffset_eq])] at isTokens
        cases isTokens
      · obtain ⟨remaining, isRemaining, _, positive, _⟩ :=
          delete_runs rising nonempty (lt_of_le_of_ne ordered same) (by omega) all
        rw [isTokens] at isRemaining
        obtain rfl := LineEntry.tokens.inj isRemaining
        exact ⟨.inl (by omega), positive⟩

/-- Two lines are joined well when, of the tokens and the characters that stay, no characters
stand beside `EMPTY_LINE_TOKENS`, and the second line does not begin with a token of no length. -/
theorem appendsWell_of_keeps
    (firstCovers : EntryCovers first firstEntry) (secondCovers : EntryCovers second secondEntry)
    {fromCh toCh : Nat} (fromBound : fromCh ≤ first.length) (toBound : toCh ≤ second.length)
    (of_empty : firstEntry = .empty → KeepsTokens secondEntry (second.length - toCh) toCh →
      fromCh = 0)
    (of_tokens_empty : KeepsTokens firstEntry fromCh (first.length - fromCh) →
      secondEntry = .empty → second.length - toCh = 0)
    (of_tokens : KeepsTokens firstEntry fromCh (first.length - fromCh) →
      KeepsTokens secondEntry (second.length - toCh) toCh →
      ∀ tokens, secondEntry = .tokens tokens → ∀ token ∈ tokens.head?, 0 < token.1) :
    AppendsWell (first.take fromCh) (deleteEnding firstEntry fromCh) (second.drop toCh)
      (deleteBeginning secondEntry toCh) := by
  have keepsFirst : ∀ tokens, deleteEnding firstEntry fromCh = .tokens tokens →
      KeepsTokens firstEntry fromCh (first.length - fromCh) := by
    intro tokens isTokens
    cases firstEntry with
    | null => cases isTokens
    | empty => cases isTokens
    | tokens old =>
      have length := firstCovers.length
      rw [deleteEnding_tokens, ← length] at isTokens
      obtain ⟨_, _, kept, _⟩ :=
        delete_eq_tokens firstCovers isTokens fromBound (le_refl first.length)
      exact ⟨⟨old, rfl⟩, by omega⟩
  have keepsSecond : ∀ tokens, deleteBeginning secondEntry toCh = .tokens tokens →
      KeepsTokens secondEntry (second.length - toCh) toCh ∧
        ∃ old, secondEntry = .tokens old ∧ (Rising 1 old → Rising 1 tokens) := by
    intro tokens isTokens
    obtain ⟨old, isOld, kept, positive⟩ :=
      delete_eq_tokens secondCovers isTokens (Nat.zero_le toCh) toBound
    exact ⟨⟨⟨old, isOld⟩, by omega⟩, old, isOld, positive⟩
  constructor
  · intro isEmpty tokens isTokens
    have none : fromCh = 0 := by
      cases firstEntry with
      | null => cases isEmpty
      | empty => exact of_empty rfl (keepsSecond tokens isTokens).1
      | tokens old =>
        rw [deleteEnding_tokens] at isEmpty
        rcases delete_eq_empty isEmpty with impossible | ⟨atStart, _⟩
        · cases impossible
        · exact atStart
    rw [none, take_zero]
  · intro tokens isTokens isEmpty
    apply drop_of_length_le
    rcases delete_eq_empty isEmpty with isEmpty | ⟨_, old, isOld, all⟩
    · have none := of_tokens_empty (keepsFirst tokens isTokens) isEmpty
      omega
    · rw [isOld] at secondCovers
      have length := secondCovers.length
      omega
  · intro tokens isTokens others isOthers
    obtain ⟨keeps, old, isOld, positive⟩ := keepsSecond others isOthers
    have first := of_tokens (keepsFirst tokens isTokens) keeps old isOld
    rw [isOld] at secondCovers
    obtain ⟨rising, nonempty, _⟩ := secondCovers
    apply positive
    cases old with
    | nil => exact absurd rfl nonempty
    | cons token old =>
      obtain ⟨_, rest⟩ := rising_cons.mp rising
      exact rising_cons.mpr ⟨first token rfl, rest⟩

end CodeEditor.Tokens
