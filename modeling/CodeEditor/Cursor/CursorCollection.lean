import CodeEditor.EditStack.EditStackData
import CodeEditor.Edits.LineEdit
import CodeEditor.Foundation.Extents
import CodeEditor.ViewLayout.Whitespaces

/-!
# Merging cursors

Model of `normalize` in `cursorCollection.ts`. A cursor is the number of its object, and the
collection maps it to the selection of its state; reads outside of an array give `none`.
-/

namespace CodeEditor.Cursor

open List

open Edits (Position Range)
open EditStack (Selection)
open ViewLayout (toInt32)

/-! ## Ranges and selections -/

/-- The range that a selection is. -/
def rangeOf (selection : Selection) : Range :=
  Range.new selection.selectionStartLineNumber selection.selectionStartColumn
    selection.positionLineNumber selection.positionColumn

def plusRange (a b : Range) : Range :=
  let (startLineNumber, startColumn) :=
    if b.startLineNumber < a.startLineNumber then (b.startLineNumber, b.startColumn)
    else if b.startLineNumber = a.startLineNumber then
      (b.startLineNumber, min b.startColumn a.startColumn)
    else (a.startLineNumber, a.startColumn)
  let (endLineNumber, endColumn) :=
    if b.endLineNumber > a.endLineNumber then (b.endLineNumber, b.endColumn)
    else if b.endLineNumber = a.endLineNumber then
      (b.endLineNumber, max b.endColumn a.endColumn)
    else (a.endLineNumber, a.endColumn)
  Range.new startLineNumber startColumn endLineNumber endColumn

def compareRangesUsingStarts (a b : Range) : Int :=
  if toInt32 a.startLineNumber = toInt32 b.startLineNumber then
    if toInt32 a.startColumn = toInt32 b.startColumn then
      if toInt32 a.endLineNumber = toInt32 b.endLineNumber then
        toInt32 a.endColumn - toInt32 b.endColumn
      else toInt32 a.endLineNumber - toInt32 b.endLineNumber
    else toInt32 a.startColumn - toInt32 b.startColumn
  else toInt32 a.startLineNumber - toInt32 b.startLineNumber

def isLTR (selection : Selection) : Bool :=
  selection.selectionStartLineNumber = (rangeOf selection).startLineNumber &&
    selection.selectionStartColumn = (rangeOf selection).startColumn

/-! ## The collection -/

structure SortedCursor where
  index : Nat
  selection : Selection
  deriving DecidableEq

structure CursorCollection where
  cursors : List Nat
  selection : Nat → Selection
  lastAddedCursorIndex : Nat

def shouldMergeCursors (currentSelection nextSelection : Range) : Bool :=
  if nextSelection.isEmpty || currentSelection.isEmpty then
    nextSelection.getStartPosition.isBeforeOrEqual currentSelection.getEndPosition
  else nextSelection.getStartPosition.isBefore currentSelection.getEndPosition

/-- `sortedCursor.index--` behind the looser. -/
def SortedCursor.shift (looserIndex : Nat) (sortedCursor : SortedCursor) : SortedCursor :=
  if sortedCursor.index > looserIndex then
    { sortedCursor with index := sortedCursor.index - 1 }
  else sortedCursor

namespace CursorCollection

def removeSecondaryCursor (c : CursorCollection) (removeIndex : Nat) :
    Option CursorCollection := do
  let _ ← c.cursors[removeIndex + 1]?
  return { c with
    lastAddedCursorIndex :=
      if c.lastAddedCursorIndex ≥ removeIndex + 1 then c.lastAddedCursorIndex - 1
      else c.lastAddedCursorIndex
    cursors := c.cursors.eraseIdx (removeIndex + 1) }

/-- The selection of the winner becomes the reunion of both. -/
def absorb (c : CursorCollection) (cursors : List Nat) (winner looser : SortedCursor) :
    Option (CursorCollection × SortedCursor) := do
  if looser.selection = winner.selection then return (c, winner)
  let resultingRange := plusRange (rangeOf looser.selection) (rangeOf winner.selection)
  -- the last added cursor decides on the direction
  let resultingSelectionIsLTR :=
    if looser.index = c.lastAddedCursorIndex then isLTR looser.selection
    else isLTR winner.selection
  let resultingSelection : Selection :=
    if resultingSelectionIsLTR then
      ⟨resultingRange.startLineNumber, resultingRange.startColumn,
        resultingRange.endLineNumber, resultingRange.endColumn⟩
    else
      ⟨resultingRange.endLineNumber, resultingRange.endColumn,
        resultingRange.startLineNumber, resultingRange.startColumn⟩
  let cursor ← cursors[winner.index]?
  return ({ c with
    selection := Function.update c.selection cursor resultingSelection
    lastAddedCursorIndex :=
      if looser.index = c.lastAddedCursorIndex then winner.index
      else c.lastAddedCursorIndex }, { winner with selection := resultingSelection })

/-- The loop of `normalize`, with the sorted cursors split at the current one. -/
def normalizeLoop (multiCursorMergeOverlapping : Bool) (front : List SortedCursor)
    (current : SortedCursor) (rest : List SortedCursor) (c : CursorCollection)
    (cursors : List Nat) : Option CursorCollection :=
  match rest with
  | [] => some c
  | next :: rest =>
    if multiCursorMergeOverlapping &&
        shouldMergeCursors (rangeOf current.selection) (rangeOf next.selection) then do
      let winner := if current.index < next.index then current else next
      let looser := if current.index < next.index then next else current
      let (c, winner) ← c.absorb cursors winner looser
      let c ← c.removeSecondaryCursor (looser.index - 1)
      normalizeLoop multiCursorMergeOverlapping (front.map (.shift looser.index))
        (winner.shift looser.index) (rest.map (.shift looser.index)) c
        (cursors.eraseIdx looser.index)
    else
      normalizeLoop multiCursorMergeOverlapping (front ++ [current]) next rest c cursors
termination_by rest.length
decreasing_by all_goals simp

def sortedCursors (c : CursorCollection) : List SortedCursor :=
  (c.cursors.zipIdx.map fun (cursor, i) => ⟨i, c.selection cursor⟩).insertionSort fun a b =>
    compareRangesUsingStarts (rangeOf a.selection) (rangeOf b.selection) ≤ 0

def normalize (multiCursorMergeOverlapping : Bool) (c : CursorCollection) :
    Option CursorCollection :=
  if c.cursors.length = 1 then some c
  else
    match c.sortedCursors with
    | [] => some c
    | current :: rest =>
      c.normalizeLoop multiCursorMergeOverlapping [] current rest c.cursors

end CursorCollection

/-! ## Selections on the line of positions -/

def extentOf (position : Position) : Extent := ⟨position.lineNumber, position.column⟩

def startOf (selection : Selection) : Extent := extentOf (rangeOf selection).getStartPosition

def endOf (selection : Selection) : Extent := extentOf (rangeOf selection).getEndPosition

/-- The positions that a selection covers, with both ends. -/
def covered (selection : Selection) : Set Extent := Set.Icc (startOf selection) (endOf selection)

/-- Two selections share no position, or none is empty and they share no more than an end. -/
def Apart (a b : Selection) : Prop :=
  endOf a < startOf b ∨ endOf b < startOf a ∨
    (startOf a < endOf a ∧ startOf b < endOf b ∧ (endOf a ≤ startOf b ∨ endOf b ≤ startOf a))

/-- A selection that does not have to be merged with the one behind it. -/
def Leaves (a b : Selection) : Prop :=
  endOf a < startOf b ∨ endOf a = startOf b ∧ startOf a < endOf a ∧ startOf b < endOf b

theorem isBeforeOrEqual_iff {a b : Position} :
    a.isBeforeOrEqual b = true ↔ extentOf a ≤ extentOf b := by
  rw [Extent.le_def, Position.isBeforeOrEqual]
  grind [extentOf]

theorem isBefore_iff {a b : Position} : a.isBefore b = true ↔ extentOf a < extentOf b := by
  rw [Extent.lt_def, Position.isBefore]
  grind [extentOf]

theorem startOf_le_endOf (selection : Selection) : startOf selection ≤ endOf selection := by
  rw [Extent.le_def]
  simp only [startOf, endOf, extentOf, rangeOf, Range.new, Range.getStartPosition,
    Range.getEndPosition]
  split
  · dsimp only
    omega
  · dsimp only
    omega

theorem isEmpty_iff :
    (rangeOf selection).isEmpty = true ↔ startOf selection = endOf selection := by
  simp [Range.isEmpty, startOf, endOf, extentOf, Range.getStartPosition, Range.getEndPosition,
    Extent.ext_iff]

theorem leaves_iff : shouldMergeCursors (rangeOf a) (rangeOf b) = false ↔ Leaves a b := by
  have first := startOf_le_endOf a
  have second := startOf_le_endOf b
  have empty : ((rangeOf b).isEmpty || (rangeOf a).isEmpty) = true ↔
      startOf b = endOf b ∨ startOf a = endOf a := by
    rw [Bool.or_eq_true, isEmpty_iff, isEmpty_iff]
  unfold shouldMergeCursors Leaves
  split
  · rename_i one
    rw [← Bool.not_eq_true, isBeforeOrEqual_iff, not_le]
    change endOf a < startOf b ↔ _
    refine ⟨.inl, fun leaves => leaves.resolve_right fun both => ?_⟩
    rcases empty.mp one with equal | equal
    · exact both.2.2.ne equal
    · exact both.2.1.ne equal
  · rename_i none
    obtain ⟨notSecond, notFirst⟩ := not_or.mp (mt empty.mpr none)
    rw [← Bool.not_eq_true, isBefore_iff, not_lt]
    change endOf a ≤ startOf b ↔ _
    rw [le_iff_lt_or_eq, and_iff_left ⟨first.lt_of_ne notFirst, second.lt_of_ne notSecond⟩]

theorem Leaves.apart (leaves : Leaves a b) : Apart a b := by
  rcases leaves with before | ⟨touches, first, second⟩
  · exact .inl before
  · exact .inr (.inr ⟨first, second, .inl touches.le⟩)

theorem extentOf_plusRange (a b : Selection) :
    extentOf (plusRange (rangeOf a) (rangeOf b)).getStartPosition = min (startOf a) (startOf b) ∧
      extentOf (plusRange (rangeOf a) (rangeOf b)).getEndPosition = max (endOf a) (endOf b) := by
  have first := startOf_le_endOf a
  have second := startOf_le_endOf b
  simp only [startOf, endOf, min_def, max_def, Extent.le_def, plusRange, Range.new,
    Range.getStartPosition, Range.getEndPosition, extentOf] at first second ⊢
  grind

theorem rangeOf_of_ordered {range : Range}
    (ordered : extentOf range.getStartPosition ≤ extentOf range.getEndPosition) :
    rangeOf ⟨range.startLineNumber, range.startColumn, range.endLineNumber, range.endColumn⟩ =
        range ∧
      rangeOf ⟨range.endLineNumber, range.endColumn, range.startLineNumber, range.startColumn⟩ =
        range := by
  rw [Extent.le_def] at ordered
  simp only [extentOf, Range.getStartPosition, Range.getEndPosition] at ordered
  simp only [rangeOf, Range.new]
  constructor
  · rw [if_neg (by omega)]
  · split
    · rfl
    · rw [Range.mk.injEq]
      omega

/-! ## The order of the sorted cursors -/

/-- What the comparison compares, the most important first. -/
def sortKey (range : Range) : ℤ ×ₗ ℤ ×ₗ ℤ ×ₗ ℤ :=
  toLex (toInt32 range.startLineNumber, toLex (toInt32 range.startColumn,
    toLex (toInt32 range.endLineNumber, toInt32 range.endColumn)))

theorem compareRangesUsingStarts_iff :
    compareRangesUsingStarts a b ≤ 0 ↔ sortKey a ≤ sortKey b := by
  simp only [compareRangesUsingStarts, sortKey, Prod.Lex.le_iff, ofLex_toLex]
  generalize toInt32 = wrap
  grind

/-- The numbers of a selection are positions of a text, which the comparison does not wrap. -/
def Valid (selection : Selection) : Prop :=
  selection.selectionStartLineNumber < 2 ^ 31 ∧ selection.selectionStartColumn < 2 ^ 31 ∧
    selection.positionLineNumber < 2 ^ 31 ∧ selection.positionColumn < 2 ^ 31

theorem startOf_le_of_sortKey_le (first : Valid a) (second : Valid b)
    (ordered : sortKey (rangeOf a) ≤ sortKey (rangeOf b)) : startOf a ≤ startOf b := by
  have same : ∀ n : Nat, n < 2 ^ 31 → toInt32 n = n := fun n small =>
    Int.bmod_eq_of_le (by omega) (by omega)
  obtain ⟨a₁, a₂, a₃, a₄⟩ := first
  obtain ⟨b₁, b₂, b₃, b₄⟩ := second
  have small : ∀ s, Valid s → (rangeOf s).startLineNumber < 2 ^ 31 ∧
      (rangeOf s).startColumn < 2 ^ 31 := by
    rintro s ⟨s₁, s₂, s₃, s₄⟩
    unfold rangeOf Range.new
    split
    · exact ⟨s₃, s₄⟩
    · exact ⟨s₁, s₂⟩
  obtain ⟨line₁, column₁⟩ := small a ⟨a₁, a₂, a₃, a₄⟩
  obtain ⟨line₂, column₂⟩ := small b ⟨b₁, b₂, b₃, b₄⟩
  simp only [sortKey, Prod.Lex.le_iff, ofLex_toLex, same _ line₁, same _ column₁, same _ line₂,
    same _ column₂] at ordered
  rw [Extent.le_def]
  change (rangeOf a).startLineNumber < (rangeOf b).startLineNumber ∨
    (rangeOf a).startLineNumber = (rangeOf b).startLineNumber ∧
      (rangeOf a).startColumn ≤ (rangeOf b).startColumn
  omega

/-! ## One merge -/

/-- What a collection has become, with the cursor that absorbed each original one. -/
structure Merged (c c' : CursorCollection) (count : Nat) (absorber : Nat → Nat) : Prop where
  ascending : c'.cursors.Pairwise (· < ·)
  absorbed : ∀ i < count, absorber i ∈ c'.cursors ∧ absorber i ≤ i
  survives : ∀ cursor ∈ c'.cursors, cursor < count ∧ absorber cursor = cursor
  covers : ∀ cursor ∈ c'.cursors, ∀ position, position ∈ covered (c'.selection cursor) ↔
    ∃ i < count, absorber i = cursor ∧ position ∈ covered (c.selection i)

/-- The sorted cursors are the cursors of the collection. -/
structure Shows (c : CursorCollection) (sorted : List SortedCursor) : Prop where
  entries : (sorted.map fun e => c.cursors[e.index]?).Perm (c.cursors.map some)
  stored : ∀ e ∈ sorted, ∀ cursor, c.cursors[e.index]? = some cursor →
    c.selection cursor = e.selection

variable {c c' : CursorCollection} {count : Nat} {absorber : Nat → Nat}

theorem Merged.distinct (merged : Merged c c' count absorber) : c'.cursors.Nodup :=
  merged.ascending.imp fun less => less.ne

theorem Shows.perm (shows' : Shows c sorted) (perm : sorted.Perm sorted') : Shows c sorted' :=
  ⟨(perm.symm.map _).trans shows'.entries, fun e member =>
    shows'.stored e (perm.mem_iff.mpr member)⟩

@[simp] theorem SortedCursor.selection_shift (looserIndex : Nat) (e : SortedCursor) :
    (e.shift looserIndex).selection = e.selection := by
  unfold SortedCursor.shift
  split <;> rfl

/-- The cursor behind the looser is found at its new index. -/
theorem getElem?_shift {cursors : List Nat} {looserIndex : Nat} {e : SortedCursor}
    (other : e.index ≠ looserIndex) :
    (cursors.eraseIdx looserIndex)[(e.shift looserIndex).index]? = cursors[e.index]? := by
  rw [getElem?_eraseIdx, SortedCursor.shift]
  split
  · rw [if_neg (by simp only; omega), Nat.sub_add_cancel (by omega)]
  · rw [if_pos (by omega)]

variable {winner looser : SortedCursor}

theorem absorb_eq {cursor : Nat} (here : c.cursors[winner.index]? = some cursor)
    (stored : c.selection cursor = winner.selection) :
    ∃ c' selection, c.absorb c.cursors winner looser =
        some (c', { winner with selection := selection }) ∧
      c'.cursors = c.cursors ∧ c'.selection = Function.update c.selection cursor selection ∧
      startOf selection = min (startOf looser.selection) (startOf winner.selection) ∧
      endOf selection = max (endOf looser.selection) (endOf winner.selection) := by
  unfold CursorCollection.absorb
  by_cases same : looser.selection = winner.selection
  · refine ⟨c, winner.selection, by simp [same], rfl, ?_, by simp [same], by simp [same]⟩
    rw [← stored, Function.update_eq_self]
  · obtain ⟨start, stop⟩ := extentOf_plusRange looser.selection winner.selection
    obtain ⟨leftToRight, rightToLeft⟩ := rangeOf_of_ordered (show
        extentOf (plusRange (rangeOf looser.selection)
          (rangeOf winner.selection)).getStartPosition ≤ extentOf (plusRange
            (rangeOf looser.selection) (rangeOf winner.selection)).getEndPosition by
      rw [start, stop]
      exact (min_le_left _ _).trans ((startOf_le_endOf _).trans (le_max_left _ _)))
    simp only [same, if_false, here, Option.bind_eq_bind, Option.bind_some, Option.pure_def]
    refine ⟨_, _, rfl, rfl, rfl, ?_⟩
    rw [← start, ← stop]
    generalize (if looser.index = c.lastAddedCursorIndex then isLTR looser.selection
      else isLTR winner.selection) = resultingSelectionIsLTR
    cases resultingSelectionIsLTR with
    | true =>
      simp only [if_true, startOf, endOf, leftToRight, and_self]
    | false =>
      simp only [Bool.false_eq_true, if_false, startOf, endOf, rightToLeft, and_self]

/-- A cursor that absorbs another one covers what the other one has absorbed. -/
theorem Merged.absorb {w l : Nat} {selection : Selection} {c₂ : CursorCollection}
    (merged : Merged c c' count absorber) (isWinner : w ∈ c'.cursors) (isLooser : l ∈ c'.cursors)
    (less : w < l) (sublist : c₂.cursors.Sublist c'.cursors)
    (remain : ∀ {cursor}, cursor ∈ c₂.cursors ↔ cursor ≠ l ∧ cursor ∈ c'.cursors)
    (updated : c₂.selection = Function.update c'.selection w selection)
    (both : covered selection = covered (c'.selection l) ∪ covered (c'.selection w)) :
    Merged c c₂ count fun i => if absorber i = l then w else absorber i := by
  refine ⟨merged.ascending.sublist sublist, fun i inside => ?_, fun cursor member => ?_,
    fun cursor member position => ?_⟩
  · obtain ⟨isCursor, upTo⟩ := merged.absorbed i inside
    simp only [remain]
    split
    · rename_i lost
      exact ⟨⟨less.ne, isWinner⟩, by omega⟩
    · rename_i other
      exact ⟨⟨other, isCursor⟩, upTo⟩
  · obtain ⟨notLooser, isCursor⟩ := remain.mp member
    obtain ⟨inside, own⟩ := merged.survives cursor isCursor
    exact ⟨inside, by rw [own, if_neg notLooser]⟩
  · obtain ⟨notLooser, isCursor⟩ := remain.mp member
    simp only [updated]
    by_cases isW : cursor = w
    · subst isW
      rw [Function.update_self, both, Set.mem_union, merged.covers l isLooser,
        merged.covers cursor isWinner]
      constructor
      · rintro (⟨i, inside, rfl, own⟩ | ⟨i, inside, isOwn, own⟩)
        · exact ⟨i, inside, if_pos rfl, own⟩
        · exact ⟨i, inside, by rw [isOwn, if_neg less.ne], own⟩
      · rintro ⟨i, inside, isOwn, own⟩
        split at isOwn
        · rename_i lost
          exact .inl ⟨i, inside, lost, own⟩
        · exact .inr ⟨i, inside, isOwn, own⟩
    · rw [Function.update_of_ne isW, merged.covers cursor isCursor]
      refine exists_congr fun i => and_congr_right fun _ => and_congr_left fun _ => ?_
      split
      · rename_i lost
        exact iff_of_false (fun own => notLooser (own.symm.trans lost)) (Ne.symm isW)
      · rfl

theorem Shows.merge {others : List SortedCursor} (shows' : Shows c' (winner :: looser :: others))
    (merged : Merged c c' count absorber) (before : winner.index < looser.index)
    (touchesLooser : startOf winner.selection ≤ endOf looser.selection)
    (touchesWinner : startOf looser.selection ≤ endOf winner.selection) :
    ∃ c₁ selection c₂ absorber',
      c'.absorb c'.cursors winner looser = some (c₁, { winner with selection := selection }) ∧
      c₁.removeSecondaryCursor (looser.index - 1) = some c₂ ∧
      c₂.cursors = c'.cursors.eraseIdx looser.index ∧
      startOf selection = min (startOf looser.selection) (startOf winner.selection) ∧
      endOf selection = max (endOf looser.selection) (endOf winner.selection) ∧
      Merged c c₂ count absorber' ∧
      Shows c₂ (({ winner with selection := selection } :: others).map (.shift looser.index)) := by
  have entries := shows'.entries
  have distinct := merged.distinct
  have nodup := entries.symm.nodup (distinct.map (Option.some_injective _))
  have present : ∀ e ∈ winner :: looser :: others, ∃ cursor ∈ c'.cursors,
      c'.cursors[e.index]? = some cursor := by
    intro e member
    obtain ⟨cursor, isCursor, found⟩ := List.mem_map.mp
      (entries.mem_iff.mp (List.mem_map_of_mem member))
    exact ⟨cursor, isCursor, found.symm⟩
  obtain ⟨w, isWinner, winnerHere⟩ := present winner (by simp)
  obtain ⟨l, isLooser, looserHere⟩ := present looser (by simp)
  have winnerStored := shows'.stored winner (by simp) w winnerHere
  have looserStored := shows'.stored looser (by simp) l looserHere
  obtain ⟨c₁, selection, absorbed, sameCursors, updated, start, stop⟩ :=
    @absorb_eq c' winner looser w winnerHere winnerStored
  have less : w < l := by
    obtain ⟨bound, isHere⟩ := List.getElem?_eq_some_iff.mp looserHere
    obtain ⟨bound', isHere'⟩ := List.getElem?_eq_some_iff.mp winnerHere
    rw [← isHere, ← isHere']
    exact List.pairwise_iff_getElem.mp merged.ascending _ _ bound' bound before
  -- the others stand at other indices than the looser, and are other cursors than the winner
  simp only [List.map_cons, winnerHere, looserHere, List.nodup_cons, List.mem_cons, not_or] at nodup
  have elsewhere : ∀ e ∈ others, e.index ≠ looser.index := by
    intro e member same
    exact nodup.2.1 (List.mem_map.mpr ⟨e, member, by rw [same, looserHere]⟩)
  have kept : c'.cursors.eraseIdx looser.index = c'.cursors.erase l := by
    obtain ⟨bound, isHere⟩ := List.getElem?_eq_some_iff.mp looserHere
    rw [← isHere, distinct.erase_getElem]
  have remain : ∀ {cursor}, cursor ∈ c'.cursors.eraseIdx looser.index ↔
      cursor ≠ l ∧ cursor ∈ c'.cursors := by
    intro cursor
    rw [kept, distinct.mem_erase_iff]
  refine ⟨c₁, selection, { c₁ with
      lastAddedCursorIndex := if c₁.lastAddedCursorIndex ≥ looser.index then
        c₁.lastAddedCursorIndex - 1 else c₁.lastAddedCursorIndex
      cursors := c'.cursors.eraseIdx looser.index },
    fun i => if absorber i = l then w else absorber i, absorbed, ?_, rfl, start, stop, ?_, ?_⟩
  · rw [CursorCollection.removeSecondaryCursor, Nat.sub_add_cancel (by omega), sameCursors,
      looserHere]
    rfl
  · refine merged.absorb isWinner isLooser less (List.eraseIdx_sublist _ _) remain updated ?_
    rw [covered, start, stop, winnerStored, looserStored]
    exact (Set.Icc_union_Icc' touchesLooser touchesWinner).symm
  · have found : ∀ e ∈ ({ winner with selection := selection } : SortedCursor) :: others,
        (c'.cursors.eraseIdx looser.index)[(e.shift looser.index).index]? =
          c'.cursors[e.index]? := by
      rintro e (_ | ⟨_, member⟩)
      · exact getElem?_shift (show winner.index ≠ looser.index by omega)
      · exact getElem?_shift (elsewhere e member)
    constructor
    · rw [List.map_map]
      change (List.map (fun e => (c'.cursors.eraseIdx looser.index)[(SortedCursor.shift
        looser.index e).index]?) _).Perm _
      rw [List.map_congr_left found, kept]
      refine List.Perm.cons_inv (a := some l) ?_
      refine .trans ?_ ((List.perm_cons_erase isLooser).map some)
      refine .trans ?_ entries
      simp only [List.map_cons, winnerHere, looserHere]
      exact .swap _ _ _
    · intro e member cursor isHere
      obtain ⟨e, isEntry, rfl⟩ := List.mem_map.mp member
      rw [found e isEntry] at isHere
      rw [SortedCursor.selection_shift, updated]
      rcases List.mem_cons.mp isEntry with rfl | other
      · rw [winnerHere, Option.some.injEq] at isHere
        rw [isHere, Function.update_self]
      · rw [Function.update_of_ne, shows'.stored e (by simp [other]) cursor isHere]
        rintro rfl
        exact nodup.1.2 (List.mem_map.mpr ⟨e, other, isHere⟩)

/-! ## The whole walk -/

theorem Apart.symm (apart : Apart a b) : Apart b a := by
  rcases apart with before | behind | ⟨first, second, order⟩
  · exact .inr (.inl before)
  · exact .inl behind
  · exact .inr (.inr ⟨second, first, order.symm⟩)

/-- Selections that leave each other are apart, also in the collection. -/
theorem Shows.apart (shows' : Shows c sorted)
    (distinct : c.cursors.Nodup) (leaves : (sorted.map (·.selection)).Pairwise Leaves) :
    c.cursors.Pairwise fun a b => Apart (c.selection a) (c.selection b) := by
  have entry : ∀ cursor ∈ c.cursors, ∃ e ∈ sorted, c.cursors[e.index]? = some cursor :=
    fun cursor member =>
      mem_map.mp (shows'.entries.mem_iff.mpr (mem_map_of_mem member))
  rw [pairwise_map] at leaves
  refine distinct.imp_of_mem fun {a b} isFirst isSecond differ => ?_
  obtain ⟨e, member, isE⟩ := entry a isFirst
  obtain ⟨f, member', isF⟩ := entry b isSecond
  rw [shows'.stored e member a isE, shows'.stored f member' b isF]
  have : Std.Symm fun e f : SortedCursor => Apart e.selection f.selection :=
    ⟨fun _ _ apart => apart.symm⟩
  have both : sorted.Pairwise fun e f => Apart e.selection f.selection :=
    leaves.imp fun leaves => leaves.apart
  refine both.forall member member' ?_
  rintro rfl
  exact differ (Option.some.inj (isE.symm.trans isF))

theorem normalizeLoop_spec {front rest : List SortedCursor} {current : SortedCursor}
    (merged : Merged c c' count absorber) (shows' : Shows c' (front ++ current :: rest))
    (ordered : ((front ++ current :: rest).map (·.selection)).Pairwise
      fun a b => startOf a ≤ startOf b)
    (leaves : ((front ++ [current]).map (·.selection)).Pairwise Leaves) :
    ∃ result absorber', c'.normalizeLoop true front current rest c'.cursors = some result ∧
      Merged c result count absorber' ∧
      result.cursors.Pairwise fun a b => Apart (result.selection a) (result.selection b) := by
  induction length : rest.length generalizing front current rest c' absorber with
  | zero =>
    obtain rfl := eq_nil_of_length_eq_zero length
    rw [CursorCollection.normalizeLoop]
    exact ⟨c', absorber, rfl, merged, shows'.apart merged.distinct leaves⟩
  | succ n ih =>
    obtain ⟨next, rest, rfl⟩ := exists_cons_of_length_eq_add_one length
    rw [CursorCollection.normalizeLoop]
    have later : startOf current.selection ≤ startOf next.selection := by
      rw [map_append, pairwise_append] at ordered
      exact rel_of_pairwise_cons ordered.2.1 (by simp)
    cases test : shouldMergeCursors (rangeOf current.selection) (rangeOf next.selection) with
    | false =>
      have leavesNext := leaves_iff.mp test
      refine ih merged (by simpa using shows') (by simpa using ordered) ?_ (Nat.succ.inj length)
      -- what the current selection leaves is not reached by the ones in front of it
      rw [map_append, pairwise_append]
      refine ⟨leaves, by simp, ?_⟩
      simp only [map_cons, map_nil, mem_singleton, forall_eq, map_append, mem_append]
      rintro a (member | rfl)
      · rw [map_append, pairwise_append] at leaves
        have leavesCurrent := leaves.2.2 a member current.selection (by simp)
        rcases leavesCurrent with before | ⟨touches, -, notEmpty⟩
        · exact .inl (before.trans_le later)
        · refine .inl ?_
          rcases leavesNext with before' | ⟨touches', -⟩
          · exact touches.trans_lt (notEmpty.trans before')
          · exact touches.trans_lt (notEmpty.trans_le touches'.le)
      · exact leavesNext
    | true =>
      have touches : startOf next.selection ≤ endOf current.selection := by
        by_contra apart
        rw [leaves_iff.mpr (.inl (not_le.mp apart))] at test
        simp at test
      have touches' := later.trans (startOf_le_endOf next.selection)
      -- the loop goes on in the same way, whichever of the two is the winner
      have go : ∀ {winner looser : SortedCursor}, winner.index < looser.index →
          (front ++ current :: next :: rest).Perm (winner :: looser :: (front ++ rest)) →
          startOf winner.selection ≤ endOf looser.selection →
          startOf looser.selection ≤ endOf winner.selection →
          min (startOf looser.selection) (startOf winner.selection) = startOf current.selection →
          endOf current.selection ≤ max (endOf looser.selection) (endOf winner.selection) →
          ∃ result absorber', (do
            let (c, winner) ← c'.absorb c'.cursors winner looser
            let c ← c.removeSecondaryCursor (looser.index - 1)
            c.normalizeLoop true (front.map (.shift looser.index))
              (winner.shift looser.index) (rest.map (.shift looser.index))
              (c'.cursors.eraseIdx looser.index)) = some result ∧
            Merged c result count absorber' ∧ result.cursors.Pairwise fun a b =>
              Apart (result.selection a) (result.selection b) := by
        intro winner looser before perm first second isStart isEnd
        obtain ⟨c₁, selection, c₂, absorber', absorbed, removed, cursors, start, stop,
          merged', shows₂⟩ := (shows'.perm perm).merge merged before first second
        have sameSelection : ∀ l : List SortedCursor,
            (l.map (SortedCursor.shift looser.index)).map (·.selection) = l.map (·.selection) := by
          simp
        rw [isStart] at start
        rw [← stop] at isEnd
        simp only [absorbed, Option.bind_eq_bind, Option.bind_some, removed, ← cursors]
        refine ih merged' (shows₂.perm ?_) ?_ ?_ ?_
        · rw [map_cons, map_append]
          exact perm_middle.symm
        · rw [map_append, map_cons, map_cons, pairwise_append, pairwise_cons] at ordered
          rw [map_append, map_cons, sameSelection, sameSelection,
            SortedCursor.selection_shift, pairwise_append, pairwise_cons, start]
          obtain ⟨front', ⟨behind, rest'⟩, across⟩ := ordered
          refine ⟨front', ⟨fun b member => behind b (by simp [member]),
            (pairwise_cons.mp rest').2⟩, fun a isA b isB => ?_⟩
          rcases mem_cons.mp isB with rfl | member
          · rw [start]
            exact across a isA _ (by simp)
          · exact across a isA b (by simp [member])
        · rw [map_append, pairwise_append] at leaves
          rw [map_append, sameSelection, pairwise_append]
          refine ⟨leaves.1, by simp, fun a isA b isB => ?_⟩
          obtain rfl : b = selection := by simpa using isB
          rcases leaves.2.2 a isA current.selection (by simp) with
            before | ⟨meets, left, right⟩
          · exact .inl (start.symm ▸ before)
          · exact .inr ⟨start.symm ▸ meets, left, start.symm ▸ right.trans_le isEnd⟩
        · simpa using Nat.succ.inj length
      have perm : (front ++ current :: next :: rest).Perm (current :: next :: (front ++ rest)) :=
        perm_middle.trans (perm_middle.cons current)
      have differ : current.index ≠ next.index := by
        have nodup := (shows'.perm perm).entries.symm.nodup
          (merged.distinct.map (Option.some_injective _))
        intro same
        simp [same] at nodup
      rcases Nat.lt_or_gt_of_ne differ with less | greater
      · simp only [if_pos less]
        exact go less perm touches' touches (min_eq_right later) (le_max_right _ _)
      · simp only [if_neg (Nat.lt_asymm greater)]
        exact go greater (perm.trans (.swap _ _ _)) touches touches' (min_eq_left later)
          (le_max_left _ _)

/-- The merge as it is meant to be: what overlaps is merged, and nothing else. -/
structure Normalized (c c' : CursorCollection) (count : Nat) (absorber : Nat → Nat) : Prop
    extends Merged c c' count absorber where
  apart : c'.cursors.Pairwise fun a b => Apart (c'.selection a) (c'.selection b)
  primary : c'.cursors.head? = some 0 ∧ absorber 0 = 0
  start : ∀ cursor ∈ c'.cursors, IsLeast {start | ∃ i < count, absorber i = cursor ∧
    startOf (c.selection i) = start} (startOf (c'.selection cursor))
  stop : ∀ cursor ∈ c'.cursors, IsGreatest {stop | ∃ i < count, absorber i = cursor ∧
    endOf (c.selection i) = stop} (endOf (c'.selection cursor))
  contained : ∀ i < count, covered (c.selection i) ⊆ covered (c'.selection (absorber i))
  once : ∀ i < count, startOf (c.selection i) < endOf (c.selection i) →
    ∀ cursor ∈ c'.cursors, covered (c.selection i) ⊆ covered (c'.selection cursor) →
      cursor = absorber i

theorem Merged.normalized (merged : Merged c c' count absorber) (some : 0 < count)
    (apart : c'.cursors.Pairwise fun a b => Apart (c'.selection a) (c'.selection b)) :
    Normalized c c' count absorber := by
  have contained : ∀ i < count, covered (c.selection i) ⊆ covered (c'.selection (absorber i)) :=
    fun i inside position isIn =>
      (merged.covers _ (merged.absorbed i inside).1 position).mpr ⟨i, inside, rfl, isIn⟩
  have start : ∀ i < count, startOf (c'.selection (absorber i)) ≤ startOf (c.selection i) :=
    fun i inside => (contained i inside (Set.left_mem_Icc.mpr (startOf_le_endOf _))).1
  have stop : ∀ i < count, endOf (c.selection i) ≤ endOf (c'.selection (absorber i)) :=
    fun i inside => (contained i inside (Set.right_mem_Icc.mpr (startOf_le_endOf _))).2
  obtain ⟨isFirst, upTo⟩ := merged.absorbed 0 some
  have zero : absorber 0 = 0 := by omega
  refine ⟨merged, apart, ⟨?_, zero⟩, fun cursor member => ?_, fun cursor member => ?_,
    contained, fun i inside notEmpty cursor member isIn => ?_⟩
  · rw [zero] at isFirst
    have ascending := merged.ascending
    obtain ⟨first, rest, isCursors⟩ := exists_cons_of_ne_nil (ne_nil_of_mem isFirst)
    rw [isCursors] at isFirst ascending ⊢
    rcases mem_cons.mp isFirst with rfl | later
    · rfl
    · exact absurd (rel_of_pairwise_cons ascending later) (by omega)
  · obtain ⟨i, inside, own, isIn⟩ := (merged.covers cursor member _).mp
      (Set.left_mem_Icc.mpr (startOf_le_endOf _))
    refine ⟨⟨i, inside, own, le_antisymm isIn.1 (own ▸ start i inside)⟩, ?_⟩
    rintro _ ⟨j, inside', own', rfl⟩
    exact own' ▸ start j inside'
  · obtain ⟨i, inside, own, isIn⟩ := (merged.covers cursor member _).mp
      (Set.right_mem_Icc.mpr (startOf_le_endOf _))
    refine ⟨⟨i, inside, own, le_antisymm (own ▸ stop i inside) isIn.2⟩, ?_⟩
    rintro _ ⟨j, inside', own', rfl⟩
    exact own' ▸ stop j inside'
  · by_contra differ
    have : Std.Symm fun a b => Apart (c'.selection a) (c'.selection b) :=
      ⟨fun _ _ apart => apart.symm⟩
    have both := apart.forall member (merged.absorbed i inside).1 differ
    have low := (isIn (Set.left_mem_Icc.mpr notEmpty.le)).1
    have high := (isIn (Set.right_mem_Icc.mpr notEmpty.le)).2
    have low' := start i inside
    have high' := stop i inside
    unfold Apart at both
    rcases both with before | behind | ⟨-, -, before | behind⟩ <;> order

/-- The sorted cursors are the cursors in the order of their starts. -/
theorem shows_sortedCursors (valid : ∀ cursor ∈ c.cursors, Valid (c.selection cursor)) :
    Shows c c.sortedCursors ∧ c.sortedCursors.length = c.cursors.length ∧
      (c.sortedCursors.map (·.selection)).Pairwise fun a b => startOf a ≤ startOf b := by
  have perm : c.sortedCursors.Perm (c.cursors.zipIdx.map fun (cursor, i) =>
    ⟨i, c.selection cursor⟩) := perm_insertionSort _ _
  have : Std.Total fun a b : SortedCursor =>
      compareRangesUsingStarts (rangeOf a.selection) (rangeOf b.selection) ≤ 0 :=
    ⟨fun a b => by simpa only [compareRangesUsingStarts_iff] using le_total _ _⟩
  have : IsTrans SortedCursor fun a b =>
      compareRangesUsingStarts (rangeOf a.selection) (rangeOf b.selection) ≤ 0 :=
    ⟨fun a b d => by simpa only [compareRangesUsingStarts_iff] using le_trans⟩
  have ordered : c.sortedCursors.Pairwise fun a b =>
    compareRangesUsingStarts (rangeOf a.selection) (rangeOf b.selection) ≤ 0 :=
      pairwise_insertionSort _ _
  have entry : ∀ e ∈ c.sortedCursors, ∃ cursor, c.cursors[e.index]? = some cursor ∧
      e.selection = c.selection cursor := by
    intro e member
    obtain ⟨⟨cursor, i⟩, isEntry, rfl⟩ := mem_map.mp (perm.mem_iff.mp member)
    exact ⟨cursor, mem_zipIdx_iff_getElem?.mp isEntry, rfl⟩
  refine ⟨⟨(perm.map _).trans (.of_eq ?_), fun e member cursor isHere => ?_⟩, ?_, ?_⟩
  · rw [map_map]
    refine ext_getElem? fun i => ?_
    rw [getElem?_map, getElem?_map, getElem?_zipIdx]
    cases here : c.cursors[i]? with
    | none => rfl
    | some cursor => simp [here]
  · obtain ⟨cursor', isHere', isSelection⟩ := entry e member
    rw [isHere, Option.some.injEq] at isHere'
    rw [isSelection, isHere']
  · simpa using perm.length_eq
  · rw [pairwise_map]
    refine ordered.imp_of_mem fun {a b} isFirst isSecond le => ?_
    have isValid : ∀ e ∈ c.sortedCursors, Valid e.selection := by
      intro e member
      obtain ⟨cursor, isHere, isSelection⟩ := entry e member
      rw [isSelection]
      exact valid cursor (mem_of_getElem? isHere)
    exact startOf_le_of_sortKey_le (isValid a isFirst) (isValid b isSecond)
      (compareRangesUsingStarts_iff.mp le)

/-- Merging, on any cursors. -/
theorem normalize_merges (names : c.cursors = List.range count) (some : 0 < count)
    (valid : ∀ cursor ∈ c.cursors, Valid (c.selection cursor)) :
    ∃ result absorber, c.normalize true = .some result ∧
      Normalized c result count absorber := by
  have start : Merged c c count id := by
    refine ⟨names ▸ pairwise_lt_range, by simp [names], by simp [names],
      fun cursor member position => ?_⟩
    have inside := mem_range.mp (names ▸ member)
    simp [inside]
  unfold CursorCollection.normalize
  split
  · rename_i single
    obtain ⟨cursor, isSingle⟩ := length_eq_one_iff.mp single
    exact ⟨c, id, rfl, start.normalized some (isSingle ▸ pairwise_singleton _ _)⟩
  · obtain ⟨shows', lengths, ordered⟩ := shows_sortedCursors valid
    cases sorted : c.sortedCursors with
    | nil =>
      simp [sorted, names] at lengths
      omega
    | cons current rest =>
      rw [sorted] at shows' ordered
      obtain ⟨result, absorber, walked, merged, apart⟩ := @normalizeLoop_spec c c count id []
        rest current start shows' ordered (pairwise_singleton _ _)
      exact ⟨result, absorber, walked, merged.normalized some apart⟩

/-- An empty selection at the point at which two others touch. -/
def touchingCursors : CursorCollection where
  cursors := [0, 1, 2]
  selection
    | 0 => ⟨1, 1, 1, 5⟩
    | 1 => ⟨1, 5, 1, 5⟩
    | _ => ⟨1, 5, 1, 9⟩
  lastAddedCursorIndex := 0

theorem normalize_merges_sample :
    ∃ result absorber, touchingCursors.normalize true = some result ∧
      Normalized touchingCursors result 3 absorber :=
  normalize_merges rfl (by decide) (by simp [touchingCursors, Valid])

theorem normalize_touchingCursors :
    ∃ selection, touchingCursors.normalize true = some ⟨[0, 2], selection, 0⟩ ∧
      selection 0 = ⟨1, 1, 1, 5⟩ ∧ selection 2 = ⟨1, 5, 1, 9⟩ := by
  have sorted : touchingCursors.sortedCursors =
      [⟨0, ⟨1, 1, 1, 5⟩⟩, ⟨1, ⟨1, 5, 1, 5⟩⟩, ⟨2, ⟨1, 5, 1, 9⟩⟩] := by
    decide
  unfold CursorCollection.normalize
  rw [sorted, if_neg (by decide)]
  have merges : shouldMergeCursors (rangeOf ⟨1, 1, 1, 5⟩) (rangeOf ⟨1, 5, 1, 5⟩) = true := by
    decide
  have leaves : shouldMergeCursors (rangeOf ⟨1, 1, 1, 5⟩) (rangeOf ⟨1, 5, 1, 9⟩) = false := by
    decide
  have union : plusRange (rangeOf ⟨1, 5, 1, 5⟩) (rangeOf ⟨1, 1, 1, 5⟩) = ⟨1, 1, 1, 5⟩ := by
    decide
  have direction : isLTR ⟨1, 1, 1, 5⟩ = true := by
    decide
  simp [CursorCollection.normalizeLoop, touchingCursors, CursorCollection.absorb,
    CursorCollection.removeSecondaryCursor, SortedCursor.shift, merges, leaves, union, direction]

/-- The empty selection is contained in both selections that remain. -/
theorem not_contained_in_exactly_one :
    ¬∃ result, touchingCursors.normalize true = some result ∧
      ∀ i ∈ touchingCursors.cursors, ∃! cursor, cursor ∈ result.cursors ∧
        covered (touchingCursors.selection i) ⊆ covered (result.selection cursor) := by
  rintro ⟨result, normalized, exactlyOne⟩
  obtain ⟨selection, isResult, first, second⟩ := normalize_touchingCursors
  rw [isResult, Option.some.injEq] at normalized
  subst normalized
  obtain ⟨cursor, -, only⟩ := exactlyOne 1 (by decide)
  have inFirst : covered (touchingCursors.selection 1) ⊆ covered (selection 0) := by
    rw [first]
    exact Set.Icc_subset_Icc (by decide) (by decide)
  have inSecond : covered (touchingCursors.selection 1) ⊆ covered (selection 2) := by
    rw [second]
    exact Set.Icc_subset_Icc (by decide) (by decide)
  have zero := only 0 ⟨by simp, inFirst⟩
  have two := only 2 ⟨by simp, inSecond⟩
  omega

end CodeEditor.Cursor
