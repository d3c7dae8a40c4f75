import CodeEditor.ViewLayout.PrefixSums

/-!
# The order of view zones

`findInsertionIndex` searches an array that is sorted by line and ordinal. Batches and inserted
lines keep this order. Deleting lines moves the zones behind them to one line without comparing
their ordinals: the order is kept exactly when these zones happen to stand by ordinal already.
-/

namespace CodeEditor.ViewLayout

open List

/-- The whitespaces stand by line, and on one line by ordinal. -/
def InOrder (arr : List EditorWhitespace) : Prop := arr.Pairwise fun a b => sortsBefore a b

instance (arr : List EditorWhitespace) : Decidable (InOrder arr) :=
  inferInstanceAs (Decidable (arr.Pairwise _))

/-- The whitespaces that deleting the lines puts on one line stand by ordinal. -/
def CollapsesInOrder (fromLineNumber toLineNumber : Int) (arr : List EditorWhitespace) : Prop :=
  arr.Pairwise fun a b => fromLineNumber - 1 ≤ a.afterLineNumber →
    b.afterLineNumber ≤ toLineNumber → a.ordinal ≤ b.ordinal

instance (fromLineNumber toLineNumber : Int) (arr : List EditorWhitespace) :
    Decidable (CollapsesInOrder fromLineNumber toLineNumber arr) :=
  inferInstanceAs (Decidable (arr.Pairwise _))

theorem sortsBefore_iff : sortsBefore a b ↔ a.afterLineNumber < b.afterLineNumber ∨
      a.afterLineNumber = b.afterLineNumber ∧ a.ordinal ≤ b.ordinal := by
  unfold sortsBefore
  split_ifs <;> simp only [decide_eq_true_eq] <;> omega

theorem sortsBefore_trans (first : sortsBefore a b)
    (second : sortsBefore b c) : sortsBefore a c := by
  rw [sortsBefore_iff] at *
  omega

/-! ## One change -/

section Changes

variable {arr : List EditorWhitespace} {layout : LinesLayout}

section

variable (inOrder : InOrder layout.arr)

include inOrder

theorem InOrder.insertWhitespace (whitespace : EditorWhitespace) :
    InOrder (layout.insertWhitespace whitespace).arr := by
  apply (@pairwise_insert layout.arr (fun a b => sortsBefore a b) sortsBefore_trans inOrder
    whitespace _ _).2
  · intro other notLeft
    rw [sortsBefore_iff]
    unfold SearchesLeft at notLeft
    omega
  · intro other isLeft
    rw [sortsBefore_iff]
    unfold SearchesLeft at isLeft
    omega

theorem InOrder.removeWhitespace (index : Nat) : InOrder (layout.removeWhitespace index).arr :=
  inOrder.sublist (eraseIdx_sublist layout.arr index)

theorem InOrder.changeHeight (index : Nat) (newHeight : Int) :
    InOrder (layout.changeHeight index newHeight).arr := by
  -- the order depends on the line and the ordinal only
  have keys : ∀ list : List EditorWhitespace, InOrder list ↔
      (list.map fun whitespace => (whitespace.afterLineNumber, whitespace.ordinal)).Pairwise
        fun a b => a.1 < b.1 ∨ a.1 = b.1 ∧ a.2 ≤ b.2 := by
    intro list
    rw [pairwise_map]
    exact ⟨.imp sortsBefore_iff.mp, .imp sortsBefore_iff.mpr⟩
  rw [keys] at inOrder ⊢
  rwa [LinesLayout.changeHeight, map_changeHeight (fun _ _ => rfl)]

theorem InOrder.changeOneWhitespace (change : PendingChange) :
    InOrder (layout.changeOneWhitespace change).arr := by
  unfold LinesLayout.changeOneWhitespace
  cases findWhitespaceIndex layout.arr change.id with
  | none => exact inOrder
  | some index =>
    cases isHere : layout.arr[index]? with
    | none => simpa only [isHere] using inOrder
    | some whitespace =>
      dsimp only
      rw [isHere]
      dsimp only
      have resized : InOrder (if whitespace.height ≠ change.newHeight then
          layout.changeHeight index change.newHeight else layout).arr := by
        split_ifs
        · exact inOrder.changeHeight index change.newHeight
        · exact inOrder
      by_cases moves : whitespace.afterLineNumber ≠ change.newAfterLineNumber
      · rw [if_pos moves]
        exact (resized.removeWhitespace index).insertWhitespace _
      · rw [if_neg moves]
        exact resized

theorem InOrder.commitOne (inserts : List EditorWhitespace) (changes : List PendingChange)
    (removes : List PendingRemove) : InOrder (layout.commitOne inserts changes removes).arr := by
  unfold LinesLayout.commitOne
  apply List.foldlRecOn (motive := fun layout : LinesLayout => InOrder layout.arr)
  · apply List.foldlRecOn (motive := fun layout : LinesLayout => InOrder layout.arr)
    · apply List.foldlRecOn (motive := fun layout : LinesLayout => InOrder layout.arr)
      · exact inOrder
      · exact fun layout inOrder whitespace _ => inOrder.insertWhitespace whitespace
    · exact fun layout inOrder change _ => inOrder.changeOneWhitespace change
  · intro layout inOrder remove _
    unfold LinesLayout.removeOneWhitespace
    cases findWhitespaceIndex layout.arr remove.id with
    | none => exact inOrder
    | some index => exact inOrder.removeWhitespace index

theorem InOrder.commitPendingChanges (inserts : List EditorWhitespace)
    (changes : List PendingChange) (removes : List PendingRemove) :
    InOrder (layout.commitPendingChanges inserts changes removes).arr := by
  unfold LinesLayout.commitPendingChanges
  have same : (if inserts.length > 0 ∨ removes.length > 0 then
      { layout with minWidth := -1 } else layout).arr = layout.arr := by split_ifs <;> rfl
  rw [← same] at inOrder
  by_cases single : inserts.length + changes.length + removes.length ≤ 1
  · rw [if_pos single]
    exact inOrder.commitOne inserts changes removes
  · rw [if_neg single]
    exact pairwise_sort _

theorem InOrder.checkPendingChanges : InOrder layout.checkPendingChanges.arr := by
  unfold LinesLayout.checkPendingChanges
  dsimp only
  split_ifs
  · exact @InOrder.commitPendingChanges { layout with pendingChanges := .empty } inOrder _ _ _
  · exact inOrder

end

theorem arr_foldl_access (calls : List AccessorCall) :
    (calls.foldl LinesLayout.access layout).arr = layout.arr := by
  induction calls generalizing layout with
  | nil => rfl
  | cons call calls ih =>
    rw [foldl_cons, ih]
    cases call <;> rfl

theorem InOrder.changeWhitespace (inOrder : InOrder layout.arr) (calls : List AccessorCall) :
    InOrder (layout.changeWhitespace calls).arr := by
  apply InOrder.checkPendingChanges
  rwa [arr_foldl_access]

variable {fromLineNumber toLineNumber : Int}

theorem InOrder.moveInserted (inOrder : InOrder arr) (ordered : fromLineNumber ≤ toLineNumber) :
    InOrder (arr.map (.moveLine (lineAfterInsertion fromLineNumber toLineNumber))) := by
  apply pairwise_map.mpr
  apply inOrder.imp
  intro a b isBefore
  rw [sortsBefore_iff] at isBefore ⊢
  simp only [EditorWhitespace.moveLine, lineAfterInsertion]
  split_ifs <;> omega

/-- Deleting lines keeps the order exactly when the zones it puts on one line are in order. -/
theorem InOrder.moveDeleted_iff (inOrder : InOrder arr) (ordered : fromLineNumber ≤ toLineNumber) :
    InOrder (arr.map (.moveLine (lineAfterDeletion fromLineNumber toLineNumber))) ↔
      CollapsesInOrder fromLineNumber toLineNumber arr := by
  unfold InOrder CollapsesInOrder
  rw [pairwise_map]
  have pairs : ∀ {a b : EditorWhitespace}, sortsBefore a b →
      (sortsBefore (a.moveLine (lineAfterDeletion fromLineNumber toLineNumber))
        (b.moveLine (lineAfterDeletion fromLineNumber toLineNumber)) ↔
        (fromLineNumber - 1 ≤ a.afterLineNumber → b.afterLineNumber ≤ toLineNumber →
          a.ordinal ≤ b.ordinal)) := by
    intro a b isBefore
    rw [sortsBefore_iff] at isBefore ⊢
    simp only [EditorWhitespace.moveLine, lineAfterDeletion]
    split_ifs <;> omega
  constructor
  · intro moved
    exact moved.imp₂ (fun _ _ isMoved isBefore => (pairs isBefore).mp isMoved) inOrder
  · intro collapses
    exact collapses.imp₂ (fun _ _ isSmaller isBefore => (pairs isBefore).mpr isSmaller) inOrder

end Changes

/-! ## Runs -/

/-- What happens to a layout between its batches. -/
inductive LayoutChange where
  | changeWhitespace (calls : List AccessorCall)
  | onLinesDeleted (fromLineNumber toLineNumber : Int)
  | onLinesInserted (fromLineNumber toLineNumber : Int)
deriving DecidableEq, Repr

/-- The numbers of the first and the last line are line numbers, in this order. -/
def AreLines (fromLineNumber toLineNumber : Int) : Prop :=
  1 ≤ fromLineNumber ∧ fromLineNumber ≤ toLineNumber ∧ toLineNumber < 2 ^ 31

/-- The lines that are deleted or inserted are lines. -/
def LayoutChange.Valid : LayoutChange → Prop
  | .changeWhitespace _ => True
  | .onLinesDeleted fromLineNumber toLineNumber => AreLines fromLineNumber toLineNumber
  | .onLinesInserted fromLineNumber toLineNumber => AreLines fromLineNumber toLineNumber

namespace LinesLayout

def apply (layout : LinesLayout) : LayoutChange → LinesLayout
  | .changeWhitespace calls => layout.changeWhitespace calls
  | .onLinesDeleted fromLineNumber toLineNumber =>
    layout.onLinesDeleted fromLineNumber toLineNumber
  | .onLinesInserted fromLineNumber toLineNumber =>
    layout.onLinesInserted fromLineNumber toLineNumber

end LinesLayout

/-- No deletion of lines puts zones on one line out of order. -/
def KeepsOrder : LinesLayout → List LayoutChange → Prop
  | _, [] => True
  | layout, .onLinesDeleted fromLineNumber toLineNumber :: changes =>
    CollapsesInOrder fromLineNumber toLineNumber layout.checkPendingChanges.arr ∧
      KeepsOrder (layout.onLinesDeleted fromLineNumber toLineNumber) changes
  | layout, .onLinesInserted fromLineNumber toLineNumber :: changes =>
    KeepsOrder (layout.onLinesInserted fromLineNumber toLineNumber) changes
  | layout, .changeWhitespace calls :: changes =>
    KeepsOrder (layout.changeWhitespace calls) changes

/-- Every layout on the way has its zones in order. -/
def StaysInOrder (layout : LinesLayout) (changes : List LayoutChange) : Prop :=
  ∀ reached, reached <+: changes → InOrder (reached.foldl LinesLayout.apply layout).arr

theorem staysInOrder_cons {change : LayoutChange} {changes : List LayoutChange} :
    StaysInOrder layout (change :: changes) ↔
      InOrder layout.arr ∧ StaysInOrder (layout.apply change) changes := by
  constructor
  · intro stays
    refine ⟨stays [] nil_prefix, fun reached isPrefix => ?_⟩
    exact stays (change :: reached) (prefix_cons_inj change |>.mpr isPrefix)
  · rintro ⟨inOrder, stays⟩ reached isPrefix
    rcases prefix_cons_iff.mp isPrefix with rfl | ⟨later, rfl, isLater⟩
    · exact inOrder
    · exact stays later isLater

/-- From a layout in order on. -/
theorem InOrder.stays_iff {layout : LinesLayout} (inOrder : InOrder layout.arr)
    {changes : List LayoutChange} (valid : ∀ change ∈ changes, change.Valid) :
    StaysInOrder layout changes ↔ KeepsOrder layout changes := by
  induction changes generalizing layout with
  | nil =>
    refine iff_of_true (fun reached isPrefix => ?_) trivial
    rw [prefix_nil.mp isPrefix]
    exact inOrder
  | cons change changes ih =>
    obtain ⟨isValid, restValid⟩ := forall_mem_cons.mp valid
    rw [staysInOrder_cons, and_iff_right inOrder]
    cases change with
    | changeWhitespace calls =>
      exact ih (inOrder.changeWhitespace calls) restValid
    | onLinesInserted fromLineNumber toLineNumber =>
      obtain ⟨isFirst, ordered, isInt⟩ := isValid
      refine ih ?_ restValid
      unfold LinesLayout.apply LinesLayout.onLinesInserted
      dsimp only
      rw [toInt32_eq (by omega) (by omega), toInt32_eq (by omega) isInt]
      exact inOrder.checkPendingChanges.moveInserted ordered
    | onLinesDeleted fromLineNumber toLineNumber =>
      obtain ⟨isFirst, ordered, isInt⟩ := isValid
      have moved : InOrder (layout.onLinesDeleted fromLineNumber toLineNumber).arr ↔
          CollapsesInOrder fromLineNumber toLineNumber layout.checkPendingChanges.arr := by
        unfold LinesLayout.onLinesDeleted
        rw [toInt32_eq (by omega) (by omega), toInt32_eq (by omega) isInt]
        exact inOrder.checkPendingChanges.moveDeleted_iff ordered
      constructor
      · intro stays
        have isMoved := stays [] nil_prefix
        exact ⟨moved.mp isMoved, (ih isMoved restValid).mp stays⟩
      · rintro ⟨collapses, keeps⟩
        exact (ih (moved.mpr collapses) restValid).mpr keeps

/-- The zones of a layout stay sorted through all its changes exactly when no deletion of lines
puts zones on one line whose ordinals are out of order. -/
theorem zones_stay_in_order_iff (lineCount lineHeight paddingTop paddingBottom : Int)
    {changes : List LayoutChange} (valid : ∀ change ∈ changes, change.Valid) :
    StaysInOrder (.new lineCount lineHeight paddingTop paddingBottom) changes ↔
      KeepsOrder (.new lineCount lineHeight paddingTop paddingBottom) changes :=
  @InOrder.stays_iff (.new lineCount lineHeight paddingTop paddingBottom) List.Pairwise.nil
    changes valid

/-- A zone behind line 5 and one behind line 6 lose their lines. -/
def collapsingChanges (ordinal1 ordinal2 : Int) : List LayoutChange :=
  [.changeWhitespace [.insertWhitespace 5 ordinal1 20 0],
    .changeWhitespace [.insertWhitespace 6 ordinal2 20 0], .onLinesDeleted 5 6]

theorem valid_collapsingChanges (ordinal1 ordinal2 : Int) :
    ∀ change ∈ collapsingChanges ordinal1 ordinal2, change.Valid := by
  simp [collapsingChanges, LayoutChange.Valid, AreLines]

theorem zones_stay_in_order_iff_sample :
    KeepsOrder (.new 10 18 0 0) (collapsingChanges 1 10) ∧
      StaysInOrder (.new 10 18 0 0) (collapsingChanges 1 10) := by
  have keeps : KeepsOrder (.new 10 18 0 0) (collapsingChanges 1 10) :=
    ⟨by decide +kernel, trivial⟩
  exact ⟨keeps,
    (zones_stay_in_order_iff 10 18 0 0 (valid_collapsingChanges 1 10)).mpr keeps⟩

/-- The zone with the larger ordinal stays in front when both end up behind line 4. -/
theorem zones_leave_their_order :
    (∀ change ∈ collapsingChanges 10 1, change.Valid) ∧
      ¬StaysInOrder (.new 10 18 0 0) (collapsingChanges 10 1) := by
  refine ⟨valid_collapsingChanges 10 1, fun stays => ?_⟩
  have inOrder := stays (collapsingChanges 10 1) (prefix_refl _)
  revert inOrder
  decide +kernel

end CodeEditor.ViewLayout
