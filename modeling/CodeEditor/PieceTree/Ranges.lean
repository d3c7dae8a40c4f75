import CodeEditor.PieceTree.LineReads

/-!
# Reading ranges

`nodeAt2` finds the piece that contains a position, and `getValueInRange` reads the text
between two positions.
-/

namespace CodeEditor.PieceTree

open PieceTreeBase List Option Nat

section Find

variable {s : PieceTreeBase} {es : List Entry}

/-- A length that does not reach behind the first line break. -/
def WithinLine (length : Nat) (rest : Text) : Prop :=
  length ≤ rest.length ∧ ∀ stop, (breakEnds rest).head? = some stop → length ≤ stop

/-- A node position is right: the piece contains the offset. -/
structure Finds (es : List Entry) (offset : Nat) (pos : NodePosition)
    (before : List Entry) (p : Piece) (after : List Entry) : Prop where
  split : es = before ++ (pos.node, p) :: after
  remainder : pos.remainder = (offset : Int) - totalLength before
  lower : totalLength before ≤ offset
  upper : offset ≤ totalLength before + p.length

/-- The walk of `nodeAt2` behind the piece in which the line starts. -/
theorem nodeAt2Walk_spec {nodes : List TreeNode} (sound : Sound s.buffers (nodes.map entry))
    {length : Nat} (positive : 0 < length)
    (within : WithinLine length (textOf s.buffers (nodes.map entry))) :
    ∃ pos before p after, s.nodeAt2Walk nodes (length + 1) = some pos ∧
      Finds (nodes.map entry) length pos before p after := by
  induction nodes generalizing length with
  | nil =>
    have none : length ≤ 0 := within.1
    omega
  | cons x nodes ih =>
    obtain ⟨rest, pieceOk, -, lengthEq, count, joint⟩ := sound.cons
    simp only [map_cons, textOf_cons, entry] at within
    have column : ((length : Int) + 1) - 1 = length := by omega
    unfold PieceTreeBase.nodeAt2Walk
    split
    · rename_i some
      obtain ⟨stop, value, bounded, -, ends⟩ := pieceOk.firstBreak sound.ok (count ▸ some) joint
      have upTo := within.2 stop ends
      refine ⟨_, [], x.piece, nodes.map entry, rfl, rfl, ?_, zero_le _, ?_⟩
      · simp only [value, column, totalLength_nil]
        omega
      · rw [totalLength_nil]
        omega
    · rename_i none
      have zero : breakCount (contentOf s.buffers x.piece) = 0 := by omega
      split
      · rename_i inside
        refine ⟨_, [], x.piece, nodes.map entry, rfl, rfl, ?_, zero_le _, ?_⟩
        · simp only [column, totalLength_nil]
          omega
        · rw [totalLength_nil]
          omega
      · rename_i outside
        have noBreaks : breakEnds (contentOf s.buffers x.piece) = [] :=
          eq_nil_of_length_eq_zero zero
        obtain ⟨remaining, isRemaining⟩ : ∃ remaining, length = x.piece.length + remaining :=
          ⟨length - x.piece.length, by omega⟩
        have later : WithinLine remaining (textOf s.buffers (nodes.map entry)) := by
          constructor
          · have total := within.1
            rw [length_append, lengthEq] at total
            omega
          · intro stop isStop
            have bound := within.2 (x.piece.length + stop) (by
              rw [breakEnds_append_of_not_splits joint, noBreaks, nil_append,
                head?_map, isStop, lengthEq]
              rfl)
            omega
        obtain ⟨pos, before, p, after, found, finds⟩ := @ih rest remaining (by omega) later
        have moved : ((length : Int) + 1) - x.piece.length = remaining + 1 := by omega
        rw [moved]
        refine ⟨pos, entry x :: before, p, after, found, ?_, ?_, ?_, ?_⟩
        · rw [map_cons, finds.split]
          rfl
        · have remainder := finds.remainder
          simp only [totalLength_cons, entry]
          omega
        · have lower := finds.lower
          simp only [totalLength_cons, entry]
          omega
        · have upper := finds.upper
          simp only [totalLength_cons, entry]
          omega

/-- How the descent of `nodeAt2` ends, seen from the piece in which the line starts. -/
inductive Descends (s : PieceTreeBase) (id : Nat) (p : Piece) (i position : Nat) (column : Int) :
    Descent → Prop
  /-- The line ends in the piece. -/
  | inside {next : Nat} {offset : Int}
      (here : (lineStartsOf (contentOf s.buffers p))[i + 1]? = some next) :
      Descends s id p i position column (.found ⟨id, min (position + column - 1) next, offset⟩)
  /-- The line goes on behind the piece, and the position is in the piece. -/
  | last {offset : Int} (isLast : i = p.lineFeedCnt) (upTo : position + column - 1 ≤ p.length) :
      Descends s id p i position column (.found ⟨id, position + column - 1, offset⟩)
  /-- The position is behind the piece. -/
  | behind (isLast : i = p.lineFeedCnt) (beyond : (p.length : Int) < position + column - 1) :
      Descends s id p i position column (.spill id (column - (p.length - position)))

theorem nodeAt2From_spec {t : Tree} {k start : Nat} {column nodeStart : Int}
    (present : t ≠ .leaf) (sound : Sound s.buffers (entries t)) (metadata : MetadataOk t)
    (here : (lineStartsOf (textOf s.buffers (entries t)))[k]? = some start) :
    ∃ before id p after i position, StartsIn s (entries t) start before id p after i position ∧
      Descends s id p i position column (s.nodeAt2From t (k + 1) column nodeStart) := by
  refine line_descent (motive := fun t k start => ∀ nodeStart, ∃ before id p after i position,
    StartsIn s (entries t) start before id p after i position ∧
    Descends s id p i position column (s.nodeAt2From t (k + 1) column nodeStart))
    ?_ ?_ ?_ present sound metadata here nodeStart
  · intro l x r k start leftPresent upTo found nodeStart
    obtain ⟨before, id, p, after, i, position, starts, result⟩ := found nodeStart
    rw [PieceTreeBase.nodeAt2From, if_pos ⟨leftPresent, by omega⟩]
    exact ⟨before, id, p, _, i, position, starts.left, result⟩
  · intro l x r i position notLeft upTo size pieceOk count here nodeStart
    rw [PieceTreeBase.nodeAt2From, if_neg (fun both => notLeft ⟨both.1, by omega⟩),
      show ((x.lfLeft + i : Nat) : Int) + 1 - x.lfLeft - 2 = (i : Int) - 1 by omega,
      show ((x.lfLeft + i : Nat) : Int) + 1 - x.lfLeft - 1 = ((i + 1 : Nat) : Int) - 1 by omega,
      pieceOk.lineStart_eq sound.ok here]
    refine ⟨_, x.id, x.piece, _, i, position, ⟨entries_node _ _ _, by omega, here⟩, ?_⟩
    rcases lt_or_eq_of_le upTo with less | equal
    · obtain ⟨next, nextHere⟩ : ∃ next,
          (lineStartsOf (contentOf s.buffers x.piece))[i + 1]? = some next :=
        ⟨_, getElem?_eq_getElem (by rw [length_lineStartsOf]; omega)⟩
      rw [if_pos (by omega), pieceOk.lineStart_eq sound.ok nextHere]
      exact .inside nextHere
    · rw [if_neg (by omega), if_pos (by omega)]
      by_cases upTo : (position : Int) + column - 1 ≤ x.piece.length
      · simp only [upTo, if_true]
        exact .last equal upTo
      · simp only [upTo, if_false]
        exact .behind equal (by omega)
  · intro l x r j start size found nodeStart
    rw [PieceTreeBase.nodeAt2From, if_neg (fun both => by omega), if_neg (by omega),
      if_neg (by omega), show ((x.lfLeft + (x.piece.lineFeedCnt + j + 1) : Nat) : Int) + 1 -
        (x.lfLeft + x.piece.lineFeedCnt) = ((j + 1 : Nat) : Int) + 1 by omega]
    obtain ⟨before, id, p, after, i, position, starts, result⟩ :=
      found (nodeStart + (x.sizeLeft + x.piece.length))
    exact ⟨_, id, p, after, i, position, starts.right size, result⟩

/-- `nodeAt2` finds the piece that contains a position of a line. -/
theorem Inv.nodeAt2 (inv : Inv s es) (present : es ≠ []) {k start length : Nat}
    (here : (lineStartsOf (textOf s.buffers es))[k]? = some start)
    (within : WithinLine length ((textOf s.buffers es).drop start)) :
    ∃ pos before p after, s.nodeAt2 (k + 1) (length + 1) = some pos ∧
      Finds es (start + length) pos before p after := by
  have sound := inv.sound
  have entriesEq := inv.rep.holds.entries_eq
  have rootPresent : s.root ≠ .leaf :=
    fun leaf => present (inv.rep.holds.eq_leaf_iff.mp leaf)
  rw [← entriesEq] at here
  obtain ⟨before, id, p, after, i, position, starts, result⟩ :=
    @nodeAt2From_spec s s.root k start (length + 1) 0 rootPresent (entriesEq ▸ sound)
      inv.rep.holds.metadata here
  rw [entriesEq] at starts
  obtain ⟨dropped, restSound⟩ := starts.drop sound
  obtain ⟨afterSound, pieceOk, -, lengthEq, count, joint⟩ := restSound.cons
  have startEq := starts.start
  obtain ⟨bounded, startJoint, startCount⟩ := lineStart_split starts.here
  have dropJoint := splitsCRLF_drop_left position joint
  rw [dropped, drop_append_of_le_length bounded] at within
  have column : (position : Int) + (length + 1) - 1 = position + length := by omega
  rw [PieceTreeBase.nodeAt2]
  generalize s.nodeAt2From s.root (k + 1) (length + 1) 0 = descent at result ⊢
  cases result with
  | @inside next offset nextHere =>
    have first := breakEnds_drop_lineStart starts.here
    rw [nextHere, map_some] at first
    have upTo := within.2 (next - position) (by
      rw [breakEnds_append_of_not_splits dropJoint, head?_append, first]
      rfl)
    have increasing := lineStartsOf_strictMono starts.here nextHere (lt_succ_self i)
    obtain ⟨nextBounded, -, -⟩ := lineStart_split nextHere
    refine ⟨_, before, p, after, rfl, starts.split, ?_, by omega, by omega⟩
    simp only [column]
    omega
  | last isLast upTo =>
    refine ⟨_, before, p, after, rfl, starts.split, ?_, by omega, by omega⟩
    simp only [column]
    omega
  | behind isLast beyond =>
    have zero : breakCount ((contentOf s.buffers p).drop position) = 0 := by
      have total := breakCount_append_of_not_splits startJoint
      rw [take_append_drop] at total
      omega
    have noBreaks : breakEnds ((contentOf s.buffers p).drop position) = [] :=
      eq_nil_of_length_eq_zero zero
    have rep := inv.rep
    rw [starts.split] at rep
    have nodes := rep.holds.nodesAfter
    have size : ((contentOf s.buffers p).drop position).length = p.length - position := by
      rw [length_drop, lengthEq]
    obtain ⟨remaining, isRemaining⟩ : ∃ remaining,
        position + length = p.length + remaining := ⟨position + length - p.length, by omega⟩
    have later : WithinLine remaining (textOf s.buffers after) := by
      constructor
      · have total := within.1
        rw [length_append, size] at total
        omega
      · intro stop isStop
        have bound := within.2 ((p.length - position) + stop) (by
          rw [breakEnds_append_of_not_splits dropJoint, noBreaks, nil_append,
            head?_map, isStop, size]
          rfl)
        omega
    rw [← nodes] at afterSound later
    obtain ⟨pos, before', p', after', found, finds⟩ := nodeAt2Walk_spec afterSound
      (show 0 < remaining by omega) later
    have moved : (length : Int) + 1 - (p.length - position) = remaining + 1 := by omega
    simp only [moved]
    rw [nodes] at finds
    refine ⟨pos, before ++ (id, p) :: before', p', after', found, ?_, ?_, ?_, ?_⟩
    · rw [starts.split, finds.split]
      simp
    · have remainder := finds.remainder
      simp only [totalLength_append, totalLength_cons]
      omega
    · have lower := finds.lower
      simp only [totalLength_append, totalLength_cons]
      omega
    · have upper := finds.upper
      simp only [totalLength_append, totalLength_cons]
      omega

/-! ## The text between two positions -/

variable {before before' after after' : List Entry}

/-- The piece of the smaller offset is the same or comes before. -/
theorem Finds.ordered (finds : Finds es first pos before p after)
    (finds' : Finds es second pos' before' p' after') (less : first < second) :
    (pos.node = pos'.node ∧ p = p' ∧ before = before' ∧ after = after') ∨
      ∃ middle, before' = before ++ (pos.node, p) :: middle ∧
        after = middle ++ (pos'.node, p') :: after' := by
  have lower := finds.lower
  have upper := finds'.upper
  rcases append_eq_append_iff.mp (finds.split.symm.trans finds'.split) with
    ⟨middle, front, back⟩ | ⟨middle, front, back⟩
  · cases middle with
    | nil =>
      rw [nil_append, List.cons.injEq, Prod.mk.injEq] at back
      rw [append_nil] at front
      exact .inl ⟨back.1.1, back.1.2, front.symm, back.2⟩
    | cons e middle =>
      rw [cons_append, List.cons.injEq] at back
      rw [← back.1] at front
      exact .inr ⟨middle, front, back.2⟩
  · cases middle with
    | nil =>
      rw [nil_append, List.cons.injEq, Prod.mk.injEq] at back
      rw [append_nil] at front
      exact .inl ⟨back.1.1.symm, back.1.2.symm, front, back.2.symm⟩
    | cons e middle =>
      rw [cons_append, List.cons.injEq] at back
      rw [front, ← back.1, totalLength_append, totalLength_cons] at lower
      simp only at lower
      omega

/-- The loop behind the first piece reads up to the end position. -/
theorem getValueUpTo_spec (ok : BuffersOk s.buffers) {endPosition : NodePosition}
    {nodes : List TreeNode} {middle after : List Entry} {p : Piece} {stop : Nat}
    (pieces : ∀ e ∈ nodes.map entry, PieceOk s.buffers e.2)
    (split : nodes.map entry = middle ++ (endPosition.node, p) :: after)
    (fresh : endPosition.node ∉ ids middle) (remainder : endPosition.remainder = stop)
    (bounded : stop ≤ p.length) :
    s.getValueUpTo endPosition nodes =
      textOf s.buffers middle ++ (contentOf s.buffers p).take stop := by
  induction middle generalizing nodes with
  | nil =>
    cases nodes with
    | nil => simp at split
    | cons x nodes =>
      simp only [map_cons, nil_append, List.cons.injEq, entry, Prod.mk.injEq] at split
      have pieceOk := pieces (entry x) (by simp)
      rw [entry, split.1.2] at pieceOk
      rw [getValueUpTo, if_pos split.1.1, split.1.2, remainder,
        show (0 : Int) = ((0 : Nat) : Int) from rfl,
        pieceOk.pieceSubstring ok (zero_le _) bounded]
      simp
  | cons e middle ih =>
    cases nodes with
    | nil => simp at split
    | cons x nodes =>
      simp only [map_cons, cons_append, List.cons.injEq] at split
      have pieceOk := pieces (entry x) (by simp)
      have other : x.id ≠ endPosition.node := by
        intro same
        apply fresh
        rw [← same, ← split.1]
        simp [entry, ids]
      rw [getValueUpTo, if_neg other, PieceOk.substr (by simpa [entry] using pieceOk) ok,
        ih (fun e member => pieces e (by simp [member])) split.2
          (fun member => fresh (by rw [ids, map_cons]; exact mem_cons_of_mem _ member)),
        ← split.1, textOf_cons, append_assoc]
      rfl

theorem substring_of_parts {front back middle : Text} {a b first second : Nat}
    (isFirst : first = front.length + a) (isSecond : second = front.length + b)
    (ordered : a ≤ b) (bounded : b ≤ middle.length) :
    substring (front ++ middle ++ back) first second = (middle.take b).drop a := by
  rw [substring_of_le _ (by omega), isFirst, isSecond, append_assoc,
    take_length_add_append, drop_length_add_append,
    take_append_of_le_length bounded]

/-- The pieces between two node positions. -/
theorem Inv.getValueInRange2 (inv : Inv s es) (finds : Finds es first pos before p after)
    (finds' : Finds es second pos' before' p' after') (less : first < second) :
    s.getValueInRange2 pos pos' = some (substring (textOf s.buffers es) first second) := by
  have sound := inv.sound
  have ok := sound.ok
  have rep := inv.rep
  rw [finds.split] at rep
  have distinct := rep.holds.distinct
  obtain ⟨node, found, -, piece⟩ := rep.node?
  have length := rep.length_content
  have pieceOk := rep.pieceOk
  have lower := finds.lower
  have upper := finds.upper
  have lower' := finds'.lower
  have upper' := finds'.upper
  have remainder : pos.remainder = ((first - totalLength before : Nat) : Int) := by
    rw [finds.remainder]
    omega
  have remainder' : pos'.remainder = ((second - totalLength before' : Nat) : Int) := by
    rw [finds'.remainder]
    omega
  have frontSound : Sound s.buffers before := by
    rw [finds.split] at sound
    exact sound.append.1
  have frontLength := frontSound.totalLength
  rw [PieceTreeBase.getValueInRange2, found, bind_eq_bind, bind_some, piece]
  rcases finds.ordered finds' less with ⟨node, rfl, rfl, -⟩ | ⟨middle, isBefore, isAfter⟩
  · rw [if_pos node, remainder, remainder', pieceOk.pieceSubstring ok (by omega) (by omega),
      finds.split, textOf_append, textOf_cons, ← append_assoc,
      substring_of_parts (show first = _ + (first - totalLength before) by omega)
        (show second = _ + (second - totalLength before) by omega) (by omega)
        (by rw [length]; omega)]
  · have restSound : Sound s.buffers (middle ++ (pos'.node, p') :: after') := by
      rw [finds.split, ← singleton_append, isAfter] at sound
      exact sound.append.2.1.append.2.1
    have lastOk : PieceOk s.buffers p' := restSound.pieces (pos'.node, p') (by simp)
    have lastLength := lastOk.length_content ok
    have middleLength := restSound.append.1.totalLength
    rw [isBefore, totalLength_append, totalLength_cons] at lower' upper' remainder'
    simp only at lower' upper' remainder'
    have isNodes := rep.holds.nodesAfter
    rw [isAfter] at isNodes distinct
    simp only [ids, map_append, map_cons] at distinct
    have other : pos.node ≠ pos'.node := by
      intro same
      have behind := (nodup_cons.mp (nodup_append.mp distinct).2.1).1
      rw [same] at behind
      simp at behind
    have fresh : pos'.node ∉ ids middle := by
      intro member
      have behind := (nodup_cons.mp (nodup_append.mp distinct).2.1).2
      exact (nodup_append.mp behind).2.2 _ member _ (by simp) rfl
    generalize isStop : second - (totalLength before + (p.length + totalLength middle)) = stop
      at remainder'
    rw [if_neg other, remainder, pieceOk.pieceSubstring ok (by omega) le_rfl,
      getValueUpTo_spec ok (isNodes ▸ restSound.pieces) isNodes fresh remainder' (by omega),
      finds.split, isAfter, textOf_append, textOf_cons, textOf_append, textOf_cons]
    have regroup : textOf s.buffers before ++ (contentOf s.buffers p ++
        (textOf s.buffers middle ++ (contentOf s.buffers p' ++ textOf s.buffers after'))) =
        textOf s.buffers before ++ (contentOf s.buffers p ++ textOf s.buffers middle ++
          contentOf s.buffers p') ++ textOf s.buffers after' := by
      simp only [append_assoc]
    rw [regroup, substring_of_parts (show first = _ + (first - totalLength before) by omega)
      (show second = _ + ((contentOf s.buffers p ++ textOf s.buffers middle).length + stop) by
        rw [length_append]
        omega) (by rw [length_append]; omega)
      (by simp only [length_append]; omega),
      take_length_add_append, append_assoc,
      drop_append_of_le_length (by omega), take_of_length_le (le_of_eq length)]

/-- A position in the content of a line, and its offset. -/
def ValidAt (text : Text) (position : Position) (offset : Nat) : Prop :=
  ∃ k front line back, LineAt text k front line back ∧ position.lineNumber = k + 1 ∧
    ∃ length : Nat, length ≤ line.length ∧ position.column = length + 1 ∧
      offset = front.length + length

/-- A part of a line ends before the line break. -/
theorem withinLine_of_lineAt {text front line back : Text} {k length : Nat}
    (lineAt : LineAt text k front line back) (bounded : length ≤ line.length) :
    WithinLine length (text.drop front.length) := by
  have dropped : text.drop front.length = line ++ back := by
    rw [lineAt.text_eq, append_assoc, drop_left]
  constructor
  · rw [dropped, length_append]
    omega
  · intro stop isStop
    rw [breakEnds_drop_lineStart lineAt.start] at isStop
    obtain ⟨next, isNext, rfl⟩ := map_eq_some_iff.mp isStop
    rcases lineAt.next with ⟨-, isLast⟩ | ⟨lineBreak, rest, -, -, behind⟩
    · have bound := lineStartsOf_isSome isNext
      omega
    · rw [behind, Option.some.injEq] at isNext
      omega

theorem Inv.getOffsetAt_of_valid (inv : Inv s es)
    (valid : ValidAt (textOf s.buffers es) position offset) :
    s.getOffsetAt position.lineNumber position.column = offset := by
  obtain ⟨k, front, line, back, lineAt, isLine, length, bounded, isColumn, isOffset⟩ := valid
  have present : es ≠ [] ∨ position.column = 1 := by
    by_cases empty : es = []
    · subst empty
      have total := congrArg List.length lineAt.text_eq
      simp only [textOf_nil, length_nil, length_append] at total
      exact .inr (by omega)
    · exact .inl empty
  rw [isLine, inv.getOffsetAt lineAt.start present]
  omega

theorem Inv.nodeAt2_of_valid (inv : Inv s es) (present : es ≠ [])
    (valid : ValidAt (textOf s.buffers es) position offset) :
    ∃ pos before p after, s.nodeAt2 position.lineNumber position.column = some pos ∧
      Finds es offset pos before p after := by
  obtain ⟨k, front, line, back, lineAt, isLine, length, bounded, isColumn, isOffset⟩ := valid
  rw [isLine, isColumn, isOffset]
  exact inv.nodeAt2 present lineAt.start (withinLine_of_lineAt lineAt bounded)

/-- `getValueInRange` reads the text between two positions, and makes its line breaks the
ones that are asked for. -/
theorem Inv.getValueInRange (inv : Inv s es) {range : Range} {first second : Nat}
    (start : ValidAt (textOf s.buffers es) ⟨range.startLineNumber, range.startColumn⟩ first)
    (stop : ValidAt (textOf s.buffers es) ⟨range.endLineNumber, range.endColumn⟩ second)
    (less : first < second) (eol : EOL) :
    s.getValueInRange range (some eol) = some (if eol ≠ s.eol ∨ s.eolNormalized = false then
        replaceEOL eol.text (substring (textOf s.buffers es) first second)
      else substring (textOf s.buffers es) first second) := by
  have present : es ≠ [] := by
    intro empty
    subst empty
    obtain ⟨k, front, line, back, lineAt, -, length, bounded, -, isOffset⟩ := stop
    have total := congrArg List.length lineAt.text_eq
    simp only [textOf_nil, length_nil, length_append] at total
    omega
  have different : ¬(range.startLineNumber = range.endLineNumber ∧
      range.startColumn = range.endColumn) := by
    rintro ⟨sameLine, sameColumn⟩
    have offset := inv.getOffsetAt_of_valid start
    rw [sameLine, sameColumn, inv.getOffsetAt_of_valid stop] at offset
    omega
  obtain ⟨pos, before, p, after, found, finds⟩ := inv.nodeAt2_of_valid present start
  obtain ⟨pos', before', p', after', found', finds'⟩ := inv.nodeAt2_of_valid present stop
  rw [PieceTreeBase.getValueInRange, if_neg different, found, found']
  simp only [bind_eq_bind, bind_some, inv.getValueInRange2 finds finds' less]
  split <;> rfl

end Find

end CodeEditor.PieceTree
