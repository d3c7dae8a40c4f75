import CodeEditor.PieceTree.NewPieces

/-!
# Repairing `\r\n` at piece borders

The source never leaves a `\r` at the end of a piece when the next piece starts
with `\n`. This module shows that its character tests see the content of the
pieces, and what the repair functions do to the sequence of pieces.
-/

namespace CodeEditor.PieceTree

open PieceTreeBase List Option Nat

/-! ## Character tests -/

section Tests

variable {s : PieceTreeBase} {p : Piece} {first last : Nat}

theorem Denotes.getElem?_content (denotes : Denotes s.buffers p first last)
    (ok : BuffersOk s.buffers) {offset : Nat} (inside : offset < p.length) :
    (contentOf s.buffers p)[offset]? = (bufferText s.buffers p.bufferIndex)[first + offset]? := by
  have length := denotes.length
  rw [denotes.content ok, substring_of_le _ denotes.ordered,
    getElem?_drop, getElem?_take_of_lt (by omega)]

/-- `nodeCharCodeAt` finds the line breaks of a piece. -/
theorem PieceOk.nodeCharCodeAt (pieceOk : PieceOk s.buffers p)
    (ok : BuffersOk s.buffers) {offset : Nat} (inside : offset < p.length)
    {unit : CodeUnit} (isBreak : unit = CR ∨ unit = LF) :
    (s.nodeCharCodeAt p offset == some unit) = ((contentOf s.buffers p)[offset]? == some unit) := by
  have count := pieceOk.lineFeedCnt_eq ok (by omega)
  obtain ⟨first, last, denotes⟩ := pieceOk
  have startOffset : s.offsetInBuffer p.bufferIndex p.start = first :=
    denotes.startOffset ok
  have same : (s.bufferAt p.bufferIndex).buffer[first + offset]? =
      (contentOf s.buffers p)[offset]? :=
    (denotes.getElem?_content ok inside).symm
  rw [PieceTreeBase.nodeCharCodeAt, startOffset, same]
  split
  · rename_i none
    cases found : (contentOf s.buffers p)[offset]? == some unit with
    | false => rfl
    | true =>
      have := breakCount_pos_of_mem isBreak (mem_of_getElem? (by simpa using found))
      omega
  · rfl

theorem startWithLF_none : s.startWithLF none = false := rfl

theorem endWithCR_none : s.endWithCR none = false := rfl

theorem pieceStartsWithLF_eq (ok : BufferOk b) (start : p.start = cursorAt b.buffer first)
    (counted : b.buffer[first]? = some LF → p.lineFeedCnt ≠ 0) :
    pieceStartsWithLF b p = (b.buffer[first]? == some LF) := by
  have startOffset := ok.lineStartAt_add_column first
  rw [← start] at startOffset
  simp only [pieceStartsWithLF, startOffset]
  cases isLF : b.buffer[first]? == some LF with
  | false => simp
  | true =>
    -- the line that the piece starts on ends right behind its first character
    have lineEnd : breakEndsAt b.buffer (first + 1) = true := by
      simp [breakEndsAt_succ, isLF]
    have nextLine := lineIndex_succ b.buffer first
    rw [lineEnd, if_pos rfl] at nextLine
    have lineEq : p.start.line = lineIndex b.buffer first := by
      rw [start, cursorAt]
    have nextStart := ok.lineStartAt (first + 1)
    rw [nextLine, lineStart_of_breakEndsAt lineEnd, ← lineEq] at nextStart
    have notLast : ¬p.start.line + 1 = b.lineStarts.length := by
      have bound := lineIndex_le_breakCount b.buffer (first + 1)
      rw [ok, length_lineStartsOf]
      omega
    rw [if_neg (counted (by simpa using isLF)), if_neg notLast, nextStart, if_neg (lt_irrefl _)]

section

variable {id : Nat} (found : s.node? id = some n) (pieceOk : PieceOk s.buffers n.piece)
  (ok : BuffersOk s.buffers) (nonempty : n.piece.length ≠ 0)

include found pieceOk ok nonempty

/-- `startWithLF` on a node that hangs in the tree. -/
theorem startWithLF_eq : s.startWithLF (some id) = startsWithLF (contentOf s.buffers n.piece) := by
  have count := pieceOk.lineFeedCnt_eq ok nonempty
  obtain ⟨first, last, denotes⟩ := pieceOk
  have head := denotes.getElem?_content ok (Nat.pos_of_ne_zero nonempty)
  have test := pieceStartsWithLF_eq (denotes.bufferOk ok) denotes.start (by
    intro isLF
    have : (contentOf s.buffers n.piece)[0]? = some LF := head.trans isLF
    have := breakCount_pos_of_mem (.inr rfl) (mem_of_getElem? this)
    omega)
  rw [startsWithLF, head?_eq_getElem?, head]
  simp only [PieceTreeBase.startWithLF, bind_some, found]
  exact test

theorem endWithCR_eq : s.endWithCR (some id) = endsWithCR (contentOf s.buffers n.piece) := by
  have test := pieceOk.nodeCharCodeAt ok
    (show n.piece.length - 1 < n.piece.length by omega) (.inl rfl)
  have last : endsWithCR (contentOf s.buffers n.piece) =
      ((contentOf s.buffers n.piece)[n.piece.length - 1]? == some CR) := by
    rw [endsWithCR, getLast?_eq_getElem?, pieceOk.length_content ok]
  simp only [PieceTreeBase.endWithCR, bind_some, found]
  rw [last, ← test]
  split
  · rename_i none
    simp [PieceTreeBase.nodeCharCodeAt, none]
  · rfl

end

end Tests

/-! ## Dropping half of a break -/

section Drop

variable {s : PieceTreeBase} {p : Piece}

theorem breakCount_cons_LF (rest : Text) : breakCount (LF :: rest) = breakCount rest + 1 := by
  simp [breakCount, breakEnds_cons, Nat.add_comm]

theorem breakCount_concat_CR (initial : Text) :
    breakCount (initial ++ [CR]) = breakCount initial + 1 := by
  rw [breakCount_append_of_not_splits (by simp [splitsCRLF])]
  rfl

/-- A piece without its leading `\n`. -/
theorem dropLeadingLF_spec (ok : BuffersOk s.buffers) (pieceOk : PieceOk s.buffers p) {rest : Text}
    (content : contentOf s.buffers p = LF :: rest) :
    PieceOk s.buffers (s.dropLeadingLF p) ∧ contentOf s.buffers (s.dropLeadingLF p) = rest ∧
      (s.dropLeadingLF p).length + 1 = p.length ∧
      (s.dropLeadingLF p).lineFeedCnt + 1 = p.lineFeedCnt ∧
      (atTail s.buffers (s.dropLeadingLF p) = atTail s.buffers p) := by
  have lengthEq := pieceOk.length_content ok
  have count := pieceOk.lineFeedCnt_eq ok (by rw [← lengthEq, content]; simp)
  rw [content, breakCount_cons_LF] at count
  obtain ⟨first, last, denotes⟩ := pieceOk
  have length := denotes.length
  have bounded := denotes.bounded
  rw [content, length_cons] at lengthEq
  have head := denotes.getElem?_content ok (by omega : 0 < p.length)
  rw [content, Nat.add_zero] at head
  -- the piece now starts on the next line
  have lineEnd : breakEndsAt (bufferText s.buffers p.bufferIndex) (first + 1) =
      true := by
    simp [breakEndsAt_succ, ← head]
  have startEq : (⟨p.start.line + 1, 0⟩ : BufferCursor) =
      cursorAt (bufferText s.buffers p.bufferIndex) (first + 1) := by
    rw [cursorAt, lineIndex_succ, lineEnd, lineStart_of_breakEndsAt lineEnd,
      denotes.start, cursorAt]
    simp
  have shorter : Denotes s.buffers (s.dropLeadingLF p) (first + 1) last := by
    refine denotes_of_cursors ok denotes.known (by omega) bounded startEq denotes.stop ?_ rfl
    simp only [dropLeadingLF]
    omega
  have rest_eq : contentOf s.buffers (s.dropLeadingLF p) = rest := by
    have dropped := substring_drop (bufferText s.buffers p.bufferIndex)
      (by omega : first + 1 ≤ last)
    rw [← denotes.content ok, content] at dropped
    exact (shorter.content ok).trans dropped
  refine ⟨⟨_, _, shorter⟩, rest_eq, ?_, ?_, rfl⟩
  · simp only [dropLeadingLF]
    omega
  · by_cases empty : first + 1 = last
    · have none : rest = [] := eq_nil_of_length_eq_zero (by omega)
      have stopEq : p.stop = ⟨p.start.line + 1, 0⟩ := by
        rw [startEq, empty, denotes.stop]
      have zero : (s.dropLeadingLF p).lineFeedCnt = 0 := by
        simp [dropLeadingLF, getLineFeedCnt, stopEq]
      rw [zero, count, none]
      rfl
    · have := PieceOk.lineFeedCnt_eq ⟨_, _, shorter⟩ ok (by rw [shorter.length]; omega)
      rw [this, rest_eq, count]

/-- A piece without its trailing `\r`. -/
theorem dropTrailingCR_spec (ok : BuffersOk s.buffers)
    (pieceOk : PieceOk s.buffers p) {initial : Text}
    (content : contentOf s.buffers p = initial ++ [CR]) :
    PieceOk s.buffers (s.dropTrailingCR p) ∧ contentOf s.buffers (s.dropTrailingCR p) = initial ∧
      (s.dropTrailingCR p).length + 1 = p.length ∧
      (s.dropTrailingCR p).lineFeedCnt + 1 = p.lineFeedCnt ∧
      atTail s.buffers (s.dropTrailingCR p) = false := by
  have lengthEq := pieceOk.length_content ok
  have count := pieceOk.lineFeedCnt_eq ok (by rw [← lengthEq, content]; simp)
  rw [content, breakCount_concat_CR] at count
  obtain ⟨first, last, denotes⟩ := pieceOk
  have length := denotes.length
  have bounded := denotes.bounded
  rw [content, length_append, length_singleton] at lengthEq
  obtain ⟨before, rfl⟩ : ∃ before, last = before + 1 := ⟨last - 1, by omega⟩
  have stopLine : p.stop.line = lineIndex (bufferText s.buffers p.bufferIndex) (before + 1) := by
    rw [denotes.stop, cursorAt]
  have stopColumn : p.stop.column = before + 1 -
      lineStart (bufferText s.buffers p.bufferIndex) (before + 1) := by
    rw [denotes.stop, cursorAt]
  have bufferOk := denotes.bufferOk ok
  have stopEq : (s.dropTrailingCR p).stop =
      cursorAt (bufferText s.buffers p.bufferIndex) before := by
    have column := @cursorAt_column_eq_zero_iff (bufferText s.buffers p.bufferIndex) (before + 1)
    rw [← denotes.stop] at column
    simp only [dropTrailingCR]
    have nextLine := lineIndex_succ (bufferText s.buffers p.bufferIndex) before
    cases lineEnd : breakEndsAt (bufferText s.buffers p.bufferIndex) (before + 1) with
    | true =>
      have zero : p.stop.column = 0 := column.mpr (.inr lineEnd)
      rw [lineEnd, if_pos rfl] at nextLine
      have here : (s.bufferAt p.bufferIndex).lineStartAt
          (lineIndex (bufferText s.buffers p.bufferIndex) before) =
            lineStart (bufferText s.buffers p.bufferIndex) before :=
        bufferOk.lineStartAt before
      have next : (s.bufferAt p.bufferIndex).lineStartAt
          (lineIndex (bufferText s.buffers p.bufferIndex) (before + 1)) =
            lineStart (bufferText s.buffers p.bufferIndex) (before + 1) :=
        bufferOk.lineStartAt (before + 1)
      rw [lineStart_of_breakEndsAt lineEnd] at next
      rw [if_pos zero, stopLine, next, nextLine, Nat.add_sub_cancel, here, cursorAt]
      simp
      omega
    | false =>
      have nonzero : ¬p.stop.column = 0 := fun zero => by
        simpa [lineEnd] using column.mp zero
      rw [lineEnd] at nextLine
      have sameStart := lineStart_succ_of_not_breakEndsAt lineEnd
      rw [if_neg nonzero, stopLine, stopColumn, nextLine, sameStart, cursorAt]
      simp
      omega
  have taken := substring_take (bufferText s.buffers p.bufferIndex)
    (by omega : first + initial.length ≤ before + 1)
  rw [← denotes.content ok, content, take_left,
    show first + initial.length = before by omega] at taken
  have shorter : Denotes s.buffers (s.dropTrailingCR p) first before := by
    refine ⟨denotes.known, by omega, Nat.le_of_succ_le bounded, denotes.start,
      stopEq, ?_, fun _ => ?_⟩
    · simp only [dropTrailingCR]
      omega
    · change p.lineFeedCnt - 1 = _
      rw [count, Nat.add_sub_cancel, ← taken]
      rfl
  refine ⟨⟨_, _, shorter⟩, ?_, ?_, ?_, ?_⟩
  · exact (shorter.content ok).trans taken
  · simp only [dropTrailingCR]
    omega
  · simp only [dropTrailingCR]
    omega
  · refine shorter.atTail_eq_false ?_
    intro zero
    have index : p.bufferIndex = 0 := zero
    rw [index] at bounded
    omega

end Drop

/-! ## Repair -/

section Steps

variable {s : PieceTreeBase} {es fs : List Entry} {id : Nat} {p : Piece}

theorem deleteNodes_append (s : PieceTreeBase) (first second : List Nat) :
    s.deleteNodes (first ++ second) = (s.deleteNodes first).bind fun s => s.deleteNodes second := by
  induction first generalizing s with
  | nil => rfl
  | cons id first ih =>
    simp only [cons_append, deleteNodes, bind_eq_bind, bind_assoc, ih]

section

variable (rep : Rep s (es ++ (id, p) :: fs)) (nonempty : contentOf s.buffers p ≠ [])

include rep nonempty

theorem Rep.length_ne_zero : p.length ≠ 0 := by
  rw [← rep.length_content]
  exact fun zero => nonempty (eq_nil_of_length_eq_zero zero)

theorem Rep.startWithLF : s.startWithLF (some id) = startsWithLF (contentOf s.buffers p) := by
  obtain ⟨n, found, -, rfl⟩ := rep.node?
  exact startWithLF_eq found rep.pieceOk rep.buffers (rep.length_ne_zero nonempty)

theorem Rep.endWithCR : s.endWithCR (some id) = endsWithCR (contentOf s.buffers p) := by
  obtain ⟨n, found, -, rfl⟩ := rep.node?
  exact endWithCR_eq found rep.pieceOk rep.buffers (rep.length_ne_zero nonempty)

end

/-- Deleting a node if a condition holds. -/
theorem Rep.deleteIf (rep : Rep s (es ++ (id, p) :: fs)) (c : Prop) [Decidable c] :
    ∃ s', s.deleteNodes (if c then [id] else []) = some s' ∧ OnlyTree s s' ∧
      Rep s' (es ++ (if c then [] else [(id, p)]) ++ fs) := by
  split
  · obtain ⟨s', deleted, only, rep'⟩ := rep.rbDelete
    exact ⟨s', by simp [deleteNodes, deleted], only, by simpa using rep'⟩
  · exact ⟨s, rfl, .refl s, by simpa using rep⟩

/-- `fixCRLF` moves the `\r` at the end of one piece and the `\n` at the start
of the next one into a new piece between them. -/
theorem Rep.fixCRLF {a b : Nat} {pa pb : Piece} {initial rest : Text}
    (rep : Rep s (es ++ (a, pa) :: (b, pb) :: fs))
    (contentA : contentOf s.buffers pa = initial ++ [CR])
    (contentB : contentOf s.buffers pb = LF :: rest) :
    ∃ s' middle, s.fixCRLF a b = some s' ∧ Frame s s' ∧ Rep s' (es ++ middle ++ fs) ∧
      parts s'.buffers middle = (if initial = [] then [] else [initial]) ++
        [CR, LF] :: (if rest = [] then [] else [rest]) ∧
      (a ∈ ids middle → ∃ p' tail, middle = (a, p') :: tail) ∧
      ∀ other < s.nextId, other ∈ ids middle → other = a ∨ other = b := by
  -- shorten the two pieces
  obtain ⟨n, foundA, -, pieceA⟩ := rep.node?
  have lengthA := rep.length_content
  obtain ⟨okA, contentA', shorterA, lfA, tailA⟩ :=
    dropTrailingCR_spec rep.buffers rep.pieceOk contentA
  obtain ⟨s₁, s₂, setA, updateA, onlyA, repA⟩ := rep.replace (-1) (-1) okA
    (by simp [tailA]) (by omega) (by omega)
  rw [append_cons] at repA
  obtain ⟨m, foundB, -, pieceB⟩ := repA.node?
  have lengthB := repA.length_content
  rw [← onlyA.buffers] at contentB
  obtain ⟨okB, contentB', shorterB, lfB, tailB⟩ :=
    dropLeadingLF_spec repA.buffers repA.pieceOk contentB
  obtain ⟨s₃, s₄, setB, updateB, onlyB, repB⟩ := repA.replace (-1) (-1) okB
    (by simp [tailB]) (by omega) (by omega)
  -- the new piece between them
  obtain ⟨q, s₅, created, new⟩ :=
    @createNewPieces_short [CR, LF] _ _ repB (by simp) (by decide)
  have repC := new.rep
  have tailC := new.tail
  rw [← append_cons] at repC tailC
  rw [countP_singleton] at tailC
  obtain ⟨id, s₆, inserted, onlyC, repD⟩ := repC.rbInsertRight (new.pieceOk q (by simp)) tailC
  -- the deletion of pieces that became empty
  obtain ⟨s₇, deletedA, onlyD, repE⟩ := repD.deleteIf (pa.length - 1 = 0)
  rw [append_cons] at repE
  obtain ⟨s₈, deletedB, onlyE, repF⟩ := repE.deleteIf (pb.length - 1 = 0)
  refine ⟨s₈, (if pa.length - 1 = 0 then [] else [(a, s.dropTrailingCR pa)]) ++
    (id, q) :: (if pb.length - 1 = 0 then [] else [(b, s₂.dropLeadingLF pb)]),
    ?_, ?_, by simpa using repF, ?_, ?_, ?_⟩
  · simp [PieceTreeBase.fixCRLF, foundA, pieceA, setA, updateA, foundB, pieceB,
      setB, updateB, created, inserted, deleteNodes_append, deletedA, deletedB]
  · exact onlyA.frame.trans (onlyB.frame.trans (new.frame.trans
      (onlyC.frame.trans (onlyD.frame.trans onlyE.frame))))
  · have finalBuffers : s₈.buffers = s₅.buffers :=
      onlyE.buffers.trans (onlyD.buffers.trans onlyC.buffers)
    have middleBuffers : s₄.buffers = s.buffers :=
      onlyB.buffers.trans onlyA.buffers
    have grown : Extends s.buffers s₅.buffers := middleBuffers ▸ new.frame.grown
    have keptA : contentOf s₅.buffers (s.dropTrailingCR pa) = initial :=
      (okA.contentOf_extend grown rep.buffers new.rep.buffers).trans contentA'
    have keptB : contentOf s₅.buffers (s₂.dropLeadingLF pb) = rest :=
      (okB.contentOf_extend (onlyB.buffers ▸ new.frame.grown) repA.buffers
        new.rep.buffers).trans contentB'
    have newContent : contentOf s₅.buffers q = [CR, LF] := by
      simpa using new.content
    have emptyA : pa.length - 1 = 0 ↔ initial = [] := by
      rw [← length_eq_zero_iff, ← lengthA, contentA]
      simp
    have emptyB : pb.length - 1 = 0 ↔ rest = [] := by
      rw [← length_eq_zero_iff, ← lengthB, contentB]
      simp
    rw [finalBuffers, parts_append, parts_cons, newContent]
    congr 1
    · by_cases empty : initial = [] <;> simp [emptyA, empty, keptA]
    · by_cases empty : rest = [] <;> simp [emptyB, empty, keptB]
  · intro member
    obtain ⟨-, notLater⟩ := not_mem_ids_of_distinct repD.holds.distinct
    by_cases empty : pa.length - 1 = 0
    · refine absurd ?_ notLater
      by_cases emptyB : pb.length - 1 = 0
      · simp [empty, emptyB] at member
        simp [member]
      · simp [empty, emptyB] at member
        rcases member with same | same <;> simp [same]
    · exact ⟨_, _, by rw [if_neg empty]; rfl⟩
  · intro other old member
    have fresh := rbInsertRight_id inserted
    have allocated := (onlyA.frame.trans (onlyB.frame.trans new.frame)).allocated
    simp only [ids_append, ids_cons, mem_append, mem_cons] at member
    rcases member with inA | same | inB
    · by_cases empty : pa.length - 1 = 0 <;> simp [empty] at inA
      exact .inl inA
    · omega
    · by_cases empty : pb.length - 1 = 0 <;> simp [empty] at inB
      exact .inr inB

/-- A node that survives in `es` still follows the entries `before`. -/
def KeepsAt (before : List Entry) (id : Nat) (es : List Entry) : Prop :=
  id ∈ ids es → ∃ p after, es = before ++ (id, p) :: after

/-- After the borders of the entries `old` were mended, `s'` holds the entries
`front` in their place, followed by the entries `fs` as before. -/
structure Mended (s s' : PieceTreeBase) (old front fs : List Entry) : Prop where
  frame : Frame s s'
  rep : Rep s' (front ++ fs)
  text : textOf s'.buffers front = textOf s.buffers old
  nonempty : [] ∉ parts s'.buffers front
  whole : Whole (parts s'.buffers (front ++ fs))
  known : ∀ other < s.nextId, other ∈ ids front → other ∈ ids old

/-- Nothing is to be mended when no `\r\n` is cut at the border. -/
theorem Rep.mended_self (rep : Rep s (es ++ (id, p) :: fs))
    (nonempty : [] ∉ parts s.buffers (es ++ [(id, p)]))
    (wholeLeft : Whole (parts s.buffers es))
    (wholeRight : Whole (parts s.buffers ((id, p) :: fs)))
    (joint : splitsCRLF (textOf s.buffers es) (textOf s.buffers ((id, p) :: fs)) = false) :
    Mended s s (es ++ [(id, p)]) (es ++ [(id, p)]) fs := by
  refine ⟨.refl s, by simpa using rep, rfl, nonempty, ?_, fun _ _ member => member⟩
  rw [← append_cons, parts_append]
  exact whole_append.mpr ⟨wholeLeft, wholeRight, joint⟩

/-- A cut `\r\n` is mended by `fixCRLF`. -/
theorem Rep.mended_fixCRLF {a b : Nat} {pa pb : Piece}
    (rep : Rep s ((es ++ [(a, pa)]) ++ (b, pb) :: fs))
    (nonempty : [] ∉ parts s.buffers es)
    (wholeLeft : Whole (parts s.buffers (es ++ [(a, pa)])))
    (wholeRight : Whole (parts s.buffers ((b, pb) :: fs)))
    (ends : endsWithCR (contentOf s.buffers pa) = true)
    (starts : startsWithLF (contentOf s.buffers pb) = true) :
    ∃ s' front, s.fixCRLF a b = some s' ∧ Mended s s' ((es ++ [(a, pa)]) ++ [(b, pb)]) front fs ∧
      KeepsAt es a (front ++ fs) := by
  obtain ⟨initial, contentA⟩ := endsWithCR_iff.mp ends
  obtain ⟨rest, contentB⟩ := startsWithLF_iff.mp starts
  rw [← append_cons] at rep
  obtain ⟨s', middle, fixed, frame, rep', partsEq, keeps, known⟩ :=
    rep.fixCRLF contentA contentB
  have oldParts : parts s'.buffers es = parts s.buffers es :=
    parts_extend frame.grown rep.buffers rep'.buffers
      fun e member => rep.pieces e (by simp [member])
  have laterParts : parts s'.buffers fs = parts s.buffers fs :=
    parts_extend frame.grown rep.buffers rep'.buffers
      fun e member => rep.pieces e (by simp [member])
  have textEq : textOf s'.buffers middle = initial ++ [CR, LF] ++ rest := by
    rw [textOf, partsEq]
    by_cases emptyA : initial = [] <;> by_cases emptyB : rest = [] <;> simp [emptyA, emptyB]
  refine ⟨s', es ++ middle, fixed, ⟨frame, rep', ?_, ?_, ?_, ?_⟩, ?_⟩
  · simp only [textOf_append, textEq, textOf_cons, textOf_nil, contentA, contentB]
    rw [textOf, textOf, oldParts]
    simp
  · rw [parts_append, oldParts, partsEq]
    by_cases emptyA : initial = [] <;> by_cases emptyB : rest = [] <;>
      simp [emptyA, emptyB, nonempty, @eq_comm _ ([] : Text)]
  · rw [parts_append, parts_append, oldParts, laterParts, partsEq]
    rw [parts_append, parts_cons, contentA, parts_nil] at wholeLeft
    rw [parts_cons, contentB] at wholeRight
    have joined := whole_join wholeLeft wholeRight
    rw [← whole_append_if, append_cons, ← whole_append_if] at joined
    simpa using joined
  · intro other old member
    have inMiddle := known other old
    simp only [ids_append, ids_cons, ids_nil, mem_append, mem_cons] at member ⊢
    tauto
  · intro member
    obtain ⟨notBefore, notAfter⟩ := not_mem_ids_of_distinct rep.holds.distinct
    simp only [ids_cons, mem_cons, not_or] at notAfter
    have inMiddle : a ∈ ids middle := by
      simpa [notBefore, notAfter.2] using member
    obtain ⟨p', tail, rfl⟩ := keeps inMiddle
    exact ⟨p', tail ++ fs, by simp⟩

/-- `validateCRLFWithPrevNode` mends the border before a node. The entries
behind the node stay as they are, and so do those before the one in front of
it. -/
theorem Rep.validateCRLFWithPrevNode (rep : Rep s (es ++ (id, p) :: fs))
    (nonempty : [] ∉ parts s.buffers (es ++ [(id, p)]))
    (wholeLeft : Whole (parts s.buffers es))
    (wholeRight : Whole (parts s.buffers ((id, p) :: fs)))
    (noCR : s.shouldCheckCRLF = false → CR ∉ textOf s.buffers es) :
    ∃ s' front, s.validateCRLFWithPrevNode (some id) = some s' ∧
      Mended s s' (es ++ [(id, p)]) front fs ∧
      ∀ before a q, es = before ++ [(a, q)] → KeepsAt before a (front ++ fs) := by
  have whole := nonempty
  simp only [parts_append, parts_cons, parts_nil, mem_append, mem_singleton, not_or] at nonempty
  have starts := rep.startWithLF (Ne.symm nonempty.2)
  -- without a cut at the border the state stays as it is
  have unchanged (joint : splitsCRLF (textOf s.buffers es)
      (textOf s.buffers ((id, p) :: fs)) = false)
      (same : s.validateCRLFWithPrevNode (some id) = some s) :
      ∃ s' front, s.validateCRLFWithPrevNode (some id) = some s' ∧
        Mended s s' (es ++ [(id, p)]) front fs ∧
        ∀ before a q, es = before ++ [(a, q)] → KeepsAt before a (front ++ fs) := by
    refine ⟨s, _, same, rep.mended_self whole wholeLeft wholeRight joint, ?_⟩
    rintro before a q rfl -
    exact ⟨q, (id, p) :: fs, by simp⟩
  by_cases test : (s.shouldCheckCRLF && startsWithLF (contentOf s.buffers p)) = true
  · obtain ⟨checks, startsLF⟩ := Bool.and_eq_true_iff.mp test
    rcases eq_nil_or_concat' es with rfl | ⟨before, ⟨a, q⟩, rfl⟩
    · refine unchanged rfl ?_
      have none : prev s.root id = none := rep.holds.prev
      simp [PieceTreeBase.validateCRLFWithPrevNode, starts, checks, startsLF, none, endWithCR_none]
    · have previous : prev s.root id = some a := by
        rw [rep.holds.prev]
        simp
      have repA := rep
      rw [← append_cons] at repA
      simp only [parts_append, parts_cons, parts_nil, mem_append, mem_singleton, not_or] at nonempty
      have ends := repA.endWithCR (Ne.symm nonempty.1.2)
      have unfolded : s.validateCRLFWithPrevNode (some id) =
          if endsWithCR (contentOf s.buffers q) then s.fixCRLF a id
          else some s := by
        simp [PieceTreeBase.validateCRLFWithPrevNode, starts, checks, startsLF, previous, ends]
      cases endsCR : endsWithCR (contentOf s.buffers q) with
      | true =>
        obtain ⟨s', front, fixed, mended, keeps⟩ := rep.mended_fixCRLF
          nonempty.1.1 wholeLeft wholeRight endsCR startsLF
        refine ⟨s', front, by rw [unfolded, endsCR]; exact fixed, mended, ?_⟩
        intro other b r same
        obtain ⟨rfl, sameEntry⟩ := append_inj' same rfl
        simp only [List.cons.injEq, Prod.mk.injEq, and_true] at sameEntry
        rwa [← sameEntry.1]
      | false =>
        refine unchanged ?_ (by rw [unfolded, endsCR]; rfl)
        rw [textOf_append, splitsCRLF, endsWithCR_append_of_ne_nil]
        · simp [endsCR]
        · simpa using Ne.symm nonempty.1.2
  · refine unchanged ?_ ?_
    · rw [Bool.and_eq_true_iff, not_and_or] at test
      rcases test with unchecked | notLF
      · have absent := noCR (by simpa using unchecked)
        simp [splitsCRLF, endsWithCR_eq_false absent]
      · rw [textOf_cons, splitsCRLF_append_right _ _ (Ne.symm nonempty.2), splitsCRLF]
        simp [notLF]
    · rw [PieceTreeBase.validateCRLFWithPrevNode, starts, if_neg test]

/-- After a repair the state `s'` holds the text of `es` in the pieces `es'`,
none of them empty and no `\r\n` cut. -/
structure Repaired (s s' : PieceTreeBase) (es es' : List Entry) : Prop where
  frame : Frame s s'
  rep : Rep s' es'
  text : textOf s'.buffers es' = textOf s.buffers es
  nonempty : [] ∉ parts s'.buffers es'
  whole : Whole (parts s'.buffers es')

section

variable {old front fs : List Entry} (mended : Mended s s' old front fs) (rep : Rep s (old ++ fs))

include mended rep

theorem Mended.later : parts s'.buffers fs = parts s.buffers fs :=
  parts_extend mended.frame.grown rep.buffers mended.rep.buffers
    fun e member => rep.pieces e (by simp [member])

theorem Mended.text_all : textOf s'.buffers (front ++ fs) = textOf s.buffers (old ++ fs) := by
  rw [textOf_append, mended.text, textOf_append, textOf, textOf, textOf, mended.later rep]

theorem Mended.repaired (nonempty : [] ∉ parts s.buffers fs) :
    Repaired s s' (old ++ fs) (front ++ fs) := by
  refine ⟨mended.frame, mended.rep, mended.text_all rep, ?_, mended.whole⟩
  rw [parts_append, mended.later rep, mem_append, not_or]
  exact ⟨mended.nonempty, nonempty⟩

end

theorem validateCRLFWithPrevNode_none (s : PieceTreeBase) :
    s.validateCRLFWithPrevNode none = some s := by
  simp [PieceTreeBase.validateCRLFWithPrevNode, startWithLF_none]

theorem validateCRLFWithNextNode_none (s : PieceTreeBase) :
    s.validateCRLFWithNextNode none = some s := by
  simp [PieceTreeBase.validateCRLFWithNextNode, endWithCR_none]

/-- The two validations test the same border. -/
theorem validateCRLFWithNextNode_eq
    (following : next s.root a = some b) (previous : prev s.root b = some a) :
    s.validateCRLFWithNextNode (some a) = s.validateCRLFWithPrevNode (some b) := by
  cases checks : s.shouldCheckCRLF <;> cases ends : s.endWithCR (some a) <;>
    cases starts : s.startWithLF (some b) <;>
    simp [PieceTreeBase.validateCRLFWithNextNode, following, previous,
      PieceTreeBase.validateCRLFWithPrevNode, checks, ends, starts]

/-- `validateCRLFWithNextNode` mends the border behind a node. -/
theorem Rep.validateCRLFWithNextNode (rep : Rep s (es ++ (id, p) :: fs))
    (nonempty : [] ∉ parts s.buffers (es ++ (id, p) :: fs))
    (wholeLeft : Whole (parts s.buffers (es ++ [(id, p)])))
    (wholeRight : Whole (parts s.buffers fs))
    (noCR : s.shouldCheckCRLF = false → CR ∉ textOf s.buffers (es ++ (id, p) :: fs)) :
    ∃ s' es', s.validateCRLFWithNextNode (some id) = some s' ∧
      Repaired s s' (es ++ (id, p) :: fs) es' ∧ KeepsAt es id es' := by
  cases fs with
  | nil =>
    have none : next s.root id = none := rep.holds.next
    refine ⟨s, es ++ [(id, p)], ?_, ⟨.refl s, rep, rfl, nonempty, wholeLeft⟩, fun _ => ⟨p, [], rfl⟩⟩
    simp [PieceTreeBase.validateCRLFWithNextNode, none, startWithLF_none]
  | cons e gs =>
    obtain ⟨b, q⟩ := e
    have following : next s.root id = some b := rep.holds.next
    rw [append_cons] at rep nonempty
    have previous : prev s.root b = some id := by
      rw [rep.holds.prev]
      simp
    have split : parts s.buffers ((es ++ [(id, p)]) ++ (b, q) :: gs) =
        parts s.buffers ((es ++ [(id, p)]) ++ [(b, q)]) ++ parts s.buffers gs := by simp
    rw [split, mem_append, not_or] at nonempty
    obtain ⟨s', front, validated, mended, keeps⟩ :=
      rep.validateCRLFWithPrevNode nonempty.1 wholeLeft wholeRight
        (fun unchecked member => noCR unchecked (by
          simp only [textOf_append, textOf_cons, mem_append] at member ⊢
          tauto))
    refine ⟨s', front ++ gs, ?_, ?_, keeps es id p rfl⟩
    · rw [validateCRLFWithNextNode_eq following previous, validated]
    · have repaired := mended.repaired (by simpa using rep) nonempty.2
      simpa using repaired

/-- A `\n` at the start of the entries `fs` may have moved to the end of the
inserted text, which is now `value'`. -/
structure HeadMoved (s s' : PieceTreeBase) (before fs fs' : List Entry)
    (value value' : Text) : Prop where
  only : OnlyTree s s'
  rep : Rep s' (before ++ fs')
  text : value' ++ textOf s.buffers fs' = value ++ textOf s.buffers fs
  nonempty : [] ∉ parts s.buffers fs'
  whole : Whole (parts s.buffers fs')
  joint : splitsCRLF value' (textOf s.buffers fs') = false

/-- `adjustCarriageReturnFromNext` takes a `\n` from the next node when the
inserted text ends in `\r`. -/
theorem Rep.adjustCarriageReturnFromNext {value : Text} (rep : Rep s (es ++ (id, p) :: fs))
    (nonempty : [] ∉ parts s.buffers fs)
    (whole : Whole (parts s.buffers fs))
    (noCR : s.shouldCheckCRLF = false → CR ∉ value) :
    ∃ moved s' fs', s.adjustCarriageReturnFromNext value id = some (moved, s') ∧
      HeadMoved s s' (es ++ [(id, p)]) fs fs' value (if moved then value ++ [LF] else value) := by
  rw [append_cons] at rep
  -- without a `\r\n` across the border nothing moves
  have unmoved (joint : splitsCRLF value (textOf s.buffers fs) = false) :
      HeadMoved s s (es ++ [(id, p)]) fs fs value value :=
    ⟨.refl s, rep, rfl, nonempty, whole, joint⟩
  by_cases test : (s.shouldCheckCRLF && endsWithCR value) = true
  · cases fs with
    | nil =>
      have none : next s.root id = none := by
        rw [← append_cons] at rep
        exact rep.holds.next
      refine ⟨false, s, [], ?_, unmoved (by simp)⟩
      simp [PieceTreeBase.adjustCarriageReturnFromNext, test, none, startWithLF_none]
    | cons e gs =>
      obtain ⟨b, q⟩ := e
      have following : next s.root id = some b := by
        rw [← append_cons] at rep
        exact rep.holds.next
      simp only [parts_cons, mem_cons, not_or] at nonempty
      have starts := rep.startWithLF (Ne.symm nonempty.1)
      by_cases startsLF : startsWithLF (contentOf s.buffers q) = true
      · obtain ⟨rest, content⟩ := startsWithLF_iff.mp startsLF
        obtain ⟨n, found, -, pieceEq⟩ := rep.node?
        have lengthEq := rep.length_content
        rw [content, length_cons] at lengthEq
        rw [startsLF] at starts
        rw [parts_cons, content] at whole
        have joint : ∀ text, splitsCRLF (value ++ [LF]) text = false := by
          simp [splitsCRLF]
        by_cases single : q.length = 1
        · obtain ⟨s', deleted, only, rep'⟩ := rep.rbDelete
          have empty : rest = [] :=
            eq_nil_of_length_eq_zero (by omega)
          refine ⟨true, s', gs, ?_, only, rep', ?_, nonempty.2, whole.2, joint _⟩
          · simp [PieceTreeBase.adjustCarriageReturnFromNext, test, following,
              starts, found, pieceEq, single, deleted]
          · simp [content, empty]
        · obtain ⟨pieceOk, content', shorter, lf, tail⟩ :=
            dropLeadingLF_spec rep.buffers rep.pieceOk content
          obtain ⟨s₁, s', assigned, updated, only, rep'⟩ :=
            rep.replace (-1) (-1) pieceOk (by simp [tail]) (by omega) (by omega)
          have notEmpty : rest ≠ [] := by
            rintro rfl
            simp at lengthEq
            omega
          refine ⟨true, s', (b, s.dropLeadingLF q) :: gs, ?_, only, rep', ?_, ?_, ?_, joint _⟩
          · simp [PieceTreeBase.adjustCarriageReturnFromNext, test, following,
              starts, found, pieceEq, single, assigned, updated]
          · simp [content, content']
          · simpa [content', nonempty.2] using notEmpty.symm
          · rw [parts_cons, content']
            exact whole_tail_LF whole
      · refine ⟨false, s, (b, q) :: gs, ?_, unmoved ?_⟩
        · simp [PieceTreeBase.adjustCarriageReturnFromNext, test, following, starts, startsLF]
        · rw [textOf_cons, splitsCRLF_append_right _ _ (Ne.symm nonempty.1), splitsCRLF]
          simp [startsLF]
  · refine ⟨false, s, fs, ?_, unmoved ?_⟩
    · rw [PieceTreeBase.adjustCarriageReturnFromNext, if_neg test]
    · rw [Bool.and_eq_true_iff, not_and_or] at test
      have notEnds : endsWithCR value = false := by
        rcases test with unchecked | notEnds
        · exact endsWithCR_eq_false (noCR (by simpa using unchecked))
        · simpa using notEnds
      simp [splitsCRLF, notEnds]

end Steps

end CodeEditor.PieceTree
