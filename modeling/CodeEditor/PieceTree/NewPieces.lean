import CodeEditor.PieceTree.Representation

/-!
# Cutting pieces

A part of a piece, between two offsets of its content, and the two functions
that keep only the head or the tail of a node.
-/

namespace CodeEditor.PieceTree

open PieceTreeBase List Nat

section Part

variable {s : PieceTreeBase} {p q : Piece} {a b : Nat}

section

variable (pieceOk : PieceOk s.buffers p) (ok : BuffersOk s.buffers)

include pieceOk ok

theorem PieceOk.positionInBuffer_zero : s.positionInBuffer p 0 = p.start := by
  obtain ⟨first, last, denotes⟩ := pieceOk
  rw [denotes.positionInBuffer ok (Nat.zero_le _), denotes.start, Nat.add_zero]

theorem PieceOk.positionInBuffer_length : s.positionInBuffer p p.length = p.stop := by
  obtain ⟨first, last, denotes⟩ := pieceOk
  have length := denotes.length
  have ordered := denotes.ordered
  rw [denotes.positionInBuffer ok le_rfl, denotes.stop]
  congr 1
  omega

/-- The distance of two positions of a piece. -/
theorem PieceOk.offsetInBuffer (bounded : b ≤ p.length) :
    s.offsetInBuffer p.bufferIndex (s.positionInBuffer p b) =
      s.offsetInBuffer p.bufferIndex p.start + b := by
  obtain ⟨first, last, denotes⟩ := pieceOk
  have startOffset : s.offsetInBuffer p.bufferIndex p.start = first :=
    denotes.startOffset ok
  rw [startOffset, denotes.positionInBuffer ok bounded]
  exact (denotes.bufferOk ok).lineStartAt_add_column (first + b)

theorem PieceOk.offsetInBuffer_stop : s.offsetInBuffer p.bufferIndex p.stop =
      s.offsetInBuffer p.bufferIndex p.start + p.length := by
  rw [← pieceOk.positionInBuffer_length ok, pieceOk.offsetInBuffer ok le_rfl]

/-- The part of a piece between two of its positions. -/
theorem PieceOk.part (ordered : a ≤ b) (bounded : b ≤ p.length)
    (index : q.bufferIndex = p.bufferIndex) (start : q.start = s.positionInBuffer p a)
    (stop : q.stop = s.positionInBuffer p b) (length : q.length = b - a)
    (lineFeedCnt : q.lineFeedCnt =
      s.getLineFeedCnt p.bufferIndex q.start q.stop) : PieceOk s.buffers q ∧
      contentOf s.buffers q = ((contentOf s.buffers p).take b).drop a ∧
      (atTail s.buffers q = true → atTail s.buffers p = true ∧ b = p.length) := by
  obtain ⟨first, last, denotes⟩ := pieceOk
  have pieceLength := denotes.length
  have pieceOrdered := denotes.ordered
  have pieceBounded := denotes.bounded
  rw [denotes.positionInBuffer ok (ordered.trans bounded), ← index] at start
  rw [denotes.positionInBuffer ok bounded, ← index] at stop
  have part : Denotes s.buffers q (first + a) (first + b) := by
    refine denotes_of_cursors ok (index ▸ denotes.known) (by omega) ?_ start stop
      (by omega) (index ▸ lineFeedCnt)
    rw [index]
    omega
  refine ⟨⟨_, _, part⟩, ?_, fun isTail => ?_⟩
  · rw [part.content ok, denotes.content ok, index,
      ← substring_take _ (by omega : first + b ≤ last), ← substring_drop _]
    omega
  · obtain ⟨zero, lastEq⟩ := part.atTail_iff.mp isTail
    rw [index] at zero
    rw [zero] at pieceBounded
    exact ⟨denotes.atTail_iff.mpr ⟨zero, by omega⟩, by omega⟩

end

end Part

section Nodes

variable {s : PieceTreeBase} {es fs : List Entry} {id : Nat} {p : Piece}
  {remainder : Nat}

/-- A node is cut to a part of its piece. -/
theorem Rep.cut (rep : Rep s (es ++ (id, p) :: fs)) {a b : Nat} (ordered : a ≤ b)
    (bounded : b ≤ p.length) {p' : Piece} (isPart : p' = { p with
      start := s.positionInBuffer p a
      stop := s.positionInBuffer p b
      lineFeedCnt := s.getLineFeedCnt p.bufferIndex (s.positionInBuffer p a)
        (s.positionInBuffer p b)
      length := b - a }) : ∃ s₁ s', s.setPiece id p' = some s₁ ∧
      s₁.updateMetadata id ((b - a : Nat) - p.length) ((p'.lineFeedCnt : Int) - p.lineFeedCnt) =
        some s' ∧
      OnlyTree s s' ∧ Rep s' (es ++ (id, p') :: fs) ∧
      contentOf s.buffers p' = ((contentOf s.buffers p).take b).drop a ∧
      (atTail s.buffers p' = true → b = p.length) := by
  obtain ⟨pieceOk, content, tail⟩ := @PieceOk.part s p p' a b rep.pieceOk rep.buffers ordered
    bounded (by rw [isPart]) (by rw [isPart]) (by rw [isPart]) (by rw [isPart]) (by rw [isPart])
  have lengthEq : p'.length = b - a := by rw [isPart]
  obtain ⟨s₁, s', assigned, updated, only, rep'⟩ := rep.replace ((b - a : Nat) - p.length)
    ((p'.lineFeedCnt : Int) - p.lineFeedCnt) pieceOk (fun isTail => (tail isTail).1) (by omega)
    (by omega)
  exact ⟨s₁, s', assigned, updated, only, rep', content, fun isTail => (tail isTail).2⟩

/-- `deleteNodeTail` keeps the first characters of a node. -/
theorem Rep.deleteNodeTail (rep : Rep s (es ++ (id, p) :: fs)) (bounded : remainder ≤ p.length) :
    ∃ s' p', s.deleteNodeTail id (s.positionInBuffer p remainder) = some s' ∧
      OnlyTree s s' ∧ Rep s' (es ++ (id, p') :: fs) ∧
      p'.length = remainder ∧
      contentOf s.buffers p' = (contentOf s.buffers p).take remainder ∧
      (atTail s.buffers p' = true → remainder = p.length) := by
  obtain ⟨n, found, -, pieceEq⟩ := rep.node?
  obtain ⟨s₁, s', assigned, updated, only, rep', content, tail⟩ :=
    rep.cut (zero_le remainder) bounded rfl
  refine ⟨s', _, ?_, only, rep', rfl, content, tail⟩
  rw [rep.pieceOk.positionInBuffer_zero rep.buffers, Nat.sub_zero] at assigned updated
  have difference : ((s.offsetInBuffer p.bufferIndex
      (s.positionInBuffer p remainder) : Nat) : Int) -
        (s.offsetInBuffer p.bufferIndex p.stop : Nat) = remainder - p.length := by
    rw [rep.pieceOk.offsetInBuffer rep.buffers bounded, rep.pieceOk.offsetInBuffer_stop rep.buffers]
    omega
  have newLength : ((p.length : Int) + (remainder - p.length)).toNat = remainder := by omega
  simp only [PieceTreeBase.deleteNodeTail, found, pieceEq, Option.bind_eq_bind,
    Option.bind_some, difference, newLength]
  rw [assigned, Option.bind_some]
  exact updated

/-- `deleteNodeHead` drops the first characters of a node. -/
theorem Rep.deleteNodeHead (rep : Rep s (es ++ (id, p) :: fs)) (bounded : remainder ≤ p.length) :
    ∃ s' p', s.deleteNodeHead id (s.positionInBuffer p remainder) = some s' ∧
      OnlyTree s s' ∧ Rep s' (es ++ (id, p') :: fs) ∧
      p'.length = p.length - remainder ∧
      contentOf s.buffers p' = (contentOf s.buffers p).drop remainder := by
  obtain ⟨n, found, -, pieceEq⟩ := rep.node?
  obtain ⟨s₁, s', assigned, updated, only, rep', content, -⟩ := rep.cut bounded le_rfl rfl
  refine ⟨s', _, ?_, only, rep', rfl, by rw [content, ← rep.length_content, take_length]⟩
  rw [rep.pieceOk.positionInBuffer_length rep.buffers] at assigned updated
  have difference : ((s.offsetInBuffer p.bufferIndex p.start : Nat) : Int) -
      (s.offsetInBuffer p.bufferIndex (s.positionInBuffer p remainder) : Nat) =
        (p.length - remainder : Nat) - p.length := by
    rw [rep.pieceOk.offsetInBuffer rep.buffers bounded]
    omega
  have newLength : ((p.length : Int) + ((p.length - remainder : Nat) - p.length)).toNat =
      p.length - remainder := by omega
  simp only [PieceTreeBase.deleteNodeHead, found, pieceEq, Option.bind_eq_bind,
    Option.bind_some, difference, newLength]
  rw [assigned, Option.bind_some]
  exact updated

end Nodes

end PieceTree
end CodeEditor

/-!
## New pieces

`createNewPieces` writes a text into the change buffer or, when it is long,
into read-only buffers of its own, and returns the pieces that cover it. The
buffers only grow, in a way that keeps every existing piece.
-/

namespace CodeEditor
namespace PieceTree

open List Nat

/-! ## Line starts of grown buffers -/

/-- The cursor at the end of a buffer, as the source computes it. -/
theorem BufferOk.endCursor (ok : BufferOk b) : (⟨b.lineStarts.length - 1,
      b.buffer.length - b.lineStartAt (b.lineStarts.length - 1)⟩ :
        BufferCursor) = cursorAt b.buffer b.buffer.length := by
  have last : b.lineStarts.length - 1 = lineIndex b.buffer b.buffer.length := by
    rw [ok, length_lineStartsOf]
    rfl
  rw [last, ok.lineStartAt, cursorAt]

variable {text : Text}

theorem BufferOk.append (ok : BufferOk b) (whole : splitsCRLF b.buffer text = false) :
    BufferOk ⟨b.buffer ++ text, b.lineStarts ++
      ((createLineStartsFast text).map (· + b.buffer.length)).drop 1⟩ := by
  unfold BufferOk at ok ⊢
  rw [ok, createLineStartsFast_eq, lineStartsOf, lineStartsOf, lineStartsOf,
    breakEnds_append_of_not_splits whole]
  simp [Nat.add_comm]

/-- A code unit that is no line break leaves the line starts as they are. -/
theorem BufferOk.append_plain (ok : BufferOk b)
    {unit : CodeUnit} (notCR : unit ≠ CR) (notLF : unit ≠ LF) :
    BufferOk ⟨b.buffer ++ [unit], b.lineStarts⟩ := by
  have whole : splitsCRLF b.buffer [unit] = false := by
    simp [splitsCRLF, notLF]
  unfold BufferOk at ok ⊢
  rw [ok, lineStartsOf, lineStartsOf, breakEnds_append_of_not_splits whole, breakEnds_singleton]
  simp [notCR, notLF]

theorem breakEndsAt_length_of_endsWithCR (ends : endsWithCR text = true) :
    breakEndsAt text text.length = true := by
  obtain ⟨initial, rfl⟩ := endsWithCR_iff.mp ends
  simp [breakEndsAt_succ]

/-! ## Changing the change buffer -/

variable {rest : List StringBuffer}

theorem extends_cons {c c' : StringBuffer} (more : Text) (grown : c'.buffer = c.buffer ++ more)
    (whole : splitsCRLF c.buffer more = false) : Extends (c :: rest) (c' :: rest) := by
  refine ⟨by simp, fun index known => ?_⟩
  cases index with
  | zero => exact ⟨more, grown, whole⟩
  | succ index => exact ⟨[], by simp [bufferText]⟩

/-- Once the change buffer has grown, no earlier piece ends at its end. -/
theorem tailCount_of_growth {c c' : StringBuffer} {es : List Entry}
    (extended : Extends (c :: rest) (c' :: rest)) (longer : c.buffer.length < c'.buffer.length)
    (pieces : ∀ e ∈ es, PieceOk (c :: rest) e.2) : tailCount (c' :: rest) es = 0 := by
  refine countP_eq_zero.mpr fun e member isTail => ?_
  obtain ⟨first, last, denotes⟩ := pieces e member
  have bounded := denotes.bounded
  obtain ⟨zero, same⟩ := (denotes.extend extended).atTail_iff.mp isTail
  rw [zero] at bounded
  simp only [bufferText, getD_cons_zero] at same bounded
  omega

/-- What `createNewPieces` promises. -/
structure NewPieces (s : PieceTreeBase) (es : List Entry) (text : Text)
    (pieces : List Piece) (s' : PieceTreeBase) : Prop where
  rep : Rep s' es
  frame : Frame s s'
  pieceOk : ∀ p ∈ pieces, PieceOk s'.buffers p
  content : (pieces.map (contentOf s'.buffers)).flatten = text
  nonempty : [] ∉ pieces.map (contentOf s'.buffers)
  whole : Whole (pieces.map (contentOf s'.buffers))
  tail : tailCount s'.buffers es + pieces.countP (atTail s'.buffers) ≤ 1
  oldTail : ∀ q, PieceOk s.buffers q → atTail s'.buffers q = true →
    pieces.countP (atTail s'.buffers) = 0

/-- A piece that covers the end of the change buffer. -/
theorem content_of_end {p : Piece} {front text : Text}
    (ok : BuffersOk buffers) (zero : p.bufferIndex = 0)
    (bufferEq : bufferText buffers 0 = front ++ text)
    (denotes : Denotes buffers p front.length (front ++ text).length) :
    contentOf buffers p = text := by
  have part := substring_append front text []
  rw [append_nil, ← length_append] at part
  rw [denotes.content ok, zero, bufferEq, part]

/-- Writing `text` behind `front`, which is the change buffer with its padding. -/
theorem newPieces_of_front {c front : StringBuffer} {padding text : Text} (rep : Rep s es)
    (buffersEq : s.buffers = c :: rest) (frontOk : BufferOk front)
    (padded : front.buffer = c.buffer ++ padding)
    (frontWhole : splitsCRLF front.buffer text = false)
    (whole : splitsCRLF c.buffer (padding ++ text) = false) (nonempty : text ≠ [])
    {change : StringBuffer} {p : Piece}
    (changeEq : change = ⟨front.buffer ++ text, front.lineStarts ++
      ((createLineStartsFast text).map (· + front.buffer.length)).drop 1⟩) (pieceEq : p =
      { bufferIndex := 0
        start := cursorAt front.buffer front.buffer.length
        stop := cursorAt change.buffer change.buffer.length
        lineFeedCnt := PieceTreeBase.getLineFeedCnt { s with buffers := change :: rest } 0
          (cursorAt front.buffer front.buffer.length)
          (cursorAt change.buffer change.buffer.length)
        length := text.length }) : NewPieces s es text [p]
      { s with
        buffers := change :: rest
        lastChangeBufferPos := cursorAt change.buffer change.buffer.length } := by
  have changeOk : BufferOk change := changeEq ▸ frontOk.append frontWhole
  have bufferEq : change.buffer = front.buffer ++ text := by rw [changeEq]
  have extended : Extends (c :: rest) (change :: rest) :=
    extends_cons (padding ++ text) (by rw [bufferEq, padded, append_assoc]) whole
  have buffersOk : BuffersOk (change :: rest) := by
    refine ⟨by simp, fun b member => ?_⟩
    rcases mem_cons.mp member with rfl | inRest
    · exact changeOk
    · exact rep.buffers.lineStarts b (by simp [buffersEq, inRest])
  have piecesOk : ∀ e ∈ es, PieceOk (c :: rest) e.2 := buffersEq ▸ rep.pieces
  have longer : c.buffer.length < change.buffer.length := by
    have := length_pos_iff.mpr nonempty
    rw [bufferEq, padded]
    simp only [length_append]
    omega
  have noTail := tailCount_of_growth extended longer piecesOk
  have startSame : cursorAt front.buffer front.buffer.length =
      cursorAt change.buffer front.buffer.length := by
    rw [bufferEq, cursorAt, cursorAt, lineIndex_append_of_le le_rfl frontWhole,
      lineStart_append_of_le le_rfl frontWhole]
  have denotes : Denotes (change :: rest) p front.buffer.length (front.buffer ++ text).length := by
    refine denotes_of_cursors (s := { s with buffers := change :: rest })
      buffersOk ?_ ?_ ?_ ?_ ?_ ?_ ?_
    · simp [pieceEq]
    · simp
    · simp [pieceEq, bufferText, bufferEq]
    · rw [pieceEq]
      exact startSame
    · rw [pieceEq]
      exact congrArg (cursorAt change.buffer) (congrArg List.length bufferEq)
    · simp [pieceEq]
    · rw [pieceEq]
  have content : contentOf (change :: rest) p = text :=
    content_of_end buffersOk (by rw [pieceEq]) bufferEq denotes
  refine ⟨⟨rep.holds, rep.fresh, buffersOk, rfl, ?_, ?_⟩,
    ⟨buffersEq ▸ extended, rfl, rfl, rfl, rfl, le_rfl⟩, ?_, ?_, ?_, ?_, ?_, ?_⟩
  · exact fun e member => (piecesOk e member).extend extended
  · exact noTail.le.trans (zero_le 1)
  · simpa using ⟨_, _, denotes⟩
  · simpa using content
  · simpa [content] using nonempty.symm
  · simp
  · rw [noTail, countP_singleton]
    split <;> omega
  · intro q pieceOk isTail
    have none := @tailCount_of_growth _ _ _ [(0, q)] extended longer
      (by simpa [buffersEq] using pieceOk)
    simp [isTail] at none

theorem keptApart_eq (ok : BufferOk c) (text : Text) :
    PieceTreeBase.keptApart c text = splitsCRLF c.buffer text := by
  have last : c.lineStarts.length - 1 = lineIndex c.buffer c.buffer.length := by
    rw [ok, length_lineStartsOf]
    rfl
  rw [PieceTreeBase.keptApart, last, ok.lineStartAt, splitsCRLF]
  cases ends : endsWithCR c.buffer with
  | false => simp
  | true =>
    have nonempty : c.buffer ≠ [] := by
      rintro empty
      simp [empty] at ends
    rw [lineStart_of_breakEndsAt (breakEndsAt_length_of_endsWithCR ends)]
    simp [nonempty]

/-- The cursor behind a code unit that is no line break. -/
theorem cursorAt_append_plain (text : Text) {unit : CodeUnit}
    (notCR : unit ≠ CR) (notLF : unit ≠ LF) :
    cursorAt (text ++ [unit]) (text ++ [unit]).length = ⟨(cursorAt text text.length).line,
        (cursorAt text text.length).column + 1⟩ := by
  have whole : splitsCRLF text [unit] = false := by simp [splitsCRLF, notLF]
  have openEnd : breakEndsAt (text ++ [unit]) (text.length + 1) = false := by
    simp [breakEndsAt_succ, notCR, notLF]
  have bound := lineStart_le text text.length
  rw [length_append, length_singleton, cursorAt, cursorAt,
    lineIndex_succ, lineStart_succ_of_not_breakEndsAt openEnd, openEnd,
    lineIndex_append_of_le le_rfl whole, lineStart_append_of_le le_rfl whole]
  simp only [Bool.false_eq_true, if_false, BufferCursor.mk.injEq]
  omega

theorem createNewPieces_short {s : PieceTreeBase} {es : List Entry} (rep : Rep s es)
    (nonempty : text ≠ []) (short : text.length ≤ averageBufferSize) :
    ∃ p s', s.createNewPieces text = ([p], s') ∧ NewPieces s es text [p] s' := by
  obtain ⟨c, rest, buffersEq⟩ := exists_cons_of_ne_nil rep.buffers.nonempty
  have changeOk : BufferOk c := rep.buffers.lineStarts c (by simp [buffersEq])
  have changeAt : s.bufferAt 0 = c := by simp [PieceTreeBase.bufferAt, buffersEq]
  have position := rep.position
  simp only [bufferText, buffersEq, getD_cons_zero] at position
  have notLong : ¬text.length > averageBufferSize := by omega
  -- the change buffer with the padding, and the cursor behind it
  obtain ⟨front, padding, paddingEq, padded, startEq, linesEq, frontOk,
      frontWhole, whole⟩ : ∃ (front : StringBuffer) (padding : Text),
      (if splitsCRLF c.buffer text then [95] else []) = padding ∧
      front.buffer = c.buffer ++ padding ∧
      (if splitsCRLF c.buffer text then
        ⟨s.lastChangeBufferPos.line, s.lastChangeBufferPos.column + 1⟩
        else s.lastChangeBufferPos) = cursorAt front.buffer front.buffer.length ∧
      front.lineStarts = c.lineStarts ∧ BufferOk front ∧
      splitsCRLF front.buffer text = false ∧
      splitsCRLF c.buffer (padding ++ text) = false := by
    cases splits : splitsCRLF c.buffer text with
    | true =>
      refine ⟨⟨c.buffer ++ [95], c.lineStarts⟩, [95], rfl, rfl, ?_, rfl,
        changeOk.append_plain (by decide) (by decide), ?_, ?_⟩
      · rw [cursorAt_append_plain _ (by decide) (by decide), position]
        rfl
      · simp [splitsCRLF, show (95 : CodeUnit) ≠ CR by decide]
      · simp [splitsCRLF, show (95 : CodeUnit) ≠ LF by decide]
    | false =>
      exact ⟨c, [], rfl, by simp, position, rfl, changeOk, splits, splits⟩
  have changeOk' := frontOk.append frontWhole
  have endEq := changeOk'.endCursor
  refine ⟨_, _, ?_, newPieces_of_front rep buffersEq frontOk padded
    frontWhole whole nonempty rfl rfl⟩
  simp only [PieceTreeBase.createNewPieces, if_neg notLong, changeAt,
    keptApart_eq changeOk, startEq, paddingEq, ← padded, ← linesEq,
    ← length_append, buffersEq, set_cons_zero, endEq]
  congr 3
  simp

/-! ## Long texts -/

variable {buffers : List StringBuffer}

theorem wholePiece_denotes {b : StringBuffer} (ok : BufferOk b) :
    Denotes (buffers ++ [b]) (PieceTreeBase.wholePiece buffers.length b) 0 b.buffer.length := by
  have text : bufferText (buffers ++ [b]) buffers.length = b.buffer := by
    simp [bufferText, getD_eq_getElem?_getD]
  have all : substring b.buffer 0 b.buffer.length = b.buffer := by
    rw [substring_of_le _ (zero_le _)]
    simp
  refine ⟨by simp [PieceTreeBase.wholePiece], zero_le _, ?_, ?_, ?_, rfl, ?_⟩
  · exact (congrArg List.length text).ge
  · simp only [PieceTreeBase.wholePiece, text, cursorAt]
    simp [lineIndex]
  · simp only [PieceTreeBase.wholePiece, text]
    exact ok.endCursor
  · intro _
    simp only [PieceTreeBase.wholePiece, text, all]
    rw [ok, length_lineStartsOf]
    rfl

theorem extends_concat (buffers : List StringBuffer) (b : StringBuffer) :
    Extends buffers (buffers ++ [b]) := by
  refine ⟨by simp, fun index known => ⟨[], ?_, by simp⟩⟩
  simp [bufferText, getD_eq_getElem?_getD, getElem?_append_left known]

theorem BuffersOk.concat (ok : BuffersOk buffers) (bufferOk : BufferOk b) :
    BuffersOk (buffers ++ [b]) := by
  refine ⟨by simp, fun other member => ?_⟩
  rcases mem_append.mp member with old | new
  · exact ok.lineStarts other old
  · rwa [mem_singleton.mp new]

theorem wholePiece_content (buffersOk : BuffersOk buffers) (ok : BufferOk b) :
    contentOf (buffers ++ [b]) (PieceTreeBase.wholePiece buffers.length b) = b.buffer := by
  have text : bufferText (buffers ++ [b]) buffers.length = b.buffer := by
    simp [bufferText, getD_eq_getElem?_getD]
  have index : (PieceTreeBase.wholePiece buffers.length b).bufferIndex = buffers.length := rfl
  rw [(wholePiece_denotes ok).content (buffersOk.concat ok), index, text,
    substring_of_le _ (zero_le _)]
  simp

/-- A new read-only buffer leaves the change buffer as it is. -/
theorem bufferText_concat_zero (nonempty : buffers ≠ []) (b : StringBuffer) :
    bufferText (buffers ++ [b]) 0 = bufferText buffers 0 := by
  obtain ⟨c, rest, rfl⟩ := exists_cons_of_ne_nil nonempty
  rfl

theorem Rep.pushBuffer (rep : Rep s es) (ok : BufferOk b) :
    Rep { s with buffers := s.buffers ++ [b] } es := by
  have changeEq := bufferText_concat_zero rep.buffers.nonempty b
  refine ⟨rep.holds, rep.fresh, rep.buffers.concat ok, ?_, ?_, ?_⟩
  · simp only [changeEq]
    exact rep.position
  · exact fun e member => (rep.pieces e member).extend (extends_concat _ b)
  · simp only [tailCount, atTail, changeEq]
    exact rep.tail

theorem pushBuffers_spec (rep : Rep s es) (texts : List Text) : ∃ pieces buffers,
      s.pushBuffers texts = (pieces, { s with buffers }) ∧
      Rep { s with buffers } es ∧ Extends s.buffers buffers ∧
      (∀ p ∈ pieces, PieceOk buffers p) ∧
      pieces.map (contentOf buffers) = texts ∧
      (∀ p ∈ pieces, atTail buffers p = false) := by
  induction texts generalizing s with
  | nil =>
    exact ⟨[], s.buffers, rfl, rep, .refl _, by simp, rfl, by simp⟩
  | cons text texts ih =>
    have ok : BufferOk ⟨text, createLineStartsFast text⟩ :=
      createLineStartsFast_eq text
    obtain ⟨pieces, buffers, pushed, rep', grown, piecesOk, content, notTail⟩ :=
      ih (rep.pushBuffer ok)
    have denotes := @wholePiece_denotes s.buffers _ ok
    have pieceOk : PieceOk _ _ := ⟨_, _, denotes.extend grown⟩
    refine ⟨PieceTreeBase.wholePiece s.buffers.length
        ⟨text, createLineStartsFast text⟩ :: pieces, buffers, ?_, rep',
      (extends_concat _ _).trans grown, ?_, ?_, ?_⟩
    · simp [PieceTreeBase.pushBuffers, PieceTreeBase.pushBuffer, pushed]
    · exact forall_mem_cons.mpr ⟨pieceOk, piecesOk⟩
    · rw [map_cons, content, PieceOk.contentOf_extend ⟨_, _, denotes⟩
        grown (rep.buffers.concat ok) rep'.buffers,
        wholePiece_content rep.buffers ok]
    · refine forall_mem_cons.mpr ⟨?_, notTail⟩
      simp [atTail, PieceTreeBase.wholePiece, rep.buffers.nonempty]

/-! ## Cutting a long text -/

theorem splitIntoBuffers_flatten (text : Text) :
    (PieceTreeBase.splitIntoBuffers text).flatten = text := by
  fun_induction PieceTreeBase.splitIntoBuffers text with
  | case1 text long lastChar count ih =>
    rw [flatten_cons, ih, take_append_drop]
  | case2 text short => simp

/-- Where a buffer ends and the next one starts, no `\r\n` is cut. -/
theorem splitIntoBuffers_cut (long : text.length > averageBufferSize) (count : Nat)
    (countEq : count =
      if text.getD (averageBufferSize - 1) 0 = CR ∨
          (0xD800 ≤ text.getD (averageBufferSize - 1) 0 ∧
            text.getD (averageBufferSize - 1) 0 ≤ 0xDBFF) then
        averageBufferSize - 1
      else averageBufferSize) : 0 < count ∧ count < text.length ∧
      splitsCRLF (text.take count) (text.drop count) = false := by
  obtain ⟨size, sizeEq⟩ : ∃ size, averageBufferSize = size + 2 := ⟨65533, rfl⟩
  rw [sizeEq] at long countEq
  have here : text[size + 1]? = some (text.getD (size + 1) 0) := by
    rw [getD_eq_getElem?_getD, getElem?_eq_getElem (by omega : size + 1 < text.length)]
    rfl
  rw [show size + 2 - 1 = size + 1 by omega] at countEq
  split at countEq
  · rename_i moved
    refine ⟨by omega, by omega, ?_⟩
    by_contra cut
    have inside : insideCRLF text (size + 1) = true := by
      rw [insideCRLF, ← countEq]
      simpa using cut
    have isLF := (insideCRLF_iff.mp inside).2
    rw [here, Option.some.injEq] at isLF
    rw [isLF] at moved
    exact absurd moved (by decide)
  · rename_i kept
    refine ⟨by omega, by omega, ?_⟩
    by_contra cut
    have inside : insideCRLF text (size + 1 + 1) = true := by
      rw [insideCRLF, show size + 1 + 1 = count by omega]
      simpa using cut
    have isCR := (insideCRLF_iff.mp inside).1
    rw [here, Option.some.injEq] at isCR
    exact kept (.inl isCR)

theorem splitIntoBuffers_nonempty (nonempty : text ≠ []) :
    ∀ part ∈ PieceTreeBase.splitIntoBuffers text, part ≠ [] := by
  fun_induction PieceTreeBase.splitIntoBuffers text with
  | case1 text long lastChar count ih =>
    obtain ⟨positive, inside, -⟩ := splitIntoBuffers_cut long count rfl
    refine forall_mem_cons.mpr ⟨?_, ih ?_⟩
    · rw [← length_pos_iff, length_take]
      omega
    · rw [← length_pos_iff, length_drop]
      omega
  | case2 text short => simpa using nonempty

theorem splitIntoBuffers_whole (text : Text) : Whole (PieceTreeBase.splitIntoBuffers text) := by
  fun_induction PieceTreeBase.splitIntoBuffers text with
  | case1 text long lastChar count ih =>
    obtain ⟨-, -, whole⟩ := splitIntoBuffers_cut long count rfl
    exact ⟨by rwa [splitIntoBuffers_flatten], ih⟩
  | case2 text short => simp

/-- `createNewPieces` covers the text with new pieces; a short text gets one. -/
theorem createNewPieces_spec (rep : Rep s es) (nonempty : text ≠ []) :
    ∃ pieces s', s.createNewPieces text = (pieces, s') ∧
      NewPieces s es text pieces s' := by
  by_cases short : text.length ≤ averageBufferSize
  · obtain ⟨p, s', created, new⟩ := createNewPieces_short rep nonempty short
    exact ⟨[p], s', created, new⟩
  · obtain ⟨pieces, buffers, pushed, rep', grown, pieceOk, content, notTail⟩ :=
      pushBuffers_spec rep (PieceTreeBase.splitIntoBuffers text)
    have none : pieces.countP (atTail buffers) = 0 :=
      countP_eq_zero.mpr fun p member => by simp [notTail p member]
    refine ⟨pieces, { s with buffers }, ?_, rep', ⟨grown, rfl, rfl, rfl, rfl, le_rfl⟩,
      pieceOk, ?_, ?_, ?_, ?_, fun _ _ _ => none⟩
    · rw [PieceTreeBase.createNewPieces, if_pos (by omega), pushed]
    · rw [content, splitIntoBuffers_flatten]
    · rw [content]
      exact fun member => splitIntoBuffers_nonempty nonempty [] member rfl
    · rw [content]
      exact splitIntoBuffers_whole text
    · rw [none]
      exact rep'.tail

end CodeEditor.PieceTree
