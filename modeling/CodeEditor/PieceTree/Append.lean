import CodeEditor.PieceTree.Invariant

/-!
# Appending to the change buffer

New pieces put one after the other, and the branch of `insert` that lets the
last piece of the change buffer grow.
-/

namespace CodeEditor.PieceTree

open PieceTreeBase List

/-! ## Several pieces at once -/

section Pieces

variable {s : PieceTreeBase} {es fs : List Entry} {id : Nat} {p : Piece}

section

variable (rep : Rep s (es ++ (id, p) :: fs)) (pieces : List Piece)
  (pieceOk : ∀ q ∈ pieces, PieceOk s.buffers q)
  (tail : tailCount s.buffers (es ++ (id, p) :: fs) + pieces.countP (atTail s.buffers) ≤ 1)

include rep pieces pieceOk tail

theorem Rep.insertPiecesRight : ∃ s' news, s.insertPiecesRight (some id) pieces = some s' ∧
      OnlyTree s s' ∧ news.map (·.2) = pieces ∧
      Rep s' (es ++ (id, p) :: (news ++ fs)) := by
  induction pieces generalizing s es id p with
  | nil => exact ⟨s, [], rfl, .refl s, rfl, rep⟩
  | cons q pieces ih =>
    rw [countP_cons] at tail
    obtain ⟨new, s₁, inserted, only, rep₁⟩ := rep.rbInsertRight (pieceOk q (by simp)) (by omega)
    rw [append_cons] at rep₁
    obtain ⟨s', news, rest, only', piecesEq, rep'⟩ := ih rep₁
      (by rw [only.buffers]; exact fun r member => pieceOk r (by simp [member]))
      (by
        rw [only.buffers]
        simp only [tailCount_append, tailCount_cons, tailCount_nil] at tail ⊢
        omega)
    refine ⟨s', (new, q) :: news, ?_, only.trans only', by simp [piecesEq], by simpa using rep'⟩
    simp [PieceTreeBase.insertPiecesRight, inserted, rest]

theorem Rep.insertPiecesLeft : ∃ s' news, insertContentToNodeLeft.insertPiecesLeft s id pieces =
        some (((news ++ [(id, p)]).head (by simp)).1, s') ∧
      OnlyTree s s' ∧ news.map (·.2) = pieces.reverse ∧
      Rep s' (es ++ news ++ (id, p) :: fs) := by
  induction pieces generalizing s fs id p with
  | nil => exact ⟨s, [], rfl, .refl s, rfl, by simpa using rep⟩
  | cons q pieces ih =>
    rw [countP_cons] at tail
    obtain ⟨new, s₁, inserted, only, rep₁⟩ := rep.rbInsertLeft (pieceOk q (by simp)) (by omega)
    obtain ⟨s', news, rest, only', piecesEq, rep'⟩ := ih rep₁
      (by rw [only.buffers]; exact fun r member => pieceOk r (by simp [member]))
      (by
        rw [only.buffers]
        simp only [tailCount_append, tailCount_cons] at tail ⊢
        omega)
    refine ⟨s', news ++ [(new, q)], ?_, only.trans only', by simp [piecesEq], by simpa using rep'⟩
    simp only [insertContentToNodeLeft.insertPiecesLeft, inserted, rest,
      Option.bind_eq_bind, Option.bind_some, Option.some.injEq, Prod.mk.injEq,
      and_true]
    cases news <;> rfl

end

/-- The texts of the entries made from new pieces. -/
theorem parts_of_pieces {buffers : List StringBuffer} {news : List Entry}
    {pieces : List Piece} (equal : news.map (·.2) = pieces) :
    parts buffers news = pieces.map (contentOf buffers) := by
  rw [← equal, parts, map_map]
  rfl

end Pieces

/-! ## The branches -/

section Branches

variable {s : PieceTreeBase} {es fs : List Entry} {id : Nat} {p : Piece}
  {value : Text}

/-- The new pieces are there, as a first one and the others. -/
theorem NewPieces.exists_cons {text : Text} (new : NewPieces s es text pieces s')
    (nonempty : text ≠ []) : ∃ q rest, pieces = q :: rest := by
  refine exists_cons_of_ne_nil ?_
  rintro rfl
  exact nonempty (by simpa using new.content.symm)

theorem Rep.insertIntoEmpty (rep : Rep s []) (nonempty : value ≠ []) :
    ∃ s' es', s.insertIntoEmpty value = some s' ∧ Edited s s' es' value ∧
      Extends s.buffers s'.buffers := by
  obtain ⟨pieces, s₁, created, new⟩ := createNewPieces_spec rep nonempty
  obtain ⟨q, rest, rfl⟩ := new.exists_cons nonempty
  have tail := new.tail
  rw [tailCount_nil, countP_cons] at tail
  obtain ⟨first, s₂, inserted, -, only, rep₂⟩ := new.rep.rbInsert_empty none
    (new.pieceOk q (by simp))
  obtain ⟨s₃, news, others, only', piecesEq, rep₃⟩ :=
    @Rep.insertPiecesRight s₂ [] [] first q rep₂ rest
      (by rw [only.buffers]; exact fun r member => new.pieceOk r (by simp [member]))
      (by
        rw [only.buffers]
        simp only [tailCount_append, tailCount_cons, tailCount_nil]
        omega)
  have buffersEq : s₃.buffers = s₁.buffers := only'.buffers.trans only.buffers
  have partsEq : parts s₃.buffers ((first, q) :: (news ++ [])) =
      (q :: rest).map (contentOf s₁.buffers) := by
    rw [buffersEq, append_nil]
    exact parts_of_pieces (by simp [piecesEq])
  have frame := new.frame.trans (only.frame.trans only'.frame)
  refine ⟨s₃, (first, q) :: (news ++ []), ?_,
    ⟨rep₃, ?_, ?_, ?_, frame.eol, frame.eolNormalized, frame.searchCache,
      frame.lastVisitedLine⟩, frame.grown⟩
  · simp [PieceTreeBase.insertIntoEmpty, created, inserted, others]
  · rw [textOf, partsEq, new.content]
  · rw [partsEq]
    exact new.nonempty
  · rw [partsEq]
    exact new.whole

/-! ### Appending to the last piece -/

/-- The line starts stay right when the `\r\n` is counted once. -/
theorem appendToBuffer_ok (ok : BufferOk c) (text : Text) :
    BufferOk (appendToBuffer c text (splitsCRLF c.buffer text)) := by
  cases splits : splitsCRLF c.buffer text with
  | false => exact ok.append splits
  | true =>
    obtain ⟨initial, equal⟩ :=
      endsWithCR_iff.mp (Bool.and_eq_true_iff.mp splits).1
    have positive : 0 < breakCount c.buffer :=
      breakCount_pos_of_mem (.inl rfl) (by simp [equal])
    have nonempty : breakEnds c.buffer ≠ [] := length_pos_iff.mp positive
    unfold BufferOk at ok ⊢
    simp only [appendToBuffer, if_true]
    rw [ok, createLineStartsFast_eq, lineStartsOf, lineStartsOf, lineStartsOf,
      breakEnds_append, endsUpTo_append_joint, splits, if_pos rfl,
      dropLast_cons_of_ne_nil nonempty]
    simp [Nat.add_comm]

variable {more : Text}

/-- A piece that ends before the end of the change buffer keeps its meaning
when that buffer grows, whatever is written behind it. -/
theorem Denotes.extend_of_lt {c c' : StringBuffer} {rest : List StringBuffer}
    (denotes : Denotes (c :: rest) p first last) (grown : c'.buffer = c.buffer ++ more)
    (inside : p.bufferIndex = 0 → last < c.buffer.length) : Denotes (c' :: rest) p first last := by
  by_cases zero : p.bufferIndex = 0
  · have bound := inside zero
    have ordered := denotes.ordered
    have sameCursor : ∀ {offset}, offset ≤ last →
        cursorAt c'.buffer offset = cursorAt c.buffer offset := by
      intro offset below
      rw [grown, cursorAt, lineIndex, lineStart, endsUpTo_append_of_lt more (by omega)]
      rfl
    have start := denotes.start
    have stop := denotes.stop
    have lineFeedCnt := denotes.lineFeedCnt
    simp only [bufferText, zero, getD_cons_zero] at start stop lineFeedCnt
    refine ⟨denotes.known, ordered, ?_, ?_, ?_, denotes.length, ?_⟩
    · simp only [bufferText, zero, getD_cons_zero, grown, length_append]
      omega
    · simp only [bufferText, zero, getD_cons_zero, start, sameCursor ordered]
    · simp only [bufferText, zero, getD_cons_zero, stop, sameCursor le_rfl]
    · simp only [bufferText, zero, getD_cons_zero, grown,
        substring_append_left more ordered bound.le]
      exact lineFeedCnt
  · obtain ⟨index, indexEq⟩ := Nat.exists_eq_succ_of_ne_zero zero
    have same : bufferText (c' :: rest) p.bufferIndex = bufferText (c :: rest) p.bufferIndex := by
      simp [bufferText, indexEq]
    exact ⟨denotes.known, denotes.ordered, same ▸ denotes.bounded,
      same ▸ denotes.start, same ▸ denotes.stop, denotes.length,
      same ▸ denotes.lineFeedCnt⟩

theorem substring_append_right (front back : Text) {first : Nat} (bounded : first ≤ front.length) :
    substring (front ++ back) first (front ++ back).length =
      substring front first front.length ++ back := by
  rw [substring_of_le _ (by simp; omega), substring_of_le _ bounded,
    take_length, take_length, drop_append_of_le_length bounded]

section

variable {c c' : StringBuffer} {rest : List StringBuffer} (rep : Rep s (es ++ (id, p) :: fs))
  (buffersEq : s.buffers = c :: rest) (isTail : atTail s.buffers p = true)

include rep buffersEq isTail

/-- The other pieces keep their texts when the change buffer grows behind the
piece that ends at its end. -/
theorem Rep.others_extend (grown : c'.buffer = c.buffer ++ more) (ok : BuffersOk (c' :: rest)) :
    ∀ e ∈ es ++ fs, PieceOk (c' :: rest) e.2 ∧
      contentOf (c' :: rest) e.2 = contentOf s.buffers e.2 ∧
      atTail (c' :: rest) e.2 = false := by
  intro e member
  obtain ⟨first, last, denotes⟩ := rep.pieces e (by
    simp only [mem_append, mem_cons] at member ⊢
    tauto)
  have notTail : atTail s.buffers e.2 = false := by
    have count := rep.tail
    have none : tailCount s.buffers (es ++ fs) = 0 := by
      simp only [tailCount_append, tailCount_cons, isTail, if_true] at count ⊢
      omega
    simpa using countP_eq_zero.mp none e member
  rw [buffersEq] at denotes notTail
  have inside : e.2.bufferIndex = 0 → last < c.buffer.length := by
    intro zero
    have bounded := denotes.bounded
    have differs : ¬(e.2.bufferIndex = 0 ∧ last = (bufferText (c :: rest) 0).length) := by
      rw [← denotes.atTail_iff, notTail]
      simp
    simp only [zero, true_and, bufferText, getD_cons_zero] at differs bounded
    omega
  have denotes' := denotes.extend_of_lt grown inside
  refine ⟨⟨_, _, denotes'⟩, ?_, denotes'.atTail_eq_false ?_⟩
  · rw [denotes'.content ok, buffersEq, denotes.content (buffersEq ▸ rep.buffers)]
    by_cases zero : e.2.bufferIndex = 0
    · simp only [bufferText, zero, getD_cons_zero, grown]
      exact substring_append_left more denotes.ordered (inside zero).le
    · obtain ⟨index, indexEq⟩ := Nat.exists_eq_succ_of_ne_zero zero
      simp [bufferText, indexEq]
  · intro zero
    simp only [bufferText, getD_cons_zero, grown, length_append]
    omega

theorem Rep.extendNode (notEmpty : contentOf s.buffers p ≠ [])
    (grown : c'.buffer = c.buffer ++ more) (changeOk : BufferOk c') :
    ∃ s' p', s.extendNode id c' more.length = some s' ∧
      Rep s' (es ++ (id, p') :: fs) ∧ s'.buffers = c' :: rest ∧
      contentOf s'.buffers p' = contentOf s.buffers p ++ more ∧
      (∀ e ∈ es ++ fs, contentOf s'.buffers e.2 = contentOf s.buffers e.2) ∧
      s'.eol = s.eol ∧ s'.eolNormalized = s.eolNormalized ∧
      s'.searchCache = s.searchCache ∧
      s'.lastVisitedLine = s.lastVisitedLine := by
  have buffersOk : BuffersOk (c' :: rest) := by
    refine ⟨by simp, forall_mem_cons.mpr ⟨changeOk, fun b member => ?_⟩⟩
    exact rep.buffers.lineStarts b (by simp [buffersEq, member])
  have others := rep.others_extend buffersEq isTail grown buffersOk
  have lengthNe := rep.length_ne_zero notEmpty
  obtain ⟨n, found, -, pieceEq⟩ := rep.node?
  obtain ⟨first, last, denotes⟩ := rep.pieceOk
  obtain ⟨zero, lastEq⟩ := denotes.atTail_iff.mp isTail
  have length := denotes.length
  have start := denotes.start
  have content := denotes.content rep.buffers
  simp only [zero, buffersEq, bufferText, getD_cons_zero] at lastEq start content
  -- the piece now reaches to the new end
  obtain ⟨p', pieceEq'⟩ : ∃ p', p' = { p with
      stop := cursorAt c'.buffer c'.buffer.length
      lineFeedCnt := getLineFeedCnt { s with buffers := c' :: rest } 0 p.start
        (cursorAt c'.buffer c'.buffer.length)
      length := p.length + more.length } := ⟨_, rfl⟩
  have newLength : c'.buffer.length = c.buffer.length + more.length := by
    rw [grown, length_append]
  have denotes' : Denotes (c' :: rest) p' first c'.buffer.length := by
    refine denotes_of_cursors (s := { s with buffers := c' :: rest }) buffersOk
      ?_ (by omega) ?_ ?_ ?_ ?_ ?_
    · simp [pieceEq', zero]
    · simp [pieceEq', zero, bufferText]
    · simp only [pieceEq', zero, bufferText, getD_cons_zero]
      rw [start, grown, cursorAt, cursorAt, lineIndex, lineIndex, lineStart,
        lineStart, endsUpTo_append_of_lt more (by omega)]
    · simp [pieceEq', zero, bufferText]
    · simp only [pieceEq']
      omega
    · simp only [pieceEq', zero]
  have content' : contentOf (c' :: rest) p' = contentOf s.buffers p ++ more := by
    have zero' : p'.bufferIndex = 0 := by rw [pieceEq', zero]
    rw [denotes'.content buffersOk, zero', buffersEq, content, lastEq]
    simp only [bufferText, getD_cons_zero, grown]
    exact substring_append_right c.buffer more (by omega)
  obtain ⟨t₁, t₂, assigned, updated, holds⟩ := rep.holds.replace p'
    more.length ((p'.lineFeedCnt : Int) - p.lineFeedCnt)
    (by simp [pieceEq']) (by omega)
  refine ⟨{ s with
      buffers := c' :: rest
      lastChangeBufferPos := cursorAt c'.buffer c'.buffer.length
      root := t₂ }, p', ?_, ⟨holds, by simpa using rep.fresh, buffersOk, rfl, ?_, ?_⟩, rfl,
    content', fun e member => (others e member).2.1, rfl, rfl, rfl, rfl⟩
  · have foundAgain : PieceTreeBase.node? { s with buffers := c' :: rest } id =
      some n := found
    have endCursor := changeOk.endCursor
    have lfEq : p'.lineFeedCnt = getLineFeedCnt { s with buffers := c' :: rest } 0 p.start
          (cursorAt c'.buffer c'.buffer.length) := by rw [pieceEq']
    simp only [PieceTreeBase.extendNode, buffersEq, set_cons_zero, endCursor,
      foundAgain, pieceEq, Option.bind_eq_bind, Option.bind_some, ← lfEq]
    have literal : { p with
        stop := cursorAt c'.buffer c'.buffer.length
        lineFeedCnt := p'.lineFeedCnt
        length := p.length + more.length } = p' := by rw [pieceEq']
    rw [literal, assigned { s with buffers := c' :: rest } rfl, Option.bind_some]
    exact updated _ rfl
  · intro e member
    rcases mem_append.mp member with before | here
    · exact (others e (by simp [before])).1
    · rcases mem_cons.mp here with rfl | after
      · exact ⟨_, _, denotes'⟩
      · exact (others e (by simp [after])).1
  · have none : tailCount (c' :: rest) (es ++ fs) = 0 :=
      countP_eq_zero.mpr fun e member => by simp [(others e member).2.2]
    simp only [tailCount_append, tailCount_cons] at none ⊢
    split <;> omega

end

/-- `appendToNode` writes the text behind the piece that ends where the change
buffer ends. Unless a `\n` joins a `\r` there, the buffers only grow. -/
theorem Rep.appendToNode (rep : Rep s (es ++ (id, p) :: fs))
    (nonempty : [] ∉ parts s.buffers (es ++ (id, p) :: fs))
    (whole : Whole (parts s.buffers (es ++ (id, p) :: fs)))
    (noCR : s.shouldCheckCRLF = false → CR ∉ contentOf s.buffers p ∧ CR ∉ value)
    (isTail : atTail s.buffers p = true) (valueNonempty : value ≠ []) :
    ∃ s' es', s.appendToNode id value = some s' ∧
      Edited s s' es' (textOf s.buffers es ++ contentOf s.buffers p ++ value ++
        textOf s.buffers fs) ∧
      KeepsAt es id es' ∧
      (splitsCRLF (contentOf s.buffers p) value = false → Extends s.buffers s'.buffers) := by
  simp only [parts_append, parts_cons, mem_append, mem_cons, not_or] at nonempty whole
  obtain ⟨wholeLeft, ⟨-, wholeRight⟩, jointLeft⟩ := whole_append.mp whole
  have notEmpty : contentOf s.buffers p ≠ [] := Ne.symm nonempty.2.1
  obtain ⟨moved, s₁, fs', adjusted, head⟩ := rep.adjustCarriageReturnFromNext
    nonempty.2.2 wholeRight (fun unchecked => (noCR unchecked).2)
  generalize value'Eq : (if moved then value ++ [LF] else value) = value' at head
  have starts : startsWithLF value' = startsWithLF value := by
    rw [← value'Eq]
    split
    · exact startsWithLF_append_of_ne_nil _ valueNonempty
    · rfl
  have value'Nonempty : value' ≠ [] := by
    rw [← value'Eq]
    split <;> simp [valueNonempty]
  have rep₁ := head.rep
  rw [← append_cons] at rep₁
  have buffersEq := head.only.buffers
  obtain ⟨c, rest, change⟩ := exists_cons_of_ne_nil rep.buffers.nonempty
  -- the change buffer ends as the piece does
  have endsSame : endsWithCR c.buffer = endsWithCR (contentOf s.buffers p) := by
    obtain ⟨first, last, denotes⟩ := rep.pieceOk
    obtain ⟨zero, lastEq⟩ := denotes.atTail_iff.mp isTail
    have content := denotes.content rep.buffers
    rw [substring_of_le _ denotes.ordered, lastEq, zero, take_length] at content
    rw [content] at notEmpty ⊢
    have ends := endsWithCR_append_of_ne_nil (c.buffer.take first) notEmpty
    simpa [bufferText, change] using ends
  have hit : (s₁.shouldCheckCRLF && startsWithLF value' &&
      s₁.endWithCR (some id)) = splitsCRLF c.buffer value' := by
    rw [rep₁.endWithCR (buffersEq ▸ notEmpty), buffersEq, ← endsSame,
      head.only.frame.shouldCheckCRLF, splitsCRLF]
    cases checks : s.shouldCheckCRLF with
    | true => simp [Bool.and_comm]
    | false =>
      have absent := endsWithCR_eq_false (noCR checks).1
      simp [endsSame, absent]
  obtain ⟨s', p', extended, rep', finalBuffers, content', others, eol,
      eolNormalized, searchCache, lastVisitedLine⟩ :=
    rep₁.extendNode (buffersEq.trans change) (buffersEq ▸ isTail) (buffersEq ▸ notEmpty) rfl
      (appendToBuffer_ok (rep.buffers.lineStarts c (by simp [change])) value')
  rw [buffersEq] at content' others
  have keptLeft : parts s'.buffers es = parts s.buffers es :=
    map_congr_left fun e member => others e (by simp [member])
  have keptRight : parts s'.buffers fs' = parts s.buffers fs' :=
    map_congr_left fun e member => others e (by simp [member])
  have partsEq : parts s'.buffers (es ++ (id, p') :: fs') =
      parts s.buffers es ++ (contentOf s.buffers p ++ value') :: parts s.buffers fs' := by
    rw [parts_append, parts_cons, keptLeft, keptRight, content']
  have text := head.text
  refine ⟨s', es ++ (id, p') :: fs', ?_, ⟨rep', ?_, ?_, ?_,
    eol.trans head.only.eol, eolNormalized.trans head.only.eolNormalized,
    searchCache.trans head.only.searchCache,
    lastVisitedLine.trans head.only.lastVisitedLine⟩,
    fun _ => ⟨p', fs', rfl⟩, ?_⟩
  · have changeAt : s₁.bufferAt 0 = c := by
      simp [PieceTreeBase.bufferAt, buffersEq, change]
    simp only [PieceTreeBase.appendToNode, adjusted, Option.bind_eq_bind,
      Option.bind_some, value'Eq, hit, changeAt]
    exact extended
  · rw [textOf, partsEq]
    simp only [textOf] at text
    simp [textOf, text]
  · rw [partsEq]
    simp [nonempty.1, head.nonempty, notEmpty]
  · rw [partsEq]
    refine whole_append.mpr ⟨wholeLeft, ⟨?_, head.whole⟩, ?_⟩
    · rw [splitsCRLF_append_left _ _ value'Nonempty]
      exact head.joint
    · rw [flatten_cons] at jointLeft ⊢
      rwa [append_assoc, splitsCRLF_append_right _ _ notEmpty,
        ← splitsCRLF_append_right _ _ notEmpty]
  · intro joins
    rw [finalBuffers, change]
    refine extends_cons value' rfl ?_
    rw [splitsCRLF, endsSame, starts]
    exact joins

end Branches

end CodeEditor.PieceTree
