import CodeEditor.PieceTree.Append

/-!
# Insertion

One lemma for each branch of `insert`, and from them the meaning of `insert`
on the text: the new text stands at its offset, and the invariant holds again.
-/

namespace CodeEditor.PieceTree

open PieceTreeBase List Option

section Branches

variable {s : PieceTreeBase} {es fs : List Entry} {id : Nat} {p : Piece}
  {value : Text}

/-! ### Inserting behind a node -/

theorem textOf_congr {old new : List StringBuffer}
    (same : parts new es = parts old es) : textOf new es = textOf old es :=
  congrArg List.flatten same

/-- The entries of the new pieces hold the new text. -/
theorem NewPieces.entries {es news : List Entry}
    {text : Text} (new : NewPieces s es text pieces s') (same : news.map (·.2) = pieces) :
    textOf s'.buffers news = text ∧ [] ∉ parts s'.buffers news ∧ Whole (parts s'.buffers news) := by
  rw [textOf, parts_of_pieces same]
  exact ⟨new.content, new.nonempty, new.whole⟩

section

variable (rep : Rep s (es ++ (id, p) :: fs))

include rep

theorem Rep.insertContentToNodeRight (nonempty : [] ∉ parts s.buffers (es ++ (id, p) :: fs))
    (whole : Whole (parts s.buffers (es ++ (id, p) :: fs))) (noCR : s.shouldCheckCRLF = false →
      CR ∉ textOf s.buffers (es ++ (id, p) :: fs) ∧ CR ∉ value) (valueNonempty : value ≠ []) :
    ∃ s' es', s.insertContentToNodeRight value id = some s' ∧
      Edited s s' es' (textOf s.buffers es ++ contentOf s.buffers p ++ value ++
        textOf s.buffers fs) ∧
      KeepsAt es id es' ∧ Extends s.buffers s'.buffers := by
  rw [append_cons, parts_append] at nonempty whole
  rw [mem_append, not_or] at nonempty
  obtain ⟨wholeLeft, wholeRight, -⟩ := whole_append.mp whole
  obtain ⟨moved, s₁, fs', adjusted, head⟩ := rep.adjustCarriageReturnFromNext
    nonempty.2 wholeRight (fun unchecked => (noCR unchecked).2)
  generalize value'Eq : (if moved then value ++ [LF] else value) = value' at head
  have value'Nonempty : value' ≠ [] := by
    rw [← value'Eq]
    split <;> simp [valueNonempty]
  obtain ⟨pieces, s₂, created, new⟩ := createNewPieces_spec head.rep value'Nonempty
  obtain ⟨q, rest, rfl⟩ := new.exists_cons value'Nonempty
  have rep₂ := new.rep
  have tail := new.tail
  rw [countP_cons] at tail
  rw [← append_cons] at rep₂ tail
  obtain ⟨first, s₃, inserted, only₃, rep₃⟩ := rep₂.rbInsertRight
    (new.pieceOk q (by simp)) (by omega)
  rw [append_cons] at rep₃
  obtain ⟨s₄, news, others, only₄, piecesEq, rep₄⟩ := rep₃.insertPiecesRight rest
    (by rw [only₃.buffers]; exact fun r member => new.pieceOk r (by simp [member]))
    (by
      rw [only₃.buffers]
      simp only [tailCount_append, tailCount_cons, tailCount_nil] at tail ⊢
      omega)
  have frame := head.only.frame.trans (new.frame.trans (only₃.frame.trans only₄.frame))
  have buffersEq : s₄.buffers = s₂.buffers := only₄.buffers.trans only₃.buffers
  have same : ((first, q) :: news).map (·.2) = q :: rest := by simp [piecesEq]
  obtain ⟨newText, newNonempty, newWhole⟩ := new.entries same
  rw [← buffersEq] at newText newNonempty newWhole
  have keptLeft : parts s₄.buffers (es ++ [(id, p)]) = parts s.buffers (es ++ [(id, p)]) :=
    parts_extend frame.grown rep.buffers rep₄.buffers
      fun e member => rep.pieces e (by simp at member ⊢; tauto)
  have keptRight : parts s₄.buffers fs' = parts s.buffers fs' := by
    rw [← head.only.buffers]
    exact parts_extend (head.only.buffers ▸ frame.grown) head.rep.buffers
      rep₄.buffers fun e member => head.rep.pieces e (by simp [member])
  have rightNonempty : [] ∉ parts s₄.buffers fs' := keptRight ▸ head.nonempty
  have rightWhole : Whole (parts s₄.buffers ((first, q) :: (news ++ fs'))) := by
    rw [← cons_append, parts_append, whole_append]
    refine ⟨newWhole, keptRight ▸ head.whole, ?_⟩
    have joint := head.joint
    rw [← newText] at joint
    rw [keptRight]
    exact joint
  obtain ⟨s', front, validated, mended, keeps⟩ :=
    rep₄.validateCRLFWithPrevNode (by
        rw [parts_append, keptLeft, mem_append, not_or]
        exact ⟨nonempty.1, fun member => newNonempty (by simp at member ⊢; tauto)⟩)
      (keptLeft ▸ wholeLeft) rightWhole
      (fun unchecked member => by
        rw [frame.shouldCheckCRLF] at unchecked
        rw [textOf, keptLeft] at member
        refine (noCR unchecked).1 ?_
        rw [append_cons, textOf_append]
        exact mem_append_left _ member)
  have repaired := mended.repaired (by simpa using rep₄) (by
      rw [parts_append, mem_append, not_or]
      exact ⟨fun member => newNonempty (by simp [member]), rightNonempty⟩)
  have frame' := frame.trans repaired.frame
  refine ⟨s', front ++ (news ++ fs'), ?_, ⟨repaired.rep, ?_, repaired.nonempty,
    repaired.whole, frame'.eol, frame'.eolNormalized, frame'.searchCache,
    frame'.lastVisitedLine⟩, keeps es id p rfl, frame'.grown⟩
  · simp only [PieceTreeBase.insertContentToNodeRight, adjusted,
      bind_eq_bind, bind_some, value'Eq, created, head?_cons,
      inserted, tail_cons, others]
    exact validated
  · have split : es ++ [(id, p)] ++ [(first, q)] ++ (news ++ fs') =
        (es ++ [(id, p)]) ++ (((first, q) :: news) ++ fs') := by simp
    rw [repaired.text, split, textOf_append _ (es ++ [(id, p)]),
      textOf_append _ ((first, q) :: news), newText, textOf_congr keptLeft, textOf_congr keptRight,
        head.text]
    simp

/-! ### Inserting before a node -/

/-- A node is deleted when its piece became empty, which changes neither the
text nor its borders. -/
theorem Rep.deleteEmpty [Decidable c] (isEmpty : c ↔ contentOf s.buffers p = []) :
    ∃ s' es', s.deleteNodes (if c then [id] else []) = some s' ∧
      OnlyTree s s' ∧ Rep s' es' ∧ KeepsAt es id es' ∧
      textOf s'.buffers es' = textOf s.buffers (es ++ (id, p) :: fs) ∧
      ([] ∉ parts s.buffers es → [] ∉ parts s.buffers fs → [] ∉ parts s'.buffers es') ∧
      (Whole (parts s.buffers (es ++ (id, p) :: fs)) → Whole (parts s'.buffers es')) := by
  obtain ⟨s', deleted, only, rep'⟩ := rep.deleteIf c
  refine ⟨s', _, deleted, only, rep', ?_, ?_⟩
  · obtain ⟨notBefore, notAfter⟩ := not_mem_ids_of_distinct rep.holds.distinct
    intro member
    by_cases empty : c
    · simp [empty, notBefore, notAfter] at member
    · exact ⟨p, fs, by simp [empty]⟩
  rw [only.buffers]
  by_cases empty : c
  · have content := isEmpty.mp empty
    simp only [if_pos empty, append_nil, parts_append, parts_cons, content,
      textOf_append, textOf_cons, nil_append, whole_append_nil, true_and]
    exact ⟨fun left right member => (mem_append.mp member).elim left right, fun whole => whole⟩
  · have content := mt isEmpty.mpr empty
    simp only [if_neg empty, append_assoc, singleton_append, true_and]
    refine ⟨fun left right => ?_, fun whole => whole⟩
    simp [left, right, content]

/-- `insertContentToNodeLeft` first moves a `\n` at the start of the node to the
inserted text, if that ends in `\r`. -/
theorem Rep.moveLeadingLF (notEmpty : contentOf s.buffers p ≠ [])
    (whole : Whole (parts s.buffers ((id, p) :: fs)))
    (noCR : s.shouldCheckCRLF = false → CR ∉ value) : ∃ moves s₁ p₁,
      (s.shouldCheckCRLF && endsWithCR value && s.startWithLF (some id)) = moves ∧
      (if moves then (s.setPiece id (s.dropLeadingLF p)).bind fun s =>
        s.updateMetadata id (-1) (-1) else some s) = some s₁ ∧
      OnlyTree s s₁ ∧ Rep s₁ (es ++ (id, p₁) :: fs) ∧
      (if moves then value ++ [LF] else value) ++ contentOf s.buffers p₁ =
        value ++ contentOf s.buffers p ∧
      Whole (parts s.buffers ((id, p₁) :: fs)) ∧
      splitsCRLF (if moves then value ++ [LF] else value)
        (textOf s.buffers ((id, p₁) :: fs)) = false ∧
      (moves = true ∧ p.length - 1 = 0 ↔ contentOf s.buffers p₁ = []) := by
  have starts := rep.startWithLF notEmpty
  have lengthEq := rep.length_content
  cases test : s.shouldCheckCRLF && endsWithCR value && s.startWithLF (some id) with
  | true =>
    simp only [Bool.and_eq_true, starts] at test
    obtain ⟨rest, content⟩ := startsWithLF_iff.mp test.2
    obtain ⟨pieceOk, content', shorter, lf, tail⟩ :=
      dropLeadingLF_spec rep.buffers rep.pieceOk content
    obtain ⟨s₁, s₂, assigned, updated, only, rep'⟩ :=
      rep.replace (-1) (-1) pieceOk (by simp [tail]) (by omega) (by omega)
    rw [content, length_cons] at lengthEq
    rw [parts_cons, content] at whole
    refine ⟨true, s₂, s.dropLeadingLF p, rfl, by simp [assigned, updated],
      only, rep', by simp [content, content'], ?_, by simp [splitsCRLF], ?_⟩
    · rw [parts_cons, content']
      exact whole_tail_LF whole
    · rw [content', ← length_eq_zero_iff]
      simp only [true_and]
      omega
  | false =>
    refine ⟨false, s, p, rfl, rfl, .refl s, rep, rfl, whole, ?_, by
      simp [notEmpty]⟩
    rw [textOf_cons, splitsCRLF_append_right _ _ notEmpty, splitsCRLF, ← starts]
    cases checks : s.shouldCheckCRLF with
    | true => simpa [checks] using test
    | false => simp [endsWithCR_eq_false (noCR checks)]

theorem Rep.insertContentToNodeLeft (nonempty : [] ∉ parts s.buffers (es ++ (id, p) :: fs))
    (whole : Whole (parts s.buffers (es ++ (id, p) :: fs))) (noCR : s.shouldCheckCRLF = false →
      CR ∉ textOf s.buffers (es ++ (id, p) :: fs) ∧ CR ∉ value) (valueNonempty : value ≠ []) :
    ∃ s' es', s.insertContentToNodeLeft value id = some s' ∧
      Edited s s' es' (textOf s.buffers es ++ value ++ contentOf s.buffers p ++
        textOf s.buffers fs) ∧
      Extends s.buffers s'.buffers := by
  rw [parts_append] at nonempty whole
  rw [mem_append, parts_cons, mem_cons, not_or, not_or] at nonempty
  obtain ⟨wholeLeft, wholeRight, -⟩ := whole_append.mp whole
  obtain ⟨moves, s₁, p₁, movesEq, moved, only₁, rep₁, text₁, whole₁, joint₁,
    empty₁⟩ := rep.moveLeadingLF (Ne.symm nonempty.2.1) wholeRight
      fun unchecked => (noCR unchecked).2
  obtain ⟨n, found, -, pieceEq⟩ := rep.node?
  generalize value'Eq : (if moves then value ++ [LF] else value) = value' at text₁ joint₁
  have value'Nonempty : value' ≠ [] := by
    rw [← value'Eq]
    split <;> simp [valueNonempty]
  obtain ⟨pieces, s₂, created, new⟩ := createNewPieces_spec rep₁ value'Nonempty
  obtain ⟨s₃, news, inserted, only₃, piecesEq, rep₃⟩ :=
    new.rep.insertPiecesLeft pieces.reverse (by simpa using new.pieceOk) (by simpa using new.tail)
  rw [reverse_reverse] at piecesEq
  obtain ⟨newText, newNonempty, newWhole⟩ := new.entries piecesEq
  rw [← only₃.buffers] at newText newNonempty newWhole
  have frame := only₁.frame.trans (new.frame.trans only₃.frame)
  have keptLeft : parts s₃.buffers es = parts s.buffers es :=
    parts_extend frame.grown rep.buffers rep₃.buffers
      fun e member => rep.pieces e (by simp [member])
  have keptRight : parts s₃.buffers ((id, p₁) :: fs) = parts s.buffers ((id, p₁) :: fs) := by
    rw [← only₁.buffers]
    exact parts_extend (only₁.buffers ▸ frame.grown) rep₁.buffers
      rep₃.buffers fun e member => rep₁.pieces e (mem_append_right _ member)
  have rightWhole : Whole (parts s₃.buffers (news ++ (id, p₁) :: fs)) := by
    rw [parts_append, whole_append, keptRight]
    refine ⟨newWhole, whole₁, ?_⟩
    rw [← newText] at joint₁
    exact joint₁
  obtain ⟨⟨first, q⟩, news, rfl⟩ : ∃ e rest, news = e :: rest :=
    exists_cons_of_ne_nil (by
      rintro rfl
      exact value'Nonempty (by simpa using newText.symm))
  simp only [cons_append, head_cons] at inserted rightWhole
  rw [append_assoc, cons_append] at rep₃
  obtain ⟨s₄, front, validated, mended, -⟩ := rep₃.validateCRLFWithPrevNode (by
      rw [parts_append, keptLeft, mem_append, not_or]
      exact ⟨nonempty.1, fun member => newNonempty (by simp at member ⊢; tauto)⟩)
    (keptLeft ▸ wholeLeft) rightWhole
    (fun unchecked member => by
      rw [frame.shouldCheckCRLF] at unchecked
      rw [textOf_congr keptLeft] at member
      refine (noCR unchecked).1 ?_
      rw [textOf_append]
      exact mem_append_left _ member)
  have repOld : Rep s₃ ((es ++ [(first, q)]) ++ (news ++ (id, p₁) :: fs)) := by
    simpa using rep₃
  have text₄ := mended.text_all repOld
  have later := mended.later repOld
  rw [parts_append, parts_append] at later
  obtain ⟨laterNews, laterRight⟩ := append_inj later (by simp [parts])
  have sameRight := laterRight.trans keptRight
  rw [parts_cons, parts_cons, List.cons.injEq] at sameRight
  obtain ⟨content₄, laterFs⟩ := sameRight
  have rep₄ := mended.rep
  rw [← append_assoc] at rep₄
  rw [← content₄] at empty₁
  obtain ⟨s', es', deleted, only', rep', -, text', nonempty', whole'⟩ :=
    rep₄.deleteEmpty empty₁
  have frame' := frame.trans (mended.frame.trans only'.frame)
  refine ⟨s', _, ?_, ⟨rep', ?_, ?_, ?_, frame'.eol, frame'.eolNormalized,
    frame'.searchCache, frame'.lastVisitedLine⟩, frame'.grown⟩
  · have rest : ∀ value, value = value' → ((insertContentToNodeLeft.insertPiecesLeft
            (s₁.createNewPieces value).2 id
            (s₁.createNewPieces value).1.reverse).bind fun result =>
          (result.2.validateCRLFWithPrevNode (some result.1)).bind fun s =>
            s.deleteNodes (if moves = true ∧ p.length - 1 = 0 then [id] else [])) =
        some s' := by
      rintro _ rfl
      simp only [created, inserted, validated, bind_some, deleted]
    simp only [PieceTreeBase.insertContentToNodeLeft, movesEq, found, pieceEq,
      bind_eq_bind, bind_some]
    cases moves with
    | true =>
      obtain ⟨s₀, assigned, updated⟩ := bind_eq_some_iff.mp moved
      simpa only [if_true, assigned, updated, bind_some] using rest _ value'Eq
    | false =>
      obtain rfl : s = s₁ := Option.some.inj moved
      exact rest _ value'Eq
  · have split : (es ++ [(first, q)]) ++ (news ++ (id, p₁) :: fs) =
        es ++ (((first, q) :: news) ++ (id, p₁) :: fs) := by simp
    rw [text', append_assoc, text₄, split, textOf_append,
      textOf_append _ ((first, q) :: news), newText, textOf_congr keptLeft,
      textOf_congr keptRight, textOf_cons, ← append_assoc value', text₁]
    simp
  · refine nonempty' ?_ (laterFs ▸ nonempty.2.2)
    rw [parts_append, laterNews, mem_append, not_or]
    exact ⟨mended.nonempty, fun member => newNonempty (by simp [member])⟩
  · exact whole' (by simpa using mended.whole)

end

/-! ### Splitting a node -/

/-- Room for one more piece at the end of the change buffer. -/
theorem NewPieces.tail_with {text : Text} (new : NewPieces s es text pieces s') (rep : Rep s es)
    (pieceOk : PieceOk s.buffers q)
    (tail : tailCount s.buffers es + (if atTail s.buffers q then 1 else 0) ≤ 1) :
    tailCount s'.buffers es + (if atTail s'.buffers q then 1 else 0) +
      pieces.countP (atTail s'.buffers) ≤ 1 := by
  have old := new.tail
  cases isTail : atTail s'.buffers q with
  | false => simpa using old
  | true =>
    have none := new.oldTail q pieceOk isTail
    have before := pieceOk.atTail_of_extend new.frame.grown isTail
    have shrinks := tailCount_of_extend new.frame.grown rep.pieces
    simp only [before, if_true] at tail ⊢
    omega

variable {remainder : Nat}

/-- The part of the split node behind the new text. A `\n` at its start moves
to the new text if that ends in `\r`. -/
theorem Rep.rightPart (rep : Rep s (es ++ (id, p) :: fs)) (inside : remainder < p.length)
    (whole : Whole (parts s.buffers ((id, p) :: fs))) (nonempty : value ≠ [])
    (noCR : s.shouldCheckCRLF = false → CR ∉ value) {right : Piece} (rightEq : right = { p with
      start := s.positionInBuffer p remainder
      lineFeedCnt := s.getLineFeedCnt p.bufferIndex (s.positionInBuffer p remainder) p.stop
      length := s.offsetInBuffer p.bufferIndex p.stop -
        s.offsetInBuffer p.bufferIndex (s.positionInBuffer p remainder) }) :
    ∃ moves right' rest value',
      (s.shouldCheckCRLF && endsWithCR value && s.nodeCharCodeAt p remainder == some LF) = moves ∧
      (if moves then s.dropLeadingLF right else right) = right' ∧
      (if moves then value ++ [LF] else value) = value' ∧ value' ≠ [] ∧
      PieceOk s.buffers right' ∧ contentOf s.buffers right' = rest ∧
      value' ++ rest = value ++ (contentOf s.buffers p).drop remainder ∧
      Whole (rest :: parts s.buffers fs) ∧ splitsCRLF value' (rest ++ textOf s.buffers fs) = false ∧
      (atTail s.buffers right' = true → atTail s.buffers p = true) := by
  have lengthEq := rep.length_content
  have stopEq := rep.pieceOk.positionInBuffer_length rep.buffers
  obtain ⟨rightOk, content, tail⟩ := @PieceOk.part s p right remainder p.length
    rep.pieceOk rep.buffers inside.le le_rfl (by rw [rightEq])
    (by rw [rightEq]) (by rw [rightEq, stopEq])
    (by
      rw [rightEq]
      simp only
      rw [rep.pieceOk.offsetInBuffer rep.buffers inside.le,
        rep.pieceOk.offsetInBuffer_stop rep.buffers]
      omega)
    (by rw [rightEq])
  rw [← lengthEq, take_length] at content
  have notEmpty : (contentOf s.buffers p).drop remainder ≠ [] := by
    rw [← length_pos_iff, length_drop]
    omega
  have rightWhole : Whole ((contentOf s.buffers p).drop remainder :: parts s.buffers fs) := by
    exact ⟨splitsCRLF_drop_left remainder whole.1, whole.2⟩
  have starts : startsWithLF ((contentOf s.buffers p).drop remainder) =
      (s.nodeCharCodeAt p remainder == some LF) := by
    rw [rep.pieceOk.nodeCharCodeAt rep.buffers inside (.inr rfl), startsWithLF, head?_drop]
  cases test : s.shouldCheckCRLF && endsWithCR value && s.nodeCharCodeAt p remainder == some LF with
  | true =>
    rw [Bool.and_eq_true, ← starts] at test
    obtain ⟨rest, restEq⟩ := startsWithLF_iff.mp test.2
    rw [restEq] at content rightWhole
    obtain ⟨pieceOk, content', -, -, sameTail⟩ :=
      dropLeadingLF_spec rep.buffers rightOk content
    refine ⟨true, s.dropLeadingLF right, rest, _, rfl, rfl, rfl, by simp, pieceOk, content',
      by simp [restEq], whole_tail_LF rightWhole, by simp [splitsCRLF], ?_⟩
    exact fun isTail => (tail isTail).1
  | false =>
    refine ⟨false, _, _, _, rfl, rfl, rfl, nonempty, rightOk, content, rfl, rightWhole, ?_,
      fun isTail => (tail isTail).1⟩
    rw [if_neg Bool.false_ne_true, splitsCRLF_append_right _ _ notEmpty, splitsCRLF, starts]
    cases checks : s.shouldCheckCRLF with
    | true => simpa [checks] using test
    | false => simp [endsWithCR_eq_false (noCR checks)]

/-- The part of the split node before the new text. A `\r` at its end moves to
the new text if that starts with `\n`. -/
theorem Rep.leftPart (rep : Rep s (es ++ (id, p) :: fs)) (positive : 0 < remainder)
    (inside : remainder < p.length)
    (noCR : s.shouldCheckCRLF = false → CR ∉ contentOf s.buffers p) (nonempty : value ≠ [])
    {rest : Text} (joint : splitsCRLF value rest = false) : ∃ moves count value',
      (s.shouldCheckCRLF && startsWithLF value &&
        s.nodeCharCodeAt p (remainder - 1) == some CR) = moves ∧
      (if moves then s.positionInBuffer p (remainder - 1)
        else s.positionInBuffer p remainder) = s.positionInBuffer p count ∧
      (if moves then CR :: value else value) = value' ∧ value' ≠ [] ∧
      count < p.length ∧ (moves = true ∧ count = 0 ↔ count = 0) ∧
      (contentOf s.buffers p).take count ++ value' =
        (contentOf s.buffers p).take remainder ++ value ∧
      splitsCRLF ((contentOf s.buffers p).take count) value' = false ∧
      splitsCRLF value' rest = false := by
  obtain ⟨before, rfl⟩ : ∃ before, remainder = before + 1 :=
    ⟨remainder - 1, by omega⟩
  rw [Nat.add_sub_cancel]
  have lengthEq := rep.length_content
  have shown := rep.pieceOk.nodeCharCodeAt rep.buffers (by omega : before < p.length) (.inl rfl)
  have bound : before < (contentOf s.buffers p).length := by omega
  have takeEq := take_succ_eq_append_getElem bound
  have ends : endsWithCR ((contentOf s.buffers p).take (before + 1)) =
      (s.nodeCharCodeAt p before == some CR) := by
    rw [shown, takeEq, endsWithCR_concat, getElem?_eq_getElem bound]
    rfl
  cases test : s.shouldCheckCRLF && startsWithLF value && s.nodeCharCodeAt p before == some CR with
  | true =>
    rw [Bool.and_eq_true, shown] at test
    have isCR : (contentOf s.buffers p)[before] = CR := by
      simpa [getElem?_eq_getElem bound] using test.2
    refine ⟨true, before, _, rfl, rfl, rfl, by simp, by omega, by simp, ?_, by simp [splitsCRLF],
      joint ▸ splitsCRLF_append_left [CR] rest nonempty⟩
    rw [takeEq, isCR]
    simp
  | false =>
    refine ⟨false, before + 1, _, rfl, rfl, rfl, nonempty, inside, by simp, rfl, ?_, joint⟩
    rw [if_neg Bool.false_ne_true, splitsCRLF, ends]
    cases checks : s.shouldCheckCRLF with
    | true => simpa [checks, Bool.and_comm] using test
    | false =>
      have absent : CR ∉ (contentOf s.buffers p).take (before + 1) :=
        fun member => noCR checks (mem_of_mem_take member)
      rw [← ends, endsWithCR_eq_false absent]
      rfl

/-- The right part of a split node is inserted unless it is empty. -/
theorem Rep.insertRightIf (rep : Rep s (es ++ (id, p) :: fs)) (right : Piece)
    (pieceOk : PieceOk s.buffers right) {more : Nat}
    (tail : tailCount s.buffers (es ++ (id, p) :: fs) +
      (if atTail s.buffers right then 1 else 0) + more ≤ 1) :
    ∃ s' rights, (if right.length > 0 then
        (s.rbInsertRight (some id) right).map (·.2) else some s) = some s' ∧
      OnlyTree s s' ∧ Rep s' (es ++ (id, p) :: (rights ++ fs)) ∧
      rights.map (·.2) = (if right.length > 0 then [right] else []) ∧
      tailCount s'.buffers (es ++ (id, p) :: (rights ++ fs)) + more ≤ 1 := by
  split
  · obtain ⟨new, s', inserted, only, rep'⟩ := rep.rbInsertRight pieceOk (by omega)
    refine ⟨s', [(new, right)], by simp [inserted], only, rep', rfl, ?_⟩
    rw [only.buffers]
    simp only [tailCount_append, tailCount_cons, tailCount_nil] at tail ⊢
    omega
  · refine ⟨s, [], rfl, .refl s, rep, rfl, ?_⟩
    rw [nil_append]
    omega

/-- At most one part of a split node ends at the end of the change buffer. -/
theorem Rep.tailCount_split {left right : Piece} (rep : Rep s (es ++ (id, p) :: fs))
    (leftNot : atTail s.buffers left ≠ true)
    (rightTail : atTail s.buffers right = true → atTail s.buffers p = true) :
    tailCount s.buffers (es ++ (id, left) :: fs) +
      (if atTail s.buffers right then 1 else 0) ≤ 1 := by
  have bound := rep.tail
  simp only [tailCount_append, tailCount_cons, leftNot] at bound ⊢
  cases isTail : atTail s.buffers right with
  | false => simp; omega
  | true =>
    simp only [rightTail isTail, if_true] at bound
    simp
    omega

/-- New parts between the two of a split one. -/
theorem whole_split {front middle back : List Text} {left rest taken kept : Text}
    (wholeFront : Whole front) (wholeMiddle : Whole middle) (wholeBack : Whole (rest :: back))
    (leftJoint : splitsCRLF left middle.flatten = false)
    (rightJoint : splitsCRLF middle.flatten (rest ++ back.flatten) = false)
    (nonempty : middle.flatten ≠ []) (takenNonempty : taken ≠ [])
    (text : left ++ (middle.flatten ++ rest) = taken ++ kept)
    (joint : splitsCRLF front.flatten taken = false) :
    Whole (front ++ left :: (middle ++ ((if rest = [] then [] else [rest]) ++ back))) := by
  have behind : (middle ++ ((if rest = [] then [] else [rest]) ++ back)).flatten =
      middle.flatten ++ (rest ++ back.flatten) := by
    by_cases empty : rest = [] <;> simp [empty]
  rw [whole_append, whole_cons, flatten_cons, behind]
  refine ⟨wholeFront, ⟨?_, ?_⟩, ?_⟩
  · rwa [splitsCRLF_append_right _ _ nonempty]
  · rw [← append_assoc, whole_append_if, whole_append]
    exact ⟨wholeMiddle, wholeBack, rightJoint⟩
  · rwa [← append_assoc, ← append_assoc, append_assoc left, text, append_assoc,
      splitsCRLF_append_right _ _ takenNonempty]

theorem Rep.insertIntoNode (rep : Rep s (es ++ (id, p) :: fs))
    (nonempty : [] ∉ parts s.buffers (es ++ (id, p) :: fs))
    (whole : Whole (parts s.buffers (es ++ (id, p) :: fs))) (noCR : s.shouldCheckCRLF = false →
      CR ∉ textOf s.buffers (es ++ (id, p) :: fs) ∧ CR ∉ value) (valueNonempty : value ≠ [])
    (positive : 0 < remainder) (inside : remainder < p.length) :
    ∃ s' es', s.insertIntoNode value id remainder = some s' ∧
      Edited s s' es' (textOf s.buffers es ++ (contentOf s.buffers p).take remainder ++ value ++
        (contentOf s.buffers p).drop remainder ++ textOf s.buffers fs) ∧
      KeepsAt es id es' ∧ Extends s.buffers s'.buffers := by
  rw [parts_append] at nonempty whole
  rw [mem_append, parts_cons, mem_cons, not_or, not_or] at nonempty
  obtain ⟨wholeLeft, wholeRight, jointLeft⟩ := whole_append.mp whole
  obtain ⟨n, found, -, pieceEq⟩ := rep.node?
  have lengthEq := rep.length_content
  have takeNonempty : (contentOf s.buffers p).take remainder ≠ [] := by
    rw [← length_pos_iff, length_take]
    omega
  -- the parts of the node before and behind the new text
  obtain ⟨headMoves, right, rest, value₁, headMovesEq, rightEq, value₁Eq, value₁Nonempty, rightOk,
    rightContent, rightText, rightWhole, rightJoint, rightTail⟩ :=
    rep.rightPart inside wholeRight valueNonempty (fun unchecked => (noCR unchecked).2) rfl
  obtain ⟨tailMoves, count, value₂, tailMovesEq, countEq, value₂Eq, value₂Nonempty, countLt,
    countZero, leftText, leftJoint, rightJoint⟩ := rep.leftPart positive inside
      (fun unchecked member => (noCR unchecked).1 (by simp [member])) value₁Nonempty rightJoint
  have text : (contentOf s.buffers p).take count ++ (value₂ ++ rest) =
      (contentOf s.buffers p).take remainder ++
        (value ++ (contentOf s.buffers p).drop remainder) := by
    rw [← append_assoc, leftText, append_assoc, rightText]
  obtain ⟨s₁, left, cut, only₁, rep₁, leftLength, leftContent, leftTail⟩ :=
    rep.deleteNodeTail countLt.le
  obtain ⟨m, found₁, -, pieceEq₁⟩ := rep₁.node?
  obtain ⟨pieces, s₂, created, new⟩ := createNewPieces_spec rep₁ value₂Nonempty
  have tail₁ := @Rep.tailCount_split s es fs id p left right rep
    (fun isTail => absurd (leftTail isTail) (by omega)) rightTail
  rw [← only₁.buffers] at tail₁ rightOk
  have tail₂ := new.tail_with rep₁ rightOk tail₁
  have rightOk₂ := rightOk.extend new.frame.grown
  have rightLength : right.length = rest.length := by
    rw [← rightContent, ← only₁.buffers, rightOk.length_content rep₁.buffers]
  obtain ⟨s₃, rights, insertedRight, only₃, rep₃, rightsEq, tail₃⟩ :=
    new.rep.insertRightIf right rightOk₂ tail₂
  obtain ⟨s₄, news, insertedNews, only₄, piecesEq, rep₄⟩ :=
    rep₃.insertPiecesRight pieces (by rw [only₃.buffers]; exact new.pieceOk)
      (by rwa [only₃.buffers] at tail₃ ⊢)
  have frame := only₁.frame.trans (new.frame.trans (only₃.frame.trans only₄.frame))
  have buffersEq : s₄.buffers = s₂.buffers := only₄.buffers.trans only₃.buffers
  obtain ⟨newText, newNonempty, newWhole⟩ := new.entries piecesEq
  rw [← buffersEq] at newText newNonempty newWhole
  have kept : ∀ es', (∀ e ∈ es', PieceOk s.buffers e.2) →
      parts s₄.buffers es' = parts s.buffers es' := fun es' ok =>
    parts_extend frame.grown rep.buffers rep₄.buffers ok
  have keptLeft := kept es fun e member => rep.pieces e (by simp [member])
  have keptRight := kept fs fun e member => rep.pieces e (by simp [member])
  have keptPart := kept [(id, left)] (by
    simpa [← only₁.buffers] using rep₁.pieceOk)
  have keptRest := kept [(id, right)] (by simpa [← only₁.buffers] using rightOk)
  simp only [parts_cons, parts_nil, List.cons.injEq, and_true] at keptPart keptRest
  rw [leftContent] at keptPart
  rw [rightContent] at keptRest
  have rightsParts : parts s₄.buffers rights = if rest = [] then [] else [rest] := by
    rw [parts_of_pieces rightsEq, rightLength]
    by_cases empty : rest = []
    · simp [empty]
    · rw [if_pos (length_pos_iff.mpr empty), if_neg empty]
      simp [keptRest]
  have isEmpty : tailMoves = true ∧ left.length = 0 ↔ contentOf s₄.buffers left = [] := by
    rw [leftLength, countZero, keptPart, take_eq_nil_iff]
    simp [Ne.symm nonempty.2.1]
  obtain ⟨s', es', deleted, only', rep', keeps, text', nonempty', whole'⟩ :=
    rep₄.deleteEmpty isEmpty
  have frame' := frame.trans only'.frame
  refine ⟨s', es', ?_, ⟨rep', ?_, ?_, ?_, frame'.eol, frame'.eolNormalized,
    frame'.searchCache, frame'.lastVisitedLine⟩, keeps, frame'.grown⟩
  · simp only [PieceTreeBase.insertIntoNode, found, pieceEq, bind_eq_bind,
      bind_some, headMovesEq, rightEq, value₁Eq, tailMovesEq, countEq, cut,
      found₁, pieceEq₁, value₂Eq, created]
    by_cases present : right.length > 0
    · rw [if_pos present] at insertedRight ⊢
      obtain ⟨⟨new, s₀⟩, inserted, rfl⟩ := map_eq_some_iff.mp insertedRight
      simp only [inserted, bind_some, insertedNews, deleted]
    · rw [if_neg present] at insertedRight ⊢
      obtain rfl : s₂ = s₃ := Option.some.inj insertedRight
      simp only [bind_some, insertedNews, deleted]
  · have rightsText : textOf s₄.buffers rights = rest := by
      rw [textOf, rightsParts]
      split <;> simp_all
    rw [text', textOf_append, textOf_cons, textOf_append, textOf_append, newText,
      rightsText, textOf_congr keptLeft, textOf_congr keptRight, keptPart]
    simp only [append_assoc]
    rw [← append_assoc value₂, ← append_assoc (take count _), text]
    simp only [append_assoc]
  · refine nonempty' (keptLeft ▸ nonempty.1) ?_
    rw [parts_append, parts_append, keptRight, rightsParts]
    by_cases empty : rest = [] <;> simp [empty, newNonempty, nonempty.2.2, @eq_comm _ ([] : Text)]
  · have newFlat : (parts s₄.buffers news).flatten = value₂ := newText
    refine whole' ?_
    rw [parts_append, parts_cons, keptLeft, keptPart, parts_append, parts_append, keptRight,
      rightsParts]
    refine whole_split wholeLeft newWhole rightWhole (newFlat ▸ leftJoint) (newFlat ▸ rightJoint)
      (newFlat ▸ value₂Nonempty) takeNonempty (newFlat ▸ text) ?_
    rw [parts_cons, flatten_cons, ← take_append_drop remainder (contentOf s.buffers p),
      append_assoc, splitsCRLF_append_right _ _ takeNonempty] at jointLeft
    exact jointLeft

end Branches

/-! ## The whole operation -/

section Whole

variable {s s' : PieceTreeBase} {es es' : List Entry} {value text : Text}

/-- Clearing the line that was read last and the normalization flag. -/
theorem Inv.touch (inv : Inv s es) (normalized : Bool) : Inv { s with
      eolNormalized := s.eolNormalized && normalized
      lastVisitedLine := ⟨0, []⟩ } es := by
  refine ⟨⟨inv.rep.holds, inv.rep.fresh, inv.rep.buffers, inv.rep.position,
    inv.rep.pieces, inv.rep.tail⟩, inv.nonempty, inv.whole, fun unchecked => ?_,
    inv.lineCnt, inv.length, inv.cacheLimit, inv.cache⟩
  refine inv.noCR ?_
  simp only [shouldCheckCRLF, Bool.not_eq_false', Bool.and_eq_true] at unchecked ⊢
  exact ⟨unchecked.1.1, unchecked.2⟩

variable {before after : List Entry}

/-- The cut of a text behind its first pieces. -/
theorem Rep.splice_text {id : Nat} {p : Piece} (rep : Rep s (before ++ (id, p) :: after))
    {offset remainder : Nat} (offsetEq : offset = totalLength before + remainder)
    (bounded : remainder ≤ p.length) :
    splice (textOf s.buffers (before ++ (id, p) :: after)) offset 0 value =
      textOf s.buffers before ++ (contentOf s.buffers p).take remainder ++
        value ++ (contentOf s.buffers p).drop remainder ++
        textOf s.buffers after := by
  have beforeLength : (textOf s.buffers before).length = totalLength before :=
    Rep.length_textOf rep.buffers fun e member => rep.pieces e (by simp [member])
  have front : (textOf s.buffers before ++
      (contentOf s.buffers p).take remainder).length = offset := by
    rw [length_append, length_take, beforeLength, rep.length_content]
    omega
  have split : textOf s.buffers (before ++ (id, p) :: after) =
      (textOf s.buffers before ++ (contentOf s.buffers p).take remainder) ++ [] ++
        ((contentOf s.buffers p).drop remainder ++ textOf s.buffers after) := by
    rw [append_nil, append_assoc, ← append_assoc (List.take _ _),
      take_append_drop, textOf_append, textOf_cons]
  rw [split, ← front]
  exact (splice_append _ [] _ value).trans (by simp)

/-- `insert` once the node is found, with the totals at the end. -/
theorem Inv.insertAt {id offset : Nat} {p : Piece} {c : CacheEntry}
    (inv : Inv s (before ++ (id, p) :: after)) (cache : s.searchCache = [c])
    (cacheNode : c.node = id) (cacheAt : CacheAt before c) (lower : totalLength before ≤ offset)
    (upper : offset ≤ totalLength before + p.length) (nonempty : value ≠ [])
    (noCR : s.shouldCheckCRLF = false →
      CR ∉ textOf s.buffers (before ++ (id, p) :: after) ∧ CR ∉ value) : ∃ s' es',
      (if p.bufferIndex = 0 ∧ p.stop = s.lastChangeBufferPos ∧
          (totalLength before : Int) + p.length = offset ∧
          value.length < averageBufferSize then
        (s.appendToNode id value).bind fun s => some s.computeBufferMetadata
      else if (totalLength before : Int) = offset then
        (s.insertContentToNodeLeft value id).bind fun s =>
          some (s.cacheValidate offset).computeBufferMetadata
      else if (totalLength before : Int) + p.length > offset then
        (s.insertIntoNode value id ((offset : Int) - totalLength before).toNat).bind fun s =>
          some s.computeBufferMetadata
      else
        (s.insertContentToNodeRight value id).bind fun s =>
          some s.computeBufferMetadata) = some s' ∧
      Updated s s' es' (splice (textOf s.buffers (before ++ (id, p) :: after)) offset 0 value) ∧
      ((atTail s.buffers p = true → offset = totalLength before + p.length →
        value.length < averageBufferSize →
        splitsCRLF (contentOf s.buffers p) value = false) →
        Extends s.buffers s'.buffers) := by
  have rep := inv.rep
  have lengthEq := rep.length_content
  have noCR' : s.shouldCheckCRLF = false → CR ∉ splice
      (textOf s.buffers (before ++ (id, p) :: after)) offset 0 value :=
    fun unchecked member =>
      (mem_of_mem_splice member).elim (noCR unchecked).1 (noCR unchecked).2
  -- with the node of the cache in its place, the totals complete the edit
  have finish : ∀ {s' es'}, Edited s s' es' (splice (textOf s.buffers
      (before ++ (id, p) :: after)) offset 0 value) → KeepsAt before id es' →
      Updated s s'.computeBufferMetadata es' (splice (textOf s.buffers
        (before ++ (id, p) :: after)) offset 0 value) := by
    intro s' es' edited keeps
    refine (edited.ready inv.cacheLimit ?_).updated noCR'
    rw [cache]
    simpa using fun survives => keeps.cacheOk cacheNode cacheAt survives
  have textEq := @Rep.splice_text s value before after id p rep offset
    (offset - totalLength before) (by omega) (by omega)
  have atEnd : offset = totalLength before + p.length →
      splice (textOf s.buffers (before ++ (id, p) :: after)) offset 0 value =
        textOf s.buffers before ++ contentOf s.buffers p ++ value ++ textOf s.buffers after := by
    intro here
    rw [textEq, show offset - totalLength before = p.length by omega, ← lengthEq]
    simp
  split
  · rename_i tailTest
    obtain ⟨zero, stop, here, short⟩ := tailTest
    have isTail : atTail s.buffers p = true := by
      simp [atTail, zero, stop, rep.position]
    obtain ⟨s', es', appended, edited, keeps, grown⟩ := rep.appendToNode inv.nonempty inv.whole
      (fun unchecked => ⟨fun member => (noCR unchecked).1 (by simp [member]),
        (noCR unchecked).2⟩) isTail nonempty
    rw [← atEnd (by omega)] at edited
    exact ⟨s'.computeBufferMetadata, es', by rw [appended, bind_some],
      finish edited keeps, fun safe => grown (safe isTail (by omega) short)⟩
  · split
    · rename_i here
      obtain ⟨s', es', inserted, edited, grown⟩ := rep.insertContentToNodeLeft
        inv.nonempty inv.whole noCR nonempty
      have text : splice (textOf s.buffers (before ++ (id, p) :: after)) offset 0
          value = textOf s.buffers before ++ value ++ contentOf s.buffers p ++
            textOf s.buffers after := by
        rw [textEq, show offset - totalLength before = 0 by omega]
        simp
      rw [← text] at edited
      -- the node of the cache starts at the offset, so it is dropped
      have dropped : (s'.cacheValidate offset).searchCache = [] := by
        have start := cacheAt.start
        simp only [cacheValidate, edited.searchCache, cache,
          filter_eq_nil_iff, mem_singleton, forall_eq]
        simp [start, here]
      have ready : Ready s (s'.cacheValidate offset) es' (splice (textOf s.buffers
          (before ++ (id, p) :: after)) offset 0 value) := by
        refine ⟨edited.rep.setCache _, edited.text_eq, edited.nonempty,
          edited.whole, edited.eol, edited.eolNormalized, edited.lastVisitedLine,
          ?_, ?_⟩
        · simp [dropped]
        · simp [dropped]
      exact ⟨_, es', by rw [inserted, bind_some], ready.updated noCR', fun _ => grown⟩
    · split
      · obtain ⟨s', es', inserted, edited, keeps, grown⟩ := rep.insertIntoNode
          inv.nonempty inv.whole noCR nonempty
          (by omega : 0 < ((offset : Int) - totalLength before).toNat) (by omega)
        rw [show ((offset : Int) - totalLength before).toNat =
          offset - totalLength before by omega, ← textEq] at edited
        exact ⟨s'.computeBufferMetadata, es', by rw [inserted, bind_some],
          finish edited keeps, fun _ => grown⟩
      · obtain ⟨s', es', inserted, edited, keeps, grown⟩ :=
          rep.insertContentToNodeRight inv.nonempty inv.whole noCR nonempty
        rw [← atEnd (by omega)] at edited
        exact ⟨s'.computeBufferMetadata, es', by rw [inserted, bind_some],
          finish edited keeps, fun _ => grown⟩

theorem Inv.insert {offset : Nat} {normalized : Bool} (inv : Inv s es)
    (bounded : offset ≤ totalLength es) (nonempty : value ≠ [])
    (clean : normalized = true → AllBreaksAre s.eol value) :
    ∃ s' es', s.insert offset value normalized = some s' ∧ Updated { s with
          eolNormalized := s.eolNormalized && normalized
          lastVisitedLine := ⟨0, []⟩ } s' es'
        (splice (textOf s.buffers es) offset 0 value) ∧
      ((∀ before id p after, es = before ++ (id, p) :: after →
        atTail s.buffers p = true → offset = totalLength before + p.length →
        value.length < averageBufferSize →
        splitsCRLF (contentOf s.buffers p) value = false) →
        Extends s.buffers s'.buffers) := by
  have touched := inv.touch normalized
  have noCR : PieceTreeBase.shouldCheckCRLF { s with
      eolNormalized := s.eolNormalized && normalized
      lastVisitedLine := ⟨0, []⟩ } = false →
      CR ∉ textOf s.buffers es ∧ CR ∉ value := by
    refine fun unchecked => ⟨touched.noCR unchecked, ?_⟩
    simp only [shouldCheckCRLF, Bool.not_eq_false', Bool.and_eq_true, beq_iff_eq] at unchecked
    refine not_mem_CR_of_allBreaksAre ?_
    rw [← unchecked.2]
    exact clean unchecked.1.2
  unfold PieceTreeBase.insert
  generalize startEq : ({ s with
      eolNormalized := s.eolNormalized && normalized
      lastVisitedLine := ⟨0, []⟩ } : PieceTreeBase) = start at touched noCR ⊢
  have buffersEq : s.buffers = start.buffers := by rw [← startEq]
  rw [buffersEq] at noCR ⊢
  by_cases empty : es = []
  · subst empty
    have leaf : start.root = .leaf := touched.rep.holds.eq_leaf_iff.mpr rfl
    obtain ⟨s', es', inserted, edited, grown⟩ :=
      touched.rep.insertIntoEmpty nonempty
    refine ⟨s'.computeBufferMetadata, es', by simp [leaf, inserted], ?_, fun _ => grown⟩
    have text : splice (textOf start.buffers []) offset 0 value = value := by
      simp [splice]
    rw [text]
    refine (edited.ready touched.cacheLimit fun c member => ?_).updated
      fun unchecked => (noCR unchecked).2
    obtain ⟨before, p, after, split, -⟩ := touched.cache c member
    simp at split
  · have notLeaf : ¬start.root = .leaf :=
      fun leaf => empty (touched.rep.holds.eq_leaf_iff.mp leaf)
    obtain ⟨pos, before, p, after, c, found, located, cacheNode, cacheAt, inv⟩ :=
      touched.nodeAt_split empty (Int.natCast_nonneg offset) (by omega)
    obtain rfl := located.split
    have startOffset := located.start
    have remainder := located.remainder
    have lower := located.lower
    have upper := located.upper
    obtain ⟨n, foundNode, -, pieceEq⟩ := inv.rep.node?
    rw [if_neg notLeaf]
    simp only [found, bind_eq_bind, bind_some, foundNode, pieceEq, startOffset, remainder]
    obtain ⟨s', es', inserted, updated, grown⟩ :=
      @Inv.insertAt _ value before after pos.node offset p c inv rfl cacheNode
        cacheAt (by omega) (by omega) nonempty noCR
    refine ⟨s', es', inserted, ⟨updated.inv, updated.text_eq, updated.eol,
      updated.eolNormalized, updated.lastVisitedLine⟩, fun safe => grown ?_⟩
    exact safe before pos.node p after rfl

end Whole

end CodeEditor.PieceTree
