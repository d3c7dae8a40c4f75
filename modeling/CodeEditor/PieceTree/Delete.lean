import CodeEditor.PieceTree.Insert

/-!
# Deletion

One lemma for each branch of `delete`, and from them the meaning of `delete` on
the text.
-/

namespace CodeEditor.PieceTree

open PieceTreeBase List Option

/-! ## Inside one node -/

section OneNode

variable {s : PieceTreeBase} {before after : List Entry} {id : Nat} {p : Piece}
  {c : CacheEntry}

/-- A repaired sequence is ready for the totals. -/
theorem Repaired.ready {s s₁ s' : PieceTreeBase} {text : Text} (repaired : Repaired s₁ s' es es')
    (text_eq : textOf s₁.buffers es = text) (eol : s₁.eol = s.eol)
    (eolNormalized : s₁.eolNormalized = s.eolNormalized)
    (lastVisitedLine : s₁.lastVisitedLine = s.lastVisitedLine)
    (limit : s₁.searchCache.length ≤ 1)
    (cache : ∀ c ∈ s₁.searchCache, c.node ∈ ids es' → CacheOk es' c) :
    Ready s s' es' text :=
  ⟨repaired.rep, repaired.text.trans text_eq, repaired.nonempty, repaired.whole,
    repaired.frame.eol.trans eol,
    repaired.frame.eolNormalized.trans eolNormalized,
    repaired.frame.lastVisitedLine.trans lastVisitedLine,
    repaired.frame.searchCache ▸ limit, repaired.frame.searchCache ▸ cache⟩

section

variable (inv : Inv s (before ++ (id, p) :: after)) (cache : s.searchCache = [c])

include inv cache

/-- The node is deleted with all its text. -/
theorem Inv.deleteNode (cacheNode : c.node = id) : ∃ s' es', ((s.rbDelete id).bind fun s' =>
        s'.validateCRLFWithPrevNode (next s.root id)) = some s' ∧
      Ready s s' es' (textOf s.buffers before ++ textOf s.buffers after) ∧
      Extends s.buffers s'.buffers := by
  have rep := inv.rep
  obtain ⟨s₁, deleted, only, rep₁⟩ := rep.rbDelete
  have following : next s.root id = after.head?.map (·.1) := rep.holds.next
  have nonempty := inv.nonempty
  have whole := inv.whole
  rw [parts_append, parts_cons] at nonempty whole
  simp only [mem_append, mem_cons, not_or] at nonempty
  obtain ⟨wholeLeft, ⟨-, wholeRight⟩, -⟩ := whole_append.mp whole
  obtain ⟨notBefore, notAfter⟩ := not_mem_ids_of_distinct rep.holds.distinct
  have old : id < s₁.nextId :=
    (rep.fresh id (by simp)).trans_le only.allocated
  have noCR : s₁.shouldCheckCRLF = false → CR ∉ textOf s₁.buffers before := by
    rw [only.frame.shouldCheckCRLF, only.buffers]
    exact fun unchecked member => inv.noCR unchecked (by simp [member])
  rw [deleted, bind_some, following]
  have text : textOf s₁.buffers (before ++ after) =
      textOf s.buffers before ++ textOf s.buffers after := by
    rw [only.buffers, textOf_append]
  cases after with
  | nil =>
    have repaired : Repaired s₁ s₁ (before ++ []) (before ++ []) := by
      refine ⟨.refl _, rep₁, rfl, ?_, ?_⟩
      · simpa [only.buffers] using nonempty.1
      · simpa [only.buffers] using wholeLeft
    refine ⟨s₁, _, validateCRLFWithPrevNode_none s₁, repaired.ready text only.eol
      only.eolNormalized only.lastVisitedLine (by simp [only.searchCache, cache])
      ?_, only.frame.grown⟩
    simp [only.searchCache, cache, cacheNode, notBefore]
  | cons e gs =>
    obtain ⟨s', front, validated, mended, -⟩ := rep₁.validateCRLFWithPrevNode (by
        rw [only.buffers, parts_append, mem_append, not_or]
        exact ⟨nonempty.1, fun member => nonempty.2.2 (by simp at member ⊢; tauto)⟩)
      (only.buffers ▸ wholeLeft) (only.buffers ▸ wholeRight) noCR
    have repaired := mended.repaired (by simpa using rep₁) (by
      rw [only.buffers]
      exact fun member => nonempty.2.2 (by simp [member]))
    refine ⟨s', front ++ gs, validated, repaired.ready (by simpa using text)
      only.eol only.eolNormalized only.lastVisitedLine
      (by simp [only.searchCache, cache]) ?_,
      (only.frame.trans mended.frame).grown⟩
    -- the deleted node does not come back
    intro other member survives
    obtain rfl : other = c := by simpa [only.searchCache, cache] using member
    rw [cacheNode, ids_append, mem_append] at survives
    simp only [ids_cons, mem_cons, not_or] at notAfter
    rcases survives with inFront | inRest
    · have := mended.known id old inFront
      simp [notBefore, notAfter.1] at this
    · exact absurd inRest notAfter.2

/-- The text before an offset of the node is deleted. -/
theorem Inv.deleteHead {remainder : Nat} {offset : Int} (cacheAt : CacheAt before c)
    (offsetEq : offset = totalLength before) (inside : remainder < p.length) :
    ∃ s' es', ((s.deleteNodeHead id (s.positionInBuffer p remainder)).bind fun s' =>
        (s'.cacheValidate offset).validateCRLFWithPrevNode (some id)) = some s' ∧
      Ready s s' es' (textOf s.buffers before ++
        (contentOf s.buffers p).drop remainder ++ textOf s.buffers after) ∧
      Extends s.buffers s'.buffers := by
  have rep := inv.rep
  have lengthEq := rep.length_content
  obtain ⟨s₁, p₁, cut, only, rep₁, -, content⟩ := rep.deleteNodeHead inside.le
  have nonempty := inv.nonempty
  have whole := inv.whole
  rw [parts_append, parts_cons] at nonempty whole
  simp only [mem_append, mem_cons, not_or] at nonempty
  obtain ⟨wholeLeft, ⟨joint, wholeRight⟩, -⟩ := whole_append.mp whole
  have notEmpty : (contentOf s.buffers p).drop remainder ≠ [] := by
    rw [← length_pos_iff, length_drop]
    omega
  have dropped : (s₁.cacheValidate offset).searchCache = [] := by
    simp only [cacheValidate, only.searchCache, cache, filter_eq_nil_iff, mem_singleton, forall_eq]
    simp [cacheAt.start, offsetEq]
  rw [cut, bind_some]
  have rep₂ : Rep (s₁.cacheValidate offset) (before ++ (id, p₁) :: after) :=
    rep₁.setCache _
  have buffersEq : (s₁.cacheValidate offset).buffers = s.buffers := only.buffers
  obtain ⟨s', front, validated, mended, -⟩ := rep₂.validateCRLFWithPrevNode (by
      rw [buffersEq, parts_append, mem_append, not_or]
      exact ⟨nonempty.1, by simpa [content] using notEmpty.symm⟩)
    (buffersEq ▸ wholeLeft)
    (by
      rw [buffersEq, parts_cons, content]
      exact ⟨splitsCRLF_drop_left remainder joint, wholeRight⟩)
    (by
      rw [show (s₁.cacheValidate offset).shouldCheckCRLF = s.shouldCheckCRLF from
        only.frame.shouldCheckCRLF, buffersEq]
      exact fun unchecked member => inv.noCR unchecked (by simp [member]))
  have repaired := mended.repaired (by simpa using rep₂) (buffersEq ▸ nonempty.2.2)
  refine ⟨s', front ++ after, validated, repaired.ready ?_ only.eol
    only.eolNormalized only.lastVisitedLine (by simp [dropped]) (by simp [dropped]),
    buffersEq ▸ mended.frame.grown⟩
  rw [buffersEq]
  simp [content]

/-- The text behind an offset of the node is deleted. -/
theorem Inv.deleteTail {remainder : Nat} (cacheNode : c.node = id) (cacheAt : CacheAt before c)
    (positive : 0 < remainder) (bounded : remainder ≤ p.length) :
    ∃ s' es', ((s.deleteNodeTail id (s.positionInBuffer p remainder)).bind fun s' =>
        s'.validateCRLFWithNextNode (some id)) = some s' ∧
      Ready s s' es' (textOf s.buffers before ++
        (contentOf s.buffers p).take remainder ++ textOf s.buffers after) ∧
      Extends s.buffers s'.buffers := by
  have rep := inv.rep
  have lengthEq := rep.length_content
  obtain ⟨s₁, p₁, cut, only, rep₁, -, content, -⟩ := rep.deleteNodeTail bounded
  have nonempty := inv.nonempty
  have whole := inv.whole
  rw [parts_append, parts_cons] at nonempty whole
  simp only [mem_append, mem_cons, not_or] at nonempty
  obtain ⟨wholeLeft, ⟨-, wholeRight⟩, joint⟩ := whole_append.mp whole
  have notEmpty : (contentOf s.buffers p).take remainder ≠ [] := by
    rw [← length_pos_iff, length_take]
    omega
  have buffersEq := only.buffers
  rw [cut, bind_some]
  obtain ⟨s', es', validated, repaired, keeps⟩ := rep₁.validateCRLFWithNextNode (by
      rw [buffersEq]
      simp [content, nonempty.1, nonempty.2.2, notEmpty.symm])
    (by
      rw [buffersEq, parts_append, parts_cons, parts_nil, content]
      refine whole_append.mpr ⟨wholeLeft, by simp, ?_⟩
      simpa using splitsCRLF_take_right remainder joint)
    (buffersEq ▸ wholeRight)
    (by
      rw [only.frame.shouldCheckCRLF, buffersEq]
      intro unchecked member
      refine inv.noCR unchecked ?_
      simp only [textOf_append, textOf_cons, content, mem_append] at member ⊢
      rcases member with left | inside | right
      · exact .inl left
      · exact .inr (.inl (mem_of_mem_take inside))
      · exact .inr (.inr right))
  refine ⟨s', es', validated, repaired.ready ?_ only.eol only.eolNormalized
    only.lastVisitedLine (by simp [only.searchCache, cache]) ?_,
    buffersEq ▸ repaired.frame.grown⟩
  · rw [buffersEq]
    simp [content]
  · rw [only.searchCache, cache]
    simpa using fun survives => keeps.cacheOk cacheNode cacheAt survives

end

/-- The first half of `shrinkNode` is `deleteNodeTail`. -/
theorem Rep.shrinkNode_eq {a b : Nat} (rep : Rep s (before ++ (id, p) :: after))
    (bounded : a ≤ p.length) :
    s.shrinkNode id (s.positionInBuffer p a) (s.positionInBuffer p b) =
      (s.deleteNodeTail id (s.positionInBuffer p a)).bind fun s' =>
        (s'.rbInsertRight (some id) { p with
          start := s.positionInBuffer p b
          lineFeedCnt := s'.getLineFeedCnt p.bufferIndex (s.positionInBuffer p b) p.stop
          length := s'.offsetInBuffer p.bufferIndex p.stop -
            s'.offsetInBuffer p.bufferIndex (s.positionInBuffer p b) }).bind
          fun inserted =>
            inserted.2.validateCRLFWithPrevNode (some inserted.1) := by
  obtain ⟨n, found, -, pieceEq⟩ := rep.node?
  have offsetA := rep.pieceOk.offsetInBuffer rep.buffers bounded
  have offsetStop := rep.pieceOk.offsetInBuffer_stop rep.buffers
  have lengthA : ∀ o : Nat, o + a - o = a := by omega
  have deltaA : ∀ o : Nat, ((o + a : Nat) : Int) - (o + p.length : Nat) =
      (a : Int) - p.length := by omega
  have lengthTail : ((p.length : Int) + ((a : Int) - p.length)).toNat = a := by
    omega
  simp only [PieceTreeBase.shrinkNode, PieceTreeBase.deleteNodeTail, found,
    pieceEq, bind_eq_bind, bind_some, bind_assoc, offsetA,
    offsetStop, lengthA, deltaA, lengthTail]

/-- `shrinkNode` deletes the text between two offsets of the node. -/
theorem Inv.shrinkNode {a b : Nat} (inv : Inv s (before ++ (id, p) :: after))
    (cache : s.searchCache = [c]) (cacheNode : c.node = id)
    (cacheAt : CacheAt before c) (positive : 0 < a) (ordered : a ≤ b)
    (inside : b < p.length) :
    ∃ s' es', s.shrinkNode id (s.positionInBuffer p a) (s.positionInBuffer p b) = some s' ∧
      Ready s s' es' (textOf s.buffers before ++
        (contentOf s.buffers p).take a ++ (contentOf s.buffers p).drop b ++
        textOf s.buffers after) ∧
      Extends s.buffers s'.buffers := by
  have rep := inv.rep
  have lengthEq := rep.length_content
  obtain ⟨s₁, left, cut, only, rep₁, -, leftContent, leftTail⟩ :=
    rep.deleteNodeTail (by omega : a ≤ p.length)
  have nonempty := inv.nonempty
  have whole := inv.whole
  rw [parts_append, parts_cons] at nonempty whole
  simp only [mem_append, mem_cons, not_or] at nonempty
  obtain ⟨wholeLeft, ⟨jointRight, wholeRight⟩, joint⟩ := whole_append.mp whole
  have leftNonempty : (contentOf s.buffers p).take a ≠ [] := by
    rw [← length_pos_iff, length_take]
    omega
  have rightNonempty : (contentOf s.buffers p).drop b ≠ [] := by
    rw [← length_pos_iff, length_drop]
    omega
  -- the new node for the text behind
  obtain ⟨right, rightEq⟩ : ∃ right : Piece, right = { p with
      start := s.positionInBuffer p b
      lineFeedCnt := s₁.getLineFeedCnt p.bufferIndex (s.positionInBuffer p b) p.stop
      length := s₁.offsetInBuffer p.bufferIndex p.stop -
        s₁.offsetInBuffer p.bufferIndex (s.positionInBuffer p b) } := ⟨_, rfl⟩
  have sameCount : s₁.getLineFeedCnt p.bufferIndex (s.positionInBuffer p b) p.stop =
      s.getLineFeedCnt p.bufferIndex (s.positionInBuffer p b) p.stop := by
    simp [getLineFeedCnt, bufferAt, only.buffers]
  have sameOffset : ∀ cursor, s₁.offsetInBuffer p.bufferIndex cursor =
      s.offsetInBuffer p.bufferIndex cursor := by
    simp [offsetInBuffer, bufferAt, only.buffers]
  obtain ⟨rightOk, rightContent, rightTail⟩ := @PieceOk.part s p right b p.length
    rep.pieceOk rep.buffers inside.le le_rfl (by rw [rightEq]) (by rw [rightEq])
    (by rw [rightEq, rep.pieceOk.positionInBuffer_length rep.buffers])
    (by
      rw [rightEq]
      simp only
      rw [sameOffset, sameOffset, rep.pieceOk.offsetInBuffer rep.buffers inside.le,
        rep.pieceOk.offsetInBuffer_stop rep.buffers]
      omega)
    (by rw [rightEq]; exact sameCount)
  rw [← lengthEq, take_length] at rightContent
  obtain ⟨new, s₂, inserted, only₂, rep₂⟩ := rep₁.rbInsertRight (only.buffers ▸ rightOk) (by
      have bound := rep.tail
      have leftNot : atTail s.buffers left = false := by
        rw [← Bool.not_eq_true]
        intro isTail
        have := leftTail isTail
        omega
      rw [only.buffers]
      simp only [tailCount_append, tailCount_cons, leftNot] at bound ⊢
      cases isTail : atTail s.buffers right with
      | false => simp; omega
      | true =>
        simp only [(rightTail isTail).1, if_true] at bound
        simp
        omega)
  rw [append_cons] at rep₂
  have buffersEq : s₂.buffers = s.buffers := only₂.buffers.trans only.buffers
  obtain ⟨s', front, validated, mended, keeps⟩ := rep₂.validateCRLFWithPrevNode (by
      rw [buffersEq]
      simp [leftContent, rightContent, nonempty.1, leftNonempty.symm, rightNonempty.symm])
    (by
      rw [buffersEq, parts_append, parts_cons, parts_nil, leftContent]
      refine whole_append.mpr ⟨wholeLeft, by simp, ?_⟩
      simpa using splitsCRLF_take_right a joint)
    (by
      rw [buffersEq, parts_cons, rightContent]
      exact ⟨splitsCRLF_drop_left b jointRight, wholeRight⟩)
    (by
      rw [only₂.frame.shouldCheckCRLF, only.frame.shouldCheckCRLF, buffersEq]
      intro unchecked member
      refine inv.noCR unchecked ?_
      simp only [textOf_append, textOf_cons, textOf_nil, leftContent,
        append_nil, mem_append] at member ⊢
      rcases member with left | inside
      · exact .inl left
      · exact .inr (.inl (mem_of_mem_take inside)))
  have repaired := mended.repaired (by simpa using rep₂) (buffersEq ▸ nonempty.2.2)
  have only' := only.trans only₂
  refine ⟨s', front ++ after, ?_, repaired.ready ?_ only'.eol only'.eolNormalized
    only'.lastVisitedLine (by simp [only'.searchCache, cache]) ?_,
    buffersEq ▸ mended.frame.grown⟩
  · rw [rep.shrinkNode_eq (by omega), cut, bind_some, ← rightEq, inserted, bind_some, validated]
  · rw [buffersEq]
    simp [leftContent, rightContent]
  · rw [only'.searchCache, cache]
    simpa using fun survives =>
      (keeps before id left rfl).cacheOk cacheNode cacheAt survives

end OneNode

/-! ## Across nodes -/

section Across

variable {s : PieceTreeBase} {es before middle after : List Entry}
  {a b : Nat} {p q : Piece}

/-- The nodes met by repeated `next()` calls are those of the sequence. -/
theorem Holds.nodesFrom {fs : List Entry} {fuel : Nat}
    (holds : Holds t (es ++ fs)) (enough : fs.length ≤ fuel) :
    (nodesFrom t fuel (fs.head?.map (·.1))).map entry = fs := by
  induction fs generalizing es fuel with
  | nil => cases fuel <;> rfl
  | cons e gs ih =>
    obtain ⟨id, r⟩ := e
    obtain ⟨fuel, rfl⟩ : ∃ more, fuel = more + 1 :=
      ⟨fuel - 1, by simp at enough; omega⟩
    obtain ⟨left, n, right, path, found, -, nodeEq, -, -⟩ := holds.focus
    have following : PieceTree.next t id = gs.head?.map (·.1) := holds.next
    rw [append_cons] at holds
    have rest := ih holds (by simpa using enough)
    simp only [head?_cons, map_some, PieceTreeBase.nodesFrom, found,
      following, map_cons, rest, nodeEq]

theorem Holds.nodesAfter {fs : List Entry} (holds : Holds t (es ++ (a, p) :: fs)) :
    (nodesAfter t a).map entry = fs := by
  have following : PieceTree.next t a = fs.head?.map (·.1) := holds.next
  have length := holds.inorder_length
  rw [append_cons] at holds
  rw [PieceTreeBase.nodesAfter, following]
  refine holds.nodesFrom ?_
  rw [length]
  simp
  omega

theorem map_id_eq_ids (nodes : List TreeNode) : nodes.map (·.id) = ids (nodes.map entry) := by
  simp [ids, entry, Function.comp_def]

/-- The nodes between two nodes. -/
theorem takeWhile_ids (distinct : (ids (middle ++ (b, q) :: after)).Nodup) :
    (ids (middle ++ (b, q) :: after)).takeWhile (· ≠ b) = ids middle := by
  obtain ⟨missing, -⟩ := not_mem_ids_of_distinct distinct
  rw [ids_append, ids_cons, takeWhile_append_of_pos]
  · simp
  · intro id member
    have differs : id ≠ b := by
      rintro rfl
      exact missing member
    simpa using differs

theorem Rep.deleteNodes (rep : Rep s (before ++ middle ++ after)) :
    ∃ s', s.deleteNodes (ids middle) = some s' ∧ OnlyTree s s' ∧ Rep s' (before ++ after) := by
  induction middle generalizing s with
  | nil => exact ⟨s, rfl, .refl s, by simpa using rep⟩
  | cons e middle ih =>
    rw [append_assoc, cons_append] at rep
    obtain ⟨s₁, deleted, only, rep₁⟩ := rep.rbDelete
    rw [← append_assoc] at rep₁
    obtain ⟨s', rest, only', rep'⟩ := ih rep₁
    refine ⟨s', ?_, only.trans only', rep'⟩
    simp [PieceTreeBase.deleteNodes, deleted, rest]

/-- The entry of a node that is kept unless its piece is empty. -/
theorem parts_if {buffers : List StringBuffer} {id : Nat} {r : Piece} {e : Prop}
    [Decidable e] (isEmpty : e ↔ contentOf buffers r = []) :
    parts buffers (if e then [] else [(id, r)]) =
      if contentOf buffers r = [] then [] else [contentOf buffers r] := by
  by_cases empty : e
  · simp [empty, isEmpty.mp empty]
  · simp [empty, mt isEmpty.mpr empty]

theorem flatten_if (text : Text) : (if text = [] then [] else [text]).flatten = text := by
  split <;> simp_all

/-- The border between two sequences is mended from the last node of the first
one. -/
theorem Rep.validateBorder {left right : List Entry} (rep : Rep s (left ++ right))
    (nonempty : [] ∉ parts s.buffers (left ++ right))
    (wholeLeft : Whole (parts s.buffers left))
    (wholeRight : Whole (parts s.buffers right))
    (noCR : s.shouldCheckCRLF = false → CR ∉ textOf s.buffers (left ++ right)) :
    ∃ s' es', s.validateCRLFWithNextNode (left.getLast?.map (·.1)) = some s' ∧
      Repaired s s' (left ++ right) es' := by
  rcases eq_nil_or_concat' left with rfl | ⟨initial, ⟨id, r⟩, rfl⟩
  · exact ⟨s, right, validateCRLFWithNextNode_none s, ⟨.refl s, rep, rfl, nonempty, wholeRight⟩⟩
  · rw [← append_cons] at rep nonempty noCR ⊢
    obtain ⟨s', es', validated, repaired, -⟩ :=
      rep.validateCRLFWithNextNode nonempty wholeLeft wholeRight noCR
    exact ⟨s', es', by simpa using validated, repaired⟩

/-- The nodes between two others are deleted, and those of the two that are empty. -/
theorem Rep.deleteBetween (rep : Rep s (before ++ (a, p) :: (middle ++ (b, q) :: after))) :
    ∃ s', s.deleteNodes ((if p.length = 0 then [a] else []) ++
        (if q.length = 0 then [b] else []) ++
          ((nodesAfter s.root a).map (·.id)).takeWhile (· ≠ b)) = some s' ∧ OnlyTree s s' ∧
      Rep s' ((before ++ if p.length = 0 then [] else [(a, p)]) ++
        ((if q.length = 0 then [] else [(b, q)]) ++ after)) := by
  have between : ((nodesAfter s.root a).map (·.id)).takeWhile (· ≠ b) = ids middle := by
    rw [map_id_eq_ids, rep.holds.nodesAfter]
    refine takeWhile_ids ?_
    have distinct := rep.holds.distinct
    rw [ids_append, ids_cons, nodup_append] at distinct
    exact (nodup_cons.mp distinct.2.1).2
  obtain ⟨s₁, deletedA, only₁, rep₁⟩ := rep.deleteIf (p.length = 0)
  rw [← append_assoc] at rep₁
  obtain ⟨s₂, deletedB, only₂, rep₂⟩ := rep₁.deleteIf (q.length = 0)
  rw [append_assoc] at rep₂
  obtain ⟨s₃, deleted, only₃, rep₃⟩ := rep₂.deleteNodes
  refine ⟨s₃, ?_, only₁.trans (only₂.trans only₃), rep₃⟩
  simp only [between, deleteNodes_append, deletedA, deletedB, deleted, bind_some]

/-- What is left of two pieces joins to what stands before and behind. -/
theorem whole_cut {front middle back : List Text} {first second : Text} (i j : Nat)
    (whole : Whole (front ++ first :: (middle ++ second :: back))) :
    Whole (front ++ if first.take i = [] then [] else [first.take i]) ∧
      Whole ((if second.drop j = [] then [] else [second.drop j]) ++ back) := by
  obtain ⟨wholeFront, ⟨-, wholeMiddle⟩, jointFront⟩ := whole_append.mp whole
  obtain ⟨-, ⟨joint, wholeBack⟩, -⟩ := whole_append.mp wholeMiddle
  constructor
  · rw [← append_nil (_ ++ _), whole_append_if]
    refine whole_append.mpr ⟨wholeFront, by simp, ?_⟩
    simpa using splitsCRLF_take_right i jointFront
  · rw [← nil_append (_ ++ _), ← append_assoc, whole_append_if]
    exact ⟨splitsCRLF_drop_left j joint, wholeBack⟩

theorem Inv.deleteAcrossNodes {offset : Nat} {c : CacheEntry}
    {startPosition endPosition : NodePosition} {r₁ r₂ : Nat}
    (inv : Inv s (before ++ (a, p) :: (middle ++ (b, q) :: after)))
    (cache : s.searchCache = [c])
    (cacheAt : CacheAt (before ++ (a, p) :: middle) c)
    (startNode : startPosition.node = a)
    (startRemainder : startPosition.remainder.toNat = r₁)
    (endNode : endPosition.node = b)
    (endRemainder : endPosition.remainder.toNat = r₂)
    (offsetEq : offset = totalLength before + r₁)
    (boundedA : r₁ ≤ p.length) (boundedB : r₂ ≤ q.length) :
    ∃ s' es', s.deleteAcrossNodes offset startPosition endPosition = some s' ∧
      Ready s s' es' (textOf s.buffers before ++
        (contentOf s.buffers p).take r₁ ++ (contentOf s.buffers q).drop r₂ ++
        textOf s.buffers after) ∧
      Extends s.buffers s'.buffers := by
  have rep := inv.rep
  have nonempty := inv.nonempty
  have whole := inv.whole
  simp only [parts_append, parts_cons, mem_append, mem_cons, not_or] at nonempty whole
  obtain ⟨wholeLeft, wholeRight⟩ := whole_cut r₁ r₂ whole
  obtain ⟨n, foundA, -, pieceA⟩ := rep.node?
  -- cut the two nodes
  obtain ⟨s₁, p', cutA, only₁, rep₁, lengthA', contentA, -⟩ :=
    rep.deleteNodeTail boundedA
  have rep₂ : Rep (s₁.cacheValidate offset)
      (before ++ (a, p') :: (middle ++ (b, q) :: after)) := rep₁.setCache _
  have dropped : (s₁.cacheValidate offset).searchCache = [] := by
    have start := cacheAt.start
    simp only [totalLength_append, totalLength_cons] at start
    simp only [cacheValidate, only₁.searchCache, cache, filter_eq_nil_iff, mem_singleton, forall_eq]
    simp
    intro _
    omega
  obtain ⟨n', foundA', -, pieceA'⟩ := rep₂.node?
  have split₂ : before ++ (a, p') :: (middle ++ (b, q) :: after) =
      (before ++ (a, p') :: middle) ++ (b, q) :: after := by simp
  rw [split₂] at rep₂
  obtain ⟨m, foundB, -, pieceB⟩ := rep₂.node?
  have lengthB := rep₂.length_content
  have buffers₂ : (s₁.cacheValidate offset).buffers = s.buffers := only₁.buffers
  obtain ⟨s₃, q', cutB, only₃, rep₃, lengthB', contentB⟩ :=
    rep₂.deleteNodeHead boundedB
  rw [buffers₂] at contentB lengthB
  obtain ⟨m', foundB', -, pieceB'⟩ := rep₃.node?
  have buffers₃ : s₃.buffers = s.buffers := only₃.buffers.trans buffers₂
  have emptyA : p'.length = 0 ↔ contentOf s.buffers p' = [] := by
    rw [contentA, lengthA', take_eq_nil_iff]
    simp [Ne.symm nonempty.2.1]
  have emptyB : q'.length = 0 ↔ contentOf s.buffers q' = [] := by
    rw [contentB, lengthB', drop_eq_nil_iff, ← lengthB]
    omega
  -- delete what is between them, and the nodes that became empty
  have split₃ : (before ++ (a, p') :: middle) ++ (b, q') :: after =
      before ++ (a, p') :: (middle ++ (b, q') :: after) := by simp
  rw [split₃] at rep₃
  have previous : prev s₃.root a = before.getLast?.map (·.1) := rep₃.holds.prev
  obtain ⟨s₄, deleted, only, rep₄⟩ := rep₃.deleteBetween
  obtain ⟨left, leftEq⟩ : ∃ left, left =
      before ++ if p'.length = 0 then [] else [(a, p')] := ⟨_, rfl⟩
  obtain ⟨right, rightEq⟩ : ∃ right, right =
      (if q'.length = 0 then [] else [(b, q')]) ++ after := ⟨_, rfl⟩
  rw [← leftEq, ← rightEq] at rep₄
  have buffersEq : s₄.buffers = s.buffers := only.buffers.trans buffers₃
  have leftParts : parts s.buffers left = parts s.buffers before ++
      if contentOf s.buffers p' = [] then [] else [contentOf s.buffers p'] := by
    rw [leftEq, parts_append, parts_if emptyA]
  have rightParts : parts s.buffers right =
      (if contentOf s.buffers q' = [] then [] else [contentOf s.buffers q']) ++
        parts s.buffers after := by
    rw [rightEq, parts_append, parts_if emptyB]
  have text : textOf s.buffers (left ++ right) = textOf s.buffers before ++
      (contentOf s.buffers p).take r₁ ++ (contentOf s.buffers q).drop r₂ ++
        textOf s.buffers after := by
    rw [textOf, parts_append, leftParts, rightParts]
    simp only [flatten_append, flatten_if, contentA, contentB, textOf]
    simp
  obtain ⟨s', es', validated, repaired⟩ := rep₄.validateBorder (by
      rw [buffersEq, parts_append, leftParts, rightParts]
      by_cases noA : contentOf s.buffers p' = [] <;> by_cases noB : contentOf s.buffers q' = [] <;>
        simp [noA, noB, nonempty.1, nonempty.2.2.2.2, @eq_comm _ ([] : Text)])
    (by rwa [buffersEq, leftParts, contentA]) (by rwa [buffersEq, rightParts, contentB])
    (by
      rw [only.frame.shouldCheckCRLF, only₃.frame.shouldCheckCRLF,
        show (s₁.cacheValidate offset).shouldCheckCRLF = s.shouldCheckCRLF from
          only₁.frame.shouldCheckCRLF, buffersEq, text]
      intro unchecked member
      refine inv.noCR unchecked ?_
      simp only [textOf_append, textOf_cons, mem_append] at member ⊢
      rcases member with ((left | inA) | inB) | right
      · exact .inl left
      · exact .inr (.inl (mem_of_mem_take inA))
      · exact .inr (.inr (.inr (.inl (mem_of_mem_drop inB))))
      · exact .inr (.inr (.inr (.inr right))))
  have only' := only₃.trans only
  refine ⟨s', es', ?_, repaired.ready (buffersEq ▸ text) (only'.eol.trans only₁.eol)
    (only'.eolNormalized.trans only₁.eolNormalized)
    (only'.lastVisitedLine.trans only₁.lastVisitedLine)
    (by simp [only'.searchCache, dropped]) (by simp [only'.searchCache, dropped]),
    buffersEq ▸ repaired.frame.grown⟩
  have last : (if p'.length = 0 then before.getLast?.map (·.1) else some a) =
      left.getLast?.map (·.1) := by
    rw [leftEq]
    split <;> simp
  simp only [PieceTreeBase.deleteAcrossNodes, startNode, endNode, startRemainder,
    endRemainder, foundA, pieceA, bind_eq_bind, bind_some, cutA,
    foundA', pieceA', foundB, pieceB, cutB, foundB', pieceB', previous, last,
    deleted]
  exact validated

end Across

/-! ## The whole operation -/

section Whole

variable {s : PieceTreeBase} {es : List Entry}

theorem Inv.visited (inv : Inv s es) (line : VisitedLine) :
    Inv { s with lastVisitedLine := line } es :=
  ⟨⟨inv.rep.holds, inv.rep.fresh, inv.rep.buffers, inv.rep.position,
    inv.rep.pieces, inv.rep.tail⟩, inv.nonempty, inv.whole, inv.noCR,
    inv.lineCnt, inv.length, inv.cacheLimit, inv.cache⟩

/-- Two occurrences in one list are the same, or one comes before the other. -/
theorem append_cons_cases {α : Type} {b₁ a₁ b₂ a₂ : List α} {x y : α}
    (equal : b₁ ++ x :: a₁ = b₂ ++ y :: a₂) :
    (b₁ = b₂ ∧ x = y ∧ a₁ = a₂) ∨ (∃ middle, b₂ = b₁ ++ x :: middle ∧ a₁ = middle ++ y :: a₂) ∨
      ∃ middle, b₁ = b₂ ++ y :: middle ∧ a₂ = middle ++ x :: a₁ := by
  rcases append_eq_append_iff.mp equal with
    ⟨extra, longer, rest⟩ | ⟨extra, longer, rest⟩
  · cases extra with
    | nil =>
      simp only [append_nil, nil_append, List.cons.injEq] at longer rest
      exact .inl ⟨longer.symm, rest.1, rest.2⟩
    | cons z extra =>
      simp only [cons_append, List.cons.injEq] at rest
      obtain ⟨rfl, rest⟩ := rest
      exact .inr (.inl ⟨extra, longer, rest⟩)
  · cases extra with
    | nil =>
      simp only [append_nil, nil_append, List.cons.injEq] at longer rest
      exact .inl ⟨longer, rest.1.symm, rest.2.symm⟩
    | cons z extra =>
      simp only [cons_append, List.cons.injEq] at rest
      obtain ⟨rfl, rest⟩ := rest
      exact .inr (.inr ⟨extra, longer, rest⟩)

theorem textOf_length {before rest : List Entry} (rep : Rep s (before ++ rest)) :
    (textOf s.buffers before).length = totalLength before :=
  Rep.length_textOf rep.buffers fun e member => rep.pieces e (by simp [member])

variable {before after : List Entry}

/-- The text without a part of one piece. -/
theorem Rep.splice_within {id : Nat} {p : Piece} (rep : Rep s (before ++ (id, p) :: after))
    {offset count r₁ r₂ : Nat} (offsetEq : offset = totalLength before + r₁)
    (countEq : r₁ + count = r₂) (bounded : r₂ ≤ p.length) :
    splice (textOf s.buffers (before ++ (id, p) :: after)) offset count [] =
      textOf s.buffers before ++ (contentOf s.buffers p).take r₁ ++
        (contentOf s.buffers p).drop r₂ ++ textOf s.buffers after := by
  subst offsetEq countEq
  rw [splice, textOf_append, textOf_cons, ← textOf_length rep, append_nil,
    take_length_add_append, Nat.add_assoc, drop_length_add_append,
    take_append_of_le_length, drop_append_of_le_length]
  · simp
  · rw [rep.length_content]
    omega
  · rw [rep.length_content]
    omega

/-- The text without a part that starts in one piece and ends in another. -/
theorem Rep.splice_across {before middle after : List Entry} {a b : Nat} {p q : Piece}
    (rep : Rep s (before ++ (a, p) :: (middle ++ (b, q) :: after)))
    {offset count r₁ r₂ : Nat}
    (offsetEq : offset = totalLength before + r₁)
    (endEq : offset + count = totalLength (before ++ (a, p) :: middle) + r₂)
    (boundedA : r₁ ≤ p.length) (boundedB : r₂ ≤ q.length) :
    splice (textOf s.buffers (before ++ (a, p) :: (middle ++ (b, q) :: after))) offset count [] =
      textOf s.buffers before ++ (contentOf s.buffers p).take r₁ ++
        (contentOf s.buffers q).drop r₂ ++ textOf s.buffers after := by
  have lengthA := rep.length_content
  have front := textOf_length rep
  have split : before ++ (a, p) :: (middle ++ (b, q) :: after) =
      (before ++ (a, p) :: middle) ++ (b, q) :: after := by simp
  rw [splice, append_nil, endEq, offsetEq, ← front, textOf_append,
    textOf_cons, take_length_add_append, take_append_of_le_length
      (lengthA ▸ boundedA), ← textOf_cons, ← textOf_append, split]
  rw [split] at rep
  have lengthB := rep.length_content
  rw [textOf_append, textOf_cons, ← textOf_length rep,
    drop_length_add_append, drop_append_of_le_length (lengthB ▸ boundedB)]
  simp

/-- `delete` inside the node that contains both ends. -/
theorem Inv.deleteInNode {p : Piece} {c : CacheEntry} {offset count r₁ r₂ : Nat}
    {startPosition endPosition : NodePosition}
    (inv : Inv s (before ++ (startPosition.node, p) :: after)) (cache : s.searchCache = [c])
    (cacheNode : c.node = startPosition.node) (cacheAt : CacheAt before c)
    (start : startPosition.nodeStartOffset = totalLength before)
    (startRemainder : startPosition.remainder.toNat = r₁)
    (endRemainder : endPosition.remainder.toNat = r₂)
    (offsetEq : offset = totalLength before + r₁) (countEq : r₁ + count = r₂)
    (positive : 0 < count) (bounded : r₂ ≤ p.length) :
    ∃ s' es', s.deleteInNode offset count startPosition endPosition = some s' ∧
      Ready s s' es' (textOf s.buffers before ++
        (contentOf s.buffers p).take r₁ ++ (contentOf s.buffers p).drop r₂ ++
        textOf s.buffers after) ∧
      Extends s.buffers s'.buffers := by
  obtain ⟨n, found, -, pieceEq⟩ := inv.rep.node?
  have lengthEq := inv.rep.length_content
  simp only [PieceTreeBase.deleteInNode, found, pieceEq, bind_eq_bind,
    bind_some, start, startRemainder, endRemainder]
  split
  · have zero : r₁ = 0 := by omega
    subst zero
    rw [take_zero, append_nil]
    split
    · have none : (contentOf s.buffers p).drop r₂ = [] := by
        rw [drop_eq_nil_iff]
        omega
      rw [none, append_nil]
      exact inv.deleteNode cache cacheNode
    · exact inv.deleteHead cache cacheAt (by omega) (by omega)
  · split
    · have none : (contentOf s.buffers p).drop r₂ = [] := by
        rw [drop_eq_nil_iff]
        omega
      rw [none, append_nil]
      exact inv.deleteTail cache cacheNode cacheAt (by omega) (by omega)
    · exact inv.shrinkNode cache cacheNode cacheAt (by omega) (by omega) (by omega)

theorem Inv.delete {offset count : Nat} (inv : Inv s es)
    (bounded : offset + count ≤ totalLength es) :
    ∃ s' es', s.delete offset count = some s' ∧ Updated { s with lastVisitedLine := ⟨0, []⟩ } s' es'
        (splice (textOf s.buffers es) offset count []) ∧
      Extends s.buffers s'.buffers := by
  have touched := inv.visited ⟨0, []⟩
  unfold PieceTreeBase.delete
  generalize startEq : ({ s with lastVisitedLine := ⟨0, []⟩ } : PieceTreeBase) = start at touched ⊢
  have buffersEq : s.buffers = start.buffers := by rw [← startEq]
  rw [buffersEq]
  by_cases trivial : count = 0 ∨ start.root = .leaf
  · refine ⟨start, es, by simp [trivial], ⟨touched, ?_, rfl, rfl, rfl⟩, .refl _⟩
    rcases trivial with rfl | leaf
    · simp [splice]
    · rw [touched.rep.holds.eq_leaf_iff.mp leaf]
      simp [splice]
  rw [if_neg trivial]
  rw [not_or] at trivial
  have empty : es ≠ [] :=
    fun none => trivial.2 (touched.rep.holds.eq_leaf_iff.mpr none)
  obtain ⟨startPos, before, p, after, c₁, found₁, located₁, -, -, inv₁⟩ :=
    touched.nodeAt_split empty (Int.natCast_nonneg offset) (by omega)
  obtain ⟨endPos, before', q, after', c, found₂, located₂, cacheNode, cacheAt, inv₂⟩ :=
    inv₁.nodeAt_split empty (Int.natCast_nonneg (offset + count)) (by omega)
  simp only [found₁, found₂, bind_eq_bind, bind_some]
  have start₁ := located₁.start
  have remainder₁ := located₁.remainder
  have lower₁ := located₁.lower
  have upper₁ := located₁.upper
  have remainder₂ := located₂.remainder
  have lower₂ := located₂.lower
  have upper₂ := located₂.upper
  obtain rfl := located₁.split
  have distinct := touched.rep.holds.distinct
  have noCR : start.shouldCheckCRLF = false → CR ∉ splice (textOf start.buffers
      (before ++ (startPos.node, p) :: after)) offset count [] :=
    fun unchecked member => (mem_of_mem_splice member).elim (touched.noCR unchecked) (by simp)
  -- the two nodes are the same, or the second one comes later
  rcases append_cons_cases located₂.split with
    ⟨rfl, same, rfl⟩ | ⟨middle, rfl, rfl⟩ | ⟨middle, rfl, rfl⟩
  · obtain ⟨sameNode, rfl⟩ := Prod.mk.inj same
    obtain ⟨s', es', deleted, ready, grown⟩ := @Inv.deleteInNode _ before after p c
      offset count _ _ startPos endPos inv₂ rfl
      (cacheNode.trans sameNode.symm) cacheAt start₁ rfl rfl
      (by omega : offset = totalLength before + startPos.remainder.toNat)
      (by omega : startPos.remainder.toNat + count = endPos.remainder.toNat)
      (by omega) (by omega)
    have text := touched.rep.splice_within
      (by omega : offset = totalLength before + startPos.remainder.toNat)
      (by omega : startPos.remainder.toNat + count = endPos.remainder.toNat)
      (by omega)
    rw [← text] at ready
    rw [if_pos sameNode]
    have updated := ready.updated noCR
    exact ⟨s'.computeBufferMetadata, es', by rw [deleted, bind_some],
      ⟨updated.inv, updated.text_eq, updated.eol, updated.eolNormalized,
        updated.lastVisitedLine⟩, grown⟩
  · have differs : startPos.node ≠ endPos.node := by
      intro same
      refine (not_mem_ids_of_distinct distinct).2 ?_
      simp [same]
    obtain ⟨s', es', deleted, ready, grown⟩ := inv₂.deleteAcrossNodes rfl cacheAt rfl rfl rfl rfl
      (by omega : offset = totalLength before + startPos.remainder.toNat)
      (by omega) (by omega)
    have text := touched.rep.splice_across
      (by omega : offset = totalLength before + startPos.remainder.toNat)
      (by omega : offset + count = totalLength
        (before ++ (startPos.node, p) :: middle) + endPos.remainder.toNat)
      (by omega) (by omega)
    rw [← text] at ready
    rw [if_neg differs]
    have updated := ready.updated noCR
    exact ⟨s'.computeBufferMetadata, es', by rw [deleted, bind_some],
      ⟨updated.inv, updated.text_eq, updated.eol, updated.eolNormalized,
        updated.lastVisitedLine⟩, grown⟩
  · simp only [totalLength_append, totalLength_cons] at lower₁
    omega

end Whole

end CodeEditor.PieceTree
