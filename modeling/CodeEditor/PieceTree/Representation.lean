import CodeEditor.PieceTree.Buffers
import CodeEditor.PieceTree.Sequence

/-!
# The representation of a document

`Rep s es` relates a state of the piece tree to the sequence of its entries:
the tree holds the sequence, every piece denotes a part of its buffer, and at
most one piece ends where the change buffer ends. It holds between any two
primitive steps of an edit, also while empty pieces wait for their deletion.
The lemmas below say what each primitive step does to the sequence.
-/

namespace CodeEditor.PieceTree

open CodeEditor.BinaryTree TreePath RedBlack List

/-- The texts of a sequence of pieces. -/
def parts (buffers : List StringBuffer) (es : List Entry) : List Text :=
  es.map fun e => contentOf buffers e.2

/-- The text a sequence of pieces denotes. -/
def textOf (buffers : List StringBuffer) (es : List Entry) : Text :=
  (parts buffers es).flatten

section Parts

variable (buffers : List StringBuffer)

@[simp] theorem parts_nil : parts buffers [] = [] := rfl

@[simp] theorem parts_cons (e : Entry) (es : List Entry) :
    parts buffers (e :: es) = contentOf buffers e.2 :: parts buffers es := rfl

@[simp] theorem parts_append (es fs : List Entry) :
    parts buffers (es ++ fs) = parts buffers es ++ parts buffers fs := by
  simp [parts]

@[simp] theorem textOf_nil : textOf buffers [] = [] := rfl

@[simp] theorem textOf_cons (e : Entry) (es : List Entry) :
    textOf buffers (e :: es) = contentOf buffers e.2 ++ textOf buffers es := by
  simp [textOf]

@[simp] theorem textOf_append (es fs : List Entry) :
    textOf buffers (es ++ fs) = textOf buffers es ++ textOf buffers fs := by
  simp [textOf]

theorem getLinesRawContent_eq (s : PieceTreeBase) :
    s.getLinesRawContent = textOf s.buffers (entries s.root) := by
  simp [PieceTreeBase.getLinesRawContent, textOf, parts, entries, entry,
    flatMap_def, getPieceContent_eq, Function.comp_def]

end Parts

/-- The piece ends where the change buffer ends. -/
def atTail (buffers : List StringBuffer) (p : Piece) : Bool :=
  p.bufferIndex == 0 &&
    p.stop == cursorAt (bufferText buffers 0) (bufferText buffers 0).length

/-- The number of pieces that end where the change buffer ends. -/
def tailCount (buffers : List StringBuffer) (es : List Entry) : Nat :=
  es.countP fun e => atTail buffers e.2

@[simp] theorem tailCount_nil (buffers : List StringBuffer) :
    tailCount buffers [] = 0 := rfl

@[simp] theorem tailCount_cons (buffers : List StringBuffer) (e : Entry)
    (es : List Entry) :
    tailCount buffers (e :: es) = tailCount buffers es + if atTail buffers e.2 then 1 else 0 := by
  simp [tailCount, countP_cons]

@[simp] theorem tailCount_append (buffers : List StringBuffer)
    (es fs : List Entry) :
    tailCount buffers (es ++ fs) = tailCount buffers es + tailCount buffers fs := by
  simp [tailCount]

theorem Denotes.atTail_iff (denotes : Denotes buffers p first last) : atTail buffers p = true ↔
      p.bufferIndex = 0 ∧ last = (bufferText buffers 0).length := by
  have stop := denotes.stop
  simp only [atTail, Bool.and_eq_true, beq_iff_eq]
  refine and_congr_right fun zero => ?_
  rw [zero] at stop
  rw [stop]
  exact ⟨cursorAt_injective, fun same => by rw [same]⟩

theorem Denotes.atTail_eq_false (denotes : Denotes buffers p first last)
    (inside : p.bufferIndex = 0 → last < (bufferText buffers 0).length) :
    atTail buffers p = false := by
  rw [← Bool.not_eq_true, denotes.atTail_iff]
  rintro ⟨zero, same⟩
  omega

variable {old new : List StringBuffer}

/-- A piece that ends at the end of a grown change buffer did so before. -/
theorem PieceOk.atTail_of_extend (pieceOk : PieceOk old p) (extended : Extends old new)
    (isTail : atTail new p = true) : atTail old p = true := by
  obtain ⟨first, last, denotes⟩ := pieceOk
  obtain ⟨zero, lastEq⟩ := (denotes.extend extended).atTail_iff.mp isTail
  refine denotes.atTail_iff.mpr ⟨zero, ?_⟩
  have known := denotes.known
  have bounded := denotes.bounded
  rw [zero] at known bounded
  obtain ⟨more, moreEq, -⟩ := extended.grows 0 known
  rw [moreEq, length_append] at lastEq
  omega

theorem tailCount_of_extend {es : List Entry} (extended : Extends old new)
    (pieces : ∀ e ∈ es, PieceOk old e.2) : tailCount new es ≤ tailCount old es :=
  countP_mono_left fun e member isTail =>
    (pieces e member).atTail_of_extend extended isTail

/-- The state `s` holds the sequence `es` of pieces. -/
structure Rep (s : PieceTreeBase) (es : List Entry) : Prop where
  holds : Holds s.root es
  fresh : ∀ id ∈ ids es, id < s.nextId
  buffers : BuffersOk s.buffers
  position : s.lastChangeBufferPos =
    cursorAt (bufferText s.buffers 0) (bufferText s.buffers 0).length
  pieces : ∀ e ∈ es, PieceOk s.buffers e.2
  tail : tailCount s.buffers es ≤ 1

namespace Rep

variable {s : PieceTreeBase} {es fs : List Entry} {id : Nat} {p : Piece}

theorem getLinesRawContent (rep : Rep s es) : s.getLinesRawContent = textOf s.buffers es := by
  rw [getLinesRawContent_eq, rep.holds.entries_eq]

theorem pieceOk (rep : Rep s (es ++ (id, p) :: fs)) : PieceOk s.buffers p :=
  rep.pieces (id, p) (by simp)

theorem length_content (rep : Rep s (es ++ (id, p) :: fs)) :
    (contentOf s.buffers p).length = p.length :=
  rep.pieceOk.length_content rep.buffers

theorem length_textOf (buffers : BuffersOk s.buffers) (pieces : ∀ e ∈ es, PieceOk s.buffers e.2) :
    (textOf s.buffers es).length = totalLength es := by
  induction es with
  | nil => rfl
  | cons e es ih =>
    rw [textOf_cons, length_append, totalLength_cons, (pieces e (by simp)).length_content buffers,
      ih fun e member => pieces e (by simp [member])]

/-! ## Reading nodes -/

theorem node? (rep : Rep s (es ++ (id, p) :: fs)) :
    ∃ n, s.node? id = some n ∧ n.id = id ∧ n.piece = p := by
  obtain ⟨l, n, r, path, found, -, nodeEq, -, -⟩ := rep.holds.focus
  have parts := Prod.mk.inj nodeEq
  exact ⟨n, by simp [PieceTreeBase.node?, found], parts.1, parts.2⟩

theorem node?_eq_none (rep : Rep s es) (missing : id ∉ ids es) : s.node? id = none := by
  have absent : focus s.root id = none :=
    focus_eq_none_of_not_mem (by rwa [rep.holds.entries_eq])
  simp [PieceTreeBase.node?, absent]

end Rep

/-! ## Replacing a piece -/

/-- Assigning a piece and passing the difference on to the ancestors. -/
theorem Holds.replace {es fs : List Entry} {id : Nat}
    {p : Piece} (holds : Holds t (es ++ (id, p) :: fs)) (p' : Piece)
    (delta lfDelta : Int)
    (deltaEq : (p'.length : Int) = p.length + delta)
    (lfDeltaEq : (p'.lineFeedCnt : Int) = p.lineFeedCnt + lfDelta) :
    ∃ t₁ t₂, (∀ s : PieceTreeBase, s.root = t → s.setPiece id p' = some { s with root := t₁ }) ∧
      (∀ s : PieceTreeBase, s.root = t₁ →
        s.updateMetadata id delta lfDelta = some { s with root := t₂ }) ∧
      Holds t₂ (es ++ (id, p') :: fs) := by
  obtain ⟨l, n, r, path, found, plugged, nodeEq, rfl, rfl⟩ := holds.focus
  have nodeId : n.id = id := congrArg Prod.fst nodeEq
  have nodePiece : n.piece = p := congrArg Prod.snd nodeEq
  obtain ⟨⟨size, lf, leftOk, rightOk⟩, pathOk⟩ :=
    metadataOk_plug_iff.mp (plugged ▸ holds.metadata)
  obtain ⟨height, balanced, pathBalanced, fits⟩ :=
    isRedBlack_plug_iff.mp (plugged ▸ holds.redBlack)
  -- the node is found again once its piece has been assigned
  have refocus : PieceTree.focus
      ((BinaryTree.node l { n with piece := p' } r).plug path) id =
        some (l, { n with piece := p' }, r, path) := by
    obtain ⟨notLeft, notRight⟩ := not_mem_ids_of_distinct holds.distinct
    refine locate_plug (by simpa using nodeId) ?_ ?_
    · intro m member
      refine beq_false_of_ne fun same => notLeft ?_
      have : entry m ∈ entriesBefore path := mem_map_of_mem member
      exact mem_map.mpr ⟨entry m, by simp [this], same⟩
    · intro m member
      refine beq_false_of_ne fun same => notRight ?_
      have : entry m ∈ entriesAfter path := mem_map_of_mem member
      exact mem_map.mpr ⟨entry m, by simp [this], same⟩
  have same := updateTreeMetadata_same path delta lfDelta
  refine ⟨(BinaryTree.node l { n with piece := p' } r).plug path,
    (BinaryTree.node l { n with piece := p' } r).plug
      (updateTreeMetadata path delta lfDelta), ?_, ?_, ?_, ?_, ?_, ?_⟩
  · rintro s rfl
    rw [PieceTreeBase.setPiece, found]
    rfl
  · rintro s rootEq
    rw [PieceTreeBase.updateMetadata, rootEq, refocus]
    rfl
  · rw [entries_plug, ← same.entriesBefore_eq, ← same.entriesAfter_eq]
    simp [entry, nodeId]
  · refine metadataOk_plug_iff.mpr ⟨⟨size, lf, leftOk, rightOk⟩, ?_⟩
    refine updateTreeMetadata_ok pathOk ?_ ?_
    · simp [entry, nodePiece, deltaEq]
      omega
    · simp [entry, nodePiece, lfDeltaEq]
      omega
  · exact isRedBlack_plug_iff.mpr ⟨height, balanced, same.pathBalanced pathBalanced,
        fits.imp_right same.parentBlack⟩
  · simpa using holds.distinct

/-! ## What an edit keeps -/

/-- The primitive steps of an edit let the buffers grow and keep everything
that is neither tree nor buffer. -/
structure Frame (s s' : PieceTreeBase) : Prop where
  grown : Extends s.buffers s'.buffers
  eol : s'.eol = s.eol
  eolNormalized : s'.eolNormalized = s.eolNormalized
  searchCache : s'.searchCache = s.searchCache
  lastVisitedLine : s'.lastVisitedLine = s.lastVisitedLine
  allocated : s.nextId ≤ s'.nextId

theorem Frame.refl (s : PieceTreeBase) : Frame s s :=
  ⟨.refl _, rfl, rfl, rfl, rfl, le_rfl⟩

theorem Frame.trans (first : Frame s t) (second : Frame t u) : Frame s u :=
  ⟨first.grown.trans second.grown, second.eol.trans first.eol,
    second.eolNormalized.trans first.eolNormalized,
    second.searchCache.trans first.searchCache,
    second.lastVisitedLine.trans first.lastVisitedLine,
    first.allocated.trans second.allocated⟩

theorem Frame.shouldCheckCRLF (frame : Frame s s') : s'.shouldCheckCRLF = s.shouldCheckCRLF := by
  simp [PieceTreeBase.shouldCheckCRLF, frame.eol, frame.eolNormalized]

theorem parts_extend {es : List Entry} (extended : Extends old new) (oldOk : BuffersOk old)
    (newOk : BuffersOk new) (pieces : ∀ e ∈ es, PieceOk old e.2) : parts new es = parts old es :=
  map_congr_left fun e member =>
    (pieces e member).contentOf_extend extended oldOk newOk

/-- Steps that change nothing but the tree. -/
structure OnlyTree (s s' : PieceTreeBase) : Prop where
  buffers : s'.buffers = s.buffers
  position : s'.lastChangeBufferPos = s.lastChangeBufferPos
  eol : s'.eol = s.eol
  eolNormalized : s'.eolNormalized = s.eolNormalized
  searchCache : s'.searchCache = s.searchCache
  lastVisitedLine : s'.lastVisitedLine = s.lastVisitedLine
  allocated : s.nextId ≤ s'.nextId

theorem OnlyTree.frame (only : OnlyTree s s') :
    Frame s s' :=
  ⟨only.buffers ▸ .refl _, only.eol, only.eolNormalized, only.searchCache,
    only.lastVisitedLine, only.allocated⟩

theorem OnlyTree.refl (s : PieceTreeBase) : OnlyTree s s :=
  ⟨rfl, rfl, rfl, rfl, rfl, rfl, by simp⟩

theorem OnlyTree.trans (first : OnlyTree s t) (second : OnlyTree t u) : OnlyTree s u :=
  ⟨second.buffers.trans first.buffers, second.position.trans first.position,
    second.eol.trans first.eol,
    second.eolNormalized.trans first.eolNormalized,
    second.searchCache.trans first.searchCache,
    second.lastVisitedLine.trans first.lastVisitedLine,
    first.allocated.trans second.allocated⟩

namespace Rep

variable {s : PieceTreeBase} {es fs : List Entry} {id : Nat} {p : Piece}

/-- Replacing a piece; the new one ends at the end of the change buffer only if
the old one did. -/
theorem replace (rep : Rep s (es ++ (id, p) :: fs)) (delta lfDelta : Int)
    (pieceOk : PieceOk s.buffers p')
    (tail : atTail s.buffers p' = true → atTail s.buffers p = true)
    (deltaEq : (p'.length : Int) = p.length + delta)
    (lfDeltaEq : (p'.lineFeedCnt : Int) = p.lineFeedCnt + lfDelta) :
    ∃ s₁ s', s.setPiece id p' = some s₁ ∧ s₁.updateMetadata id delta lfDelta = some s' ∧
      OnlyTree s s' ∧ Rep s' (es ++ (id, p') :: fs) := by
  obtain ⟨t₁, t₂, assigned, updated, holds⟩ :=
    rep.holds.replace p' delta lfDelta deltaEq lfDeltaEq
  refine ⟨_, _, assigned s rfl, updated _ rfl, ⟨rfl, rfl, rfl, rfl, rfl, rfl, by simp⟩,
    holds, ?_, rep.buffers, rep.position, ?_, ?_⟩
  · simpa using rep.fresh
  · intro e member
    have pieces := rep.pieces e
    simp only [mem_append, mem_cons] at member pieces
    rcases member with before | rfl | after
    · exact pieces (.inl before)
    · exact pieceOk
    · exact pieces (.inr (.inr after))
  · have bound := rep.tail
    simp only [tailCount_append, tailCount_cons] at bound ⊢
    cases isTail : atTail s.buffers p' with
    | false => simp; omega
    | true =>
      simp only [tail isTail, if_true] at bound ⊢
      exact bound

theorem not_mem_nextId (rep : Rep s es) : s.nextId ∉ ids es :=
  fun member => Nat.lt_irrefl _ (rep.fresh _ member)

/-- What has to be shown when the piece `p` gets a new node between `es` and
`fs`. -/
theorem inserted {t : Tree} (rep : Rep s (es ++ fs)) (pieceOk : PieceOk s.buffers p)
    (tail : tailCount s.buffers (es ++ fs) + (if atTail s.buffers p then 1 else 0) ≤ 1)
    (holds : Holds t (es ++ (s.nextId, p) :: fs)) :
    Rep { s with root := t, nextId := s.nextId + 1 } (es ++ (s.nextId, p) :: fs) := by
  refine ⟨holds, ?_, rep.buffers, rep.position, ?_, ?_⟩
  · intro id member
    have fresh := rep.fresh id
    simp only [ids_append, ids_cons, mem_append, mem_cons] at member fresh
    rcases member with before | rfl | after
    · exact (fresh (.inl before)).trans (Nat.lt_succ_self _)
    · exact Nat.lt_succ_self _
    · exact (fresh (.inr after)).trans (Nat.lt_succ_self _)
  · intro e member
    have pieces := rep.pieces e
    simp only [mem_append, mem_cons] at member pieces
    rcases member with before | rfl | after
    · exact pieces (.inl before)
    · exact pieceOk
    · exact pieces (.inr after)
  · simp only [tailCount_append, tailCount_cons] at tail ⊢
    omega

section

variable (rep : Rep s (es ++ (id, p) :: fs)) (pieceOk : PieceOk s.buffers p')
  (tail : tailCount s.buffers (es ++ (id, p) :: fs) + (if atTail s.buffers p' then 1 else 0) ≤ 1)

include rep pieceOk tail

theorem rbInsertRight : ∃ new s', s.rbInsertRight (some id) p' = some (new, s') ∧
      OnlyTree s s' ∧ Rep s' (es ++ (id, p) :: (new, p') :: fs) := by
  obtain ⟨t, found, holds⟩ :=
    rep.holds.rbInsertRight (p := p') rep.not_mem_nextId
  refine ⟨s.nextId, { s with root := t, nextId := s.nextId + 1 },
    by simp [PieceTreeBase.rbInsertRight, found],
    ⟨rfl, rfl, rfl, rfl, rfl, rfl, by simp⟩, ?_⟩
  have split : es ++ (id, p) :: fs = (es ++ [(id, p)]) ++ fs := by simp
  rw [split] at rep tail
  have result := rep.inserted pieceOk tail (by simpa using holds)
  simpa using result

theorem rbInsertLeft : ∃ new s', s.rbInsertLeft (some id) p' = some (new, s') ∧
      OnlyTree s s' ∧ Rep s' (es ++ (new, p') :: (id, p) :: fs) := by
  obtain ⟨t, found, holds⟩ :=
    rep.holds.rbInsertLeft (p := p') rep.not_mem_nextId
  exact ⟨s.nextId, { s with root := t, nextId := s.nextId + 1 },
    by simp [PieceTreeBase.rbInsertLeft, found],
    ⟨rfl, rfl, rfl, rfl, rfl, rfl, by simp⟩, rep.inserted pieceOk tail holds⟩

end

/-- The first piece of an empty tree. -/
theorem rbInsert_empty (rep : Rep s []) (node : Option Nat) (pieceOk : PieceOk s.buffers p') :
    ∃ new s', s.rbInsertLeft node p' = some (new, s') ∧ s.rbInsertRight node p' = some (new, s') ∧
      OnlyTree s s' ∧ Rep s' [(new, p')] := by
  have empty : s.root = .leaf := rep.holds.eq_leaf_iff.mpr rfl
  obtain ⟨t, found, holds⟩ := rbInsertLeft_empty node s.nextId p'
  have foundRight : PieceTree.rbInsertRight .leaf node (newNode s.nextId p') =
    some t := found
  refine ⟨s.nextId, { s with root := t, nextId := s.nextId + 1 },
    by simp [PieceTreeBase.rbInsertLeft, empty, found],
    by simp [PieceTreeBase.rbInsertRight, empty, foundRight],
    ⟨rfl, rfl, rfl, rfl, rfl, rfl, by simp⟩, ?_⟩
  refine @inserted s [] [] p' t rep pieceOk ?_ holds
  simp only [append_nil, tailCount_nil]
  split <;> omega

theorem rbDelete (rep : Rep s (es ++ (id, p) :: fs)) :
    ∃ s', s.rbDelete id = some s' ∧ OnlyTree s s' ∧ Rep s' (es ++ fs) := by
  obtain ⟨t, found, holds⟩ := rep.holds.rbDelete
  refine ⟨{ s with root := t }, by simp [PieceTreeBase.rbDelete, found],
    ⟨rfl, rfl, rfl, rfl, rfl, rfl, by simp⟩, holds, ?_, rep.buffers, rep.position, ?_, ?_⟩
  · intro other member
    refine rep.fresh other ?_
    simp only [ids_append, ids_cons, mem_append, mem_cons] at member ⊢
    tauto
  · intro e member
    refine rep.pieces e ?_
    simp only [mem_append, mem_cons] at member ⊢
    tauto
  · have bound := rep.tail
    simp only [tailCount_append, tailCount_cons] at bound ⊢
    omega

end Rep

/-- A new node gets the next identity. -/
theorem rbInsertRight_id {s s' : PieceTreeBase} {node : Option Nat}
    {new : Nat} (inserted : s.rbInsertRight node p = some (new, s')) :
    new = s.nextId := by
  obtain ⟨root, -, same⟩ := Option.bind_eq_some_iff.mp inserted
  exact (Prod.mk.inj (Option.some.inj same)).1.symm

end CodeEditor.PieceTree
