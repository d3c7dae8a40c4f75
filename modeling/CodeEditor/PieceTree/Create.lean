import CodeEditor.PieceTree.Delete

/-!
# Creation and normalization

`create` builds the tree from the chunks of a file, and `setEOL` rebuilds it
from the normalized text.
-/

namespace CodeEditor.PieceTree

open PieceTreeBase Option
open List hiding iterate

/-! ## Building the tree from chunks -/

section Chunks

variable {s : PieceTreeBase} {es : List Entry}

/-- The loop of `create` gives every chunk a piece of its own. -/
theorem Rep.addChunks {i : Nat} (rep : Rep s es) (chunks : List StringBuffer)
    (length : s.buffers.length = i + 1) (ok : ∀ b ∈ chunks, BufferOk b)
    (nonempty : ∀ b ∈ chunks, b.buffer ≠ []) :
    ∃ s' fs, s.addChunks (es.getLast?.map (·.1)) i chunks = some s' ∧
      Rep s' (es ++ fs) ∧ Frame s s' ∧
      parts s'.buffers fs = chunks.map (·.buffer) := by
  induction chunks generalizing s es i with
  | nil => exact ⟨s, [], rfl, by simpa using rep, .refl s, rfl⟩
  | cons chunk chunks ih =>
    have chunkOk := ok chunk (by simp)
    have present : chunk.buffer.length > 0 :=
      length_pos_iff.mpr (nonempty chunk (by simp))
    have pushed := rep.pushBuffer chunkOk
    have pieceOk : PieceOk (s.buffers ++ [chunk]) (wholePiece (i + 1) chunk) :=
      length ▸ ⟨_, _, wholePiece_denotes chunkOk⟩
    have notTail : atTail (s.buffers ++ [chunk]) (wholePiece (i + 1) chunk) =
        false := by simp [atTail, wholePiece]
    obtain ⟨new, s₁, inserted, only, rep₁⟩ : ∃ new s₁,
        PieceTreeBase.rbInsertRight { s with buffers := s.buffers ++ [chunk] }
          (es.getLast?.map (·.1)) (wholePiece (i + 1) chunk) = some (new, s₁) ∧
        OnlyTree { s with buffers := s.buffers ++ [chunk] } s₁ ∧
        Rep s₁ (es ++ [(new, wholePiece (i + 1) chunk)]) := by
      rcases eq_nil_or_concat' es with rfl | ⟨initial, ⟨last, q⟩, rfl⟩
      · obtain ⟨new, s₁, -, inserted, only, rep₁⟩ :=
          pushed.rbInsert_empty none pieceOk
        exact ⟨new, s₁, inserted, only, rep₁⟩
      · obtain ⟨new, s₁, inserted, only, rep₁⟩ := pushed.rbInsertRight pieceOk
          (by simpa [notTail] using pushed.tail)
        exact ⟨new, s₁, by simpa using inserted, only, by simpa using rep₁⟩
    obtain ⟨s', fs, added, rep', frame, content⟩ := ih rep₁
      (by rw [only.buffers]; simp [length] : s₁.buffers.length = i + 1 + 1)
      (fun b member => ok b (by simp [member]))
      (fun b member => nonempty b (by simp [member]))
    rw [getLast?_concat, map_some] at added
    refine ⟨s', (new, wholePiece (i + 1) chunk) :: fs, ?_, by simpa using rep', ?_,
      ?_⟩
    · rw [PieceTreeBase.addChunks, if_pos present]
      simp only [inserted, bind_eq_bind, bind_some]
      exact added
    · have pushFrame : Frame s { s with buffers := s.buffers ++ [chunk] } :=
        ⟨extends_concat s.buffers chunk, rfl, rfl, rfl, rfl, le_rfl⟩
      exact pushFrame.trans (only.frame.trans frame)
    · have pieceOk₁ : PieceOk s₁.buffers (wholePiece (i + 1) chunk) :=
        only.buffers ▸ pieceOk
      rw [parts_cons, content, map_cons,
        pieceOk₁.contentOf_extend frame.grown rep₁.buffers rep'.buffers,
        only.buffers, ← length, wholePiece_content rep.buffers chunkOk]

/-- `create` establishes the invariant. -/
theorem create_spec (nextId : Nat) (chunks : List StringBuffer) (eol : EOL)
    (normalized : Bool) (ok : ∀ b ∈ chunks, BufferOk b)
    (nonempty : ∀ b ∈ chunks, b.buffer ≠ [])
    (whole : Whole (chunks.map (·.buffer)))
    (noCR : normalized = true → eol = .lf →
      CR ∉ (chunks.map (·.buffer)).flatten) :
    ∃ s es, create nextId chunks eol normalized = some s ∧ Inv s es ∧
      textOf s.buffers es = (chunks.map (·.buffer)).flatten ∧ s.eol = eol ∧
      s.eolNormalized = normalized ∧ s.lastVisitedLine = ⟨0, []⟩ := by
  obtain ⟨start, startEq⟩ : ∃ start : PieceTreeBase, start =
      { root := .leaf, nextId, buffers := [⟨[], [0]⟩], lineCnt := 1,
        length := 0, eol, eolNormalized := normalized,
        lastChangeBufferPos := ⟨0, 0⟩, searchCache := [],
        lastVisitedLine := ⟨0, []⟩ } := ⟨_, rfl⟩
  have emptyOk : BufferOk ⟨[], [0]⟩ := rfl
  have rep : Rep start [] := by
    subst startEq
    refine ⟨holds_leaf, by simp, ⟨by simp, by simpa using emptyOk⟩, rfl, by simp,
      by simp⟩
  obtain ⟨s, es, added, rep', frame, content⟩ := rep.addChunks chunks
    (by simp [startEq] : start.buffers.length = 0 + 1) ok nonempty
  rw [nil_append] at rep'
  have text : textOf s.buffers es = (chunks.map (·.buffer)).flatten := by
    rw [textOf, content]
  have eolEq : s.eol = eol := by rw [frame.eol, startEq]
  have normalizedEq : s.eolNormalized = normalized := by
    rw [frame.eolNormalized, startEq]
  have cacheEq : s.searchCache = [] := by rw [frame.searchCache, startEq]
  have inv : Inv s.computeBufferMetadata es := by
    refine rep'.computeBufferMetadata ?_ ?_ ?_ (by simp [cacheEq])
      (by simp [cacheEq])
    · rw [content, List.mem_map]
      rintro ⟨b, member, empty⟩
      exact nonempty b member empty
    · rw [content]
      exact whole
    · intro unchecked
      rw [shouldCheckCRLF, eolEq, normalizedEq] at unchecked
      simp only [Bool.not_eq_false', Bool.and_eq_true, beq_iff_eq] at unchecked
      rw [text]
      exact noCR unchecked.1 unchecked.2
  refine ⟨s.computeBufferMetadata, es, ?_, inv, text, eolEq, normalizedEq,
    by rw [PieceTreeBase.computeBufferMetadata]
       exact frame.lastVisitedLine.trans (by rw [startEq])⟩
  rw [PieceTreeBase.create, ← startEq]
  have added' : start.addChunks none 0 chunks = some s := added
  simp [added']

end Chunks

/-! ## Normalization -/

section Normalize

variable {s : PieceTreeBase} {es : List Entry}

theorem whole_of_not_endsWithCR {parts : List Text}
    (none : ∀ part ∈ parts, endsWithCR part = false) : Whole parts := by
  induction parts with
  | nil => trivial
  | cons part parts ih =>
    refine ⟨by simp [splitsCRLF, none part], ih ?_⟩
    exact fun other member => none other (by simp [member])

theorem whole_merge {front rest : List Text} {first second : Text}
    (whole : Whole (front ++ first :: second :: rest)) :
    Whole (front ++ (first ++ second) :: rest) := by
  obtain ⟨frontWhole, ⟨firstJoint, secondJoint, restWhole⟩, joint⟩ :=
    whole_append.mp whole
  refine whole_append.mpr ⟨frontWhole, ⟨?_, restWhole⟩, by simpa using joint⟩
  by_cases empty : second = []
  · simpa [empty] using firstJoint
  · rwa [splitsCRLF_append_left _ _ empty]

/-- The loop of `normalizeEOL` cuts the text into parts, none of them empty, and
cuts no `\r\n`. -/
theorem normalizeStep_foldl (eol : EOL) (nodes : List (Option TreeNode))
    (flushed : List Text) (tempChunk : Text)
    (nonempty : ∀ part ∈ flushed, part ≠ [])
    (whole : Whole (flushed ++ tempChunk :: nodes.map s.getNodeContent)) :
    ∃ flushed' tempChunk',
      nodes.foldl (s.normalizeStep eol)
          ⟨tempChunk, flushed.map (normalizedChunk eol)⟩ =
        ⟨tempChunk', flushed'.map (normalizedChunk eol)⟩ ∧
      (∀ part ∈ flushed', part ≠ []) ∧ Whole (flushed' ++ [tempChunk']) ∧
      flushed'.flatten ++ tempChunk' =
        flushed.flatten ++ tempChunk ++ (nodes.map s.getNodeContent).flatten := by
  induction nodes generalizing flushed tempChunk with
  | nil => exact ⟨flushed, tempChunk, rfl, nonempty, whole, by simp⟩
  | cons node nodes ih =>
    rw [foldl_cons]
    simp only [normalizeStep]
    split
    · obtain ⟨flushed', tempChunk', folded, rest⟩ := ih flushed
        (tempChunk ++ s.getNodeContent node) nonempty (whole_merge whole)
      exact ⟨flushed', tempChunk', folded, by simpa using rest⟩
    · rename_i full
      have present : tempChunk ≠ [] := by
        rintro rfl
        simp at full
      obtain ⟨flushed', tempChunk', folded, rest⟩ := ih
        (flushed ++ [tempChunk]) (s.getNodeContent node)
        (by simpa [or_imp, forall_and] using ⟨nonempty, present⟩)
        (by simpa using whole)
      refine ⟨flushed', tempChunk', ?_, by simpa using rest⟩
      simpa using folded

/-- The nodes that `iterate` visits are those of the tree. -/
theorem iterate_filterMap (t : Tree) :
    (iterate t).filterMap (fun node => node) = t.inorder := by
  induction t with
  | leaf => rfl
  | node l n r leftHypothesis rightHypothesis =>
    simp [iterate, leftHypothesis, rightHypothesis]

theorem flatten_getNodeContent (nodes : List (Option TreeNode)) :
    (nodes.map s.getNodeContent).flatten =
      ((nodes.filterMap fun node => node).map
        fun n => s.getPieceContent n.piece).flatten := by
  induction nodes with
  | nil => rfl
  | cons node nodes ih =>
    cases node <;> simp [getNodeContent, ih]

/-- The sentinels contribute empty parts. -/
theorem whole_getNodeContent {nodes : List (Option TreeNode)} :
    Whole (nodes.map s.getNodeContent) ↔
      Whole ((nodes.filterMap fun node => node).map
        fun n => s.getPieceContent n.piece) := by
  induction nodes with
  | nil => rfl
  | cons node nodes ih =>
    cases node with
    | none => simpa [getNodeContent] using ih
    | some n =>
      simp [getNodeContent, ih, flatten_getNodeContent]

theorem parts_inorder (rep : Rep s es) :
    (s.root.inorder.map fun n => s.getPieceContent n.piece) =
      parts s.buffers es := by
  rw [← rep.holds.entries_eq, parts, entries, List.map_map]
  rfl

/-- `setEOL` replaces every line break, and the invariant holds again. -/
theorem Inv.setEOL (inv : Inv s es) (newEOL : EOL) :
    ∃ s' es', s.setEOL newEOL = some s' ∧ Inv s' es' ∧
      textOf s'.buffers es' = replaceEOL newEOL.text (textOf s.buffers es) ∧
      s'.eol = newEOL ∧ s'.eolNormalized = true ∧
      s'.lastVisitedLine = ⟨0, []⟩ := by
  have partsEq := parts_inorder inv.rep
  obtain ⟨flushed, tempChunk, folded, nonempty, whole, text⟩ :=
    @normalizeStep_foldl { s with eol := newEOL } newEOL (iterate s.root) [] []
      (by simp) (by
        refine ⟨rfl, whole_getNodeContent.mpr ?_⟩
        rw [iterate_filterMap]
        exact partsEq ▸ inv.whole)
  have all : flushed.flatten ++ tempChunk = textOf s.buffers es := by
    rw [text, flatten_getNodeContent, iterate_filterMap]
    exact congrArg List.flatten partsEq
  -- the chunks handed to `create`
  obtain ⟨pieces, piecesEq⟩ : ∃ pieces, pieces =
      flushed ++ (if tempChunk = [] then [] else [tempChunk]) := ⟨_, rfl⟩
  have piecesNonempty : ∀ part ∈ pieces, part ≠ [] := by
    rw [piecesEq]
    intro part member
    rcases mem_append.mp member with old | last
    · exact nonempty part old
    · split at last
      · simp at last
      · rwa [mem_singleton.mp last]
  have piecesWhole : Whole pieces := by
    rw [piecesEq, ← append_nil (_ ++ _), whole_append_if]
    exact whole
  have piecesText : pieces.flatten = textOf s.buffers es := by
    rw [piecesEq, flatten_append, flatten_if, all]
  have buffersEq : (pieces.map (normalizedChunk newEOL)).map (·.buffer) =
      pieces.map (replaceEOL newEOL.text) := by
    simp [normalizedChunk]
  have newText : (pieces.map (replaceEOL newEOL.text)).flatten =
      replaceEOL newEOL.text (textOf s.buffers es) := by
    rw [← piecesText, replaceEOL_flatten _ piecesWhole]
  obtain ⟨s', es', created, inv', text', eol', normalized', visited⟩ :=
    create_spec s.nextId (pieces.map (normalizedChunk newEOL)) newEOL true
      (by
        intro b member
        obtain ⟨part, -, rfl⟩ := mem_map.mp member
        exact createLineStartsFast_eq _)
      (by
        intro b member
        obtain ⟨part, here, rfl⟩ := mem_map.mp member
        exact replaceEOL_ne_nil newEOL (piecesNonempty part here))
      (by
        rw [buffersEq]
        refine whole_of_not_endsWithCR fun part member => ?_
        obtain ⟨original, -, rfl⟩ := mem_map.mp member
        exact endsWithCR_replaceEOL newEOL original)
      (by
        rintro - rfl
        rw [buffersEq, newText]
        exact not_mem_CR_of_allBreaksAre (allBreaksAre_replaceEOL .lf _))
  refine ⟨s', es', ?_, inv', by rw [text', buffersEq, newText], eol', normalized',
    visited⟩
  have flush : (if tempChunk.length > 0 then
      flushed.map (normalizedChunk newEOL) ++ [normalizedChunk newEOL tempChunk]
      else flushed.map (normalizedChunk newEOL)) =
      pieces.map (normalizedChunk newEOL) := by
    rw [piecesEq]
    by_cases empty : tempChunk = []
    · simp [empty]
    · simp [empty, length_pos_iff]
  simp only [PieceTreeBase.setEOL, normalizeEOL]
  simp only [map_nil] at folded
  rw [folded, flush]
  exact created

end Normalize

end CodeEditor.PieceTree
