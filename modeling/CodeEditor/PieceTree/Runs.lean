import CodeEditor.PieceTree.LinesContent

/-!
# Runs of the piece tree

The piece tree simulates a plain text: every operation keeps the invariant and
acts on the text as the operation on plain texts does.
-/

namespace CodeEditor.PieceTree

open PieceTreeBase Simulation List Option Nat

/-- The state stands for a document. -/
def Represents (s : PieceTreeBase) (text : Text) : Prop :=
  ∃ es, Inv s es ∧ textOf s.buffers es = text ∧ VisitedOk s text

variable {s : PieceTreeBase}

/-- A state that has just forgotten the line visited last. -/
theorem visitedOk_reset (text : Text) (reset : s.lastVisitedLine = ⟨0, []⟩) : VisitedOk s text := by
  intro k line same
  rw [reset] at same
  simp only at same
  omega

variable {chunks : List StringBuffer}

theorem create_represents (nextId : Nat) {eol : EOL} {eolNormalized : Bool}
    (initial : InitialChunks chunks eol eolNormalized) :
    ∃ s, create nextId chunks eol eolNormalized = some s ∧
      Represents s (chunks.flatMap (·.buffer)) ∧ s.eol = eol := by
  obtain ⟨s, es, created, inv, text, sameEOL, -, reset⟩ :=
    create_spec nextId chunks eol eolNormalized (fun b member => by
        rw [BufferOk, initial.lineStarts b member, createLineStartsFast_eq])
      initial.nonempty initial.whole (fun normalized isLF => by
        refine not_mem_CR_of_allBreaksAre ?_
        rw [← isLF]
        exact initial.flag normalized)
  exact ⟨s, created, ⟨es, inv, text, visitedOk_reset _ reset⟩, sameEOL⟩

/-- The insertion continues a `\r` at the end of the change buffer with a `\n`:
it is appended to the piece that ends there, and the line start between the two
is taken back. -/
def ContinuesCR (s : PieceTreeBase) (offset : Nat) (value : Text) : Prop :=
  ∃ before n after, s.root.inorder = before ++ n :: after ∧
    n.piece.bufferIndex = 0 ∧ n.piece.stop = s.lastChangeBufferPos ∧
    offset = (before.flatMap fun m => s.getPieceContent m.piece).length +
      n.piece.length ∧
    value.length < averageBufferSize ∧
    endsWithCR (s.getPieceContent n.piece) = true ∧ startsWithLF value = true

/-- The operations that leave the cursors of a snapshot alone. -/
def Operation.KeepsCursors (s : PieceTreeBase) : Operation → Prop
  | insert offset value _ => ¬ContinuesCR s offset value
  | delete _ _ => True
  | setEOL _ => False
  | read _ => True

/-- Every insertion but those that continue a `\r` only extends the buffers. -/
theorem Inv.insert_extends {value : Text} (inv : Inv s es) (apart : ¬ContinuesCR s offset value) :
    ∀ before id p after, es = before ++ (id, p) :: after →
      atTail s.buffers p = true → offset = totalLength before + p.length →
      value.length < averageBufferSize →
      splitsCRLF (contentOf s.buffers p) value = false := by
  rintro before id p after rfl isTail offsetEq short
  by_contra splits
  rw [Bool.not_eq_false, splitsCRLF, Bool.and_eq_true] at splits
  have order := inv.rep.holds.entries_eq
  rw [entries, map_eq_append_iff] at order
  obtain ⟨front, rest, order, rfl, restEq⟩ := order
  rw [map_eq_cons_iff] at restEq
  obtain ⟨n, back, rfl, same, -⟩ := restEq
  obtain ⟨-, pieceEq⟩ := Prod.mk.inj same
  rw [atTail, Bool.and_eq_true, beq_iff_eq, beq_iff_eq] at isTail
  refine apart ⟨front, n, back, order, ?_, ?_, ?_, short, ?_, splits.2⟩
  · rw [pieceEq, isTail.1]
  · rw [pieceEq, isTail.2, inv.rep.position]
  · have frontLength : (front.flatMap fun m => s.getPieceContent m.piece).length =
        totalLength (front.map entry) := by
      rw [← Rep.length_textOf inv.rep.buffers fun e member =>
        inv.rep.pieces e (mem_append_left _ member)]
      simp [textOf, parts, entry, flatMap_def, getPieceContent_eq, Function.comp_def]
    rw [frontLength, pieceEq, offsetEq]
  · rw [pieceEq]
    exact splits.1

section

variable {text : Text} {s : PieceTreeBase} (represents : Represents s text)

include represents

/-- A read changes only the caches, and these stay right. -/
theorem Represents.read (r : Read) :
    Represents (r.after s) text ∧ (r.after s).buffers = s.buffers := by
  have unchanged : Represents s text ∧ s.buffers = s.buffers := ⟨represents, rfl⟩
  obtain ⟨es, inv, rfl, visited⟩ := represents
  have nodeAt : ∀ offset, Represents (s.nodeAt offset).2 (textOf s.buffers es) ∧
      (s.nodeAt offset).2.buffers = s.buffers := by
    intro offset
    obtain ⟨cache, same, inv'⟩ := inv.nodeAt offset
    rw [same] at inv' ⊢
    exact ⟨⟨es, inv', rfl, visited⟩, rfl⟩
  cases r with
  | getLineContent lineNumber =>
    obtain ⟨value, cache, line, read, inv', visited', -⟩ :=
      inv.getLineContent visited lineNumber
    rw [Read.after, read]
    exact ⟨⟨es, inv', rfl, visited'⟩, rfl⟩
  | getCharCode offset => exact nodeAt offset
  | getNearestChunk offset => exact nodeAt offset
  | nodeAt offset => exact nodeAt offset
  | getLinesContent => exact unchanged
  | getLineLength lineNumber => exact unchanged
  | getLineCharCode lineNumber index => exact unchanged
  | getValueInRange range eol => exact unchanged
  | getOffsetAt lineNumber column => exact unchanged
  | getPositionAt offset => exact unchanged

/-- The step lemma: a permitted operation goes through and acts on the document as on a plain
text. Where it leaves the cursors of a snapshot alone, it only extends the buffers. -/
theorem Represents.step {op : Operation} (permitted : op.Permitted s) :
    ∃ s', op.step s = some s' ∧ Represents s' (op.onText text) ∧
      (op.KeepsCursors s → Extends s.buffers s'.buffers) := by
  cases op with
  | insert offset value normalized =>
    obtain ⟨es, inv, rfl, -⟩ := represents
    obtain ⟨nonempty, bounded, clean⟩ := permitted
    obtain ⟨s', es', inserted, updated, grown⟩ :=
      inv.insert (inv.length ▸ bounded : offset ≤ totalLength es) nonempty clean
    exact ⟨s', inserted, ⟨es', updated.inv, updated.text_eq,
      visitedOk_reset _ updated.lastVisitedLine⟩, fun keeps => grown (inv.insert_extends keeps)⟩
  | delete offset cnt =>
    obtain ⟨es, inv, rfl, -⟩ := represents
    obtain ⟨s', es', deleted, updated, grown⟩ := inv.delete (inv.length ▸ permitted :
      offset + cnt ≤ totalLength es)
    exact ⟨s', deleted, ⟨es', updated.inv, updated.text_eq,
      visitedOk_reset _ updated.lastVisitedLine⟩, fun _ => grown⟩
  | setEOL newEOL =>
    obtain ⟨es, inv, rfl, -⟩ := represents
    obtain ⟨s', es', changed, inv', text, -, -, reset⟩ := inv.setEOL newEOL
    exact ⟨s', changed, ⟨es', inv', text, visitedOk_reset _ reset⟩, False.elim⟩
  | read r =>
    obtain ⟨represents', same⟩ := represents.read r
    exact ⟨_, rfl, represents', fun _ => same ▸ .refl _⟩

theorem Represents.getLinesRawContent : s.getLinesRawContent = text := by
  obtain ⟨es, inv, rfl, -⟩ := represents
  exact inv.rep.getLinesRawContent

theorem Represents.getLength : s.getLength = text.length := by
  obtain ⟨es, inv, rfl, -⟩ := represents
  rw [PieceTreeBase.getLength, inv.length, inv.rep.length_text]

theorem Represents.getLineCount : s.getLineCount = 1 + (lineBreaks text).length := by
  obtain ⟨es, inv, rfl, -⟩ := represents
  rw [PieceTreeBase.getLineCount, inv.lineCnt, length_lineBreaks, inv.sound.totalLF, Nat.add_comm]

end

/-- Every reachable state stands for the text that its pieces spell. -/
theorem Reachable.represents (reachable : Reachable s) : Represents s s.getLinesRawContent := by
  suffices some : ∃ text, Represents s text by
    obtain ⟨text, represents⟩ := some
    rwa [represents.getLinesRawContent]
  induction reachable with
  | @create nextId chunks eol eolNormalized s initial created =>
    obtain ⟨s', created', represents, -⟩ := create_represents nextId initial
    rw [created, Option.some.injEq] at created'
    exact ⟨_, created' ▸ represents⟩
  | step reachable permitted taken ih =>
    obtain ⟨text, represents⟩ := ih
    obtain ⟨s', taken', represents', -⟩ := represents.step permitted
    rw [taken, Option.some.injEq] at taken'
    exact ⟨_, taken' ▸ represents'⟩

/-! ## The piece tree refines a plain text -/

/-- From any chunks, a run of permitted operations goes through, and the pieces
spell the text that the same splices make of the initial one. -/
theorem run_refines_text (nextId : Nat) {chunks : List StringBuffer} {eol : EOL}
    {eolNormalized : Bool} (initial : InitialChunks chunks eol eolNormalized) :
    ∃ s, create nextId chunks eol eolNormalized = some s ∧
      ∀ ops, PermittedRun Operation.step Operation.Permitted s ops →
        ∃ s', run Operation.step s ops = some s' ∧
          s'.getLinesRawContent =
            ops.foldl Operation.onText (chunks.flatMap (·.buffer)) := by
  obtain ⟨s, created, represents, -⟩ := create_represents nextId initial
  refine ⟨s, created, fun ops permitted => ?_⟩
  obtain ⟨s', reached, represents'⟩ := run_simulates
    (fun s text op represents permitted =>
      (represents.step permitted).imp fun s' taken => ⟨taken.1, taken.2.1⟩)
    represents permitted
  exact ⟨s', reached, represents'.getLinesRawContent⟩

/-- The chunks `a\r\n` and `b`. -/
def sampleChunks : List StringBuffer :=
  [⟨[97, CR, LF], [0, 3]⟩, ⟨[98], [0]⟩]

theorem initialChunks_sample : InitialChunks sampleChunks .crlf true := by
  refine ⟨by decide, by decide, ?_, ?_⟩
  · simp [Whole, sampleChunks, splitsCRLF, endsWithCR]
  · intro _ lineBreak member
    revert lineBreak
    decide

/-- A line is appended to the sample, and its `a` is deleted. -/
def sampleOps : List Operation := [.insert 4 [99, CR, LF] true, .delete 0 1]

def sampleRun : Option PieceTreeBase :=
  (create 0 sampleChunks .crlf true).bind (run Operation.step · sampleOps)

theorem permitted_sampleOps (created : create 0 sampleChunks .crlf true = some s) :
    PermittedRun Operation.step Operation.Permitted s sampleOps := by
  have facts : (create 0 sampleChunks .crlf true).map (fun s =>
      (s.eol, s.getLength, (s.insert 4 [99, CR, LF] true).map (·.getLength))) =
      some (.crlf, 4, some 7) := by decide +kernel
  rw [created, map_some, Option.some.injEq, Prod.mk.injEq, Prod.mk.injEq] at facts
  obtain ⟨eol, length, longer⟩ := facts
  refine ⟨⟨by decide, length.ge, fun _ => ?_⟩, fun s' inserted => ⟨?_, fun _ _ => trivial⟩⟩
  · rw [eol]
    intro lineBreak member
    revert lineBreak
    decide
  · rw [show s.insert 4 [99, CR, LF] true = some s' from inserted, map_some,
      Option.some.injEq] at longer
    rw [Operation.Permitted, longer]
    decide

theorem reachable_sampleRun : ∃ s, sampleRun = some s ∧ Reachable s ∧ s.eol = .crlf ∧
    s.getLineCount = 3 ∧ s.getLinesRawContent = [CR, LF, 98, 99, CR, LF] := by
  have facts : sampleRun.map (fun s => (s.eol, s.getLineCount, s.getLinesRawContent)) =
      some (.crlf, 3, [CR, LF, 98, 99, CR, LF]) := by decide +kernel
  obtain ⟨s', isRun, values⟩ := map_eq_some_iff.mp facts
  obtain ⟨s, created, reached⟩ := bind_eq_some_iff.mp isRun
  have reachable : Reachable s' := run_keeps (fun _ _ _ => Reachable.step)
    (.create initialChunks_sample created) (permitted_sampleOps created) reached
  simp only [Prod.mk.injEq] at values
  exact ⟨s', isRun, reachable, values⟩

theorem run_refines_text_sample :
    ∃ s s', create 0 sampleChunks .crlf true = some s ∧ run Operation.step s sampleOps = some s' ∧
      s'.getLinesRawContent = [CR, LF, 98, 99, CR, LF] := by
  obtain ⟨s, created, refines⟩ := run_refines_text 0 initialChunks_sample
  obtain ⟨s', reached, text⟩ := refines sampleOps (permitted_sampleOps created)
  exact ⟨s, s', created, reached, text⟩

/-! ## The representation invariant -/

/-- What every state promises about its nodes and totals. -/
structure Consistent (s : PieceTreeBase) : Prop where
  /-- `size_left` and `lf_left` are the totals of the left subtrees. -/
  metadata : MetadataOk s.root
  length : ∀ n ∈ s.root.inorder,
    n.piece.length = (s.getPieceContent n.piece).length
  lineFeedCnt : ∀ n ∈ s.root.inorder,
    n.piece.lineFeedCnt = (lineBreaks (s.getPieceContent n.piece)).length
  nonempty : ∀ n ∈ s.root.inorder, n.piece.length ≠ 0
  totalLength : s.length = s.getLinesRawContent.length
  lineCnt : s.lineCnt = 1 + (lineBreaks s.getLinesRawContent).length
  /-- No `\r\n` is cut between two nodes. -/
  joined : s.shouldCheckCRLF = true → ∀ before node next after,
    s.root.inorder = before ++ node :: next :: after →
    ¬(endsWithCR (s.getPieceContent node.piece) = true ∧
      startsWithLF (s.getPieceContent next.piece) = true)

/-- A cut between two entries does not go through a `\r\n`. -/
theorem Inv.joined {before after : List TreeNode} {node next : TreeNode} (inv : Inv s es)
    (order : s.root.inorder = before ++ node :: next :: after) :
    splitsCRLF (s.getPieceContent node.piece) (s.getPieceContent next.piece) = false := by
  have split : es = before.map entry ++ entry node :: entry next :: after.map entry := by
    rw [← inv.rep.holds.entries_eq, entries, order]
    simp
  have whole := inv.whole
  have nonempty := inv.nonempty
  rw [split, parts_append, parts_cons, parts_cons] at whole nonempty
  simp only [mem_append, mem_cons, not_or] at nonempty
  have joint := (whole_append.mp whole).2.1.1
  rwa [flatten_cons, splitsCRLF_append_right _ _ (fun empty => nonempty.2.2.1 empty.symm)] at joint

/-- Every reachable state is consistent. -/
theorem reachable_consistent (reachable : Reachable s) : Consistent s := by
  have represents := reachable.represents
  obtain ⟨es, inv, text, -⟩ := reachable.represents
  have member : ∀ n ∈ s.root.inorder, entry n ∈ es := by
    intro n inside
    rw [← inv.rep.holds.entries_eq]
    exact mem_map.mpr ⟨n, inside, rfl⟩
  have lengths : ∀ n ∈ s.root.inorder,
      n.piece.length = (contentOf s.buffers n.piece).length := by
    intro n inside
    exact ((inv.rep.pieces _ (member n inside)).length_content inv.rep.buffers).symm
  have nonempty : ∀ n ∈ s.root.inorder, n.piece.length ≠ 0 := by
    intro n inside zero
    rw [lengths n inside, length_eq_zero_iff] at zero
    exact inv.nonempty (mem_map.mpr ⟨_, member n inside, zero⟩)
  refine ⟨inv.rep.holds.metadata, lengths, ?_, nonempty, represents.getLength,
    represents.getLineCount, ?_⟩
  · intro n inside
    rw [length_lineBreaks]
    exact (inv.rep.pieces _ (member n inside)).lineFeedCnt_eq inv.rep.buffers
      (nonempty n inside)
  · intro _ before node next after order both
    have joint := inv.joined order
    rw [splitsCRLF, both.1, both.2] at joint
    exact absurd joint (by simp)

theorem reachable_consistent_sample : ∃ s, sampleRun = some s ∧ Consistent s := by
  obtain ⟨s, isRun, reachable, -⟩ := reachable_sampleRun
  exact ⟨s, isRun, reachable_consistent reachable⟩

/-! ## Reading lines -/

/-- In every reachable state whose end-of-line flag is true to the text, both
line readers return the lines of the text. -/
theorem reachable_reads_lines (reachable : Reachable s)
    (flag : s.eolNormalized = true → AllBreaksAre s.eol s.getLinesRawContent) (n : Nat)
    (first : 1 ≤ n) (last : n ≤ s.getLineCount) : ∃ line, (s.getLineContent n).1 = line ∧
      s.getLinesContent[n - 1]? = some line ∧
      (splitLines s.getLinesRawContent)[n - 1]? = some line := by
  have represents := reachable.represents
  have count := represents.getLineCount
  obtain ⟨es, inv, text, visited⟩ := represents
  rw [← text] at flag visited count ⊢
  obtain ⟨line, here⟩ : ∃ line,
      (splitLines (textOf s.buffers es))[n - 1]? = some line :=
    ⟨_, getElem?_eq_getElem (by
      rw [length_splitLines, ← length_lineBreaks]
      omega)⟩
  obtain ⟨value, cache, remembered, read, -, -, valueEq⟩ :=
    inv.getLineContent visited n
  refine ⟨line, ?_, ?_, here⟩
  · rw [read]
    exact valueEq (n - 1) line (by omega) here flag
  · rw [inv.getLinesContent flag, here]

theorem reachable_reads_lines_sample :
    ∃ s, sampleRun = some s ∧ ∃ line, (s.getLineContent (2 : Nat)).1 = line ∧
      s.getLinesContent[2 - 1]? = some line ∧
      (splitLines s.getLinesRawContent)[2 - 1]? = some line := by
  obtain ⟨s, isRun, reachable, eol, count, text⟩ := reachable_sampleRun
  refine ⟨s, isRun, reachable_reads_lines reachable (fun _ => ?_) 2 (by decide) (by omega)⟩
  rw [eol, text]
  intro lineBreak member
  revert lineBreak
  decide

/-- The chunk `a\r\nb` after the deletion of its `\n`: the flag stays set. -/
theorem flag_outlives_delete : ((create 0 [⟨[97, CR, LF, 98], [0, 3]⟩] .crlf true).bind
      (·.delete 2 1)).map (fun s => (s.getLineCount, (s.getLineContent 1).1,
        (splitLines s.getLinesRawContent)[0]?)) = some (2, [], some [97]) := by
  decide +kernel

theorem initialChunks_crlf : InitialChunks [⟨[97, CR, LF, 98], [0, 3]⟩] .crlf true := by
  refine ⟨by decide, by decide, by simp [Whole, splitsCRLF], ?_⟩
  intro _ lineBreak member
  revert lineBreak
  decide

/-- Without the condition on the flag the readers disagree with the text. -/
theorem reads_lines_without_flag :
    ¬∀ s, Reachable s → ∀ n : Nat, 1 ≤ n → n ≤ s.getLineCount →
      ∃ line, (s.getLineContent n).1 = line ∧
        s.getLinesContent[n - 1]? = some line ∧
        (splitLines s.getLinesRawContent)[n - 1]? = some line := by
  intro always
  obtain ⟨s, created, represents, -⟩ := create_represents 0 initialChunks_crlf
  have length : s.getLength = 4 := represents.getLength
  have permitted : Operation.Permitted s (.delete 2 1) := by
    rw [Operation.Permitted, length]
    omega
  obtain ⟨s', deleted, -⟩ := represents.step permitted
  have reachable := (Reachable.create initialChunks_crlf created).step permitted deleted
  have facts := flag_outlives_delete
  rw [created, bind_some, show s.delete 2 1 = some s' from deleted,
    map_some, Option.some.injEq, Prod.mk.injEq, Prod.mk.injEq] at facts
  obtain ⟨count, content, text⟩ := facts
  obtain ⟨line, read, -, here⟩ := always s' reachable 1 le_rfl (by omega)
  rw [show (1 : Nat) - 1 = 0 from rfl, text, Option.some.injEq] at here
  have same := read.symm.trans content
  rw [← here] at same
  exact absurd same (by decide)

/-! ## Offsets and positions -/

/-- In every reachable state an offset survives the way through its position,
also inside a `\r\n`; a position on a line survives the way through its
offset; and the line of an offset counts the breaks that end at or before it. -/
theorem reachable_positions_inverse (reachable : Reachable s) : (∀ offset ≤ s.getLength,
      s.getOffsetAt (s.getPositionAt offset).lineNumber
        (s.getPositionAt offset).column = offset) ∧
    (∀ (n : Nat) (line : Text) (column : Nat),
      (splitLines s.getLinesRawContent)[n]? = some line →
      1 ≤ column → column ≤ line.length + 1 →
      s.getPositionAt (s.getOffsetAt (n + 1) column) = ⟨n + 1, column⟩) ∧
    (∀ offset ≤ s.getLength,
      (s.getPositionAt offset).lineNumber =
        1 + (endsUpTo s.getLinesRawContent offset).length) := by
  have represents := reachable.represents
  rw [represents.getLength]
  obtain ⟨es, inv, text, -⟩ := represents
  rw [← text]
  refine ⟨fun offset bounded => ?_, fun n line column here first last => ?_,
    fun offset bounded => ?_⟩
  · rw [inv.getPositionAt bounded]
    have below := lineStart_le (textOf s.buffers es) offset
    have present : es ≠ [] ∨
        ((offset : Int) - lineStart (textOf s.buffers es) offset + 1) = 1 := by
      by_cases empty : es = []
      · subst empty
        have zero : offset = 0 := by simpa using bounded
        exact .inr (by omega)
      · exact .inl empty
    rw [inv.getOffsetAt (lineStartsOf_getElem?_lineIndex _ offset) present]
    omega
  · obtain ⟨front, back, lineAt⟩ := lineAt_of_getElem? here
    have total := congrArg List.length lineAt.text_eq
    simp only [length_append] at total
    have present : es ≠ [] ∨ (column : Int) = 1 := by
      by_cases empty : es = []
      · subst empty
        rw [textOf_nil, length_nil] at total
        exact .inr (by omega)
      · exact .inl empty
    have index : lineIndex (textOf s.buffers es) (front.length + (column - 1)) = n := by
      refine lineIndex_eq_of_bounds lineAt.start (by omega) fun next nextHere => ?_
      rcases lineAt.next with ⟨-, isLast⟩ | ⟨lineBreak, rest, -, isBreak, behind⟩
      · have bound := lineStartsOf_isSome nextHere
        omega
      · have positive : 0 < lineBreak.length := by
          rcases mem_lineBreaks (mem_of_getElem? isBreak) with rfl | rfl | rfl <;>
            simp
        rw [behind, Option.some.injEq] at nextHere
        omega
    have start : lineStart (textOf s.buffers es) (front.length + (column - 1)) =
        front.length := by
      have own := lineStartsOf_getElem?_lineIndex (textOf s.buffers es)
        (front.length + (column - 1))
      rw [index, lineAt.start, Option.some.injEq] at own
      exact own.symm
    rw [inv.getOffsetAt lineAt.start present,
      show ((front.length : Int) + ((column : Int) - 1)) =
        ((front.length + (column - 1) : Nat) : Int) by omega,
      inv.getPositionAt (by omega), index, start]
    simp only [Position.mk.injEq, true_and]
    omega
  · rw [inv.getPositionAt bounded, lineIndex]
    simp only
    omega

theorem reachable_positions_inverse_sample :
    ∃ s, sampleRun = some s ∧ ∀ offset ≤ s.getLength,
      s.getOffsetAt (s.getPositionAt offset).lineNumber (s.getPositionAt offset).column =
        offset := by
  obtain ⟨s, isRun, reachable, -⟩ := reachable_sampleRun
  exact ⟨s, isRun, (reachable_positions_inverse reachable).1⟩

/-!
## Snapshots

A snapshot keeps the pieces and reads them from the buffers of the live tree.
As long as the buffers only grow, and none of their line starts is taken back,
the pieces spell what they spelled when the snapshot was made.
-/

section

variable {s s' : PieceTreeBase} {text : Text}

/-- Reading from a piece on returns the contents of the remaining pieces. -/
theorem readToEnd_from {pieces : List Piece} {BOM : Text} {index fuel : Nat}
    (later : index ≠ 0) (nonempty : pieces ≠ [])
    (enough : pieces.length < index + fuel) :
    Snapshot.readToEnd s fuel ⟨pieces, index, BOM⟩ =
      (pieces.drop index).flatMap s.getPieceContent := by
  induction fuel generalizing index with
  | zero =>
    rw [List.drop_eq_nil_of_le (by omega)]
    rfl
  | succ fuel ih =>
    have some : ¬pieces.length = 0 := fun none =>
      nonempty (List.eq_nil_of_length_eq_zero none)
    rw [Snapshot.readToEnd, Snapshot.read]
    simp only [if_neg some, if_neg later]
    cases here : pieces[index]? with
    | none =>
      rw [List.getElem?_eq_none_iff] at here
      rw [List.drop_eq_nil_of_le here]
      rfl
    | some piece =>
      simp only
      obtain ⟨inside, rfl⟩ := List.getElem?_eq_some_iff.mp here
      rw [ih (succ_ne_zero index) (by omega), List.drop_eq_getElem_cons inside]
      rfl

/-- Reading a snapshot to its end. -/
theorem readToEnd_eq {pieces : List Piece} {BOM : Text} {fuel : Nat}
    (enough : pieces.length < fuel) :
    Snapshot.readToEnd s fuel ⟨pieces, 0, BOM⟩ = BOM ++ pieces.flatMap s.getPieceContent := by
  obtain ⟨fuel, rfl⟩ := Nat.exists_eq_succ_of_ne_zero (Nat.ne_zero_of_lt enough)
  cases pieces with
  | nil =>
    cases fuel with
    | zero => simp [Snapshot.readToEnd, Snapshot.read]
    | succ fuel => simp [Snapshot.readToEnd, Snapshot.read]
  | cons piece pieces =>
    rw [Snapshot.readToEnd, Snapshot.read]
    simp only [length_cons, Nat.succ_ne_zero, if_false, if_true, getElem?_cons_zero]
    rw [readToEnd_from (Nat.succ_ne_zero 0) (by simp) (by
      omega)]
    simp

/-- The permitted operations that leave the cursors of a snapshot alone. -/
def Operation.Isolated (s : PieceTreeBase) (op : Operation) : Prop :=
  op.Permitted s ∧ op.KeepsCursors s

/-- A snapshot of a reachable state reads the same after any run of operations
that leave its cursors alone. -/
theorem snapshot_isolated {ops : List Operation} (reachable : Reachable s)
    (isolated : PermittedRun Operation.step Operation.Isolated s ops)
    (BOM : Text) {fuel : Nat} (enough : s.root.inorder.length < fuel) :
    ∃ s', run Operation.step s ops = some s' ∧
      (createSnapshot s BOM).readToEnd s' fuel = BOM ++ s.getLinesRawContent := by
  have represents := reachable.represents
  obtain ⟨es, inv, -, -⟩ := reachable.represents
  have simulates : ∀ current text (op : Operation),
      Represents current text ∧ Extends s.buffers current.buffers →
      op.Isolated current → ∃ next, op.step current = some next ∧
        Represents next (op.onText text) ∧ Extends s.buffers next.buffers := by
    rintro current text op ⟨represents, grown⟩ ⟨permitted, keeps⟩
    obtain ⟨next, taken, represents', grown'⟩ := represents.step permitted
    exact ⟨next, taken, represents', grown.trans (grown' keeps)⟩
  obtain ⟨s', reached, ⟨es', inv', -, -⟩, grown⟩ :=
    run_simulates simulates ⟨represents, .refl s.buffers⟩ isolated
  refine ⟨s', reached, ?_⟩
  rw [createSnapshot, readToEnd_eq (by simpa using enough), flatMap_map,
    PieceTreeBase.getLinesRawContent, flatMap_def, flatMap_def]
  congr 2
  refine map_congr_left fun n member => ?_
  have pieceOk : PieceOk s.buffers (entry n).2 := inv.rep.pieces _ (by
    rw [← inv.rep.holds.entries_eq]
    exact mem_map.mpr ⟨n, member, rfl⟩)
  exact pieceOk.contentOf_extend grown inv.rep.buffers inv'.rep.buffers

end

theorem snapshot_isolated_sample :
    ∃ s, create 0 sampleChunks .crlf true = some s ∧
      ∃ s', run Operation.step s [.insert 1 [99] true] = some s' ∧
        (createSnapshot s []).readToEnd s' (s.root.inorder.length + 1) =
          [] ++ s.getLinesRawContent := by
  obtain ⟨s, created, represents, sameEOL⟩ := create_represents 0 initialChunks_sample
  have isolated : PermittedRun Operation.step Operation.Isolated s
      [.insert 1 [99] true] := by
    refine ⟨⟨⟨by simp, ?_, ?_⟩, ?_⟩, fun _ _ => trivial⟩
    · rw [represents.getLength]
      decide
    · intro _
      rw [sameEOL]
      intro lineBreak member
      revert lineBreak
      decide
    · rintro ⟨before, n, after, -, -, -, -, -, -, startsLF⟩
      exact absurd startsLF (by decide)
  exact ⟨s, created, snapshot_isolated (.create initialChunks_sample created)
    isolated [] (lt_succ_self _)⟩

/-- The document `a\r\nb` read from a snapshot after the line breaks were
changed to `\n`. -/
theorem snapshot_reads_new_buffers :
    (create 0 [⟨[97, CR, LF, 98], [0, 3]⟩] .crlf true).bind (fun s =>
      (s.setEOL .lf).map fun s' =>
        (s.root.inorder.length, (createSnapshot s []).readToEnd s' 2)) =
      some (1, [97, LF, 98]) := by
  decide +kernel

/-- A change of the end of line shows through a snapshot. -/
theorem snapshot_not_isolated :
    ¬∀ s, Reachable s → ∀ ops,
      PermittedRun Operation.step Operation.Permitted s ops → ∀ BOM fuel,
      s.root.inorder.length < fuel → ∃ s', run Operation.step s ops = some s' ∧
        (createSnapshot s BOM).readToEnd s' fuel = BOM ++ s.getLinesRawContent := by
  intro always
  obtain ⟨s, created, represents, -⟩ := create_represents 0 initialChunks_crlf
  obtain ⟨s', changed, -⟩ := represents.step
    (show Operation.Permitted s (.setEOL .lf) from trivial)
  have facts := snapshot_reads_new_buffers
  rw [created, bind_some, show s.setEOL .lf = some s' from changed,
    map_some, Option.some.injEq, Prod.mk.injEq] at facts
  obtain ⟨s'', reached, same⟩ := always s (.create initialChunks_crlf created) [.setEOL .lf]
    ⟨trivial, fun _ _ => trivial⟩ [] 2 (by omega)
  obtain rfl : s' = s'' := by
    simpa [run, changed] using reached
  rw [facts.2, represents.getLinesRawContent] at same
  exact absurd same (by decide)

end CodeEditor.PieceTree
