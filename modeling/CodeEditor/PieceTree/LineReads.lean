import CodeEditor.PieceTree.Positions

/-!
# Reading lines

`getLineContent` and `getLinesContent` read the lines of the document, whatever
the search cache holds.
-/

namespace CodeEditor.PieceTree

open PieceTreeBase List Option Nat

/-! ## Reading from a node on -/

section Raw

variable {s : PieceTreeBase} {p : Piece} {after : List Entry} {endOffset : Nat}

/-- `substring` of the buffer of a piece is a part of its content. -/
theorem PieceOk.pieceSubstring (pieceOk : PieceOk s.buffers p)
    (ok : BuffersOk s.buffers) {a b : Nat} (ordered : a ≤ b)
    (bounded : b ≤ p.length) :
    s.pieceSubstring p a b = ((contentOf s.buffers p).take b).drop a := by
  obtain ⟨first, last, denotes⟩ := pieceOk
  have length := denotes.length
  have pieceOrdered := denotes.ordered
  have startOffset : s.offsetInBuffer p.bufferIndex p.start = first :=
    denotes.startOffset ok
  simp only [PieceTreeBase.pieceSubstring, startOffset]
  rw [show ((first : Int) + a).toNat = first + a by omega,
    show ((first : Int) + b).toNat = first + b by omega, denotes.content ok,
    ← substring_take _ (by omega : first + b ≤ last), ← substring_drop _ (by omega)]
  rfl

theorem PieceOk.substr (pieceOk : PieceOk s.buffers p) (ok : BuffersOk s.buffers) :
    CodeEditor.substr (s.bufferAt p.bufferIndex).buffer
      (s.offsetInBuffer p.bufferIndex p.start) p.length = contentOf s.buffers p := by
  obtain ⟨first, last, denotes⟩ := pieceOk
  have length := denotes.length
  have ordered := denotes.ordered
  have startOffset : s.offsetInBuffer p.bufferIndex p.start = first :=
    denotes.startOffset ok
  rw [startOffset, CodeEditor.substr, denotes.content ok,
    substring_of_le _ ordered, drop_take, length]
  rfl

/-- The first break is at least `endOffset` long. -/
def ShortEnough (endOffset : Nat) (text : Text) : Prop :=
  ∀ lineBreak, (lineBreaks text).head? = some lineBreak →
    endOffset ≤ lineBreak.length

theorem ShortEnough.stop {text : Text} (short : ShortEnough endOffset text)
    {stop : Nat} (ends : (breakEnds text).head? = some stop) :
    endOffset ≤ stop := by
  have some : lineBreaks text ≠ [] := by
    intro none
    have zero := length_lineBreaks text
    rw [none, breakCount] at zero
    rw [eq_nil_of_length_eq_zero zero.symm] at ends
    simp at ends
  obtain ⟨lineBreak, rest, equal⟩ := exists_cons_of_ne_nil some
  have here : (lineBreaks text).head? = .some lineBreak := by rw [equal]; rfl
  exact (short lineBreak here).trans (length_le_of_head here ends)

/-- The first break of a piece is the first one of the text from there. -/
theorem PieceOk.firstBreak {rest : Text} (pieceOk : PieceOk s.buffers p) (ok : BuffersOk s.buffers)
    (some : 0 < breakCount (contentOf s.buffers p))
    (joint : splitsCRLF (contentOf s.buffers p) rest = false) :
    ∃ stop, s.getAccumulatedValue p 0 = stop ∧ stop ≤ (contentOf s.buffers p).length ∧
      (breakEnds (contentOf s.buffers p)).head? = .some stop ∧
      (breakEnds (contentOf s.buffers p ++ rest)).head? = .some stop := by
  obtain ⟨stop, more, equal⟩ := exists_cons_of_ne_nil (length_pos_iff.mp some)
  have first : (breakEnds (contentOf s.buffers p)).head? = .some stop := by
    rw [equal]
    rfl
  refine ⟨stop, pieceOk.getAccumulatedValue ok (show
      (breakEnds (contentOf s.buffers p))[0]? = .some stop by rw [equal]; rfl),
    (mem_endsUpTo.mp (mem_of_mem_head? first)).1, first, ?_⟩
  rw [breakEnds_append_of_not_splits joint, head?_append, first]
  rfl

/-- The walk of `getLineRawContent` reads up to the end of the line. -/
theorem lineWalk_eq {nodes : List TreeNode} (sound : Sound s.buffers (nodes.map entry))
    (short : ShortEnough endOffset (textOf s.buffers (nodes.map entry))) :
    s.lineWalk endOffset nodes = firstLine endOffset (textOf s.buffers (nodes.map entry)) := by
  induction nodes with
  | nil => rfl
  | cons x nodes ih =>
    obtain ⟨rest, pieceOk, -, lengthEq, count, joint⟩ := sound.cons
    simp only [map_cons, textOf_cons, entry] at short ⊢
    unfold PieceTreeBase.lineWalk
    split
    · rename_i some
      obtain ⟨stop, value, bounded, first, ends⟩ := pieceOk.firstBreak sound.ok (count ▸ some) joint
      have enough := short.stop ends
      have part := pieceOk.pieceSubstring sound.ok (zero_le (stop - endOffset)) (by omega)
      simp only [value]
      rw [firstLine_append_of_break _ first joint,
        show ((stop : Int) - endOffset) = ((stop - endOffset : Nat) : Int) by omega]
      simpa using part
    · rename_i none
      have zero : breakCount (contentOf s.buffers x.piece) = 0 := by omega
      have noBreaks : lineBreaks (contentOf s.buffers x.piece) = [] :=
        eq_nil_of_length_eq_zero (by rw [length_lineBreaks, zero])
      have shortRest : ShortEnough endOffset (textOf s.buffers (nodes.map entry)) := by
        intro lineBreak here
        refine short lineBreak ?_
        rw [lineBreaks_append joint, noBreaks, nil_append, here]
      rw [firstLine_append_of_no_break zero fun stop => shortRest.stop,
        ih rest shortRest, pieceOk.substr sound.ok]

/-- A line that starts in a piece and runs over its end. -/
theorem Sound.spill {id : Nat} {nodes : List TreeNode} {k start : Nat}
    (sound : Sound s.buffers ((id, p) :: nodes.map entry))
    (here : (lineStartsOf (contentOf s.buffers p))[k]? = some start)
    (last : k = p.lineFeedCnt)
    (short : ShortEnough endOffset
      ((contentOf s.buffers p ++ textOf s.buffers (nodes.map entry)).drop start)) :
    s.pieceSubstring p start p.length ++ s.lineWalk endOffset nodes = firstLine endOffset
        ((contentOf s.buffers p ++ textOf s.buffers (nodes.map entry)).drop start) := by
  obtain ⟨rest, pieceOk, -, lengthEq, count, joint⟩ := sound.cons
  obtain ⟨bounded, startJoint, startCount⟩ := lineStart_split here
  have zero : breakCount ((contentOf s.buffers p).drop start) = 0 := by
    have total := breakCount_append_of_not_splits startJoint
    rw [take_append_drop] at total
    omega
  have noBreaks : lineBreaks ((contentOf s.buffers p).drop start) = [] :=
    eq_nil_of_length_eq_zero (by rw [length_lineBreaks, zero])
  rw [drop_append_of_le_length bounded] at short ⊢
  have shortRest : ShortEnough endOffset (textOf s.buffers (nodes.map entry)) := by
    intro lineBreak first
    refine short lineBreak ?_
    rw [lineBreaks_append (splitsCRLF_drop_left start joint), noBreaks, nil_append, first]
  rw [firstLine_append_of_no_break zero fun stop => shortRest.stop,
    lineWalk_eq rest shortRest, pieceOk.pieceSubstring sound.ok (by omega) le_rfl,
    ← lengthEq, take_length]

/-- A line that starts and ends in a piece. -/
theorem Sound.inside {id : Nat} {k start next : Nat} (sound : Sound s.buffers ((id, p) :: after))
    (here : (lineStartsOf (contentOf s.buffers p))[k]? = some start)
    (nextHere : (lineStartsOf (contentOf s.buffers p))[k + 1]? = some next)
    (short : ShortEnough endOffset ((contentOf s.buffers p ++ textOf s.buffers after).drop start)) :
    s.pieceSubstring p start ((next : Int) - endOffset) = firstLine endOffset
        ((contentOf s.buffers p ++ textOf s.buffers after).drop start) := by
  obtain ⟨-, pieceOk, -, lengthEq, -, joint⟩ := sound.cons
  obtain ⟨bounded, -, -⟩ := lineStart_split here
  obtain ⟨nextBounded, -, -⟩ := lineStart_split nextHere
  have increasing := lineStartsOf_strictMono here nextHere (lt_succ_self k)
  have dropJoint := splitsCRLF_drop_left start joint
  have first := breakEnds_drop_lineStart here
  rw [nextHere, map_some] at first
  rw [drop_append_of_le_length bounded] at short ⊢
  have ends : (breakEnds ((contentOf s.buffers p).drop start ++
      textOf s.buffers after)).head? = some (next - start) := by
    rw [breakEnds_append_of_not_splits dropJoint, head?_append, first]
    rfl
  have enough := short.stop ends
  rw [firstLine_append_of_break _ first dropJoint,
    show ((next : Int) - endOffset) = ((next - endOffset : Nat) : Int) by omega,
    pieceOk.pieceSubstring sound.ok (by omega) (by omega), drop_take]
  congr 1
  omega

end Raw

/-! ## Finding the line -/

section Find

variable {s : PieceTreeBase} {es : List Entry} {endOffset : Nat}

/-- The start of a line, seen from the piece it starts in. -/
structure StartsIn (s : PieceTreeBase) (es : List Entry) (start : Nat)
    (before : List Entry) (id : Nat) (p : Piece) (after : List Entry)
    (i position : Nat) : Prop where
  split : es = before ++ (id, p) :: after
  start : start = totalLength before + position
  here : (lineStartsOf (contentOf s.buffers p))[i]? = some position

variable {before after : List Entry}

theorem StartsIn.left {l r : Tree} {x : TreeNode} {start i position : Nat} {id : Nat} {p : Piece}
    (starts : StartsIn s (entries l) start before id p after i position) :
    StartsIn s (entries (.node l x r)) start before id p (after ++ entry x :: entries r) i
      position :=
  ⟨by rw [entries_node, starts.split]; simp, starts.start, starts.here⟩

theorem StartsIn.right {x : TreeNode} {start i position : Nat} {id : Nat}
    (size : x.sizeLeft = totalLength (entries l))
    (starts : StartsIn s (entries r) start before id p after i position) :
    StartsIn s (entries (.node l x r)) (x.sizeLeft + (x.piece.length + start))
      (entries l ++ entry x :: before) id p after i position := by
  refine ⟨by rw [entries_node, starts.split]; simp, ?_, starts.here⟩
  have startEq := starts.start
  simp only [totalLength_append, totalLength_cons, entry]
  omega

/-- How the descent of `getLineRawContent` ends for a line of the document. -/
theorem lineDescent_spec {t : Tree} {k start : Nat} {original nodeStart : Int}
    (present : t ≠ .leaf) (sound : Sound s.buffers (entries t))
    (metadata : MetadataOk t)
    (here : (lineStartsOf (textOf s.buffers (entries t)))[k]? = some start) :
    ∃ before id p after i position, StartsIn s (entries t) start before id p after i position ∧
      (i = p.lineFeedCnt ∧ s.lineDescent original endOffset t (k + 1) nodeStart =
          .spill id (s.pieceSubstring p position p.length) ∨
      ∃ next c, (lineStartsOf (contentOf s.buffers p))[i + 1]? = some next ∧
        s.lineDescent original endOffset t (k + 1) nodeStart =
          .inside (s.pieceSubstring p position ((next : Int) - endOffset)) c) := by
  refine line_descent (motive := fun t k start => ∀ nodeStart, ∃ before id p after i position,
    StartsIn s (entries t) start before id p after i position ∧
    (i = p.lineFeedCnt ∧ s.lineDescent original endOffset t (k + 1) nodeStart =
        .spill id (s.pieceSubstring p position p.length) ∨
      ∃ next c, (lineStartsOf (contentOf s.buffers p))[i + 1]? = some next ∧
        s.lineDescent original endOffset t (k + 1) nodeStart =
          .inside (s.pieceSubstring p position ((next : Int) - endOffset)) c))
    ?_ ?_ ?_ present sound metadata here nodeStart
  · intro l x r k start leftPresent upTo found nodeStart
    obtain ⟨before, id, p, after, i, position, starts, result⟩ := found nodeStart
    rw [PieceTreeBase.lineDescent, if_pos ⟨leftPresent, by omega⟩]
    exact ⟨before, id, p, _, i, position, starts.left, result⟩
  · intro l x r i position notLeft upTo size pieceOk count here nodeStart
    rw [PieceTreeBase.lineDescent, if_neg (fun both => notLeft ⟨both.1, by omega⟩),
      show ((x.lfLeft + i : Nat) : Int) + 1 - x.lfLeft - 2 = (i : Int) - 1 by omega,
      show ((x.lfLeft + i : Nat) : Int) + 1 - x.lfLeft - 1 = ((i + 1 : Nat) : Int) - 1 by omega,
      pieceOk.lineStart_eq sound.ok here]
    have starts : StartsIn s (entries (.node l x r)) (x.sizeLeft + position) (entries l) x.id
        x.piece (entries r) i position := ⟨entries_node _ _ _, by omega, here⟩
    rcases lt_or_eq_of_le upTo with less | equal
    · obtain ⟨next, nextHere⟩ : ∃ next,
          (lineStartsOf (contentOf s.buffers x.piece))[i + 1]? = some next :=
        ⟨_, getElem?_eq_getElem (by rw [length_lineStartsOf]; omega)⟩
      rw [if_pos (by omega), pieceOk.lineStart_eq sound.ok nextHere]
      exact ⟨_, x.id, x.piece, _, i, position, starts, .inr ⟨next, _, nextHere, rfl⟩⟩
    · rw [if_neg (by omega), if_pos (by omega)]
      exact ⟨_, x.id, x.piece, _, i, position, starts, .inl ⟨equal, rfl⟩⟩
  · intro l x r j start size found nodeStart
    rw [PieceTreeBase.lineDescent, if_neg (fun both => by omega), if_neg (by omega),
      if_neg (by omega), show ((x.lfLeft + (x.piece.lineFeedCnt + j + 1) : Nat) : Int) + 1 -
        (x.lfLeft + x.piece.lineFeedCnt) = ((j + 1 : Nat) : Int) + 1 by omega]
    obtain ⟨before, id, p, after, i, position, starts, result⟩ :=
      found (nodeStart + (x.sizeLeft + x.piece.length))
    exact ⟨_, id, p, after, i, position, starts.right size, result⟩

/-- The text from the start of a line on. -/
theorem StartsIn.drop {start : Nat} {id : Nat}
    (starts : StartsIn s es start before id p after i position) (sound : Sound s.buffers es) :
    (textOf s.buffers es).drop start =
        (contentOf s.buffers p ++ textOf s.buffers after).drop position ∧
      Sound s.buffers ((id, p) :: after) := by
  have whole := sound
  rw [starts.split] at whole ⊢
  obtain ⟨beforeSound, rest, -⟩ := whole.append
  refine ⟨?_, rest⟩
  rw [starts.start, textOf_append, textOf_cons, ← beforeSound.totalLength, drop_length_add_append]

/-- The line is read from the node it starts in. -/
theorem Inv.getLineRawContent_value (inv : Inv s es) (present : es ≠ []) {k start : Nat}
    (here : (lineStartsOf (textOf s.buffers es))[k]? = some start)
    (short : ShortEnough endOffset ((textOf s.buffers es).drop start)) :
    (s.getLineRawContent (k + 1) endOffset).1 =
      firstLine endOffset ((textOf s.buffers es).drop start) := by
  have sound := inv.sound
  have entriesEq := inv.rep.holds.entries_eq
  unfold PieceTreeBase.getLineRawContent
  cases hit : s.cacheGet2 (k + 1) with
  | some result =>
    -- the cached node contains the break before the line
    obtain ⟨nodePos, member, test⟩ := exists_of_findSome?_eq_some hit
    rw [mem_reverse] at member
    obtain ⟨before, p, after, split, cacheAt⟩ := inv.cache nodePos member
    have rep := inv.rep
    rw [split] at rep
    obtain ⟨n, found, nodeId, pieceEq⟩ := rep.node?
    cases lineEq : nodePos.nodeStartLineNumber with
    | none => simp [found, lineEq] at test
    | some line =>
      simp only [found, lineEq, ite_none_right_eq_some, Option.some.injEq] at test
      obtain ⟨⟨-, after_, upTo⟩, rfl, rfl⟩ := test
      have lineNumber := cacheAt.line line lineEq
      rw [split] at sound here short ⊢
      obtain ⟨beforeSound, restSound, joint⟩ := sound.append
      obtain ⟨-, pieceOk, -, -, count, jointRight⟩ := restSound.cons
      rw [textOf_cons] at joint
      have beforeCount := beforeSound.totalLF
      rw [pieceEq] at upTo
      obtain ⟨i, rfl⟩ : ∃ i, k = breakCount (textOf s.buffers before) + (i + 1) :=
        ⟨k - breakCount (textOf s.buffers before) - 1, by omega⟩
      rw [textOf_append, textOf_cons, lineStartsOf_append_add joint (by omega)] at here
      obtain ⟨position, inRest, startEq⟩ := map_eq_some_iff.mp here
      rw [lineStartsOf_append_left jointRight (by omega)] at inRest
      have starts : StartsIn s (before ++ (nodePos.node, p) :: after) start before
          nodePos.node p after (i + 1) position :=
        ⟨rfl, by rw [← startEq, beforeSound.totalLength], inRest⟩
      obtain ⟨dropped, -⟩ := starts.drop sound
      rw [dropped] at short ⊢
      have value := pieceOk.lineStart_eq sound.ok inRest
      simp only [found, pieceEq]
      rw [show ((breakCount (textOf s.buffers before) + (i + 1) : Nat) : Int) + 1 -
        line - 1 = ((i + 1 : Nat) : Int) - 1 by omega, value]
      split
      · rename_i last
        have nodes := rep.holds.nodesAfter
        rw [nodeId]
        rw [← nodes] at restSound short ⊢
        exact restSound.spill inRest (by omega) short
      · rename_i notLast
        obtain ⟨next, nextHere⟩ : ∃ next,
            (lineStartsOf (contentOf s.buffers p))[i + 1 + 1]? = some next :=
          ⟨_, getElem?_eq_getElem (by rw [length_lineStartsOf]; omega)⟩
        have nextValue := pieceOk.lineStart_eq sound.ok nextHere
        rw [show ((breakCount (textOf s.buffers before) + (i + 1) : Nat) : Int) +
          1 - line = ((i + 1 + 1 : Nat) : Int) - 1 by omega, nextValue]
        exact restSound.inside inRest nextHere short
  | none =>
    have rootPresent : s.root ≠ .leaf :=
      fun leaf => present (inv.rep.holds.eq_leaf_iff.mp leaf)
    rw [← entriesEq] at here
    obtain ⟨before, id, p, after, i, position, starts, result⟩ :=
      @lineDescent_spec s endOffset s.root k start (k + 1) 0 rootPresent
        (entriesEq ▸ sound) inv.rep.holds.metadata here
    rw [entriesEq] at starts
    obtain ⟨dropped, restSound⟩ := starts.drop sound
    rw [dropped] at short ⊢
    rcases result with ⟨last, found⟩ | ⟨next, c, nextHere, found⟩
    · have rep := inv.rep
      rw [starts.split] at rep
      have nodes := rep.holds.nodesAfter
      rw [← nodes] at restSound short ⊢
      simp only [found]
      exact restSound.spill starts.here last short
    · simp only [found]
      exact restSound.inside starts.here nextHere short

end Find

/-! ## `getLineContent` -/

section Line

variable {s : PieceTreeBase} {es : List Entry}

/-- The end-of-line flag tells the truth about the text. -/
def FlagHolds (s : PieceTreeBase) (text : Text) : Prop :=
  s.eolNormalized = true → AllBreaksAre s.eol text

/-- The line remembered last is right, as long as the flag is. -/
def VisitedOk (s : PieceTreeBase) (text : Text) : Prop :=
  ∀ k line, s.lastVisitedLine.lineNumber = (k : Nat) + 1 →
    (splitLines text)[k]? = some line → FlagHolds s text →
    s.lastVisitedLine.value = line

/-- What `getLineContent` computes before it looks at the line read last. -/
theorem Inv.getLineContent_fresh (inv : Inv s es) {k : Nat}
    (here : (splitLines (textOf s.buffers es))[k]? = some line)
    (flag : FlagHolds s (textOf s.buffers es)) :
    (if ((k : Int) + 1) = s.lineCnt then (s.getLineRawContent (k + 1) 0).1
      else if s.eolNormalized then
        (s.getLineRawContent (k + 1) s.eol.text.length).1
      else stripEOL (s.getLineRawContent (k + 1) 0).1) = line := by
  obtain ⟨front, back, lineAt⟩ := lineAt_of_getElem? here
  have lineCnt : s.lineCnt = breakCount (textOf s.buffers es) + 1 := by
    rw [inv.lineCnt, inv.sound.totalLF]
  by_cases empty : es = []
  · subst empty
    have leaf : s.root = .leaf := inv.rep.holds.eq_leaf_iff.mpr rfl
    have noCache : s.searchCache = [] := by
      rw [List.eq_nil_iff_forall_not_mem]
      intro c member
      obtain ⟨before, p, after, split, -⟩ := inv.cache c member
      simp at split
    have zero : k = 0 := by
      have := lineStartsOf_isSome lineAt.start
      simpa [breakCount, breakEnds] using this
    subst zero
    have none : s.cacheGet2 1 = none := by
      simp [cacheGet2, noCache]
    have raw : (s.getLineRawContent (((0 : Nat) : Int) + 1) 0).1 = [] := by
      simp [PieceTreeBase.getLineRawContent, none, leaf, lineDescent]
    have lineEmpty : line = [] := by simpa [splitLines] using here.symm
    rw [if_pos (by rw [lineCnt]; simp [breakCount, breakEnds]), raw, lineEmpty]
  · rcases lineAt.next with ⟨rfl, last⟩ | ⟨lineBreak, rest, rfl, isBreak, next⟩
    · rw [if_pos (by omega), inv.getLineRawContent_value empty lineAt.start
        (fun _ _ => Nat.zero_le _)]
      exact lineAt.firstLine_last last
    · have notLast : k < breakCount (textOf s.buffers es) := by
        have bound := (List.getElem?_eq_some_iff.mp isBreak).1
        rwa [length_lineBreaks] at bound
      rw [if_neg (by omega)]
      have member := List.mem_of_getElem? isBreak
      split
      · rename_i normalized
        have eolEq : lineBreak = s.eol.text := flag normalized lineBreak member
        rw [inv.getLineRawContent_value empty lineAt.start ?_, lineAt.firstLine_break next, eolEq]
        · simp
        · intro other first
          rw [lineBreaks_drop_lineStart lineAt.start, isBreak, Option.some.injEq] at first
          rw [← first, eolEq]
      · rw [inv.getLineRawContent_value empty lineAt.start
          (fun _ _ => Nat.zero_le _), lineAt.firstLine_break next, Nat.sub_zero,
          ← List.length_append, List.take_length]
        exact stripEOL_line lineAt.plain (mem_lineBreaks member)

/-- `getLineContent` keeps the invariant and remembers a right line. -/
theorem Inv.getLineContent (inv : Inv s es) (visited : VisitedOk s (textOf s.buffers es))
    (lineNumber : Int) :
    ∃ value cache line, s.getLineContent lineNumber =
        (value, { s with searchCache := cache, lastVisitedLine := line }) ∧
      Inv { s with searchCache := cache, lastVisitedLine := line } es ∧
      VisitedOk { s with searchCache := cache, lastVisitedLine := line } (textOf s.buffers es) ∧
      ∀ k text, lineNumber = (k : Nat) + 1 → (splitLines (textOf s.buffers es))[k]? = some text →
        FlagHolds s (textOf s.buffers es) → value = text := by
  unfold PieceTreeBase.getLineContent
  by_cases same : s.lastVisitedLine.lineNumber = lineNumber
  · rw [if_pos same]
    refine ⟨s.lastVisitedLine.value, s.searchCache, s.lastVisitedLine, rfl, inv,
      visited, fun k text equal here flag => ?_⟩
    exact visited k text (same.trans equal) here flag
  · rw [if_neg same]
    obtain ⟨raw, cache, read, inv'⟩ := inv.getLineRawContent lineNumber 0
    obtain ⟨raw', cache', read', inv''⟩ :=
      inv.getLineRawContent lineNumber s.eol.text.length
    -- the value is the fresh one, and the cache one of the two
    obtain ⟨value, final, computed, finalInv, fresh⟩ : ∃ value final,
        (if lineNumber = s.lineCnt then s.getLineRawContent lineNumber 0
          else if s.eolNormalized then
            s.getLineRawContent lineNumber s.eol.text.length
          else (stripEOL (s.getLineRawContent lineNumber 0).1,
            (s.getLineRawContent lineNumber 0).2)) =
          (value, { s with searchCache := final }) ∧
        Inv { s with searchCache := final } es ∧
        ∀ k : Nat, lineNumber = k + 1 → value = (if ((k : Int) + 1) = s.lineCnt then
              (s.getLineRawContent (k + 1) 0).1
            else if s.eolNormalized then
              (s.getLineRawContent (k + 1) s.eol.text.length).1
            else stripEOL (s.getLineRawContent (k + 1) 0).1) := by
      rw [read, read']
      split
      · rename_i last
        refine ⟨raw, cache, rfl, inv', ?_⟩
        rintro k rfl
        rw [if_pos last, read]
      · rename_i notLast
        split
        · refine ⟨raw', cache', rfl, inv'', ?_⟩
          rintro k rfl
          rw [if_neg notLast, read']
        · refine ⟨stripEOL raw, cache, rfl, inv', ?_⟩
          rintro k rfl
          rw [if_neg notLast, read]
    have valueEq : ∀ k text, lineNumber = (k : Nat) + 1 →
        (splitLines (textOf s.buffers es))[k]? = some text →
        FlagHolds s (textOf s.buffers es) → value = text := by
      intro k text equal here flag
      rw [fresh k equal]
      exact inv.getLineContent_fresh here flag
    refine ⟨value, final, ⟨lineNumber, value⟩, ?_, finalInv.visited _, ?_, valueEq⟩
    · simp only [computed]
    · intro k text equal here flag
      exact valueEq k text equal here flag

end Line

end CodeEditor.PieceTree
