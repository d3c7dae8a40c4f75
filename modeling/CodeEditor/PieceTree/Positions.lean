import CodeEditor.PieceTree.Create
import CodeEditor.PieceTree.Read
import CodeEditor.Foundation.LineTable

/-!
# What reading changes

The read operations fill the search cache and remember the last line; they keep
the invariant and the document.
-/

namespace CodeEditor.PieceTree

open PieceTreeBase List Nat

variable {s : PieceTreeBase} {es : List Entry}

/-- The entry that the descent of `getLineRawContent` caches is right. -/
theorem lineDescent_cache {endOffset : Nat}
    {lineNumber start : Int} {value : Text} (ok : MetadataOk t)
    (found : s.lineDescent original endOffset t lineNumber start = .inside value c) :
    ∃ before p after, entries t = before ++ (c.node, p) :: after ∧
      c.nodeStartOffset = start + totalLength before ∧
      c.nodeStartLineNumber = some (original - lineNumber + totalLF before + 1) := by
  induction t generalizing lineNumber start with
  | leaf => simp [lineDescent] at found
  | node l x r leftHypothesis rightHypothesis =>
    obtain ⟨size, lf, leftOk, rightOk⟩ := ok
    unfold lineDescent at found
    split at found
    · obtain ⟨before, p, after, split, rest⟩ := leftHypothesis leftOk found
      exact ⟨before, p, after ++ entry x :: entries r, by simp [split], rest⟩
    · split at found
      · simp only [LineDescent.inside.injEq] at found
        obtain ⟨-, rfl⟩ := found
        refine ⟨entries l, x.piece, entries r, by simp [entry], ?_, ?_⟩
        · simp only
          omega
        · simp only [Option.some.injEq]
          omega
      · split at found
        · simp at found
        · obtain ⟨before, p, after, split, startEq, lineEq⟩ :=
            rightHypothesis rightOk found
          refine ⟨entries l ++ entry x :: before, p, after, by simp [split], ?_, ?_⟩
          · simp only [totalLength_append, totalLength_cons, entry]
            omega
          · rw [lineEq]
            simp only [totalLF_append, totalLF_cons, entry, Option.some.injEq]
            omega

/-- `getLineRawContent` changes at most the search cache, and keeps it right. -/
theorem Inv.getLineRawContent (inv : Inv s es) (lineNumber : Int) (endOffset : Nat) :
    ∃ value cache, s.getLineRawContent lineNumber endOffset =
        (value, { s with searchCache := cache }) ∧
      Inv { s with searchCache := cache } es := by
  have unchanged : ∀ value, ∃ value' cache, (value, s) =
      ((value' : Text), { s with searchCache := cache }) ∧
      Inv { s with searchCache := cache } es :=
    fun value => ⟨value, s.searchCache, rfl, inv⟩
  unfold PieceTreeBase.getLineRawContent
  split
  · split
    · exact unchanged _
    · dsimp only
      split <;> exact unchanged _
  · split
    · rename_i value c found
      obtain ⟨before, p, after, split, start, line⟩ :=
        lineDescent_cache inv.rep.holds.metadata found
      rw [inv.rep.holds.entries_eq] at split
      refine ⟨value, [c], by rw [cacheSet_eq inv.cacheLimit], ?_⟩
      refine inv.setCache (by simp) ?_
      have ok : CacheOk es c := by
        refine ⟨before, p, after, split, by omega, fun other same => ?_⟩
        rw [line, Option.some.injEq] at same
        omega
      simpa using ok
    · exact unchanged _
    · exact unchanged _

/-!
## Offsets and positions

What a piece knows about the breaks of its content, and from it the meaning of
`getOffsetAt` and `getPositionAt`.
-/

/-! ## Breaks of a part of a text -/

theorem endsUpTo_part_end (front part back : Text) :
    endsUpTo (front ++ (part ++ back)) (front.length + part.length) =
      endsUpTo (front ++ (part ++ back)) front.length ++
        (if splitsCRLF part back then (breakEnds part).dropLast
          else breakEnds part).map (front.length + ·) := by
  rw [endsUpTo_append_right, endsUpTo_append_joint part back]

/-- A break that ends in a `\r` at the end of the text. -/
theorem getLast?_breakEnds_of_endsWithCR {text : Text} (ends : endsWithCR text = true) :
    (breakEnds text).getLast? = some text.length := by
  obtain ⟨initial, rfl⟩ := endsWithCR_iff.mp ends
  have lineEnd : breakEndsAt (initial ++ [CR]) (initial.length + 1) = true := by
    simp [breakEndsAt_succ]
  rw [breakEnds, length_append, length_singleton, endsUpTo_succ, lineEnd]
  simp

section Piece

variable {s : PieceTreeBase} {p : Piece}

section

variable (pieceOk : PieceOk s.buffers p) (ok : BuffersOk s.buffers)

include pieceOk ok

/-- A piece as a part of its buffer. -/
theorem PieceOk.exists_part : ∃ front back, bufferText s.buffers p.bufferIndex =
        front ++ (contentOf s.buffers p ++ back) ∧
      Denotes s.buffers p front.length (front.length + p.length) := by
  obtain ⟨first, last, denotes⟩ := pieceOk
  have ordered := denotes.ordered
  have bounded := denotes.bounded
  have length := denotes.length
  have content := denotes.content ok
  rw [substring_of_le _ ordered] at content
  refine ⟨(bufferText s.buffers p.bufferIndex).take first,
    (bufferText s.buffers p.bufferIndex).drop last, ?_, ?_⟩
  · rw [content]
    conv_lhs => rw [← take_append_drop last (bufferText s.buffers p.bufferIndex),
      ← take_append_drop first (List.take last _)]
    rw [take_take, min_eq_left ordered, append_assoc]
  · rw [length_take, min_eq_left (by omega), show first + p.length = last by omega]
    exact denotes

/-- `getAccumulatedValue` is the end of a break of the piece. -/
theorem PieceOk.getAccumulatedValue {index position : Nat}
    (here : (breakEnds (contentOf s.buffers p))[index]? = some position) :
    s.getAccumulatedValue p index = position := by
  have lengthEq := pieceOk.length_content ok
  obtain ⟨front, back, textEq, denotes⟩ := pieceOk.exists_part ok
  have bufferOk : BufferOk (s.bufferAt p.bufferIndex) := denotes.bufferOk ok
  have startOffset : (s.bufferAt p.bufferIndex).lineStartAt p.start.line +
      p.start.column = front.length := denotes.startOffset ok
  have stopOffset : (s.bufferAt p.bufferIndex).lineStartAt p.stop.line +
      p.stop.column = front.length + p.length := denotes.stopOffset ok
  have startLine : p.start.line =
      (endsUpTo (front ++ (contentOf s.buffers p ++ back)) front.length).length := by
    rw [denotes.start, textEq]
    rfl
  have ends := endsUpTo_part_end front (contentOf s.buffers p) back
  rw [lengthEq] at ends
  have stopLine : p.stop.line = p.start.line + (if splitsCRLF (contentOf s.buffers p) back
        then (breakEnds (contentOf s.buffers p)).dropLast
        else breakEnds (contentOf s.buffers p)).length := by
    have count := congrArg List.length ends
    rw [List.length_append, List.length_map] at count
    rw [startLine, ← count, denotes.stop, textEq]
    rfl
  have known : index < (breakEnds (contentOf s.buffers p)).length :=
    (List.getElem?_eq_some_iff.mp here).1
  have notNegative : ¬((index : Int) < 0) := by omega
  simp only [PieceTreeBase.getAccumulatedValue, if_neg notNegative, Int.toNat_natCast]
  generalize listEq : (if splitsCRLF (contentOf s.buffers p) back
    then (breakEnds (contentOf s.buffers p)).dropLast
    else breakEnds (contentOf s.buffers p)) = counted at ends stopLine
  split
  · rename_i beyond
    -- only the `\r` at the end of the piece is beyond the lines of the buffer
    have split : splitsCRLF (contentOf s.buffers p) back = true := by
      by_contra whole
      rw [if_neg whole] at listEq
      rw [← listEq] at stopLine
      omega
    rw [if_pos split] at listEq
    rw [← listEq, List.length_dropLast] at stopLine
    have last := getLast?_breakEnds_of_endsWithCR (Bool.and_eq_true_iff.mp split).1
    rw [List.getLast?_eq_getElem?,
      show (breakEnds (contentOf s.buffers p)).length - 1 = index by omega, here,
      Option.some.injEq] at last
    omega
  · rename_i inside
    have same : counted[index]? = some position := by
      rw [← here, ← listEq]
      split
      · rename_i split
        rw [if_pos split] at listEq
        rw [List.getElem?_dropLast, if_pos]
        rw [← listEq, List.length_dropLast] at stopLine
        omega
      · rfl
    have tableEntry : (lineStartsOf (front ++ (contentOf s.buffers p ++ back)))[
        p.start.line + index + 1]? = some (front.length + position) := by
      obtain ⟨later, equal⟩ := endsUpTo_prefix_breakEnds
        (front ++ (contentOf s.buffers p ++ back)) (front.length + p.length)
      rw [lineStartsOf, List.getElem?_cons_succ, ← equal, ends, List.append_assoc,
        List.getElem?_append_right (by omega), startLine, Nat.add_sub_cancel_left,
        List.getElem?_append_left, List.getElem?_map, same]
      · rfl
      · rw [List.length_map]
        exact (List.getElem?_eq_some_iff.mp same).1
    have value : (s.bufferAt p.bufferIndex).lineStartAt (p.start.line + index + 1) =
        front.length + position := by
      rw [StringBuffer.lineStartAt, bufferOk, List.getD_eq_getElem?_getD]
      change ((lineStartsOf (bufferText s.buffers p.bufferIndex))[_]?).getD 0 = _
      rw [textEq, tableEntry]
      rfl
    omega

/-- `getIndexOf` counts the breaks of the piece before an offset; behind a break
it also knows the column. -/
theorem PieceOk.getIndexOf (nonempty : p.length ≠ 0) {value : Nat} (bounded : value ≤ p.length) :
    (s.getIndexOf p value).1 = lineIndex (contentOf s.buffers p) value ∧
      (lineIndex (contentOf s.buffers p) value ≠ 0 → (s.getIndexOf p value).2 =
          value - lineStart (contentOf s.buffers p) value) := by
  have lengthEq := pieceOk.length_content ok
  have position := pieceOk.offsetInBuffer_stop ok
  obtain ⟨front, back, textEq, denotes⟩ := pieceOk.exists_part ok
  have cursor := denotes.positionInBuffer ok bounded
  have startLine : p.start.line =
      (endsUpTo (front ++ (contentOf s.buffers p ++ back)) front.length).length := by
    rw [denotes.start, textEq]
    rfl
  rw [textEq] at cursor
  -- inside the piece, its breaks are those of the buffer
  have plain : endsUpTo (contentOf s.buffers p ++ back) value =
        endsUpTo (contentOf s.buffers p) value →
      (s.positionInBuffer p value).line - p.start.line = lineIndex (contentOf s.buffers p) value ∧
        (lineIndex (contentOf s.buffers p) value ≠ 0 → (s.positionInBuffer p value).column =
            value - lineStart (contentOf s.buffers p) value) := by
    intro same
    have ends := endsUpTo_append_right front (contentOf s.buffers p ++ back) value
    rw [same] at ends
    rw [cursor, cursorAt, lineIndex, lineStart, ends, startLine, lineIndex, lineStart]
    refine ⟨by simp, fun some => ?_⟩
    obtain ⟨initial, last, equal⟩ :=
      (eq_nil_or_concat' (endsUpTo (contentOf s.buffers p) value)).resolve_left
        (fun none => some (by rw [none]; rfl))
    rw [equal]
    simp
    omega
  rw [PieceTreeBase.getIndexOf, position, Nat.add_sub_cancel_left]
  by_cases atEnd : p.length = value
  · rw [if_pos atEnd]
    subst atEnd
    have real : s.getLineFeedCnt p.bufferIndex p.start (s.positionInBuffer p p.length) =
        breakCount (contentOf s.buffers p) := by
      rw [pieceOk.positionInBuffer_length ok, denotes.start, denotes.stop, denotes.content ok]
      exact getLineFeedCnt_eq (denotes.bufferOk ok) (by omega) denotes.bounded
    have all : lineIndex (contentOf s.buffers p) p.length =
        breakCount (contentOf s.buffers p) := by rw [← lengthEq]; rfl
    simp only [real]
    split
    · rename_i differs
      refine ⟨all.symm, fun _ => ?_⟩
      have ends : endsWithCR (contentOf s.buffers p) = true := by
        by_contra notCR
        refine differs ?_
        have joint : splitsCRLF (contentOf s.buffers p) back = false := by
          simp [splitsCRLF, notCR]
        rw [← all]
        exact (plain (endsUpTo_append_of_le (by omega) joint)).1.symm
      have lineEnd := breakEndsAt_length_of_endsWithCR ends
      rw [lengthEq] at lineEnd
      rw [lineStart_of_breakEndsAt lineEnd]
      simp
    · rename_i equal
      have joint : splitsCRLF (contentOf s.buffers p) back = false := by
        by_contra split
        rw [Bool.not_eq_false] at split
        have ends := endsUpTo_part_end front (contentOf s.buffers p) back
        have last := getLast?_breakEnds_of_endsWithCR (Bool.and_eq_true_iff.mp split).1
        have some : (breakEnds (contentOf s.buffers p)).length ≠ 0 := by
          intro zero
          simp [eq_nil_of_length_eq_zero zero] at last
        have count := congrArg List.length ends
        rw [if_pos split, length_append, length_map, length_dropLast, lengthEq] at count
        rw [cursor, cursorAt, lineIndex, count, startLine, breakCount] at equal
        simp only at equal
        omega
      exact plain (endsUpTo_append_of_le (by omega) joint)
  · rw [if_neg atEnd]
    exact plain (endsUpTo_append_of_lt back (by omega))

end

end Piece

/-! ## Descending the tree -/

/-- The entries have content, and no `\r\n` is cut between them. -/
structure Sound (buffers : List StringBuffer) (es : List Entry) : Prop where
  ok : BuffersOk buffers
  pieces : ∀ e ∈ es, PieceOk buffers e.2
  nonempty : [] ∉ parts buffers es
  whole : Whole (parts buffers es)

theorem Inv.sound (inv : Inv s es) : Sound s.buffers es :=
  ⟨inv.rep.buffers, inv.rep.pieces, inv.nonempty, inv.whole⟩

section Descent

variable {s : PieceTreeBase} {es fs : List Entry} {e : Entry}

theorem Sound.append (sound : Sound s.buffers (es ++ fs)) :
    Sound s.buffers es ∧ Sound s.buffers fs ∧
      splitsCRLF (textOf s.buffers es) (textOf s.buffers fs) = false := by
  have nonempty := sound.nonempty
  have whole := sound.whole
  rw [parts_append, mem_append, not_or] at nonempty
  rw [parts_append, whole_append] at whole
  exact ⟨⟨sound.ok, fun e member => sound.pieces e (by simp [member]), nonempty.1, whole.1⟩,
    ⟨sound.ok, fun e member => sound.pieces e (by simp [member]), nonempty.2, whole.2.1⟩, whole.2.2⟩

theorem Sound.totalLF (sound : Sound s.buffers es) :
    totalLF es = breakCount (textOf s.buffers es) := by
  rw [textOf, breakCount_flatten sound.whole, PieceTree.totalLF, parts, map_map]
  refine congrArg List.sum (map_congr_left fun e member => ?_)
  refine (sound.pieces e member).lineFeedCnt_eq sound.ok fun empty =>
    sound.nonempty ?_
  refine mem_map.mpr ⟨e, member, ?_⟩
  rw [← length_eq_zero_iff, (sound.pieces e member).length_content sound.ok, empty]

theorem Sound.totalLength (sound : Sound s.buffers es) :
    (textOf s.buffers es).length = totalLength es :=
  Rep.length_textOf sound.ok sound.pieces

/-- The first piece, in front of the others. -/
theorem Sound.cons {id : Nat} (sound : Sound s.buffers ((id, p) :: es)) :
    Sound s.buffers es ∧ PieceOk s.buffers p ∧ contentOf s.buffers p ≠ [] ∧
      (contentOf s.buffers p).length = p.length ∧
      p.lineFeedCnt = breakCount (contentOf s.buffers p) ∧
      splitsCRLF (contentOf s.buffers p) (textOf s.buffers es) = false := by
  obtain ⟨single, rest, joint⟩ := (by simpa using sound : Sound s.buffers ([(id, p)] ++ es)).append
  have pieceOk : PieceOk s.buffers p := single.pieces (id, p) (by simp)
  refine ⟨rest, pieceOk, fun empty => single.nonempty (by simp [empty]),
    pieceOk.length_content sound.ok, ?_, by simpa using joint⟩
  simpa [PieceTree.totalLF] using single.totalLF

/-- What is known about the node at the root of a subtree. -/
theorem Sound.node {l r : Tree} {x : TreeNode} (sound : Sound s.buffers (entries (.node l x r)))
    (metadata : MetadataOk (.node l x r)) :
    Sound s.buffers (entries l) ∧ Sound s.buffers (entries r) ∧
      PieceOk s.buffers x.piece ∧ contentOf s.buffers x.piece ≠ [] ∧
      x.sizeLeft = (textOf s.buffers (entries l)).length ∧
      x.lfLeft = breakCount (textOf s.buffers (entries l)) ∧
      x.piece.length = (contentOf s.buffers x.piece).length ∧
      x.piece.lineFeedCnt = breakCount (contentOf s.buffers x.piece) ∧
      splitsCRLF (textOf s.buffers (entries l))
        (contentOf s.buffers x.piece ++ textOf s.buffers (entries r)) = false ∧
      splitsCRLF (contentOf s.buffers x.piece) (textOf s.buffers (entries r)) = false := by
  obtain ⟨size, lf, -, -⟩ := metadata
  rw [entries_node] at sound
  obtain ⟨left, rest, jointLeft⟩ := sound.append
  obtain ⟨right, pieceOk, notEmpty, lengthEq, count, jointRight⟩ := rest.cons
  refine ⟨left, right, pieceOk, notEmpty, ?_, ?_, lengthEq.symm, count, ?_, jointRight⟩
  · rw [size, left.totalLength]
  · rw [lf, left.totalLF]
  · simpa [entry] using jointLeft

variable {t : Tree}

theorem leaf_of_breakCount (some : 0 < breakCount (textOf s.buffers (entries t))) : t ≠ .leaf := by
  rintro rfl
  simp [breakCount, breakEnds] at some

/-- The start of the line `k` of a piece, as `getAccumulatedValue` finds it. -/
theorem PieceOk.lineStart_eq (pieceOk : PieceOk s.buffers p)
    (ok : BuffersOk s.buffers) {k start : Nat}
    (here : (lineStartsOf (contentOf s.buffers p))[k]? = some start) :
    s.getAccumulatedValue p ((k : Int) - 1) = start := by
  cases k with
  | zero =>
    have zero : start = 0 := by simpa [lineStartsOf] using here.symm
    simp [PieceTreeBase.getAccumulatedValue, zero]
  | succ k =>
    rw [show ((k + 1 : Nat) : Int) - 1 = k by omega]
    exact pieceOk.getAccumulatedValue ok here

/-- A line that the descent does not seek in the left subtree starts behind the
breaks of that subtree, or where the tree starts. -/
theorem line_behind_left {x : TreeNode} {k start : Nat}
    (size : x.sizeLeft = (textOf s.buffers (entries l)).length)
    (lf : x.lfLeft = breakCount (textOf s.buffers (entries l)))
    (joint : splitsCRLF (textOf s.buffers (entries l)) rest = false)
    (notLeft : ¬(l ≠ .leaf ∧ k ≤ x.lfLeft))
    (here : (lineStartsOf (textOf s.buffers (entries l) ++ rest))[k]? = some start) :
    ∃ i position, k = x.lfLeft + i ∧ start = x.sizeLeft + position ∧
      (lineStartsOf rest)[i]? = some position := by
  rcases Nat.lt_or_ge x.lfLeft k with behind | notBehind
  · obtain ⟨i, rfl⟩ := Nat.exists_eq_add_of_lt behind
    rw [lf, Nat.add_assoc, lineStartsOf_append_add joint (by omega)] at here
    obtain ⟨position, found, rfl⟩ := Option.map_eq_some_iff.mp here
    exact ⟨i + 1, position, by omega, by rw [size], found⟩
  · have leaf : l = .leaf := by
      by_contra notLeaf
      exact notLeft ⟨notLeaf, notBehind⟩
    subst leaf
    simp only [entries_leaf, textOf_nil, length_nil, nil_append] at size lf here
    have zero : breakCount [] = 0 := rfl
    exact ⟨k, start, by omega, by omega, here⟩

/-- The descents that seek a line: to the left, to the piece in which the line starts, or to
the right with the breaks and the length of what is passed. -/
theorem line_descent {motive : Tree → Nat → Nat → Prop}
    (left : ∀ {l x r k start}, l ≠ .leaf → k ≤ x.lfLeft → motive l k start →
      motive (.node l x r) k start)
    (inPiece : ∀ {l x r i position}, ¬(l ≠ .leaf ∧ x.lfLeft + i ≤ x.lfLeft) →
      i ≤ x.piece.lineFeedCnt → x.sizeLeft = totalLength (entries l) →
      PieceOk s.buffers x.piece → x.piece.lineFeedCnt = breakCount (contentOf s.buffers x.piece) →
      (lineStartsOf (contentOf s.buffers x.piece))[i]? = some position →
      motive (.node l x r) (x.lfLeft + i) (x.sizeLeft + position))
    (right : ∀ {l x r j start}, x.sizeLeft = totalLength (entries l) → motive r (j + 1) start →
      motive (.node l x r) (x.lfLeft + (x.piece.lineFeedCnt + j + 1))
        (x.sizeLeft + (x.piece.length + start))) {k start : Nat} (present : t ≠ .leaf)
    (sound : Sound s.buffers (entries t)) (metadata : MetadataOk t)
    (here : (lineStartsOf (textOf s.buffers (entries t)))[k]? = some start) : motive t k start := by
  induction t generalizing k start with
  | leaf => exact absurd rfl present
  | node l x r leftHypothesis rightHypothesis =>
    obtain ⟨leftSound, rightSound, pieceOk, notEmpty, size, lf, length, count, jointLeft,
      jointRight⟩ := sound.node metadata
    obtain ⟨sizeEq, -, leftOk, rightOk⟩ := metadata
    rw [entries_node, textOf_append, textOf_cons] at here
    simp only [PieceTree.entry] at here
    by_cases inLeft : l ≠ .leaf ∧ k ≤ x.lfLeft
    · rw [lineStartsOf_append_left jointLeft (by omega)] at here
      exact left inLeft.1 inLeft.2 (leftHypothesis inLeft.1 leftSound leftOk here)
    · obtain ⟨i, position, rfl, rfl, rest⟩ :=
        line_behind_left size lf jointLeft inLeft here
      rcases Nat.lt_or_ge x.piece.lineFeedCnt i with more | upTo
      · obtain ⟨j, rfl⟩ := Nat.exists_eq_add_of_lt more
        rw [count, Nat.add_assoc, lineStartsOf_append_add jointRight (by omega)] at rest
        obtain ⟨final, found, rfl⟩ := Option.map_eq_some_iff.mp rest
        have some := lineStartsOf_isSome found
        rw [← length]
        exact right sizeEq (rightHypothesis (@leaf_of_breakCount s r (by omega)) rightSound
          rightOk found)
      · rw [lineStartsOf_append_left jointRight (by omega)] at rest
        exact inPiece inLeft upTo sizeEq pieceOk count rest

/-- The descent of `getOffsetAt` finds the start of the line. -/
theorem getOffsetAtFrom_eq {k start : Nat} {column leftLen : Int} (present : t ≠ .leaf)
    (sound : Sound s.buffers (entries t)) (metadata : MetadataOk t)
    (here : (lineStartsOf (textOf s.buffers (entries t)))[k]? = some start) :
    s.getOffsetAtFrom t (k + 1) column leftLen = leftLen + start + (column - 1) := by
  refine line_descent (motive := fun t k start => ∀ leftLen, s.getOffsetAtFrom t (k + 1) column
    leftLen = leftLen + start + (column - 1)) ?_ ?_ ?_ present sound metadata here leftLen
  · intro l x r k start leftPresent upTo result leftLen
    rw [getOffsetAtFrom, if_pos ⟨leftPresent, by omega⟩, result]
  · rintro l x r i position notLeft upTo - pieceOk - here leftLen
    rw [getOffsetAtFrom, if_neg (fun both => notLeft ⟨both.1, by omega⟩), if_pos (by omega),
      show ((x.lfLeft + i : Nat) : Int) + 1 - x.lfLeft - 2 = (i : Int) - 1 by omega,
      pieceOk.lineStart_eq sound.ok here]
    omega
  · rintro l x r j start - result leftLen
    rw [getOffsetAtFrom, if_neg (fun both => by omega), if_neg (by omega),
      show ((x.lfLeft + (x.piece.lineFeedCnt + j + 1) : Nat) : Int) + 1 -
        (x.lfLeft + x.piece.lineFeedCnt) = ((j + 1 : Nat) : Int) + 1 by omega, result]
    omega

/-- `getOffsetAt` in a document that is not empty, or in the first column. -/
theorem Inv.getOffsetAt (inv : Inv s es) {k start : Nat} {column : Int}
    (here : (lineStartsOf (textOf s.buffers es))[k]? = some start)
    (inside : es ≠ [] ∨ column = 1) :
    s.getOffsetAt (k + 1) column = start + (column - 1) := by
  have entriesEq := inv.rep.holds.entries_eq
  by_cases empty : es = []
  · have leaf : s.root = .leaf := inv.rep.holds.eq_leaf_iff.mpr empty
    have first : column = 1 := inside.resolve_left (not_not.mpr empty)
    subst empty
    have zero : start = 0 := by
      rcases k with _ | k
      · simpa [lineStartsOf] using here.symm
      · simp [lineStartsOf, breakEnds] at here
    simp [PieceTreeBase.getOffsetAt, PieceTreeBase.getOffsetAtFrom, leaf, first, zero]
  · have present : s.root ≠ .leaf :=
      fun leaf => empty (inv.rep.holds.eq_leaf_iff.mp leaf)
    rw [← entriesEq] at here
    have found := @getOffsetAtFrom_eq s s.root k start column 0 present
      (entriesEq ▸ inv.sound) inv.rep.holds.metadata here
    rw [PieceTreeBase.getOffsetAt, found]
    omega

/-- The descent of `getPositionAt` finds the line of the offset; behind a break
in the same piece it also knows the column, else it asks `getOffsetAt`. -/
theorem getPositionAtFrom_eq {original : Int} {offset : Nat} {lfCnt : Int} {column : Int}
    (present : t ≠ .leaf) (sound : Sound s.buffers (entries t)) (metadata : MetadataOk t)
    (bounded : offset ≤ (textOf s.buffers (entries t)).length)
    (columnEq : lineIndex (textOf s.buffers (entries t)) offset ≠ 0 →
      column = offset - lineStart (textOf s.buffers (entries t)) offset + 1)
    (ask : original - s.getOffsetAt
      (lfCnt + lineIndex (textOf s.buffers (entries t)) offset + 1) 1 + 1 =
        column) : s.getPositionAtFrom original t offset lfCnt =
      ⟨lfCnt + lineIndex (textOf s.buffers (entries t)) offset + 1, column⟩ := by
  induction t generalizing offset lfCnt with
  | leaf => exact absurd rfl present
  | node l x r leftHypothesis rightHypothesis =>
    obtain ⟨left, right, pieceOk, notEmpty, size, lf, length, count, jointLeft,
      jointRight⟩ := sound.node metadata
    obtain ⟨-, -, leftOk, rightOk⟩ := metadata
    rw [entries_node, textOf_append, textOf_cons] at bounded columnEq ask ⊢
    simp only [PieceTree.entry] at bounded columnEq ask ⊢
    unfold PieceTreeBase.getPositionAtFrom
    by_cases inLeft : x.sizeLeft ≠ 0 ∧ offset ≤ x.sizeLeft
    · rw [if_pos ⟨inLeft.1, by omega⟩]
      have leftPresent : l ≠ .leaf := by
        rintro rfl
        exact inLeft.1 (by simpa using size)
      rw [lineIndex_append_of_le (by omega) jointLeft,
        lineStart_append_of_le (by omega) jointLeft] at columnEq
      rw [lineIndex_append_of_le (by omega) jointLeft] at ask ⊢
      exact leftHypothesis leftPresent left leftOk (by omega) columnEq ask
    rw [if_neg (fun both => inLeft ⟨both.1, by omega⟩)]
    obtain ⟨value, rfl⟩ : ∃ value, offset = x.sizeLeft + value :=
      ⟨offset - x.sizeLeft, by omega⟩
    rw [size, lineIndex_append_add jointLeft] at columnEq ask ⊢
    by_cases inPiece : value ≤ x.piece.length
    · rw [if_pos (by omega), show ((((textOf s.buffers (entries l)).length + value : Nat) : Int) -
          ((textOf s.buffers (entries l)).length : Nat)).toNat = value by omega]
      obtain ⟨indexEq, remainderEq⟩ := pieceOk.getIndexOf sound.ok
        (fun zero => notEmpty (eq_nil_of_length_eq_zero (by omega))) inPiece
      have sameIndex : lineIndex (contentOf s.buffers x.piece ++
          textOf s.buffers (entries r)) value = lineIndex (contentOf s.buffers x.piece) value :=
        lineIndex_append_of_le (by omega) jointRight
      rw [sameIndex] at columnEq ask ⊢
      simp only [indexEq]
      have lineEq : lfCnt + x.lfLeft + (lineIndex (contentOf s.buffers x.piece) value : Nat) + 1 =
          lfCnt + ((breakCount (textOf s.buffers (entries l)) +
            lineIndex (contentOf s.buffers x.piece) value : Nat) : Int) + 1 := by
        omega
      split
      · rw [lineEq, ask]
      · rename_i behind
        have some : lineIndex (contentOf s.buffers x.piece ++
            textOf s.buffers (entries r)) value ≠ 0 := sameIndex ▸ behind
        have bound := lineStart_le (contentOf s.buffers x.piece) value
        rw [lineEq, remainderEq behind, columnEq (by omega),
          lineStart_append_add some, lineStart_append_of_le (by omega) jointRight]
        simp only [Position.mk.injEq, true_and]
        omega
    · rw [if_neg (by omega)]
      obtain ⟨rest, rfl⟩ : ∃ rest, value = (contentOf s.buffers x.piece).length + rest :=
        ⟨value - (contentOf s.buffers x.piece).length, by omega⟩
      have rightPresent : r ≠ .leaf := by
        rintro rfl
        simp only [length_append, entries_leaf, textOf_nil, length_nil] at bounded
        omega
      rw [if_neg rightPresent]
      rw [lineIndex_append_add jointRight] at columnEq ask ⊢
      have restEq : ((((textOf s.buffers (entries l)).length +
          ((contentOf s.buffers x.piece).length + rest) : Nat) : Int) -
            (((textOf s.buffers (entries l)).length : Nat) + x.piece.length)) =
          (rest : Int) := by omega
      have lineEq : ∀ index : Nat, lfCnt + x.lfLeft + x.piece.lineFeedCnt +
          (index : Int) + 1 = lfCnt + ((breakCount (textOf s.buffers (entries l)) +
            (breakCount (contentOf s.buffers x.piece) + index) : Nat) : Int) + 1 := by
        omega
      simp only [restEq]
      rw [← lineEq] at ask ⊢
      refine rightHypothesis rightPresent right rightOk ?_ ?_ ask
      · simp only [length_append] at bounded
        omega
      · intro some
        have inner : lineIndex (contentOf s.buffers x.piece ++ textOf s.buffers (entries r))
            ((contentOf s.buffers x.piece).length + rest) ≠ 0 := by
          rw [lineIndex_append_add jointRight]
          omega
        rw [columnEq (by omega), lineStart_append_add inner, lineStart_append_add some]
        omega

/-- `getPositionAt` inside the document. -/
theorem Inv.getPositionAt (inv : Inv s es) {offset : Nat}
    (bounded : offset ≤ (textOf s.buffers es).length) :
    s.getPositionAt offset = ⟨lineIndex (textOf s.buffers es) offset + 1,
        offset - lineStart (textOf s.buffers es) offset + 1⟩ := by
  have entriesEq := inv.rep.holds.entries_eq
  rw [PieceTreeBase.getPositionAt]
  simp only [show max (0 : Int) offset = offset by omega]
  by_cases empty : es = []
  · have leaf : s.root = .leaf := inv.rep.holds.eq_leaf_iff.mpr empty
    subst empty
    have zero : offset = 0 := by simpa using bounded
    subst zero
    simp [leaf, PieceTreeBase.getPositionAtFrom, lineIndex, lineStart]
  · have present : s.root ≠ .leaf :=
      fun leaf => empty (inv.rep.holds.eq_leaf_iff.mp leaf)
    have ask := @Inv.getOffsetAt s es inv _ _ 1
      (lineStartsOf_getElem?_lineIndex (textOf s.buffers es) offset) (.inr rfl)
    have found := @getPositionAtFrom_eq s s.root offset offset 0
      (offset - lineStart (textOf s.buffers es) offset + 1) present
      (entriesEq ▸ inv.sound) inv.rep.holds.metadata
    rw [entriesEq] at found
    rw [found bounded (fun _ => rfl) (by rw [Int.zero_add, ask]; omega)]
    simp

end Descent

end CodeEditor.PieceTree
