import CodeEditor.PieceTree.Repair

/-!
# The invariant of the piece tree

`Inv s es` holds between any two operations: the state represents the sequence
`es`, no piece is empty, no `\r\n` is cut, the totals are right and the search
cache tells the truth.
-/

namespace CodeEditor.PieceTree

open PieceTreeBase List

/-- The offset and the line number of an entry of the search cache are those
behind the entries `before`. -/
structure CacheAt (before : List Entry) (c : CacheEntry) : Prop where
  start : c.nodeStartOffset = totalLength before
  line : ∀ line, c.nodeStartLineNumber = some line → line = totalLF before + 1

/-- The entry of the search cache is right. -/
def CacheOk (es : List Entry) (c : CacheEntry) : Prop :=
  ∃ before p after, es = before ++ (c.node, p) :: after ∧ CacheAt before c

/-- The invariant between two operations. -/
structure Inv (s : PieceTreeBase) (es : List Entry) : Prop where
  rep : Rep s es
  nonempty : [] ∉ parts s.buffers es
  whole : Whole (parts s.buffers es)
  noCR : s.shouldCheckCRLF = false → CR ∉ textOf s.buffers es
  lineCnt : s.lineCnt = totalLF es + 1
  length : s.length = totalLength es
  cacheLimit : s.searchCache.length ≤ 1
  cache : ∀ c ∈ s.searchCache, CacheOk es c

section

variable {s s' : PieceTreeBase} {es es' : List Entry} {text : Text}

theorem Rep.length_text (rep : Rep s es) : (textOf s.buffers es).length = totalLength es :=
  Rep.length_textOf rep.buffers rep.pieces

/-- What an edit has to reach before the totals are computed: the pieces `es'`
hold the new text, and the search cache is right as far as its node is left. -/
structure Ready (s s' : PieceTreeBase) (es' : List Entry) (text : Text) :
    Prop where
  rep : Rep s' es'
  text_eq : textOf s'.buffers es' = text
  nonempty : [] ∉ parts s'.buffers es'
  whole : Whole (parts s'.buffers es')
  eol : s'.eol = s.eol
  eolNormalized : s'.eolNormalized = s.eolNormalized
  lastVisitedLine : s'.lastVisitedLine = s.lastVisitedLine
  cacheLimit : s'.searchCache.length ≤ 1
  cache : ∀ c ∈ s'.searchCache, c.node ∈ ids es' → CacheOk es' c

/-- What an operation promises once the totals are computed. -/
structure Updated (s s' : PieceTreeBase) (es' : List Entry) (text : Text) :
    Prop where
  inv : Inv s' es'
  text_eq : textOf s'.buffers es' = text
  eol : s'.eol = s.eol
  eolNormalized : s'.eolNormalized = s.eolNormalized
  lastVisitedLine : s'.lastVisitedLine = s.lastVisitedLine

/-- The edit that leaves the search cache alone. -/
structure Edited (s s' : PieceTreeBase) (es' : List Entry) (text : Text) :
    Prop where
  rep : Rep s' es'
  text_eq : textOf s'.buffers es' = text
  nonempty : [] ∉ parts s'.buffers es'
  whole : Whole (parts s'.buffers es')
  eol : s'.eol = s.eol
  eolNormalized : s'.eolNormalized = s.eolNormalized
  searchCache : s'.searchCache = s.searchCache
  lastVisitedLine : s'.lastVisitedLine = s.lastVisitedLine

theorem Edited.ready (edited : Edited s s' es' text) (limit : s.searchCache.length ≤ 1)
    (cache : ∀ c ∈ s.searchCache, c.node ∈ ids es' → CacheOk es' c) :
    Ready s s' es' text :=
  ⟨edited.rep, edited.text_eq, edited.nonempty, edited.whole, edited.eol,
    edited.eolNormalized, edited.lastVisitedLine, edited.searchCache ▸ limit,
    edited.searchCache ▸ cache⟩

/-- The node of the search cache stayed where it was. -/
theorem KeepsAt.cacheOk {before : List Entry} {id : Nat} {c : CacheEntry}
    (keeps : KeepsAt before id es') (same : c.node = id)
    (cacheAt : CacheAt before c) (survives : c.node ∈ ids es') :
    CacheOk es' c := by
  subst same
  obtain ⟨p, after, split⟩ := keeps survives
  exact ⟨before, p, after, split, cacheAt⟩

theorem Rep.node?_isSome (rep : Rep s es) (id : Nat) :
    (s.node? id).isSome = true → id ∈ ids es := by
  intro found
  by_contra missing
  simp [rep.node?_eq_none missing] at found

theorem Rep.setCache (rep : Rep s es) (cache : List CacheEntry) :
    Rep { s with searchCache := cache } es :=
  ⟨rep.holds, rep.fresh, rep.buffers, rep.position, rep.pieces, rep.tail⟩

/-- `computeBufferMetadata` completes an edit. Of the search cache only
entries survive whose node is still in the tree. -/
theorem Rep.computeBufferMetadata (rep : Rep s es) (nonempty : [] ∉ parts s.buffers es)
    (whole : Whole (parts s.buffers es))
    (noCR : s.shouldCheckCRLF = false → CR ∉ textOf s.buffers es)
    (cacheLimit : s.searchCache.length ≤ 1)
    (cache : ∀ c ∈ s.searchCache, c.node ∈ ids es → CacheOk es c) :
    Inv s.computeBufferMetadata es := by
  refine ⟨⟨rep.holds, rep.fresh, rep.buffers, rep.position, rep.pieces,
    rep.tail⟩, nonempty, whole, noCR, ?_, ?_, ?_, ?_⟩
  · simp only [PieceTreeBase.computeBufferMetadata, cacheValidate]
    rw [rep.holds.calculateLF_eq, Nat.add_comm]
  · simp only [PieceTreeBase.computeBufferMetadata, cacheValidate]
    exact rep.holds.calculateSize_eq
  · exact (length_filter_le _ _).trans cacheLimit
  · intro c member
    simp only [PieceTreeBase.computeBufferMetadata, cacheValidate,
      mem_filter, Bool.and_eq_true] at member
    exact cache c member.1 (rep.node?_isSome c.node member.2.1)

theorem Ready.updated (ready : Ready s s' es' text) (noCR : s.shouldCheckCRLF = false → CR ∉ text) :
    Updated s s'.computeBufferMetadata es' text := by
  refine ⟨ready.rep.computeBufferMetadata ready.nonempty ready.whole ?_
    ready.cacheLimit ready.cache, ready.text_eq, ready.eol, ready.eolNormalized,
    ready.lastVisitedLine⟩
  rw [ready.text_eq, shouldCheckCRLF, ready.eol, ready.eolNormalized]
  exact noCR

end

/-! ## Finding a node by offset -/

/-- A node position is right: the node contains the offset. -/
structure Locates (es : List Entry) (offset : Int) (pos : NodePosition)
    (before : List Entry) (p : Piece) (after : List Entry) : Prop where
  split : es = before ++ (pos.node, p) :: after
  start : pos.nodeStartOffset = totalLength before
  remainder : pos.remainder = offset - totalLength before
  lower : (totalLength before : Int) ≤ offset
  upper : offset ≤ totalLength before + p.length

/-- The descent of `nodeAt` finds a node that contains the offset. -/
theorem nodeAtFrom_sound {offset start : Int}
    (ok : MetadataOk t) (found : nodeAtFrom t offset start = some pos) :
    ∃ before p after, entries t = before ++ (pos.node, p) :: after ∧
      pos.nodeStartOffset = start + totalLength before ∧
      pos.remainder = offset - totalLength before ∧
      (totalLength before : Int) ≤ offset ∧
      offset ≤ totalLength before + p.length := by
  induction t generalizing offset start with
  | leaf => simp [nodeAtFrom] at found
  | node l x r leftHypothesis rightHypothesis =>
    obtain ⟨size, -, leftOk, rightOk⟩ := ok
    unfold nodeAtFrom at found
    split at found
    · obtain ⟨before, p, after, split, rest⟩ := leftHypothesis leftOk found
      exact ⟨before, p, after ++ entry x :: entries r, by simp [split], rest⟩
    · split at found
      · simp only [Option.some.injEq] at found
        subst found
        refine ⟨entries l, x.piece, entries r, by simp [entry], ?_⟩
        simp only
        omega
      · obtain ⟨before, p, after, split, startEq, remainderEq, lower, upper⟩ :=
          rightHypothesis rightOk found
        refine ⟨entries l ++ entry x :: before, p, after, by simp [split], ?_⟩
        simp only [totalLength_append, totalLength_cons, entry]
        omega

theorem nodeAtFrom_isSome {t : Tree} {offset start : Int}
    (ok : MetadataOk t) (nonempty : t ≠ .leaf) (lower : 0 ≤ offset)
    (upper : offset ≤ totalLength (entries t)) :
    (nodeAtFrom t offset start).isSome = true := by
  induction t generalizing offset start with
  | leaf => exact absurd rfl nonempty
  | node l x r leftHypothesis rightHypothesis =>
    obtain ⟨size, -, leftOk, rightOk⟩ := ok
    simp only [entries_node, totalLength_append, totalLength_cons, entry] at upper
    unfold nodeAtFrom
    split
    · refine leftHypothesis leftOk ?_ lower (by omega)
      rintro rfl
      simp at size
      omega
    · split
      · rfl
      · refine rightHypothesis rightOk ?_ (by omega) (by omega)
        rintro rfl
        simp at upper
        omega

theorem cacheSet_eq {s : PieceTreeBase} (limit : s.searchCache.length ≤ 1)
    (c : CacheEntry) : s.cacheSet c = { s with searchCache := [c] } := by
  match cache : s.searchCache with
  | [] => simp [cacheSet, cache]
  | [d] => simp [cacheSet, cache, PieceTreeBase.cacheLimit]
  | _ :: _ :: _ => simp [cache] at limit

/-- The position that `nodeAt` returns is right, whether it comes from the
search cache or from the tree; the cache then holds the node found. -/
theorem Inv.nodeAt_sound {s s' : PieceTreeBase} (inv : Inv s es)
    (found : s.nodeAt offset = (some pos, s')) :
    ∃ before p after c, Locates es offset pos before p after ∧
      s' = { s with searchCache := [c] } ∧ c.node = pos.node ∧
      CacheAt before c := by
  unfold nodeAt at found
  cases hit : s.cacheGet offset with
  | some c =>
    simp only [hit, Prod.mk.injEq, Option.some.injEq] at found
    obtain ⟨rfl, rfl⟩ := found
    have member : c ∈ s.searchCache := by
      simpa using mem_of_find?_eq_some hit
    have tested := find?_some hit
    obtain ⟨before, p, after, split, cacheAt⟩ := inv.cache c member
    have start := cacheAt.start
    have rep := inv.rep
    rw [split] at rep
    obtain ⟨n, foundNode, -, rfl⟩ := rep.node?
    simp only [foundNode, Bool.and_eq_true, decide_eq_true_eq] at tested
    refine ⟨before, n.piece, after, c, ⟨split, start, by simp [start], ?_, ?_⟩, ?_, rfl, cacheAt⟩
    · omega
    · omega
    · have limit := inv.cacheLimit
      have single : s.searchCache = [c] := by
        obtain ⟨d, rest, equal⟩ := exists_cons_of_ne_nil (ne_nil_of_mem member)
        rw [equal, length_cons] at limit
        have none : rest = [] := eq_nil_of_length_eq_zero (by omega)
        rw [equal, none, mem_singleton] at member
        rw [equal, none, member]
      rw [← single]
  | none =>
    simp only [hit] at found
    cases descended : nodeAtFrom s.root offset 0 with
    | none => simp [descended] at found
    | some ret =>
      simp only [descended, Prod.mk.injEq, Option.some.injEq] at found
      obtain ⟨rfl, rfl⟩ := found
      obtain ⟨before, p, after, split, start, remainder, lower, upper⟩ :=
        nodeAtFrom_sound inv.rep.holds.metadata descended
      rw [inv.rep.holds.entries_eq] at split
      refine ⟨before, p, after, ⟨ret.node, ret.nodeStartOffset, none⟩,
        ⟨split, by omega, remainder, lower, upper⟩, ?_, rfl,
        ⟨by simp; omega, by simp⟩⟩
      exact cacheSet_eq inv.cacheLimit _

/-- The search cache may be replaced by right entries. -/
theorem Inv.setCache (inv : Inv s es) {cache : List CacheEntry} (limit : cache.length ≤ 1)
    (ok : ∀ c ∈ cache, CacheOk es c) :
    Inv { s with searchCache := cache } es :=
  ⟨inv.rep.setCache cache, inv.nonempty, inv.whole, inv.noCR, inv.lineCnt, inv.length, limit, ok⟩

/-- `nodeAt` keeps the invariant. -/
theorem Inv.nodeAt (inv : Inv s es) (offset : Int) :
    ∃ cache, (s.nodeAt offset).2 = { s with searchCache := cache } ∧
      Inv (s.nodeAt offset).2 es := by
  obtain ⟨pos, s', found⟩ : ∃ pos s', s.nodeAt offset = (pos, s') :=
    ⟨_, _, rfl⟩
  cases pos with
  | some pos =>
    obtain ⟨before, p, after, c, located, rfl, same, cacheAt⟩ :=
      inv.nodeAt_sound found
    have ok : CacheOk es c :=
      ⟨before, p, after, same ▸ located.split, cacheAt⟩
    exact ⟨[c], by rw [found], by
      rw [found]; exact inv.setCache (by simp) (by simpa using ok)⟩
  | none =>
    have same : s' = s := by
      unfold PieceTreeBase.nodeAt at found
      split at found
      · simp at found
      · split at found
        · simp at found
        · simpa using found.symm
    exact ⟨s.searchCache, by rw [found, same], by rwa [found, same]⟩

/-- Inside the document `nodeAt` finds a node that contains the offset, and the
search cache then holds that node. -/
theorem Inv.nodeAt_split (inv : Inv s es) (nonempty : es ≠ []) {offset : Int} (lower : 0 ≤ offset)
    (upper : offset ≤ totalLength es) :
    ∃ pos before p after c, s.nodeAt offset = (some pos, { s with searchCache := [c] }) ∧
      Locates es offset pos before p after ∧ c.node = pos.node ∧
      CacheAt before c ∧ Inv { s with searchCache := [c] } es := by
  obtain ⟨pos, s', found⟩ : ∃ pos s', s.nodeAt offset = (some pos, s') := by
    unfold PieceTreeBase.nodeAt
    split
    · exact ⟨_, _, rfl⟩
    · have exists_ := @nodeAtFrom_isSome s.root offset 0 inv.rep.holds.metadata
        (fun leaf => nonempty (inv.rep.holds.eq_leaf_iff.mp leaf)) lower
        (by rwa [inv.rep.holds.entries_eq])
      obtain ⟨ret, descended⟩ := Option.isSome_iff_exists.mp exists_
      exact ⟨ret, _, by rw [descended]⟩
  obtain ⟨before, p, after, c, located, rfl, cacheNode, cacheAt⟩ :=
    inv.nodeAt_sound found
  refine ⟨pos, before, p, after, c, found, located, cacheNode, cacheAt, ?_⟩
  refine inv.setCache (by simp) ?_
  simpa using ⟨before, p, after, cacheNode ▸ located.split, cacheAt⟩

end CodeEditor.PieceTree
