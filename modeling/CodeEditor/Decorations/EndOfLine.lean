import CodeEditor.Decorations.Queries
import CodeEditor.TextBuffer.Applying

/-!
# Decorations under other line breaks

Model of `TextModel.setEOL` with the three trees of `DecorationsTrees`. Offsets depend on the
length of the line breaks, so every node is moved to where its range now is. The version and the
range that a node remembers are kept beside the trees, by the identity of the node; events are left
out.
-/

namespace CodeEditor.Decorations

open CodeEditor.BinaryTree RedBlack PieceTree TextBuffer Option Nat
open List hiding range'
open PieceTree.PieceTreeBase (Range)

variable {fits : Int → Int → Prop}

/-! ## The model -/

/-- The loop of `collectNodesPostOrder`, at the node `n` with subtrees `l` and `r`. -/
def collectNodesPostOrderLoop : (fuel : Nat) → (l : Tree) → (n : IntervalNode) → (r : Tree) →
    Path → (result : List Nat) → Option (Tree × List Nat)
  | 0, _, _, _, _, _ => none
  | fuel + 1, l, n, r, path, result =>
    if n.isVisited then
      -- going up from this node
      let x := .node (setVisited false l) n (setVisited false r)
      match path with
      | [] => some (x, result)
      | .left p pr :: up => collectNodesPostOrderLoop fuel x p pr up result
      | .right pl p :: up => collectNodesPostOrderLoop fuel pl p x up result
    else
      match unvisited? l with
      | some (ll, ln, lr) => collectNodesPostOrderLoop fuel ll ln lr (.left n r :: path) result
      | none =>
        match unvisited? r with
        | some (rl, rn, rr) =>
          collectNodesPostOrderLoop fuel rl rn rr (.right l n :: path) result
        | none =>
          -- handle current node
          collectNodesPostOrderLoop fuel l { n with isVisited := true } r path
            (result ++ [n.ref])

/-- `collectNodesPostOrder()`, with the nodes by identity; every node takes at most three turns
of the loop. -/
def IntervalTree.collectNodesPostOrder (T : IntervalTree) : Option (IntervalTree × List Nat) :=
  match T.root with
  | .leaf => some (T, [])
  | .node l n r =>
    (collectNodesPostOrderLoop (3 * size (.node l n r)) l n r [] []).map fun (root, result) =>
      ({ T with root := setVisited false root }, result)

structure DecorationsTrees where
  decorationsTree0 : IntervalTree
  decorationsTree1 : IntervalTree
  injectedTextDecorationsTree : IntervalTree

namespace DecorationsTrees

def all (trees : DecorationsTrees) : List IntervalTree :=
  [trees.decorationsTree0, trees.decorationsTree1, trees.injectedTextDecorationsTree]

/-- Ask the three trees one after the other and concatenate their answers. -/
def each {α : Type} (trees : DecorationsTrees)
    (ask : IntervalTree → Option (IntervalTree × List α)) :
    Option (DecorationsTrees × List α) := do
  let (tree0, r0) ← ask trees.decorationsTree0
  let (tree1, r1) ← ask trees.decorationsTree1
  let (injected, r2) ← ask trees.injectedTextDecorationsTree
  some (⟨tree0, tree1, injected⟩, r0 ++ r1 ++ r2)

def map (trees : DecorationsTrees) (f : IntervalTree → IntervalTree) : DecorationsTrees :=
  ⟨f trees.decorationsTree0, f trees.decorationsTree1, f trees.injectedTextDecorationsTree⟩

theorem each_eq {α : Type} {trees : DecorationsTrees}
    {ask : IntervalTree → Option (IntervalTree × List α)}
    {answer : IntervalTree → IntervalTree × List α}
    (asked : ∀ T ∈ trees.all, ask T = some (answer T)) :
    trees.each ask = some (trees.map fun T => (answer T).1,
      trees.all.flatMap fun T => (answer T).2) := by
  simp only [all, forall_mem_cons] at asked
  obtain ⟨tree0, tree1, injected, -⟩ := asked
  rw [each, tree0, tree1, injected]
  simp [map, all]

end DecorationsTrees

/-- What a node remembers beside its offsets. -/
structure CachedRange where
  cachedVersionId : Nat
  range : Option Range
  deriving DecidableEq

/-- The part of `setCachedOffsets` that is about the range. -/
def CachedRange.setVersion (cached : CachedRange) (cachedVersionId : Nat) : CachedRange where
  cachedVersionId
  range := if cached.cachedVersionId ≠ cachedVersionId then none else cached.range

structure TextModel where
  buffer : PieceTreeTextBuffer
  versionId : Nat
  decorationsTree : DecorationsTrees
  attributes : Nat → NodeAttributes
  cached : Nat → CachedRange

namespace TextModel

def getRangeAt (m : TextModel) (start stop : Int) : Range :=
  m.buffer.getRangeAt start (stop - start)

/-- The range of a node that a search has found, behind `_ensureNodesHaveRanges`. -/
def withRange (m : TextModel) (n : IntervalNode) (cached : CachedRange) : CachedRange :=
  let cached := cached.setVersion m.versionId
  let range := cached.range.getD (m.getRangeAt n.cachedAbsoluteStart n.cachedAbsoluteEnd)
  { cached with range := some range }

/-- `this._decorationsTree.ensureAllNodesHaveRanges(this)`. -/
def ensureAllNodesHaveRanges (m : TextModel) : Option TextModel := do
  let (decorationsTree, nodes) ← m.decorationsTree.each fun T =>
    T.search m.attributes ⟨0, false, false⟩
  some { m with
    decorationsTree
    cached := fun ref =>
      match nodes.find? (·.ref = ref) with
      | some n => m.withRange n (m.cached ref)
      | none => m.cached ref }

/-- A node whose offsets are made those of its range. -/
def moved (m : TextModel) (range : Range) (node : IntervalNode) : IntervalNode :=
  let delta := node.cachedAbsoluteStart - node.start
  let startOffset := m.buffer.getOffsetAt range.startLineNumber range.startColumn
  let endOffset := m.buffer.getOffsetAt range.endLineNumber range.endColumn
  { node with
    cachedAbsoluteStart := startOffset
    cachedAbsoluteEnd := endOffset
    start := startOffset - delta
    stop := endOffset - delta }

/-- The turn of the loop of `_onAfterEOLChange` for a node of the tree. -/
def moveNode (m : TextModel) (T : IntervalTree) (ref : Nat) : Option IntervalTree := do
  let (l, z, r, path) ← T.root.locate fun n => n.ref = ref
  let range ← (m.cached ref).range
  some { T with
    root := (BinaryTree.node l (recomputeMaxEnd l (m.moved range z) r) r).plug path }

/-- `_onAfterEOLChange`. The nodes of a tree are moved within that tree, so that the trees can
be gone through one by one. -/
def onAfterEOLChange (m : TextModel) : Option TextModel := do
  let (decorationsTree, nodes) ← m.decorationsTree.each fun T => do
    let (T, nodes) ← T.collectNodesPostOrder
    let T ← nodes.foldlM m.moveNode T
    some (T, nodes)
  some { m with
    decorationsTree
    cached := fun ref =>
      if ref ∈ nodes then { m.cached ref with cachedVersionId := m.versionId } else m.cached ref }

def setEOL (m : TextModel) (newEOL : EOL) : Option TextModel := do
  if m.buffer.getEOL = newEOL then some m
  else
    let m ← m.ensureAllNodesHaveRanges
    let buffer ← m.buffer.setEOL newEOL
    { m with buffer, versionId := m.versionId + 1 }.onAfterEOLChange

/-- A decoration with the offsets of a range. -/
def relocated (m : TextModel) (range : Range) (d : Interval) : Interval :=
  { d with
    start := m.buffer.getOffsetAt range.startLineNumber range.startColumn
    stop := m.buffer.getOffsetAt range.endLineNumber range.endColumn }

/-- The range that `getNodeRange` gives for a decoration. -/
def getNodeRange (m : TextModel) (d : Interval) : Range :=
  ((m.cached d.ref).setVersion m.versionId).range.getD (m.getRangeAt d.start d.stop)

end TextModel

/-! ## Nodes in post-order -/

/-- The nodes of a tree, children first. -/
def postOrder : Tree → List Nat
  | .leaf => []
  | .node l n r => postOrder l ++ postOrder r ++ [n.ref]

/-- The loop when a subtree has been left. -/
def collectResume (fuel : Nat) (t : Tree) (path : Path) (result : List Nat) :
    Option (Tree × List Nat) :=
  match path with
  | [] => some (t, result)
  | .left p r :: up => collectNodesPostOrderLoop fuel t p r up result
  | .right l p :: up => collectNodesPostOrderLoop fuel l p t up result

/-- What the loop does with a subtree. -/
def Collects (t : Tree) : Prop :=
  ∀ l n r, t = .node l n r → ∀ path result, ∃ turns, turns + 1 ≤ 3 * size t ∧ ∀ fuel,
    collectNodesPostOrderLoop (turns + fuel) l n r path result =
      collectResume fuel (setVisited true t) path (result ++ postOrder t)

variable {l r : Tree} {n : IntervalNode}

theorem collects_left (left : Collects l) (unvisited : Unvisited l) (bit : n.isVisited = false)
    (path : Path) (result : List Nat) : ∃ turns, turns ≤ 3 * size l ∧ ∀ fuel,
      collectNodesPostOrderLoop (turns + fuel) l n r path result =
        collectNodesPostOrderLoop fuel (setVisited true l) n r path (result ++ postOrder l) := by
  cases l with
  | leaf =>
    refine ⟨0, zero_le _, ?_⟩
    intro fuel
    rw [zero_add, postOrder, append_nil]
    rfl
  | node ll ln lr =>
    have leftBit : ln.isVisited = false := unvisited.2.2
    obtain ⟨turns, bound, run⟩ := left ll ln lr rfl (.left n r :: path) result
    refine ⟨turns + 1, bound, ?_⟩
    intro fuel
    rw [add_right_comm, collectNodesPostOrderLoop]
    simp only [bit, Bool.false_eq_true, if_false, unvisited?, leftBit]
    exact run fuel

theorem collects_right (right : Collects r) (unvisited : Unvisited r) (bit : n.isVisited = false)
    (left : unvisited? l = none) (path : Path) (result : List Nat) :
    ∃ turns, turns ≤ 3 * size r ∧ ∀ fuel,
      collectNodesPostOrderLoop (turns + fuel) l n r path result =
        collectNodesPostOrderLoop fuel l n (setVisited true r) path (result ++ postOrder r) := by
  cases r with
  | leaf =>
    refine ⟨0, zero_le _, ?_⟩
    intro fuel
    rw [zero_add, postOrder, append_nil]
    rfl
  | node rl rn rr =>
    have rightBit : rn.isVisited = false := unvisited.2.2
    obtain ⟨turns, bound, run⟩ := right rl rn rr rfl (.right l n :: path) result
    refine ⟨turns + 1, bound, ?_⟩
    intro fuel
    rw [add_right_comm, collectNodesPostOrderLoop]
    simp only [bit, Bool.false_eq_true, if_false, left]
    simp only [unvisited?, rightBit, Bool.false_eq_true, if_false]
    exact run fuel

theorem collects (unvisited : Unvisited t) : Collects t := by
  induction t with
  | leaf =>
    intro l n r impossible
    cases impossible
  | node l n r leftHypothesis rightHypothesis =>
    obtain ⟨leftUnvisited, rightUnvisited, bit⟩ := unvisited
    rintro _ _ _ ⟨⟩ path result
    obtain ⟨leftTurns, leftBound, leftRun⟩ := @collects_left l r n
      (leftHypothesis leftUnvisited) leftUnvisited bit path result
    obtain ⟨rightTurns, rightBound, rightRun⟩ := @collects_right (setVisited true l) r n
      (rightHypothesis rightUnvisited) rightUnvisited bit (unvisited?_setVisited l) path
      (result ++ postOrder l)
    refine ⟨leftTurns + (rightTurns + 2), by simp only [size]; omega, ?_⟩
    intro fuel
    rw [add_assoc, leftRun, add_assoc, rightRun, add_comm 2,
      collectNodesPostOrderLoop, if_neg (by simp [bit])]
    simp only [unvisited?_setVisited]
    rw [collectNodesPostOrderLoop, if_pos rfl, setVisited_setVisited leftUnvisited.root,
      setVisited_setVisited rightUnvisited.root, postOrder, append_assoc result,
      append_assoc result]
    rfl

variable {T : IntervalTree}

theorem collectNodesPostOrder_eq (unvisited : Unvisited T.root) :
    T.collectNodesPostOrder = some (T, postOrder T.root) := by
  obtain ⟨root, request⟩ := T
  cases root with
  | leaf => rfl
  | node l n r =>
    obtain ⟨turns, bound, run⟩ := collects unvisited l n r rfl [] []
    change turns + 1 ≤ 3 * size (.node l n r) at bound
    have enough : 3 * size (.node l n r) = turns + (3 * size (.node l n r) - turns) := by
      omega
    rw [IntervalTree.collectNodesPostOrder]
    simp only
    rw [enough, run, collectResume, nil_append, map_some, setVisited_setVisited unvisited.root]

/-! ## Moving the nodes -/

namespace TextModel

variable {m : TextModel} {range : Nat → Range}

/-- All nodes of a tree moved to their ranges. -/
def rewritten (m : TextModel) (range : Nat → Range) : Tree → Tree
  | .leaf => .leaf
  | .node l n r =>
    let l := rewritten m range l
    let r := rewritten m range r
    .node l (recomputeMaxEnd l (m.moved (range n.ref) n) r) r

theorem map_ref_rewritten (t : Tree) :
    (m.rewritten range t).inorder.map (·.ref) = t.inorder.map (·.ref) := by
  induction t with
  | leaf => rfl
  | node l n r leftHypothesis rightHypothesis =>
    simp [rewritten, leftHypothesis, rightHypothesis, recomputeMaxEnd, moved]

theorem moveNode_plug {request : Bool} {path : Path}
    (refs : ((BinaryTree.node l n r).plug path).inorder.map (·.ref) |>.Nodup)
    (known : (m.cached n.ref).range = some (range n.ref)) :
    m.moveNode ⟨(BinaryTree.node l n r).plug path, request⟩ n.ref =
      some ⟨(BinaryTree.node l (recomputeMaxEnd l (m.moved (range n.ref) n) r) r).plug path,
        request⟩ := by
  have others : ∀ other, other ∈ TreePath.before path ∨ other ∈ TreePath.after path →
      decide (other.ref = n.ref) = false := by
    intro other member
    rw [inorder_plug, inorder_node] at refs
    simp only [map_append, map_cons, append_assoc, cons_append] at refs
    rw [← append_assoc, nodup_middle, nodup_cons] at refs
    rw [decide_eq_false_iff_not]
    intro same
    apply refs.1
    rw [← same]
    simp only [mem_append]
    obtain before | after := member
    · exact .inl (.inl (mem_map_of_mem before))
    · exact .inr (.inr (mem_map_of_mem after))
  have located := @locate_plug _ n (fun x : IntervalNode => decide (x.ref = n.ref)) path l r
    (decide_eq_true rfl)
    (fun other member => others other (.inl member))
    (fun other member => others other (.inr member))
  rw [moveNode]
  simp only [located, known, bind_eq_bind, bind_some]

theorem foldlM_moveNode {request : Bool} (t : Tree) (path : Path)
    (refs : ((t.plug path).inorder.map (·.ref)).Nodup)
    (known : ∀ n ∈ t.inorder, (m.cached n.ref).range = some (range n.ref)) :
    (postOrder t).foldlM m.moveNode ⟨t.plug path, request⟩ =
      some ⟨(m.rewritten range t).plug path, request⟩ := by
  induction t generalizing path with
  | leaf => rfl
  | node l n r leftHypothesis rightHypothesis =>
    simp only [inorder_node, mem_append, mem_cons] at known
    have left := leftHypothesis (.left n r :: path) refs fun x member => known x (.inl member)
    have refsLeft : (((BinaryTree.node (m.rewritten range l) n r).plug path).inorder.map
        (·.ref)).Nodup := by
      rw [inorder_plug, inorder_node] at refs ⊢
      simpa only [map_append, map_ref_rewritten] using refs
    have right := rightHypothesis (.right (m.rewritten range l) n :: path) refsLeft
      fun x member => known x (.inr (.inr member))
    have refsBoth : (((BinaryTree.node (m.rewritten range l) n (m.rewritten range r)).plug
        path).inorder.map (·.ref)).Nodup := by
      rw [inorder_plug, inorder_node] at refsLeft ⊢
      simpa only [map_append, map_cons, map_ref_rewritten] using refsLeft
    simp only [plug_cons, Crumb.fill] at left right
    simp only [postOrder, foldlM_append, left, right, bind_eq_bind,
      bind_some, foldlM_cons, foldlM_nil,
      moveNode_plug refsBoth (known n (.inr (.inl rfl)))]
    rfl

/-! ## The decorations behind the moves -/

theorem decorations_rewritten (t : Tree) (base : Int)
    (resolved : ∀ d ∈ decorations base t, d.cachedAbsoluteStart = d.start) :
    (decorations base (m.rewritten range t)).map (·.toInterval) =
      (decorations base t).map fun d => m.relocated (range d.ref) d.toInterval := by
  induction t generalizing base with
  | leaf => rfl
  | node l n r leftHypothesis rightHypothesis =>
    simp only [decorations_node, forall_mem_append, forall_mem_cons] at resolved
    obtain ⟨left, own, right⟩ := resolved
    have isStart : n.cachedAbsoluteStart = base + n.start := own
    rw [rewritten, decorations_node, decorations_node, map_append, map_append,
      map_cons, map_cons, leftHypothesis base left]
    refine congrArg₂ (_ ++ · :: ·) ?_ (rightHypothesis _ right)
    simp only [IntervalNode.decoration, recomputeMaxEnd, moved, relocated, Interval.mk.injEq,
      true_and]
    omega

theorem sameColours_rewritten (t : Tree) : SameColours rotator.isRed t (m.rewritten range t) := by
  induction t with
  | leaf => exact .leaf
  | node l n r leftHypothesis rightHypothesis =>
    exact .node leftHypothesis rfl rightHypothesis

/-- All maximal ends are computed anew. -/
theorem sound_rewritten (unvisited : Unvisited t) : Sound (· = ·) (m.rewritten range t) := by
  induction t with
  | leaf => trivial
  | node l n r leftHypothesis rightHypothesis =>
    exact ⟨leftHypothesis unvisited.1, rightHypothesis unvisited.2.1, unvisited.2.2, rfl⟩

/-! ## The invariant -/

/-- What a model keeps of its text and its decorations. -/
structure Ok (m : TextModel) (text : Text) : Prop where
  holds : m.buffer.Holds text
  trees : ∀ T ∈ m.decorationsTree.all, Decorations.Ok (· ≥ ·) T
  refs : ((m.decorationsTree.all.flatMap (·.intervals)).map (·.ref)).Nodup
  within : ∀ T ∈ m.decorationsTree.all, ∀ d ∈ T.intervals, 0 ≤ d.start ∧ d.stop ≤ text.length
  /-- A range that counts is one of the offsets. -/
  cached : ∀ T ∈ m.decorationsTree.all, ∀ d ∈ T.intervals,
    (m.cached d.ref).cachedVersionId = m.versionId →
      ∀ range, (m.cached d.ref).range = some range → m.relocated range d = d

variable {text : Text} {d : Interval}

theorem Ok.valid (ok : m.Ok text) (inModel : T ∈ m.decorationsTree.all) (member : d ∈ T.intervals) :
    ∃ first second : Nat, d.start = first ∧ d.stop = second ∧ first ≤ second ∧
      second ≤ text.length := by
  obtain ⟨e, inTree, rfl⟩ := mem_map.mp member
  have ordered := (ok.trees T inModel).valid e inTree
  obtain ⟨lower, upper⟩ := ok.within T inModel _ member
  exact ⟨e.start.toNat, e.stop.toNat, by omega, by omega, by omega, by omega⟩

/-- How far a text reaches in front of an offset, which may lie inside of a line break. -/
def extentAt (text : Text) (offset : Nat) : Extent :=
  ⟨lineIndex text offset, offset - lineStart text offset⟩

theorem getPositionAt_eq (holds : m.buffer.Holds text) {offset : Nat}
    (inside : offset ≤ text.length) :
    m.buffer.pieceTree.getPositionAt offset = positionOf (extentAt text offset) := by
  obtain ⟨es, inv, rfl, -⟩ := holds.represents
  have below := lineStart_le (textOf m.buffer.pieceTree.buffers es) offset
  rw [inv.getPositionAt inside, positionOf, extentAt]
  simp only [Position.mk.injEq, true_and]
  omega

theorem getOffsetAt_eq (holds : m.buffer.Holds text) {offset : Nat}
    (inside : offset ≤ text.length) :
    m.buffer.getOffsetAt (positionOf (extentAt text offset)).lineNumber
      (positionOf (extentAt text offset)).column = offset := by
  obtain ⟨es, inv, rfl, -⟩ := holds.represents
  have below := lineStart_le (textOf m.buffer.pieceTree.buffers es) offset
  have start := lineStartsOf_getElem?_lineIndex (textOf m.buffer.pieceTree.buffers es) offset
  have present : es ≠ [] ∨ ((offset - lineStart (textOf m.buffer.pieceTree.buffers es) offset :
      Nat) : Int) + 1 = 1 := by
    by_cases empty : es = []
    · subst empty
      rw [textOf_nil, length_nil] at inside
      exact .inr (by omega)
    · exact .inl empty
  rw [PieceTreeTextBuffer.getOffsetAt]
  simp only [positionOf, extentAt]
  rw [inv.getOffsetAt start present]
  omega

/-- The range between two offsets leads back to them. -/
theorem relocated_getRangeAt (holds : m.buffer.Holds text) {first second : Nat}
    (isStart : d.start = first) (isStop : d.stop = second) (ordered : first ≤ second)
    (inside : second ≤ text.length) : m.relocated (m.getRangeAt d.start d.stop) d = d := by
  have sorted : extentAt text first ≤ extentAt text second := by
    rw [Extent.le_def, extentAt, extentAt]
    rcases (lineIndex_mono text ordered).lt_or_eq with less | same
    · exact .inl less
    · have start := lineStartsOf_getElem?_lineIndex text first
      rw [same, lineStartsOf_getElem?_lineIndex, Option.some.injEq] at start
      refine .inr ⟨same, ?_⟩
      dsimp only
      omega
  have positions := newRange_positionOf sorted
  rw [getRangeAt, PieceTreeTextBuffer.getRangeAt, isStart, isStop, add_sub_cancel,
    getPositionAt_eq holds (ordered.trans inside), getPositionAt_eq holds inside]
  simp only [positions, relocated, getOffsetAt_eq holds (ordered.trans inside),
    getOffsetAt_eq holds inside, ← isStart, ← isStop]

/-- The range of a decoration is one of its offsets. -/
theorem Ok.relocated_getNodeRange (ok : m.Ok text) (inModel : T ∈ m.decorationsTree.all)
    (member : d ∈ T.intervals) : m.relocated (m.getNodeRange d) d = d := by
  obtain ⟨first, second, isStart, isStop, ordered, inside⟩ := ok.valid inModel member
  have computed := relocated_getRangeAt ok.holds isStart isStop ordered inside
  rw [getNodeRange, CachedRange.setVersion]
  split_ifs with other
  · exact computed
  · cases isRange : (m.cached d.ref).range with
    | none => exact computed
    | some range => exact ok.cached T inModel d member (not_not.mp other) range isRange

/-! ## Changing the line breaks -/

/-- The search that finds all nodes of a tree. -/
def searched (m : TextModel) (T : IntervalTree) : IntervalTree × List IntervalNode :=
  let out := (searchSweep m.attributes ⟨0, false, false⟩).swept 0 T.root []
  ({ T with root := out.1 }, out.2)

theorem searched_spec (m : TextModel) (ok : Decorations.Ok fits T) :
    T.search m.attributes ⟨0, false, false⟩ = some (m.searched T) ∧
      Decorations.Ok fits (m.searched T).1 ∧
      decorations 0 (m.searched T).1.root = (decorations 0 T.root).map (·.resolved) ∧
      (m.searched T).2.map (·.found) = T.intervals.map (·.place) := by
  obtain ⟨searched, ok', resolved, found⟩ := ok.search m.attributes ⟨0, false, false⟩
  refine ⟨searched, ok', resolved, found.trans ?_⟩
  have all : ∀ a, SearchFilter.includes ⟨0, false, false⟩ a = true := by
    simp [SearchFilter.includes]
  simp only [all, List.filter_true, IntervalTree.intervals, List.map_map]
  rfl

/-- Behind `ensureAllNodesHaveRanges` every node has its range. -/
theorem Ok.ensureAllNodesHaveRanges (ok : m.Ok text) :
    ∃ cached, m.ensureAllNodesHaveRanges = some { m with
        decorationsTree := m.decorationsTree.map fun T => (m.searched T).1, cached } ∧
      ∀ T ∈ m.decorationsTree.all, ∀ d ∈ T.intervals,
        (cached d.ref).range = some (m.getNodeRange d) := by
  have spec := fun T inModel => m.searched_spec (ok.trees T inModel)
  rw [TextModel.ensureAllNodesHaveRanges,
    DecorationsTrees.each_eq fun T inModel => (spec T inModel).1]
  refine ⟨_, rfl, ?_⟩
  intro T inModel d member
  split
  next n isFound =>
    have isRef : n.ref = d.ref := by simpa using find?_some isFound
    obtain ⟨U, inModel', isNode⟩ := mem_flatMap.mp (mem_of_find?_eq_some isFound)
    have inFound : n.found ∈ (m.searched U).2.map (·.found) := mem_map_of_mem isNode
    rw [(spec U inModel').2.2.2] at inFound
    obtain ⟨e, inTree, isPlace⟩ := mem_map.mp inFound
    obtain ⟨sameRef, sameStart, sameStop⟩ : e.ref = n.ref ∧ e.start = n.cachedAbsoluteStart ∧
        e.stop = n.cachedAbsoluteEnd := by
      simpa only [Interval.place, IntervalNode.found, Prod.mk.injEq] using isPlace
    have same : e = d := inj_on_of_nodup_map ok.refs
      (mem_flatMap.mpr ⟨U, inModel', inTree⟩) (mem_flatMap.mpr ⟨T, inModel, member⟩)
      (sameRef.trans isRef)
    rw [withRange, ← sameStart, ← sameStop, same]
    rfl
  next missing =>
    have inPlaces : d.place ∈ T.intervals.map (·.place) := mem_map_of_mem member
    rw [← (spec T inModel).2.2.2] at inPlaces
    obtain ⟨n, isNode, isPlace⟩ := mem_map.mp inPlaces
    have isRef : n.ref = d.ref := congrArg Prod.fst isPlace
    have absent := find?_eq_none.mp missing n (mem_flatMap.mpr ⟨T, inModel, isNode⟩)
    exact absurd (decide_eq_true isRef) absent

/-- Every decoration of a tree moves to the range that it had. -/
theorem Ok.setEOL_moves (ok : m.Ok text) {eol : EOL} (changes : m.buffer.getEOL ≠ eol) :
    ∃ m', m.setEOL eol = some m' ∧ m'.buffer.Holds (replaceEOL eol.text text) ∧
      List.Forall₂ (fun T T' => IsRedBlack rotator.isRed T'.root ∧ Sound (· = ·) T'.root ∧
          T'.intervals = T.intervals.map fun d => m'.relocated (m.getNodeRange d) d)
        m.decorationsTree.all m'.decorationsTree.all := by
  obtain ⟨cached, ensured, ranges⟩ := ok.ensureAllNodesHaveRanges
  obtain ⟨buffer, isBuffer, holds⟩ := ok.holds.setEOL eol
  let m₂ : TextModel := { m with
    buffer, cached, versionId := m.versionId + 1
    decorationsTree := m.decorationsTree.map fun T => (m.searched T).1 }
  let range (ref : Nat) : Range := (cached ref).range.getD ⟨1, 1, 1, 1⟩
  have known : ∀ T ∈ m.decorationsTree.all, ∀ d ∈ T.intervals,
      (m₂.cached d.ref).range = some (range d.ref) ∧ range d.ref = m.getNodeRange d := by
    intro T inModel d member
    have isRange := ranges T inModel d member
    simp only [range, m₂, isRange, getD_some, and_self]
  have moves : ∀ T ∈ m₂.decorationsTree.all, (do
      let (T, nodes) ← T.collectNodesPostOrder
      let T ← nodes.foldlM m₂.moveNode T
      some (T, nodes)) = some ({ T with root := m₂.rewritten range T.root }, postOrder T.root) := by
    intro T₁ searched
    obtain ⟨T, inModel, rfl⟩ := List.mem_map.mp
      (show T₁ ∈ m.decorationsTree.all.map fun T => (m.searched T).1 from searched)
    obtain ⟨-, ok₁, resolved, -⟩ := m.searched_spec (ok.trees T inModel)
    have refs := ok₁.refs
    rw [map_ref_decorations] at refs
    have run := @foldlM_moveNode m₂ range (m.searched T).1.requestNormalizeDelta _ [] refs (by
      intro n member
      have inRefs := List.mem_map_of_mem (f := fun n : IntervalNode => n.ref) member
      rw [← map_ref_decorations 0, resolved, List.map_map] at inRefs
      obtain ⟨d, inTree, isRef⟩ := List.mem_map.mp inRefs
      rw [← isRef]
      exact (known T inModel d.toInterval (List.mem_map_of_mem inTree)).1)
    rw [collectNodesPostOrder_eq ok₁.sound.unvisited]
    exact (congrArg (Option.bind · _) run).trans rfl
  let moved (T : IntervalTree) : IntervalTree := { T with root := m₂.rewritten range T.root }
  let nodes := m₂.decorationsTree.all.flatMap fun T => postOrder T.root
  refine ⟨{ m₂ with
    decorationsTree := m₂.decorationsTree.map moved
    cached := fun ref =>
      if ref ∈ nodes then { cached ref with cachedVersionId := m.versionId + 1 }
      else cached ref }, ?_, holds, ?_⟩
  · rw [setEOL, if_neg changes, ensured]
    simp only [bind_eq_bind, bind_some, isBuffer]
    exact (congrArg (Option.bind · _) (DecorationsTrees.each_eq moves)).trans rfl
  · change List.Forall₂ _ _ (m.decorationsTree.all.map fun T => moved (m.searched T).1)
    rw [List.forall₂_map_right_iff, List.forall₂_same]
    intro T inModel
    obtain ⟨-, ok₁, resolved, -⟩ := m.searched_spec (ok.trees T inModel)
    refine ⟨(sameColours_rewritten _).isRedBlack ok₁.redBlack,
      sound_rewritten ok₁.sound.unvisited, ?_⟩
    have isMoved := @decorations_rewritten m₂ range (m.searched T).1.root 0 (by
      rw [resolved]
      intro d member
      obtain ⟨e, -, rfl⟩ := List.mem_map.mp member
      rfl)
    refine isMoved.trans ?_
    rw [resolved, List.map_map, IntervalTree.intervals, List.map_map]
    apply List.map_congr_left
    intro d member
    have isRange := (known T inModel d.toInterval (List.mem_map_of_mem member)).2
    simp only [Function.comp_apply]
    rw [← isRange]
    rfl

end TextModel

/-! ## Decorations stay in place -/

/-- The ends of a range are positions of the text, at the given offsets. -/
structure RangeAt (text : Text) (range : Range) (first second : Nat) : Prop where
  start : ValidAt text ⟨range.startLineNumber, range.startColumn⟩ first
  stop : ValidAt text ⟨range.endLineNumber, range.endColumn⟩ second

/-- A decoration has the offsets of a range of the text. -/
def Interval.LiesAt (text : Text) (range : Range) (d : Interval) : Prop :=
  ∃ first second : Nat, RangeAt text range first second ∧ d.start = first ∧ d.stop = second

/-- What a change of the line breaks promises for a tree of decorations. -/
structure KeptInPlace (m : TextModel) (text text' : Text) (T T' : IntervalTree) : Prop where
  offsets : List.Forall₂ (fun d d' => { d' with start := d.start, stop := d.stop } = d ∧
    d'.LiesAt text' (m.getNodeRange d)) T.intervals T'.intervals
  ok : Ok (· = ·) T'
  found : ∀ attributes filter range first second first' second',
    RangeAt text range first second → RangeAt text' range first' second' →
      ∃ T₁ T₁' result result',
        T.intervalSearch attributes filter first second = some (T₁, result) ∧
          T'.intervalSearch attributes filter first' second' = some (T₁', result') ∧
          result'.map (·.ref) = result.map (·.ref)

variable {m m' : TextModel} {text text' : Text} {range : Range}

theorem TextModel.relocated_of_rangeAt (holds : m.buffer.Holds text)
    (rangeAt : RangeAt text range first second) (d : Interval) :
    m.relocated range d = { d with start := first, stop := second } := by
  have start := PieceTreeTextBuffer.getOffsetAt_of_validAt holds.represents rangeAt.start
  have stop := PieceTreeTextBuffer.getOffsetAt_of_validAt holds.represents rangeAt.stop
  rw [relocated, start, stop]

theorem rangeAt_replaceEOL (eol : EOL) (rangeAt : RangeAt text range first second) :
    ∃ first' second', RangeAt (replaceEOL eol.text text) range first' second' := by
  obtain ⟨first', start⟩ := validAt_replaceEOL eol rangeAt.start
  obtain ⟨second', stop⟩ := validAt_replaceEOL eol rangeAt.stop
  exact ⟨first', second', start, stop⟩

/-- Ranges of a text with one kind of line breaks are those of the text with other ones. -/
theorem rangeAt_of_replaceEOL {old eol : EOL} (normalized : AllBreaksAre old text)
    (rangeAt : RangeAt (replaceEOL eol.text text) range first' second') :
    ∃ first second, RangeAt text range first second := by
  have back := rangeAt_replaceEOL old rangeAt
  rwa [replaceEOL_replaceEOL, replaceEOL_eq_self normalized] at back

/-- Two decorations with the same ranges in two texts are in the same order in both. -/
structure SameOrder (d e d' e' : Interval) : Prop where
  starts : d.start ≤ e.start ↔ d'.start ≤ e'.start
  stops : d.stop ≤ e.stop ↔ d'.stop ≤ e'.stop
  across : d.start ≤ e.stop ↔ d'.start ≤ e'.stop

theorem sameOrder_of_liesAt {d e d' e' : Interval} (first : d.LiesAt text range)
    (second : e.LiesAt text range') (first' : d'.LiesAt text' range)
    (second' : e'.LiesAt text' range') : SameOrder d e d' e' := by
  obtain ⟨i, j, dAt, isStart, isStop⟩ := first
  obtain ⟨k, l, eAt, isStart', isStop'⟩ := second
  obtain ⟨i', j', dAt', movedStart, movedStop⟩ := first'
  obtain ⟨k', l', eAt', movedStart', movedStop'⟩ := second'
  have starts := le_iff_of_validAt dAt.start eAt.start dAt'.start eAt'.start
  have stops := le_iff_of_validAt dAt.stop eAt.stop dAt'.stop eAt'.stop
  have across := le_iff_of_validAt dAt.start eAt.stop dAt'.start eAt'.stop
  exact ⟨by omega, by omega, by omega⟩

section Moved

variable {T T' : IntervalTree} {old eol : EOL} (ok : m.Ok text)
  (inModel : T ∈ m.decorationsTree.all) (holds : m'.buffer.Holds (replaceEOL eol.text text))
  (moved : T'.intervals = T.intervals.map fun d => m'.relocated (m.getNodeRange d) d)

include ok inModel holds in
/-- A decoration in the text moves to its range in the other text. -/
theorem liesAt_relocated {d : Interval} (member : d ∈ T.intervals)
    (rangeAt : RangeAt text (m.getNodeRange d) first second) :
    d.LiesAt text (m.getNodeRange d) ∧
      (m'.relocated (m.getNodeRange d) d).LiesAt (replaceEOL eol.text text) (m.getNodeRange d) := by
  have own := ok.relocated_getNodeRange inModel member
  rw [TextModel.relocated_of_rangeAt ok.holds rangeAt] at own
  obtain ⟨first', second', rangeAt'⟩ := rangeAt_replaceEOL eol rangeAt
  rw [TextModel.relocated_of_rangeAt holds rangeAt']
  exact ⟨⟨first, second, rangeAt, congrArg Interval.start own.symm,
    congrArg Interval.stop own.symm⟩, first', second', rangeAt', rfl, rfl⟩

include ok inModel holds moved in
theorem ok_of_moved (redBlack : IsRedBlack rotator.isRed T'.root) (sound : Sound (· = ·) T'.root)
    (inText : ∀ d ∈ T.intervals, ∃ first second, RangeAt text (m.getNodeRange d) first second) :
    Ok (· = ·) T' := by
  have treeOk := ok.trees T inModel
  have lies : ∀ d ∈ T.intervals, d.LiesAt text (m.getNodeRange d) ∧
      (m'.relocated (m.getNodeRange d) d).LiesAt (replaceEOL eol.text text) (m.getNodeRange d) := by
    intro d member
    obtain ⟨first, second, rangeAt⟩ := inText d member
    exact liesAt_relocated ok inModel holds member rangeAt
  apply ok_of_intervals redBlack sound
  · rw [moved, List.pairwise_map]
    refine treeOk.sorted_intervals.imp_of_mem ?_
    intro d e dMember eMember less
    have order := sameOrder_of_liesAt (lies d dMember).1 (lies e eMember).1 (lies d dMember).2
      (lies e eMember).2
    have back := sameOrder_of_liesAt (lies e eMember).1 (lies d dMember).1 (lies e eMember).2
      (lies d dMember).2
    obtain ⟨starts, stops, -⟩ := order
    have starts' := back.starts
    unfold intervalCompare at less ⊢
    split_ifs at less ⊢ <;> omega
  · rw [moved, List.map_map]
    exact treeOk.refs_intervals
  · rw [moved]
    intro d' member
    obtain ⟨d, dMember, rfl⟩ := List.mem_map.mp member
    obtain ⟨here, there⟩ := lies d dMember
    obtain ⟨first, second, isStart, isStop, ordered, -⟩ := ok.valid inModel dMember
    have across := (sameOrder_of_liesAt here here there there).across
    omega

include ok inModel holds moved in
/-- The decorations of a tree stay in place exactly when their ranges lie in the text. -/
theorem keptInPlace_iff (redBlack : IsRedBlack rotator.isRed T'.root)
    (sound : Sound (· = ·) T'.root) :
    KeptInPlace m text (replaceEOL eol.text text) T T' ↔
      ∀ d ∈ T.intervals, ∃ first second, RangeAt text (m.getNodeRange d) first second := by
  constructor
  · intro kept d member
    have offsets := kept.offsets
    rw [moved, List.forall₂_map_right_iff, List.forall₂_same] at offsets
    obtain ⟨-, first', second', rangeAt', -⟩ := offsets d member
    exact rangeAt_of_replaceEOL ok.holds.normalized rangeAt'
  · intro inText
    have ok' := ok_of_moved ok inModel holds moved redBlack sound inText
    refine ⟨?_, ok', ?_⟩
    · rw [moved, List.forall₂_map_right_iff, List.forall₂_same]
      intro d member
      obtain ⟨first, second, rangeAt⟩ := inText d member
      exact ⟨rfl, (liesAt_relocated ok inModel holds member rangeAt).2⟩
    · intro attributes filter range first second first' second' rangeAt rangeAt'
      obtain ⟨T₁, result, isFound, -, refs⟩ :=
        (ok.trees T inModel).intervalSearch_intervals (fun _ _ fit => fit) attributes filter first
          second
      obtain ⟨T₁', result', isFound', -, refs'⟩ :=
        ok'.intervalSearch_intervals (fun _ _ same => same.ge) attributes filter first' second'
      refine ⟨T₁, T₁', result, result', isFound, isFound', ?_⟩
      rw [refs, refs', moved, List.filter_map, List.map_map]
      have same : ∀ d ∈ T.intervals,
          (m'.relocated (m.getNodeRange d) d).meets first' second' = d.meets first second := by
        intro d member
        obtain ⟨i, j, own⟩ := inText d member
        obtain ⟨here, there⟩ := liesAt_relocated ok inModel holds member own
        have query : Interval.LiesAt text range { d with start := first, stop := second } :=
          ⟨first, second, rangeAt, rfl, rfl⟩
        have query' : Interval.LiesAt (replaceEOL eol.text text) range
            { d with start := first', stop := second' } := ⟨first', second', rangeAt', rfl, rfl⟩
        have before := (sameOrder_of_liesAt here query there query').across
        have behind := (sameOrder_of_liesAt query here query' there).across
        rw [Interval.meets, Interval.meets, decide_eq_decide.mpr before.symm,
          decide_eq_decide.mpr behind.symm]
      congr 1
      apply List.filter_congr
      intro d member
      rw [Function.comp_apply, same d member]
      rfl

end Moved

theorem forall₂_iff_of_forall₂ {α β : Type} {related kept : α → β → Prop} {holds : α → Prop}
    {xs : List α} {ys : List β} (all : List.Forall₂ related xs ys)
    (iff : ∀ x ∈ xs, ∀ y, related x y → (kept x y ↔ holds x)) :
    List.Forall₂ kept xs ys ↔ ∀ x ∈ xs, holds x := by
  induction all with
  | nil => simp
  | cons first rest ih =>
    rw [forall₂_cons, forall_mem_cons, iff _ mem_cons_self _ first,
      ih fun x member => iff x (mem_cons_of_mem _ member)]

/-- After a change of the line breaks the decorations are where their ranges are in the new text,
the trees are in order and every search finds the same decorations, exactly when all ranges lay in
the text: none may reach between the two halves of a line break. -/
theorem setEOL_keeps_decorations {m : TextModel} {text : Text} (ok : m.Ok text) (eol : EOL) :
    ∃ m', m.setEOL eol = some m' ∧ m'.buffer.Holds (replaceEOL eol.text text) ∧
      (m.buffer.getEOL = eol → m' = m) ∧
      (m.buffer.getEOL ≠ eol →
        (List.Forall₂ (KeptInPlace m text (replaceEOL eol.text text)) m.decorationsTree.all
            m'.decorationsTree.all ↔
          ∀ T ∈ m.decorationsTree.all, ∀ d ∈ T.intervals, ∃ first second,
            RangeAt text (m.getNodeRange d) first second)) := by
  by_cases same : m.buffer.getEOL = eol
  · refine ⟨m, by rw [TextModel.setEOL, if_pos same], ?_, fun _ => rfl, absurd same⟩
    rw [← same, replaceEOL_eq_self ok.holds.normalized]
    exact ok.holds
  · obtain ⟨m', changed, holds, moved⟩ := ok.setEOL_moves same
    refine ⟨m', changed, holds, fun isSame => absurd isSame same, fun _ => ?_⟩
    apply forall₂_iff_of_forall₂ moved
    rintro T inModel T' ⟨redBlack, sound, isMoved⟩
    exact keptInPlace_iff ok inModel holds isMoved redBlack sound

/-- A decoration from one line to the next. -/
def sampleTrees : DecorationsTrees where
  decorationsTree0 := ⟨.node .leaf { IntervalNode.new 0 "a" 1 3 with color := .Black } .leaf, false⟩
  decorationsTree1 := .new
  injectedTextDecorationsTree := .new

theorem sampleTrees_ok : ∀ T ∈ sampleTrees.all, Ok (· ≥ ·) T := by
  simp only [DecorationsTrees.all, forall_mem_cons]
  refine ⟨?_, ok_new, ok_new, nofun⟩
  apply ok_of_intervals  ⟨(rootBlack_node ..).mpr rfl, 1, (balanced_black rfl).mpr
      ⟨0, rfl, (balanced_leaf _ 0).mpr rfl, (balanced_leaf _ 0).mpr rfl⟩⟩
    (show Sound _ (.node .leaf _ .leaf) from ⟨trivial, trivial, rfl, le_rfl⟩)
  all_goals decide

theorem setEOL_keeps_decorations_sample :
    ∃ m m' : TextModel, m.buffer.Holds [97, CR, LF, 98] ∧ m.decorationsTree = sampleTrees ∧
      m.setEOL .lf = some m' ∧ m'.buffer.Holds [97, LF, 98] ∧
      List.Forall₂ (KeptInPlace m [97, CR, LF, 98] [97, LF, 98]) m.decorationsTree.all
        m'.decorationsTree.all := by
  obtain ⟨s, created, represents, isEOL⟩ := create_represents 0 initialChunks_sample
  have normalized : AllBreaksAre s.eol [97, CR, LF, 98] := by
    rw [isEOL]
    decide
  let m : TextModel := ⟨⟨s, [], false, false, false⟩, 1, sampleTrees, fun _ => ⟨0, false, false⟩,
    fun _ => ⟨1, some ⟨1, 2, 2, 1⟩⟩⟩
  have holds : m.buffer.Holds [97, CR, LF, 98] := ⟨represents, normalized⟩
  have rangeAt : RangeAt [97, CR, LF, 98] ⟨1, 2, 2, 1⟩ 1 3 :=
    ⟨validAt_iff.mpr (by decide), validAt_iff.mpr (by decide)⟩
  have offsets : ∀ T ∈ sampleTrees.all, ∀ d ∈ T.intervals,
      0 ≤ d.start ∧ d.stop ≤ 4 ∧ { d with start := 1, stop := 3 } = d := by decide
  have ok : m.Ok [97, CR, LF, 98] := by
    refine ⟨holds, sampleTrees_ok,
      show (sampleTrees.all.flatMap _ |>.map _).Nodup by decide, ?_, ?_⟩
    · intro T inModel d member
      exact ⟨(offsets T inModel d member).1, (offsets T inModel d member).2.1⟩
    · intro T inModel d member _ range isRange
      cases isRange
      rw [TextModel.relocated_of_rangeAt holds rangeAt]
      exact (offsets T inModel d member).2.2
  have differs : m.buffer.getEOL ≠ .lf := by
    change s.eol ≠ .lf
    rw [isEOL]
    decide
  obtain ⟨m', changed, holds', -, keeps⟩ := setEOL_keeps_decorations ok .lf
  exact ⟨m, m', holds, rfl, changed, holds', (keeps differs).mpr fun _ _ _ _ => ⟨1, 3, rangeAt⟩⟩

/-- An edit has put a line break where one decoration starts and another one ends. -/
def acrossBreak : Option TextModel := do
  let buffer ← PieceTreeTextBuffer.new [⟨[120, CR, LF, 100, 101, 102, 103, 104], [0, 3]⟩] [] .crlf
    false false true true
  let T ← Simulation.run IntervalTree.serve .new
    [.change (.insert (.new 0 "a" 2 8)), .change (.insert (.new 1 "b" 3 4)),
      .change (.insert (.new 2 "c" 1 2)), .change (.acceptReplace 0 3 3 false)]
  some ⟨buffer, 1, ⟨T, .new, .new⟩, fun _ => ⟨0, false, false⟩, fun _ => ⟨0, none⟩⟩

/-- Behind the change the tree is out of order, and a search at the start of the second line finds
one decoration more. -/
theorem setEOL_breaks_order :
    ∃ m m' T₁ T₂ found found', acrossBreak = some m ∧ m.setEOL .lf = some m' ∧
      ¬ m'.decorationsTree.decorationsTree0.intervals.Pairwise
        (fun a b => intervalCompare a.start a.stop b.start b.stop ≤ 0) ∧
      m.decorationsTree.decorationsTree0.intervalSearch m.attributes ⟨0, false, false⟩ 3 3 =
        some (T₁, found) ∧
      m'.decorationsTree.decorationsTree0.intervalSearch m.attributes ⟨0, false, false⟩ 2 2 =
        some (T₂, found') ∧
      found.map (·.ref) = [0, 1] ∧ found'.map (·.ref) = [2, 0, 1] := by
  have evaluated : (do
      let m ← acrossBreak
      let m' ← m.setEOL .lf
      let found ← (m.decorationsTree.decorationsTree0.intervalSearch m.attributes
        ⟨0, false, false⟩ 3 3).map Prod.snd
      let found' ← (m'.decorationsTree.decorationsTree0.intervalSearch m.attributes
        ⟨0, false, false⟩ 2 2).map Prod.snd
      some (decide (m'.decorationsTree.decorationsTree0.intervals.Pairwise fun a b =>
        intervalCompare a.start a.stop b.start b.stop ≤ 0), found.map (·.ref),
          found'.map (·.ref))) = some (false, [0, 1], [2, 0, 1]) := by
    decide +kernel
  simp only [bind_eq_bind, bind_eq_some_iff, map_eq_some_iff, Option.some.injEq, Prod.mk.injEq,
    Prod.exists, exists_eq_right, decide_eq_false_iff_not] at evaluated
  obtain ⟨m, isModel, m', changed, found, ⟨T₁, before⟩, found', ⟨T₂, behind⟩, unsorted, refs,
    refs'⟩ := evaluated
  exact ⟨m, m', T₁, T₂, found, found', isModel, changed, unsorted, before, behind, refs, refs'⟩

end CodeEditor.Decorations
