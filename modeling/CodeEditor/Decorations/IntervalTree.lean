import CodeEditor.Foundation.RedBlack

/-!
# The interval tree of decorations

Model of `intervalTree.ts`. Offsets of a node are relative: the absolute offset adds
the `delta` of every ancestor that has the node in its right subtree. A node object
is focused by its two subtrees and the path to the root; `ref` stands for the
identity of the object. The bits of `metadata` are fields of their own.

The source has one shared `SENTINEL` object, here a leaf. What is written to its
`start`, `end` and `delta` during a deletion is never read and reset at the end.
-/

namespace CodeEditor.Decorations

open CodeEditor.BinaryTree RedBlack

inductive NodeColor
  | Black
  | Red
  deriving DecidableEq, Repr

inductive TrackedRangeStickiness
  | AlwaysGrowsWhenTypingAtEdges
  | NeverGrowsWhenTypingAtEdges
  | GrowsOnlyWhenTypingBefore
  | GrowsOnlyWhenTypingAfter
  deriving DecidableEq, Repr

/-- `MIN_SAFE_DELTA`. -/
def minSafeDelta : Int := -2 ^ 30

/-- `MAX_SAFE_DELTA`. -/
def maxSafeDelta : Int := 2 ^ 30

/-- A delta that asks for normalization. -/
def isUnsafeDelta (delta : Int) : Bool :=
  delta < minSafeDelta || delta > maxSafeDelta

/-- The data of a node; `stop` is the field `end` of the source. -/
structure IntervalNode where
  ref : Nat
  color : NodeColor
  isVisited : Bool
  stickiness : TrackedRangeStickiness
  collapseOnReplaceEdit : Bool
  start : Int
  stop : Int
  delta : Int
  maxEnd : Int
  id : String
  cachedAbsoluteStart : Int
  cachedAbsoluteEnd : Int
  deriving DecidableEq, Repr

abbrev Tree := BinaryTree IntervalNode

abbrev Path := TreePath IntervalNode

namespace IntervalNode

/-- The constructor. -/
def new (ref : Nat) (id : String) (start stop : Int) : IntervalNode where
  ref
  color := .Red
  isVisited := false
  stickiness := .NeverGrowsWhenTypingAtEdges
  collapseOnReplaceEdit := false
  start
  stop
  delta := 0
  maxEnd := stop
  id
  cachedAbsoluteStart := start
  cachedAbsoluteEnd := stop

/-- `n.start += delta; n.end += delta; n.delta += delta`. -/
def shift (n : IntervalNode) (delta : Int) : IntervalNode :=
  { n with start := n.start + delta, stop := n.stop + delta, delta := n.delta + delta }

def setCachedOffsets (n : IntervalNode) (absoluteStart absoluteEnd : Int) : IntervalNode :=
  { n with cachedAbsoluteStart := absoluteStart, cachedAbsoluteEnd := absoluteEnd }

end IntervalNode

structure IntervalTree where
  root : Tree
  requestNormalizeDelta : Bool
  deriving DecidableEq, Repr

/-- The constructor. -/
def IntervalTree.new : IntervalTree := ⟨.leaf, false⟩

/-! ## Maximal ends -/

/-- The `maxEnd` of a child; `none` for the sentinel. -/
def maxEnd? : Tree → Option Int
  | .leaf => none
  | .node _ n _ => some n.maxEnd

def computeMaxEnd (l : Tree) (n : IntervalNode) (r : Tree) : Int :=
  let maxEnd := n.stop
  let maxEnd :=
    match maxEnd? l with
    | none => maxEnd
    | some leftMaxEnd => if leftMaxEnd > maxEnd then leftMaxEnd else maxEnd
  match maxEnd? r with
  | none => maxEnd
  | some rightMaxEnd =>
    if rightMaxEnd + n.delta > maxEnd then rightMaxEnd + n.delta else maxEnd

def recomputeMaxEnd (l : Tree) (n : IntervalNode) (r : Tree) : IntervalNode :=
  { n with maxEnd := computeMaxEnd l n r }

/-- `recomputeMaxEndWalkToRoot(node)`, where `node` is the parent of a focus. -/
def walkFromParent (x : Tree) : Path → Path
  | [] => []
  | .left n r :: up =>
    if n.maxEnd = computeMaxEnd x n r then .left n r :: up
    else
      let n' := recomputeMaxEnd x n r
      .left n' r :: walkFromParent (.node x n' r) up
  | .right l n :: up =>
    if n.maxEnd = computeMaxEnd l n x then .right l n :: up
    else
      let n' := recomputeMaxEnd l n x
      .right l n' :: walkFromParent (.node l n' x) up

/-- `recomputeMaxEndWalkToRoot(node)`, where `node` is an ancestor of a focus; the
parent has index `0`. -/
def walkFromAncestor : (index : Nat) → Tree → Path → Path
  | 0, x, path => walkFromParent x path
  | _, _, [] => []
  | index + 1, x, crumb :: up => crumb :: walkFromAncestor index (crumb.fill x) up

/-- `recomputeMaxEndWalkToRoot(x)`, where `x` is the focus. -/
def recomputeMaxEndWalkToRoot : Tree → Path → Tree × Path
  | .leaf, path => (.leaf, path)
  | .node l n r, path =>
    if n.maxEnd = computeMaxEnd l n r then (.node l n r, path)
    else
      let x := .node l (recomputeMaxEnd l n r) r
      (x, walkFromParent x path)

/-! ## Rotations -/

/-- `leftRotate(T, x)`, on the subtree of `x`. -/
def leftRotate : Tree → (requestNormalizeDelta : Bool) → Option (Tree × Bool)
  | .node a x (.node b y c), request =>
    let y := y.shift x.delta
    let x := recomputeMaxEnd a x b
    some (.node (.node a x b) (recomputeMaxEnd (.node a x b) y c) c,
      request || isUnsafeDelta y.delta)
  | _, _ => none

/-- `rightRotate(T, y)`, on the subtree of `y`. -/
def rightRotate : Tree → (requestNormalizeDelta : Bool) → Option (Tree × Bool)
  | .node (.node a x b) y c, request =>
    let y := y.shift (-x.delta)
    let y := recomputeMaxEnd b y c
    some (.node a (recomputeMaxEnd a x (.node b y c)) (.node b y c),
      request || isUnsafeDelta y.delta)
  | _, _ => none

/-- Colours and rotations of the tree. -/
def rotator : Rotator IntervalNode Bool where
  isRed n := n.color = .Red
  paint red n := { n with color := if red then .Red else .Black }
  leftRotate := leftRotate
  rightRotate := rightRotate

/-! ## Insertion -/

def intervalCompare (aStart aEnd bStart bEnd : Int) : Int :=
  if aStart = bStart then aEnd - bEnd else aStart - bStart

/-- The loop of `treeInsert`: the path to the place of a new node, and the deltas on
the way. -/
def treeInsertPath (zAbsoluteStart zAbsoluteEnd : Int) : Tree → Path → (delta : Int) →
    Path × Int
  | .leaf, path, delta => (path, delta)
  | .node l x r, path, delta =>
    if intervalCompare zAbsoluteStart zAbsoluteEnd (x.start + delta) (x.stop + delta) < 0
    then treeInsertPath zAbsoluteStart zAbsoluteEnd l (.left x r :: path) delta
    else treeInsertPath zAbsoluteStart zAbsoluteEnd r (.right l x :: path) (delta + x.delta)

/-- What `treeInsert` writes into the new node. -/
def linked (z : IntervalNode) (delta : Int) : IntervalNode :=
  { z with
    start := z.start - delta
    stop := z.stop - delta
    maxEnd := z.maxEnd - delta
    color := .Red }

def rbTreeInsert (T : IntervalTree) (newNode : IntervalNode) : Option IntervalTree :=
  match T.root with
  | .leaf => some { T with root := .node .leaf { newNode with color := .Black } .leaf }
  | root => do
      let (path, delta) := treeInsertPath newNode.start newNode.stop root [] 0
      let x := .node .leaf (linked newNode delta) .leaf
      let (root, request) ← rotator.fixInsert x (walkFromParent x path)
        T.requestNormalizeDelta
      some ⟨root, request⟩

/-! ## Deletion -/

/-- `x.start += delta; x.end += delta; x.delta += delta`, where `x` may be the
sentinel. -/
def shiftRoot (delta : Int) : Tree → Tree
  | .leaf => .leaf
  | .node l n r => .node l (n.shift delta) r

/-- The field `delta` of a node, which is `0` for the sentinel. -/
def rootDelta : Tree → Int
  | .leaf => 0
  | .node _ n _ => n.delta

/-- `recomputeMaxEnd(x)`, where `x` may be the sentinel. -/
def recomputeRoot : Tree → Tree
  | .leaf => .leaf
  | .node l n r => .node l (recomputeMaxEnd l n r) r

/-- `recomputeMaxEndWalkToRoot(y)` and `recomputeMaxEndWalkToRoot(y.parent)` for a node
`y` that has moved up and is now the ancestor of `x` with the given index. -/
def walkFromMoved (y : Option Nat) (x : Tree) (path : Path) : Path :=
  match y with
  | none => path
  | some index => walkFromAncestor (index + 1) x (walkFromAncestor index x path)

/-- The end of `rbTreeDelete`: `x` has taken the place of `y`, which was not the
root. -/
def finishDelete (yWasRed : Bool) (y : Option Nat) (x : Tree) (path : Path)
    (request : Bool) : Option (Tree × Bool) :=
  if yWasRed then some (x.plug (walkFromMoved y x (walkFromParent x path)), request)
  else
    let (x, path) := recomputeMaxEndWalkToRoot x path
    rotator.fixup x (walkFromMoved y x (walkFromParent x path)) request

/-- `rbTreeDelete` for a node `z` with at most one child `x`, so that `y` is `z`. -/
def deleteWithOneChild (z : IntervalNode) (x : Tree) (path : Path) (request : Bool) :
    Option (Tree × Bool) :=
  match path with
  | [] => some (recomputeRoot (rotator.paintRoot false x), request)
  | path => finishDelete (z.color = .Red) none x path request

/-- `leftest(node)` with its right subtree and the crumbs up to `node`. -/
def leftestFrom : Tree → Path → Option (IntervalNode × Tree × Path)
  | .leaf, _ => none
  | .node .leaf y r, path => some (y, r, path)
  | .node l n r, path => leftestFrom l (.left n r :: path)

/-- `rbTreeDelete` for a node `z` with two children: `y` is the leftmost node to its
right and moves to its place. -/
def deleteWithTwoChildren (l : Tree) (z : IntervalNode) (r : Tree) (path : Path)
    (request : Bool) : Option (Tree × Bool) := do
  let (y, x, inner) ← leftestFrom r []
  let request := request || isUnsafeDelta (rootDelta x + y.delta)
  let x := shiftRoot y.delta x
  let y' : IntervalNode := { y with
    start := y.start + z.delta
    stop := y.stop + z.delta
    delta := z.delta
    color := z.color }
  finishDelete (y.color = .Red) (some inner.length) x (inner ++ .right l y' :: path)
    (request || isUnsafeDelta y'.delta)

/-- `rbTreeDelete` for a node `z` with its subtrees and the path to the root. -/
def deleteAt : (l : Tree) → (z : IntervalNode) → (r : Tree) → Path → (request : Bool) →
    Option (Tree × Bool)
  | .leaf, z, r, path, request =>
    deleteWithOneChild z (shiftRoot z.delta r) path
      (request || isUnsafeDelta (rootDelta r + z.delta))
  | l, z, .leaf, path, request => deleteWithOneChild z l path request
  | l, z, r, path, request => deleteWithTwoChildren l z r path request

/-- `rbTreeDelete(T, z)`, with the node that was taken out. -/
def rbTreeDelete (T : IntervalTree) (ref : Nat) : Option (IntervalTree × IntervalNode) := do
  let (l, z, r, path) ← T.root.locate fun n => n.ref = ref
  let (root, request) ← deleteAt l z r path T.requestNormalizeDelta
  some (⟨root, request⟩, z)

/-! ## Traversals

All traversals go through the tree without a stack: a node that has been dealt with
carries the bit `isVisited` until its parent has been left. -/

/-- `getNodeIsVisited(node)`; the sentinel is never visited. -/
def rootVisited : Tree → Bool
  | .leaf => false
  | .node _ n _ => n.isVisited

/-- `setNodeIsVisited(node, value)`. -/
def setVisited (value : Bool) : Tree → Tree
  | .leaf => .leaf
  | .node l n r => .node l { n with isVisited := value } r

/-- `node !== SENTINEL && !getNodeIsVisited(node)`, with the node and its subtrees. -/
def unvisited? : Tree → Option (Tree × IntervalNode × Tree)
  | .leaf => none
  | .node l n r => if n.isVisited then none else some (l, n, r)

/-- What a traversal does at a node. `skip` looks at a node when it is seen for the
first time; `visit` deals with it after its left subtree, and tells whether to go on
to the right; `recompute` says whether `maxEnd` is recomputed on the way up. -/
structure Sweep (σ : Type) where
  skip : (delta : Int) → IntervalNode → Bool
  visit : (delta : Int) → IntervalNode → σ → IntervalNode × σ × Bool
  recompute : Bool

namespace Sweep

variable {σ : Type} (sweep : Sweep σ)

def leave (l : Tree) (n : IntervalNode) (r : Tree) : IntervalNode :=
  if sweep.recompute then recomputeMaxEnd l n r else n

/-- The loop of a traversal, at the node `n` with subtrees `l` and `r`. It ends when
the root has been left; `none` when the fuel is used up. -/
def loop : (fuel : Nat) → (l : Tree) → (n : IntervalNode) → (r : Tree) → Path →
    (delta : Int) → σ → Option (Tree × σ)
  | 0, _, _, _, _, _, _ => none
  | fuel + 1, l, n, r, path, delta, s =>
    if n.isVisited then
      -- going up from this node
      let l := setVisited false l
      let r := setVisited false r
      let n := sweep.leave l n r
      match path with
      | [] => some (.node l n r, s)
      | .left p pr :: up => loop fuel (.node l n r) p pr up delta s
      | .right pl p :: up => loop fuel pl p (.node l n r) up (delta - p.delta) s
    else if !rootVisited l && sweep.skip delta n then
      loop fuel l { n with isVisited := true } r path delta s
    else
      match unvisited? l with
      | some (ll, ln, lr) => loop fuel ll ln lr (.left n r :: path) delta s
      | none =>
        -- handle current node
        let (n, s, goRight) := sweep.visit delta n s
        let n := { n with isVisited := true }
        match if goRight then unvisited? r else none with
        | some (rl, rn, rr) => loop fuel rl rn rr (.right l n :: path) (delta + n.delta) s
        | none => loop fuel l n r path delta s

end Sweep

/-- The number of nodes. -/
def size : Tree → Nat
  | .leaf => 0
  | .node l _ r => size l + 1 + size r

/-- A traversal of the whole tree; every node takes at most three turns of the
loop. -/
def Sweep.run {σ : Type} (sweep : Sweep σ) (root : Tree) (s : σ) : Option (Tree × σ) :=
  match root with
  | .leaf => some (.leaf, s)
  | .node l n r =>
    (sweep.loop (3 * size (.node l n r)) l n r [] 0 s).map fun (root, s) =>
      (setVisited false root, s)

/-- The traversal of `searchForEditing`. -/
def searchForEditingSweep (start stop : Int) : Sweep (List IntervalNode) where
  skip delta n := delta + n.maxEnd < start
  visit delta n result :=
    let nodeStart := delta + n.start
    if nodeStart > stop then (n, result, false)
    else
      let nodeEnd := delta + n.stop
      if nodeEnd ≥ start then
        let n := n.setCachedOffsets nodeStart nodeEnd
        (n, result ++ [n], true)
      else (n, result, true)
  recompute := false

def searchForEditing (T : IntervalTree) (start stop : Int) :
    Option (IntervalTree × List IntervalNode) :=
  ((searchForEditingSweep start stop).run T.root []).map fun (root, result) =>
    ({ T with root }, result)

/-- The traversal of `noOverlapReplace`; its state is `requestNormalizeDelta`. -/
def noOverlapReplaceSweep (start stop textLength : Int) : Sweep Bool where
  skip delta n := delta + n.maxEnd < start
  visit delta n request :=
    let editDelta := textLength - (stop - start)
    if delta + n.start > stop then
      let n := n.shift editDelta
      (n, request || isUnsafeDelta n.delta, false)
    else (n, request, true)
  recompute := true

def noOverlapReplace (T : IntervalTree) (start stop textLength : Int) :
    Option IntervalTree :=
  ((noOverlapReplaceSweep start stop textLength).run T.root T.requestNormalizeDelta).map
    fun (root, request) => ⟨root, request⟩

/-! ## Delta normalization -/

/-- The loop of `normalizeDelta`, at the node `n` with subtrees `l` and `r`. -/
def normalizeDeltaLoop : (fuel : Nat) → (l : Tree) → (n : IntervalNode) → (r : Tree) →
    Path → (delta : Int) → Option Tree
  | 0, _, _, _, _, _ => none
  | fuel + 1, l, n, r, path, delta =>
    match unvisited? l with
    | some (ll, ln, lr) => normalizeDeltaLoop fuel ll ln lr (.left n r :: path) delta
    | none =>
      match unvisited? r with
      | some (rl, rn, rr) =>
        normalizeDeltaLoop fuel rl rn rr (.right l n :: path) (delta + n.delta)
      | none =>
        -- handle current node
        let n := { n with start := delta + n.start, stop := delta + n.stop, delta := 0 }
        let n := { recomputeMaxEnd l n r with isVisited := true }
        -- going up from this node
        let x := .node (setVisited false l) n (setVisited false r)
        match path with
        | [] => some x
        | .left p pr :: up => normalizeDeltaLoop fuel x p pr up delta
        | .right pl p :: up => normalizeDeltaLoop fuel pl p x up (delta - p.delta)

def normalizeDelta (T : IntervalTree) : Option IntervalTree :=
  match T.root with
  | .leaf => some T
  | .node l n r =>
    (normalizeDeltaLoop (3 * size (.node l n r)) l n r [] 0).map fun root =>
      { T with root := setVisited false root }

def normalizeDeltaIfNecessary (T : IntervalTree) : Option IntervalTree :=
  if T.requestNormalizeDelta then normalizeDelta { T with requestNormalizeDelta := false }
  else some T

/-! ## Editing -/

inductive MarkerMoveSemantics
  | MarkerDefined
  | ForceMove
  | ForceStay
  deriving DecidableEq, Repr

def adjustMarkerBeforeColumn (markerOffset : Int) (markerStickToPreviousCharacter : Bool)
    (checkOffset : Int) (moveSemantics : MarkerMoveSemantics) : Bool :=
  if markerOffset < checkOffset then true
  else if markerOffset > checkOffset then false
  else
    match moveSemantics with
    | .ForceMove => false
    | .ForceStay => true
    | .MarkerDefined => markerStickToPreviousCharacter

/-- One end of a decoration in `nodeAcceptEdit`: where the marker at `offset` goes. -/
def acceptMarker (offset : Int) (stickToPreviousCharacter : Bool)
    (start stop textLength : Int) (forceMoveMarkers : Bool) : Int :=
  let deletingCnt := stop - start
  let insertingCnt := textLength
  let commonLength := min deletingCnt insertingCnt
  let first : MarkerMoveSemantics :=
    if forceMoveMarkers then .ForceMove
    else if deletingCnt > 0 then .ForceStay else .MarkerDefined
  let second : MarkerMoveSemantics :=
    if deletingCnt > insertingCnt then .ForceStay else .MarkerDefined
  let third : MarkerMoveSemantics :=
    if forceMoveMarkers then .ForceMove else .MarkerDefined
  if adjustMarkerBeforeColumn offset stickToPreviousCharacter start first then offset
  else if (commonLength > 0 && !forceMoveMarkers) && adjustMarkerBeforeColumn offset
      stickToPreviousCharacter (start + commonLength) second then offset
  else if adjustMarkerBeforeColumn offset stickToPreviousCharacter stop third then
    start + insertingCnt
  else max 0 (offset + (insertingCnt - deletingCnt))

/-- `nodeAcceptEdit`, on the start and the end of a decoration. -/
def acceptEdit (stickiness : TrackedRangeStickiness) (collapseOnReplaceEdit : Bool)
    (nodeStart nodeEnd start stop textLength : Int) (forceMoveMarkers : Bool) : Int × Int :=
  let startStickToPreviousCharacter :=
    stickiness = .AlwaysGrowsWhenTypingAtEdges || stickiness = .GrowsOnlyWhenTypingBefore
  let endStickToPreviousCharacter :=
    stickiness = .NeverGrowsWhenTypingAtEdges || stickiness = .GrowsOnlyWhenTypingBefore
  let (newStart, newEnd) :=
    if start ≤ nodeStart && nodeEnd ≤ stop && collapseOnReplaceEdit then (start, start)
    else
      (acceptMarker nodeStart startStickToPreviousCharacter start stop textLength
          forceMoveMarkers,
        acceptMarker nodeEnd endStickToPreviousCharacter start stop textLength
          forceMoveMarkers)
  (newStart, if newStart > newEnd then newStart else newEnd)

def nodeAcceptEdit (n : IntervalNode) (start stop textLength : Int)
    (forceMoveMarkers : Bool) : IntervalNode :=
  let (newStart, newEnd) := acceptEdit n.stickiness n.collapseOnReplaceEdit n.start n.stop
    start stop textLength forceMoveMarkers
  { n with start := newStart, stop := newEnd }

/-- `rbTreeDelete` for all nodes of interest, with the nodes as they were taken out. -/
def deleteAll : List IntervalNode → IntervalTree → Option (IntervalTree × List IntervalNode)
  | [], T => some (T, [])
  | n :: nodes, T => do
      let (T, z) ← rbTreeDelete T n.ref
      let (T, removed) ← deleteAll nodes T
      some (T, z :: removed)

/-- Edit a node of interest before it is put back. -/
def edited (offset length textLength : Nat) (forceMoveMarkers : Bool) (n : IntervalNode) :
    IntervalNode :=
  let n := { n with start := n.cachedAbsoluteStart, stop := n.cachedAbsoluteEnd }
  let n := nodeAcceptEdit n offset (offset + length) textLength forceMoveMarkers
  { n with maxEnd := n.stop }

namespace IntervalTree

def insert (T : IntervalTree) (node : IntervalNode) : Option IntervalTree := do
  let T ← rbTreeInsert T node
  normalizeDeltaIfNecessary T

def delete (T : IntervalTree) (ref : Nat) : Option IntervalTree := do
  let (T, _) ← rbTreeDelete T ref
  normalizeDeltaIfNecessary T

def acceptReplace (T : IntervalTree) (offset length textLength : Nat)
    (forceMoveMarkers : Bool) : Option IntervalTree := do
  -- collect all nodes that are intersecting this edit as nodes of interest
  let (T, nodesOfInterest) ← searchForEditing T offset (offset + length)
  -- remove all nodes that are intersecting this edit
  let (T, nodesOfInterest) ← deleteAll nodesOfInterest T
  let T ← normalizeDeltaIfNecessary T
  -- edit all tree nodes except the nodes of interest
  let T ← noOverlapReplace T offset (offset + length) textLength
  let T ← normalizeDeltaIfNecessary T
  -- edit the nodes of interest and insert them back in the tree
  let T ← (nodesOfInterest.map (edited offset length textLength forceMoveMarkers)).foldlM
    rbTreeInsert T
  normalizeDeltaIfNecessary T

end IntervalTree

end CodeEditor.Decorations
