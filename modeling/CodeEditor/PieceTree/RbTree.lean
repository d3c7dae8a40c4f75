import CodeEditor.Foundation.BinaryTree

/-!
# The red-black tree of pieces

Model of `rbTreeBase.ts`. A `TreeNode` of the source is an object with parent
and child pointers; here a node is focused by its two subtrees and the path
to the root, so "`x.parent`" is the first crumb of the path of `x`. Object
identity is kept as the `id` of a node.

The source has one shared `SENTINEL` object. When the focus is the sentinel,
a test such as `x === x.parent.right` also succeeds for a focus on the left
side whose sibling is the sentinel; `isLeftChild` and `isRightChild` model the
tests with that aliasing. A step that would write through the sentinel (a
rotation without a child, recolouring a missing sibling) is `none`.
-/

namespace CodeEditor.PieceTree

/-- A position in a string buffer, by line and column of that buffer. -/
structure BufferCursor where
  line : Nat
  column : Nat
  deriving DecidableEq, Repr

/-- A part of a string buffer; `stop` is the field `end` of the source. -/
structure Piece where
  bufferIndex : Nat
  start : BufferCursor
  stop : BufferCursor
  lineFeedCnt : Nat
  length : Nat
  deriving DecidableEq, Repr

inductive NodeColor
  | Black
  | Red
  deriving DecidableEq, Repr

/-- The data of a tree node; `id` stands for the identity of the object. -/
structure TreeNode where
  id : Nat
  piece : Piece
  color : NodeColor
  /-- Size of the left subtree. -/
  sizeLeft : Nat
  /-- Line feed count of the left subtree. -/
  lfLeft : Nat
  deriving DecidableEq, Repr

abbrev Tree := BinaryTree TreeNode

abbrev Path := TreePath TreeNode

open CodeEditor.BinaryTree TreePath

/-! ## Colours -/

/-- The colour of the node a pointer leads to; the sentinel is black. -/
def color : Tree → NodeColor
  | .leaf => .Black
  | .node _ n _ => n.color

/-- Assign a colour to the node a pointer leads to. -/
def setColor (c : NodeColor) : Tree → Tree
  | .leaf => .leaf
  | .node l n r => .node l { n with color := c } r

/-! ## Pointers -/

/-- `x === x.parent.left`, where `x` is the focus below `crumb`. -/
def isLeftChild (x : Tree) : Crumb TreeNode → Bool
  | .left _ _ => true
  | .right l _ => x == .leaf && l == .leaf

/-- `x === x.parent.right`, where `x` is the focus below `crumb`. -/
def isRightChild (x : Tree) : Crumb TreeNode → Bool
  | .left _ r => x == .leaf && r == .leaf
  | .right _ _ => true

/-- Dereference a node: its subtrees, its data and the path to the root. -/
def focus (root : Tree) (id : Nat) :
    Option (Tree × TreeNode × Tree × Path) :=
  root.locate fun n => n.id == id

/-- `node.next()`; `none` is the sentinel. -/
def next (root : Tree) (id : Nat) : Option Nat := do
  let (_, _, r, path) ← focus root id
  match r.leftmost? with
  | some n => some n.id
  | none => (climbRight path).map (·.id)

/-- `node.prev()`; `none` is the sentinel. -/
def prev (root : Tree) (id : Nat) : Option Nat := do
  let (l, _, _, path) ← focus root id
  match l.rightmost? with
  | some n => some n.id
  | none => (climbLeft path).map (·.id)

/-! ## Metadata -/

/-- Total length of a subtree, read along its right spine. -/
def calculateSize : Tree → Nat
  | .leaf => 0
  | .node _ n r => n.sizeLeft + n.piece.length + calculateSize r

/-- Total line feed count of a subtree, read along its right spine. -/
def calculateLF : Tree → Nat
  | .leaf => 0
  | .node _ n r => n.lfLeft + n.piece.lineFeedCnt + calculateLF r

/-- `n.size_left += delta; n.lf_left += lfDelta`. -/
def addMetadata (n : TreeNode) (delta lfDelta : Int) : TreeNode :=
  { n with
    sizeLeft := (n.sizeLeft + delta).toNat
    lfLeft := (n.lfLeft + lfDelta).toNat }

/-- Add a length and a line feed change to every ancestor that has the focus
in its left subtree. -/
def updateTreeMetadata : Path → Int → Int → Path
  | [], _, _ => []
  | .left n r :: path, delta, lfDelta =>
    .left (addMetadata n delta lfDelta) r ::
      updateTreeMetadata path delta lfDelta
  | .right l n :: path, delta, lfDelta =>
    .right l n :: updateTreeMetadata path delta lfDelta

/-- Recompute the metadata of the nearest ancestor that has `x` in its left
subtree and pass the difference on to the root. -/
def recomputeTreeMetadata (x : Tree) : Path → Path
  | [] => []
  | crumb :: path =>
    if isRightChild x crumb then
      -- go upwards till the node whose left subtree is changed
      crumb :: recomputeTreeMetadata (crumb.fill x) path
    else
      match crumb with
      | .right l n => .right l n :: path
      | .left n r =>
        let delta : Int := (calculateSize x : Int) - n.sizeLeft
        let lfDelta : Int := (calculateLF x : Int) - n.lfLeft
        .left (addMetadata n delta lfDelta) r ::
          if delta ≠ 0 ∨ lfDelta ≠ 0 then
            updateTreeMetadata path delta lfDelta
          else path

/-! ## Rotations -/

/-- `leftRotate(tree, x)`, on the subtree of `x`. -/
def leftRotate : Tree → Option Tree
  | .node a x (.node b y c) =>
    some (.node (.node a x b)
      { y with
        sizeLeft := y.sizeLeft + (x.sizeLeft + x.piece.length)
        lfLeft := y.lfLeft + (x.lfLeft + x.piece.lineFeedCnt) } c)
  | _ => none

/-- `rightRotate(tree, y)`, on the subtree of `y`. -/
def rightRotate : Tree → Option Tree
  | .node (.node a x b) y c =>
    some (.node a x (.node b
      { y with
        sizeLeft := y.sizeLeft - (x.sizeLeft + x.piece.length)
        lfLeft := y.lfLeft - (x.lfLeft + x.piece.lineFeedCnt) } c))
  | _ => none

/-! ## Insertion -/

/-- `if (x === x.parent.right) { x = x.parent; leftRotate(tree, x); }`, on the
subtree of the parent. -/
def alignLeft (x : Tree) : Crumb TreeNode → Option Tree
  | .left p r => some (.node x p r)
  | .right l p => leftRotate (.node l p x)

/-- `if (x === x.parent.left) { x = x.parent; rightRotate(tree, x); }`, on the
subtree of the parent. -/
def alignRight (x : Tree) : Crumb TreeNode → Option Tree
  | .left p r => rightRotate (.node x p r)
  | .right l p => some (.node l p x)

/-- The loop of `fixInsert`: `x` is the focus, and the result is the root. -/
def fixInsertLoop (x : Tree) : Path → Option Tree
  | [] => some x
  | [parent] =>
    -- a red root is never left behind
    if parent.value.color = .Red then none
    else some (x.plug [parent])
  | parent :: .left g y :: up =>
    if parent.value.color = .Red then
      if color y = .Red then
        fixInsertLoop
          (.node (setColor .Black (parent.fill x))
            { g with color := .Red } (setColor .Black y)) up
      else do
        let p ← alignLeft x parent
        let g' ← rightRotate
          (.node (setColor .Black p) { g with color := .Red } y)
        some (g'.plug up)
    else some (x.plug (parent :: .left g y :: up))
  | parent :: .right y g :: up =>
    if parent.value.color = .Red then
      if color y = .Red then
        fixInsertLoop
          (.node (setColor .Black y)
            { g with color := .Red } (setColor .Black (parent.fill x))) up
      else do
        let p ← alignRight x parent
        let g' ← leftRotate
          (.node y { g with color := .Red } (setColor .Black p))
        some (g'.plug up)
    else some (x.plug (parent :: .right y g :: up))

/-- `fixInsert(tree, x)`; the result is the new root. -/
def fixInsert (x : Tree) (path : Path) : Option Tree := do
  let root ← fixInsertLoop x (recomputeTreeMetadata x path)
  some (setColor .Black root)

/-- The fresh red node that an insertion links into the tree. -/
def newNode (id : Nat) (piece : Piece) : TreeNode :=
  { id, piece, color := .Red, sizeLeft := 0, lfLeft := 0 }

/-- `rbInsertRight(node, p)`: insert right after `node`. -/
def rbInsertRight (root : Tree) (node : Option Nat) (z : TreeNode) :
    Option Tree :=
  match root with
  | .leaf => fixInsert (.node .leaf { z with color := .Black } .leaf) []
  | root => do
      let id ← node
      let (l, n, r, path) ← focus root id
      fixInsert (.node .leaf z .leaf) (descendLeft r (.right l n :: path))

/-- `rbInsertLeft(node, p)`: insert right before `node`. -/
def rbInsertLeft (root : Tree) (node : Option Nat) (z : TreeNode) :
    Option Tree :=
  match root with
  | .leaf => fixInsert (.node .leaf { z with color := .Black } .leaf) []
  | root => do
      let id ← node
      let (l, n, r, path) ← focus root id
      fixInsert (.node .leaf z .leaf) (descendRight l (.left n r :: path))

/-! ## Deletion -/

/-- `if (w.right.color === Black) { …; rightRotate(tree, w); }`, on the subtree
of the sibling `w` of a left child. -/
def alignSiblingLeft (wl : Tree) (w : TreeNode) (wr : Tree) : Option Tree :=
  if color wr = .Black then
    rightRotate (.node (setColor .Black wl) { w with color := .Red } wr)
  else some (.node wl w wr)

/-- `if (w.left.color === Black) { …; leftRotate(tree, w); }`, on the subtree
of the sibling `w` of a right child. -/
def alignSiblingRight (wl : Tree) (w : TreeNode) (wr : Tree) : Option Tree :=
  if color wl = .Black then
    leftRotate (.node wl { w with color := .Red } (setColor .Black wr))
  else some (.node wl w wr)

/-- The last turn of the fixup loop for a left child `x` of `p`: the sibling
`w` is black and has a red child. -/
def repairLeft (x : Tree) (p : TreeNode) (wl : Tree) (w : TreeNode)
    (wr : Tree) (up : Path) : Option Tree := do
  match ← alignSiblingLeft wl w wr with
  | .leaf => none
  | .node wl w wr => do
      let p' ← leftRotate (.node x { p with color := .Black }
        (.node wl { w with color := p.color } (setColor .Black wr)))
      some (setColor .Black (p'.plug up))

/-- The last turn of the fixup loop for a right child `x` of `p`: the sibling
`w` is black and has a red child. -/
def repairRight (x : Tree) (p : TreeNode) (wl : Tree) (w : TreeNode)
    (wr : Tree) (up : Path) : Option Tree := do
  match ← alignSiblingRight wl w wr with
  | .leaf => none
  | .node wl w wr => do
      let p' ← rightRotate (.node
        (.node (setColor .Black wl) { w with color := p.color } wr)
        { p with color := .Black } x)
      some (setColor .Black (p'.plug up))

/-- The rest of a turn for a left child `x` after its red sibling was rotated
away. The parent `p` is red now, so climbing to it ends the loop. -/
def fixupLeftOfRed (x : Tree) (p : TreeNode) (w : Tree) (up : Path) :
    Option Tree :=
  match w with
  | .leaf => none
  | .node wl w wr =>
    if color wl = .Black ∧ color wr = .Black then
      some ((setColor .Black
        (.node x p (.node wl { w with color := .Red } wr))).plug up)
    else repairLeft x p wl w wr up

/-- The rest of a turn for a right child `x` after its red sibling was rotated
away. -/
def fixupRightOfRed (x : Tree) (p : TreeNode) (w : Tree) (up : Path) :
    Option Tree :=
  match w with
  | .leaf => none
  | .node wl w wr =>
    if color wl = .Black ∧ color wr = .Black then
      some ((setColor .Black
        (.node (.node wl { w with color := .Red } wr) p x)).plug up)
    else repairRight x p wl w wr up

/-- RB-DELETE-FIXUP from the focus `x`; the result is the root. -/
def fixup (x : Tree) : Path → Option Tree
  | [] => some (setColor .Black x)
  | crumb :: up =>
    if color x = .Red then some ((setColor .Black x).plug (crumb :: up))
    else
      match crumb with
      | .left p (.node wl w wr) =>
        if w.color = .Red then do
          let rotated ← leftRotate (.node x { p with color := .Red }
            (.node wl { w with color := .Black } wr))
          match rotated with
          | .node (.node x p w) n r => fixupLeftOfRed x p w (.left n r :: up)
          | _ => none
        else if color wl = .Black ∧ color wr = .Black then
          fixup (.node x p (.node wl { w with color := .Red } wr)) up
        else repairLeft x p wl w wr up
      | .right (.node wl w wr) p =>
        if w.color = .Red then do
          let rotated ← rightRotate (.node
            (.node wl { w with color := .Black } wr)
            { p with color := .Red } x)
          match rotated with
          | .node l n (.node w p x) => fixupRightOfRed x p w (.right l n :: up)
          | _ => none
        else if color wl = .Black ∧ color wr = .Black then
          fixup (.node (.node wl { w with color := .Red } wr) p x) up
        else repairRight x p wl w wr up
      | _ => none

/-- `if (x.parent.left === x)`: store the size of `x` in its parent and pass
the difference on. -/
def refreshParent (x : Tree) : Path → Path
  | [] => []
  | crumb :: path =>
    if isLeftChild x crumb then
      let newSizeLeft := calculateSize x
      let newLFLeft := calculateLF x
      let n := crumb.value
      if newSizeLeft ≠ n.sizeLeft ∨ newLFLeft ≠ n.lfLeft then
        let delta : Int := (newSizeLeft : Int) - n.sizeLeft
        let lfDelta : Int := (newLFLeft : Int) - n.lfLeft
        let n' := { n with sizeLeft := newSizeLeft, lfLeft := newLFLeft }
        (match crumb with
          | .left _ r => .left n' r
          | .right l _ => .right l n') ::
          updateTreeMetadata path delta lfDelta
      else crumb :: path
    else crumb :: path

/-- `recomputeTreeMetadata(tree, x.parent)`. -/
def recomputeFromParent (x : Tree) : Path → Path
  | [] => []
  | crumb :: up => crumb :: recomputeTreeMetadata (crumb.fill x) up

/-- The common end of `rbDelete`: `x` has taken the place of `y`. -/
def finishDelete (yColor : NodeColor) (x : Tree) (path : Path) :
    Option Tree :=
  let path := recomputeFromParent x (refreshParent x path)
  if yColor = .Red then some (x.plug path) else fixup x path

/-- `leftest(node)` with its right subtree and the crumbs up to `node`. -/
def leftestFrom : Tree → Path → Option (TreeNode × Tree × Path)
  | .leaf, _ => none
  | .node .leaf y r, path => some (y, r, path)
  | .node l n r, path => leftestFrom l (.left n r :: path)

/-- `rbDelete` when `z` has two children: its successor `y` moves to the place
of `z`. -/
def deleteBySuccessor (zl : Tree) (z : TreeNode) (zr : Tree) (path : Path) :
    Option Tree := do
  let (y, x, inner) ← leftestFrom zr []
  match inner with
  | [] =>
    -- `y.parent === z`: the climb from `x` ends at `z` itself
    let delta : Int := (calculateSize zl : Int) - z.sizeLeft
    let lfDelta : Int := (calculateLF zl : Int) - z.lfLeft
    let z' := addMetadata z delta lfDelta
    let path :=
      if delta ≠ 0 ∨ lfDelta ≠ 0 then updateTreeMetadata path delta lfDelta
      else path
    let y' := { y with
      color := z.color, sizeLeft := z'.sizeLeft, lfLeft := z'.lfLeft }
    let path := recomputeTreeMetadata (.node zl y' x) path
    finishDelete y.color x (.right zl y' :: path)
  | inner => do
      let whole := recomputeTreeMetadata x (inner ++ .right zl z :: path)
      let inner' := whole.take inner.length
      match whole.drop inner.length with
      | .right zl z' :: path =>
        let y' := { y with
          color := z.color, sizeLeft := z'.sizeLeft, lfLeft := z'.lfLeft }
        let path := recomputeTreeMetadata (.node zl y' (x.plug inner')) path
        finishDelete y.color x (inner' ++ .right zl y' :: path)
      | _ => none

/-- `rbDelete(tree, z)` when `z` has at most one child `x`. -/
def deleteWithChild (z : TreeNode) (x : Tree) (path : Path) : Option Tree :=
  match path with
  | [] => some (setColor .Black x)
  | path => finishDelete z.color x (recomputeTreeMetadata x path)

/-- `rbDelete(tree, z)`; the result is the new root. -/
def rbDelete (root : Tree) (id : Nat) : Option Tree := do
  let (zl, z, zr, path) ← focus root id
  match zl, zr with
  | .leaf, zr => deleteWithChild z zr path
  | zl, .leaf => deleteWithChild z zl path
  | zl, zr => deleteBySuccessor zl z zr path

end CodeEditor.PieceTree
