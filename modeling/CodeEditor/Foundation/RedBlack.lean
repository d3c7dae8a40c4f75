import CodeEditor.Foundation.BinaryTree

/-!
# Red-black balance of a focused tree

Balance is stated for an arbitrary node type with a colour test. A tree is
`Balanced` at a height when all its paths carry that many black nodes and no
red node has a red child. A path is `PathBalanced` at a height when it
accepts a subtree of that height at its focus; the only other requirement is
that a red focus hangs below a black parent.
-/

namespace CodeEditor.RedBlack

open CodeEditor.BinaryTree

variable {α : Type u} (isRed : α → Bool)

/-- The root of the tree, if there is one, is black. -/
def RootBlack : BinaryTree α → Prop
  | .leaf => True
  | .node _ value _ => isRed value = false

/-- Every path of the tree has `height` black nodes and no two red nodes in a
row. -/
def Balanced : BinaryTree α → Nat → Prop
  | .leaf, height => height = 0
  | .node left value right, height =>
    (isRed value = true ∧ RootBlack isRed left ∧ RootBlack isRed right ∧
      Balanced left height ∧ Balanced right height) ∨
    (isRed value = false ∧ ∃ below, height = below + 1 ∧
      Balanced left below ∧ Balanced right below)

/-- A red-black tree: black at the root and balanced at some height. -/
def IsRedBlack (tree : BinaryTree α) : Prop :=
  RootBlack isRed tree ∧ ∃ height, Balanced isRed tree height

/-- The focus has a parent, and that parent is black. -/
def ParentBlack : TreePath α → Prop
  | [] => False
  | crumb :: _ => isRed crumb.value = false

/-- The subtree on the other side of the parent. -/
def sibling : Crumb α → BinaryTree α
  | .left _ right => right
  | .right left _ => left

/-- The path accepts a balanced subtree of black height `height`. -/
def PathBalanced : TreePath α → Nat → Prop
  | [], _ => True
  | crumb :: path, height =>
    Balanced isRed (sibling crumb) height ∧
    ((isRed crumb.value = true ∧ RootBlack isRed (sibling crumb) ∧
        ParentBlack isRed path ∧ PathBalanced path height) ∨
      (isRed crumb.value = false ∧ PathBalanced path (height + 1)))

@[simp] theorem rootBlack_leaf : RootBlack isRed (leaf : BinaryTree α) :=
  trivial

@[simp] theorem rootBlack_node
    (left right : BinaryTree α) (value : α) :
    RootBlack isRed (node left value right) ↔ isRed value = false :=
  Iff.rfl

@[simp] theorem balanced_leaf (height : Nat) :
    Balanced isRed (leaf : BinaryTree α) height ↔ height = 0 :=
  Iff.rfl

@[simp] theorem parentBlack_cons (crumb : Crumb α) (path : TreePath α) :
    ParentBlack isRed (crumb :: path) ↔ isRed crumb.value = false :=
  Iff.rfl

variable {isRed} {left right : BinaryTree α}

theorem balanced_red {value : α} (red : isRed value = true) :
    Balanced isRed (node left value right) height ↔ RootBlack isRed left ∧ RootBlack isRed right ∧
        Balanced isRed left height ∧ Balanced isRed right height := by
  simp [Balanced, red]

theorem balanced_black {value : α} (black : isRed value = false) :
    Balanced isRed (node left value right) height ↔ ∃ below, height = below + 1 ∧
        Balanced isRed left below ∧ Balanced isRed right below := by
  simp [Balanced, black]

theorem balanced_black_succ {value : α} {height : Nat} (black : isRed value = false) :
    Balanced isRed (node left value right) (height + 1) ↔
      Balanced isRed left height ∧ Balanced isRed right height := by
  simp [Balanced, black]

variable {crumb : Crumb α}

theorem pathBalanced_red {path : TreePath α} (red : isRed crumb.value = true) :
    PathBalanced isRed (crumb :: path) height ↔ Balanced isRed (sibling crumb) height ∧
        RootBlack isRed (sibling crumb) ∧
        ParentBlack isRed path ∧ PathBalanced isRed path height := by
  simp [PathBalanced, red]

theorem pathBalanced_black {path : TreePath α} (black : isRed crumb.value = false) :
    PathBalanced isRed (crumb :: path) height ↔ Balanced isRed (sibling crumb) height ∧
        PathBalanced isRed path (height + 1) := by
  simp [PathBalanced, black]

/-- Without black nodes a tree has at most one node, which is red. -/
theorem eq_of_balanced_zero (ok : Balanced isRed tree 0) :
    tree = leaf ∨ ∃ value, isRed value = true ∧ tree = node leaf value leaf := by
  have leaf_of_black : ∀ {t : BinaryTree α}, RootBlack isRed t → Balanced isRed t 0 → t = leaf := by
    intro t black balanced
    cases t with
    | leaf => rfl
    | node left value right =>
      obtain ⟨below, impossible, -⟩ := (balanced_black black).mp balanced
      omega
  cases tree with
  | leaf => exact .inl rfl
  | node left value right =>
    cases colour : isRed value with
    | true =>
      obtain ⟨leftBlack, rightBlack, leftOk, rightOk⟩ := (balanced_red colour).mp ok
      obtain rfl := leaf_of_black leftBlack leftOk
      obtain rfl := leaf_of_black rightBlack rightOk
      exact .inr ⟨value, colour, rfl⟩
    | false =>
      obtain ⟨below, impossible, -⟩ := (balanced_black colour).mp ok
      omega

variable {focus : BinaryTree α}

/-- Putting a focus back below a red parent. -/
theorem balanced_fill_red (red : isRed crumb.value = true) :
    Balanced isRed (crumb.fill focus) height ↔
      RootBlack isRed focus ∧ RootBlack isRed (sibling crumb) ∧ Balanced isRed focus height ∧
        Balanced isRed (sibling crumb) height := by
  cases crumb <;> simp only [Crumb.value] at red <;>
    simp only [Crumb.fill, sibling, balanced_red red]
  tauto

/-- Putting a focus back below a black parent. -/
theorem balanced_fill_black (black : isRed crumb.value = false) :
    Balanced isRed (crumb.fill focus) height ↔
      ∃ below, height = below + 1 ∧ Balanced isRed focus below ∧
        Balanced isRed (sibling crumb) below := by
  cases crumb <;> simp only [Crumb.value] at black <;>
    simp only [Crumb.fill, sibling, balanced_black black]
  constructor <;> rintro ⟨below, equal, first, second⟩ <;> exact ⟨below, equal, second, first⟩

theorem rootBlack_fill : RootBlack isRed (crumb.fill focus) ↔ isRed crumb.value = false := by
  cases crumb <;> rfl

/-- Balance of a path depends on colours and siblings only. -/
theorem pathBalanced_congr {first second : TreePath α} {height : Nat}
    (same : List.Forall₂ (fun crumb other =>
      isRed crumb.value = isRed other.value ∧ sibling crumb = sibling other) first second)
    (ok : PathBalanced isRed first height) :
    PathBalanced isRed second height := by
  induction same generalizing height with
  | nil => trivial
  | cons head tail ih =>
    obtain ⟨siblingOk, parent⟩ := ok
    refine ⟨head.2 ▸ siblingOk, ?_⟩
    rw [← head.1, ← head.2]
    rcases parent with ⟨red, siblingBlack, parentBlack, pathOk⟩ | ⟨black, pathOk⟩
    · refine .inl ⟨red, siblingBlack, ?_, ih pathOk⟩
      cases tail with
      | nil => exact parentBlack
      | cons parentHead _ =>
        rw [parentBlack_cons] at parentBlack ⊢
        rw [← parentHead.1, parentBlack]
    · exact .inr ⟨black, ih pathOk⟩

/-- Two trees of the same shape with the same colours. -/
inductive SameColours (isRed : α → Bool) : BinaryTree α → BinaryTree α → Prop
  | leaf : SameColours isRed .leaf .leaf
  | node {left left' right right' : BinaryTree α} {value value' : α}
      (first : SameColours isRed left left') (colour : isRed value' = isRed value)
      (second : SameColours isRed right right') :
      SameColours isRed (.node left value right) (.node left' value' right')

theorem SameColours.rootBlack (same : SameColours isRed tree tree') (black : RootBlack isRed tree) :
    RootBlack isRed tree' := by
  cases same with
  | leaf => trivial
  | node first colour second => exact colour.trans black

theorem SameColours.balanced
    (same : SameColours isRed tree tree') (ok : Balanced isRed tree height) :
    Balanced isRed tree' height := by
  induction same generalizing height with
  | leaf => exact ok
  | node first colour second firstHypothesis secondHypothesis =>
    rename_i value _
    cases red : isRed value with
    | true =>
      obtain ⟨leftBlack, rightBlack, leftOk, rightOk⟩ := (balanced_red red).mp ok
      exact (balanced_red (colour.trans red)).mpr ⟨first.rootBlack leftBlack,
        second.rootBlack rightBlack, firstHypothesis leftOk, secondHypothesis rightOk⟩
    | false =>
      obtain ⟨below, rfl, leftOk, rightOk⟩ := (balanced_black red).mp ok
      exact (balanced_black_succ (colour.trans red)).mpr
        ⟨firstHypothesis leftOk, secondHypothesis rightOk⟩

theorem SameColours.isRedBlack (same : SameColours isRed tree tree') (ok : IsRedBlack isRed tree) :
    IsRedBlack isRed tree' := by
  obtain ⟨black, height, balanced⟩ := ok
  exact ⟨same.rootBlack black, height, same.balanced balanced⟩

theorem SameColours.refl : ∀ tree : BinaryTree α, SameColours isRed tree tree
  | .leaf => .leaf
  | .node left _ right => .node (refl left) rfl (refl right)

/-- A plugged tree is red-black exactly when focus and path fit together. -/
theorem isRedBlack_plug_iff : IsRedBlack isRed (focus.plug path) ↔
      ∃ height, Balanced isRed focus height ∧ PathBalanced isRed path height ∧
        (RootBlack isRed focus ∨ ParentBlack isRed path) := by
  induction path generalizing focus with
  | nil => simp [IsRedBlack, PathBalanced, ParentBlack, and_comm]
  | cons crumb path ih =>
    rw [plug_cons, ih]
    simp only [rootBlack_fill, parentBlack_cons]
    cases colour : isRed crumb.value with
    | true =>
      simp only [balanced_fill_red colour, pathBalanced_red colour]
      constructor
      · rintro ⟨height, ⟨focusBlack, siblingBlack, focusOk, siblingOk⟩, pathOk, parent⟩
        have parentBlack : ParentBlack isRed path := by simpa using parent
        exact ⟨height, focusOk, ⟨siblingOk, siblingBlack, parentBlack, pathOk⟩, Or.inl focusBlack⟩
      · rintro ⟨height, focusOk, ⟨siblingOk, siblingBlack, parentBlack, pathOk⟩, focusBlack⟩
        have focusBlack : RootBlack isRed focus := by simpa using focusBlack
        exact ⟨height, ⟨focusBlack, siblingBlack, focusOk, siblingOk⟩, pathOk, Or.inr parentBlack⟩
    | false =>
      simp only [balanced_fill_black colour, pathBalanced_black colour]
      constructor
      · rintro ⟨height, ⟨below, rfl, focusOk, siblingOk⟩, pathOk, -⟩
        exact ⟨below, focusOk, ⟨siblingOk, pathOk⟩, Or.inr trivial⟩
      · rintro ⟨below, focusOk, ⟨siblingOk, pathOk⟩, -⟩
        exact ⟨below + 1, ⟨below, rfl, focusOk, siblingOk⟩, pathOk, Or.inl trivial⟩

end RedBlack
end CodeEditor

/-!
## Repairing a red-black tree

The two loops that restore the balance after an insertion and after a deletion,
for an arbitrary node type. Rotations are a parameter: they may rewrite the two
nodes they turn, and may touch a state beside the tree. A rotation or a recolouring
without a node to act on is `none`.

Next to balance, the loops keep every relation between trees that rotations and
recolourings keep and that passes from subtrees to trees.
-/

namespace CodeEditor
namespace RedBlack

open CodeEditor.BinaryTree Bool

/-- Colours and rotations of a node type. -/
structure Rotator (α σ : Type) where
  isRed : α → Bool
  paint : (red : Bool) → α → α
  leftRotate : BinaryTree α → σ → Option (BinaryTree α × σ)
  rightRotate : BinaryTree α → σ → Option (BinaryTree α × σ)

variable {α σ : Type}

namespace Rotator

variable (ops : Rotator α σ)

/-- Is the root of the tree red?  A leaf is black. -/
def rootRed : BinaryTree α → Bool
  | .leaf => false
  | .node _ value _ => ops.isRed value

/-- Paint the root of a tree. -/
def paintRoot (red : Bool) : BinaryTree α → BinaryTree α
  | .leaf => .leaf
  | .node left value right => .node left (ops.paint red value) right

/-! ## After an insertion -/

/-- Turn the focus to the outer side of a left parent; the result is the subtree of
the parent. -/
def alignLeft (x : BinaryTree α) : Crumb α → σ → Option (BinaryTree α × σ)
  | .left p r, s => some (.node x p r, s)
  | .right l p, s => ops.leftRotate (.node l p x) s

/-- Turn the focus to the outer side of a right parent. -/
def alignRight (x : BinaryTree α) : Crumb α → σ → Option (BinaryTree α × σ)
  | .left p r, s => ops.rightRotate (.node x p r) s
  | .right l p, s => some (.node l p x, s)

/-- The loop after an insertion: `x` is a red focus, and the result is the root. -/
def fixInsertLoop (x : BinaryTree α) : TreePath α → σ → Option (BinaryTree α × σ)
  | [], s => some (x, s)
  | [parent], s =>
    -- a red root is never left behind
    if ops.isRed parent.value then none else some (x.plug [parent], s)
  | parent :: .left g y :: up, s =>
    if ops.isRed parent.value then
      if ops.rootRed y then
        fixInsertLoop
          (.node (ops.paintRoot false (parent.fill x)) (ops.paint true g)
            (ops.paintRoot false y)) up s
      else do
        let (p, s) ← ops.alignLeft x parent s
        let (g, s) ← ops.rightRotate
          (.node (ops.paintRoot false p) (ops.paint true g) y) s
        some (g.plug up, s)
    else some (x.plug (parent :: .left g y :: up), s)
  | parent :: .right y g :: up, s =>
    if ops.isRed parent.value then
      if ops.rootRed y then
        fixInsertLoop
          (.node (ops.paintRoot false y) (ops.paint true g)
            (ops.paintRoot false (parent.fill x))) up s
      else do
        let (p, s) ← ops.alignRight x parent s
        let (g, s) ← ops.leftRotate
          (.node y (ops.paint true g) (ops.paintRoot false p)) s
        some (g.plug up, s)
    else some (x.plug (parent :: .right y g :: up), s)

/-- Repair the tree around a red focus and paint its root black. -/
def fixInsert (x : BinaryTree α) (path : TreePath α) (s : σ) :
    Option (BinaryTree α × σ) := do
  let (root, s) ← ops.fixInsertLoop x path s
  some (ops.paintRoot false root, s)

/-! ## After a deletion -/

/-- Turn a red child of the sibling `w` of a left child to the outer side. -/
def alignSiblingLeft (wl : BinaryTree α) (w : α) (wr : BinaryTree α) (s : σ) :
    Option (BinaryTree α × σ) :=
  if ops.rootRed wr then some (.node wl w wr, s)
  else ops.rightRotate (.node (ops.paintRoot false wl) (ops.paint true w) wr) s

/-- Turn a red child of the sibling `w` of a right child to the outer side. -/
def alignSiblingRight (wl : BinaryTree α) (w : α) (wr : BinaryTree α) (s : σ) :
    Option (BinaryTree α × σ) :=
  if ops.rootRed wl then some (.node wl w wr, s)
  else ops.leftRotate (.node wl (ops.paint true w) (ops.paintRoot false wr)) s

/-- The last turn for a left child `x` of `p`: its sibling is black with a red
child. -/
def repairLeft (x : BinaryTree α) (p : α) (wl : BinaryTree α) (w : α)
    (wr : BinaryTree α) (up : TreePath α) (s : σ) : Option (BinaryTree α × σ) := do
  match ← ops.alignSiblingLeft wl w wr s with
  | (.leaf, _) => none
  | (.node wl w wr, s) => do
      let (t, s) ← ops.leftRotate (.node x (ops.paint false p)
        (.node wl (ops.paint (ops.isRed p) w) (ops.paintRoot false wr))) s
      some (ops.paintRoot false (t.plug up), s)

/-- The last turn for a right child `x` of `p`: its sibling is black with a red
child. -/
def repairRight (x : BinaryTree α) (p : α) (wl : BinaryTree α) (w : α)
    (wr : BinaryTree α) (up : TreePath α) (s : σ) : Option (BinaryTree α × σ) := do
  match ← ops.alignSiblingRight wl w wr s with
  | (.leaf, _) => none
  | (.node wl w wr, s) => do
      let (t, s) ← ops.rightRotate (.node
        (.node (ops.paintRoot false wl) (ops.paint (ops.isRed p) w) wr)
        (ops.paint false p) x) s
      some (ops.paintRoot false (t.plug up), s)

/-- The rest of a turn for a left child `x` whose red sibling was rotated away: the
parent `p` is red now, so climbing to it ends the loop. -/
def fixupLeftOfRed (x : BinaryTree α) (p : α) (w : BinaryTree α) (up : TreePath α)
    (s : σ) : Option (BinaryTree α × σ) :=
  match w with
  | .leaf => none
  | .node wl w wr =>
    if ops.rootRed wl || ops.rootRed wr then ops.repairLeft x p wl w wr up s
    else
      some ((BinaryTree.node x (ops.paint false p)
        (.node wl (ops.paint true w) wr)).plug up, s)

/-- The rest of a turn for a right child `x` whose red sibling was rotated away. -/
def fixupRightOfRed (x : BinaryTree α) (p : α) (w : BinaryTree α) (up : TreePath α)
    (s : σ) : Option (BinaryTree α × σ) :=
  match w with
  | .leaf => none
  | .node wl w wr =>
    if ops.rootRed wl || ops.rootRed wr then ops.repairRight x p wl w wr up s
    else
      some ((BinaryTree.node (.node wl (ops.paint true w) wr)
        (ops.paint false p) x).plug up, s)

/-- The loop after a deletion: the focus `x` lacks a black node. The result is the
root. -/
def fixup (x : BinaryTree α) : TreePath α → σ → Option (BinaryTree α × σ)
  | [], s => some (ops.paintRoot false x, s)
  | crumb :: up, s =>
    if ops.rootRed x then some ((ops.paintRoot false x).plug (crumb :: up), s)
    else
      match crumb with
      | .left p (.node wl w wr) =>
        if ops.isRed w then do
          match ← ops.leftRotate (.node x (ops.paint true p)
            (.node wl (ops.paint false w) wr)) s with
          | (.node (.node x p w) n r, s) =>
            ops.fixupLeftOfRed x p w (.left n r :: up) s
          | _ => none
        else if ops.rootRed wl || ops.rootRed wr then
          ops.repairLeft x p wl w wr up s
        else fixup (.node x p (.node wl (ops.paint true w) wr)) up s
      | .right (.node wl w wr) p =>
        if ops.isRed w then do
          match ← ops.rightRotate (.node (.node wl (ops.paint false w) wr)
            (ops.paint true p) x) s with
          | (.node l n (.node w p x), s) =>
            ops.fixupRightOfRed x p w (.right l n :: up) s
          | _ => none
        else if ops.rootRed wl || ops.rootRed wr then
          ops.repairRight x p wl w wr up s
        else fixup (.node (.node wl (ops.paint true w) wr) p x) up s
      | _ => none

/-! ## What the loops keep -/

/-- Rotations turn the tree and keep colours; a relation that they and the paint
keep passes to the whole tree. -/
structure Lawful (related : BinaryTree α → BinaryTree α → Prop) : Prop where
  isRed_paint : ∀ red value, ops.isRed (ops.paint red value) = red
  leftRotate : ∀ a x b y c s, ∃ x' y' s',
    ops.leftRotate (.node a x (.node b y c)) s =
      some (.node (.node a x' b) y' c, s') ∧
    ops.isRed x' = ops.isRed x ∧ ops.isRed y' = ops.isRed y ∧
    related (.node a x (.node b y c)) (.node (.node a x' b) y' c)
  rightRotate : ∀ a x b y c s, ∃ x' y' s',
    ops.rightRotate (.node (.node a x b) y c) s =
      some (.node a x' (.node b y' c), s') ∧
    ops.isRed x' = ops.isRed x ∧ ops.isRed y' = ops.isRed y ∧
    related (.node (.node a x b) y c) (.node a x' (.node b y' c))
  refl : ∀ t, related t t
  trans : ∀ {t u v}, related t u → related u v → related t v
  node : ∀ {l l' r r'} value, related l l' → related r r' →
    related (.node l value r) (.node l' value r')
  paint : ∀ red l value r, related (.node l value r) (.node l (ops.paint red value) r)

section Lawful

variable {ops} {related : BinaryTree α → BinaryTree α → Prop}
  {x l r : BinaryTree α} {path up : TreePath α} {height : Nat}

theorem rootBlack_iff_rootRed : RootBlack ops.isRed t ↔ ops.rootRed t = false := by
  cases t <;> simp [rootRed]

/-- A red root comes with two black subtrees of the same height. -/
theorem exists_of_rootRed (red : ops.rootRed t = true) (ok : Balanced ops.isRed t height) :
    ∃ l v r, t = .node l v r ∧ RootBlack ops.isRed l ∧ RootBlack ops.isRed r ∧
      Balanced ops.isRed l height ∧ Balanced ops.isRed r height := by
  cases t with
  | leaf => simp [rootRed] at red
  | node l v r =>
    have redRoot : ops.isRed v = true := red
    exact ⟨l, v, r, rfl, (balanced_red redRoot).mp ok⟩

/-- A red focus ends the loop. -/
theorem fixup_of_red (path : TreePath α) (red : ops.rootRed x = true)
    (s : σ) : ops.fixup x path s = some ((ops.paintRoot false x).plug path, s) := by
  cases path with
  | nil => rfl
  | cons crumb up => simp only [fixup, red, if_true]

/-- A red sibling hangs below a black parent. -/
theorem pathBalanced_of_red_sibling {crumb : Crumb α}
    (pathOk : PathBalanced ops.isRed (crumb :: up) height)
    (red : ops.rootRed (sibling crumb) = true) :
    PathBalanced ops.isRed up (height + 1) := by
  obtain ⟨-, ⟨-, black, -⟩ | ⟨-, upOk⟩⟩ := pathOk
  · rw [rootBlack_iff_rootRed, red] at black
    cases black
  · exact upOk

variable (lawful : ops.Lawful related)

include lawful

theorem Lawful.plug (same : related t t') (path : TreePath α) :
    related (t.plug path) (t'.plug path) := by
  induction path generalizing t t' with
  | nil => exact same
  | cons crumb path ih =>
    apply ih
    cases crumb with
    | left p r => exact lawful.node p same (lawful.refl r)
    | right l p => exact lawful.node p (lawful.refl l) same

/-- Related children under a value of another colour. -/
theorem Lawful.painted (red : Bool) (v : α) (left : related l l') (right : related r r') :
    related (.node l v r) (.node l' (ops.paint red v) r') :=
  lawful.trans (lawful.node v left right) (lawful.paint red l' v r')

theorem Lawful.paintRoot (red : Bool) (t : BinaryTree α) : related t (ops.paintRoot red t) := by
  cases t with
  | leaf => exact lawful.refl _
  | node l v r => exact lawful.paint red l v r

theorem Lawful.rootBlack_paintRoot (t : BinaryTree α) :
    RootBlack ops.isRed (ops.paintRoot false t) := by
  cases t with
  | leaf => trivial
  | node l v r => exact lawful.isRed_paint false v

/-- Painting a red root black adds a black node to every path. -/
theorem Lawful.balanced_blacken (red : ops.rootRed t = true) (ok : Balanced ops.isRed t height) :
    Balanced ops.isRed (ops.paintRoot false t) (height + 1) := by
  obtain ⟨l, v, r, rfl, -, -, leftOk, rightOk⟩ := exists_of_rootRed red ok
  exact (balanced_black_succ (lawful.isRed_paint false v)).mpr ⟨leftOk, rightOk⟩

/-- Painting a black root red takes a black node off every path. -/
theorem Lawful.balanced_redden (leftBlack : ops.rootRed l = false)
    (rightBlack : ops.rootRed r = false) (leftOk : Balanced ops.isRed l height)
    (rightOk : Balanced ops.isRed r height) :
    Balanced ops.isRed (.node l (ops.paint true v) r) height :=
  (balanced_red (lawful.isRed_paint true v)).mpr ⟨rootBlack_iff_rootRed.mpr leftBlack,
    rootBlack_iff_rootRed.mpr rightBlack, leftOk, rightOk⟩

/-- A balanced tree with a black root is red-black however its root is painted
before. -/
theorem Lawful.isRedBlack_paintRoot (ok : Balanced ops.isRed t height) :
    IsRedBlack ops.isRed (ops.paintRoot false t) := by
  refine ⟨lawful.rootBlack_paintRoot t, ?_⟩
  cases red : ops.rootRed t with
  | true => exact ⟨_, lawful.balanced_blacken red ok⟩
  | false =>
    cases t with
    | leaf => exact ⟨0, rfl⟩
    | node l v r =>
      have blackRoot : ops.isRed v = false := red
      obtain ⟨below, -, sides⟩ := (balanced_black blackRoot).mp ok
      exact ⟨below + 1, (balanced_black_succ (lawful.isRed_paint false v)).mpr sides⟩

theorem Lawful.isRedBlack_of_plug {t : BinaryTree α} (ok : IsRedBlack ops.isRed (t.plug path)) :
    IsRedBlack ops.isRed (ops.paintRoot false (t.plug path)) := by
  obtain ⟨-, height, balanced⟩ := ok
  exact lawful.isRedBlack_paintRoot balanced

section

variable {parent : Crumb α} (red : ops.rootRed x = true) (parentRed : ops.isRed parent.value = true)
  (focusOk : Balanced ops.isRed x height) (siblingOk : Balanced ops.isRed (sibling parent) height)
  (siblingBlack : RootBlack ops.isRed (sibling parent)) (s : σ)

include red parentRed focusOk siblingOk siblingBlack s

theorem Lawful.alignLeft : ∃ a p b s', ops.alignLeft x parent s = some (.node a p b, s') ∧
      Balanced ops.isRed a height ∧ Balanced ops.isRed b height ∧
      RootBlack ops.isRed b ∧ related (parent.fill x) (.node a p b) := by
  cases parent with
  | left p r => exact ⟨x, p, r, s, rfl, focusOk, siblingOk, siblingBlack, lawful.refl _⟩
  | right l p =>
    obtain ⟨a, v, b, rfl, aBlack, bBlack, aOk, bOk⟩ := exists_of_rootRed red focusOk
    obtain ⟨p', v', s', rotated, pColour, -, same⟩ := lawful.leftRotate l p a v b s
    refine ⟨_, v', b, s', rotated, ?_, bOk, bBlack, same⟩
    exact (balanced_red (pColour.trans parentRed)).mpr ⟨siblingBlack, aBlack, siblingOk, aOk⟩

theorem Lawful.alignRight : ∃ a p b s', ops.alignRight x parent s = some (.node a p b, s') ∧
      Balanced ops.isRed a height ∧ Balanced ops.isRed b height ∧
      RootBlack ops.isRed a ∧ related (parent.fill x) (.node a p b) := by
  cases parent with
  | right l p => exact ⟨l, p, x, s, rfl, siblingOk, focusOk, siblingBlack, lawful.refl _⟩
  | left p r =>
    obtain ⟨a, v, b, rfl, aBlack, bBlack, aOk, bOk⟩ := exists_of_rootRed red focusOk
    obtain ⟨v', p', s', rotated, -, pColour, same⟩ := lawful.rightRotate a v b p r s
    refine ⟨a, v', _, s', rotated, aOk, ?_, aBlack, same⟩
    exact (balanced_red (pColour.trans parentRed)).mpr ⟨bBlack, siblingBlack, bOk, siblingOk⟩

end

/-- A parent painted black above a focus and a sibling of the same height. -/
theorem Lawful.balanced_blacken_fill (focusOk : Balanced ops.isRed x height)
    (siblingOk : Balanced ops.isRed (sibling parent) height) :
    Balanced ops.isRed (ops.paintRoot false (parent.fill x)) (height + 1) := by
  cases parent with
  | left p r =>
    exact (balanced_black_succ (lawful.isRed_paint false p)).mpr ⟨focusOk, siblingOk⟩
  | right l p =>
    exact (balanced_black_succ (lawful.isRed_paint false p)).mpr ⟨siblingOk, focusOk⟩

omit lawful in
theorem fixInsertLoop_of_black {parent : Crumb α} (black : ops.isRed parent.value = false)
    (path : TreePath α) (s : σ) :
    ops.fixInsertLoop x (parent :: path) s = some (x.plug (parent :: path), s) := by
  match path with
  | [] => simp [Rotator.fixInsertLoop, black]
  | .left g y :: up => simp [Rotator.fixInsertLoop, black]
  | .right y g :: up => simp [Rotator.fixInsertLoop, black]

/-- The loop after an insertion ends with a tree that is red-black once its root is
black. -/
theorem Lawful.fixInsertLoop {x : BinaryTree α} {path : TreePath α} {height : Nat}
    (red : ops.rootRed x = true) (focusOk : Balanced ops.isRed x height)
    (pathOk : PathBalanced ops.isRed path height) (s : σ) :
    ∃ t s', ops.fixInsertLoop x path s = some (t, s') ∧
      IsRedBlack ops.isRed (ops.paintRoot false t) ∧ related (x.plug path) t := by
  match path with
  | [] => exact ⟨x, s, rfl, lawful.isRedBlack_paintRoot focusOk, lawful.refl _⟩
  | parent :: path =>
    cases colour : ops.isRed parent.value with
    | false =>
      -- a black parent ends the loop
      refine ⟨_, s, fixInsertLoop_of_black colour path s, lawful.isRedBlack_of_plug ?_,
        lawful.refl _⟩
      exact isRedBlack_plug_iff.mpr ⟨height, focusOk, pathOk, .inr colour⟩
    | true =>
      obtain ⟨siblingOk, siblingBlack, grandBlack, grandOk⟩ := (pathBalanced_red colour).mp pathOk
      match path with
      | [] => exact absurd grandBlack id
      | .left g y :: up =>
        obtain ⟨uncleOk, upOk⟩ := (pathBalanced_black grandBlack).mp grandOk
        cases uncle : ops.rootRed y with
        | true =>
          have grandOk' := (balanced_red (lawful.isRed_paint true g)).mpr
            ⟨lawful.rootBlack_paintRoot (parent.fill x), lawful.rootBlack_paintRoot y,
              lawful.balanced_blacken_fill focusOk siblingOk,
              lawful.balanced_blacken uncle uncleOk⟩
          obtain ⟨t, s', fixed, balanced, same⟩ :=
            Lawful.fixInsertLoop (by simp [rootRed, lawful.isRed_paint]) grandOk' upOk s
          refine ⟨t, s', by simp [Rotator.fixInsertLoop, colour, uncle, fixed], balanced, ?_⟩
          refine lawful.trans (lawful.plug ?_ up) same
          exact lawful.painted true g (lawful.paintRoot false _) (lawful.paintRoot false y)
        | false =>
          obtain ⟨a, p, b, s₁, aligned, aOk, bOk, bBlack, sameParent⟩ :=
            lawful.alignLeft red colour focusOk siblingOk siblingBlack s
          obtain ⟨p', g', s₂, rotated, pColour, gColour, same⟩ :=
            lawful.rightRotate a (ops.paint false p) b (ops.paint true g) y s₁
          rw [lawful.isRed_paint] at pColour gColour
          refine ⟨(BinaryTree.node a p' (.node b g' y)).plug up, s₂, ?_, ?_, lawful.plug ?_ up⟩
          · simp [Rotator.fixInsertLoop, colour, uncle, aligned, Rotator.paintRoot, rotated]
          · apply lawful.isRedBlack_of_plug
            refine isRedBlack_plug_iff.mpr ⟨height + 1, ?_, upOk, .inl pColour⟩
            refine (balanced_black_succ pColour).mpr ⟨aOk, ?_⟩
            exact (balanced_red gColour).mpr ⟨bBlack, rootBlack_iff_rootRed.mpr uncle, bOk, uncleOk⟩
          · exact lawful.trans (lawful.painted true g
              (lawful.trans sameParent (lawful.paint false a p b)) (lawful.refl y)) same
      | .right y g :: up =>
        obtain ⟨uncleOk, upOk⟩ := (pathBalanced_black grandBlack).mp grandOk
        cases uncle : ops.rootRed y with
        | true =>
          have grandOk' := (balanced_red (lawful.isRed_paint true g)).mpr
            ⟨lawful.rootBlack_paintRoot y, lawful.rootBlack_paintRoot (parent.fill x),
              lawful.balanced_blacken uncle uncleOk,
              lawful.balanced_blacken_fill focusOk siblingOk⟩
          obtain ⟨t, s', fixed, balanced, same⟩ :=
            Lawful.fixInsertLoop (by simp [rootRed, lawful.isRed_paint]) grandOk' upOk s
          refine ⟨t, s', by simp [Rotator.fixInsertLoop, colour, uncle, fixed], balanced, ?_⟩
          refine lawful.trans (lawful.plug ?_ up) same
          exact lawful.painted true g (lawful.paintRoot false y) (lawful.paintRoot false _)
        | false =>
          obtain ⟨a, p, b, s₁, aligned, aOk, bOk, aBlack, sameParent⟩ :=
            lawful.alignRight red colour focusOk siblingOk siblingBlack s
          obtain ⟨g', p', s₂, rotated, gColour, pColour, same⟩ :=
            lawful.leftRotate y (ops.paint true g) a (ops.paint false p) b s₁
          rw [lawful.isRed_paint] at pColour gColour
          refine ⟨(BinaryTree.node (.node y g' a) p' b).plug up, s₂, ?_, ?_, lawful.plug ?_ up⟩
          · simp [Rotator.fixInsertLoop, colour, uncle, aligned, Rotator.paintRoot, rotated]
          · apply lawful.isRedBlack_of_plug
            refine isRedBlack_plug_iff.mpr ⟨height + 1, ?_, upOk, .inl pColour⟩
            refine (balanced_black_succ pColour).mpr ⟨?_, bOk⟩
            exact (balanced_red gColour).mpr ⟨rootBlack_iff_rootRed.mpr uncle, aBlack, uncleOk, aOk⟩
          · exact lawful.trans (lawful.painted true g (lawful.refl y)
              (lawful.trans sameParent (lawful.paint false a p b))) same

/-- Repairing an insertion gives a red-black tree. -/
theorem Lawful.fixInsert (red : ops.rootRed x = true) (focusOk : Balanced ops.isRed x height)
    (pathOk : PathBalanced ops.isRed path height) (s : σ) :
    ∃ t s', ops.fixInsert x path s = some (t, s') ∧ IsRedBlack ops.isRed t ∧
      related (x.plug path) t := by
  obtain ⟨t, s', fixed, balanced, same⟩ := lawful.fixInsertLoop red focusOk pathOk s
  refine ⟨_, s', ?_, balanced, lawful.trans same (lawful.paintRoot false t)⟩
  simp [Rotator.fixInsert, fixed]

section

variable (w : α) (leftOk : Balanced ops.isRed l height) (rightOk : Balanced ops.isRed r height)
  (someRed : (ops.rootRed l || ops.rootRed r) = true) (s : σ)

include w leftOk rightOk someRed s

theorem Lawful.alignSiblingLeft :
    ∃ l' w' r' s', ops.alignSiblingLeft l w r s = some (.node l' w' r', s') ∧
      Balanced ops.isRed l' height ∧ Balanced ops.isRed r' height ∧
      ops.rootRed r' = true ∧ related (.node l w r) (.node l' w' r') := by
  cases outer : ops.rootRed r with
  | true =>
    refine ⟨l, w, r, s, ?_, leftOk, rightOk, outer, lawful.refl _⟩
    simp [Rotator.alignSiblingLeft, outer]
  | false =>
    rw [outer, Bool.or_false] at someRed
    obtain ⟨a, v, b, rfl, aBlack, bBlack, aOk, bOk⟩ := exists_of_rootRed someRed leftOk
    obtain ⟨v', w', s', rotated, -, wColour, same⟩ :=
      lawful.rightRotate a (ops.paint false v) b (ops.paint true w) r s
    rw [lawful.isRed_paint] at wColour
    refine ⟨a, v', .node b w' r, s', ?_, aOk, ?_, wColour, ?_⟩
    · simp only [Rotator.alignSiblingLeft, outer, Rotator.paintRoot, rotated]
      rfl
    · exact (balanced_red wColour).mpr ⟨bBlack, rootBlack_iff_rootRed.mpr outer, bOk, rightOk⟩
    · exact lawful.trans (lawful.painted true w (lawful.paint false a v b) (lawful.refl r)) same

theorem Lawful.alignSiblingRight :
    ∃ l' w' r' s', ops.alignSiblingRight l w r s = some (.node l' w' r', s') ∧
      Balanced ops.isRed l' height ∧ Balanced ops.isRed r' height ∧
      ops.rootRed l' = true ∧ related (.node l w r) (.node l' w' r') := by
  cases outer : ops.rootRed l with
  | true =>
    refine ⟨l, w, r, s, ?_, leftOk, rightOk, outer, lawful.refl _⟩
    simp [Rotator.alignSiblingRight, outer]
  | false =>
    rw [outer, Bool.false_or] at someRed
    obtain ⟨a, v, b, rfl, aBlack, bBlack, aOk, bOk⟩ := exists_of_rootRed someRed rightOk
    obtain ⟨w', v', s', rotated, wColour, -, same⟩ :=
      lawful.leftRotate l (ops.paint true w) a (ops.paint false v) b s
    rw [lawful.isRed_paint] at wColour
    refine ⟨.node l w' a, v', b, s', ?_, ?_, bOk, wColour, ?_⟩
    · simp only [Rotator.alignSiblingRight, outer, Rotator.paintRoot, rotated]
      rfl
    · exact (balanced_red wColour).mpr ⟨rootBlack_iff_rootRed.mpr outer, aBlack, leftOk, aOk⟩
    · exact lawful.trans (lawful.painted true w (lawful.refl l) (lawful.paint false a v b)) same

end

/-- A node in the colour of the parent `p`, above two black subtrees, fits the path
above `p`. -/
theorem Lawful.isRedBlack_of_parent {crumb : Crumb α}
    (colour : ops.isRed v = ops.isRed crumb.value) (leftBlack : RootBlack ops.isRed l)
    (rightBlack : RootBlack ops.isRed r) (leftOk : Balanced ops.isRed l (height + 1))
    (rightOk : Balanced ops.isRed r (height + 1))
    (pathOk : PathBalanced ops.isRed (crumb :: up) (height + 1)) :
    IsRedBlack ops.isRed (ops.paintRoot false ((BinaryTree.node l v r).plug up)) := by
  apply lawful.isRedBlack_of_plug
  rw [isRedBlack_plug_iff]
  cases parent : ops.isRed crumb.value with
  | true =>
    obtain ⟨-, -, parentBlack, upOk⟩ := (pathBalanced_red parent).mp pathOk
    exact ⟨height + 1, (balanced_red (colour.trans parent)).mpr
      ⟨leftBlack, rightBlack, leftOk, rightOk⟩, upOk, .inr parentBlack⟩
  | false =>
    obtain ⟨-, upOk⟩ := (pathBalanced_black parent).mp pathOk
    exact ⟨height + 2, (balanced_black_succ (colour.trans parent)).mpr
      ⟨leftOk, rightOk⟩, upOk, .inl (colour.trans parent)⟩

section

variable (focusOk : Balanced ops.isRed x height) (leftOk : Balanced ops.isRed l height)
  (rightOk : Balanced ops.isRed r height) (someRed : (ops.rootRed l || ops.rootRed r) = true)

include focusOk leftOk rightOk someRed

theorem Lawful.repairLeft (pathOk : PathBalanced ops.isRed (.left p other :: up) (height + 1))
    (s : σ) : ∃ t s', ops.repairLeft x p l w r up s = some (t, s') ∧ IsRedBlack ops.isRed t ∧
      related ((BinaryTree.node x p (.node l w r)).plug up) t := by
  obtain ⟨l', w', r', s₁, aligned, leftOk', rightOk', red, sameSibling⟩ :=
    lawful.alignSiblingLeft w leftOk rightOk someRed s
  obtain ⟨p', v, s₂, rotated, pColour, colour, same⟩ := lawful.leftRotate x
    (ops.paint false p) l' (ops.paint (ops.isRed p) w') (ops.paintRoot false r') s₁
  rw [lawful.isRed_paint] at pColour colour
  refine ⟨_, s₂, ?_, lawful.isRedBlack_of_parent colour
    ((rootBlack_node ..).mpr pColour) (lawful.rootBlack_paintRoot r')
    ((balanced_black_succ pColour).mpr ⟨focusOk, leftOk'⟩)
    (lawful.balanced_blacken red rightOk') pathOk, ?_⟩
  · simp [Rotator.repairLeft, aligned, rotated]
  · refine lawful.trans (lawful.plug ?_ up) (lawful.paintRoot false _)
    refine lawful.trans (lawful.painted false p (lawful.refl x) ?_) same
    exact lawful.trans sameSibling
      (lawful.painted _ w' (lawful.refl l') (lawful.paintRoot false r'))

theorem Lawful.repairRight (pathOk : PathBalanced ops.isRed (.right other p :: up) (height + 1))
    (s : σ) : ∃ t s', ops.repairRight x p l w r up s = some (t, s') ∧ IsRedBlack ops.isRed t ∧
      related ((BinaryTree.node (.node l w r) p x).plug up) t := by
  obtain ⟨l', w', r', s₁, aligned, leftOk', rightOk', red, sameSibling⟩ :=
    lawful.alignSiblingRight w leftOk rightOk someRed s
  obtain ⟨v, p', s₂, rotated, colour, pColour, same⟩ := lawful.rightRotate
    (ops.paintRoot false l') (ops.paint (ops.isRed p) w') r' (ops.paint false p) x s₁
  rw [lawful.isRed_paint] at pColour colour
  refine ⟨_, s₂, ?_, lawful.isRedBlack_of_parent colour (lawful.rootBlack_paintRoot l')
    ((rootBlack_node ..).mpr pColour) (lawful.balanced_blacken red leftOk')
    ((balanced_black_succ pColour).mpr ⟨rightOk', focusOk⟩) pathOk, ?_⟩
  · simp [Rotator.repairRight, aligned, rotated]
  · refine lawful.trans (lawful.plug ?_ up) (lawful.paintRoot false _)
    refine lawful.trans (lawful.painted false p ?_ (lawful.refl x)) same
    exact lawful.trans sameSibling
      (lawful.painted _ w' (lawful.paintRoot false l') (lawful.refl r'))

end

section

variable {p : α} {w : BinaryTree α} (red : ops.isRed p = true)
  (focusOk : Balanced ops.isRed x height)
  (siblingBlack : RootBlack ops.isRed w) (siblingOk : Balanced ops.isRed w (height + 1))
  (parentBlack : ParentBlack ops.isRed up) (upOk : PathBalanced ops.isRed up (height + 1)) (s : σ)

include red focusOk siblingBlack siblingOk parentBlack upOk s

theorem Lawful.fixupLeftOfRed :
    ∃ t s', ops.fixupLeftOfRed x p w up s = some (t, s') ∧ IsRedBlack ops.isRed t ∧
      related ((BinaryTree.node x p w).plug up) t := by
  cases w with
  | leaf => simp at siblingOk
  | node l w r =>
    obtain ⟨leftOk, rightOk⟩ := (balanced_black_succ siblingBlack).mp siblingOk
    cases someRed : ops.rootRed l || ops.rootRed r with
    | true =>
      have pathOk : PathBalanced ops.isRed (.left p (.node l w r) :: up) _ :=
        (pathBalanced_red red).mpr ⟨siblingOk, siblingBlack, parentBlack, upOk⟩
      simp only [Rotator.fixupLeftOfRed, someRed, if_true]
      exact lawful.repairLeft focusOk leftOk rightOk someRed pathOk s
    | false =>
      obtain ⟨leftBlack, rightBlack⟩ := or_eq_false_iff.mp someRed
      have black := lawful.isRed_paint false p
      refine ⟨(BinaryTree.node x (ops.paint false p) (.node l (ops.paint true w) r)).plug
        up, s, by simp [Rotator.fixupLeftOfRed, someRed], ?_, lawful.plug ?_ up⟩
      · exact isRedBlack_plug_iff.mpr ⟨height + 1, (balanced_black_succ black).mpr
          ⟨focusOk, lawful.balanced_redden leftBlack rightBlack leftOk rightOk⟩, upOk,
          .inl black⟩
      · exact lawful.painted false p (lawful.refl x) (lawful.paint true l w r)

theorem Lawful.fixupRightOfRed :
    ∃ t s', ops.fixupRightOfRed x p w up s = some (t, s') ∧ IsRedBlack ops.isRed t ∧
      related ((BinaryTree.node w p x).plug up) t := by
  cases w with
  | leaf => simp at siblingOk
  | node l w r =>
    obtain ⟨leftOk, rightOk⟩ := (balanced_black_succ siblingBlack).mp siblingOk
    cases someRed : ops.rootRed l || ops.rootRed r with
    | true =>
      have pathOk : PathBalanced ops.isRed (.right (.node l w r) p :: up) _ :=
        (pathBalanced_red red).mpr ⟨siblingOk, siblingBlack, parentBlack, upOk⟩
      simp only [Rotator.fixupRightOfRed, someRed, if_true]
      exact lawful.repairRight focusOk leftOk rightOk someRed pathOk s
    | false =>
      obtain ⟨leftBlack, rightBlack⟩ := or_eq_false_iff.mp someRed
      have black := lawful.isRed_paint false p
      refine ⟨(BinaryTree.node (.node l (ops.paint true w) r) (ops.paint false p) x).plug
        up, s, by simp [Rotator.fixupRightOfRed, someRed], ?_, lawful.plug ?_ up⟩
      · exact isRedBlack_plug_iff.mpr ⟨height + 1, (balanced_black_succ black).mpr
          ⟨lawful.balanced_redden leftBlack rightBlack leftOk rightOk, focusOk⟩, upOk,
          .inl black⟩
      · exact lawful.painted false p (lawful.paint true l w r) (lawful.refl x)

end

/-- The loop after a deletion restores the balance when the focus lacks one black
node. -/
theorem Lawful.fixup (focusOk : Balanced ops.isRed x height)
    (pathOk : PathBalanced ops.isRed path (height + 1)) (s : σ) :
    ∃ t s', ops.fixup x path s = some (t, s') ∧ IsRedBlack ops.isRed t ∧
      related (x.plug path) t := by
  induction path generalizing x height s with
  | nil => exact ⟨_, s, rfl, lawful.isRedBlack_paintRoot focusOk, lawful.paintRoot false x⟩
  | cons crumb up ih =>
    -- climbing to the parent, with one black node missing on both sides
    have climb : ∀ l r, Balanced ops.isRed l height → Balanced ops.isRed r height →
        ∃ t s', ops.fixup (.node l crumb.value r) up s = some (t, s') ∧ IsRedBlack ops.isRed t ∧
          related ((BinaryTree.node l crumb.value r).plug up) t := by
      intro l r leftOk rightOk
      obtain ⟨-, ⟨red, -, -, upOk⟩ | ⟨black, upOk⟩⟩ := pathOk
      · have blackened := lawful.isRed_paint false crumb.value
        have redRoot : ops.rootRed (.node l crumb.value r) = true := red
        refine ⟨_, s, fixup_of_red up redRoot s, ?_, lawful.plug (lawful.paintRoot false _) up⟩
        exact isRedBlack_plug_iff.mpr ⟨height + 1,
          (balanced_black_succ blackened).mpr ⟨leftOk, rightOk⟩, upOk, .inl blackened⟩
      · exact ih ((balanced_black_succ black).mpr ⟨leftOk, rightOk⟩) upOk s
    have siblingOk := pathOk.1
    cases focusRed : ops.rootRed x with
    | true =>
      refine ⟨_, s, fixup_of_red _ focusRed s, ?_, lawful.plug (lawful.paintRoot false x) _⟩
      exact isRedBlack_plug_iff.mpr ⟨height + 1, lawful.balanced_blacken focusRed focusOk,
        pathOk, .inl (lawful.rootBlack_paintRoot x)⟩
    | false =>
      match crumb with
      | .left p .leaf => simp [sibling] at siblingOk
      | .left p (.node l w r) =>
        cases red : ops.isRed w with
        | true =>
          obtain ⟨leftBlack, -, leftOk, rightOk⟩ := (balanced_red red).mp siblingOk
          have upOk := pathBalanced_of_red_sibling pathOk red
          obtain ⟨p', w', s₁, rotated, pColour, wColour, same⟩ := lawful.leftRotate x
            (ops.paint true p) l (ops.paint false w) r s
          rw [lawful.isRed_paint] at pColour wColour
          have parentBlack : ParentBlack ops.isRed (.left w' r :: up) := wColour
          have upOk' : PathBalanced ops.isRed (.left w' r :: up) (height + 1) :=
            (pathBalanced_black wColour).mpr ⟨rightOk, upOk⟩
          obtain ⟨t, s', fixed, balanced, rest⟩ := lawful.fixupLeftOfRed pColour
            focusOk leftBlack leftOk parentBlack upOk' s₁
          refine ⟨t, s', by simp [Rotator.fixup, focusRed, red, rotated, fixed], balanced,
            lawful.trans (lawful.plug ?_ up) rest⟩
          exact lawful.trans (lawful.painted true p (lawful.refl x) (lawful.paint false l w r)) same
        | false =>
          obtain ⟨leftOk, rightOk⟩ := (balanced_black_succ red).mp siblingOk
          simp only [Rotator.fixup, focusRed, red, false_eq_true, if_false]
          cases someRed : ops.rootRed l || ops.rootRed r with
          | true => exact lawful.repairLeft focusOk leftOk rightOk someRed pathOk s
          | false =>
            obtain ⟨leftBlack, rightBlack⟩ := or_eq_false_iff.mp someRed
            obtain ⟨t, s', fixed, balanced, same⟩ := climb x _ focusOk
              (lawful.balanced_redden leftBlack rightBlack leftOk rightOk)
            exact ⟨t, s', fixed, balanced, lawful.trans (lawful.plug
              (lawful.node p (lawful.refl x) (lawful.paint true l w r)) up) same⟩
      | .right .leaf p => simp [sibling] at siblingOk
      | .right (.node l w r) p =>
        cases red : ops.isRed w with
        | true =>
          obtain ⟨-, rightBlack, leftOk, rightOk⟩ := (balanced_red red).mp siblingOk
          have upOk := pathBalanced_of_red_sibling pathOk red
          obtain ⟨w', p', s₁, rotated, wColour, pColour, same⟩ := lawful.rightRotate l
            (ops.paint false w) r (ops.paint true p) x s
          rw [lawful.isRed_paint] at pColour wColour
          have parentBlack : ParentBlack ops.isRed (.right l w' :: up) := wColour
          have upOk' : PathBalanced ops.isRed (.right l w' :: up) (height + 1) :=
            (pathBalanced_black wColour).mpr ⟨leftOk, upOk⟩
          obtain ⟨t, s', fixed, balanced, rest⟩ := lawful.fixupRightOfRed pColour
            focusOk rightBlack rightOk parentBlack upOk' s₁
          refine ⟨t, s', by simp [Rotator.fixup, focusRed, red, rotated, fixed], balanced,
            lawful.trans (lawful.plug ?_ up) rest⟩
          exact lawful.trans (lawful.painted true p (lawful.paint false l w r) (lawful.refl x)) same
        | false =>
          obtain ⟨leftOk, rightOk⟩ := (balanced_black_succ red).mp siblingOk
          simp only [Rotator.fixup, focusRed, red, false_eq_true, if_false]
          cases someRed : ops.rootRed l || ops.rootRed r with
          | true => exact lawful.repairRight focusOk leftOk rightOk someRed pathOk s
          | false =>
            obtain ⟨leftBlack, rightBlack⟩ := or_eq_false_iff.mp someRed
            obtain ⟨t, s', fixed, balanced, same⟩ := climb _ x
              (lawful.balanced_redden leftBlack rightBlack leftOk rightOk) focusOk
            exact ⟨t, s', fixed, balanced, lawful.trans (lawful.plug
              (lawful.node p (lawful.paint true l w r) (lawful.refl x)) up) same⟩

end Lawful

end Rotator

end CodeEditor.RedBlack
