import Mathlib

/-!
# Binary trees with a focus

A binary tree whose nodes are linked to their parents is represented here by
a subtree together with the path back to the root. The path is a list of
crumbs, innermost first; each crumb records on which side of its parent the
focus hangs, the value of the parent and the other subtree.

The in-order sequence of a tree is the abstract view: every operation on
paths below is described by what it does to the values before and after the
focus.
-/

namespace CodeEditor

open List

/-- A binary tree with a value in every inner node. -/
inductive BinaryTree (α : Type u)
  | leaf
  | node (left : BinaryTree α) (value : α) (right : BinaryTree α)
  deriving DecidableEq, Repr

/-- One step from a subtree up to its parent. -/
inductive Crumb (α : Type u)
  /-- The focus is the left child of `value`. -/
  | left (value : α) (right : BinaryTree α)
  /-- The focus is the right child of `value`. -/
  | right (left : BinaryTree α) (value : α)
  deriving DecidableEq, Repr

/-- The way from a subtree to the root, innermost crumb first. -/
abbrev TreePath (α : Type u) := List (Crumb α)

namespace Crumb

/-- The value of the parent node. -/
def value : Crumb α → α
  | .left value _ => value
  | .right _ value => value

@[simp] theorem value_left (parent : α) (other : BinaryTree α) :
    (Crumb.left parent other).value = parent := rfl

@[simp] theorem value_right (other : BinaryTree α) (parent : α) :
    (Crumb.right other parent).value = parent := rfl

/-- The subtree rooted at the parent once the focus is put back. -/
def fill : Crumb α → BinaryTree α → BinaryTree α
  | .left parent sibling, focus => .node focus parent sibling
  | .right sibling parent, focus => .node sibling parent focus

end Crumb

namespace BinaryTree

/-- The values of a tree from left to right. -/
def inorder : BinaryTree α → List α
  | .leaf => []
  | .node left value right => left.inorder ++ value :: right.inorder

@[simp] theorem inorder_leaf : (leaf : BinaryTree α).inorder = [] := rfl

@[simp] theorem inorder_node
    (left right : BinaryTree α)
    (value : α) :
    (node left value right).inorder =
      left.inorder ++ value :: right.inorder := rfl

theorem inorder_eq_nil_iff {tree : BinaryTree α} : tree.inorder = [] ↔ tree = leaf := by
  cases tree <;> simp

/-- Put a subtree back at the end of its path. -/
def plug : BinaryTree α → TreePath α → BinaryTree α
  | focus, [] => focus
  | focus, crumb :: path => plug (crumb.fill focus) path

@[simp] theorem plug_nil (focus : BinaryTree α) : focus.plug [] = focus := rfl

@[simp] theorem plug_cons
    (focus : BinaryTree α)
    (crumb : Crumb α)
    (path : TreePath α) :
    focus.plug (crumb :: path) = (crumb.fill focus).plug path := rfl

theorem plug_append (focus : BinaryTree α) (inner outer : TreePath α) :
    focus.plug (inner ++ outer) = (focus.plug inner).plug outer := by
  induction inner generalizing focus with
  | nil => rfl
  | cons crumb inner ih => simp [ih]

end BinaryTree

namespace TreePath

/-- The values to the left of the focus. -/
def before : TreePath α → List α
  | [] => []
  | .left _ _ :: path => before path
  | .right left value :: path => before path ++ (left.inorder ++ [value])

/-- The values to the right of the focus. -/
def after : TreePath α → List α
  | [] => []
  | .left value right :: path => value :: right.inorder ++ after path
  | .right _ _ :: path => after path

@[simp] theorem before_nil : before ([] : TreePath α) = [] := rfl

@[simp] theorem before_left
    (value : α) (right : BinaryTree α) (path : TreePath α) :
    before (.left value right :: path) = before path := rfl

@[simp] theorem before_right
    (left : BinaryTree α) (value : α) (path : TreePath α) :
    before (.right left value :: path) =
      before path ++ (left.inorder ++ [value]) := rfl

@[simp] theorem after_nil : after ([] : TreePath α) = [] := rfl

@[simp] theorem after_left
    (value : α) (right : BinaryTree α) (path : TreePath α) :
    after (.left value right :: path) =
      value :: right.inorder ++ after path := rfl

@[simp] theorem after_right
    (left : BinaryTree α) (value : α) (path : TreePath α) :
    after (.right left value :: path) = after path := rfl

theorem before_append (inner outer : TreePath α) :
    before (inner ++ outer) = before outer ++ before inner := by
  induction inner with
  | nil => simp
  | cons crumb inner ih =>
    cases crumb <;> simp [ih]

theorem after_append (inner outer : TreePath α) :
    after (inner ++ outer) = after inner ++ after outer := by
  induction inner with
  | nil => simp
  | cons crumb inner ih =>
    cases crumb <;> simp [ih]

end TreePath

namespace BinaryTree

open TreePath

/-- A plugged tree lists the values before the focus, those of the focus and
those after it. -/
theorem inorder_plug (focus : BinaryTree α) (path : TreePath α) : (focus.plug path).inorder =
      before path ++ focus.inorder ++ after path := by
  induction path generalizing focus with
  | nil => simp
  | cons crumb path ih =>
    cases crumb <;> simp [ih, Crumb.fill]

/-! ## Finding a node -/

/-- The first node, in pre-order, whose value satisfies a test, with its two
subtrees and the path to it. -/
def locateFrom (test : α → Bool) :
    BinaryTree α → TreePath α →
      Option (BinaryTree α × α × BinaryTree α × TreePath α)
  | .leaf, _ => none
  | .node left value right, path =>
    if test value then some (left, value, right, path)
    else
      match locateFrom test left (.left value right :: path) with
      | some found => some found
      | none => locateFrom test right (.right left value :: path)

/-- The first node of a whole tree that satisfies a test. -/
def locate (test : α → Bool) (tree : BinaryTree α) :
    Option (BinaryTree α × α × BinaryTree α × TreePath α) :=
  locateFrom test tree []

variable {value : α} {tree left right : BinaryTree α}

/-- A located node satisfies the test and plugs back to the searched tree. -/
theorem locateFrom_some {path found : TreePath α} (located : locateFrom test tree path =
      some (left, value, right, found)) : test value = true ∧
      (node left value right).plug found = tree.plug path := by
  induction tree generalizing path with
  | leaf => simp [locateFrom] at located
  | node first current second firstHypothesis secondHypothesis =>
    unfold locateFrom at located
    split at located
    · rename_i holds
      obtain ⟨rfl, rfl, rfl, rfl⟩ := located
      exact ⟨holds, rfl⟩
    · split at located
      · rename_i inFirst
        exact firstHypothesis (inFirst.trans located)
      · exact secondHypothesis located

variable {test : α → Bool} {tree : BinaryTree α} {path : TreePath α}

theorem locateFrom_none (missing : locateFrom test tree path = none) :
    ∀ value ∈ tree.inorder, test value = false := by
  induction tree generalizing path with
  | leaf => simp
  | node first current second firstHypothesis secondHypothesis =>
    unfold locateFrom at missing
    split at missing
    · simp at missing
    · rename_i fails
      split at missing
      · simp at missing
      · rename_i notFirst
        intro value member
        simp only [inorder_node, mem_append, mem_cons] at member
        rcases member with inFirst | rfl | inSecond
        · exact firstHypothesis notFirst value inFirst
        · simpa using fails
        · exact secondHypothesis missing value inSecond

theorem locate_some (located : locate test tree = some (left, value, right, path)) :
    test value = true ∧ (node left value right).plug path = tree :=
  locateFrom_some located

/-- A test that holds of a single in-order position finds exactly that
position. -/
theorem locate_of_inorder {earlier later : List α}
    (order : tree.inorder = earlier ++ value :: later) (holds : test value = true)
    (notEarlier : ∀ other ∈ earlier, test other = false)
    (notLater : ∀ other ∈ later, test other = false) : ∃ left right path,
      locate test tree = some (left, value, right, path) ∧
      (node left value right).plug path = tree ∧
      before path ++ left.inorder = earlier ∧
      right.inorder ++ after path = later := by
  cases located : locate test tree with
  | none =>
    have absent := locateFrom_none located value (by simp [order])
    simp [holds] at absent
  | some found =>
    obtain ⟨left, current, right, path⟩ := found
    obtain ⟨currentHolds, plugged⟩ := locate_some located
    have listing : (before path ++ left.inorder) ++ current :: (right.inorder ++ after path) =
        earlier ++ value :: later := by
      rw [← order, ← plugged, inorder_plug]
      simp
    have split := append_eq_append_iff.mp listing
    rcases split with ⟨middle, earlierEq, laterEq⟩ | ⟨middle, laterEq, earlierEq⟩
    · cases middle with
      | nil =>
        simp only [append_nil, nil_append, List.cons.injEq] at earlierEq laterEq
        obtain ⟨rfl, restEq⟩ := laterEq
        exact ⟨left, right, path, rfl, plugged, earlierEq.symm, restEq⟩
      | cons head middle =>
        simp only [cons_append, List.cons.injEq] at laterEq
        have failing := notEarlier current (by
          rw [earlierEq, laterEq.1]; simp)
        simp [currentHolds] at failing
    · cases middle with
      | nil =>
        simp only [append_nil, nil_append, List.cons.injEq] at earlierEq laterEq
        obtain ⟨rfl, restEq⟩ := earlierEq
        exact ⟨left, right, path, rfl, plugged, laterEq, restEq.symm⟩
      | cons head middle =>
        simp only [cons_append, List.cons.injEq] at earlierEq
        have failing := notLater current (by
          rw [earlierEq.2]; simp)
        simp [currentHolds] at failing

theorem locateFrom_eq_none (path : TreePath α)
    (absent : ∀ value ∈ tree.inorder, test value = false) : locateFrom test tree path = none := by
  induction tree generalizing path with
  | leaf => rfl
  | node left value right leftHypothesis rightHypothesis =>
    have fails := absent value (by simp)
    have inLeft := leftHypothesis (.left value right :: path)
      fun other member => absent other (by simp [member])
    have inRight := rightHypothesis (.right left value :: path)
      fun other member => absent other (by simp [member])
    simp [locateFrom, fails, inLeft, inRight]

/-- The search comes back to a focus that alone satisfies the test. -/
theorem locate_plug {left right : BinaryTree α} (holds : test value = true)
    (notBefore : ∀ other ∈ before path, test other = false)
    (notAfter : ∀ other ∈ after path, test other = false) :
    locate test ((node left value right).plug path) = some (left, value, right, path) := by
  suffices general : ∀ outer, locateFrom test ((node left value right).plug path) outer =
        some (left, value, right, path ++ outer) by
    simpa [locate] using general []
  induction path using List.reverseRecOn with
  | nil => simp [locateFrom, holds]
  | append_singleton inner crumb ih =>
    intro outer
    rw [before_append] at notBefore
    rw [after_append] at notAfter
    have inside := ih (fun other member => notBefore other (by simp [member]))
      (fun other member => notAfter other (by simp [member]))
    rw [plug_append, append_assoc]
    cases crumb with
    | left parent sibling =>
      have fails := notAfter parent (by simp)
      simp [Crumb.fill, locateFrom, fails, inside]
    | right sibling parent =>
      have fails := notBefore parent (by simp)
      have missing := @locateFrom_eq_none _ test sibling
        (.left parent ((node left value right).plug inner) :: outer)
        (fun other member => notBefore other (by simp [member]))
      simp [Crumb.fill, locateFrom, fails, inside, missing]

/-! ## Neighbours -/

/-- The leftmost value of a tree. -/
def leftmost? : BinaryTree α → Option α
  | .leaf => none
  | .node .leaf value _ => some value
  | .node left _ _ => left.leftmost?

/-- The rightmost value of a tree. -/
def rightmost? : BinaryTree α → Option α
  | .leaf => none
  | .node _ value .leaf => some value
  | .node _ _ right => right.rightmost?

theorem leftmost?_eq_head? (tree : BinaryTree α) : tree.leftmost? = tree.inorder.head? := by
  induction tree with
  | leaf => rfl
  | node left value right leftHypothesis _ =>
    cases left with
    | leaf => rfl
    | node first second third =>
      rw [leftmost?, leftHypothesis]
      · simp
      · simp

theorem rightmost?_eq_getLast? (tree : BinaryTree α) : tree.rightmost? = tree.inorder.getLast? := by
  induction tree with
  | leaf => rfl
  | node left value right _ rightHypothesis =>
    cases right with
    | leaf => simp [rightmost?]
    | node first second third =>
      rw [rightmost?, rightHypothesis]
      · simp [getLast?_append, getLast?_cons]
      · simp

end BinaryTree

namespace TreePath

open CodeEditor.BinaryTree

/-- The nearest ancestor that has the focus in its left subtree. -/
def climbRight : TreePath α → Option α
  | [] => none
  | .left value _ :: _ => some value
  | .right _ _ :: path => climbRight path

/-- The nearest ancestor that has the focus in its right subtree. -/
def climbLeft : TreePath α → Option α
  | [] => none
  | .left _ _ :: path => climbLeft path
  | .right _ value :: _ => some value

theorem climbRight_eq_head? (path : TreePath α) : climbRight path = (after path).head? := by
  induction path with
  | nil => rfl
  | cons crumb path ih =>
    cases crumb <;> simp [climbRight, ih]

theorem climbLeft_eq_getLast? (path : TreePath α) : climbLeft path = (before path).getLast? := by
  induction path with
  | nil => rfl
  | cons crumb path ih =>
    cases crumb <;> simp [climbLeft, ih, getLast?_append]

/-- Extend a path down the left spine of a tree, to the place of a new
leftmost value. -/
def descendLeft : BinaryTree α → TreePath α → TreePath α
  | .leaf, path => path
  | .node left value right, path =>
    descendLeft left (.left value right :: path)

/-- Extend a path down the right spine of a tree, to the place of a new
rightmost value. -/
def descendRight : BinaryTree α → TreePath α → TreePath α
  | .leaf, path => path
  | .node left value right, path =>
    descendRight right (.right left value :: path)

section

variable (tree : BinaryTree α) (path : TreePath α)

theorem before_descendLeft : before (descendLeft tree path) = before path := by
  induction tree generalizing path with
  | leaf => rfl
  | node left value right leftHypothesis _ =>
    simp [descendLeft, leftHypothesis]

theorem after_descendLeft : after (descendLeft tree path) = tree.inorder ++ after path := by
  induction tree generalizing path with
  | leaf => rfl
  | node left value right leftHypothesis _ =>
    simp [descendLeft, leftHypothesis]

theorem before_descendRight : before (descendRight tree path) = before path ++ tree.inorder := by
  induction tree generalizing path with
  | leaf => simp [descendRight]
  | node left value right _ rightHypothesis =>
    simp [descendRight, rightHypothesis]

theorem after_descendRight : after (descendRight tree path) = after path := by
  induction tree generalizing path with
  | leaf => rfl
  | node left value right _ rightHypothesis =>
    simp [descendRight, rightHypothesis]

theorem plug_descendLeft : leaf.plug (descendLeft tree path) = tree.plug path := by
  induction tree generalizing path with
  | leaf => rfl
  | node left value right leftHypothesis _ =>
    simp [descendLeft, leftHypothesis, Crumb.fill]

theorem plug_descendRight : leaf.plug (descendRight tree path) = tree.plug path := by
  induction tree generalizing path with
  | leaf => rfl
  | node left value right _ rightHypothesis =>
    simp [descendRight, rightHypothesis, Crumb.fill]

end

end TreePath

end CodeEditor
