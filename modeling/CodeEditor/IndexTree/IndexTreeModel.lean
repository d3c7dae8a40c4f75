import Mathlib

/-!
# Visible children of an index tree

Model of `spliceSimple`, `createTreeNode` and `_updateNodeAfterFilterChange` in
`indexTreeModel.ts`, with the parts of a node that decide which children are visible and how they
are numbered. The filter is a parameter of each call, because it may change between two calls;
throws give `none`. A splice with a diff is a sequence of simple ones.
-/

namespace CodeEditor.IndexTree

open Option

inductive TreeVisibility where
  | Hidden
  | Visible
  | Recurse
  deriving DecidableEq, Repr

structure TreeElement (T : Type) where
  element : T
  children : List (TreeElement T)

structure IndexTreeNode (T : Type) where
  element : T
  children : List (IndexTreeNode T)
  visibleChildrenCount : Int
  visibleChildIndex : Int
  visibility : TreeVisibility
  visible : Bool

variable {T : Type}

/-- What `_filterNode` answers for an element and the visibility of its parent; the children of
the root are filtered again with no visibility. -/
abbrev Filter (T : Type) := T → Option TreeVisibility → TreeVisibility

def countVisible (children : List (IndexTreeNode T)) : Nat := children.countP (·.visible)

mutual

def createTreeNode (filter : Filter T) :
    TreeElement T → (parentVisibility : TreeVisibility) → IndexTreeNode T
  | ⟨element, childElements⟩, parentVisibility =>
    let visibility := filter element (some parentVisibility)
    let children := createTreeNodes filter childElements visibility 0
    let visibleChildrenCount := countVisible children
    { element, children, visibleChildrenCount, visibleChildIndex := -1, visibility
      visible :=
        if visibility = .Recurse then visibleChildrenCount > 0 else visibility = .Visible }

/-- The loops that create children and number the visible ones. -/
def createTreeNodes (filter : Filter T) : List (TreeElement T) →
    (parentVisibility : TreeVisibility) → (visibleChildIndex : Int) → List (IndexTreeNode T)
  | [], _, _ => []
  | element :: elements, parentVisibility, visibleChildIndex =>
    let child := createTreeNode filter element parentVisibility
    if child.visible then
      { child with visibleChildIndex } ::
        createTreeNodes filter elements parentVisibility (visibleChildIndex + 1)
    else child :: createTreeNodes filter elements parentVisibility visibleChildIndex

end

mutual

/-- The root is not filtered itself. The test in front of the loop over the children holds
always, because a hidden node has returned before. -/
def updateNodeAfterFilterChange (filter : Filter T) :
    IndexTreeNode T → (parentVisibility : Option TreeVisibility) → IndexTreeNode T
  | ⟨element, children, count, index, visibility, _⟩, parentVisibility =>
    match filter element parentVisibility with
    | .Hidden => ⟨element, children, count, index, visibility, false⟩
    | visibility =>
      let children := updateChildrenAfterFilterChange filter children (some visibility) 0
      ⟨element, children, countVisible children, index, visibility,
        if visibility = .Recurse then children.any (·.visible) else visibility = .Visible⟩

def updateChildrenAfterFilterChange (filter : Filter T) : List (IndexTreeNode T) →
    (parentVisibility : Option TreeVisibility) → (visibleChildIndex : Int) →
    List (IndexTreeNode T)
  | [], _, _ => []
  | child :: children, parentVisibility, visibleChildIndex =>
    let child := updateNodeAfterFilterChange filter child parentVisibility
    if child.visible then
      { child with visibleChildIndex } ::
        updateChildrenAfterFilterChange filter children parentVisibility (visibleChildIndex + 1)
    else
      child :: updateChildrenAfterFilterChange filter children parentVisibility visibleChildIndex

end

namespace IndexTreeNode

/-- The root of a new model. -/
def new (rootElement : T) : IndexTreeNode T where
  element := rootElement
  children := []
  visibleChildrenCount := 0
  visibleChildIndex := -1
  visibility := .Visible
  visible := true

/-- `refilter` on the root. -/
def refilter (filter : Filter T) (root : IndexTreeNode T) : IndexTreeNode T :=
  let children := updateChildrenAfterFilterChange filter root.children none 0
  { root with children, visibleChildrenCount := countVisible children }

/-- The index of the closest visible child at or before the splice point. -/
def visibleChildStartIndex (children : List (IndexTreeNode T)) : (i : Nat) → Int
  | 0 =>
    match children[0]? with
    | none => 0
    | some child => if child.visible then child.visibleChildIndex else 0
  | i + 1 =>
    match children[i + 1]? with
    | none => 0
    | some child =>
      if child.visible then child.visibleChildIndex
      else visibleChildStartIndex children i

/-- `spliceSimple` at the parent node. -/
def spliceSimple (filter : Filter T) (lastIndex deleteCount : Nat)
    (toInsert : List (TreeElement T)) (parentNode : IndexTreeNode T) : IndexTreeNode T :=
  let nodesToInsert := createTreeNodes filter toInsert
    (if parentNode.visible then .Visible else .Hidden)
    (visibleChildStartIndex parentNode.children lastIndex)
  let deletedNodes := (parentNode.children.drop lastIndex).take deleteCount
  let deletedVisibleChildrenCount := countVisible deletedNodes
  { parentNode with
    children := parentNode.children.take lastIndex ++ (nodesToInsert ++
      (parentNode.children.drop (lastIndex + deleteCount)).map fun child =>
        if child.visible then
          { child with
            visibleChildIndex := child.visibleChildIndex - deletedVisibleChildrenCount }
        else child)
    visibleChildrenCount := parentNode.visibleChildrenCount +
      (countVisible nodesToInsert - deletedVisibleChildrenCount) }

/-- The parent node of a location and the index in it. -/
def getParentNode : (location : List Nat) → IndexTreeNode T → Option (IndexTreeNode T × Nat)
  | [], _ => none
  | index :: rest, node =>
    if index > node.children.length then none
    else if rest = [] then some (node, index)
    else do getParentNode rest (← node.children[index]?)

/-- Change the parent node of a location in place. -/
def updateParentNode (f : Nat → IndexTreeNode T → IndexTreeNode T) :
    (location : List Nat) → IndexTreeNode T → Option (IndexTreeNode T)
  | [], _ => none
  | index :: rest, node =>
    if index > node.children.length then none
    else if rest = [] then some (f index node)
    else do
      let child ← updateParentNode f rest (← node.children[index]?)
      return { node with children := node.children.set index child }

/-- `splice` without a diff. -/
def splice (filter : Filter T) (location : List Nat) (deleteCount : Nat)
    (toInsert : List (TreeElement T)) (root : IndexTreeNode T) : Option (IndexTreeNode T) :=
  updateParentNode (fun index => spliceSimple filter index deleteCount toInsert) location root

/-! ## Exact bookkeeping -/

/-- The visible children are numbered from an index on. -/
def Numbered : Int → List (IndexTreeNode T) → Prop
  | _, [] => True
  | first, child :: children =>
    if child.visible then child.visibleChildIndex = first ∧ Numbered (first + 1) children
    else Numbered first children

/-- The number of visible children and their indices are exact, in the whole subtree. -/
inductive Exact : IndexTreeNode T → Prop
  | node {node : IndexTreeNode T}
      (count : node.visibleChildrenCount = countVisible node.children)
      (numbered : Numbered 0 node.children) (children : ∀ child ∈ node.children, Exact child) :
      Exact node

variable {children : List (IndexTreeNode T)}

theorem numbered_append : Numbered first (front ++ back : List (IndexTreeNode T)) ↔
      Numbered first front ∧ Numbered (first + countVisible front) back := by
  induction front generalizing first with
  | nil => simp [Numbered, countVisible]
  | cons child front ih =>
    cases isVisible : child.visible with
    | true =>
      simp only [List.cons_append, Numbered, isVisible, if_true, ih, countVisible,
        List.countP_cons_of_pos]
      rw [and_assoc, Nat.cast_succ, Int.add_assoc, Int.add_comm 1]
    | false => simp [Numbered, isVisible, ih, countVisible]

/-- The index of a visible child is the number of visible siblings before it. -/
theorem Numbered.visibleChildIndex_eq (numbered : Numbered first children)
    (here : children[i]? = some child) (isVisible : child.visible = true) :
    child.visibleChildIndex = first + countVisible (children.take i) := by
  obtain ⟨bound, isChild⟩ := List.getElem?_eq_some_iff.mp here
  have split : children = children.take i ++ child :: children.drop (i + 1) := by
    rw [← isChild, ← List.drop_eq_getElem_cons, List.take_append_drop]
  rw [split, numbered_append, Numbered, if_pos isVisible] at numbered
  exact numbered.2.1

theorem Exact.renumber (exact : Exact child) (index : Int) :
    Exact ({ child with visibleChildIndex := index } : IndexTreeNode T) := by
  obtain @⟨_, count, numbered, children⟩ := exact
  exact .node count numbered children

mutual

theorem exact_createTreeNode (filter : Filter T) :
    ∀ (element : TreeElement T) (parentVisibility : TreeVisibility),
      Exact (createTreeNode filter element parentVisibility)
  | ⟨element, children⟩, parentVisibility => by
      obtain ⟨numbered, exact⟩ :=
        created_createTreeNodes filter children (filter element (some parentVisibility)) 0
      rw [createTreeNode]
      exact .node rfl numbered exact

theorem created_createTreeNodes (filter : Filter T) :
    ∀ (elements : List (TreeElement T)) (parentVisibility : TreeVisibility) (first : Int),
      Numbered first (createTreeNodes filter elements parentVisibility first) ∧
        ∀ child ∈ createTreeNodes filter elements parentVisibility first, Exact child
  | [], _, _ => by simp [createTreeNodes, Numbered]
  | element :: elements, parentVisibility, first => by
      have exact := exact_createTreeNode filter element parentVisibility
      rw [createTreeNodes]
      split
      · rename_i isVisible
        obtain ⟨numbered, rest⟩ :=
          created_createTreeNodes filter elements parentVisibility (first + 1)
        exact ⟨by simp [Numbered, isVisible, numbered],
          List.forall_mem_cons.mpr ⟨exact.renumber first, rest⟩⟩
      · rename_i isHidden
        obtain ⟨numbered, rest⟩ := created_createTreeNodes filter elements parentVisibility first
        exact ⟨by simp [Numbered, isHidden, numbered], List.forall_mem_cons.mpr ⟨exact, rest⟩⟩

end

mutual

theorem exact_updateNodeAfterFilterChange (filter : Filter T) :
    ∀ (node : IndexTreeNode T) (parentVisibility : Option TreeVisibility), Exact node →
      Exact (updateNodeAfterFilterChange filter node parentVisibility)
  | ⟨element, children, count, index, visibility, visible⟩, parentVisibility, exact => by
      obtain @⟨_, isCount, numbered, exactChildren⟩ := exact
      rw [updateNodeAfterFilterChange]
      split
      -- nothing below a hidden node changes
      · exact .node isCount numbered exactChildren
      · obtain ⟨numbered, exact⟩ := updated_updateChildren filter children
          (some (filter element parentVisibility)) 0 exactChildren
        exact .node rfl numbered exact

theorem updated_updateChildren (filter : Filter T) :
    ∀ (children : List (IndexTreeNode T)) (parentVisibility : Option TreeVisibility)
      (first : Int), (∀ child ∈ children, Exact child) →
      Numbered first (updateChildrenAfterFilterChange filter children parentVisibility first) ∧
        ∀ child ∈ updateChildrenAfterFilterChange filter children parentVisibility first,
          Exact child
  | [], _, _, _ => by simp [updateChildrenAfterFilterChange, Numbered]
  | child :: children, parentVisibility, first, exact => by
      obtain ⟨exactChild, exactRest⟩ := List.forall_mem_cons.mp exact
      have updated := exact_updateNodeAfterFilterChange filter child parentVisibility exactChild
      rw [updateChildrenAfterFilterChange]
      split
      · rename_i isVisible
        obtain ⟨numbered, rest⟩ :=
          updated_updateChildren filter children parentVisibility (first + 1) exactRest
        exact ⟨by simp [Numbered, isVisible, numbered],
          List.forall_mem_cons.mpr ⟨updated.renumber first, rest⟩⟩
      · rename_i isHidden
        obtain ⟨numbered, rest⟩ :=
          updated_updateChildren filter children parentVisibility first exactRest
        exact ⟨by simp [Numbered, isHidden, numbered], List.forall_mem_cons.mpr ⟨updated, rest⟩⟩

end

theorem Exact.refilter (exact : Exact root) (filter : Filter T) : Exact (root.refilter filter) := by
  obtain @⟨_, -, -, children⟩ := exact
  obtain ⟨numbered, exact⟩ := updated_updateChildren filter root.children none 0 children
  exact .node rfl numbered exact

/-! ## Splices -/

/-- When the index in front of the splice point is found: the child there is visible, or no
child before it is. -/
def FindsStart (children : List (IndexTreeNode T)) (index : Nat) : Prop :=
  (∃ child, children[index]? = some child ∧ child.visible = true) ∨
    countVisible (children.take index) = 0

theorem visibleChildStartIndex_hidden (none : countVisible (children.take index) = 0)
    (hidden : ∀ child, children[index]? = some child → child.visible = false) :
    visibleChildStartIndex children index = 0 := by
  induction index with
  | zero =>
    rw [visibleChildStartIndex]
    cases here : children[0]? with
    | none => rfl
    | some child => simp [hidden child here]
  | succ index ih =>
    rw [visibleChildStartIndex]
    cases here : children[index + 1]? with
    | none => rfl
    | some child =>
      rw [List.take_add_one, countVisible, List.countP_append, Nat.add_eq_zero_iff] at none
      simp only [hidden child here, Bool.false_eq_true, if_false]
      refine ih none.1 fun child isHere => ?_
      simpa [isHere] using none.2

theorem Numbered.visibleChildStartIndex
    (numbered : Numbered 0 children) (finds : FindsStart children index) :
    IndexTreeNode.visibleChildStartIndex children index = countVisible (children.take index) := by
  by_cases shown : ∃ child, children[index]? = some child ∧ child.visible = true
  · obtain ⟨child, here, isVisible⟩ := shown
    have isIndex := numbered.visibleChildIndex_eq here isVisible
    cases index <;> simpa [IndexTreeNode.visibleChildStartIndex, here, isVisible] using isIndex
  · rw [visibleChildStartIndex_hidden (finds.resolve_left shown), finds.resolve_left shown]
    · rfl
    · intro child here
      by_contra isVisible
      exact shown ⟨child, here, by simpa using isVisible⟩

theorem Numbered.shift (numbered : Numbered first children) (deleted : Int) :
    Numbered (first - deleted) (children.map fun child =>
      if child.visible then { child with visibleChildIndex := child.visibleChildIndex - deleted }
      else child) := by
  induction children generalizing first with
  | nil => trivial
  | cons child children ih =>
    rw [Numbered] at numbered
    cases isVisible : child.visible with
    | true =>
      rw [if_pos isVisible] at numbered
      simp only [List.map_cons, isVisible, if_true, Numbered, numbered.1, true_and]
      rw [show first - deleted + 1 = first + 1 - deleted by ring]
      exact ih numbered.2
    | false =>
      simp only [isVisible, Bool.false_eq_true, if_false] at numbered
      simpa [Numbered, isVisible] using ih numbered

/-- What a splice must meet: it inserts nothing visible, or it finds its start and leaves no
visible child behind it. -/
def SpliceOk (filter : Filter T) (node : IndexTreeNode T) (index deleteCount : Nat)
    (toInsert : List (TreeElement T)) : Prop :=
  (∀ element ∈ toInsert, (createTreeNode filter element
    (if node.visible then .Visible else .Hidden)).visible = false) ∨
  (FindsStart node.children index ∧ countVisible (node.children.drop (index + deleteCount)) = 0)

theorem countVisible_append (front back : List (IndexTreeNode T)) :
    countVisible (front ++ back) = countVisible front + countVisible back :=
  List.countP_append

theorem numbered_of_hidden (hidden : countVisible children = 0)
    (first : Int) : Numbered first children := by
  induction children with
  | nil => trivial
  | cons child children ih =>
    cases isVisible : child.visible with
    | true => simp [countVisible, isVisible] at hidden
    | false =>
      simp only [countVisible, isVisible, List.countP_cons, Bool.false_eq_true, if_false,
        Nat.add_zero] at hidden
      simpa [Numbered, isVisible] using ih hidden

theorem countVisible_createTreeNodes {parentVisibility : TreeVisibility}
    (hidden : ∀ element ∈ elements,
      (createTreeNode filter (element : TreeElement T) parentVisibility).visible = false)
    (first : Int) : countVisible (createTreeNodes filter elements parentVisibility first) = 0 := by
  induction elements generalizing first with
  | nil => rfl
  | cons element elements ih =>
    obtain ⟨here, later⟩ := List.forall_mem_cons.mp hidden
    simpa [createTreeNodes, here, countVisible] using ih later first

/-- A splice that meets its condition keeps the bookkeeping exact. -/
theorem Exact.spliceSimple {node : IndexTreeNode T} (exact : Exact node)
    (ok : SpliceOk filter node index deleteCount toInsert) :
    Exact (spliceSimple filter index deleteCount toInsert node) := by
  obtain @⟨_, count, numbered, children⟩ := exact
  have whole : node.children = node.children.take index ++
      ((node.children.drop index).take deleteCount ++
        node.children.drop (index + deleteCount)) := by
    rw [← List.drop_drop, List.take_append_drop, List.take_append_drop]
  have start : FindsStart node.children index →
      visibleChildStartIndex node.children index = countVisible (node.children.take index) :=
    numbered.visibleChildStartIndex
  rw [whole, countVisible_append, countVisible_append] at count
  rw [whole, numbered_append, numbered_append] at numbered
  obtain ⟨front, -, behind⟩ := numbered
  have created := created_createTreeNodes filter toInsert
    (if node.visible then .Visible else .Hidden) (visibleChildStartIndex node.children index)
  have shifted := behind.shift (countVisible ((node.children.drop index).take deleteCount))
  have sameCount : ∀ (l : List (IndexTreeNode T)) (deleted : Int),
      countVisible (l.map fun child => if child.visible then
        { child with visibleChildIndex := child.visibleChildIndex - deleted } else child) =
        countVisible l := by
    intro l deleted
    rw [countVisible, List.countP_map]
    refine List.countP_congr fun child _ => ?_
    cases isVisible : child.visible <;> simp [isVisible]
  refine .node ?_ ?_ fun child member => ?_
  · dsimp only [IndexTreeNode.spliceSimple]
    rw [count, countVisible_append, countVisible_append, sameCount]
    push_cast
    ring
  · dsimp only [IndexTreeNode.spliceSimple]
    rw [numbered_append, numbered_append]
    refine ⟨front, ?_⟩
    rcases ok with hidden | ⟨finds, none⟩
    · have none := countVisible_createTreeNodes hidden (visibleChildStartIndex node.children index)
      refine ⟨numbered_of_hidden none _, ?_⟩
      rw [none]
      simpa [Int.add_sub_assoc] using shifted
    · rw [start finds] at created ⊢
      refine ⟨by simpa using created.1, numbered_of_hidden ?_ _⟩
      rw [sameCount, none]
  · simp only [IndexTreeNode.spliceSimple, List.mem_append, List.mem_map] at member
    rcases member with isFront | isNew | ⟨old, isBehind, rfl⟩
    · exact children child (List.mem_of_mem_take isFront)
    · exact created.2 child isNew
    · have exactOld := children old (List.mem_of_mem_drop isBehind)
      split
      · exact exactOld.renumber _
      · exact exactOld

theorem Exact.updateParentNode {f : Nat → IndexTreeNode T → IndexTreeNode T}
    {location : List Nat} {root root' : IndexTreeNode T} (exact : Exact root)
    (updated : updateParentNode f location root = some root')
    (keeps : ∀ parentNode index, getParentNode location root = some (parentNode, index) →
      Exact parentNode → Exact (f index parentNode) ∧
        (f index parentNode).visible = parentNode.visible ∧
        (f index parentNode).visibleChildIndex = parentNode.visibleChildIndex) :
    Exact root' ∧ root'.visible = root.visible ∧
      root'.visibleChildIndex = root.visibleChildIndex := by
  induction location generalizing root root' with
  | nil => simp [IndexTreeNode.updateParentNode] at updated
  | cons index rest ih =>
    rw [IndexTreeNode.updateParentNode] at updated
    rw [getParentNode] at keeps
    by_cases outside : index > root.children.length
    · simp [outside] at updated
    simp only [if_neg outside] at updated keeps
    by_cases last : rest = []
    · simp only [if_pos last, Option.some.injEq] at updated keeps
      exact updated ▸ keeps root index rfl exact
    simp only [if_neg last] at updated keeps
    cases here : root.children[index]? with
    | none => simp [here] at updated
    | some child =>
      obtain ⟨bound, isChild⟩ := List.getElem?_eq_some_iff.mp here
      obtain @⟨_, count, numbered, children⟩ := exact
      cases changed : IndexTreeNode.updateParentNode f rest child with
      | none => simp [here, changed] at updated
      | some child' =>
        simp only [here, changed, bind_eq_bind, bind_some, pure_def,
          Option.some.injEq] at updated keeps
        obtain rfl := updated
        obtain ⟨exactChild, sameVisible, sameIndex⟩ :=
          ih (children child (List.mem_of_getElem? here)) changed keeps
        -- the child is as visible as before and keeps its index
        have split : root.children = root.children.take index ++
            child :: root.children.drop (index + 1) := by
          rw [← isChild, ← List.drop_eq_getElem_cons, List.take_append_drop]
        have split' : root.children.set index child' = root.children.take index ++
            child' :: root.children.drop (index + 1) :=
          List.set_eq_take_append_cons_drop.trans (if_pos bound)
        rw [split, countVisible_append] at count
        rw [split, numbered_append] at numbered
        refine ⟨.node ?_ ?_ fun other member => ?_, rfl, rfl⟩
        · dsimp only
          rw [count, split', countVisible_append]
          simp [countVisible, List.countP_cons, sameVisible]
        · dsimp only
          rw [split', numbered_append]
          simpa [Numbered, sameVisible, sameIndex] using numbered
        · rcases List.mem_or_eq_of_mem_set member with old | rfl
          · exact children other old
          · exact exactChild

/-! ## Runs -/

/-- A call, with the filter at its time. -/
inductive Call (T : Type)
  | splice (filter : Filter T) (location : List Nat) (deleteCount : Nat)
      (toInsert : List (TreeElement T))
  | refilter (filter : Filter T)

/-- The root after a call; a splice that throws has changed nothing. -/
def step (root : IndexTreeNode T) : Call T → IndexTreeNode T
  | .splice filter location deleteCount toInsert =>
    (root.splice filter location deleteCount toInsert).getD root
  | .refilter filter => root.refilter filter

/-- The condition on a call in the state before it. -/
def CallOk (root : IndexTreeNode T) : Call T → Prop
  | .splice filter location deleteCount toInsert =>
    ∀ parentNode index, getParentNode location root = some (parentNode, index) →
      SpliceOk filter parentNode index deleteCount toInsert
  | .refilter _ => True

/-- The states that calls with the condition reach. -/
inductive Reaches : IndexTreeNode T → Prop
  | new (rootElement : T) : Reaches (new rootElement)
  | call {root : IndexTreeNode T} (reaches : Reaches root) (call : Call T)
      (ok : root.CallOk call) : Reaches (root.step call)

theorem Reaches.exact {root : IndexTreeNode T} (reaches : Reaches root) : Exact root := by
  induction reaches with
  | new rootElement => exact .node rfl trivial (by simp [IndexTreeNode.new])
  | @call root reaches call ok ih =>
    cases call with
    | refilter filter => exact ih.refilter filter
    | splice filter location deleteCount toInsert =>
      rw [step]
      cases spliced : root.splice filter location deleteCount toInsert with
      | none => exact ih
      | some root' =>
        exact (ih.updateParentNode spliced fun parentNode index isParent exact =>
          ⟨exact.spliceSimple (ok parentNode index isParent), rfl, rfl⟩).1

/-- The node of a path from the root. -/
def descendant : (path : List Nat) → IndexTreeNode T → Option (IndexTreeNode T)
  | [], node => some node
  | index :: path, node => do descendant path (← node.children[index]?)

theorem Exact.descendant {root node : IndexTreeNode T} (exact : Exact root)
    (isNode : IndexTreeNode.descendant path root = some node) : Exact node := by
  induction path generalizing root with
  | nil => exact Option.some.inj isNode ▸ exact
  | cons index path ih =>
    obtain ⟨child, here, below⟩ := bind_eq_some_iff.mp isNode
    obtain @⟨_, -, -, children⟩ := exact
    exact ih (children child (List.mem_of_getElem? here)) below

/-- The bookkeeping of visible children is exact at every node, as long as all splices meet
their condition. -/
theorem visible_children_exact {root node : IndexTreeNode T} {path : List Nat}
    (reaches : Reaches root) (isNode : root.descendant path = some node) :
    node.visibleChildrenCount = countVisible node.children ∧
      ∀ (i : Nat) (child : IndexTreeNode T), node.children[i]? = some child →
        child.visible = true →
          child.visibleChildIndex = countVisible (node.children.take i) := by
  obtain @⟨_, count, numbered, -⟩ := reaches.exact.descendant isNode
  refine ⟨count, fun i child here isVisible => ?_⟩
  rw [numbered.visibleChildIndex_eq here isVisible, Int.zero_add]

/-- Two visible elements are spliced into an empty tree, then the first is taken out. -/
theorem visible_children_exact_sample :
    let root : IndexTreeNode Nat :=
      (step (new 0) (.splice (fun _ _ => .Visible) [0] 0 [⟨1, [⟨2, []⟩]⟩, ⟨3, []⟩])).step
        (.splice (fun _ _ => .Visible) [0] 1 [])
    root.visibleChildrenCount = 1 ∧ root.children.map (·.visibleChildIndex) = [0] := by
  intro root
  have reaches : Reaches root := by
    refine .call (.call (.new 0) _ fun _ _ isParent => ?_) _ fun _ _ _ => .inl nofun
    obtain ⟨rfl, rfl⟩ := Prod.mk.inj (Option.some.inj isParent)
    exact .inr ⟨.inr rfl, rfl⟩
  obtain ⟨count, indices⟩ := @visible_children_exact Nat root root [] reaches rfl
  refine ⟨count, ?_⟩
  exact congrArg ([·]) (indices 0 _ rfl rfl)

/-- A visible child that is spliced in behind another one gets the index of the first. -/
theorem appended_child_has_index_zero :
    ¬∀ calls : List (Call Nat), let root := calls.foldl step (new 0)
      root.visibleChildrenCount = countVisible root.children ∧
        ∀ (i : Nat) (child : IndexTreeNode Nat), root.children[i]? = some child →
          child.visible = true →
            child.visibleChildIndex = countVisible (root.children.take i) := by
  intro exact
  have second := (exact [.splice (fun _ _ => .Visible) [0] 0 [⟨1, []⟩],
    .splice (fun _ _ => .Visible) [1] 0 [⟨2, []⟩]]).2 1 _ rfl rfl
  revert second
  decide

end IndexTreeNode
end CodeEditor.IndexTree
