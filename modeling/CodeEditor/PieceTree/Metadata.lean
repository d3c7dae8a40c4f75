import CodeEditor.PieceTree.RbTree

/-!
# Subtree metadata of the piece tree

Every node caches the length and the line feed count of its left subtree.
`MetadataOk` says that all caches of a tree are right, `PathMetadataOk` says
it for the nodes above a focus, given the totals of the focus. The lemmas
describe how the two update functions of the source act on these, including
the turn in which the shared sentinel hides that the focus is a left child.
-/

namespace CodeEditor.PieceTree

open CodeEditor.BinaryTree TreePath

/-! ## The sequence of pieces -/

/-- A node as the rest of the program sees it: identity and piece. -/
abbrev Entry := Nat × Piece

def entry (n : TreeNode) : Entry := (n.id, n.piece)

/-- Total length of a sequence of pieces. -/
def totalLength (es : List Entry) : Nat := (es.map (·.2.length)).sum

/-- Total line feed count of a sequence of pieces. -/
def totalLF (es : List Entry) : Nat := (es.map (·.2.lineFeedCnt)).sum

@[simp] theorem totalLength_nil : totalLength [] = 0 := rfl

@[simp] theorem totalLength_cons (e : Entry) (es : List Entry) :
    totalLength (e :: es) = e.2.length + totalLength es := by
  simp [totalLength]

@[simp] theorem totalLength_append (es fs : List Entry) :
    totalLength (es ++ fs) = totalLength es + totalLength fs := by
  simp [totalLength]

@[simp] theorem totalLF_nil : totalLF [] = 0 := rfl

@[simp] theorem totalLF_cons (e : Entry) (es : List Entry) :
    totalLF (e :: es) = e.2.lineFeedCnt + totalLF es := by
  simp [totalLF]

@[simp] theorem totalLF_append (es fs : List Entry) :
    totalLF (es ++ fs) = totalLF es + totalLF fs := by
  simp [totalLF]

/-- The pieces of a tree in order. -/
def entries (t : Tree) : List Entry := t.inorder.map entry

/-- The pieces before the focus. -/
def entriesBefore (path : Path) : List Entry := (before path).map entry

/-- The pieces behind the focus. -/
def entriesAfter (path : Path) : List Entry := (after path).map entry

@[simp] theorem entries_leaf : entries .leaf = [] := rfl

@[simp] theorem entries_node (l r : Tree) (n : TreeNode) :
    entries (.node l n r) = entries l ++ entry n :: entries r := by
  simp [entries]

@[simp] theorem entriesBefore_nil : entriesBefore [] = [] := rfl

@[simp] theorem entriesBefore_left (n : TreeNode) (r : Tree) (path : Path) :
    entriesBefore (.left n r :: path) = entriesBefore path := rfl

@[simp] theorem entriesBefore_right (l : Tree) (n : TreeNode) (path : Path) :
    entriesBefore (.right l n :: path) = entriesBefore path ++ (entries l ++ [entry n]) := by
  simp [entriesBefore, entries]

@[simp] theorem entriesAfter_nil : entriesAfter [] = [] := rfl

@[simp] theorem entriesAfter_left (n : TreeNode) (r : Tree) (path : Path) :
    entriesAfter (.left n r :: path) = entry n :: entries r ++ entriesAfter path := by
  simp [entriesAfter, entries]

@[simp] theorem entriesAfter_right (l : Tree) (n : TreeNode) (path : Path) :
    entriesAfter (.right l n :: path) = entriesAfter path := rfl

theorem entries_plug (x : Tree) (path : Path) : entries (x.plug path) =
      entriesBefore path ++ entries x ++ entriesAfter path := by
  simp [entries, entriesBefore, entriesAfter, inorder_plug]

theorem entries_eq_nil_iff : entries t = [] ↔ t = .leaf := by
  simp [entries, inorder_eq_nil_iff]

/-! ## Paths that differ in metadata only -/

/-- Two versions of a node that agree on everything but the metadata. -/
structure SameNode (n m : TreeNode) : Prop where
  id : n.id = m.id
  piece : n.piece = m.piece
  color : n.color = m.color

theorem SameNode.refl (n : TreeNode) : SameNode n n := ⟨rfl, rfl, rfl⟩

theorem SameNode.entry_eq (same : SameNode n m) : entry n = entry m := by
  simp [entry, same.id, same.piece]

theorem sameNode_addMetadata (n : TreeNode) (delta lfDelta : Int) :
    SameNode n (addMetadata n delta lfDelta) := ⟨rfl, rfl, rfl⟩

/-- Two crumbs with the same sibling and the same node up to metadata. -/
inductive SameCrumb : Crumb TreeNode → Crumb TreeNode → Prop
  | left {n m : TreeNode} (r : Tree) :
      SameNode n m → SameCrumb (.left n r) (.left m r)
  | right {n m : TreeNode} (l : Tree) :
      SameNode n m → SameCrumb (.right l n) (.right l m)

/-- Two paths that agree up to the metadata of their nodes. -/
abbrev SamePath : Path → Path → Prop := List.Forall₂ SameCrumb

theorem SameCrumb.refl : (crumb : Crumb TreeNode) → SameCrumb crumb crumb
  | .left n r => .left r (.refl n)
  | .right l n => .right l (.refl n)

theorem SamePath.refl (path : Path) : SamePath path path :=
  List.forall₂_same.mpr fun crumb _ => SameCrumb.refl crumb

theorem SamePath.entriesBefore_eq (same : SamePath p q) : entriesBefore p = entriesBefore q := by
  induction same with
  | nil => rfl
  | cons head _ ih =>
    cases head with
    | left r node => simpa using ih
    | right l node => simp [ih, node.entry_eq]

theorem SamePath.entriesAfter_eq (same : SamePath p q) : entriesAfter p = entriesAfter q := by
  induction same with
  | nil => rfl
  | cons head _ ih =>
    cases head with
    | left r node => simp [ih, node.entry_eq]
    | right l node => simpa using ih

theorem updateTreeMetadata_same (path : Path) (delta lfDelta : Int) :
    SamePath path (updateTreeMetadata path delta lfDelta) := by
  induction path with
  | nil => exact .nil
  | cons crumb path ih =>
    cases crumb with
    | left n r =>
      exact .cons (.left r (sameNode_addMetadata n delta lfDelta)) ih
    | right l n => exact .cons (.refl _) ih

theorem recomputeTreeMetadata_same (x : Tree) (path : Path) :
    SamePath path (recomputeTreeMetadata x path) := by
  induction path generalizing x with
  | nil => exact .nil
  | cons crumb path ih =>
    unfold recomputeTreeMetadata
    split
    · exact .cons (.refl _) (ih _)
    · cases crumb with
      | right l n => exact SamePath.refl _
      | left n r =>
        refine .cons (.left r (sameNode_addMetadata _ _ _)) ?_
        split
        · exact updateTreeMetadata_same _ _ _
        · exact SamePath.refl _

theorem refreshParent_same (x : Tree) (path : Path) : SamePath path (refreshParent x path) := by
  cases path with
  | nil => exact .nil
  | cons crumb path =>
    simp only [refreshParent]
    split
    · split
      · refine .cons ?_ (updateTreeMetadata_same _ _ _)
        cases crumb <;> constructor <;> exact ⟨rfl, rfl, rfl⟩
      · exact SamePath.refl _
    · exact SamePath.refl _

/-! ## Correct metadata -/

/-- Every node of the tree caches the totals of its left subtree. -/
def MetadataOk : Tree → Prop
  | .leaf => True
  | .node l n r =>
    n.sizeLeft = totalLength (entries l) ∧
    n.lfLeft = totalLF (entries l) ∧ MetadataOk l ∧ MetadataOk r

/-- Every node of the path caches the totals of its left subtree, when the
focus has length `size` and `lf` line feeds. -/
def PathMetadataOk : Path → (size lf : Nat) → Prop
  | [], _, _ => True
  | .left n r :: path, size, lf =>
    n.sizeLeft = size ∧ n.lfLeft = lf ∧ MetadataOk r ∧
    PathMetadataOk path
      (size + n.piece.length + totalLength (entries r))
      (lf + n.piece.lineFeedCnt + totalLF (entries r))
  | .right l n :: path, size, lf =>
    n.sizeLeft = totalLength (entries l) ∧
    n.lfLeft = totalLF (entries l) ∧ MetadataOk l ∧
    PathMetadataOk path
      (totalLength (entries l) + n.piece.length + size)
      (totalLF (entries l) + n.piece.lineFeedCnt + lf)

@[simp] theorem metadataOk_leaf : MetadataOk .leaf := trivial

theorem metadataOk_node {l r : Tree} {n : TreeNode} : MetadataOk (.node l n r) ↔
      n.sizeLeft = totalLength (entries l) ∧
      n.lfLeft = totalLF (entries l) ∧ MetadataOk l ∧ MetadataOk r :=
  Iff.rfl

theorem metadataOk_setColor (c : NodeColor) : MetadataOk (setColor c t) ↔ MetadataOk t := by
  cases t <;> rfl

@[simp] theorem entries_setColor (c : NodeColor) (t : Tree) :
    entries (setColor c t) = entries t := by
  cases t <;> simp [setColor, entry]

theorem metadataOk_plug_iff {x : Tree} {path : Path} : MetadataOk (x.plug path) ↔ MetadataOk x ∧
        PathMetadataOk path (totalLength (entries x)) (totalLF (entries x)) := by
  induction path generalizing x with
  | nil => simp [PathMetadataOk]
  | cons crumb path ih =>
    rw [plug_cons, ih]
    cases crumb with
    | left n r =>
      simp only [Crumb.fill, metadataOk_node, PathMetadataOk, entries_node,
        totalLength_append, totalLength_cons, totalLF_append, totalLF_cons,
        entry, Nat.add_assoc]
      tauto
    | right l n =>
      simp only [Crumb.fill, metadataOk_node, PathMetadataOk, entries_node,
        totalLength_append, totalLength_cons, totalLF_append, totalLF_cons,
        entry, Nat.add_assoc]
      tauto

variable {size lf : Nat}

theorem pathMetadataOk_append {p q : Path} : PathMetadataOk (p ++ q) size lf ↔
      PathMetadataOk p size lf ∧ PathMetadataOk q (totalLength (entriesBefore p) + size +
            totalLength (entriesAfter p))
          (totalLF (entriesBefore p) + lf + totalLF (entriesAfter p)) := by
  induction p generalizing size lf with
  | nil => simp [PathMetadataOk]
  | cons crumb p ih =>
    cases crumb with
    | left n r =>
      simp only [List.cons_append, PathMetadataOk, ih,
        entriesBefore_left, entriesAfter_left, totalLength_append,
        totalLength_cons, totalLF_append, totalLF_cons, entry, and_assoc]
      refine and_congr_right fun _ => and_congr_right fun _ =>
        and_congr_right fun _ => and_congr_right fun _ => ?_
      constructor <;> intro ok <;> convert ok using 1 <;> omega
    | right l n =>
      simp only [List.cons_append, PathMetadataOk, ih,
        entriesBefore_right, entriesAfter_right, totalLength_append,
        totalLength_cons, totalLF_append, totalLF_cons, totalLength_nil,
        totalLF_nil, entry, and_assoc]
      refine and_congr_right fun _ => and_congr_right fun _ =>
        and_congr_right fun _ => and_congr_right fun _ => ?_
      constructor <;> intro ok <;> convert ok using 1 <;> omega

/-- The totals read along the right spine are the real ones. -/
theorem calculateSize_eq (ok : MetadataOk t) :
    calculateSize t = totalLength (entries t) := by
  induction t with
  | leaf => rfl
  | node l n r _ rightHypothesis =>
    obtain ⟨size, -, -, right⟩ := ok
    simp [calculateSize, rightHypothesis right, size, entry]
    omega

theorem calculateLF_eq (ok : MetadataOk t) :
    calculateLF t = totalLF (entries t) := by
  induction t with
  | leaf => rfl
  | node l n r _ rightHypothesis =>
    obtain ⟨-, lf, -, right⟩ := ok
    simp [calculateLF, rightHypothesis right, lf, entry]
    omega

theorem addMetadata_sizeLeft {size : Nat} (lfDelta : Int) :
    (addMetadata n ((size : Int) - n.sizeLeft) lfDelta).sizeLeft = size := by
  simp only [addMetadata]
  omega

theorem addMetadata_lfLeft {lf : Nat} (delta : Int) :
    (addMetadata n delta ((lf : Int) - n.lfLeft)).lfLeft = lf := by
  simp only [addMetadata]
  omega

/-- `updateTreeMetadata` carries a change of the focus up to the root. -/
theorem updateTreeMetadata_ok {size lf size' lf' : Nat} {delta lfDelta : Int}
    (ok : PathMetadataOk path size lf)
    (sizeEq : (size' : Int) = size + delta)
    (lfEq : (lf' : Int) = lf + lfDelta) :
    PathMetadataOk (updateTreeMetadata path delta lfDelta) size' lf' := by
  induction path generalizing size lf size' lf' with
  | nil => trivial
  | cons crumb path ih =>
    cases crumb with
    | left n r =>
      obtain ⟨nodeSize, nodeLF, rightOk, pathOk⟩ := ok
      refine ⟨?_, ?_, rightOk, ih pathOk ?_ ?_⟩
      · simp only [addMetadata]
        omega
      · simp only [addMetadata]
        omega
      · simp only [addMetadata]
        omega
      · simp only [addMetadata]
        omega
    | right l n =>
      obtain ⟨nodeSize, nodeLF, leftOk, pathOk⟩ := ok
      refine ⟨nodeSize, nodeLF, leftOk, ih pathOk ?_ ?_⟩
      · omega
      · omega

/-- Recomputing from a real node corrects a path that was right for some other
focus. -/
theorem recomputeTreeMetadata_ok {x : Tree} (notSentinel : x ≠ .leaf)
    (ok : PathMetadataOk path size lf) : PathMetadataOk (recomputeTreeMetadata x path)
      (calculateSize x) (calculateLF x) := by
  induction path generalizing x size lf with
  | nil => trivial
  | cons crumb path ih =>
    cases crumb with
    | right l n =>
      obtain ⟨nodeSize, nodeLF, leftOk, pathOk⟩ := ok
      have rest := ih (x := .node l n x) (by simp) pathOk
      simp only [recomputeTreeMetadata, isRightChild, if_true, Crumb.fill]
      refine ⟨nodeSize, nodeLF, leftOk, ?_⟩
      simpa only [calculateSize, calculateLF, nodeSize, nodeLF] using rest
    | left n r =>
      obtain ⟨nodeSize, nodeLF, rightOk, pathOk⟩ := ok
      have notRight : isRightChild x (.left n r) = false := by
        simp [isRightChild, notSentinel]
      simp only [recomputeTreeMetadata, notRight, Bool.false_eq_true, if_false]
      refine ⟨addMetadata_sizeLeft _, addMetadata_lfLeft _, rightOk, ?_⟩
      split
      · refine updateTreeMetadata_ok pathOk ?_ ?_ <;> simp only [addMetadata] <;> omega
      · have sizeSame : calculateSize x = size := by omega
        have lfSame : calculateLF x = lf := by omega
        simpa only [addMetadata, sizeSame, lfSame] using pathOk

/-- Recomputing a path that is right already changes nothing, also when the
focus is the sentinel. -/
theorem recomputeTreeMetadata_of_ok (ok : PathMetadataOk path (calculateSize x) (calculateLF x)) :
    recomputeTreeMetadata x path = path := by
  induction path generalizing x with
  | nil => rfl
  | cons crumb path ih =>
    unfold recomputeTreeMetadata
    cases crumb with
    | right l n =>
      obtain ⟨nodeSize, nodeLF, leftOk, pathOk⟩ := ok
      simp only [isRightChild, if_true, Crumb.fill]
      rw [ih]
      simpa only [calculateSize, calculateLF, nodeSize, nodeLF] using pathOk
    | left n r =>
      obtain ⟨nodeSize, nodeLF, rightOk, pathOk⟩ := ok
      split
      · rename_i aliased
        simp only [isRightChild, Bool.and_eq_true, beq_iff_eq] at aliased
        obtain ⟨rfl, rfl⟩ := aliased
        rw [ih]
        simpa [Crumb.fill, calculateSize, calculateLF, nodeSize, nodeLF]
          using pathOk
      · have sizeSame : (calculateSize x : Int) - n.sizeLeft = 0 := by
          omega
        have lfSame : (calculateLF x : Int) - n.lfLeft = 0 := by omega
        simp [sizeSame, lfSame, addMetadata]

/-- The metadata steps at the end of `rbDelete` leave the path right for the
new focus. Either the path is right already, or it still counts the removed
node and the focus is a left child, whose parent is then refreshed. -/
theorem refreshParent_ok (focusOk : MetadataOk x) (ok : PathMetadataOk path size lf)
    (state : (size = totalLength (entries x) ∧ lf = totalLF (entries x)) ∨
      ∃ n r up, path = .left n r :: up) : PathMetadataOk (refreshParent x path)
      (totalLength (entries x)) (totalLF (entries x)) := by
  have sizeEq := calculateSize_eq focusOk
  have lfEq := calculateLF_eq focusOk
  cases path with
  | nil => trivial
  | cons crumb path =>
    cases crumb with
    | right l n =>
      obtain ⟨rfl, rfl⟩ := state.resolve_right (by simp)
      obtain ⟨nodeSize, nodeLF, leftOk, pathOk⟩ := ok
      simp only [refreshParent]
      split
      · rename_i aliased
        simp only [isLeftChild, Bool.and_eq_true, beq_iff_eq] at aliased
        obtain ⟨rfl, rfl⟩ := aliased
        split
        · rename_i changed
          simp [calculateSize, calculateLF, nodeSize, nodeLF] at changed
        · exact ⟨nodeSize, nodeLF, leftOk, pathOk⟩
      · exact ⟨nodeSize, nodeLF, leftOk, pathOk⟩
    | left n r =>
      obtain ⟨nodeSize, nodeLF, rightOk, pathOk⟩ := ok
      simp only [refreshParent, isLeftChild, if_true]
      split
      · refine ⟨sizeEq, lfEq, rightOk, ?_⟩
        refine updateTreeMetadata_ok pathOk ?_ ?_ <;> simp only [Crumb.value_left] <;> omega
      · rename_i unchanged
        simp only [Crumb.value_left] at unchanged
        have sizeSame : totalLength (entries x) = n.sizeLeft := by omega
        have lfSame : totalLF (entries x) = n.lfLeft := by omega
        rw [sizeSame, lfSame]
        exact ⟨rfl, rfl, rightOk, by rw [nodeSize, nodeLF]; exact pathOk⟩

end CodeEditor.PieceTree
