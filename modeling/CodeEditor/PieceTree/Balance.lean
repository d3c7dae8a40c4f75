import CodeEditor.Foundation.RedBlack
import CodeEditor.PieceTree.Metadata

/-!
# Rebalancing the piece tree

Rotations and recolourings neither move a piece nor spoil the metadata
(`Rearranges`). The two rebalancing loops of the source are the loops of the
red-black library at the rotations of the source, so they always run to their
end: from a tree that is red-black except at the focus they make a red-black
tree.
-/

namespace CodeEditor.PieceTree

open CodeEditor.BinaryTree TreePath Option

/-- A rearrangement of a tree: the same pieces in the same order, with right
metadata if it was right before. -/
structure Rearranges (t t' : Tree) : Prop where
  entries_eq : entries t' = entries t
  metadata : MetadataOk t → MetadataOk t'

namespace Rearranges

/-- A tree rearranges itself. -/
theorem refl (t : Tree) : Rearranges t t := ⟨rfl, id⟩

/-- Rearranging twice is rearranging. -/
theorem trans (first : Rearranges t u) (second : Rearranges u v) : Rearranges t v :=
  ⟨second.entries_eq.trans first.entries_eq, fun ok => second.metadata (first.metadata ok)⟩

/-- Rearranged children, under a node with the same entry. -/
theorem node (left : Rearranges l l') (entryEq : entry n' = entry n)
    (sizeEq : n'.sizeLeft = n.sizeLeft)
    (lfEq : n'.lfLeft = n.lfLeft)
    (right : Rearranges r r') :
    Rearranges (.node l n r) (.node l' n' r') := by
  constructor
  · simp [left.entries_eq, right.entries_eq, entryEq]
  · rintro ⟨size, lf, leftOk, rightOk⟩
    refine ⟨?_, ?_, left.metadata leftOk, right.metadata rightOk⟩
    · rw [sizeEq, size, left.entries_eq]
    · rw [lfEq, lf, left.entries_eq]

end Rearranges

/-- A rotation moves nodes and corrects what they keep. -/
theorem leftRotate_rearranges (rotated : leftRotate t = some t') : Rearranges t t' := by
  unfold leftRotate at rotated
  split at rotated
  · rename_i a x b y c
    simp only [Option.some.injEq] at rotated
    subst rotated
    constructor
    · simp [entry]
    · rintro ⟨xSize, xLF, aOk, ySize, yLF, bOk, cOk⟩
      refine ⟨?_, ?_, ⟨xSize, xLF, aOk, bOk⟩, cOk⟩
      · simp only [entries_node, totalLength_append, totalLength_cons, entry, xSize, ySize]
        omega
      · simp only [entries_node, totalLF_append, totalLF_cons, entry, xLF, yLF]
        omega
  · simp at rotated

theorem rightRotate_rearranges (rotated : rightRotate t = some t') : Rearranges t t' := by
  unfold rightRotate at rotated
  split at rotated
  · rename_i a x b y c
    simp only [Option.some.injEq] at rotated
    subst rotated
    constructor
    · simp [entry]
    · rintro ⟨ySize, yLF, ⟨xSize, xLF, aOk, bOk⟩, cOk⟩
      refine ⟨xSize, xLF, aOk, ?_, ?_, bOk, cOk⟩
      · simp only [entries_node, totalLength_append, totalLength_cons, entry, xSize] at ySize ⊢
        omega
      · simp only [entries_node, totalLF_append, totalLF_cons, entry, xLF] at yLF ⊢
        omega
  · simp at rotated

/-! ## Colours -/

open RedBlack

/-- The colour test for the balance of a piece tree. -/
def isRed (n : TreeNode) : Bool := n.color == .Red

theorem isRed_eq_true : isRed n = true ↔ n.color = .Red := by
  simp [isRed]

theorem isRed_eq_false : isRed n = false ↔ n.color = .Black := by
  cases colour : n.color <;> simp [isRed, colour]

theorem color_ne_red : color t ≠ .Red ↔ color t = .Black := by
  cases color t <;> simp

/-! ## The loops of the library -/

/-- The nodes of a piece tree under the rotations of the source. -/
def rotator : Rotator TreeNode Unit where
  isRed := isRed
  paint red n := { n with color := if red then .Red else .Black }
  leftRotate t s := (leftRotate t).map (·, s)
  rightRotate t s := (rightRotate t).map (·, s)

theorem paintRoot_rotator (t : Tree) : rotator.paintRoot false t = setColor .Black t := by
  cases t <;> rfl

theorem rootRed_rotator (t : Tree) : rotator.rootRed t = true ↔ color t = .Red := by
  cases t with
  | leaf => simp [Rotator.rootRed, color]
  | node l n r => exact isRed_eq_true

theorem isRed_rotator (n : TreeNode) : rotator.isRed n = true ↔ n.color = .Red :=
  isRed_eq_true

theorem paint_true (n : TreeNode) : rotator.paint true n = { n with color := .Red } := rfl

theorem paint_false (n : TreeNode) : rotator.paint false n = { n with color := .Black } := rfl

/-- Painting with the color of another node. -/
theorem paint_isRed (p n : TreeNode) :
    rotator.paint (rotator.isRed p) n = { n with color := p.color } := by
  cases colour : p.color <;> simp [rotator, isRed, colour]

theorem leftRotate_rotator (t : Tree) (s : Unit) :
    rotator.leftRotate t s = (leftRotate t).map (·, s) := rfl

theorem rightRotate_rotator (t : Tree) (s : Unit) :
    rotator.rightRotate t s = (rightRotate t).map (·, s) := rfl

/-- Each function of the library is the one of the source. -/
theorem alignLeft_rotator (x : Tree) (crumb : Crumb TreeNode) (s : Unit) :
    rotator.alignLeft x crumb s = (alignLeft x crumb).map (·, s) := by
  cases crumb <;> rfl

theorem alignRight_rotator (x : Tree) (crumb : Crumb TreeNode) (s : Unit) :
    rotator.alignRight x crumb s = (alignRight x crumb).map (·, s) := by
  cases crumb <;> rfl

theorem fixInsertLoop_rotator (x : Tree) (path : Path) (s : Unit) :
    rotator.fixInsertLoop x path s = (fixInsertLoop x path).map (·, s) := by
  fun_induction fixInsertLoop x path <;>
    simp_all [Rotator.fixInsertLoop, isRed_rotator, rootRed_rotator, paintRoot_rotator,
      paint_true, alignLeft_rotator, alignRight_rotator, leftRotate_rotator, rightRotate_rotator,
      map_bind, bind_map]

theorem repairLeft_rotator (x : Tree) (p : TreeNode) (wl : Tree) (w : TreeNode) (wr : Tree)
    (up : Path) (s : Unit) :
    rotator.repairLeft x p wl w wr up s = (repairLeft x p wl w wr up).map (·, s) := by
  have aligned : rotator.alignSiblingLeft wl w wr s = (alignSiblingLeft wl w wr).map (·, s) := by
    unfold Rotator.alignSiblingLeft alignSiblingLeft
    simp only [rootRed_rotator, paintRoot_rotator, paint_true, ← color_ne_red]
    split <;> simp_all [rightRotate_rotator]
  rw [Rotator.repairLeft, repairLeft, aligned]
  cases alignSiblingLeft wl w wr with
  | none => rfl
  | some sibling =>
    cases sibling with
    | leaf => rfl
    | node wl w wr =>
      simp [leftRotate_rotator, paint_isRed, paint_false, paintRoot_rotator, bind_map,
        map_bind]

theorem repairRight_rotator (x : Tree) (p : TreeNode) (wl : Tree) (w : TreeNode) (wr : Tree)
    (up : Path) (s : Unit) :
    rotator.repairRight x p wl w wr up s = (repairRight x p wl w wr up).map (·, s) := by
  have aligned : rotator.alignSiblingRight wl w wr s = (alignSiblingRight wl w wr).map (·, s) := by
    unfold Rotator.alignSiblingRight alignSiblingRight
    simp only [rootRed_rotator, paintRoot_rotator, paint_true, ← color_ne_red]
    split <;> simp_all [leftRotate_rotator]
  rw [Rotator.repairRight, repairRight, aligned]
  cases alignSiblingRight wl w wr with
  | none => rfl
  | some sibling =>
    cases sibling with
    | leaf => rfl
    | node wl w wr =>
      simp [rightRotate_rotator, paint_isRed, paint_false, paintRoot_rotator,
        bind_map, map_bind]

/-- The two spellings of the test of both children. -/
theorem rootsBlack_rotator (l r : Tree) :
    (rotator.rootRed l || rotator.rootRed r) = true ↔ ¬(color l = .Black ∧ color r = .Black) := by
  rw [Bool.or_eq_true, rootRed_rotator, rootRed_rotator, ← color_ne_red, ← color_ne_red]
  tauto

theorem fixupLeftOfRed_rotator (x : Tree) (p : TreeNode) (w : Tree) (up : Path) (s : Unit) :
    rotator.fixupLeftOfRed x p w up s = (fixupLeftOfRed x p w up).map (·, s) := by
  cases w with
  | leaf => rfl
  | node wl w wr =>
    simp only [Rotator.fixupLeftOfRed, fixupLeftOfRed, rootsBlack_rotator, repairLeft_rotator]
    split <;> simp_all [paint_false, paint_true, setColor]

theorem fixupRightOfRed_rotator (x : Tree) (p : TreeNode) (w : Tree) (up : Path) (s : Unit) :
    rotator.fixupRightOfRed x p w up s = (fixupRightOfRed x p w up).map (·, s) := by
  cases w with
  | leaf => rfl
  | node wl w wr =>
    simp only [Rotator.fixupRightOfRed, fixupRightOfRed, rootsBlack_rotator, repairRight_rotator]
    split <;> simp_all [paint_false, paint_true, setColor]

/-- The loop behind a deletion. -/
theorem fixup_rotator (x : Tree) (path : Path) (s : Unit) :
    rotator.fixup x path s = (fixup x path).map (·, s) := by
  fun_induction fixup x path <;>
    simp_all [Rotator.fixup, isRed_rotator, rootRed_rotator, paintRoot_rotator,
      paint_true, paint_false, leftRotate_rotator, rightRotate_rotator, leftRotate, rightRotate,
      fixupLeftOfRed_rotator, fixupRightOfRed_rotator, repairLeft_rotator, repairRight_rotator]
  all_goals
    rename_i bothBlack
    intro left right
    exact absurd (color_ne_red.mp right) (bothBlack (color_ne_red.mp left))

/-! ## Balance -/

/-- Rotations keep the invariant, and colors are read as painted. -/
theorem lawful_rotator : rotator.Lawful Rearranges where
  isRed_paint red n := by cases red <;> rfl
  leftRotate a x b y c s := ⟨_, _, s, rfl, rfl, rfl, leftRotate_rearranges rfl⟩
  rightRotate a x b y c s := ⟨_, _, s, rfl, rfl, rfl, rightRotate_rearranges rfl⟩
  refl := .refl
  trans := .trans
  node _ left right := .node left rfl rfl rfl right
  paint _ l _ r := .node (.refl l) rfl rfl rfl (.refl r)

variable {height : Nat}

/-- A balanced tree with a black root is a red-black tree. -/
theorem isRedBlack_setColor {t : Tree} (ok : Balanced isRed t height) :
    IsRedBlack isRed (setColor .Black t) :=
  paintRoot_rotator t ▸ lawful_rotator.isRedBlack_paintRoot ok

/-- The loop of `fixInsert` runs to its end and restores the balance when only
the red focus may violate it. -/
theorem fixInsertLoop_spec {x : Tree} {path : Path} (red : color x = .Red)
    (focusOk : Balanced isRed x height) (pathOk : PathBalanced isRed path height) :
    ∃ t, fixInsertLoop x path = some t ∧ IsRedBlack isRed (setColor .Black t) ∧
      Rearranges (x.plug path) (setColor .Black t) := by
  obtain ⟨t, s, fixed, redBlack, same⟩ :=
    lawful_rotator.fixInsertLoop ((rootRed_rotator x).mpr red) focusOk pathOk ()
  rw [paintRoot_rotator] at redBlack
  refine ⟨t, ?_, redBlack, paintRoot_rotator t ▸ same.trans (lawful_rotator.paintRoot false t)⟩
  simpa [fixInsertLoop_rotator] using fixed

/-- The deletion fixup runs to its end and restores the balance when the focus
lacks one black node. -/
theorem fixup_spec {x : Tree} {path : Path} (focusOk : Balanced isRed x height)
    (pathOk : PathBalanced isRed path (height + 1)) :
    ∃ t, fixup x path = some t ∧ IsRedBlack isRed t ∧ Rearranges (x.plug path) t := by
  obtain ⟨t, s, fixed, redBlack, same⟩ := lawful_rotator.fixup focusOk pathOk ()
  refine ⟨t, ?_, redBlack, same⟩
  simpa [fixup_rotator] using fixed

end CodeEditor.PieceTree
