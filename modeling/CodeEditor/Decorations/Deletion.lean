import CodeEditor.Decorations.Placement

/-!
# Inserting a node

The new node goes behind all decorations that are not larger, and the tree stays a
sound red-black tree.
-/

namespace CodeEditor.Decorations

open CodeEditor.BinaryTree RedBlack List

variable {fits : Int → Int → Prop}

/-! ## The order of decorations -/

/-- The order of `intervalCompare`. -/
def Decoration.Le (a b : Decoration) : Prop :=
  intervalCompare a.start a.stop b.start b.stop ≤ 0

theorem Decoration.le_iff {a b : Decoration} :
    a.Le b ↔ a.start < b.start ∨ a.start = b.start ∧ a.stop ≤ b.stop := by
  rw [Decoration.Le, intervalCompare]
  split <;> omega

theorem Decoration.Le.trans {a b c : Decoration} (first : a.Le b) (second : b.Le c) : a.Le c := by
  rw [Decoration.le_iff] at *
  omega

/-- The invariant of an interval tree. -/
structure Ok (fits : Int → Int → Prop) (T : IntervalTree) : Prop where
  redBlack : IsRedBlack rotator.isRed T.root
  sound : Sound fits T.root
  sorted : (decorations 0 T.root).Pairwise Decoration.Le
  refs : ((decorations 0 T.root).map (·.ref)).Nodup
  valid : ∀ d ∈ decorations 0 T.root, d.start ≤ d.stop

theorem ok_new : Ok fits .new where
  redBlack := ⟨trivial, 0, rfl⟩
  sound := trivial
  sorted := .nil
  refs := .nil
  valid := by simp [IntervalTree.new]

/-! ## The place of a new node -/

theorem treeInsertPath_spec {z : Decoration} {t : Tree} {path : Path} {delta : Int}
    (onPath : delta = focusBase 0 path)
    (sorted : (decorations 0 (t.plug path)).Pairwise Decoration.Le)
    (smaller : ∀ d ∈ earlier 0 path, d.Le z) (larger : ∀ d ∈ later 0 path, z.Le d) :
    let found := treeInsertPath z.start z.stop t path delta
    found.2 = focusBase 0 found.1 ∧ leaf.plug found.1 = t.plug path ∧
      (∀ d ∈ earlier 0 found.1, d.Le z) ∧ ∀ d ∈ later 0 found.1, z.Le d := by
  induction t generalizing path delta with
  | leaf => exact ⟨onPath, rfl, smaller, larger⟩
  | node l x r leftHypothesis rightHypothesis =>
    subst onPath
    have listed := sorted
    rw [decorations_plug, decorations_node] at listed
    obtain ⟨⟨-, inside, -⟩, -, -⟩ := by
      simpa only [pairwise_append] using listed
    obtain ⟨-, ⟨behind, -⟩, before⟩ := by
      simpa only [pairwise_append, pairwise_cons] using inside
    have order : intervalCompare z.start z.stop (x.start + focusBase 0 path)
        (x.stop + focusBase 0 path) = intervalCompare z.start z.stop
          (x.decoration (focusBase 0 path)).start
          (x.decoration (focusBase 0 path)).stop := by
      simp [IntervalNode.decoration, Int.add_comm]
    rw [treeInsertPath, order]
    split
    · rename_i less
      have first : z.Le (x.decoration (focusBase 0 path)) := Int.le_of_lt less
      refine @leftHypothesis (.left x r :: path) _ rfl sorted smaller ?_
      intro d member
      rw [later, cons_append, mem_cons, mem_append] at member
      obtain rfl | member | member := member
      · exact first
      · exact first.trans (behind d member)
      · exact larger d member
    · rename_i notLess
      have last : (x.decoration (focusBase 0 path)).Le z := by
        have not : ¬ (intervalCompare z.start z.stop _ _ < 0) := notLess
        rw [intervalCompare] at not
        rw [Decoration.le_iff]
        split at not <;> omega
      refine @rightHypothesis (.right l x :: path) _ rfl sorted ?_ larger
      intro d member
      rw [earlier, mem_append, mem_append, mem_singleton] at member
      obtain member | member | rfl := member
      · exact smaller d member
      · exact (before d member _ mem_cons_self).trans last
      · exact last

/-! ## Insertion -/

/-- What an insertion does to the list of decorations. -/
structure Inserts (z : Decoration) (before after : List Decoration) : Prop where
  split : ∃ first second, before = first ++ second ∧ after = first ++ z :: second ∧
    (∀ d ∈ first, d.Le z) ∧ ∀ d ∈ second, z.Le d

variable {before after : List Decoration}

theorem Inserts.sorted (inserts : Inserts z before after) (sorted : before.Pairwise Decoration.Le) :
    after.Pairwise Decoration.Le := by
  obtain ⟨first, second, rfl, rfl, smaller, larger⟩ := inserts.split
  rw [pairwise_append] at sorted ⊢
  obtain ⟨firstSorted, secondSorted, between⟩ := sorted
  refine ⟨firstSorted, .cons larger secondSorted, ?_⟩
  intro a aMember b bMember
  obtain rfl | bMember := mem_cons.mp bMember
  · exact smaller a aMember
  · exact between a aMember b bMember

theorem Inserts.perm (inserts : Inserts z before after) : after.Perm (z :: before) := by
  obtain ⟨first, second, rfl, rfl, -, -⟩ := inserts.split
  exact perm_middle

theorem Fitting.rbTreeInsert (fitting : Fitting fits) {T : IntervalTree} {n : IntervalNode}
    (redBlack : IsRedBlack rotator.isRed T.root) (sound : Sound fits T.root)
    (sorted : (decorations 0 T.root).Pairwise Decoration.Le)
    (unvisited : n.isVisited = false) (fit : fits n.maxEnd n.stop) :
    ∃ T', rbTreeInsert T n = some T' ∧ IsRedBlack rotator.isRed T'.root ∧ Sound fits T'.root ∧
      Inserts (n.decoration 0) (decorations 0 T.root) (decorations 0 T'.root) := by
  obtain ⟨root, request⟩ := T
  cases root with
  | leaf =>
    refine ⟨_, rfl, ⟨rfl, 1, (balanced_black_succ rfl).mpr ⟨rfl, rfl⟩⟩,
      ⟨trivial, trivial, unvisited, fit⟩, [], [], rfl, rfl, ?_, ?_⟩
    · simp
    · simp
  | node l x r =>
    let z := n.decoration 0
    have startEq : z.start = n.start := Int.zero_add n.start
    have stopEq : z.stop = n.stop := Int.zero_add n.stop
    have found := @treeInsertPath_spec z (.node l x r) [] 0 rfl sorted
      (by simp [earlier]) (by simp [later])
    rw [startEq, stopEq] at found
    let place := treeInsertPath n.start n.stop (.node l x r) [] 0
    obtain ⟨baseEq, plugged, smaller, larger⟩ := found
    change place.2 = focusBase 0 place.1 at baseEq
    change leaf.plug place.1 = node l x r at plugged
    let leafNode : Tree := .node .leaf (linked n place.2) .leaf
    -- the path accepts the new node
    have pathSound : PathSound fits (fun i => i = 0) (maxEnd? leafNode) place.1 := by
      rw [← plugged, sound_plug_iff] at sound
      exact (sound.2.imp fun i never => never.elim).of_top rfl
    have mended : PathSound fits (fun _ => False) (maxEnd? leafNode)
        (Decorations.walkFromParent leafNode place.1) :=
      (fitting.walkFromParent pathSound).imp fun i both => both.2 both.1
    have leafSound : Sound fits leafNode := by
      refine ⟨trivial, trivial, unvisited, ?_⟩
      have shifted := fitting.add (-place.2) fit
      simpa only [linked, Decorations.computeMaxEnd, maxEnd?, Int.sub_eq_add_neg] using shifted
    have same := walkFromParent_same leafNode place.1
    obtain ⟨height, leafBalanced, pathOk, -⟩ :=
      isRedBlack_plug_iff.mp (by rwa [← plugged] at redBlack)
    have heightEq : height = 0 := leafBalanced
    subst heightEq
    obtain ⟨root, request', fixed, balanced, keeps⟩ := fitting.lawful.fixInsert
      (show rotator.rootRed leafNode = true from rfl)
      ((balanced_red rfl).mpr ⟨trivial, trivial, rfl, rfl⟩) (same.pathBalanced pathOk)
      request
    refine ⟨⟨root, request'⟩, ?_, balanced, ?_, ?_⟩
    · simp only [Decorations.rbTreeInsert]
      change (rotator.fixInsert leafNode (Decorations.walkFromParent leafNode place.1)
        request).bind (fun r => some (⟨r.1, r.2⟩ : IntervalTree)) = _
      rw [fixed]
      rfl
    · exact (keeps.sound (sound_plug_iff.mpr ⟨leafSound, mended⟩)).1
    · refine ⟨earlier 0 place.1, later 0 place.1, ?_, ?_, smaller, larger⟩
      · change decorations 0 (node l x r) = _
        rw [← plugged, decorations_plug]
        simp
      · have placed : (linked n place.2).decoration (focusBase 0 place.1) = z := by
          simp only [z, linked, IntervalNode.decoration, Decoration.mk.injEq,
            Interval.mk.injEq, true_and, and_true]
          omega
        change decorations 0 root = _
        rw [keeps.decorations, same.decorations_plug, decorations_plug]
        simp [leafNode, placed, z]

/-!
## Deleting a node

A node with a free side has at most one red leaf on the other side, since the tree is
a red-black tree. So shifting the node that moves up is enough: there is no subtree
below it that would need the shift too.
-/

/-! ## A node with a free side -/

/-- The node that moves up, if there is one, is a leaf of the tree. -/
inductive Twig : Tree → Prop
  | leaf : Twig .leaf
  | node (n : IntervalNode) : n.isVisited = false → Twig (.node .leaf n .leaf)

theorem Twig.of_balanced {x : Tree} (ok : Balanced rotator.isRed x 0)
    (sound : Sound fits x) : Twig x := by
  obtain rfl | ⟨n, -, rfl⟩ := eq_of_balanced_zero ok
  · exact .leaf
  · exact .node n sound.2.2.1

/-- The node that moves up is shifted by the delta of the node it replaces. -/
theorem Twig.shiftRoot (twig : Twig x) (delta : Int) : Twig (shiftRoot delta x) ∧
      (∀ height, Balanced rotator.isRed x height →
        Balanced rotator.isRed (Decorations.shiftRoot delta x) height) ∧
      ∀ base, decorations base (Decorations.shiftRoot delta x) = decorations (base + delta) x := by
  cases twig with
  | leaf => exact ⟨.leaf, fun _ ok => ok, fun _ => rfl⟩
  | node n unvisited =>
    refine ⟨.node _ unvisited, fun _ ok => ok, ?_⟩
    intro base
    simp [Decorations.shiftRoot, IntervalNode.shift, IntervalNode.decoration, Int.add_comm,
      Int.add_left_comm]

theorem Fitting.recomputeMaxEndWalkToRoot (fitting : Fitting fits)
    {bad : Nat → Prop} (twig : Twig x) (parent : bad 0)
    (sound : PathSound fits bad (maxEnd? x) path) :
    ∃ x' path', recomputeMaxEndWalkToRoot x path = (x', path') ∧ Sound fits x' ∧
      (∀ base, decorations base x' = decorations base x) ∧
      (∀ height, Balanced rotator.isRed x height → Balanced rotator.isRed x' height) ∧
      SamePath path path' ∧ PathSound fits bad (maxEnd? x') path' := by
  cases twig with
  | leaf =>
    exact ⟨_, _, rfl, trivial, fun _ => rfl, fun _ ok => ok, SamePath.refl path, sound⟩
  | node n unvisited =>
    rw [Decorations.recomputeMaxEndWalkToRoot]
    split
    · rename_i same
      refine ⟨_, _, rfl, ⟨trivial, trivial, unvisited, ?_⟩, fun _ => rfl, fun _ ok => ok,
        SamePath.refl path, sound⟩
      rw [← same]
      exact fitting.refl _
    · refine ⟨_, _, rfl, ⟨trivial, trivial, unvisited, fitting.refl _⟩, fun _ => rfl,
        fun _ ok => ok, walkFromParent_same _ path, ?_⟩
      exact (fitting.walkFromParent (sound.of_top parent)).imp fun i both => both.1

/-- The crumbs that may be stale around a node that has moved up. -/
def stale (y : Option Nat) (i : Nat) : Prop :=
  ∃ index, y = some index ∧ (i = index ∨ i = index + 1)

theorem Fitting.walkFromMoved (fitting : Fitting fits) {x : Tree}
    (sound : PathSound fits (fun i => i = 0 ∨ stale y i) (maxEnd? x) path) :
    SamePath path (walkFromMoved y x (Decorations.walkFromParent x path)) ∧
      PathSound fits (fun _ => False) (maxEnd? x)
        (walkFromMoved y x (Decorations.walkFromParent x path)) := by
  have same := walkFromParent_same x path
  have mended := fitting.walkFromParent sound
  cases y with
  | none =>
    refine ⟨same, mended.imp ?_⟩
    rintro i ⟨rfl | ⟨index, impossible, -⟩, notFirst⟩
    · exact notFirst rfl
    · cases impossible
  | some index =>
    refine ⟨(same.trans (walkFromAncestor_same index x _)).trans
      (walkFromAncestor_same (index + 1) x _), ?_⟩
    apply (fitting.walkFromAncestor (fitting.walkFromAncestor mended)).imp
    rintro i ⟨⟨⟨isFirst | ⟨_, ⟨⟩, place⟩, notFirst⟩, notIndex⟩, notNext⟩
    · exact notFirst isFirst
    · omega

/-- What a removal leaves behind. -/
structure Leaves (fits : Int → Int → Prop) (before after : Tree) : Prop where
  redBlack : IsRedBlack rotator.isRed after
  sound : Sound fits after
  decorations : ∀ base, decorations base after = decorations base before

variable {path : Path} {z : IntervalNode}

theorem Fitting.finishDelete (fitting : Fitting fits) {yWasRed : Bool} {y : Option Nat}
    {x : Tree} (twig : Twig x)
    (red : yWasRed = true → x = .leaf ∧ PathBalanced rotator.isRed path 0)
    (black : yWasRed = false → Balanced rotator.isRed x 0 ∧ PathBalanced rotator.isRed path 1)
    (sound : PathSound fits (fun i => i = 0 ∨ stale y i) (maxEnd? x) path)
    (request : Bool) :
    ∃ root request', finishDelete yWasRed y x path request = some (root, request') ∧
      Leaves fits (x.plug path) root := by
  cases yWasRed with
  | true =>
    obtain ⟨rfl, pathOk⟩ := red rfl
    obtain ⟨same, mended⟩ := fitting.walkFromMoved sound
    refine ⟨_, request, rfl, ?_, sound_plug_iff.mpr ⟨trivial, mended⟩, ?_⟩
    · exact isRedBlack_plug_iff.mpr ⟨0, rfl, same.pathBalanced pathOk, .inl trivial⟩
    · intro base
      exact same.decorations_plug base _
  | false =>
    obtain ⟨focusOk, pathOk⟩ := black rfl
    obtain ⟨x', path', walked, xSound, xPlaces, xBalanced, same, sound⟩ :=
      fitting.recomputeMaxEndWalkToRoot twig (.inl rfl) sound
    obtain ⟨same', mended⟩ := fitting.walkFromMoved sound
    obtain ⟨root, request', fixed, balanced, keeps⟩ := fitting.lawful.fixup
      (xBalanced 0 focusOk) ((same.trans same').pathBalanced pathOk) request
    refine ⟨root, request', ?_, balanced, ?_, ?_⟩
    · simp [Decorations.finishDelete, walked, fixed]
    · exact (keeps.sound (sound_plug_iff.mpr ⟨xSound, mended⟩)).1
    · intro base
      rw [keeps.decorations, (same.trans same').decorations_plug, decorations_plug,
        decorations_plug, xPlaces]

theorem Fitting.deleteWithOneChild (fitting : Fitting fits) {x : Tree} (twig : Twig x)
    (red : z.color = .Red → x = .leaf ∧ PathBalanced rotator.isRed path 0)
    (black : z.color ≠ .Red → Balanced rotator.isRed x 0 ∧ PathBalanced rotator.isRed path 1)
    (sound : PathSound fits (fun i => i = 0) (maxEnd? x) path) (request : Bool) :
    ∃ root request', deleteWithOneChild z x path request = some (root, request') ∧
      Leaves fits (x.plug path) root := by
  cases path with
  | nil =>
    refine ⟨_, request, rfl, ?_⟩
    cases twig with
    | leaf => exact ⟨⟨trivial, 0, rfl⟩, trivial, fun _ => rfl⟩
    | node n unvisited =>
      exact ⟨⟨rfl, 1, (balanced_black_succ rfl).mpr ⟨rfl, rfl⟩⟩,
        ⟨trivial, trivial, unvisited, fitting.refl _⟩, fun _ => rfl⟩
  | cons crumb up =>
    apply fitting.finishDelete twig
    · intro isRed
      exact red (of_decide_eq_true isRed)
    · intro isBlack
      exact black (of_decide_eq_false isBlack)
    · exact sound.imp fun i first => .inl first

/-! ## The node that moves up -/

theorem leftestFrom_spec {t : Tree} (inner : t ≠ .leaf) (path : Path) :
    ∃ y x crumbs, leftestFrom t path = some (y, x, crumbs ++ path) ∧
      (BinaryTree.node .leaf y x).plug crumbs = t ∧
      ∀ base, focusBase base crumbs = base ∧ earlier base crumbs = [] := by
  induction t generalizing path with
  | leaf => exact absurd rfl inner
  | node l n r leftHypothesis _ =>
    cases l with
    | leaf => exact ⟨n, r, [], rfl, rfl, fun _ => ⟨rfl, rfl⟩⟩
    | node ll ln lr =>
      obtain ⟨y, x, crumbs, found, plugged, places⟩ :=
        leftHypothesis (by simp) (.left n r :: path)
      refine ⟨y, x, crumbs ++ [.left n r], ?_, ?_, ?_⟩
      · rw [leftestFrom, found, append_assoc]
        · rfl
        · simp
      · rw [plug_append, plugged]
        rfl
      · intro base
        rw [focusBase_append, earlier_append]
        exact places base

/-- A node in the place of an ancestor, with the same colour. -/
theorem pathBalanced_replace {inner outer : Path} {l : Tree} {z y : IntervalNode}
    {height : Nat} (color : y.color = z.color)
    (ok : PathBalanced rotator.isRed (inner ++ .right l z :: outer) height) :
    PathBalanced rotator.isRed (inner ++ .right l y :: outer) height := by
  refine pathBalanced_congr ?_ ok
  refine rel_append (forall₂_same.mpr fun _ _ => ⟨rfl, rfl⟩) (.cons ?_ ?_)
  · exact ⟨by simp [rotator, color], rfl⟩
  · exact forall₂_same.mpr fun _ _ => ⟨rfl, rfl⟩

/-- Behind such a node, its own `maxEnd` and the one above it may be stale. -/
theorem PathSound.replace {inner outer : Path} {l : Tree} {z y : IntervalNode}
    {bad : Nat → Prop} {top : Option Int} (unvisited : y.isVisited = false)
    (sound : PathSound fits bad top (inner ++ .right l z :: outer)) :
    PathSound fits (fun i => bad i ∨ i = inner.length ∨ i = inner.length + 1) top
      (inner ++ .right l y :: outer) := by
  induction inner generalizing bad top with
  | nil =>
    obtain ⟨sibling, -, -, rest⟩ := sound
    refine ⟨sibling, unvisited, .inl (.inr (.inl rfl)), ?_⟩
    refine PathSound.of_top (rest.imp fun i isBad => .inl isBad) (.inr (.inr rfl))
  | cons crumb inner ih =>
    have rest : ∀ {top : Option Int}, PathSound fits (fun i => bad (i + 1)) top
        (inner ++ .right l z :: outer) → PathSound fits
        (fun i => bad (i + 1) ∨ i + 1 = (crumb :: inner).length ∨
          i + 1 = (crumb :: inner).length + 1) top (inner ++ .right l y :: outer) := by
      intro top above
      apply (ih above).imp
      rintro i (isBad | place)
      · exact .inl isBad
      · right
        rw [length_cons]
        omega
    cases crumb with
    | left n r => exact ⟨sound.1, sound.2.1, sound.2.2.1.imp_left .inl, rest sound.2.2.2⟩
    | right l n => exact ⟨sound.1, sound.2.1, sound.2.2.1.imp_left .inl, rest sound.2.2.2⟩

/-! ## Deletion -/

/-- The path above a red or black node without a left child. -/
theorem pathBalanced_of_free_left {z : IntervalNode} {x : Tree} {path : Path}
    (redBlack : IsRedBlack rotator.isRed ((BinaryTree.node .leaf z x).plug path)) :
    (z.color = .Red → x = .leaf ∧ PathBalanced rotator.isRed path 0) ∧
      (z.color ≠ .Red → PathBalanced rotator.isRed path 1) ∧
      Balanced rotator.isRed x 0 := by
  obtain ⟨height, focusOk, pathOk, -⟩ := isRedBlack_plug_iff.mp redBlack
  cases colour : rotator.isRed z with
  | true =>
    obtain ⟨-, rightBlack, leftOk, rightOk⟩ := (balanced_red colour).mp focusOk
    have heightEq : height = 0 := leftOk
    subst heightEq
    have isLeaf : x = .leaf := by
      obtain isLeaf | ⟨n, red, rfl⟩ := eq_of_balanced_zero rightOk
      · exact isLeaf
      · exact absurd (red.symm.trans rightBlack) (by decide)
    exact ⟨fun _ => ⟨isLeaf, pathOk⟩, fun black => absurd (of_decide_eq_true colour) black, rightOk⟩
  | false =>
    obtain ⟨below, rfl, leftOk, rightOk⟩ := (balanced_black colour).mp focusOk
    have heightEq : below = 0 := leftOk
    subst heightEq
    exact ⟨fun red => absurd red (of_decide_eq_false colour), fun _ => pathOk, rightOk⟩

theorem pathBalanced_of_free_right {x : Tree}
    (redBlack : IsRedBlack rotator.isRed ((BinaryTree.node x z .leaf).plug path)) :
    (z.color = .Red → x = .leaf ∧ PathBalanced rotator.isRed path 0) ∧
      (z.color ≠ .Red → PathBalanced rotator.isRed path 1) ∧
      Balanced rotator.isRed x 0 := by
  apply @pathBalanced_of_free_left z x path
  obtain ⟨height, focusOk, pathOk, parent⟩ := isRedBlack_plug_iff.mp redBlack
  refine isRedBlack_plug_iff.mpr ⟨height, ?_, pathOk, parent⟩
  cases colour : rotator.isRed z with
  | true =>
    obtain ⟨leftBlack, rightBlack, leftOk, rightOk⟩ := (balanced_red colour).mp focusOk
    exact (balanced_red colour).mpr ⟨rightBlack, leftBlack, rightOk, leftOk⟩
  | false =>
    obtain ⟨below, rfl, leftOk, rightOk⟩ := (balanced_black colour).mp focusOk
    exact (balanced_black_succ colour).mpr ⟨rightOk, leftOk⟩

theorem Fitting.deleteWithTwoChildren (fitting : Fitting fits) {l r : Tree} (inner : r ≠ .leaf)
    (redBlack : IsRedBlack rotator.isRed ((BinaryTree.node l z r).plug path))
    (sound : Sound fits ((BinaryTree.node l z r).plug path)) (request : Bool) :
    ∃ root request', deleteWithTwoChildren l z r path request = some (root, request') ∧
      IsRedBlack rotator.isRed root ∧ Sound fits root ∧
      ∀ base, decorations base root = earlier base path ++ (decorations (focusBase base path) l ++
          decorations (focusBase base path + z.delta) r) ++ later base path := by
  obtain ⟨y, x, crumbs, found, rfl, places⟩ := leftestFrom_spec inner []
  rw [append_nil] at found
  have whole : (BinaryTree.node l z ((BinaryTree.node .leaf y x).plug crumbs)).plug path =
      (BinaryTree.node .leaf y x).plug (crumbs ++ .right l z :: path) := by
    rw [plug_append]
    rfl
  rw [whole] at redBlack sound
  obtain ⟨red, black, focusOk⟩ := pathBalanced_of_free_left redBlack
  obtain ⟨⟨-, xSound, yUnvisited, -⟩, pathSound⟩ := sound_plug_iff.mp sound
  obtain ⟨twig, balanced, xPlaces⟩ := (Twig.of_balanced focusOk xSound).shiftRoot y.delta
  let y' : IntervalNode := { y with
    start := y.start + z.delta
    stop := y.stop + z.delta
    delta := z.delta
    color := z.color }
  have loose : PathSound fits (fun i => i = 0 ∨ stale (some crumbs.length) i)
      (maxEnd? (shiftRoot y.delta x)) (crumbs ++ .right l y' :: path) := by
    have replaced := PathSound.replace (show y'.isVisited = false from yUnvisited) pathSound
    refine PathSound.of_top (replaced.imp ?_) (.inl rfl)
    rintro i (never | place)
    · exact never.elim
    · exact .inr ⟨_, rfl, place⟩
  have color : y'.color = z.color := rfl
  have redOk : decide (y.color = .Red) = true → shiftRoot y.delta x = .leaf ∧
      PathBalanced rotator.isRed (crumbs ++ .right l y' :: path) 0 := by
    intro isRed
    obtain ⟨isLeaf, pathOk⟩ := red (of_decide_eq_true isRed)
    rw [isLeaf]
    exact ⟨rfl, pathBalanced_replace color pathOk⟩
  have blackOk : decide (y.color = .Red) = false → Balanced rotator.isRed (shiftRoot y.delta x) 0 ∧
        PathBalanced rotator.isRed (crumbs ++ .right l y' :: path) 1 := by
    intro isBlack
    exact ⟨balanced 0 focusOk, pathBalanced_replace color (black (of_decide_eq_false isBlack))⟩
  obtain ⟨root, request', finished, leaves⟩ := fitting.finishDelete twig redOk blackOk loose
    (request || isUnsafeDelta (rootDelta x + y.delta) || isUnsafeDelta y'.delta)
  refine ⟨root, request', ?_, leaves.redBlack, leaves.sound, ?_⟩
  · simp only [Decorations.deleteWithTwoChildren, found, Option.bind_eq_bind, Option.bind_some]
    exact finished
  · intro base
    have moved : y'.decoration (focusBase base path) =
        y.decoration (focusBase base path + z.delta) := by
      simp [y', IntervalNode.decoration, Int.add_comm z.delta, Int.add_assoc]
    rw [leaves.decorations, plug_append, plug_cons, decorations_plug]
    simp only [Crumb.fill, decorations_node, moved]
    rw [decorations_plug, decorations_plug, (places _).1, (places _).2, xPlaces]
    simp [y']

/-- Where an element that is unlike all others stands in a list. -/
theorem split_unique {α : Type} {key : α → Nat} {first second first' second' : List α}
    {a b : α} (same : first ++ a :: second = first' ++ b :: second') (keys : key a = key b)
    (nodup : ((first ++ a :: second).map key).Nodup) :
    first = first' ∧ a = b ∧ second = second' := by
  induction first generalizing first' with
  | nil =>
    cases first' with
    | nil =>
      injection same with heads tails
      exact ⟨rfl, heads, tails⟩
    | cons c rest =>
      injection same with heads tails
      subst heads tails
      simp [keys] at nodup
  | cons c rest ih =>
    cases first' with
    | nil =>
      injection same with heads tails
      subst heads tails
      simp [keys] at nodup
    | cons d rest' =>
      injection same with heads tails
      subst heads
      rw [cons_append, map_cons, nodup_cons] at nodup
      obtain ⟨rfl, rfl, rfl⟩ := ih tails nodup.2
      exact ⟨rfl, rfl, rfl⟩

theorem Fitting.deleteAt (fitting : Fitting fits) {l r : Tree}
    (redBlack : IsRedBlack rotator.isRed ((BinaryTree.node l z r).plug path))
    (sound : Sound fits ((BinaryTree.node l z r).plug path)) (request : Bool) :
    ∃ root request', deleteAt l z r path request = some (root, request') ∧
      IsRedBlack rotator.isRed root ∧ Sound fits root ∧
      decorations 0 root = earlier 0 path ++ decorations (focusBase 0 path) l ++
        (decorations (focusBase 0 path + z.delta) r ++ later 0 path) := by
  obtain ⟨⟨lSound, rSound, -, -⟩, pathSound⟩ := sound_plug_iff.mp sound
  have loose : ∀ top, PathSound fits (fun i => i = 0) top path := fun top =>
    (pathSound.imp fun i never => never.elim).of_top rfl
  match l, r with
  | .leaf, r =>
    obtain ⟨red, black, focusOk⟩ := pathBalanced_of_free_left redBlack
    obtain ⟨twig, balanced, places⟩ :=
      (Twig.of_balanced focusOk rSound).shiftRoot z.delta
    obtain ⟨root, request', deleted, leaves⟩ := fitting.deleteWithOneChild twig (fun isRed => by
        obtain ⟨rfl, pathOk⟩ := red isRed
        exact ⟨rfl, pathOk⟩)
      (fun isBlack => ⟨balanced 0 focusOk, black isBlack⟩) (loose _) _
    refine ⟨root, request', deleted, leaves.redBlack, leaves.sound, ?_⟩
    rw [leaves.decorations, decorations_plug, places]
    simp
  | .node ll ln lr, .leaf =>
    obtain ⟨red, black, focusOk⟩ := pathBalanced_of_free_right redBlack
    obtain ⟨root, request', deleted, leaves⟩ := fitting.deleteWithOneChild
      (Twig.of_balanced focusOk lSound) red
      (fun isBlack => ⟨focusOk, black isBlack⟩) (loose _) request
    refine ⟨root, request', deleted, leaves.redBlack, leaves.sound, ?_⟩
    rw [leaves.decorations, decorations_plug]
    simp
  | .node ll ln lr, .node rl rn rr =>
    obtain ⟨root, request', deleted, balanced, rootSound, rest⟩ :=
      fitting.deleteWithTwoChildren (by simp) redBlack sound request
    refine ⟨root, request', deleted, balanced, rootSound, ?_⟩
    rw [rest]
    simp

variable {first second : List Decoration}

/-- A node is found by its reference, in its place. -/
theorem locate_decoration {t : Tree} {d : Decoration} (refs : ((decorations 0 t).map (·.ref)).Nodup)
    (listed : decorations 0 t = first ++ d :: second) :
    ∃ l z r path, t.locate (fun n => n.ref = d.ref) = some (l, z, r, path) ∧
      (BinaryTree.node l z r).plug path = t ∧ z.decoration (focusBase 0 path) = d ∧
      first = earlier 0 path ++ decorations (focusBase 0 path) l ∧
      second = decorations (focusBase 0 path + z.delta) r ++ later 0 path := by
  cases located : t.locate fun n => n.ref = d.ref with
  | none =>
    have member : d.ref ∈ t.inorder.map (·.ref) := by
      rw [← map_ref_decorations 0, listed]
      simp
    obtain ⟨n, inTree, same⟩ := mem_map.mp member
    have absent := locateFrom_none located n inTree
    simp [same] at absent
  | some found =>
    obtain ⟨l, z, r, path⟩ := found
    obtain ⟨isZ, plugged⟩ := locate_some located
    have zRef : z.ref = d.ref := of_decide_eq_true isZ
    have order : (earlier 0 path ++ decorations (focusBase 0 path) l) ++
        z.decoration (focusBase 0 path) ::
          (decorations (focusBase 0 path + z.delta) r ++ later 0 path) =
        first ++ d :: second := by
      rw [← listed, ← plugged, decorations_plug]
      simp
    rw [listed, ← order] at refs
    obtain ⟨isFirst, isD, isSecond⟩ := split_unique order zRef refs
    exact ⟨l, z, r, path, rfl, plugged, isD, isFirst.symm, isSecond.symm⟩

/-- A deletion takes out the node and keeps all others. -/
theorem Fitting.rbTreeDelete (fitting : Fitting fits) {T : IntervalTree} {d : Decoration}
    (redBlack : IsRedBlack rotator.isRed T.root) (sound : Sound fits T.root)
    (refs : ((decorations 0 T.root).map (·.ref)).Nodup)
    (listed : decorations 0 T.root = first ++ d :: second) :
    ∃ T' z, rbTreeDelete T d.ref = some (T', z) ∧ IsRedBlack rotator.isRed T'.root ∧
      Sound fits T'.root ∧ decorations 0 T'.root = first ++ second ∧
      z.isVisited = false ∧ ∃ base, z.decoration base = d := by
  obtain ⟨l, z, r, path, located, plugged, isD, rfl, rfl⟩ := locate_decoration refs listed
  rw [← plugged] at redBlack sound
  have unvisited : z.isVisited = false := (sound_plug_iff.mp sound).1.2.2.1
  obtain ⟨root, request', deleted, balanced, rootSound, rest⟩ :=
    fitting.deleteAt redBlack sound T.requestNormalizeDelta
  refine ⟨⟨root, request'⟩, z, ?_, balanced, rootSound, rest, unvisited, _, isD⟩
  simp [Decorations.rbTreeDelete, located, deleted]

end CodeEditor.Decorations
