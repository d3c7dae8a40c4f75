import CodeEditor.Decorations.IntervalTree

/-!
# Where decorations are

The decorations that a tree stands for, with absolute offsets and from left to right,
and what the fields `maxEnd` and `isVisited` of its nodes have to say. Both are
described for a focus and its path, so that a change at the focus is a local matter.
-/

namespace CodeEditor.Decorations

open CodeEditor.BinaryTree RedBlack

/-! ## Decorations -/

/-- A decoration with absolute offsets. -/
structure Interval where
  ref : Nat
  id : String
  stickiness : TrackedRangeStickiness
  collapseOnReplaceEdit : Bool
  start : Int
  stop : Int
  deriving DecidableEq, Repr

/-- All that a node says about its decoration. -/
structure Decoration extends Interval where
  cachedAbsoluteStart : Int
  cachedAbsoluteEnd : Int
  deriving DecidableEq, Repr

/-- The decoration of a node whose offsets are relative to `base`. -/
def IntervalNode.decoration (n : IntervalNode) (base : Int) : Decoration where
  ref := n.ref
  id := n.id
  stickiness := n.stickiness
  collapseOnReplaceEdit := n.collapseOnReplaceEdit
  start := base + n.start
  stop := base + n.stop
  cachedAbsoluteStart := n.cachedAbsoluteStart
  cachedAbsoluteEnd := n.cachedAbsoluteEnd

/-- The decorations of a tree from left to right. -/
def decorations : (base : Int) → Tree → List Decoration
  | _, .leaf => []
  | base, .node l n r =>
    decorations base l ++ n.decoration base :: decorations (base + n.delta) r

@[simp] theorem decorations_leaf (base : Int) : decorations base .leaf = [] := rfl

@[simp] theorem decorations_node (base : Int) (l r : Tree) (n : IntervalNode) :
    decorations base (.node l n r) =
      decorations base l ++ n.decoration base :: decorations (base + n.delta) r := rfl

/-- What the offsets of a focus are relative to, below a root relative to `base`. -/
def focusBase (base : Int) : Path → Int
  | [] => base
  | .left _ _ :: up => focusBase base up
  | .right _ n :: up => focusBase base up + n.delta

/-- The decorations to the left of a focus. -/
def earlier (base : Int) : Path → List Decoration
  | [] => []
  | .left _ _ :: up => earlier base up
  | .right l n :: up =>
    earlier base up ++
      (decorations (focusBase base up) l ++ [n.decoration (focusBase base up)])

/-- The decorations to the right of a focus. -/
def later (base : Int) : Path → List Decoration
  | [] => []
  | .left n r :: up =>
    n.decoration (focusBase base up) ::
      decorations (focusBase base up + n.delta) r ++ later base up
  | .right _ _ :: up => later base up

theorem decorations_plug (base : Int) (x : Tree) (path : Path) : decorations base (x.plug path) =
      earlier base path ++ decorations (focusBase base path) x ++ later base path := by
  induction path generalizing x with
  | nil => simp [earlier, later, focusBase]
  | cons crumb up ih =>
    rw [plug_cons, ih]
    cases crumb <;> simp [Crumb.fill, earlier, later, focusBase]

theorem focusBase_append (base : Int) (inner outer : Path) :
    focusBase base (inner ++ outer) = focusBase (focusBase base outer) inner := by
  induction inner with
  | nil => rfl
  | cons crumb inner ih => cases crumb <;> simp [focusBase, ih]

theorem earlier_append (base : Int) (inner outer : Path) : earlier base (inner ++ outer) =
      earlier base outer ++ earlier (focusBase base outer) inner := by
  induction inner with
  | nil => simp [earlier]
  | cons crumb inner ih => cases crumb <;> simp [earlier, ih, focusBase_append]

theorem map_ref_decorations (base : Int) (t : Tree) :
    (decorations base t).map (·.ref) = t.inorder.map (·.ref) := by
  induction t generalizing base with
  | leaf => rfl
  | node l n r leftHypothesis rightHypothesis =>
    simp [leftHypothesis, rightHypothesis, IntervalNode.decoration]

/-! ## Maximal ends and visited bits -/

/-- A relation between the stored and the computed `maxEnd` of a node that is kept
when both are computed on. -/
structure Fitting (fits : Int → Int → Prop) : Prop where
  refl : ∀ a, fits a a
  trans : ∀ {a b c}, fits a b → fits b c → fits a c
  max : ∀ {a b} c, fits a b → fits (max c a) (max c b)
  add : ∀ {a b} c, fits a b → fits (a + c) (b + c)

theorem fitting_eq : Fitting (· = ·) where
  refl _ := rfl
  trans := Eq.trans
  max c same := congrArg (max c) same
  add c same := congrArg (· + c) same

/-- Stored ends that may be too large. -/
theorem fitting_ge : Fitting (· ≥ ·) where
  refl := Int.le_refl
  trans first second := Int.le_trans second first
  max c le := by simp only [ge_iff_le] at le ⊢; omega
  add c le := Int.add_le_add_right le c

variable {fits : Int → Int → Prop}

/-- The larger of an end and the maximal end of a child. -/
def raise (maxEnd : Int) : Option Int → Int
  | none => maxEnd
  | some childMaxEnd => max maxEnd childMaxEnd

@[simp] theorem maxEnd?_node (l r : Tree) (n : IntervalNode) :
    maxEnd? (.node l n r) = some n.maxEnd := rfl

theorem computeMaxEnd_eq (l : Tree) (n : IntervalNode) (r : Tree) : computeMaxEnd l n r =
      raise (raise n.stop (maxEnd? l)) ((maxEnd? r).map (· + n.delta)) := by
  unfold computeMaxEnd
  cases maxEnd? l <;> cases maxEnd? r <;> simp only [raise, Option.map] <;> omega

theorem stop_le_computeMaxEnd (l r : Tree) (n : IntervalNode) : n.stop ≤ computeMaxEnd l n r := by
  rw [computeMaxEnd_eq]
  cases maxEnd? l <;> cases maxEnd? r <;> simp only [raise, Option.map] <;> omega

theorem left_le_computeMaxEnd {l : Tree} (r : Tree) (n : IntervalNode)
    (top : maxEnd? l = some leftEnd) : leftEnd ≤ computeMaxEnd l n r := by
  rw [computeMaxEnd_eq, top]
  cases maxEnd? r <;> simp only [raise, Option.map] <;> omega

theorem right_le_computeMaxEnd (l : Tree) {r : Tree} (n : IntervalNode)
    (top : maxEnd? r = some rightEnd) : rightEnd + n.delta ≤ computeMaxEnd l n r := by
  rw [computeMaxEnd_eq, top]
  cases maxEnd? l <;> simp only [raise, Option.map] <;> omega

/-- Maximal ends of children that fit. -/
def TopFits (fits : Int → Int → Prop) : Option Int → Option Int → Prop
  | none, none => True
  | some a, some b => fits a b
  | _, _ => False

section

variable (fitting : Fitting fits)

include fitting

theorem Fitting.top_refl : ∀ top, TopFits fits top top
  | none => trivial
  | some a => fitting.refl a

theorem Fitting.top_trans (first : TopFits fits a b) (second : TopFits fits b c) :
    TopFits fits a c := by
  cases a <;> cases b <;> cases c <;> simp only [TopFits] at first second ⊢
  exact fitting.trans first second

theorem Fitting.raise (ends : fits a b) (tops : TopFits fits c d) :
    fits (raise a c) (raise b d) := by
  cases c <;> cases d <;> simp only [TopFits, Decorations.raise] at tops ⊢
  · exact ends
  · rename_i c d
    have first := fitting.max a tops
    have second := fitting.max d ends
    rw [Int.max_comm d a, Int.max_comm d b] at second
    exact fitting.trans first second

theorem Fitting.top_add (delta : Int) (tops : TopFits fits a b) :
    TopFits fits (a.map (· + delta)) (b.map (· + delta)) := by
  match a, b, tops with
  | none, none, _ => trivial
  | some _, some _, fit => exact fitting.add delta fit

theorem Fitting.computeMaxEnd {l l' r r' : Tree} (n : IntervalNode)
    (left : TopFits fits (maxEnd? l) (maxEnd? l')) (right : TopFits fits (maxEnd? r) (maxEnd? r')) :
    fits (computeMaxEnd l n r) (computeMaxEnd l' n r') := by
  rw [computeMaxEnd_eq, computeMaxEnd_eq]
  exact fitting.raise (fitting.raise (fitting.refl _) left) (fitting.top_add n.delta right)

end

/-- No node is visited, and every `maxEnd` fits. -/
def Sound (fits : Int → Int → Prop) : Tree → Prop
  | .leaf => True
  | .node l n r =>
    Sound fits l ∧ Sound fits r ∧ n.isVisited = false ∧
      fits n.maxEnd (computeMaxEnd l n r)

/-- The crumbs of a path are sound above a focus with a given maximal end, those with
a `bad` index up to their own `maxEnd`. -/
def PathSound (fits : Int → Int → Prop) : (bad : Nat → Prop) → Option Int → Path → Prop
  | _, _, [] => True
  | bad, top, .left n r :: up =>
    Sound fits r ∧ n.isVisited = false ∧
      (bad 0 ∨ fits n.maxEnd (raise (raise n.stop top) ((maxEnd? r).map (· + n.delta)))) ∧
      PathSound fits (fun i => bad (i + 1)) (some n.maxEnd) up
  | bad, top, .right l n :: up =>
    Sound fits l ∧ n.isVisited = false ∧
      (bad 0 ∨ fits n.maxEnd (raise (raise n.stop (maxEnd? l)) (top.map (· + n.delta)))) ∧
      PathSound fits (fun i => bad (i + 1)) (some n.maxEnd) up

theorem sound_plug_iff {x : Tree} {path : Path} : Sound fits (x.plug path) ↔
      Sound fits x ∧ PathSound fits (fun _ => False) (maxEnd? x) path := by
  induction path generalizing x with
  | nil => simp [PathSound]
  | cons crumb up ih =>
    rw [plug_cons, ih]
    cases crumb <;>
      simp only [Crumb.fill, Sound, PathSound, computeMaxEnd_eq, maxEnd?, false_or] <;>
      tauto

/-- More crumbs may be bad. -/
theorem PathSound.imp {bad bad' : Nat → Prop} (more : ∀ i, bad i → bad' i)
    (sound : PathSound fits bad top path) :
    PathSound fits bad' top path := by
  induction path generalizing bad bad' top with
  | nil => trivial
  | cons crumb up ih =>
    cases crumb with
    | left n r =>
      obtain ⟨sibling, unvisited, fit, rest⟩ := sound
      exact ⟨sibling, unvisited, fit.imp_left (more 0), ih (fun i => more (i + 1)) rest⟩
    | right l n =>
      obtain ⟨sibling, unvisited, fit, rest⟩ := sound
      exact ⟨sibling, unvisited, fit.imp_left (more 0), ih (fun i => more (i + 1)) rest⟩

/-- Only the parent looks at the maximal end of the focus. -/
theorem PathSound.of_top (sound : PathSound fits bad top path) (parent : bad 0) :
    PathSound fits bad top' path := by
  cases path with
  | nil => trivial
  | cons crumb up =>
    cases crumb with
    | left n r => exact ⟨sound.1, sound.2.1, .inl parent, sound.2.2.2⟩
    | right l n => exact ⟨sound.1, sound.2.1, .inl parent, sound.2.2.2⟩

/-!
## Rotations and walks to the root

Rotations and recolourings keep the decorations of a tree and its soundness, hence so
do the repairs of the red-black tree. A walk to the root mends the `maxEnd` of the
node it starts from: it stops as soon as a value is unchanged, and then no other value
above has become stale.
-/

/-! ## Rotations -/

/-- A tree with the same decorations, which is as sound. -/
structure Keeps (fits : Int → Int → Prop) (t t' : Tree) : Prop where
  decorations : ∀ base, decorations base t' = decorations base t
  sound : Sound fits t → Sound fits t' ∧ TopFits fits (maxEnd? t) (maxEnd? t')

theorem Fitting.leftRotate (fitting : Fitting fits) (a b c : Tree) (x y : IntervalNode)
    (request : Bool) : ∃ x' y' request',
    leftRotate (.node a x (.node b y c)) request = some (.node (.node a x' b) y' c, request') ∧
    x'.color = x.color ∧ y'.color = y.color ∧
    Keeps fits (.node a x (.node b y c)) (.node (.node a x' b) y' c) := by
  refine ⟨_, _, _, rfl, rfl, rfl, ?_, ?_⟩
  · intro base
    simp [IntervalNode.decoration, IntervalNode.shift, recomputeMaxEnd, Int.add_comm,
      Int.add_left_comm]
  · rintro ⟨aSound, ⟨bSound, cSound, yUnvisited, yFits⟩, xUnvisited, xFits⟩
    refine ⟨⟨⟨aSound, bSound, xUnvisited, fitting.refl _⟩, cSound, yUnvisited, fitting.refl _⟩, ?_⟩
    have inner := fitting.computeMaxEnd x (fitting.top_refl (maxEnd? a))
      (show TopFits fits (maxEnd? (.node b y c))
        (maxEnd? (.node b (recomputeMaxEnd b y c) c)) from yFits)
    have whole := fitting.trans xFits inner
    have same : Decorations.computeMaxEnd a x (.node b (recomputeMaxEnd b y c) c) =
        Decorations.computeMaxEnd (.node a (recomputeMaxEnd a x b) b) (y.shift x.delta) c := by
      simp only [computeMaxEnd_eq, maxEnd?_node, recomputeMaxEnd, IntervalNode.shift]
      cases maxEnd? a <;> cases maxEnd? b <;> cases maxEnd? c <;>
        simp only [Decorations.raise, Option.map] <;> omega
    rw [same] at whole
    exact whole

theorem Fitting.rightRotate (fitting : Fitting fits) (a b c : Tree) (x y : IntervalNode)
    (request : Bool) : ∃ x' y' request',
    rightRotate (.node (.node a x b) y c) request = some (.node a x' (.node b y' c), request') ∧
    x'.color = x.color ∧ y'.color = y.color ∧
    Keeps fits (.node (.node a x b) y c) (.node a x' (.node b y' c)) := by
  refine ⟨_, _, _, rfl, rfl, rfl, ?_, ?_⟩
  · intro base
    have back : base + x.delta + (y.start + -x.delta) = base + y.start := by omega
    have backStop : base + x.delta + (y.stop + -x.delta) = base + y.stop := by omega
    have backDelta : base + x.delta + (y.delta + -x.delta) = base + y.delta := by omega
    simp [IntervalNode.decoration, IntervalNode.shift, recomputeMaxEnd, back, backStop, backDelta]
  · rintro ⟨⟨aSound, bSound, xUnvisited, xFits⟩, cSound, yUnvisited, yFits⟩
    refine ⟨⟨aSound, ⟨bSound, cSound, yUnvisited, fitting.refl _⟩, xUnvisited, fitting.refl _⟩, ?_⟩
    have inner := fitting.computeMaxEnd y (show TopFits fits (maxEnd? (.node a x b))
        (maxEnd? (.node a (recomputeMaxEnd a x b) b)) from xFits)
      (fitting.top_refl (maxEnd? c))
    have whole := fitting.trans yFits inner
    have same : Decorations.computeMaxEnd (.node a (recomputeMaxEnd a x b) b) y c =
        Decorations.computeMaxEnd a x (.node b (recomputeMaxEnd b (y.shift (-x.delta)) c) c) := by
      simp only [computeMaxEnd_eq, maxEnd?_node, recomputeMaxEnd, IntervalNode.shift]
      cases maxEnd? a <;> cases maxEnd? b <;> cases maxEnd? c <;>
        simp only [Decorations.raise, Option.map] <;> omega
    rw [same] at whole
    exact whole

theorem Fitting.lawful (fitting : Fitting fits) : rotator.Lawful (Keeps fits) where
  isRed_paint red n := by cases red <;> rfl
  leftRotate a x b y c request := by
    obtain ⟨x', y', request', rotated, xColor, yColor, keeps⟩ :=
      fitting.leftRotate a b c x y request
    exact ⟨x', y', request', rotated, by simp [rotator, xColor], by simp [rotator, yColor], keeps⟩
  rightRotate a x b y c request := by
    obtain ⟨x', y', request', rotated, xColor, yColor, keeps⟩ :=
      fitting.rightRotate a b c x y request
    exact ⟨x', y', request', rotated, by simp [rotator, xColor], by simp [rotator, yColor], keeps⟩
  refl t := ⟨fun _ => rfl, fun sound => ⟨sound, fitting.top_refl _⟩⟩
  trans first second := by
    refine ⟨fun base => (second.decorations base).trans (first.decorations base), ?_⟩
    intro sound
    obtain ⟨sound, tops⟩ := first.sound sound
    obtain ⟨sound, tops'⟩ := second.sound sound
    exact ⟨sound, fitting.top_trans tops tops'⟩
  node n left right := by
    refine ⟨?_, ?_⟩
    · intro base
      simp [left.decorations, right.decorations]
    · rintro ⟨leftSound, rightSound, unvisited, fit⟩
      obtain ⟨leftSound, leftTop⟩ := left.sound leftSound
      obtain ⟨rightSound, rightTop⟩ := right.sound rightSound
      exact ⟨⟨leftSound, rightSound, unvisited,
        fitting.trans fit (fitting.computeMaxEnd n leftTop rightTop)⟩, fitting.refl _⟩
  paint red l n r := ⟨fun _ => rfl, fun sound => ⟨sound, fitting.refl _⟩⟩

/-! ## Walks to the root -/

/-- Two crumbs that differ in `maxEnd` only. -/
inductive SameButMaxEnd : Crumb IntervalNode → Crumb IntervalNode → Prop
  | left (n : IntervalNode) (r : Tree) (maxEnd : Int) :
      SameButMaxEnd (.left n r) (.left { n with maxEnd } r)
  | right (l : Tree) (n : IntervalNode) (maxEnd : Int) :
      SameButMaxEnd (.right l n) (.right l { n with maxEnd })

theorem SameButMaxEnd.refl : ∀ crumb, SameButMaxEnd crumb crumb
  | .left n r => .left n r n.maxEnd
  | .right l n => .right l n n.maxEnd

theorem SameButMaxEnd.trans (first : SameButMaxEnd c d)
    (second : SameButMaxEnd d e) : SameButMaxEnd c e := by
  cases first with
  | left n r first =>
    cases second with
    | left _ _ maxEnd => exact .left n r maxEnd
  | right l n first =>
    cases second with
    | right _ _ maxEnd => exact .right l n maxEnd

/-- Two paths that differ in the `maxEnd` of their nodes only. -/
abbrev SamePath (path path' : Path) : Prop := List.Forall₂ SameButMaxEnd path path'

theorem SamePath.refl (path : Path) : SamePath path path :=
  List.forall₂_same.mpr fun crumb _ => SameButMaxEnd.refl crumb

theorem SamePath.trans (first : SamePath path path')
    (second : SamePath path' path'') : SamePath path path'' := by
  induction first generalizing path'' with
  | nil => exact second
  | cons crumb rest ih =>
    cases second with
    | cons crumb' rest' => exact .cons (crumb.trans crumb') (ih rest')

theorem SamePath.places (same : SamePath path path') (base : Int) :
    focusBase base path' = focusBase base path ∧ earlier base path' = earlier base path ∧
      later base path' = later base path := by
  induction same with
  | nil => exact ⟨rfl, rfl, rfl⟩
  | cons crumb rest ih =>
    obtain ⟨baseEq, earlierEq, laterEq⟩ := ih
    cases crumb <;> simp [focusBase, earlier, later, baseEq, earlierEq, laterEq,
        IntervalNode.decoration]

theorem SamePath.decorations_plug (same : SamePath path path') (base : Int) (x : Tree) :
    decorations base (x.plug path') = decorations base (x.plug path) := by
  obtain ⟨baseEq, earlierEq, laterEq⟩ := same.places base
  rw [Decorations.decorations_plug, Decorations.decorations_plug, baseEq, earlierEq, laterEq]

theorem SamePath.pathBalanced (same : SamePath path path')
    (ok : PathBalanced rotator.isRed path height) :
    PathBalanced rotator.isRed path' height := by
  refine pathBalanced_congr (same.imp ?_) ok
  intro crumb crumb' both
  cases both <;> exact ⟨rfl, rfl⟩

theorem walkFromParent_same (x : Tree) (path : Path) : SamePath path (walkFromParent x path) := by
  induction path generalizing x with
  | nil => exact .nil
  | cons crumb up ih =>
    cases crumb with
    | left n r =>
      rw [walkFromParent]
      split
      · exact SamePath.refl _
      · exact .cons (.left n r _) (ih _)
    | right l n =>
      rw [walkFromParent]
      split
      · exact SamePath.refl _
      · exact .cons (.right l n _) (ih _)

theorem walkFromAncestor_same (index : Nat) (x : Tree) (path : Path) :
    SamePath path (walkFromAncestor index x path) := by
  induction index generalizing x path with
  | zero =>
    exact walkFromParent_same x path
  | succ index ih =>
    cases path with
    | nil => exact .nil
    | cons crumb up => exact .cons (SameButMaxEnd.refl crumb) (ih _ up)

/-- A walk mends the node it starts from. -/
theorem Fitting.walkFromParent (fitting : Fitting fits) {x : Tree}
    (sound : PathSound fits bad (maxEnd? x) path) :
    PathSound fits (fun i => bad i ∧ i ≠ 0) (maxEnd? x) (walkFromParent x path) := by
  induction path generalizing bad x with
  | nil => trivial
  | cons crumb up ih =>
    -- above a changed value, only the next node may have become bad
    have above : ∀ (y : Tree) {top : Option Int}, PathSound fits (fun i => bad (i + 1)) top up →
        PathSound fits (fun i => bad (i + 1) ∧ i + 1 ≠ 0) (maxEnd? y)
          (Decorations.walkFromParent y up) := by
      intro y top rest
      have loose : PathSound fits (fun i => bad (i + 1) ∨ i = 0) top up :=
        rest.imp fun i isBad => .inl isBad
      apply (ih (loose.of_top (.inr rfl))).imp
      rintro i ⟨isBad | rfl, notFirst⟩
      · exact ⟨isBad, Nat.succ_ne_zero i⟩
      · exact absurd rfl notFirst
    cases crumb with
    | left n r =>
      obtain ⟨sibling, unvisited, -, rest⟩ := sound
      rw [Decorations.walkFromParent]
      split
      · rename_i same
        rw [computeMaxEnd_eq] at same
        refine ⟨sibling, unvisited, .inr ?_, rest.imp fun i isBad => ⟨isBad, by omega⟩⟩
        rw [← same]
        exact fitting.refl _
      · refine ⟨sibling, unvisited, .inr ?_, above (.node x _ r) rest⟩
        simp only [recomputeMaxEnd, computeMaxEnd_eq]
        exact fitting.refl _
    | right l n =>
      obtain ⟨sibling, unvisited, -, rest⟩ := sound
      rw [Decorations.walkFromParent]
      split
      · rename_i same
        rw [computeMaxEnd_eq] at same
        refine ⟨sibling, unvisited, .inr ?_, rest.imp fun i isBad => ⟨isBad, by omega⟩⟩
        rw [← same]
        exact fitting.refl _
      · refine ⟨sibling, unvisited, .inr ?_, above (.node l _ x) rest⟩
        simp only [recomputeMaxEnd, computeMaxEnd_eq]
        exact fitting.refl _

theorem Fitting.walkFromAncestor (fitting : Fitting fits) {bad : Nat → Prop} {index : Nat}
    {x : Tree} {path : Path} (sound : PathSound fits bad (maxEnd? x) path) :
    PathSound fits (fun i => bad i ∧ i ≠ index) (maxEnd? x) (walkFromAncestor index x path) := by
  induction index generalizing bad x path with
  | zero =>
    exact fitting.walkFromParent sound
  | succ index ih =>
    cases path with
    | nil => trivial
    | cons crumb up =>
      cases crumb with
      | left n r =>
        obtain ⟨sibling, unvisited, fit, rest⟩ := sound
        refine ⟨sibling, unvisited, fit.imp_left fun isBad => ⟨isBad, by omega⟩, ?_⟩
        apply (@ih _ (.node x n r) up rest).imp
        rintro i ⟨isBad, notIndex⟩
        exact ⟨isBad, by omega⟩
      | right l n =>
        obtain ⟨sibling, unvisited, fit, rest⟩ := sound
        refine ⟨sibling, unvisited, fit.imp_left fun isBad => ⟨isBad, by omega⟩, ?_⟩
        apply (@ih _ (.node l n x) up rest).imp
        rintro i ⟨isBad, notIndex⟩
        exact ⟨isBad, by omega⟩

end CodeEditor.Decorations
