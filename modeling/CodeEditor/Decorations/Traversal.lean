import CodeEditor.Decorations.Placement

/-!
# Traversals by visited bits

The loops of the traversals are recursions over the tree: a subtree without visited
nodes is dealt with and left with its root visited, in at most three turns a node.
-/

namespace CodeEditor.Decorations

open CodeEditor.BinaryTree RedBlack Bool

/-- No node is visited. -/
def Unvisited : Tree → Prop
  | .leaf => True
  | .node l n r => Unvisited l ∧ Unvisited r ∧ n.isVisited = false

theorem Sound.unvisited (sound : Sound fits t) :
    Unvisited t := by
  induction t with
  | leaf => trivial
  | node l n r leftHypothesis rightHypothesis =>
    exact ⟨leftHypothesis sound.1, rightHypothesis sound.2.1, sound.2.2.1⟩

theorem Unvisited.root (unvisited : Unvisited t) : rootVisited t = false := by
  cases t with
  | leaf => rfl
  | node l n r => exact unvisited.2.2

theorem setVisited_of_not (root : rootVisited t = false) : setVisited false t = t := by
  cases t with
  | leaf => rfl
  | node l n r =>
    have bit : n.isVisited = false := root
    simp [setVisited, ← bit]

theorem setVisited_setVisited (root : rootVisited t = false) :
    setVisited false (setVisited true t) = t := by
  cases t with
  | leaf => rfl
  | node l n r =>
    have bit : n.isVisited = false := root
    simp [setVisited, ← bit]

@[simp] theorem unvisited?_setVisited (t : Tree) : unvisited? (setVisited true t) = none := by
  cases t <;> rfl

namespace Sweep

variable {σ : Type} (sweep : Sweep σ)

/-- The traversal of a subtree as a recursion. -/
def swept : (delta : Int) → Tree → σ → Tree × σ
  | _, .leaf, s => (.leaf, s)
  | delta, .node l n r, s =>
    if sweep.skip delta n then (.node l (sweep.leave l n r) r, s)
    else
      let (l, s) := swept delta l s
      let (n, s, goRight) := sweep.visit delta n s
      let n := { n with isVisited := false }
      let (r, s) := if goRight then swept (delta + n.delta) r s else (r, s)
      (.node l (sweep.leave l n r) r, s)

/-- The loop when a subtree has been left. -/
def resume (fuel : Nat) (t : Tree) (path : Path) (delta : Int) (s : σ) :
    Option (Tree × σ) :=
  match path with
  | [] => some (t, s)
  | .left p r :: up => sweep.loop fuel t p r up delta s
  | .right l p :: up => sweep.loop fuel l p t up (delta - p.delta) s

/-- The loop when the left subtree of a node has been left. -/
def handle (fuel : Nat) (l : Tree) (n : IntervalNode) (r : Tree) (path : Path) (delta : Int)
    (s : σ) : Option (Tree × σ) :=
  let (n, s, goRight) := sweep.visit delta n s
  let n := { n with isVisited := true }
  match if goRight then unvisited? r else none with
  | some (rl, rn, rr) => sweep.loop fuel rl rn rr (.right l n :: path) (delta + n.delta) s
  | none => sweep.loop fuel l n r path delta s

variable {sweep} {l r : Tree} {n : IntervalNode}

theorem leave_isVisited (l r : Tree) (n : IntervalNode) :
    (sweep.leave l n r).isVisited = n.isVisited := by
  unfold leave
  split <;> rfl

theorem loop_visited (visited : n.isVisited = true) (fuel : Nat) (path : Path) (delta : Int)
    (s : σ) : sweep.loop (fuel + 1) l n r path delta s =
      sweep.resume fuel (.node (setVisited false l)
        (sweep.leave (setVisited false l) n (setVisited false r)) (setVisited false r))
        path delta s := by
  rw [loop, if_pos visited]
  rfl

theorem loop_skip (unvisited : n.isVisited = false) (left : rootVisited l = false)
    (skip : sweep.skip delta n = true) (fuel : Nat) (path : Path) (s : σ) :
    sweep.loop (fuel + 1) l n r path delta s =
      sweep.loop fuel l { n with isVisited := true } r path delta s := by
  simp [loop, unvisited, left, skip]

theorem loop_handle (unvisited : n.isVisited = false) (left : unvisited? l = none)
    (noSkip : rootVisited l = true ∨ sweep.skip delta n = false) (fuel : Nat)
    (path : Path) (s : σ) :
    sweep.loop (fuel + 1) l n r path delta s = sweep.handle fuel l n r path delta s := by
  have test : (!rootVisited l && sweep.skip delta n) = false := by
    cases noSkip with
    | inl visited => simp [visited]
    | inr skip => simp [skip]
  simp only [loop, unvisited, test, left, false_eq_true, if_false]
  rfl

theorem loop_left (unvisited : n.isVisited = false) {ll lr : Tree} {ln : IntervalNode}
    (left : ln.isVisited = false) {delta : Int} (noSkip : sweep.skip delta n = false)
    (fuel : Nat) (path : Path) (s : σ) :
    sweep.loop (fuel + 1) (.node ll ln lr) n r path delta s =
      sweep.loop fuel ll ln lr (.left n r :: path) delta s := by
  simp [loop, unvisited, noSkip, unvisited?, left]

theorem rootVisited_swept (unvisited : Unvisited t) (delta : Int) (s : σ) :
    rootVisited (sweep.swept delta t s).1 = false := by
  cases t with
  | leaf => rfl
  | node l n r =>
    rw [swept]
    split
    · exact (leave_isVisited l r n).trans unvisited.2.2
    · exact leave_isVisited _ _ _

theorem setVisited_leave (l r : Tree) (n : IntervalNode) :
    BinaryTree.node l (sweep.leave l { n with isVisited := true } r) r =
      setVisited true (.node l (sweep.leave l { n with isVisited := false } r) r) := by
  simp only [setVisited, leave]
  split <;> rfl

/-- The subtree to the right of a node that has been dealt with. -/
def sweptRight (sweep : Sweep σ) (delta : Int) (n : IntervalNode) (r : Tree) (s : σ)
    (goRight : Bool) : Tree × σ :=
  if goRight then sweep.swept (delta + n.delta) r s else (r, s)

theorem swept_node (noSkip : sweep.skip delta n = false) {s s' : σ}
    {n' : IntervalNode} {goRight : Bool}
    (visited : sweep.visit delta n (sweep.swept delta l s).2 = (n', s', goRight)) :
    sweep.swept delta (.node l n r) s = (.node (sweep.swept delta l s).1
        (sweep.leave (sweep.swept delta l s).1 { n' with isVisited := false }
          (sweep.sweptRight delta n' r s' goRight).1)
        (sweep.sweptRight delta n' r s' goRight).1,
      (sweep.sweptRight delta n' r s' goRight).2) := by
  simp only [swept, noSkip, false_eq_true, if_false, visited, sweptRight]

/-- What the loop does with a subtree. -/
def Runs (sweep : Sweep σ) (t : Tree) : Prop :=
  ∀ l n r, t = .node l n r → ∀ path delta s, ∃ turns, turns ≤ 3 * size t ∧ ∀ fuel,
    sweep.loop (turns + fuel) l n r path delta s =
      sweep.resume fuel (setVisited true (sweep.swept delta t s).1) path delta
        (sweep.swept delta t s).2

/-- The way through the left subtree. -/
theorem runs_left (left : sweep.Runs l) (leftUnvisited : Unvisited l)
    (unvisited : n.isVisited = false) {delta : Int} (noSkip : sweep.skip delta n = false)
    (path : Path) (s : σ) :
    ∃ turns, turns ≤ 3 * size l + 2 ∧ ∀ fuel, sweep.loop (turns + fuel) l n r path delta s =
        sweep.handle fuel (setVisited true (sweep.swept delta l s).1) n r path delta
          (sweep.swept delta l s).2 := by
  cases l with
  | leaf =>
    refine ⟨1, by simp [size], ?_⟩
    intro fuel
    rw [Nat.add_comm, loop_handle unvisited rfl (.inr noSkip)]
    rfl
  | node ll ln lr =>
    obtain ⟨turns, bound, run⟩ := left ll ln lr rfl (.left n r :: path) delta s
    refine ⟨turns + 2, by omega, ?_⟩
    intro fuel
    have more : turns + 2 + fuel = (turns + (fuel + 1)) + 1 := by omega
    rw [more, loop_left unvisited leftUnvisited.2.2 noSkip, run, resume]
    apply loop_handle unvisited (unvisited?_setVisited _)
    left
    rw [swept]
    split <;> rfl

/-- The rest of the way, through the node and its right subtree. -/
theorem runs_handle (right : sweep.Runs r) (rightUnvisited : Unvisited r)
    (leftRoot : rootVisited l = false) (path : Path) {s s' : σ}
    {n' : IntervalNode} {goRight : Bool}
    (visited : sweep.visit delta n s = (n', s', goRight)) :
    ∃ turns, turns ≤ 3 * size r + 1 ∧ ∀ fuel,
      sweep.handle (turns + fuel) (setVisited true l) n r path delta s =
        sweep.resume fuel (setVisited true (.node l (sweep.leave l { n' with isVisited := false }
            (sweep.sweptRight delta n' r s' goRight).1)
          (sweep.sweptRight delta n' r s' goRight).1)) path delta
          (sweep.sweptRight delta n' r s' goRight).2 := by
  have stay : (if goRight then unvisited? r else none) = none →
      ∀ fuel, sweep.handle (1 + fuel) (setVisited true l) n r path delta s =
        sweep.resume fuel (setVisited true
          (.node l (sweep.leave l { n' with isVisited := false } r) r)) path delta s' := by
    intro nothing fuel
    have up := @loop_visited _ sweep (setVisited true l) r { n' with isVisited := true } rfl
      fuel path delta s'
    rw [setVisited_setVisited leftRoot, setVisited_of_not rightUnvisited.root,
      setVisited_leave] at up
    rw [Nat.add_comm, handle]
    simp only [visited, nothing]
    exact up
  cases goRight with
  | false =>
    refine ⟨1, by omega, stay rfl⟩
  | true =>
    cases r with
    | leaf => exact ⟨1, by omega, stay rfl⟩
    | node rl rn rr =>
      have bit : rn.isVisited = false := rightUnvisited.2.2
      let marked : IntervalNode := { n' with isVisited := true }
      obtain ⟨turns, bound, run⟩ := right rl rn rr rfl
        (.right (setVisited true l) marked :: path) (delta + n'.delta) s'
      refine ⟨turns + 1, by omega, ?_⟩
      intro fuel
      have more : turns + 1 + fuel = turns + (fuel + 1) := by omega
      have back : delta + n'.delta - marked.delta = delta := by
        simp only [marked]
        omega
      simp only [handle, visited, if_true, unvisited?, bit, false_eq_true, if_false]
      rw [more, run, resume, back, loop_visited rfl, setVisited_setVisited leftRoot,
        setVisited_setVisited (rootVisited_swept rightUnvisited _ _), setVisited_leave]
      rfl

theorem runs {t : Tree} (unvisited : Unvisited t) : sweep.Runs t := by
  induction t with
  | leaf =>
    intro l n r impossible
    cases impossible
  | node l n r leftHypothesis rightHypothesis =>
    obtain ⟨leftUnvisited, rightUnvisited, bit⟩ := unvisited
    rintro _ _ _ ⟨⟩ path delta s
    cases skip : sweep.skip delta n with
    | true =>
      refine ⟨2, by simp only [size]; omega, ?_⟩
      intro fuel
      have more : 2 + fuel = fuel + 1 + 1 := by omega
      rw [more, loop_skip bit leftUnvisited.root skip, loop_visited rfl,
        setVisited_of_not leftUnvisited.root, setVisited_of_not rightUnvisited.root,
        setVisited_leave, swept, if_pos skip]
      simp [← bit]
    | false =>
      obtain ⟨leftTurns, leftBound, leftRun⟩ :=
        @runs_left _ sweep l r n (leftHypothesis leftUnvisited) leftUnvisited bit delta skip path s
      obtain ⟨n', s', goRight, visited⟩ : ∃ n' s' goRight,
          sweep.visit delta n (sweep.swept delta l s).2 = (n', s', goRight) :=
        ⟨_, _, _, rfl⟩
      obtain ⟨rightTurns, rightBound, rightRun⟩ :=
        runs_handle (rightHypothesis rightUnvisited) rightUnvisited
          (rootVisited_swept leftUnvisited delta s) path visited
      refine ⟨leftTurns + rightTurns, by simp only [size]; omega, ?_⟩
      intro fuel
      rw [Nat.add_assoc, leftRun, rightRun, swept_node skip visited]

theorem sameColours_swept (colour : ∀ delta n s, (sweep.visit delta n s).1.color = n.color)
    (t : Tree) (delta : Int) (s : σ) :
    SameColours rotator.isRed t (sweep.swept delta t s).1 := by
  have kept : ∀ l n r, (sweep.leave l n r).color = n.color := by
    intro l n r
    unfold leave
    split <;> rfl
  induction t generalizing delta s with
  | leaf => exact .leaf
  | node l n r leftHypothesis rightHypothesis =>
    cases skip : sweep.skip delta n with
    | true =>
      rw [swept, if_pos skip]
      exact .node (.refl l) (by simp [rotator, kept]) (.refl r)
    | false =>
      obtain ⟨n', s', goRight, visited⟩ : ∃ n' s' goRight,
          sweep.visit delta n (sweep.swept delta l s).2 = (n', s', goRight) :=
        ⟨_, _, _, rfl⟩
      have same : n'.color = n.color := by
        rw [← colour delta n (sweep.swept delta l s).2, visited]
      rw [swept_node skip visited]
      refine .node (leftHypothesis delta s) (by simp [rotator, kept, same]) ?_
      cases goRight with
      | true => exact rightHypothesis _ _
      | false => exact .refl r

/-- A traversal of the whole tree is the recursion over it. -/
theorem run_eq (unvisited : Unvisited t) (s : σ) : sweep.run t s = some (sweep.swept 0 t s) := by
  cases t with
  | leaf => rfl
  | node l n r =>
    obtain ⟨turns, bound, run⟩ := @runs _ sweep _ unvisited l n r rfl [] 0 s
    have enough : 3 * size (.node l n r) = turns + (3 * size (.node l n r) - turns) := by
      omega
    rw [Sweep.run, enough, run, resume]
    simp [setVisited_setVisited (rootVisited_swept unvisited 0 s)]

end Sweep

/-! ## Delta normalization -/

/-- Absolute offsets everywhere. -/
def normalized : (base : Int) → Tree → Tree
  | _, .leaf => .leaf
  | base, .node l n r =>
    let l := normalized base l
    let r := normalized (base + n.delta) r
    let n := { n with start := base + n.start, stop := base + n.stop, delta := 0 }
    .node l (recomputeMaxEnd l n r) r

/-- The loop when a subtree has been left. -/
def normalizeResume (fuel : Nat) (t : Tree) (path : Path) (delta : Int) : Option Tree :=
  match path with
  | [] => some t
  | .left p r :: up => normalizeDeltaLoop fuel t p r up delta
  | .right l p :: up => normalizeDeltaLoop fuel l p t up (delta - p.delta)

@[simp] theorem maxEnd?_setVisited (value : Bool) (t : Tree) :
    maxEnd? (setVisited value t) = maxEnd? t := by
  cases t <;> rfl

theorem recomputeMaxEnd_setVisited (l r : Tree) (n : IntervalNode) :
    recomputeMaxEnd (setVisited true l) n (setVisited true r) = recomputeMaxEnd l n r := by
  simp [recomputeMaxEnd, computeMaxEnd_eq]

theorem rootVisited_normalized (unvisited : Unvisited t) (base : Int) :
    rootVisited (normalized base t) = false := by
  cases t with
  | leaf => rfl
  | node l n r => exact unvisited.2.2

/-- What the loop of the normalization does with a subtree. -/
def Normalizes (t : Tree) : Prop :=
  ∀ l n r, t = .node l n r → ∀ path delta, ∃ turns, turns ≤ 3 * size t ∧ ∀ fuel,
    normalizeDeltaLoop (turns + fuel) l n r path delta =
      normalizeResume fuel (setVisited true (normalized delta t)) path delta

variable {l r : Tree} {n : IntervalNode}

theorem normalizes_left (left : Normalizes l) (leftUnvisited : Unvisited l) (path : Path)
    (delta : Int) : ∃ turns, turns ≤ 3 * size l + 1 ∧ ∀ fuel,
      normalizeDeltaLoop (turns + fuel) l n r path delta =
        normalizeDeltaLoop fuel (setVisited true (normalized delta l)) n r path delta := by
  cases l with
  | leaf =>
    refine ⟨0, by omega, ?_⟩
    intro fuel
    rw [Nat.zero_add]
    rfl
  | node ll ln lr =>
    have bit : ln.isVisited = false := leftUnvisited.2.2
    obtain ⟨turns, bound, run⟩ := left ll ln lr rfl (.left n r :: path) delta
    refine ⟨turns + 1, by omega, ?_⟩
    intro fuel
    have more : turns + 1 + fuel = turns + fuel + 1 := by omega
    rw [more, normalizeDeltaLoop]
    simp only [unvisited?, bit, false_eq_true, if_false]
    exact run fuel

theorem normalizes_right (right : Normalizes r) (rightUnvisited : Unvisited r)
    (left : unvisited? l = none) (path : Path) (delta : Int) :
    ∃ turns, turns ≤ 3 * size r + 1 ∧ ∀ fuel, normalizeDeltaLoop (turns + fuel) l n r path delta =
        normalizeDeltaLoop fuel l n
          (setVisited true (normalized (delta + n.delta) r)) path delta := by
  cases r with
  | leaf =>
    refine ⟨0, by omega, ?_⟩
    intro fuel
    rw [Nat.zero_add]
    rfl
  | node rl rn rr =>
    have bit : rn.isVisited = false := rightUnvisited.2.2
    obtain ⟨turns, bound, run⟩ :=
      right rl rn rr rfl (.right l n :: path) (delta + n.delta)
    refine ⟨turns + 1, by omega, ?_⟩
    intro fuel
    have more : turns + 1 + fuel = turns + fuel + 1 := by omega
    have back : delta + n.delta - n.delta = delta := by omega
    have here : unvisited? (.node rl rn rr) = some (rl, rn, rr) := by
      simp [unvisited?, bit]
    rw [more, normalizeDeltaLoop]
    simp only [left, here]
    rw [run, normalizeResume, back]

theorem normalizes (unvisited : Unvisited t) : Normalizes t := by
  induction t with
  | leaf =>
    intro l n r impossible
    cases impossible
  | node l n r leftHypothesis rightHypothesis =>
    obtain ⟨leftUnvisited, rightUnvisited, bit⟩ := unvisited
    rintro _ _ _ ⟨⟩ path delta
    obtain ⟨leftTurns, leftBound, leftRun⟩ := @normalizes_left l r n
      (leftHypothesis leftUnvisited) leftUnvisited path delta
    obtain ⟨rightTurns, rightBound, rightRun⟩ :=
      @normalizes_right (setVisited true (normalized delta l)) r n
        (rightHypothesis rightUnvisited) rightUnvisited (unvisited?_setVisited _) path delta
    refine ⟨leftTurns + (rightTurns + 1), by simp only [size]; omega, ?_⟩
    intro fuel
    have more : leftTurns + (rightTurns + 1) + fuel =
        leftTurns + (rightTurns + (fuel + 1)) := by omega
    rw [more, leftRun, rightRun, normalizeDeltaLoop]
    simp only [unvisited?_setVisited, recomputeMaxEnd_setVisited,
      setVisited_setVisited (rootVisited_normalized leftUnvisited _),
      setVisited_setVisited (rootVisited_normalized rightUnvisited _)]
    rfl

theorem normalizeDelta_eq {T : IntervalTree} (unvisited : Unvisited T.root) :
    normalizeDelta T = some { T with root := normalized 0 T.root } := by
  obtain ⟨root, request⟩ := T
  cases root with
  | leaf => rfl
  | node l n r =>
    obtain ⟨turns, bound, run⟩ := normalizes unvisited l n r rfl [] 0
    change turns ≤ 3 * size (.node l n r) at bound
    have enough : 3 * size (.node l n r) = turns + (3 * size (.node l n r) - turns) := by
      omega
    rw [normalizeDelta]
    simp only
    rw [enough, run, normalizeResume]
    simp [setVisited_setVisited (rootVisited_normalized unvisited 0)]

theorem decorations_normalized (base : Int) (t : Tree) :
    decorations 0 (normalized base t) = decorations base t := by
  induction t generalizing base with
  | leaf => rfl
  | node l n r leftHypothesis rightHypothesis =>
    simp [normalized, leftHypothesis, rightHypothesis, recomputeMaxEnd, IntervalNode.decoration]

theorem sameColours_normalized (base : Int) (t : Tree) :
    SameColours rotator.isRed t (normalized base t) := by
  induction t generalizing base with
  | leaf => exact .leaf
  | node l n r leftHypothesis rightHypothesis =>
    exact .node (leftHypothesis _) rfl (rightHypothesis _)

theorem Fitting.sound_normalized (fitting : Fitting fits)
    (unvisited : Unvisited t) (base : Int) : Sound fits (normalized base t) := by
  induction t generalizing base with
  | leaf => trivial
  | node l n r leftHypothesis rightHypothesis =>
    exact ⟨leftHypothesis unvisited.1 _, rightHypothesis unvisited.2.1 _, unvisited.2.2,
      fitting.refl _⟩

end CodeEditor.Decorations
