import CodeEditor.Decorations.Deletion
import CodeEditor.Decorations.Traversal

/-!
# Editing the text below the decorations

What the traversals of `acceptReplace` do to the list of decorations. The search
stops early at nodes whose `maxEnd` is too small and at nodes that start too late; both
are safe since stored ends are never too small and decorations are sorted.
-/

namespace CodeEditor.Decorations

open CodeEditor.BinaryTree RedBlack List

variable {fits : Int → Int → Prop}

/-! ## Searching -/

/-- The closed interval of a decoration meets `[start, stop]`. -/
def Interval.meets (start stop : Int) (d : Interval) : Bool :=
  d.start ≤ stop && start ≤ d.stop

/-- The offsets of a node of interest are cached. -/
def Decoration.cache (start stop : Int) (d : Decoration) : Decoration :=
  if d.meets start stop then
    { d with cachedAbsoluteStart := d.start, cachedAbsoluteEnd := d.stop }
  else d

theorem Decoration.toInterval_cache (start stop : Int) (d : Decoration) :
    (d.cache start stop).toInterval = d.toInterval := by
  unfold Decoration.cache
  split <;> rfl

/-- Stored ends are never too small. -/
theorem Sound.stop_le (upper : ∀ a b, fits a b → b ≤ a) {maxEnd base : Int}
    (sound : Sound fits t) (top : maxEnd? t = some maxEnd) :
    ∀ d ∈ decorations base t, d.stop ≤ base + maxEnd := by
  induction t generalizing maxEnd base with
  | leaf => simp
  | node l n r leftHypothesis rightHypothesis =>
    obtain ⟨leftSound, rightSound, -, fit⟩ := sound
    have bound := upper _ _ fit
    have isTop : n.maxEnd = maxEnd := Option.some.inj top
    intro d member
    simp only [decorations_node, mem_append, mem_cons] at member
    obtain member | rfl | member := member
    · cases leftTop : maxEnd? l with
      | none =>
        cases l with
        | leaf => simp at member
        | node => simp at leftTop
      | some leftEnd =>
        have small := leftHypothesis leftSound leftTop d member
        have below := left_le_computeMaxEnd r n leftTop
        omega
    · have below := stop_le_computeMaxEnd l r n
      simp only [IntervalNode.decoration]
      omega
    · cases rightTop : maxEnd? r with
      | none =>
        cases r with
        | leaf => simp at member
        | node => simp at rightTop
      | some rightEnd =>
        have small := rightHypothesis rightSound rightTop d member
        have below := right_le_computeMaxEnd l n rightTop
        omega

/-- Nothing in a subtree that is skipped reaches the edit. -/
theorem Sound.not_meets (upper : ∀ a b, fits a b → b ≤ a) {l r : Tree} {n : IntervalNode}
    {base start : Int} (sound : Sound fits (.node l n r)) (skip : base + n.maxEnd < start) :
    ∀ d ∈ decorations base (.node l n r), d.stop < start := by
  intro d member
  have small := sound.stop_le upper rfl d member
  omega

theorem map_eq_self {f : Decoration → Decoration} {list : List Decoration}
    (fixed : ∀ d ∈ list, f d = d) : list.map f = list := by
  rw [map_congr_left fixed, map_id']

variable {d : Decoration} {start stop : Int}

theorem Decoration.cache_of_not (not : d.meets start stop = false) : d.cache start stop = d := by
  simp [Decoration.cache, not]

/-- A search for what meets `[start, stop]`, of which only the chosen nodes are listed. -/
def meetingSweep (chosen : Nat → Bool) (start stop : Int) : Sweep (List IntervalNode) where
  skip delta n := delta + n.maxEnd < start
  visit delta n result :=
    if delta + n.start > stop then (n, result, false)
    else if delta + n.stop ≥ start then
      let n := n.setCachedOffsets (delta + n.start) (delta + n.stop)
      (n, if chosen n.ref then result ++ [n] else result, true)
    else (n, result, true)
  recompute := false

/-- Which node was found, and the offsets that are cached in it. -/
def IntervalNode.found (n : IntervalNode) : Nat × Int × Int :=
  (n.ref, n.cachedAbsoluteStart, n.cachedAbsoluteEnd)

/-- Which node a decoration is of, and where it is. -/
def Interval.place (d : Interval) : Nat × Int × Int := (d.ref, d.start, d.stop)

/-- What a search does with a subtree. -/
structure Searched (fits : Int → Int → Prop) (chosen : Nat → Bool) (start stop delta : Int)
    (t : Tree) (result : List IntervalNode) (out : Tree × List IntervalNode) : Prop where
  decorations : decorations delta out.1 = (decorations delta t).map (·.cache start stop)
  found : out.2.map (·.found) = result.map (·.found) ++
    ((Decorations.decorations delta t).filter fun d =>
      d.meets start stop && chosen d.ref).map (·.place)
  sound : Sound fits out.1
  top : maxEnd? out.1 = maxEnd? t

theorem searched_of_none {start stop delta : Int} (sound : Sound fits t)
    (none : ∀ d ∈ decorations delta t, d.meets start stop = false) :
    Searched fits chosen start stop delta t result (t, result) where
  decorations := (map_eq_self fun d member => Decoration.cache_of_not (none d member)).symm
  found := by
    have nothing : ((decorations delta t).filter fun d =>
        d.meets start stop && chosen d.ref) = [] := by
      rw [filter_eq_nil_iff]
      intro d member
      rw [none d member]
      simp
    simp [nothing]
  sound := sound
  top := rfl

/-- A node between two subtrees that were searched. -/
theorem Searched.node {start stop delta : Int} {l r l' r' : Tree}
    {n n' : IntervalNode} {result result₁ result₂ result₃ : List IntervalNode}
    (left : Searched fits chosen start stop delta l result (l', result₁))
    (fit : fits n.maxEnd (computeMaxEnd l n r))
    (same : n' = { n with
      cachedAbsoluteStart := n'.cachedAbsoluteStart
      cachedAbsoluteEnd := n'.cachedAbsoluteEnd
      isVisited := false })
    (cached : n'.decoration delta = (n.decoration delta).cache start stop)
    (found : result₂.map (·.found) = result₁.map (·.found) ++ ([n.decoration delta].filter fun d =>
        d.meets start stop && chosen d.ref).map (·.place))
    (right : Searched fits chosen start stop (delta + n.delta) r result₂ (r', result₃)) :
    Searched fits chosen start stop delta (.node l n r) result (.node l' n' r', result₃) where
  decorations := by
    have deltaEq : n'.delta = n.delta := by rw [same]
    rw [decorations_node, decorations_node, deltaEq, cached, left.decorations, right.decorations]
    simp
  found := by
    have split : n.decoration delta :: Decorations.decorations (delta + n.delta) r =
        [n.decoration delta] ++ Decorations.decorations (delta + n.delta) r := rfl
    rw [right.found, found, left.found, decorations_node, split]
    simp only [filter_append, map_append, append_assoc]
  sound := by
    have leftTop := left.top
    have rightTop := right.top
    refine ⟨left.sound, right.sound, by rw [same], ?_⟩
    rw [computeMaxEnd_eq, leftTop, rightTop, ← computeMaxEnd_eq, same]
    exact fit
  top := by
    rw [maxEnd?_node, maxEnd?_node, same]

theorem meets_eq_false (apart : stop < d.start ∨ d.stop < start) : d.meets start stop = false := by
  simp only [Interval.meets, Bool.and_eq_false_iff, decide_eq_false_iff_not]
  omega

/-- The search deals with all nodes that meet `[start, stop]`, and with no others. -/
theorem searched (upper : ∀ a b, fits a b → b ≤ a) (chosen : Nat → Bool) (start stop : Int)
    (sound : Sound fits t)
    (sorted : (decorations delta t).Pairwise Decoration.Le) (result : List IntervalNode) :
    Searched fits chosen start stop delta t result
      ((meetingSweep chosen start stop).swept delta t result) := by
  induction t generalizing delta result with
  | leaf => exact searched_of_none sound (by simp)
  | node l n r leftHypothesis rightHypothesis =>
    cases skip : (meetingSweep chosen start stop).skip delta n with
    | true =>
      have small : delta + n.maxEnd < start := of_decide_eq_true skip
      rw [Sweep.swept, if_pos skip]
      apply searched_of_none sound
      intro d member
      exact meets_eq_false (.inr (sound.not_meets upper small d member))
    | false =>
      obtain ⟨leftSound, rightSound, unvisited, fit⟩ := sound
      obtain ⟨leftSorted, rest, -⟩ := pairwise_append.mp sorted
      obtain ⟨behind, rightSorted⟩ := pairwise_cons.mp rest
      have left := leftHypothesis leftSound leftSorted result
      have self : n = { n with isVisited := false } := by rw [← unvisited]
      let found := ((meetingSweep chosen start stop).swept delta l result).2
      by_cases late : delta + n.start > stop
      · -- this node and all behind it start too late
        have visited : (meetingSweep chosen start stop).visit delta n found =
            (n, found, false) := by
          simp [meetingSweep, late]
        have notMet : (n.decoration delta).meets start stop = false :=
          meets_eq_false (.inl late)
        rw [Sweep.swept_node skip visited, ← self]
        refine left.node fit self (Decoration.cache_of_not notMet).symm ?_
          (searched_of_none rightSound ?_)
        · simp [notMet, Sweep.sweptRight, found]
        · intro d member
          have order := Decoration.le_iff.mp (behind d member)
          have startEq : (n.decoration delta).start = delta + n.start := rfl
          exact meets_eq_false (by omega)
      · by_cases reaches : delta + n.stop ≥ start
        · let cached := n.setCachedOffsets (delta + n.start) (delta + n.stop)
          let listed := if chosen n.ref then found ++ [cached] else found
          have visited : (meetingSweep chosen start stop).visit delta n found =
              (cached, listed, true) := by
            simp only [meetingSweep, late, reaches, cached, listed, if_true, if_false]
            rfl
          have isMet : (n.decoration delta).meets start stop = true := by
            have starts : delta + n.start ≤ stop := by omega
            simp [Interval.meets, IntervalNode.decoration, starts, reaches]
          rw [Sweep.swept_node skip visited]
          refine left.node fit rfl ?_ ?_ (rightHypothesis rightSound rightSorted listed)
          · simp only [Decoration.cache, isMet, if_true]
            rfl
          · have refEq : (n.decoration delta).ref = n.ref := rfl
            simp only [filter_cons, isMet, refEq, Bool.true_and, listed]
            cases chosen n.ref with
            | true =>
              rw [if_pos rfl, if_pos rfl, map_append]
              rfl
            | false =>
              exact (append_nil _).symm
        · have visited : (meetingSweep chosen start stop).visit delta n found =
              (n, found, true) := by
            simp [meetingSweep, late, reaches]
          have notMet : (n.decoration delta).meets start stop = false :=
            meets_eq_false (.inr (Int.not_le.mp reaches))
          rw [Sweep.swept_node skip visited, ← self]
          refine left.node fit self (Decoration.cache_of_not notMet).symm ?_
            (rightHypothesis rightSound rightSorted found)
          simp [notMet, found]

theorem sameColours_meeting (chosen : Nat → Bool) (start stop : Int) (t : Tree) :
    SameColours rotator.isRed t ((meetingSweep chosen start stop).swept 0 t []).1 := by
  apply Sweep.sameColours_swept
  intro delta n s
  simp only [meetingSweep]
  split
  · rfl
  · split <;> rfl

/-! ## Moving what starts after the edit -/

/-- A decoration that starts after an edit moves. -/
def Decoration.push (stop editDelta : Int) (d : Decoration) : Decoration :=
  if d.start > stop then
    { d with start := d.start + editDelta, stop := d.stop + editDelta }
  else d

theorem Decoration.push_of_le {stop editDelta : Int} (starts : d.start ≤ stop) :
    d.push stop editDelta = d := by
  simp [Decoration.push, Int.not_lt.mpr starts]

theorem Decoration.push_of_lt {stop editDelta : Int} (after : stop < d.start) :
    d.push stop editDelta =
      { d with start := d.start + editDelta, stop := d.stop + editDelta } := by
  simp [Decoration.push, after]

/-- A new base moves all decorations of a tree. -/
theorem decorations_add (base delta : Int) (t : Tree) :
    decorations (base + delta) t = (decorations base t).map fun d =>
      { d with start := d.start + delta, stop := d.stop + delta } := by
  induction t generalizing base with
  | leaf => rfl
  | node l n r leftHypothesis rightHypothesis =>
    have swap : base + delta + n.delta = base + n.delta + delta := by omega
    rw [decorations_node, decorations_node, leftHypothesis, swap, rightHypothesis]
    simp [IntervalNode.decoration, Int.add_right_comm]

/-- What `noOverlapReplace` does with a subtree. -/
structure Pushed (fits : Int → Int → Prop) (stop editDelta delta : Int) (t t' : Tree) :
    Prop where
  decorations : decorations delta t' = (decorations delta t).map (·.push stop editDelta)
  sound : Sound fits t'

/-- Shifting the delta of a node moves its right subtree. -/
theorem Fitting.pushed (fitting : Fitting fits) (upper : ∀ a b, fits a b → b ≤ a)
    (order : start ≤ stop) (textLength : Int) (sound : Sound fits t)
    (sorted : (decorations delta t).Pairwise Decoration.Le)
    (valid : ∀ d ∈ decorations delta t, d.start ≤ d.stop) (request : Bool) :
    Pushed fits stop (textLength - (stop - start)) delta t
      ((noOverlapReplaceSweep start stop textLength).swept delta t request).1 := by
  induction t generalizing delta request with
  | leaf => exact ⟨rfl, trivial⟩
  | node l n r leftHypothesis rightHypothesis =>
    have leave : ∀ l n r, (noOverlapReplaceSweep start stop textLength).leave l n r =
        recomputeMaxEnd l n r := fun _ _ _ => rfl
    cases skip : (noOverlapReplaceSweep start stop textLength).skip delta n with
    | true =>
      have small : delta + n.maxEnd < start := of_decide_eq_true skip
      rw [Sweep.swept, if_pos skip, leave]
      refine ⟨?_, sound.1, sound.2.1, sound.2.2.1, fitting.refl _⟩
      refine (map_eq_self ?_).symm
      intro d member
      have short := sound.not_meets upper small d member
      have starts := valid d member
      exact Decoration.push_of_le (by omega)
    | false =>
      obtain ⟨leftSound, rightSound, unvisited, fit⟩ := sound
      obtain ⟨leftSorted, rest, -⟩ := pairwise_append.mp sorted
      obtain ⟨behind, rightSorted⟩ := pairwise_cons.mp rest
      have left := leftHypothesis leftSound leftSorted
        (fun d member => valid d (by simp [member])) request
      let leftOut := (noOverlapReplaceSweep start stop textLength).swept delta l request
      by_cases late : delta + n.start > stop
      · have visited : (noOverlapReplaceSweep start stop textLength).visit delta n
            leftOut.2 = (n.shift (textLength - (stop - start)),
              leftOut.2 || isUnsafeDelta (n.shift (textLength - (stop - start))).delta,
              false) := by
          simp [noOverlapReplaceSweep, late]
        rw [Sweep.swept_node skip visited, leave]
        refine ⟨?_, left.sound, rightSound, rfl, fitting.refl _⟩
        have right : decorations (delta + (n.delta + (textLength - (stop - start)))) r =
            (decorations (delta + n.delta) r).map (·.push stop (textLength - (stop - start))) := by
          rw [← Int.add_assoc, decorations_add]
          apply map_congr_left
          intro d member
          have after := Decoration.le_iff.mp (behind d member)
          have startEq : (n.decoration delta).start = delta + n.start := rfl
          exact (Decoration.push_of_lt (by omega)).symm
        have here : (n.decoration delta).push stop (textLength - (stop - start)) =
            { n.decoration delta with
              start := delta + n.start + (textLength - (stop - start))
              stop := delta + n.stop + (textLength - (stop - start)) } :=
          Decoration.push_of_lt late
        rw [decorations_node, decorations_node, map_append, map_cons,
          left.decorations, here, ← right]
        simp [recomputeMaxEnd, IntervalNode.shift, IntervalNode.decoration, Sweep.sweptRight,
          Int.add_assoc]
      · have visited : (noOverlapReplaceSweep start stop textLength).visit delta n
            leftOut.2 = (n, leftOut.2, true) := by
          simp [noOverlapReplaceSweep, late]
        have right := rightHypothesis rightSound rightSorted
          (fun d member => valid d (by simp [member])) leftOut.2
        have here : (n.decoration delta).push stop (textLength - (stop - start)) =
            n.decoration delta := Decoration.push_of_le (Int.not_lt.mp late)
        rw [Sweep.swept_node skip visited, leave]
        refine ⟨?_, left.sound, right.sound, rfl, fitting.refl _⟩
        rw [decorations_node, decorations_node, map_append, map_cons,
          left.decorations, here, ← right.decorations]
        rfl

end CodeEditor.Decorations
