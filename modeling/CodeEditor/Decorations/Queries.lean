import CodeEditor.Decorations.Refinement

/-!
# Asking the interval tree

The two searches that list decorations, and the offsets of a single one. The owner of a node and
the bits that its options set are not touched by the tree and can change at any time; they are
looked up by the node. The version and the range that are cached with the offsets are left out.
-/

namespace CodeEditor.Decorations

open CodeEditor.BinaryTree RedBlack Simulation List

variable {fits : Int → Int → Prop}

/-! ## The model -/

/-- What the filters of a search look at. -/
structure NodeAttributes where
  ownerId : Int
  isForValidation : Bool
  isInGlyphMargin : Bool
deriving DecidableEq, Repr

structure SearchFilter where
  filterOwnerId : Int
  filterOutValidation : Bool
  onlyMarginDecorations : Bool
deriving DecidableEq, Repr

/-- The value of `include`; the owner 0 is no owner. -/
def SearchFilter.includes (filter : SearchFilter) (node : NodeAttributes) : Bool :=
  if filter.filterOwnerId ≠ 0 ∧ node.ownerId ≠ 0 ∧ node.ownerId ≠ filter.filterOwnerId then false
  else if filter.filterOutValidation && node.isForValidation then false
  else if filter.onlyMarginDecorations && !node.isInGlyphMargin then false
  else true

/-- The traversal of `intervalSearch`. -/
def intervalSearchSweep (attributes : Nat → NodeAttributes) (filter : SearchFilter)
    (intervalStart intervalEnd : Int) : Sweep (List IntervalNode) where
  skip delta n := delta + n.maxEnd < intervalStart
  visit delta n result :=
    let nodeStart := delta + n.start
    if nodeStart > intervalEnd then (n, result, false)
    else
      let nodeEnd := delta + n.stop
      if nodeEnd ≥ intervalStart then
        let n := n.setCachedOffsets nodeStart nodeEnd
        (n, if filter.includes (attributes n.ref) then result ++ [n] else result, true)
      else (n, result, true)
  recompute := false

/-- The traversal of `search`. -/
def searchSweep (attributes : Nat → NodeAttributes) (filter : SearchFilter) :
    Sweep (List IntervalNode) where
  skip _ _ := false
  visit delta n result :=
    let n := n.setCachedOffsets (delta + n.start) (delta + n.stop)
    (n, if filter.includes (attributes n.ref) then result ++ [n] else result, true)
  recompute := false

/-- The sum of the deltas on the way to the root, as far as they apply. -/
def deltaToRoot : Path → (delta : Int) → Int
  | [], delta => delta
  | .left _ _ :: up, delta => deltaToRoot up delta
  | .right _ parent :: up, delta => deltaToRoot up (delta + parent.delta)

namespace IntervalTree

def intervalSearch (T : IntervalTree) (attributes : Nat → NodeAttributes) (filter : SearchFilter)
    (start stop : Int) : Option (IntervalTree × List IntervalNode) :=
  ((intervalSearchSweep attributes filter start stop).run T.root []).map fun (root, result) =>
    ({ T with root }, result)

def search (T : IntervalTree) (attributes : Nat → NodeAttributes) (filter : SearchFilter) :
    Option (IntervalTree × List IntervalNode) :=
  ((searchSweep attributes filter).run T.root []).map fun (root, result) =>
    ({ T with root }, result)

/-- `resolveNode(node)`, with the node. -/
def resolveNode (T : IntervalTree) (ref : Nat) : Option (IntervalTree × IntervalNode) := do
  let (l, initialNode, r, path) ← T.root.locate fun n => n.ref = ref
  let delta := deltaToRoot path 0
  let resolved := initialNode.setCachedOffsets (initialNode.start + delta)
    (initialNode.stop + delta)
  some ({ T with root := (BinaryTree.node l resolved r).plug path }, resolved)

end IntervalTree

/-- What can be asked of an interval tree, or done with it. -/
inductive TreeRequest where
  | change (operation : TreeOperation)
  | intervalSearch (attributes : Nat → NodeAttributes) (filter : SearchFilter) (start stop : Int)
  | search (attributes : Nat → NodeAttributes) (filter : SearchFilter)
  | resolveNode (ref : Nat)

def IntervalTree.serve (T : IntervalTree) : TreeRequest → Option IntervalTree
  | .change operation => T.step operation
  | .intervalSearch attributes filter start stop =>
    (T.intervalSearch attributes filter start stop).map (·.1)
  | .search attributes filter => (T.search attributes filter).map (·.1)
  | .resolveNode ref => (T.resolveNode ref).map (·.1)

/-- The same on a plain list of decorations. -/
def listServe (list : List Interval) : TreeRequest → List Interval
  | .change operation => listStep list operation
  | _ => list

/-- A node to resolve is in the tree. -/
def Serves (fits : Int → Int → Prop) (T : IntervalTree) : TreeRequest → Prop
  | .change operation => Permitted fits T operation
  | .resolveNode ref => ref ∈ T.intervals.map (·.ref)
  | _ => True

instance decidableServes [DecidableRel fits] (T : IntervalTree) :
    ∀ request, Decidable (Serves fits T request)
  | .change operation => inferInstanceAs (Decidable (Permitted fits T operation))
  | .resolveNode _ => inferInstanceAs (Decidable (_ ∈ _))
  | .intervalSearch _ _ _ _ => isTrue trivial
  | .search _ _ => isTrue trivial

/-! ## Caches -/

theorem ok_of_intervals {T : IntervalTree} (redBlack : IsRedBlack rotator.isRed T.root)
    (sound : Sound fits T.root)
    (sorted : T.intervals.Pairwise fun a b => intervalCompare a.start a.stop b.start b.stop ≤ 0)
    (refs : (T.intervals.map (·.ref)).Nodup) (valid : ∀ d ∈ T.intervals, d.start ≤ d.stop) :
    Ok fits T where
  redBlack := redBlack
  sound := sound
  sorted := by
    rw [IntervalTree.intervals, pairwise_map] at sorted
    exact sorted
  refs := by
    rw [IntervalTree.intervals, map_map] at refs
    exact refs
  valid d member := valid d.toInterval (mem_map_of_mem member)

theorem Ok.sorted_intervals (ok : Ok fits T) :
    T.intervals.Pairwise fun a b => intervalCompare a.start a.stop b.start b.stop ≤ 0 :=
  pairwise_map.mpr ok.sorted

theorem Ok.refs_intervals (ok : Ok fits T) : (T.intervals.map (·.ref)).Nodup := by
  rw [IntervalTree.intervals, map_map]
  exact ok.refs

/-- A query changes nothing but caches. -/
theorem Ok.recached {T T' : IntervalTree} (ok : Ok fits T)
    (redBlack : IsRedBlack rotator.isRed T'.root) (sound : Sound fits T'.root)
    (same : T'.intervals = T.intervals) : Ok fits T' := by
  apply ok_of_intervals redBlack sound
  · rw [same]
    exact ok.sorted_intervals
  · rw [same]
    exact ok.refs_intervals
  · rw [same]
    intro d member
    obtain ⟨e, inTree, rfl⟩ := mem_map.mp member
    exact ok.valid e inTree

/-! ## The search for an interval -/

theorem intervalSearchSweep_eq (attributes : Nat → NodeAttributes) (filter : SearchFilter)
    (start stop : Int) : intervalSearchSweep attributes filter start stop =
      meetingSweep (fun ref => filter.includes (attributes ref)) start stop := rfl

section

variable (upper : ∀ a b, fits a b → b ≤ a) (ok : Ok fits T) (attributes : Nat → NodeAttributes)
  (filter : SearchFilter) (start stop : Int)

include upper ok attributes filter start stop

/-- What `intervalSearch` finds, from left to right. -/
theorem Ok.intervalSearch :
    ∃ T' result, T.intervalSearch attributes filter start stop = some (T', result) ∧ Ok fits T' ∧
      T'.intervals = T.intervals ∧
      result.map (·.found) = ((decorations 0 T.root).filter fun d =>
        d.meets start stop && filter.includes (attributes d.ref)).map (·.place) := by
  let sweep := meetingSweep (fun ref => filter.includes (attributes ref)) start stop
  have search : Searched fits _ start stop 0 T.root [] (sweep.swept 0 T.root []) :=
    searched upper _ start stop ok.sound ok.sorted []
  have same : IntervalTree.intervals { T with root := (sweep.swept 0 T.root []).1 } =
      T.intervals := by
    rw [IntervalTree.intervals, search.decorations, map_map]
    exact map_congr_left fun d _ => Decoration.toInterval_cache start stop d
  refine ⟨{ T with root := (sweep.swept 0 T.root []).1 }, (sweep.swept 0 T.root []).2, ?_, ?_,
    same, search.found⟩
  · rw [IntervalTree.intervalSearch, intervalSearchSweep_eq, Sweep.run_eq ok.sound.unvisited]
    rfl
  · exact ok.recached ((sameColours_meeting _ start stop T.root).isRedBlack ok.redBlack)
      search.sound same

theorem Ok.intervalSearch_intervals :
    ∃ T' result, T.intervalSearch attributes filter start stop = some (T', result) ∧
      result.map (·.found) = (T.intervals.filter fun d =>
        d.meets start stop && filter.includes (attributes d.ref)).map (·.place) ∧
      result.map (·.ref) = (T.intervals.filter fun d =>
        d.meets start stop && filter.includes (attributes d.ref)).map (·.ref) := by
  obtain ⟨T', result, searched, -, -, found⟩ :=
    ok.intervalSearch upper attributes filter start stop
  have places : result.map (·.found) = (T.intervals.filter fun d =>
      d.meets start stop && filter.includes (attributes d.ref)).map (·.place) := by
    rw [found, IntervalTree.intervals, filter_map, map_map]
    rfl
  have refs := congrArg (List.map Prod.fst) places
  rw [map_map, map_map] at refs
  exact ⟨T', result, searched, places, refs⟩

end

/-! ## The search for all -/

/-- The decoration with its offsets cached. -/
def Decoration.resolved (d : Decoration) : Decoration :=
  { d with cachedAbsoluteStart := d.start, cachedAbsoluteEnd := d.stop }

/-- The search caches the offsets of all nodes and lists those that pass the filter. -/
theorem swept_search (attributes : Nat → NodeAttributes) (filter : SearchFilter) (t : Tree)
    (delta : Int) (result : List IntervalNode) (sound : Sound fits t) :
    let out := (searchSweep attributes filter).swept delta t result
    decorations delta out.1 = (decorations delta t).map (·.resolved) ∧
      Sound fits out.1 ∧ maxEnd? out.1 = maxEnd? t ∧
      out.2.map (·.found) = result.map (·.found) ++
        ((decorations delta t).filter fun d => filter.includes (attributes d.ref)).map
          (·.place) := by
  induction t generalizing delta result with
  | leaf => exact ⟨rfl, sound, rfl, (append_nil _).symm⟩
  | node l n r leftHypothesis rightHypothesis =>
    obtain ⟨leftSound, rightSound, unvisited, fit⟩ := sound
    obtain ⟨leftSame, leftSound', leftTop, leftFound⟩ := leftHypothesis delta result leftSound
    let found := ((searchSweep attributes filter).swept delta l result).2
    let cached := n.setCachedOffsets (delta + n.start) (delta + n.stop)
    let listed := if filter.includes (attributes n.ref) then found ++ [cached] else found
    obtain ⟨rightSame, rightSound', rightTop, rightFound⟩ :=
      rightHypothesis (delta + n.delta) listed rightSound
    have visited : (searchSweep attributes filter).visit delta n found =
        (cached, listed, true) := rfl
    rw [Sweep.swept_node rfl visited]
    refine ⟨?_, ⟨leftSound', rightSound', rfl, ?_⟩, rfl, ?_⟩
    · rw [decorations_node, decorations_node, map_append, leftSame]
      exact congrArg (_ ++ _ :: ·) rightSame
    · rw [computeMaxEnd_eq, ← leftTop, ← rightTop, ← computeMaxEnd_eq] at fit
      exact fit
    · have own : listed.map (·.found) = found.map (·.found) ++
          ([n.decoration delta].filter fun d => filter.includes (attributes d.ref)).map
            (·.place) := by
        cases included : filter.includes (attributes n.ref) <;>
          simp [listed, included, cached, IntervalNode.decoration, Interval.place,
            IntervalNode.found, IntervalNode.setCachedOffsets]
      exact rightFound.trans (by
        rw [own, leftFound, decorations_node, filter_append, map_append,
          append_assoc, append_assoc, ← map_append, ← filter_append]
        rfl)

theorem Ok.search (ok : Ok fits T) (attributes : Nat → NodeAttributes) (filter : SearchFilter) :
    let out := (searchSweep attributes filter).swept 0 T.root []
    T.search attributes filter = some ({ T with root := out.1 }, out.2) ∧
      Ok fits { T with root := out.1 } ∧
      decorations 0 out.1 = (decorations 0 T.root).map (·.resolved) ∧
      out.2.map (·.found) = ((decorations 0 T.root).filter fun d =>
        filter.includes (attributes d.ref)).map (·.place) := by
  obtain ⟨same, sound, -, found⟩ := swept_search attributes filter T.root 0 [] ok.sound
  have colours : SameColours rotator.isRed T.root
      ((searchSweep attributes filter).swept 0 T.root []).1 :=
    Sweep.sameColours_swept (fun _ _ _ => rfl) T.root 0 []
  refine ⟨?_, ok.recached (colours.isRedBlack ok.redBlack) sound ?_, same, found⟩
  · rw [IntervalTree.search, Sweep.run_eq ok.sound.unvisited]
    rfl
  · rw [IntervalTree.intervals, same, map_map]
    rfl

/-! ## A single node -/

theorem deltaToRoot_eq (path : Path) (delta : Int) :
    deltaToRoot path delta = delta + focusBase 0 path := by
  induction path generalizing delta with
  | nil => exact (Int.add_zero delta).symm
  | cons crumb up ih =>
    cases crumb with
    | left n r => exact ih delta
    | right l parent =>
      rw [deltaToRoot, ih, focusBase]
      omega

/-- `resolveNode` caches the offsets of the node and changes nothing else. -/
theorem Ok.resolveNode (ok : Ok fits T) {d : Interval} (member : d ∈ T.intervals) :
    ∃ T' n, T.resolveNode d.ref = some (T', n) ∧ Ok fits T' ∧ T'.intervals = T.intervals ∧
      n.found = d.place := by
  obtain ⟨e, inTree, rfl⟩ := mem_map.mp member
  obtain ⟨first, second, listed⟩ := append_of_mem inTree
  obtain ⟨l, z, r, path, located, plugged, isE, -, -⟩ := locate_decoration ok.refs listed
  let resolved := z.setCachedOffsets (z.start + focusBase 0 path) (z.stop + focusBase 0 path)
  let root := (BinaryTree.node l resolved r).plug path
  have redBlack := ok.redBlack
  have sound := ok.sound
  rw [← plugged] at redBlack sound
  have same : IntervalTree.intervals { T with root } = T.intervals := by
    rw [IntervalTree.intervals, IntervalTree.intervals, ← plugged, decorations_plug,
      decorations_plug]
    simp only [map_append, decorations_node, map_cons]
    rfl
  refine ⟨{ T with root }, resolved, ?_, ok.recached ?_ ?_ same, same, ?_⟩
  · rw [IntervalTree.resolveNode, located]
    simp only [Option.bind_eq_bind, Option.bind_some, deltaToRoot_eq, Int.zero_add]
    rfl
  · rw [isRedBlack_plug_iff] at redBlack ⊢
    exact redBlack
  · rw [sound_plug_iff] at sound ⊢
    exact sound
  · rw [← isE]
    simp [resolved, IntervalNode.found, Interval.place, IntervalNode.setCachedOffsets,
      IntervalNode.decoration, Int.add_comm]

/-! ## Runs -/

/-- Every request is served, keeps the invariant and does what the list does. -/
theorem Fitting.serve (fitting : Fitting fits) (upper : ∀ a b, fits a b → b ≤ a) (ok : Ok fits T)
    (perm : T.intervals.Perm list) (serves : Serves fits T request) :
    ∃ T', T.serve request = some T' ∧ Ok fits T' ∧ T'.intervals.Perm (listServe list request) := by
  cases request with
  | change operation => exact fitting.step upper ok perm serves
  | intervalSearch attributes filter start stop =>
    obtain ⟨T', result, searched, ok', same, -⟩ :=
      ok.intervalSearch upper attributes filter start stop
    refine ⟨T', ?_, ok', same ▸ perm⟩
    rw [IntervalTree.serve, searched]
    rfl
  | search attributes filter =>
    obtain ⟨searched, ok', cached, -⟩ := ok.search attributes filter
    have same : IntervalTree.intervals { T with
        root := ((searchSweep attributes filter).swept 0 T.root []).1 } = T.intervals := by
      rw [IntervalTree.intervals, cached, map_map]
      rfl
    refine ⟨_, ?_, ok', same ▸ perm⟩
    rw [IntervalTree.serve, searched]
    rfl
  | resolveNode ref =>
    obtain ⟨d, member, rfl⟩ := mem_map.mp serves
    obtain ⟨T', n, resolved, ok', same, -⟩ := ok.resolveNode member
    refine ⟨T', ?_, ok', same ▸ perm⟩
    rw [IntervalTree.serve, resolved]
    rfl

/-- After every run, a search lists the decorations that meet the interval and pass the filters,
each once, in order and with their offsets, and every node is resolved to its offsets. -/
theorem intervalSearch_exact (requests : List TreeRequest)
    (served : PermittedRun IntervalTree.serve (Serves (· ≥ ·)) .new requests)
    (attributes : Nat → NodeAttributes) (filter : SearchFilter) (start stop : Int) :
    ∃ T T' result, run IntervalTree.serve .new requests = some T ∧
      T.intervalSearch attributes filter start stop = some (T', result) ∧
      (result.map (·.found)).Perm (((requests.foldl listServe []).filter fun d =>
        d.meets start stop && filter.includes (attributes d.ref)).map (·.place)) ∧
      (result.map (·.ref)).Nodup ∧
      result.Pairwise (fun m n => m.cachedAbsoluteStart < n.cachedAbsoluteStart ∨
        m.cachedAbsoluteStart = n.cachedAbsoluteStart ∧
          m.cachedAbsoluteEnd ≤ n.cachedAbsoluteEnd) ∧
      ∀ d ∈ requests.foldl listServe [], ∃ T'' n,
        T.resolveNode d.ref = some (T'', n) ∧ n.found = d.place := by
  have upper : ∀ a b : Int, a ≥ b → b ≤ a := fun _ _ fit => fit
  have simulates : ∀ T list request, (Ok (· ≥ ·) T ∧ T.intervals.Perm list) →
      Serves (· ≥ ·) T request → ∃ T', T.serve request = some T' ∧
        Ok (· ≥ ·) T' ∧ T'.intervals.Perm (listServe list request) :=
    fun _ _ _ ⟨ok, perm⟩ serves => fitting_ge.serve upper ok perm serves
  have init : Ok (· ≥ ·) IntervalTree.new ∧ IntervalTree.new.intervals.Perm [] :=
    ⟨ok_new, .refl _⟩
  obtain ⟨T, reached, ok, perm⟩ := run_simulates simulates init served
  obtain ⟨T', result, searched, places, refs⟩ :=
    ok.intervalSearch_intervals upper attributes filter start stop
  refine ⟨T, T', result, reached, searched, ?_, ?_, ?_, ?_⟩
  · rw [places]
    exact (perm.filter _).map _
  · rw [refs]
    exact ok.refs_intervals.sublist (filter_sublist.map _)
  · have inOrder : (result.map (·.found)).Pairwise fun m n =>
        m.2.1 < n.2.1 ∨ m.2.1 = n.2.1 ∧ m.2.2 ≤ n.2.2 := by
      rw [places, pairwise_map]
      refine (ok.sorted_intervals.sublist filter_sublist).imp ?_
      intro a b less
      simp only [intervalCompare] at less
      split_ifs at less <;> simp only [Interval.place] <;> omega
    exact pairwise_map.mp inOrder
  · intro d member
    obtain ⟨T'', n, resolved, -, -, place⟩ := ok.resolveNode (perm.mem_iff.mpr member)
    exact ⟨T'', n, resolved, place⟩

/-- Three decorations, a search that prunes, an edit, and a node that is resolved. -/
def sampleRequests : List TreeRequest :=
  [.change (.insert (.new 0 "a" 0 5)), .change (.insert (.new 1 "b" 1 10)),
    .intervalSearch (fun _ => ⟨0, false, false⟩) ⟨0, false, false⟩ 2 3,
    .change (.insert (.new 2 "c" 12 12)), .change (.acceptReplace 4 2 3 false), .resolveNode 1]

theorem intervalSearch_exact_sample :
    ∃ T T' result, run IntervalTree.serve .new sampleRequests = some T ∧
      T.intervalSearch (fun ref => ⟨ref, false, false⟩) ⟨2, false, false⟩ 6 20 = some (T', result) ∧
      (result.map (·.found)).Perm (((sampleRequests.foldl listServe []).filter fun d =>
        d.meets 6 20 && SearchFilter.includes ⟨2, false, false⟩ ⟨d.ref, false, false⟩).map
          (·.place)) ∧
      (result.map (·.ref)).Nodup ∧
      result.Pairwise (fun m n => m.cachedAbsoluteStart < n.cachedAbsoluteStart ∨
        m.cachedAbsoluteStart = n.cachedAbsoluteStart ∧
          m.cachedAbsoluteEnd ≤ n.cachedAbsoluteEnd) ∧
      ∀ d ∈ sampleRequests.foldl listServe [], ∃ T'' n,
        T.resolveNode d.ref = some (T'', n) ∧ n.found = d.place :=
  intervalSearch_exact sampleRequests (by decide +kernel) _ _ 6 20

end CodeEditor.Decorations
