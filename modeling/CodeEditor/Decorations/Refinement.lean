import CodeEditor.Decorations.Editing
import CodeEditor.Foundation.Simulation

/-!
# The interval tree as a list of decorations

Every operation of the tree is matched by a plain operation on a list of decorations,
and keeps the invariant of the tree.
-/

namespace CodeEditor.Decorations

open CodeEditor.BinaryTree RedBlack Simulation List

variable {fits : Int → Int → Prop}

/-! ## Parts of the operations -/

/-- Normalization changes neither the decorations nor the colours. -/
theorem Fitting.normalizeDelta (fitting : Fitting fits) {T : IntervalTree}
    (redBlack : IsRedBlack rotator.isRed T.root) (sound : Sound fits T.root) :
    ∃ T', normalizeDelta T = some T' ∧ IsRedBlack rotator.isRed T'.root ∧
      Sound fits T'.root ∧ decorations 0 T'.root = decorations 0 T.root :=
  ⟨_, normalizeDelta_eq sound.unvisited, (sameColours_normalized 0 T.root).isRedBlack redBlack,
    fitting.sound_normalized sound.unvisited 0, decorations_normalized 0 T.root⟩

theorem Fitting.normalizeDeltaIfNecessary (fitting : Fitting fits) {T : IntervalTree}
    (redBlack : IsRedBlack rotator.isRed T.root) (sound : Sound fits T.root) :
    ∃ T', normalizeDeltaIfNecessary T = some T' ∧ IsRedBlack rotator.isRed T'.root ∧
      Sound fits T'.root ∧ decorations 0 T'.root = decorations 0 T.root := by
  rw [Decorations.normalizeDeltaIfNecessary]
  split
  · exact @Fitting.normalizeDelta fits fitting { T with requestNormalizeDelta := false }
      redBlack sound
  · exact ⟨T, rfl, redBlack, sound, rfl⟩

/-- A node that was taken out of the tree still says what its decoration was. -/
def TakenOut (z : IntervalNode) (d : Decoration) : Prop :=
  z.isVisited = false ∧ ∃ base, z.decoration base = d

variable {removed : List IntervalNode}

theorem unvisited_of_takenOut (taken : List.Forall₂ TakenOut removed list) :
    ∀ z ∈ removed, z.isVisited = false := by
  induction taken with
  | nil => simp
  | cons first rest ih =>
    intro z member
    obtain rfl | member := mem_cons.mp member
    · exact first.1
    · exact ih z member

theorem Fitting.deleteAll (fitting : Fitting fits) {nodes : List IntervalNode} {T : IntervalTree}
    (redBlack : IsRedBlack rotator.isRed T.root) (sound : Sound fits T.root)
    (refs : ((decorations 0 T.root).map (·.ref)).Nodup)
    (chosen : nodes.map (·.ref) = ((decorations 0 T.root).filter p).map (·.ref)) :
    ∃ T' removed, deleteAll nodes T = some (T', removed) ∧
      IsRedBlack rotator.isRed T'.root ∧ Sound fits T'.root ∧
      decorations 0 T'.root = (decorations 0 T.root).filter (fun d => !p d) ∧
      List.Forall₂ TakenOut removed ((decorations 0 T.root).filter p) := by
  induction nodes generalizing T with
  | nil =>
    have none : (decorations 0 T.root).filter p = [] := by
      simpa using chosen.symm
    refine ⟨T, [], rfl, redBlack, sound, ?_, ?_⟩
    · refine (filter_eq_self.mpr ?_).symm
      intro d member
      simpa using filter_eq_nil_iff.mp none d member
    · rw [none]
      exact .nil
  | cons n nodes ih =>
    obtain ⟨d, rest, split, isD, others⟩ := map_eq_cons_iff.mp chosen.symm
    obtain ⟨first, second, listed, notFirst, isP, restEq⟩ := filter_eq_cons_iff.mp split
    obtain ⟨T₁, z, deleted, redBlack₁, sound₁, left, unvisited, placed⟩ :=
      fitting.rbTreeDelete redBlack sound refs listed
    have isSublist : (decorations 0 T₁.root).Sublist (decorations 0 T.root) := by
      rw [left, listed]
      exact List.Sublist.append_left (sublist_cons_self d second) first
    have noneFirst : first.filter p = [] := by
      rw [filter_eq_nil_iff]
      exact notFirst
    have chosen₁ : nodes.map (·.ref) = ((decorations 0 T₁.root).filter p).map (·.ref) := by
      rw [left, filter_append, noneFirst, nil_append, restEq, others]
    obtain ⟨T₂, removed, deletedAll, redBlack₂, sound₂, kept, taken⟩ :=
      ih redBlack₁ sound₁ (refs.sublist (isSublist.map _)) chosen₁
    refine ⟨T₂, z :: removed, ?_, redBlack₂, sound₂, ?_, ?_⟩
    · have isRef : d.ref = n.ref := isD
      rw [Decorations.deleteAll, ← isRef]
      simp [deleted, deletedAll]
    · rw [kept, left, listed]
      simp [isP]
    · have isRest : (decorations 0 T₁.root).filter p = rest := by
        rw [left, filter_append, noneFirst, nil_append, restEq]
      rw [isRest] at taken
      rw [split]
      exact .cons ⟨unvisited, placed⟩ taken

theorem Fitting.insertAll (fitting : Fitting fits) {nodes : List IntervalNode}
    {T : IntervalTree} (redBlack : IsRedBlack rotator.isRed T.root)
    (sound : Sound fits T.root) (sorted : (decorations 0 T.root).Pairwise Decoration.Le)
    (fresh : ∀ n ∈ nodes, n.isVisited = false ∧ n.maxEnd = n.stop) :
    ∃ T', nodes.foldlM Decorations.rbTreeInsert T = some T' ∧ IsRedBlack rotator.isRed T'.root ∧
      Sound fits T'.root ∧ (decorations 0 T'.root).Pairwise Decoration.Le ∧
      (decorations 0 T'.root).Perm (nodes.map (·.decoration 0) ++ decorations 0 T.root) := by
  induction nodes generalizing T with
  | nil => exact ⟨T, rfl, redBlack, sound, sorted, .refl _⟩
  | cons n nodes ih =>
    obtain ⟨unvisited, ends⟩ := fresh n mem_cons_self
    obtain ⟨T₁, inserted, redBlack₁, sound₁, inserts⟩ := fitting.rbTreeInsert redBlack sound
      sorted unvisited (by rw [ends]; exact fitting.refl _)
    obtain ⟨T₂, insertedAll, redBlack₂, sound₂, sorted₂, perm⟩ := ih redBlack₁ sound₁
      (inserts.sorted sorted) fun other member => fresh other (mem_cons_of_mem n member)
    refine ⟨T₂, ?_, redBlack₂, sound₂, sorted₂, perm.trans ?_⟩
    · simp [inserted, insertedAll]
    · exact (inserts.perm.append_left _).trans perm_middle

/-! ## One edit -/

/-- `acceptReplace` for a single decoration. -/
def Interval.acceptReplace (offset length textLength : Nat) (forceMoveMarkers : Bool)
    (d : Interval) : Interval :=
  if d.meets offset (offset + length) then
    let (start, stop) := acceptEdit d.stickiness d.collapseOnReplaceEdit d.start d.stop offset
      (offset + length) textLength forceMoveMarkers
    { d with start, stop }
  else if d.start > offset + length then
    { d with
      start := d.start + ((textLength : Int) - length)
      stop := d.stop + ((textLength : Int) - length) }
  else d

theorem acceptEdit_valid (stickiness : TrackedRangeStickiness) (collapse force : Bool)
    (nodeStart nodeEnd start stop textLength : Int) :
    (acceptEdit stickiness collapse nodeStart nodeEnd start stop textLength force).1 ≤
      (acceptEdit stickiness collapse nodeStart nodeEnd start stop textLength force).2 := by
  simp only [acceptEdit]
  split <;> omega

variable (offset length textLength : Nat) (forceMoveMarkers : Bool) {d : Decoration}

theorem edited_interval (met : d.meets offset (offset + length) = true)
    (taken : TakenOut z (d.cache offset (offset + length))) :
    ((edited offset length textLength forceMoveMarkers z).decoration 0).toInterval =
      d.toInterval.acceptReplace offset length textLength forceMoveMarkers := by
  obtain ⟨-, base, placed⟩ := taken
  have cached : d.cache offset (offset + length) =
      { d with cachedAbsoluteStart := d.start, cachedAbsoluteEnd := d.stop } := by
    simp [Decoration.cache, met]
  rw [cached] at placed
  have fields := congrArg (fun e : Decoration => (e.ref, e.id, e.stickiness,
    e.collapseOnReplaceEdit, e.cachedAbsoluteStart, e.cachedAbsoluteEnd)) placed
  simp only [IntervalNode.decoration, Prod.mk.injEq] at fields
  obtain ⟨ref, id, stickiness, collapse, start, stop⟩ := fields
  simp [edited, nodeAcceptEdit, IntervalNode.decoration, Interval.acceptReplace, met, ref, id,
    stickiness, collapse, start, stop]

theorem push_interval (notMet : d.meets offset (offset + length) = false) :
    (d.push (offset + length) (textLength - (offset + length - offset))).toInterval =
      d.toInterval.acceptReplace offset length textLength forceMoveMarkers := by
  have width : (offset : Int) + length - offset = length := by omega
  rw [width, Interval.acceptReplace, notMet, Decoration.push]
  split <;> rfl

/-- What lies before or after the edit stays in order. -/
theorem push_sorted {list : List Decoration} (sorted : list.Pairwise Decoration.Le)
    (valid : ∀ d ∈ list, d.start ≤ d.stop)
    (notMet : ∀ d ∈ list, d.meets offset (offset + length) = false) :
    (list.map (·.push (offset + length)
      (textLength - (offset + length - offset)))).Pairwise Decoration.Le := by
  rw [pairwise_map]
  refine sorted.imp_of_mem ?_
  intro a b aMember bMember order
  have aValid := valid a aMember
  have aApart := notMet a aMember
  have bApart := notMet b bMember
  simp only [Interval.meets, Bool.and_eq_false_iff, decide_eq_false_iff_not] at aApart bApart
  rw [Decoration.le_iff] at order ⊢
  by_cases aAfter : (offset : Int) + length < a.start
  · rw [Decoration.push_of_lt aAfter, Decoration.push_of_lt (by omega)]
    simp only
    omega
  · rw [Decoration.push_of_le (Int.not_lt.mp aAfter)]
    by_cases bAfter : (offset : Int) + length < b.start
    · rw [Decoration.push_of_lt bAfter]
      simp only
      omega
    · rw [Decoration.push_of_le (Int.not_lt.mp bAfter)]
      exact order

theorem push_valid {list : List Decoration} (valid : ∀ d ∈ list, d.start ≤ d.stop)
    (stop editDelta : Int) :
    ∀ d ∈ list.map (·.push stop editDelta), d.start ≤ d.stop := by
  intro d member
  obtain ⟨e, inList, rfl⟩ := mem_map.mp member
  have ordered := valid e inList
  unfold Decoration.push
  split
  · simp only
    omega
  · exact ordered

theorem filter_met_cache (start stop : Int) (list : List Decoration) :
    (list.map (·.cache start stop)).filter (·.meets start stop) =
      (list.filter (·.meets start stop)).map (·.cache start stop) := by
  rw [filter_map]
  congr 1
  apply filter_congr
  intro d _
  rw [Function.comp_apply, Decoration.toInterval_cache]

theorem filter_not_met_cache (start stop : Int) (list : List Decoration) :
    (list.map (·.cache start stop)).filter (fun d => !d.meets start stop) =
      list.filter fun d => !d.meets start stop := by
  rw [filter_map]
  have same : (fun d => !Interval.meets start stop d.toInterval) ∘
      Decoration.cache start stop = fun d => !d.meets start stop := by
    funext d
    rw [Function.comp_apply, Decoration.toInterval_cache]
  rw [same]
  apply map_eq_self
  intro d member
  exact Decoration.cache_of_not (by simpa using (mem_filter.mp member).2)

/-- The nodes of interest behind the edit. -/
theorem map_edited {list : List Decoration}
    (met : ∀ d ∈ list, d.meets offset (offset + length) = true)
    (taken : List.Forall₂ TakenOut removed (list.map (·.cache offset (offset + length)))) :
    (removed.map (edited offset length textLength forceMoveMarkers)).map
        (fun n => (n.decoration 0).toInterval) =
      list.map fun d =>
        d.toInterval.acceptReplace offset length textLength forceMoveMarkers := by
  induction list generalizing removed with
  | nil =>
    cases taken
    rfl
  | cons d list ih =>
    cases taken with
    | cons first rest =>
      simp only [map_cons]
      rw [edited_interval offset length textLength forceMoveMarkers (met d mem_cons_self) first,
        ih (fun other member => met other (mem_cons_of_mem d member)) rest]

/-- The decorations of a tree. -/
def IntervalTree.intervals (T : IntervalTree) : List Interval :=
  (decorations 0 T.root).map (·.toInterval)

/-- The nodes that meet the edit are found and taken out. -/
theorem Fitting.takeOutMet (fitting : Fitting fits) (upper : ∀ a b, fits a b → b ≤ a)
    (ok : Ok fits T) (start stop : Int) :
    ∃ T₁ nodes T₂ removed, searchForEditing T start stop = some (T₁, nodes) ∧
      Decorations.deleteAll nodes T₁ = some (T₂, removed) ∧
      IsRedBlack rotator.isRed T₂.root ∧ Sound fits T₂.root ∧
      decorations 0 T₂.root = (decorations 0 T.root).filter (fun d => !d.meets start stop) ∧
      List.Forall₂ TakenOut removed
        (((decorations 0 T.root).filter (·.meets start stop)).map (·.cache start stop)) := by
  have search := searched upper (fun _ => true) start stop ok.sound ok.sorted []
  let out := (searchForEditingSweep start stop).swept 0 T.root []
  let T₁ : IntervalTree := { T with root := out.1 }
  have list₁ : decorations 0 T₁.root = (decorations 0 T.root).map (·.cache start stop) :=
    search.decorations
  have found : searchForEditing T start stop = some (T₁, out.2) := by
    simp only [searchForEditing, Sweep.run_eq ok.sound.unvisited, Option.map_some]
    rfl
  have colours : SameColours rotator.isRed T.root T₁.root :=
    sameColours_meeting (fun _ => true) start stop T.root
  have refs : ∀ list : List Decoration,
      (list.map (·.cache start stop)).map (·.ref) = list.map (·.ref) := by
    intro list
    rw [map_map]
    apply map_congr_left
    intro d _
    exact congrArg Interval.ref (Decoration.toInterval_cache start stop d)
  have met : (decorations 0 T₁.root).filter (·.meets start stop) =
      ((decorations 0 T.root).filter (·.meets start stop)).map (·.cache start stop) := by
    rw [list₁, filter_met_cache]
  have chosen : out.2.map (·.ref) =
      ((decorations 0 T₁.root).filter (·.meets start stop)).map (·.ref) := by
    have found := congrArg (List.map Prod.fst) search.found
    simp only [map_map, Function.comp_def, IntervalNode.found, Interval.place, map_nil,
      nil_append, Bool.and_true] at found
    rw [met, refs]
    exact found
  obtain ⟨T₂, removed, deleted, redBlack₂, sound₂, list₂, taken⟩ := fitting.deleteAll
    (colours.isRedBlack ok.redBlack) search.sound (by rw [list₁, refs]; exact ok.refs) chosen
  refine ⟨T₁, out.2, T₂, removed, found, deleted, redBlack₂, sound₂, ?_, ?_⟩
  · rw [list₂, list₁, filter_not_met_cache]
  · rwa [met] at taken

theorem Fitting.noOverlapReplace (fitting : Fitting fits) (upper : ∀ a b, fits a b → b ≤ a)
    {T : IntervalTree} (redBlack : IsRedBlack rotator.isRed T.root)
    (sound : Sound fits T.root) (sorted : (decorations 0 T.root).Pairwise Decoration.Le)
    (valid : ∀ d ∈ decorations 0 T.root, d.start ≤ d.stop) {start stop : Int}
    (order : start ≤ stop) (textLength : Int) :
    ∃ T', noOverlapReplace T start stop textLength = some T' ∧
      IsRedBlack rotator.isRed T'.root ∧ Sound fits T'.root ∧
      decorations 0 T'.root =
        (decorations 0 T.root).map (·.push stop (textLength - (stop - start))) := by
  have pushed := fitting.pushed upper order textLength sound sorted valid T.requestNormalizeDelta
  have colours : SameColours rotator.isRed T.root ((noOverlapReplaceSweep start stop
      textLength).swept 0 T.root T.requestNormalizeDelta).1 := by
    apply Sweep.sameColours_swept
    intro delta n s
    simp only [noOverlapReplaceSweep]
    split <;> rfl
  refine ⟨⟨_, ((noOverlapReplaceSweep start stop textLength).swept 0 T.root
    T.requestNormalizeDelta).2⟩, ?_, colours.isRedBlack redBlack, pushed.sound,
    pushed.decorations⟩
  simp only [Decorations.noOverlapReplace, Sweep.run_eq sound.unvisited, Option.map_some]

/-- Those that meet the edit are edited, the others moved or left alone. -/
theorem perm_edited {list : List Decoration} (taken : List.Forall₂ TakenOut removed
      ((list.filter (·.meets offset (offset + length))).map (·.cache offset (offset + length)))) :
    (((removed.map (edited offset length textLength forceMoveMarkers)).map (·.decoration 0) ++
      (list.filter (fun d => !d.meets offset (offset + length))).map
        (·.push (offset + length) (textLength - (offset + length - offset)))).map
        (·.toInterval)).Perm
      (list.map fun d =>
        d.toInterval.acceptReplace offset length textLength forceMoveMarkers) := by
  have interest := map_edited offset length textLength forceMoveMarkers
    (fun d member => (mem_filter.mp member).2) taken
  have others : ((list.filter (fun d => !d.meets offset (offset + length))).map
        (·.push (offset + length) (textLength - (offset + length - offset)))).map
        (·.toInterval) =
      (list.filter (fun d => !d.meets offset (offset + length))).map fun d =>
        d.toInterval.acceptReplace offset length textLength forceMoveMarkers := by
    rw [map_map]
    apply map_congr_left
    intro d member
    exact push_interval offset length textLength forceMoveMarkers
      (by simpa using (mem_filter.mp member).2)
  rw [map_append, others, map_map]
  change (((removed.map (edited offset length textLength forceMoveMarkers)).map
    fun n => (n.decoration 0).toInterval) ++ _).Perm _
  rw [interest, ← map_append]
  exact (filter_append_perm (fun d : Decoration => d.meets offset (offset + length)) list).map _

theorem Interval.ref_acceptReplace (d : Interval) :
    (d.acceptReplace offset length textLength forceMoveMarkers).ref = d.ref := by
  unfold Interval.acceptReplace
  split
  · rfl
  · split <;> rfl

theorem edited_valid (z : IntervalNode) :
    ((edited offset length textLength forceMoveMarkers z).decoration 0).start ≤
      ((edited offset length textLength forceMoveMarkers z).decoration 0).stop := by
  have ordered := acceptEdit_valid z.stickiness z.collapseOnReplaceEdit forceMoveMarkers
    z.cachedAbsoluteStart z.cachedAbsoluteEnd offset (offset + length) textLength
  simp only [edited, nodeAcceptEdit, IntervalNode.decoration]
  omega

theorem Fitting.acceptReplace (fitting : Fitting fits) (upper : ∀ a b, fits a b → b ≤ a)
    (ok : Ok fits T) :
    ∃ T', T.acceptReplace offset length textLength forceMoveMarkers = some T' ∧ Ok fits T' ∧
      T'.intervals.Perm
        (T.intervals.map (·.acceptReplace offset length textLength forceMoveMarkers)) := by
  obtain ⟨T₁, nodes, T₂, removed, found, deleted, redBlack₂, sound₂, list₂, taken⟩ :=
    fitting.takeOutMet upper ok offset (offset + length)
  obtain ⟨T₃, normalized₃, redBlack₃, sound₃, list₃⟩ :=
    fitting.normalizeDeltaIfNecessary redBlack₂ sound₂
  rw [list₂] at list₃
  have sorted₃ : (decorations 0 T₃.root).Pairwise Decoration.Le := by
    rw [list₃]
    exact ok.sorted.filter _
  have valid₃ : ∀ d ∈ decorations 0 T₃.root, d.start ≤ d.stop := by
    intro d member
    rw [list₃] at member
    exact ok.valid d (mem_of_mem_filter member)
  have apart : ∀ d ∈ decorations 0 T₃.root, d.meets offset (offset + length) = false := by
    intro d member
    rw [list₃] at member
    simpa using (mem_filter.mp member).2
  obtain ⟨T₄, replaced, redBlack₄, sound₄, list₄⟩ := fitting.noOverlapReplace upper redBlack₃
    sound₃ sorted₃ valid₃ (show (offset : Int) ≤ offset + length by omega) textLength
  obtain ⟨T₅, normalized₅, redBlack₅, sound₅, list₅⟩ :=
    fitting.normalizeDeltaIfNecessary redBlack₄ sound₄
  rw [list₄] at list₅
  have sorted₅ : (decorations 0 T₅.root).Pairwise Decoration.Le := by
    rw [list₅]
    exact push_sorted offset length textLength sorted₃ valid₃ apart
  obtain ⟨T₆, inserted, redBlack₆, sound₆, sorted₆, perm₆⟩ := @Fitting.insertAll fits fitting
    (removed.map (edited offset length textLength forceMoveMarkers)) T₅ redBlack₅ sound₅
    sorted₅ (by
      intro n member
      obtain ⟨z, inRemoved, rfl⟩ := mem_map.mp member
      exact ⟨unvisited_of_takenOut taken z inRemoved, rfl⟩)
  obtain ⟨T₇, normalized₇, redBlack₇, sound₇, list₇⟩ :=
    fitting.normalizeDeltaIfNecessary redBlack₆ sound₆
  rw [← list₇, list₅] at perm₆
  have perm : T₇.intervals.Perm
      (T.intervals.map (·.acceptReplace offset length textLength forceMoveMarkers)) := by
    rw [IntervalTree.intervals, IntervalTree.intervals, map_map]
    rw [list₃] at perm₆
    exact (perm₆.map _).trans (perm_edited offset length textLength forceMoveMarkers taken)
  refine ⟨T₇, ?_, ⟨redBlack₇, sound₇, list₇ ▸ sorted₆, ?_, ?_⟩, perm⟩
  · simp only [IntervalTree.acceptReplace, found, deleted, normalized₃, replaced,
      normalized₅, Option.bind_eq_bind, Option.bind_some]
    rw [inserted]
    exact normalized₇
  · have refs := perm.map Interval.ref
    have same : (Interval.ref ∘ fun d : Interval =>
        d.acceptReplace offset length textLength forceMoveMarkers) = Interval.ref := by
      funext d
      exact Interval.ref_acceptReplace offset length textLength forceMoveMarkers d
    rw [map_map, same] at refs
    rw [IntervalTree.intervals, IntervalTree.intervals, map_map, map_map] at refs
    exact refs.nodup_iff.mpr ok.refs
  · intro d member
    obtain member | member := mem_append.mp (perm₆.mem_iff.mp member)
    · obtain ⟨n, inNodes, rfl⟩ := mem_map.mp member
      obtain ⟨z, -, rfl⟩ := mem_map.mp inNodes
      exact edited_valid offset length textLength forceMoveMarkers z
    · exact push_valid valid₃ _ _ d member

/-! ## Runs -/

/-- The decoration of a node that is not in a tree. -/
def IntervalNode.interval (n : IntervalNode) : Interval where
  ref := n.ref
  id := n.id
  stickiness := n.stickiness
  collapseOnReplaceEdit := n.collapseOnReplaceEdit
  start := n.start
  stop := n.stop

/-- What can be done with an interval tree. -/
inductive TreeOperation where
  | insert (n : IntervalNode)
  | delete (ref : Nat)
  | acceptReplace (offset length textLength : Nat) (forceMoveMarkers : Bool)
  deriving DecidableEq, Repr

def IntervalTree.step (T : IntervalTree) : TreeOperation → Option IntervalTree
  | .insert n => T.insert n
  | .delete ref => T.delete ref
  | .acceptReplace offset length textLength forceMoveMarkers =>
    T.acceptReplace offset length textLength forceMoveMarkers

/-- The same on a plain list of decorations. -/
def listStep (list : List Interval) : TreeOperation → List Interval
  | .insert n => n.interval :: list
  | .delete ref => list.filter (·.ref ≠ ref)
  | .acceptReplace offset length textLength forceMoveMarkers =>
    list.map (·.acceptReplace offset length textLength forceMoveMarkers)

/-- A node to insert is in no tree, it is a valid interval, and its `maxEnd` fits; a
node to delete is in the tree. -/
def Permitted (fits : Int → Int → Prop) (T : IntervalTree) : TreeOperation → Prop
  | .insert n => n.ref ∉ T.intervals.map (·.ref) ∧ n.isVisited = false ∧ n.start ≤ n.stop ∧
      fits n.maxEnd n.stop
  | .delete ref => ref ∈ T.intervals.map (·.ref)
  | .acceptReplace _ _ _ _ => True

instance decidablePermitted [DecidableRel fits] (T : IntervalTree) :
    ∀ operation, Decidable (Permitted fits T operation)
  | .insert _ => inferInstanceAs (Decidable (_ ∧ _ ∧ _ ∧ _))
  | .delete _ => inferInstanceAs (Decidable (_ ∈ _))
  | .acceptReplace _ _ _ _ => isTrue trivial

theorem Ok.of_perm {T' : IntervalTree} (redBlack : IsRedBlack rotator.isRed T'.root)
    (sound : Sound fits T'.root) (sorted : (decorations 0 T'.root).Pairwise Decoration.Le)
    (perm : T'.intervals.Perm list) (refs : (list.map (·.ref)).Nodup)
    (valid : ∀ d ∈ list, d.start ≤ d.stop) : Ok fits T' where
  redBlack := redBlack
  sound := sound
  sorted := sorted
  refs := by
    have same := perm.map (·.ref)
    rw [IntervalTree.intervals, map_map] at same
    exact same.nodup_iff.mpr refs
  valid d member := valid _ (perm.mem_iff.mp (mem_map_of_mem member))

theorem Fitting.insert (fitting : Fitting fits) (ok : Ok fits T)
    (permitted : Permitted fits T (.insert n)) :
    ∃ T', T.insert n = some T' ∧ Ok fits T' ∧ T'.intervals.Perm (n.interval :: T.intervals) := by
  obtain ⟨fresh, unvisited, ordered, fit⟩ := permitted
  obtain ⟨T₁, inserted, redBlack₁, sound₁, inserts⟩ := fitting.rbTreeInsert ok.redBlack
    ok.sound ok.sorted unvisited fit
  obtain ⟨T₂, normalized₂, redBlack₂, sound₂, list₂⟩ :=
    fitting.normalizeDeltaIfNecessary redBlack₁ sound₁
  have same : (n.decoration 0).toInterval = n.interval := by
    simp [IntervalNode.decoration, IntervalNode.interval]
  have perm : T₂.intervals.Perm (n.interval :: T.intervals) := by
    have placed := inserts.perm.map (·.toInterval)
    rw [← list₂, map_cons, same] at placed
    exact placed
  refine ⟨T₂, by simp [IntervalTree.insert, inserted, normalized₂], ?_, perm⟩
  refine Ok.of_perm redBlack₂ sound₂ (list₂ ▸ inserts.sorted ok.sorted) perm ?_ ?_
  · rw [map_cons, nodup_cons]
    refine ⟨fresh, ?_⟩
    rw [IntervalTree.intervals, map_map]
    exact ok.refs
  · intro d member
    obtain rfl | member := mem_cons.mp member
    · exact ordered
    · obtain ⟨e, inTree, rfl⟩ := mem_map.mp member
      exact ok.valid e inTree

theorem filter_ref_ne {first second : List Decoration}
    (nodup : ((first ++ d :: second).map (·.ref)).Nodup) :
    ((first ++ d :: second).map (·.toInterval)).filter (·.ref ≠ d.ref) =
      (first ++ second).map (·.toInterval) := by
  have others : ∀ e ∈ first ++ second, e.ref ≠ d.ref := by
    rw [(perm_middle.map _).nodup_iff, map_cons, nodup_cons] at nodup
    intro e member same
    exact nodup.1 (mem_map.mpr ⟨e, member, same⟩)
  rw [map_append, map_cons, filter_append, filter_cons_of_neg (by simp),
    ← filter_append, ← map_append]
  rw [filter_eq_self]
  intro e member
  obtain ⟨e', inList, rfl⟩ := mem_map.mp member
  simpa using others e' inList

theorem Fitting.delete (fitting : Fitting fits) (ok : Ok fits T)
    (permitted : Permitted fits T (.delete ref)) :
    ∃ T', T.delete ref = some T' ∧ Ok fits T' ∧
      T'.intervals = T.intervals.filter (·.ref ≠ ref) := by
  obtain ⟨i, inTree, rfl⟩ := mem_map.mp permitted
  obtain ⟨d, member, rfl⟩ := mem_map.mp inTree
  obtain ⟨first, second, listed⟩ := append_of_mem member
  obtain ⟨T₁, z, deleted, redBlack₁, sound₁, list₁, -, -⟩ := fitting.rbTreeDelete ok.redBlack
    ok.sound ok.refs listed
  obtain ⟨T₂, normalized₂, redBlack₂, sound₂, list₂⟩ :=
    fitting.normalizeDeltaIfNecessary redBlack₁ sound₁
  rw [list₁] at list₂
  have isSublist : (first ++ second).Sublist (decorations 0 T.root) := by
    rw [listed]
    exact List.Sublist.append_left (sublist_cons_self d second) first
  refine ⟨T₂, by simp [IntervalTree.delete, deleted, normalized₂],
    ⟨redBlack₂, sound₂, ?_, ?_, ?_⟩, ?_⟩
  · rw [list₂]
    exact ok.sorted.sublist isSublist
  · rw [list₂]
    exact ok.refs.sublist (isSublist.map _)
  · intro e inList
    rw [list₂] at inList
    exact ok.valid e (isSublist.subset inList)
  · have nodup := ok.refs
    rw [listed] at nodup
    rw [IntervalTree.intervals, IntervalTree.intervals, list₂, listed]
    exact (filter_ref_ne nodup).symm

/-- Every permitted operation goes through, keeps the invariant and does what the list
does. -/
theorem Fitting.step (fitting : Fitting fits) (upper : ∀ a b, fits a b → b ≤ a)
    {T : IntervalTree} {list : List Interval} {operation : TreeOperation} (ok : Ok fits T)
    (perm : T.intervals.Perm list) (permitted : Permitted fits T operation) :
    ∃ T', T.step operation = some T' ∧ Ok fits T' ∧
      T'.intervals.Perm (listStep list operation) := by
  cases operation with
  | insert n =>
    obtain ⟨T', inserted, ok', perm'⟩ := fitting.insert ok permitted
    exact ⟨T', inserted, ok', perm'.trans (perm.cons _)⟩
  | delete ref =>
    obtain ⟨T', deleted, ok', same⟩ := fitting.delete ok permitted
    refine ⟨T', deleted, ok', ?_⟩
    rw [same]
    exact perm.filter _
  | acceptReplace offset length textLength forceMoveMarkers =>
    obtain ⟨T', replaced, ok', perm'⟩ :=
      fitting.acceptReplace offset length textLength forceMoveMarkers upper ok
    exact ⟨T', replaced, ok', perm'.trans (perm.map _)⟩

/-- The same over permitted runs. -/
theorem Fitting.run (fitting : Fitting fits) (upper : ∀ a b, fits a b → b ≤ a)
    {operations : List TreeOperation}
    (permitted : PermittedRun IntervalTree.step (Permitted fits) .new operations) :
    ∃ T, Simulation.run IntervalTree.step .new operations = some T ∧ Ok fits T ∧
      T.intervals.Perm (operations.foldl listStep []) := by
  have simulates : ∀ T list operation, (Ok fits T ∧ T.intervals.Perm list) →
      Permitted fits T operation → ∃ T', T.step operation = some T' ∧
        Ok fits T' ∧ T'.intervals.Perm (listStep list operation) :=
    fun _ _ _ ⟨ok, perm⟩ permitted => fitting.step upper ok perm permitted
  have start : Ok fits .new ∧ IntervalTree.new.intervals.Perm [] := ⟨ok_new, .refl _⟩
  exact run_simulates simulates start permitted

/-- The tree refines a plain list of decorations, over every run. -/
theorem interval_tree_refines_list (operations : List TreeOperation)
    (permitted : PermittedRun IntervalTree.step (Permitted (· ≥ ·)) .new operations) :
    ∃ T, run IntervalTree.step .new operations = some T ∧
      T.intervals.Perm (operations.foldl listStep []) ∧
      ∃ T', normalizeDelta T = some T' ∧ T'.intervals = T.intervals := by
  obtain ⟨T, reached, ok, perm⟩ := fitting_ge.run (fun _ _ fit => fit) permitted
  obtain ⟨T', normalizedT, -, -, same⟩ := fitting_ge.normalizeDelta ok.redBlack ok.sound
  refine ⟨T, reached, perm, T', normalizedT, ?_⟩
  rw [IntervalTree.intervals, IntervalTree.intervals, same]

/-- Three decorations, an edit at the end of the first, and a deletion. -/
def sampleOperations : List TreeOperation :=
  [.insert (.new 0 "a" 0 5), .insert (.new 1 "b" 1 10), .insert (.new 2 "c" 12 12),
    .acceptReplace 4 2 3 false, .delete 1]

theorem interval_tree_refines_list_sample :
    ∃ T, run IntervalTree.step .new sampleOperations = some T ∧
      T.intervals.Perm (sampleOperations.foldl listStep []) ∧
      ∃ T', normalizeDelta T = some T' ∧ T'.intervals = T.intervals :=
  interval_tree_refines_list sampleOperations (by decide +kernel)

/-!
## The shape of the interval tree

Over runs in which every inserted node has its own end as `maxEnd`, the tree stays
sorted and red-black, every `maxEnd` is the maximum of the ends below it, and no node
stays visited. A node that is inserted again as it was taken out keeps the `maxEnd` of
its former subtree.
-/

/-- The `maxEnd` of every node is the maximum of the ends in its subtree, both relative
to what the offsets of the node are relative to. -/
def MaxEndsExact : Tree → Prop
  | .leaf => True
  | .node l n r =>
    MaxEndsExact l ∧ MaxEndsExact r ∧
      ((decorations 0 (.node l n r)).map (·.stop)).max? = some n.maxEnd

instance decidableMaxEndsExact : ∀ t, Decidable (MaxEndsExact t)
  | .leaf => isTrue trivial
  | .node l _ r =>
    have := decidableMaxEndsExact l
    have := decidableMaxEndsExact r
    inferInstanceAs (Decidable (_ ∧ _ ∧ _))

/-- The shape of an interval tree. -/
structure Shape (T : IntervalTree) : Prop where
  sorted : (decorations 0 T.root).Pairwise Decoration.Le
  redBlack : IsRedBlack rotator.isRed T.root
  maxEnds : MaxEndsExact T.root
  unvisited : Unvisited T.root

/-- Some decoration reaches the maximal end. -/
theorem Sound.stop_eq (sound : Sound (· = ·) t) {maxEnd : Int} (base : Int)
    (top : maxEnd? t = some maxEnd) : ∃ d ∈ decorations base t, d.stop = base + maxEnd := by
  induction t generalizing maxEnd base with
  | leaf => cases top
  | node l n r leftHypothesis rightHypothesis =>
    obtain ⟨left, right, -, exact⟩ := sound
    cases top
    -- the end of the node itself, or the maximal end of one of its children
    have reached : n.maxEnd = n.stop ∨ (∃ e, maxEnd? l = some e ∧ n.maxEnd = e) ∨
        ∃ e, maxEnd? r = some e ∧ n.maxEnd = e + n.delta := by
      rw [exact, computeMaxEnd_eq]
      cases maxEnd? l <;> cases maxEnd? r <;> simp [Decorations.raise] <;> omega
    obtain own | ⟨e, leftTop, same⟩ | ⟨e, rightTop, same⟩ := reached
    · refine ⟨n.decoration base, by simp, ?_⟩
      simp [IntervalNode.decoration, own]
    · obtain ⟨d, member, stop⟩ := leftHypothesis left base leftTop
      exact ⟨d, mem_append_left _ member, by rw [stop, same]⟩
    · obtain ⟨d, member, stop⟩ := rightHypothesis right (base + n.delta) rightTop
      exact ⟨d, mem_append_right _ (mem_cons_of_mem _ member), by omega⟩

theorem Sound.maxEndsExact (sound : Sound (· = ·) t) : MaxEndsExact t := by
  induction t with
  | leaf => trivial
  | node l n r leftHypothesis rightHypothesis =>
    refine ⟨leftHypothesis sound.1, rightHypothesis sound.2.1, ?_⟩
    rw [max?_eq_some_iff]
    constructor
    · obtain ⟨d, member, stop⟩ := sound.stop_eq 0 rfl
      rw [Int.zero_add] at stop
      exact mem_map.mpr ⟨d, member, stop⟩
    · intro e member
      obtain ⟨d, inTree, rfl⟩ := mem_map.mp member
      have small := sound.stop_le (fun _ _ same => Int.le_of_eq same.symm) rfl d inTree
      rwa [Int.zero_add] at small

theorem Ok.shape (ok : Ok (· = ·) T) : Shape T where
  sorted := ok.sorted
  redBlack := ok.redBlack
  maxEnds := ok.sound.maxEndsExact
  unvisited := ok.sound.unvisited

/-- Runs that only insert nodes with their own end as `maxEnd` keep the shape. -/
theorem reachable_shape (operations : List TreeOperation)
    (permitted : PermittedRun IntervalTree.step (Permitted (· = ·)) .new operations) :
    ∃ T, run IntervalTree.step .new operations = some T ∧ Shape T := by
  obtain ⟨T, reached, ok, -⟩ := fitting_eq.run (fun _ _ same => Int.le_of_eq same.symm) permitted
  exact ⟨T, reached, ok.shape⟩

theorem reachable_shape_sample :
    ∃ T, run IntervalTree.step .new sampleOperations = some T ∧ Shape T :=
  reachable_shape sampleOperations (by decide +kernel)

/-- Delete a node and insert it again as it was taken out. -/
def reinsert (T : IntervalTree) (ref : Nat) : Option IntervalTree := do
  let (_, z) ← rbTreeDelete T ref
  run IntervalTree.step T [.delete ref, .insert z]

/-- The leaf `[0, 5]` keeps the `maxEnd` 10 of the subtree it was the root of. -/
theorem reinserted_node_keeps_maxEnd :
    ∃ T T', run IntervalTree.step .new
        [.insert (.new 0 "a" 0 5), .insert (.new 1 "b" 1 10)] = some T ∧
      reinsert T 0 = some T' ∧ ¬ Shape T' := by
  have stale : ((run IntervalTree.step .new
      [.insert (.new 0 "a" 0 5), .insert (.new 1 "b" 1 10)]).any fun T =>
        (reinsert T 0).any fun T' => !decide (MaxEndsExact T'.root)) = true := by
    decide +kernel
  rw [Option.any_eq_true] at stale
  obtain ⟨T, reached, again⟩ := stale
  rw [Option.any_eq_true] at again
  obtain ⟨T', inserted, inexact⟩ := again
  refine ⟨T, T', reached, inserted, ?_⟩
  intro shape
  simp [shape.maxEnds] at inexact

end CodeEditor.Decorations
