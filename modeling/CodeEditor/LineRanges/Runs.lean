import CodeEditor.LineRanges.Merging

/-!
# Line range sets over whole runs

A run starts without any object and goes through calls on the objects that it has created.
The abstract state of a run is the set of lines of each object.
-/

namespace CodeEditor.LineRanges

open Option

/-! ## The meaning of the calls -/

def LineRange.lines (range : LineRange) : Set Int := {line | range.contains line = true}

/-- The lines that the set contains, as the code answers it. -/
def LineRangeSet.members (set : LineRangeSet) : Set Int := {line | set.contains line = true}

/-- The lines of every object. -/
def Heap.members (heap : Heap) : List (Set Int) := heap.map LineRangeSet.members

/-- The call returns an object with these lines, and every object keeps its lines. -/
def Returns (before after : List (Set Int)) (result : Nat) (lines : Set Int) : Prop :=
  after[result]? = some lines ∧ before <+: after

namespace Call

/-- The objects of the call exist, and no empty range is subtracted from. -/
def Fits (heap : Heap) : Call → Prop
  | .empty => True
  | .addRange set _ => set < heap.length
  | .getUnion set other => set < heap.length ∧ other < heap.length
  | .getIntersection set other => set < heap.length ∧ other < heap.length
  | .subtractFrom set range => set < heap.length ∧ ¬range.isEmpty
  | .getWithDelta set _ => set < heap.length

/-- What the call does to the lines of the objects. -/
def Means (before after : List (Set Int)) (result : Nat) : Call → Prop
  | .empty => Returns before after result ∅
  | .addRange set range => ∃ lines, before[set]? = some lines ∧
      after = before.set set (lines ∪ range.lines) ∧ result = set
  | .getUnion set other => ∃ lines, before[set]? = some lines ∧
      ∃ otherLines, before[other]? = some otherLines ∧
        Returns before after result (lines ∪ otherLines)
  | .getIntersection set other => ∃ lines, before[set]? = some lines ∧
      ∃ otherLines, before[other]? = some otherLines ∧
        Returns before after result (lines ∩ otherLines)
  | .subtractFrom set range => ∃ lines, before[set]? = some lines ∧
      Returns before after result (range.lines \ lines)
  | .getWithDelta set value => ∃ lines, before[set]? = some lines ∧
      Returns before after result {line | line - value ∈ lines}

end Call

/-- The heaps of the runs from the empty heap. -/
inductive Reached : Heap → Prop
  | start : Reached []
  | call {heap heap' : Heap} {call : Call} {result : Nat} : Reached heap → call.Fits heap →
      heap.run call = some (heap', result) → Reached heap'

/-! ## One call -/

variable {heap heap' : Heap} {set other : LineRangeSet}

/-- Every object is normalized. -/
def AllNormalized (heap : Heap) : Prop := ∀ set ∈ heap, Normalized set.normalizedRanges

theorem members_eq (normalized : Normalized set.normalizedRanges) {lines : Set Int}
    (covers : ∀ line, Covers set.normalizedRanges line ↔ line ∈ lines) :
    set.members = lines := by
  ext line
  exact (LineRangeSet.contains_iff normalized).trans (covers line)

theorem mem_members (normalized : Normalized set.normalizedRanges) {line : Int} :
    line ∈ set.members ↔ Covers set.normalizedRanges line :=
  LineRangeSet.contains_iff normalized

/-- The outcome of a call: normalized objects, and the meaning of the call. -/
def Outcome (heap : Heap) (call : Call) (done : Option (Heap × Nat)) : Prop :=
  ∃ heap' result, done = some (heap', result) ∧ AllNormalized heap' ∧
    call.Means heap.members heap'.members result

theorem AllNormalized.alloc (all : AllNormalized heap)
    (normalized : Normalized set.normalizedRanges) :
    AllNormalized (heap.alloc set).1 := by
  intro other isMember
  rcases List.mem_append.mp isMember with isOld | isNew
  · exact all other isOld
  · rwa [List.mem_singleton.mp isNew]

theorem returns_alloc (heap : Heap) (set : LineRangeSet) :
    Returns heap.members (heap.alloc set).1.members (heap.alloc set).2 set.members := by
  constructor
  · simp [Heap.members, Heap.alloc]
  · simp [Heap.members, Heap.alloc]

/-- A call returns a new object for the lines that it covers. -/
theorem returns_of_covers {lines : Set Int} (normalized : Normalized set.normalizedRanges)
    (covers : ∀ line, Covers set.normalizedRanges line ↔ line ∈ lines) :
    Returns heap.members (heap.alloc set).1.members (heap.alloc set).2 lines :=
  members_eq normalized covers ▸ returns_alloc heap set

variable {index : Nat}

theorem getElem?_members (isHere : heap[index]? = some set) :
    heap.members[index]? = some set.members := by
  rw [Heap.members, List.getElem?_map, isHere]
  rfl

theorem AllNormalized.get (all : AllNormalized heap) (isHere : heap[index]? = some set) :
    Normalized set.normalizedRanges :=
  all set (List.mem_of_getElem? isHere)

theorem exists_object (inside : index < heap.length) : ∃ set, heap[index]? = some set :=
  ⟨heap[index], List.getElem?_eq_getElem inside⟩

theorem outcome_addRange (all : AllNormalized heap) (inside : index < heap.length)
    (range : LineRange) :
    Outcome heap (.addRange index range) (heap.run (.addRange index range)) := by
  obtain ⟨set, isHere⟩ := exists_object inside
  have normalized := all.get isHere
  obtain ⟨changed, adds, isNormalized, covers⟩ := LineRangeSet.addRange_spec normalized range
  refine ⟨heap.set index changed, index, ?_, ?_, set.members, getElem?_members isHere, ?_, rfl⟩
  · simp [Heap.run, isHere, adds]
  · intro other isMember
    rcases List.mem_or_eq_of_mem_set isMember with isOld | rfl
    · exact all other isOld
    · exact isNormalized
  · rw [Heap.members, List.map_set]
    congr 1
    apply members_eq isNormalized
    intro line
    rw [covers, Set.mem_union, mem_members normalized]
    rfl

/-- A set without ranges has no lines. -/
theorem members_of_empty (empty : set.normalizedRanges.length = 0) : set.members = ∅ := by
  have noRanges := List.length_eq_zero_iff.mp empty
  apply members_eq (by rw [noRanges]; exact normalized_nil)
  intro line
  simp [noRanges]

section

variable (all : AllNormalized heap) {index otherIndex : Nat} (inside : index < heap.length)

include all inside

theorem outcome_getUnion (otherInside : otherIndex < heap.length) :
    Outcome heap (.getUnion index otherIndex) (heap.run (.getUnion index otherIndex)) := by
  obtain ⟨set, isHere⟩ := exists_object inside
  obtain ⟨other, isThere⟩ := exists_object otherInside
  by_cases empty : set.normalizedRanges.length = 0
  · refine ⟨heap, otherIndex, ?_, all, _, getElem?_members isHere, _, getElem?_members isThere,
      ?_, List.prefix_rfl⟩
    · simp only [Heap.run, Heap.getUnion, isHere, isThere, bind_eq_bind, bind_some, if_pos empty]
    · rw [members_of_empty empty, Set.empty_union, getElem?_members isThere]
  · by_cases otherEmpty : other.normalizedRanges.length = 0
    · refine ⟨heap, index, ?_, all, _, getElem?_members isHere, _, getElem?_members isThere,
        ?_, List.prefix_rfl⟩
      · simp only [Heap.run, Heap.getUnion, isHere, isThere, bind_eq_bind,
          bind_some, if_neg empty, if_pos otherEmpty]
      · rw [members_of_empty otherEmpty, Set.union_empty, getElem?_members isHere]
    · obtain ⟨isNormalized, covers⟩ :=
        LineRangeSet.unionOf_spec (all.get isHere) (all.get isThere)
      refine ⟨(heap.alloc (set.unionOf other)).1, (heap.alloc (set.unionOf other)).2, ?_,
        all.alloc isNormalized, _, getElem?_members isHere, _, getElem?_members isThere, ?_⟩
      · simp only [Heap.run, Heap.getUnion, isHere, isThere, bind_eq_bind,
          bind_some, if_neg empty, if_neg otherEmpty]
      · apply returns_of_covers isNormalized
        intro line
        rw [covers, Set.mem_union, mem_members (all.get isHere), mem_members (all.get isThere)]

theorem outcome_getIntersection (otherInside : otherIndex < heap.length) :
    Outcome heap (.getIntersection index otherIndex)
      (heap.run (.getIntersection index otherIndex)) := by
  obtain ⟨set, isHere⟩ := exists_object inside
  obtain ⟨other, isThere⟩ := exists_object otherInside
  obtain ⟨isNormalized, covers⟩ :=
    LineRangeSet.getIntersection_spec (all.get isHere) (all.get isThere)
  refine ⟨(heap.alloc (set.getIntersection other)).1, (heap.alloc (set.getIntersection other)).2,
    ?_, all.alloc isNormalized, _, getElem?_members isHere, _, getElem?_members isThere, ?_⟩
  · simp [Heap.run, isHere, isThere]
  · apply returns_of_covers isNormalized
    intro line
    rw [covers, Set.mem_inter_iff, mem_members (all.get isHere), mem_members (all.get isThere)]

theorem outcome_subtractFrom {range : LineRange} (notEmpty : ¬range.isEmpty) :
    Outcome heap (.subtractFrom index range) (heap.run (.subtractFrom index range)) := by
  obtain ⟨set, isHere⟩ := exists_object inside
  have proper : Proper range := by
    have different : ¬range.startLineNumber = range.endLineNumberExclusive := by
      simpa [LineRange.isEmpty] using notEmpty
    have := range.ordered
    unfold Proper
    omega
  obtain ⟨isNormalized, covers⟩ := LineRangeSet.subtractFrom_spec (all.get isHere) proper
  refine ⟨(heap.alloc (set.subtractFrom range)).1, (heap.alloc (set.subtractFrom range)).2,
    ?_, all.alloc isNormalized, _, getElem?_members isHere, ?_⟩
  · simp [Heap.run, isHere]
  · apply returns_of_covers isNormalized
    intro line
    rw [covers, Set.mem_sdiff, mem_members (all.get isHere)]
    rfl

theorem outcome_getWithDelta (value : Int) :
    Outcome heap (.getWithDelta index value) (heap.run (.getWithDelta index value)) := by
  obtain ⟨set, isHere⟩ := exists_object inside
  obtain ⟨isNormalized, covers⟩ := LineRangeSet.getWithDelta_spec (all.get isHere) value
  refine ⟨(heap.alloc (set.getWithDelta value)).1, (heap.alloc (set.getWithDelta value)).2,
    ?_, all.alloc isNormalized, _, getElem?_members isHere, ?_⟩
  · simp [Heap.run, isHere]
  · apply returns_of_covers isNormalized
    intro line
    rw [covers, Set.mem_ofPred_eq, mem_members (all.get isHere)]

end

/-- Each call returns, keeps the objects normalized and does what it means. -/
theorem outcome (all : AllNormalized heap) {call : Call} (fits : call.Fits heap) :
    Outcome heap call (heap.run call) := by
  cases call with
  | empty =>
    refine ⟨_, _, rfl, all.alloc normalized_nil, ?_⟩
    have lines : (⟨[]⟩ : LineRangeSet).members = ∅ := members_of_empty rfl
    unfold Call.Means
    rw [← lines]
    exact returns_alloc heap _
  | addRange set range => exact outcome_addRange all fits range
  | getUnion set other => exact outcome_getUnion all fits.1 fits.2
  | getIntersection set other => exact outcome_getIntersection all fits.1 fits.2
  | subtractFrom set range => exact outcome_subtractFrom all fits.1 fits.2
  | getWithDelta set value => exact outcome_getWithDelta all fits value

/-! ## Runs -/

theorem Reached.allNormalized (reached : Reached heap) : AllNormalized heap := by
  induction reached with
  | start => simp [AllNormalized]
  | call reached fits runs ih =>
    obtain ⟨heap', result, runs', all, _⟩ := outcome ih fits
    obtain ⟨rfl, rfl⟩ := Prod.mk.inj (Option.some.inj (runs.symm.trans runs'))
    exact all

/-- A range intersects the set where one of its lines is in the set, or where it is empty and
stands between two lines of the set. -/
theorem intersects_iff_members (normalized : Normalized set.normalizedRanges) (range : LineRange) :
    set.intersects range = true ↔ (∃ line ∈ range.lines, line ∈ set.members) ∨
      (range.isEmpty ∧ range.startLineNumber - 1 ∈ set.members ∧
        range.startLineNumber ∈ set.members) := by
  simp only [LineRangeSet.intersects_iff normalized, mem_members normalized, LineRange.lines,
    Set.mem_ofPred_eq, LineRange.contains_iff]
  have := range.ordered
  constructor
  · rintro ⟨r, isMember, starts, ends⟩
    by_cases empty : range.startLineNumber = range.endLineNumberExclusive
    · refine Or.inr ⟨decide_eq_true empty, ⟨r, isMember, by omega, by omega⟩, ?_⟩
      exact ⟨r, isMember, by omega, by omega⟩
    · refine Or.inl ⟨max range.startLineNumber r.startLineNumber, ?_, r, isMember, ?_⟩
      · exact ⟨le_max_left _ _, max_lt (by omega) starts⟩
      · exact ⟨le_max_right _ _, max_lt ends (normalized.proper r isMember)⟩
  · rintro (⟨line, inside, r, isMember, starts, ends⟩ | ⟨empty, ⟨r, isMember, starts, ends⟩,
      r', isMember', starts', ends'⟩)
    · exact ⟨r, isMember, by omega, by omega⟩
    · have empty := of_decide_eq_true empty
      -- Two ranges that are apart do not have two lines beside each other.
      by_cases ends'' : range.startLineNumber < r.endLineNumberExclusive
      · exact ⟨r, isMember, by omega, ends''⟩
      · have apart := normalized.apart_or_apart isMember isMember' fun same => by
          subst same
          exact ends'' ends'
        unfold Apart at apart
        omega

/-- In every run the objects stay normalized, every call returns and does to the lines what
it means, and a set intersects a range exactly where they share a line, or where the range is
empty between two lines of the set. -/
theorem Reached.faithful (reached : Reached heap) :
    (∀ set ∈ heap, Normalized set.normalizedRanges) ∧
      (∀ call, call.Fits heap → ∃ heap' result, heap.run call = some (heap', result) ∧
        call.Means heap.members heap'.members result) ∧
      ∀ set ∈ heap, ∀ range : LineRange, set.intersects range = true ↔
        (∃ line ∈ range.lines, line ∈ set.members) ∨
          (range.isEmpty ∧ range.startLineNumber - 1 ∈ set.members ∧
            range.startLineNumber ∈ set.members) := by
  have all := reached.allNormalized
  refine ⟨all, fun call fits => ?_, fun set isMember range => ?_⟩
  · obtain ⟨heap', result, runs, _, means⟩ := outcome all fits
    exact ⟨heap', result, runs, means⟩
  · exact intersects_iff_members (all set isMember) range

/-- The lines 3 to 7. -/
def threeToSeven : LineRange := ⟨3, 8, by decide⟩

/-- The empty range in front of line 5. -/
def beforeFive : LineRange := ⟨5, 5, by decide⟩

theorem reached_threeToSeven : Reached [⟨[threeToSeven]⟩] := by
  have created : Reached [⟨[]⟩] :=
    @Reached.call [] [⟨[]⟩] .empty 0 .start trivial rfl
  refine @Reached.call [⟨[]⟩] _ (.addRange 0 threeToSeven) 0 created (by simp [Call.Fits]) ?_
  have search : findIdxBehindLast ([] : List LineRange)
      (fun r => decide (r.startLineNumber ≤ threeToSeven.endLineNumberExclusive)) 0 0 = 0 := by
    rw [findIdxBehindLast, if_neg (lt_irrefl 0)]
  have search' : findIdxOfFirst ([] : List LineRange)
      (fun r => decide (r.endLineNumberExclusive ≥ threeToSeven.startLineNumber)) 0 0 = 0 := by
    rw [findIdxOfFirst, if_neg (lt_irrefl 0)]
  simp [Heap.run, LineRangeSet.addRange, LineRangeSet.joinRangeStartIdx,
    LineRangeSet.joinRangeEndIdxExclusive, findLastIdxMonotonous,
    findFirstIdxMonotonousOrArrLen, search, search', LineRangeSet.spliceRange]
  decide

/-- The set of the lines 3 to 7 in a run. -/
theorem faithful_threeToSeven :
    (∀ set ∈ ([⟨[threeToSeven]⟩] : Heap), Normalized set.normalizedRanges) ∧
      (∀ call, call.Fits [⟨[threeToSeven]⟩] →
        ∃ heap' result, Heap.run [⟨[threeToSeven]⟩] call = some (heap', result) ∧
          call.Means (Heap.members [⟨[threeToSeven]⟩]) heap'.members result) ∧
      ∀ set ∈ ([⟨[threeToSeven]⟩] : Heap), ∀ range : LineRange, set.intersects range = true ↔
        (∃ line ∈ range.lines, line ∈ set.members) ∨
          (range.isEmpty ∧ range.startLineNumber - 1 ∈ set.members ∧
            range.startLineNumber ∈ set.members) :=
  reached_threeToSeven.faithful

/-- An empty range inside a stored range intersects the set without having a line. -/
theorem intersects_emptyRange :
    ¬∀ heap, Reached heap → ∀ set ∈ heap, ∀ range : LineRange,
      (set.intersects range = true ↔
        ∃ line, range.contains line = true ∧ set.contains line = true) := by
  intro claim
  have normalized : Normalized [threeToSeven] :=
    normalized_singleton (by simp [Proper, threeToSeven])
  have intersects : LineRangeSet.intersects ⟨[threeToSeven]⟩ beforeFive = true :=
    (LineRangeSet.intersects_iff normalized).mpr ⟨threeToSeven, by simp, by decide, by decide⟩
  obtain ⟨line, inside, _⟩ :=
    (claim _ reached_threeToSeven ⟨[threeToSeven]⟩ (by simp) beforeFive).mp intersects
  obtain ⟨starts, ends⟩ := LineRange.contains_iff.mp inside
  exact absurd (starts.trans_lt ends) (by decide)

end CodeEditor.LineRanges
