import CodeEditor.MergeEditor.Mapping
import CodeEditor.Foundation.Patch

/-!
# Aligning two diffs

A diff is described by the places in front of and behind its mappings: unchanged lines
move by the difference between the two sides of a place. Every alignment starts and
ends at such places of both diffs.
-/

namespace CodeEditor.MergeEditor

open Bool

open List hiding range

/-! ## Places between mappings -/

/-- A line number of the input and the line number that it has in the output. -/
structure Place where
  input : Int
  output : Int

/-- How far unchanged lines move. -/
def Place.delta (place : Place) : Int := place.output - place.input

namespace LineRangeMapping

/-- The place in front of a mapping. -/
def front (m : LineRangeMapping) : Place :=
  ⟨m.inputRange.startLineNumber, m.outputRange.startLineNumber⟩

/-- The place behind a mapping. -/
def back (m : LineRangeMapping) : Place :=
  ⟨m.inputRange.endLineNumberExclusive, m.outputRange.endLineNumberExclusive⟩

end LineRangeMapping

/-- The place behind the last mapping. -/
def lastPlace (place : Place) (mappings : List LineRangeMapping) : Place :=
  mappings.foldl (fun _ m => m.back) place

/-- Mappings from left to right with the same gap on both sides, from a place on. -/
def Gapped : Place → List LineRangeMapping → Prop
  | _, [] => True
  | place, m :: mappings =>
    place.input ≤ m.front.input ∧
      m.front.input - place.input = m.front.output - place.output ∧ Gapped m.back mappings

instance decidableGapped : ∀ place mappings, Decidable (Gapped place mappings)
  | _, [] => isTrue trivial
  | _, m :: mappings =>
    have := decidableGapped m.back mappings
    inferInstanceAs (Decidable (_ ∧ _ ∧ _))

@[simp] theorem lastPlace_nil (place : Place) : lastPlace place [] = place := rfl

@[simp] theorem lastPlace_cons (place : Place) (m : LineRangeMapping)
    (mappings : List LineRangeMapping) :
    lastPlace place (m :: mappings) = lastPlace m.back mappings := rfl

theorem lastPlace_append (place : Place) (first second : List LineRangeMapping) :
    lastPlace place (first ++ second) = lastPlace (lastPlace place first) second :=
  foldl_append

theorem gapped_append {first second : List LineRangeMapping} :
    Gapped place (first ++ second) ↔ Gapped place first ∧
      Gapped (lastPlace place first) second := by
  induction first generalizing place with
  | nil => simp [Gapped]
  | cons m first ih =>
    simp only [cons_append, Gapped, lastPlace_cons, ih]
    tauto

theorem LineRangeMapping.front_input_le_back (m : LineRangeMapping) :
    m.front.input ≤ m.back.input := by
  have nonneg := m.inputRange.nonneg
  simp only [LineRangeMapping.front, LineRangeMapping.back, LineRange.endLineNumberExclusive]
  omega

theorem LineRangeMapping.front_output_le_back (m : LineRangeMapping) :
    m.front.output ≤ m.back.output := by
  have nonneg := m.outputRange.nonneg
  simp only [LineRangeMapping.front, LineRangeMapping.back, LineRange.endLineNumberExclusive]
  omega

section

variable (gapped : Gapped place mappings)

include gapped

theorem Gapped.le_of_mem : ∀ m ∈ mappings, place.input ≤ m.front.input := by
  induction mappings generalizing place with
  | nil => simp
  | cons m mappings ih =>
    intro other member
    have order := m.front_input_le_back
    have start := gapped.1
    obtain rfl | member := mem_cons.mp member
    · exact start
    · have later := ih gapped.2.2 other member
      omega

theorem Gapped.pairwise : mappings.Pairwise fun a b => a.front.input ≤ b.front.input := by
  induction mappings generalizing place with
  | nil => exact .nil
  | cons m mappings ih =>
    rw [pairwise_cons]
    refine ⟨?_, ih gapped.2.2⟩
    intro other member
    have order := m.front_input_le_back
    have later := gapped.2.2.le_of_mem other member
    omega

theorem Gapped.le_lastPlace : place.input ≤ (lastPlace place mappings).input ∧
      place.output ≤ (lastPlace place mappings).output := by
  induction mappings generalizing place with
  | nil => simp
  | cons m mappings ih =>
    have later := ih gapped.2.2
    have input := m.front_input_le_back
    have output := m.front_output_le_back
    have start := gapped.1
    have same := gapped.2.1
    rw [lastPlace_cons]
    omega

theorem Gapped.back_le_lastPlace :
    ∀ m ∈ mappings, m.back.input ≤ (lastPlace place mappings).input := by
  induction mappings generalizing place with
  | nil => simp
  | cons m mappings ih =>
    intro other member
    obtain rfl | member := mem_cons.mp member
    · exact gapped.2.2.le_lastPlace.1
    · exact ih gapped.2.2 other member

end

theorem outputLineCount_eq (mappings : List LineRangeMapping) (inputLineCount : Int) :
    outputLineCount mappings inputLineCount =
      inputLineCount + (lastPlace ⟨1, 1⟩ mappings).delta := by
  unfold outputLineCount
  obtain rfl | ⟨mappings, last, rfl⟩ := eq_nil_or_concat mappings
  · simp [Place.delta]
  · simp [lastPlace_append, Place.delta, LineRangeMapping.back,
      LineRangeMapping.resultingDeltaFromOriginalToModified]

/-! ## Joining and extending -/

namespace LineRange

theorem new_eq {startLineNumber lineCount : Int} (nonneg : 0 ≤ lineCount) :
    LineRange.new startLineNumber lineCount = some ⟨startLineNumber, lineCount, nonneg⟩ :=
  dif_pos nonneg

/-- Joining a range that starts later. -/
theorem join_spec {range other : LineRange}
    (later : range.startLineNumber ≤ other.startLineNumber) :
    ∃ joined, range.join other = some joined ∧ joined.startLineNumber = range.startLineNumber ∧
      joined.endLineNumberExclusive =
        max range.endLineNumberExclusive other.endLineNumberExclusive := by
  have nonneg := range.nonneg
  refine ⟨_, new_eq ?_, ?_, ?_⟩
  · simp only [endLineNumberExclusive]
    omega
  · simp only
    omega
  · simp only [endLineNumberExclusive]
    omega

end LineRange

/-- Joining gapped mappings gives the mapping from the first to the last place. -/
theorem joinAll_spec {first : LineRangeMapping} (gapped : Gapped first.back rest) :
    ∃ joined, LineRangeMapping.joinAll first rest = some joined ∧
      joined.front = first.front ∧ joined.back = lastPlace first.back rest := by
  induction rest generalizing first with
  | nil => exact ⟨first, rfl, rfl, rfl⟩
  | cons m rest ih =>
    obtain ⟨start, same, later⟩ := gapped
    have inputOrder := first.front_input_le_back
    have outputOrder := first.front_output_le_back
    have inputLast := m.front_input_le_back
    have outputLast := m.front_output_le_back
    simp only [LineRangeMapping.front, LineRangeMapping.back] at *
    obtain ⟨input, joinsInput, inputStart, inputEnd⟩ :=
      @LineRange.join_spec first.inputRange m.inputRange (by omega)
    obtain ⟨output, joinsOutput, outputStart, outputEnd⟩ :=
      @LineRange.join_spec first.outputRange m.outputRange (by omega)
    rw [Int.max_eq_right (by omega)] at inputEnd outputEnd
    obtain ⟨joined, joins, front, back⟩ := @ih ⟨input, output⟩
      (by rw [inputEnd, outputEnd]; exact later)
    refine ⟨joined, ?_, ?_, ?_⟩
    · rw [LineRangeMapping.joinAll, foldlM_cons, LineRangeMapping.join, joinsInput, joinsOutput]
      exact joins
    · rw [front, inputStart, outputStart]
    · rw [back, inputEnd, outputEnd]
      rfl

theorem extendInputRange_spec {m : LineRangeMapping} {range : LineRange}
    (contains : range.containsRange m.inputRange = true) :
    ∃ extended, m.extendInputRange range = some extended ∧
      extended.outputRange.startLineNumber = range.startLineNumber + m.front.delta ∧
      extended.outputRange.endLineNumberExclusive =
        range.endLineNumberExclusive + m.back.delta := by
  have nonneg := m.outputRange.nonneg
  have bounds := contains
  simp only [LineRange.containsRange, Bool.and_eq_true, decide_eq_true_eq] at bounds
  rw [LineRangeMapping.extendInputRange]
  simp only [contains, Bool.not_true, Bool.false_eq_true, if_false]
  rw [LineRange.new_eq (by omega)]
  refine ⟨_, rfl, ?_, ?_⟩
  · simp only [Place.delta, LineRangeMapping.front]
    omega
  · simp only [Place.delta, LineRangeMapping.back, LineRange.endLineNumberExclusive]
    omega

/-! ## The sweep -/

section Sweep

variable {T : Type} {mapping : T → LineRangeMapping}

/-- What is right about the current group of one output: `place` is behind the mappings
of earlier groups. -/
structure GroupOk (mapping : T → LineRangeMapping) (gathered : Gathered T) (range : LineRange)
    (source : Source) (place : Place) : Prop where
  gapped : Gapped place ((gathered.currentDiffs source).map mapping)
  delta : gathered.deltaFromBaseToInput source =
    (lastPlace place ((gathered.currentDiffs source).map mapping)).delta
  contains : ∀ m ∈ gathered.currentDiffs source, range.containsRange (mapping m).inputRange

theorem contains_joined {range : LineRange} {first joined : LineRangeMapping}
    (front : joined.front = first.front) (back : joined.back = lastPlace first.back rest)
    (contains : ∀ m ∈ first :: rest, range.containsRange m.inputRange) :
    range.containsRange joined.inputRange := by
  obtain ⟨last, member, isLast⟩ : ∃ last ∈ first :: rest, joined.back = last.back := by
    obtain rfl | ⟨rest, last, rfl⟩ := eq_nil_or_concat rest
    · exact ⟨first, by simp, back⟩
    · refine ⟨last, by simp, ?_⟩
      rw [back, concat_eq_append, lastPlace_append]
      rfl
  have atFirst := contains first (by simp)
  have atLast := contains last member
  simp only [LineRange.containsRange, and_eq_true, decide_eq_true_eq] at atFirst atLast ⊢
  simp only [LineRangeMapping.front, LineRangeMapping.back, Place.mk.injEq] at front isLast
  omega

/-- The output range of a group reaches from the place in front of it to the place behind
it. -/
theorem GroupOk.groupOutput (ok : GroupOk mapping gathered range source place) :
    ∃ output, groupOutput mapping gathered range source = some output ∧
      output.startLineNumber = range.startLineNumber + place.delta ∧
      output.endLineNumberExclusive = range.endLineNumberExclusive +
        (lastPlace place ((gathered.currentDiffs source).map mapping)).delta := by
  obtain ⟨gapped, delta, contains⟩ := ok
  unfold MergeEditor.groupOutput
  cases diffs : gathered.currentDiffs source with
  | nil =>
    rw [diffs] at delta
    simp only [map_nil, lastPlace_nil] at delta ⊢
    obtain ⟨extended, extends', start, stop⟩ := @extendInputRange_spec
      ⟨range, range.delta (gathered.deltaFromBaseToInput source)⟩ range
      (by simp [LineRange.containsRange])
    refine ⟨extended.outputRange, by simp [extends'], ?_, ?_⟩
    · rw [start]
      simp only [Place.delta, LineRangeMapping.front, LineRange.delta] at delta ⊢
      omega
    · rw [stop]
      simp only [Place.delta, LineRangeMapping.back, LineRange.delta,
        LineRange.endLineNumberExclusive] at delta ⊢
      omega
  | cons m diffs' =>
    rw [diffs] at gapped contains
    simp only [map_cons] at gapped ⊢
    obtain ⟨joined, joins, front, back⟩ := joinAll_spec gapped.2.2
    have inRange : range.containsRange joined.inputRange := by
      apply contains_joined front back
      intro other member
      rw [← map_cons, mem_map] at member
      obtain ⟨diff, inGroup, rfl⟩ := member
      exact contains diff inGroup
    obtain ⟨extended, extends', start, stop⟩ := extendInputRange_spec inRange
    refine ⟨extended.outputRange, by simp [joins, extends'], ?_, ?_⟩
    · have same := gapped.2.1
      rw [start, front]
      simp only [Place.delta] at same ⊢
      omega
    · rw [stop, back, lastPlace_cons]

/-- The diffs of one output. -/
def sourceDiffs (source : Source) (diffs : List (Source × T)) : List T :=
  (diffs.filter (·.1 = source)).map (·.2)

theorem sourceDiffs_cons (source s : Source) (diff : T) (diffs : List (Source × T)) :
    sourceDiffs source ((s, diff) :: diffs) =
      if source = s then diff :: sourceDiffs source diffs else sourceDiffs source diffs := by
  unfold sourceDiffs
  by_cases same : s = source
  · simp [same]
  · have other : source ≠ s := fun isS => same isS.symm
    simp [same, other]

/-- The first mapping of a group comes behind all mappings of earlier groups. -/
theorem GroupOk.reset (ok : GroupOk mapping gathered range source place) (range' : LineRange) :
    GroupOk mapping gathered.reset range' source
      (lastPlace place ((gathered.currentDiffs source).map mapping)) where
  gapped := trivial
  delta := ok.delta
  contains := by simp [Gathered.reset]

theorem GroupOk.add {gathered : Gathered T} {range range' : LineRange} {source s : Source}
    {place : Place} {diff : T} {diffs : List (Source × T)}
    (ok : GroupOk mapping gathered range source place)
    (gapped : Gapped (lastPlace place ((gathered.currentDiffs source).map mapping))
      ((sourceDiffs source ((s, diff) :: diffs)).map mapping))
    (wider : ∀ m ∈ gathered.currentDiffs source, range'.containsRange (mapping m).inputRange)
    (contains : range'.containsRange (mapping diff).inputRange) :
    GroupOk mapping (gathered.add mapping s diff) range' source place ∧
      Gapped (lastPlace place (((gathered.add mapping s diff).currentDiffs source).map mapping))
        ((sourceDiffs source diffs).map mapping) := by
  rw [sourceDiffs_cons] at gapped
  by_cases same : source = s
  · rw [if_pos same, map_cons] at gapped
    refine ⟨⟨?_, ?_, ?_⟩, ?_⟩
    · simp only [Gathered.add, if_pos same, map_append]
      rw [gapped_append]
      exact ⟨ok.gapped, gapped.1, gapped.2.1, trivial⟩
    · simp only [Gathered.add, if_pos same, map_append, lastPlace_append]
      rfl
    · intro m member
      simp only [Gathered.add, if_pos same, mem_append, mem_singleton] at member
      obtain old | rfl := member
      · exact wider m old
      · exact contains
    · simp only [Gathered.add, if_pos same, map_append, lastPlace_append]
      exact gapped.2.2
  · rw [if_neg same] at gapped
    refine ⟨⟨?_, ?_, ?_⟩, ?_⟩
    · simp only [Gathered.add, if_neg same]
      exact ok.gapped
    · simp only [Gathered.add, if_neg same]
      exact ok.delta
    · simp only [Gathered.add, if_neg same]
      exact wider
    · simp only [Gathered.add, if_neg same]
      exact gapped

/-- The alignments go from place to place of the diff of one output. -/
def Follows (mapping : T → LineRangeMapping) (source : Source) :
    Place → List (MappingAlignment T) → Prop
  | _, [] => True
  | place, a :: alignments =>
    (∀ m ∈ a.outputLineMappings source, a.inputRange.containsRange (mapping m).inputRange) ∧
      (a.outputRange source).startLineNumber =
        a.inputRange.startLineNumber + place.delta ∧
      (a.outputRange source).endLineNumberExclusive = a.inputRange.endLineNumberExclusive +
        (lastPlace place ((a.outputLineMappings source).map mapping)).delta ∧
      Follows mapping source (lastPlace place ((a.outputLineMappings source).map mapping))
        alignments

/-- There is a line between the two alignments. -/
def Separated (a b : MappingAlignment T) : Prop :=
  a.inputRange.endLineNumberExclusive < b.inputRange.startLineNumber

/-- The alignment of a group, in front of the alignments of later groups. -/
theorem pushed_spec {place : Source → Place}
    (ok : ∀ s, GroupOk mapping gathered range s (place s)) :
    ∃ a, pushed mapping gathered range = some a ∧ a.inputRange = range ∧
      (∀ s, a.outputLineMappings s = gathered.currentDiffs s) ∧
      ∀ s alignments, Follows mapping s
          (lastPlace (place s) ((gathered.currentDiffs s).map mapping)) alignments →
        Follows mapping s (place s) (a :: alignments) := by
  obtain ⟨output1, isOutput1, start1, end1⟩ := (ok .output1).groupOutput
  obtain ⟨output2, isOutput2, start2, end2⟩ := (ok .output2).groupOutput
  refine ⟨_, by simp [pushed, isOutput1, isOutput2]; rfl, rfl, ?_, ?_⟩
  · intro s
    cases s <;> rfl
  · intro s alignments follows
    cases s with
    | output1 => exact ⟨(ok .output1).contains, start1, end1, follows⟩
    | output2 => exact ⟨(ok .output2).contains, start2, end2, follows⟩

theorem touches_iff {current range : LineRange}
    (later : current.startLineNumber ≤ range.startLineNumber) :
    current.touches range ↔ range.startLineNumber ≤ current.endLineNumberExclusive := by
  have nonneg := range.nonneg
  simp only [LineRange.touches, and_eq_true, decide_eq_true_eq, ge_iff_le,
    LineRange.endLineNumberExclusive]
  omega

theorem alignLoop_spec {place : Source → Place}
    (ok : ∀ s, GroupOk mapping gathered current s (place s))
    (gapped : ∀ s, Gapped (lastPlace (place s) ((gathered.currentDiffs s).map mapping))
      ((sourceDiffs s diffs).map mapping))
    (sorted : diffs.Pairwise fun a b => (mapping a.2).inputRange.startLineNumber ≤
      (mapping b.2).inputRange.startLineNumber)
    (later : ∀ d ∈ diffs, current.startLineNumber ≤ (mapping d.2).inputRange.startLineNumber) :
    ∃ alignments, alignLoop mapping diffs gathered (some current) = some alignments ∧
      (∀ s, Follows mapping s (place s) alignments) ∧
      (∀ s, alignments.flatMap (·.outputLineMappings s) =
        gathered.currentDiffs s ++ sourceDiffs s diffs) ∧
      alignments.Pairwise Separated ∧
      (∀ a ∈ alignments, current.startLineNumber ≤ a.inputRange.startLineNumber) ∧
      ∀ bound, current.endLineNumberExclusive ≤ bound →
        (∀ d ∈ diffs, (mapping d.2).inputRange.endLineNumberExclusive ≤ bound) →
        ∀ a ∈ alignments, a.inputRange.endLineNumberExclusive ≤ bound := by
  induction diffs generalizing gathered current place with
  | nil =>
    obtain ⟨a, isPushed, range, mappings, follows⟩ := pushed_spec ok
    refine ⟨[a], by simp [alignLoop, isPushed], fun s => follows s [] trivial, ?_, by simp,
      by simp [range], ?_⟩
    · intro s
      simp [mappings, sourceDiffs]
    · intro bound ends _
      simpa [range] using ends
  | cons entry diffs ih =>
    obtain ⟨source, diff⟩ := entry
    rw [pairwise_cons] at sorted
    have first := later (source, diff) (by simp)
    simp only at first
    rw [alignLoop]
    by_cases touches : current.touches (mapping diff).inputRange
    · simp only [touches, if_true]
      obtain ⟨joined, joins, start, stop⟩ := LineRange.join_spec first
      have wider : ∀ range : LineRange, current.containsRange range →
          joined.containsRange range := by
        intro range inside
        simp only [LineRange.containsRange, and_eq_true, decide_eq_true_eq] at inside ⊢
        omega
      have contains : joined.containsRange (mapping diff).inputRange := by
        simp only [LineRange.containsRange, and_eq_true, decide_eq_true_eq]
        omega
      have added := fun s => (ok s).add (gapped s)
        (fun m member => wider _ ((ok s).contains m member)) contains
      obtain ⟨alignments, aligned, follows, mappings, separated, starts, ends⟩ :=
        ih (fun s => (added s).1) (fun s => (added s).2) sorted.2
          (fun d member => by rw [start]; exact later d (mem_cons_of_mem _ member))
      refine ⟨alignments, by simp [joins, aligned], follows, ?_, separated, ?_, ?_⟩
      · intro s
        rw [mappings, sourceDiffs_cons]
        by_cases same : s = source
        · simp [Gathered.add, same]
        · simp [Gathered.add, same]
      · intro a member
        have bound := starts a member
        omega
      · intro bound upTo bounded
        have own : (mapping diff).inputRange.endLineNumberExclusive ≤ bound :=
          bounded (source, diff) (by simp)
        exact ends bound (by omega) fun d member => bounded d (mem_cons_of_mem _ member)
    · simp only [touches, false_eq_true, if_false]
      rw [touches_iff first] at touches
      obtain ⟨a, isPushed, range, mappingsOfA, followsA⟩ := pushed_spec ok
      have added := fun s => ((ok s).reset (mapping diff).inputRange).add
        (gapped s) (by simp [Gathered.reset])
        (show (mapping diff).inputRange.containsRange (mapping diff).inputRange = true by
          simp [LineRange.containsRange])
      obtain ⟨alignments, aligned, follows, mappings, separated, starts, ends⟩ :=
        ih (fun s => (added s).1) (fun s => (added s).2) sorted.2
          (fun d member => sorted.1 d member)
      refine ⟨a :: alignments, by simp [isPushed, aligned],
        fun s => followsA s alignments (follows s), ?_, ?_, ?_, ?_⟩
      · intro s
        rw [flatMap_cons, mappings, mappingsOfA, sourceDiffs_cons]
        by_cases same : s = source
        · simp [Gathered.add, Gathered.reset, same]
        · simp [Gathered.add, Gathered.reset, same]
      · rw [pairwise_cons]
        refine ⟨?_, separated⟩
        intro b member
        have bound := starts b member
        rw [Separated, range]
        omega
      · intro b member
        obtain rfl | member := mem_cons.mp member
        · exact Int.le_of_eq (by rw [range])
        · have bound := starts b member
          omega
      · intro bound upTo bounded b member
        obtain rfl | member := mem_cons.mp member
        · rw [range]
          exact upTo
        · exact ends bound (bounded (source, diff) (by simp))
            (fun d inDiffs => bounded d (mem_cons_of_mem _ inDiffs)) b member

/-- The diffs of one output keep their order when all diffs are sorted. -/
theorem sourceDiffs_combinedDiffs {diffs : Source → List T}
    (gapped : ∀ s, Gapped place ((diffs s).map mapping)) (source : Source) :
    sourceDiffs source (combinedDiffs mapping (diffs .output1) (diffs .output2)) =
      diffs source := by
  let le : Source × T → Source × T → Bool := fun a b =>
    (mapping a.2).inputRange.startLineNumber ≤ (mapping b.2).inputRange.startLineNumber
  let all := (diffs .output1).map (Source.output1, ·) ++ (diffs .output2).map (Source.output2, ·)
  have own : all.filter (·.1 = source) = (diffs source).map (source, ·) := by
    cases source <;> simp [all, filter_map, Function.comp_def]
  have pairwise : (all.filter (·.1 = source)).Pairwise fun a b => le a b := by
    rw [own, pairwise_map]
    have ordered := (gapped source).pairwise
    rw [pairwise_map] at ordered
    exact ordered.imp fun order => decide_eq_true order
  have kept : (all.filter (·.1 = source)).Sublist ((all.mergeSort le).filter (·.1 = source)) := by
    have sublist : (all.filter (·.1 = source)).Sublist (all.mergeSort le) :=
      sublist_mergeSort (fun a b c => by simp only [le, decide_eq_true_eq]; omega)
      (fun a b => by simp only [le, or_eq_true, decide_eq_true_eq]; omega)
      pairwise filter_sublist
    have filtered := sublist.filter (·.1 = source)
    simpa using filtered
  have same : all.filter (·.1 = source) = (all.mergeSort le).filter (·.1 = source) :=
    kept.eq_of_length ((mergeSort_perm all le).filter _).length_eq.symm
  calc
    sourceDiffs source (combinedDiffs mapping (diffs .output1) (diffs .output2))
        = ((all.mergeSort le).filter (·.1 = source)).map (·.2) := rfl
    _ = ((diffs source).map (source, ·)).map (·.2) := by rw [← same, own]
    _ = diffs source := by simp [Function.comp_def]

theorem sorted_combinedDiffs (mapping : T → LineRangeMapping) (diffs1 diffs2 : List T) :
    (combinedDiffs mapping diffs1 diffs2).Pairwise fun a b =>
      (mapping a.2).inputRange.startLineNumber ≤ (mapping b.2).inputRange.startLineNumber := by
  unfold combinedDiffs
  apply (pairwise_mergeSort _ _ _).imp
  · intro a b order
    exact of_decide_eq_true order
  · intro a b c
    simp only [decide_eq_true_eq]
    omega
  · intro a b
    simp only [or_eq_true, decide_eq_true_eq]
    omega

/-- The result of `compute`. -/
theorem compute_spec {diffs : Source → List T}
    (gapped : ∀ s, Gapped ⟨1, 1⟩ ((diffs s).map mapping)) :
    ∃ alignments,
      MappingAlignment.compute mapping (diffs .output1) (diffs .output2) = some alignments ∧
      (∀ s, Follows mapping s ⟨1, 1⟩ alignments) ∧
      (∀ s, alignments.flatMap (·.outputLineMappings s) = diffs s) ∧
      alignments.Pairwise Separated ∧
      (∀ a ∈ alignments, 1 ≤ a.inputRange.startLineNumber) ∧
      ∀ bound, (∀ s, ∀ d ∈ diffs s, (mapping d).inputRange.endLineNumberExclusive ≤ bound) →
        ∀ a ∈ alignments, a.inputRange.endLineNumberExclusive ≤ bound := by
  have own := sourceDiffs_combinedDiffs gapped
  have sorted := sorted_combinedDiffs mapping (diffs .output1) (diffs .output2)
  rw [MappingAlignment.compute]
  cases combined : combinedDiffs mapping (diffs .output1) (diffs .output2) with
  | nil =>
    rw [combined] at own
    refine ⟨[], rfl, fun _ => trivial, fun s => own s, .nil, by simp, by simp⟩
  | cons entry rest =>
    obtain ⟨source, diff⟩ := entry
    rw [combined] at own sorted
    rw [pairwise_cons] at sorted
    have fresh : ∀ s, GroupOk mapping ⟨fun _ => [], fun _ => 0⟩ (mapping diff).inputRange s
        ⟨1, 1⟩ := fun s => ⟨trivial, rfl, by simp⟩
    have added := fun s => @GroupOk.add _ _ _ _ (mapping diff).inputRange s source _ diff rest
      (fresh s) (by rw [own]; exact gapped s) (by simp) (by simp [LineRange.containsRange])
    obtain ⟨alignments, aligned, follows, mappings, separated, starts, ends⟩ :=
      alignLoop_spec (fun s => (added s).1) (fun s => (added s).2) sorted.2 sorted.1
    refine ⟨alignments, aligned, follows, ?_, separated, ?_, ?_⟩
    · intro s
      rw [mappings, ← own s, sourceDiffs_cons]
      by_cases same : s = source
      · simp [Gathered.add, same]
      · simp [Gathered.add, same]
    · intro a member
      have isFirst : diff ∈ diffs source := by
        rw [← own source, sourceDiffs_cons, if_pos rfl]
        exact mem_cons_self
      have first := (gapped source).le_of_mem _ (mem_map_of_mem isFirst)
      exact Int.le_trans first (starts a member)
    · intro bound bounded
      have inDiffs : ∀ d ∈ (source, diff) :: rest, d.2 ∈ diffs d.1 := by
        intro d member
        rw [← own d.1, sourceDiffs, mem_map]
        exact ⟨d, mem_filter.mpr ⟨member, by simp⟩, rfl⟩
      exact ends bound (bounded source diff (inDiffs (source, diff) (by simp)))
        fun d member => bounded d.1 d.2 (inDiffs d (mem_cons_of_mem _ member))

end Sweep

end CodeEditor.MergeEditor
