import CodeEditor.MergeEditor.Alignment

/-!
# Documents and their diffs

A diff turns a base document into another document: every input range is replaced by
the lines of its output range. The alignments of two diffs do the same as each of them.
-/

namespace CodeEditor.MergeEditor

open List Int

variable {α : Type}

/-- The lines of a range. -/
def linesOf (document : List α) (range : LineRange) : List α :=
  (document.drop (range.startLineNumber - 1).toNat).take range.lineCount.toNat

/-- The input ranges with the lines of the output ranges. -/
def replacements (document : List α) (mappings : List LineRangeMapping) :
    List (Replacement α) :=
  mappings.map fun m =>
    ⟨m.inputRange.startLineNumber, m.inputRange.endLineNumberExclusive,
      linesOf document m.outputRange⟩

/-- Replacing every input range by the lines of its output range gives the document. -/
def Turns (base document : List α) (mappings : List LineRangeMapping) : Prop :=
  patch base 1 (replacements document mappings) = document

/-- A diff from a base document to another document. -/
structure IsDiff (base document : List α) (mappings : List LineRangeMapping) : Prop where
  gapped : Gapped ⟨1, 1⟩ mappings
  bounded : (lastPlace ⟨1, 1⟩ mappings).input ≤ base.length + 1
  length : (document.length : Int) = outputLineCount mappings base.length
  turns : Turns base document mappings

variable {document : List α} {mappings : List LineRangeMapping}

theorem within_replacements {place : Place} {position last : Int} (gapped : Gapped place mappings)
    (starts : ∀ m ∈ mappings, position ≤ m.front.input)
    (ends : ∀ m ∈ mappings, m.back.input ≤ last) (le : position ≤ last) :
    Within last position (replacements document mappings) := by
  induction mappings generalizing place position with
  | nil => exact le
  | cons m mappings ih =>
    refine ⟨starts m (by simp), m.front_input_le_back, ?_⟩
    apply ih gapped.2.2
    · exact gapped.2.2.le_of_mem
    · exact fun other member => ends other (mem_cons_of_mem _ member)
    · exact ends m (by simp)

/-- All output lines are there. -/
def Covers (document : List α) (mappings : List LineRangeMapping) : Prop :=
  ∀ m ∈ mappings, 1 ≤ m.front.output ∧ m.back.output ≤ document.length + 1

theorem length_linesOf {m : LineRangeMapping} (start : 1 ≤ m.front.output)
    (stop : m.back.output ≤ document.length + 1) :
    ((linesOf document m.outputRange).length : Int) = m.back.output - m.front.output := by
  have nonneg := m.outputRange.nonneg
  simp only [LineRangeMapping.front, LineRangeMapping.back,
    LineRange.endLineNumberExclusive] at start stop ⊢
  rw [linesOf, length_take, length_drop]
  omega

theorem sum_growth_replacements {place : Place} (gapped : Gapped place mappings)
    (covers : Covers document mappings) :
    ((replacements document mappings).map Replacement.growth).sum =
      (lastPlace place mappings).delta - place.delta := by
  induction mappings generalizing place with
  | nil => simp [replacements]
  | cons m mappings ih =>
    have own := covers m (by simp)
    have length := length_linesOf own.1 own.2
    have later := ih gapped.2.2 fun other member => covers other (mem_cons_of_mem _ member)
    have same := gapped.2.1
    simp only [replacements, map_cons, sum_cons, Replacement.growth, lastPlace_cons] at later ⊢
    simp only [Place.delta, LineRangeMapping.front, LineRangeMapping.back] at *
    omega

theorem Gapped.covers (gapped : Gapped place mappings) (start : 1 ≤ place.output)
    (stop : (lastPlace place mappings).output ≤ document.length + 1) :
    Covers document mappings := by
  induction mappings generalizing place with
  | nil => simp [Covers]
  | cons m mappings ih =>
    have order := m.front_output_le_back
    have first := gapped.1
    have same := gapped.2.1
    rw [lastPlace_cons] at stop
    have back := gapped.2.2.le_lastPlace
    intro other member
    obtain rfl | member := mem_cons.mp member
    · omega
    · exact ih gapped.2.2 (by omega) stop other member

section Alignments

variable {T : Type} {mapping : T → LineRangeMapping} {source : Source}

/-- An alignment as a mapping to one of the outputs. -/
def MappingAlignment.toOutput (source : Source) (a : MappingAlignment T) : LineRangeMapping :=
  ⟨a.inputRange, a.outputRange source⟩

variable {alignments : List (MappingAlignment T)}

theorem Follows.gapped {place start : Place} (follows : Follows mapping source place alignments)
    (separated : alignments.Pairwise Separated)
    (first : ∀ a ∈ alignments, start.input ≤ a.inputRange.startLineNumber)
    (same : start.delta = place.delta) : Gapped start (alignments.map (·.toOutput source)) ∧
      (lastPlace start (alignments.map (·.toOutput source))).delta = (lastPlace place
          ((alignments.flatMap (·.outputLineMappings source)).map mapping)).delta := by
  induction alignments generalizing place start with
  | nil => exact ⟨trivial, same⟩
  | cons a alignments ih =>
    obtain ⟨-, front, back, later⟩ := follows
    rw [pairwise_cons] at separated
    have begins := first a (by simp)
    obtain ⟨gapped, ends⟩ := @ih _ (a.toOutput source).back later separated.2
      (fun b member => le_of_lt (separated.1 b member)) (by
        simp only [Place.delta, LineRangeMapping.back, MappingAlignment.toOutput] at back ⊢
        omega)
    refine ⟨⟨?_, ?_, gapped⟩, ?_⟩
    · exact begins
    · simp only [Place.delta, LineRangeMapping.front, MappingAlignment.toOutput] at *
      omega
    · rw [map_cons, lastPlace_cons, ends, flatMap_cons, map_append, lastPlace_append]

theorem Follows.contains (follows : Follows mapping source place alignments) :
    ∀ a ∈ alignments, ∀ m ∈ a.outputLineMappings source,
      a.inputRange.containsRange (mapping m).inputRange := by
  induction alignments generalizing place with
  | nil => simp
  | cons a alignments ih =>
    intro b member
    obtain rfl | member := mem_cons.mp member
    · exact follows.1
    · exact ih follows.2.2.2 b member

theorem contains_iff {range : LineRange} {m : LineRangeMapping} :
    range.containsRange m.inputRange ↔ range.startLineNumber ≤ m.front.input ∧
      m.back.input ≤ range.endLineNumberExclusive := by
  simp [LineRange.containsRange, LineRangeMapping.front, LineRangeMapping.back]

theorem drop_toNat (document : List α) {i j k : Int} (first : 0 ≤ i) (second : 0 ≤ j)
    (sum : i + j = k) : (document.drop i.toNat).drop j.toNat = document.drop k.toNat := by
  rw [drop_drop, ← sum, toNat_add first second]

/-- The mappings of the first alignment lie inside it, the others behind it. -/
theorem Follows.within (document : List α) {a : MappingAlignment T} {place : Place} {last : Int}
    (follows : Follows mapping source place (a :: alignments)) (gapped : Gapped place
      (((a :: alignments).flatMap (·.outputLineMappings source)).map mapping))
    (separated : (a :: alignments).Pairwise Separated)
    (bounded : ∀ b ∈ a :: alignments, b.inputRange.endLineNumberExclusive ≤ last) :
    Within a.inputRange.endLineNumberExclusive a.inputRange.startLineNumber
        (replacements document ((a.outputLineMappings source).map mapping)) ∧
      Within last a.inputRange.endLineNumberExclusive (replacements document
        ((alignments.flatMap (·.outputLineMappings source)).map mapping)) := by
  obtain ⟨contains, -, -, later⟩ := follows
  rw [flatMap_cons, map_append, gapped_append] at gapped
  rw [pairwise_cons] at separated
  have nonneg := a.inputRange.nonneg
  constructor
  · apply within_replacements gapped.1
    · intro m member
      obtain ⟨d, inA, rfl⟩ := mem_map.mp member
      exact (contains_iff.mp (contains d inA)).1
    · intro m member
      obtain ⟨d, inA, rfl⟩ := mem_map.mp member
      exact (contains_iff.mp (contains d inA)).2
    · simp only [LineRange.endLineNumberExclusive]
      omega
  · have inRange : ∀ m ∈ (alignments.flatMap (·.outputLineMappings source)).map mapping,
        a.inputRange.endLineNumberExclusive ≤ m.front.input ∧ m.back.input ≤ last := by
      intro m member
      obtain ⟨d, inLater, rfl⟩ := mem_map.mp member
      obtain ⟨b, inAlignments, inB⟩ := mem_flatMap.mp inLater
      have apart := separated.1 b inAlignments
      have upTo := bounded b (mem_cons_of_mem _ inAlignments)
      have inRange := contains_iff.mp (later.contains b inAlignments d inB)
      unfold Separated at apart
      omega
    exact within_replacements gapped.2 (fun m member => (inRange m member).1)
      (fun m member => (inRange m member).2) (bounded a (by simp))

/-- What mappings do before the lines that they replace, and what the others do behind them. -/
theorem patch_append {base : List α} {theirs : List LineRangeMapping} {place : Place}
    {position start stop : Int} (gapped : Gapped place mappings) (covers : Covers document mappings)
    (inside : Within stop start (replacements document mappings))
    (behind : Within (base.length + 1) stop (replacements document theirs))
    (before : position ≤ start) (ordered : start ≤ stop) (bounded : stop ≤ base.length + 1)
    (inBase : 1 ≤ position) (inDocument : 1 ≤ position + place.delta)
    (turns : patch (base.drop (position - 1).toNat) position
        (replacements document (mappings ++ theirs)) =
      document.drop (position + place.delta - 1).toNat) :
    (base.drop (position - 1).toNat).take (start - position).toNat ++
        document.drop (start + place.delta - 1).toNat =
      document.drop (position + place.delta - 1).toNat ∧
    patch (base.drop (stop - 1).toNat) stop (replacements document theirs) =
      document.drop (stop + (lastPlace place mappings).delta - 1).toNat ∧
    start + place.delta ≤ stop + (lastPlace place mappings).delta := by
  have rest : ((base.drop (position - 1).toNat).length : Int) = base.length + 1 - position := by
    rw [length_drop]
    omega
  have growth := sum_growth_replacements gapped covers
  have shrink := sum_growth_ge inside
  have split : replacements document (mappings ++ theirs) =
      replacements document mappings ++ replacements document theirs := map_append
  rw [split] at turns
  have taken := take_patch before
    (show start ≤ position + (base.drop (position - 1).toNat).length by
    omega) (within_append inside behind)
  have dropped := drop_patch_append (inside.of_le before)
    (show stop ≤ position + (base.drop (position - 1).toNat).length by omega) behind
  rw [turns] at taken dropped
  have toStart := drop_toNat document (show 0 ≤ position + place.delta - 1 by omega)
    (show 0 ≤ start - position by omega) (show _ = start + place.delta - 1 by omega)
  have toEnd := drop_toNat base (show 0 ≤ position - 1 by omega)
    (show 0 ≤ stop - position by omega) (show _ = stop - 1 by omega)
  refine ⟨by rw [← taken, ← toStart, take_append_drop], ?_, by omega⟩
  rw [← toEnd, ← dropped, growth]
  exact drop_toNat document (by omega) (by omega) (by omega)

/-- The alignments do in the rest of the documents what the mappings do. -/
theorem Follows.patch_eq {base document : List α} {place : Place} {position : Int}
    (follows : Follows mapping source place alignments) (gapped : Gapped place
      ((alignments.flatMap (·.outputLineMappings source)).map mapping)) (covers : Covers document
      ((alignments.flatMap (·.outputLineMappings source)).map mapping))
    (separated : alignments.Pairwise Separated)
    (first : ∀ a ∈ alignments, position ≤ a.inputRange.startLineNumber)
    (bounded : ∀ a ∈ alignments, a.inputRange.endLineNumberExclusive ≤ base.length + 1)
    (inBase : 1 ≤ position) (inDocument : 1 ≤ position + place.delta)
    (turns : patch (base.drop (position - 1).toNat) position (replacements document
        ((alignments.flatMap (·.outputLineMappings source)).map mapping)) =
      document.drop (position + place.delta - 1).toNat) :
    patch (base.drop (position - 1).toNat) position
        (replacements document (alignments.map (·.toOutput source))) =
      document.drop (position + place.delta - 1).toNat := by
  induction alignments generalizing place position with
  | nil => exact turns
  | cons a alignments ih =>
    obtain ⟨inside, behind⟩ := follows.within document gapped separated bounded
    obtain ⟨-, front, back, later⟩ := follows
    rw [pairwise_cons] at separated
    have start := first a (by simp)
    have stop := bounded a (by simp)
    have nonneg := a.inputRange.nonneg
    have ordered : a.inputRange.startLineNumber ≤ a.inputRange.endLineNumberExclusive := by
      simp only [LineRange.endLineNumberExclusive]
      omega
    rw [flatMap_cons, map_append] at gapped covers turns
    rw [gapped_append] at gapped
    obtain ⟨before, turnsBehind, less⟩ := patch_append gapped.1
      (fun m member => covers m (mem_append_left _ member)) inside behind start ordered stop inBase
      inDocument turns
    have rest := ih later gapped.2
      (fun m member => covers m (mem_append_right _ member)) separated.2
      (fun b member => le_of_lt (separated.1 b member))
      (fun b member => bounded b (mem_cons_of_mem _ member)) (by omega) (by omega) turnsBehind
    have output : (a.outputRange source).endLineNumberExclusive =
        (a.outputRange source).startLineNumber + (a.outputRange source).lineCount := rfl
    have lines : linesOf document (a.outputRange source) ++
        document.drop (a.inputRange.endLineNumberExclusive +
          (lastPlace place ((a.outputLineMappings source).map mapping)).delta - 1).toNat =
        document.drop (a.inputRange.startLineNumber + place.delta - 1).toNat := by
      have toEnd := drop_toNat document (show 0 ≤ a.inputRange.startLineNumber + place.delta - 1 by
        omega) (show 0 ≤ (a.outputRange source).lineCount by omega)
        (show _ = a.inputRange.endLineNumberExclusive +
          (lastPlace place ((a.outputLineMappings source).map mapping)).delta - 1 by omega)
      rw [linesOf, front, ← toEnd, take_append_drop]
    change (base.drop (position - 1).toNat).take (a.inputRange.startLineNumber - position).toNat ++
        (linesOf document (a.outputRange source) ++ patch ((base.drop (position - 1).toNat).drop
            (a.inputRange.endLineNumberExclusive - position).toNat)
            a.inputRange.endLineNumberExclusive
            (replacements document (alignments.map (·.toOutput source)))) = _
    rw [drop_toNat base (k := a.inputRange.endLineNumberExclusive - 1) (by omega) (by omega)
      (by omega), rest, lines, before]

/-- Equal gaps in the base make equal gaps between the outputs. -/
theorem adjacent_outputs (gapped1 : Gapped place1 (alignments.map (·.toOutput .output1)))
    (gapped2 : Gapped place2 (alignments.map (·.toOutput .output2))) :
    checkAdjacentItems isAdjacent (alignments.map fun a =>
      (⟨a.output1Range, a.output2Range⟩ : LineRangeMapping)) = true := by
  induction alignments generalizing place1 place2 with
  | nil => rfl
  | cons a alignments ih =>
    cases alignments with
    | nil => rfl
    | cons b alignments =>
      obtain ⟨-, -, apart1, same1, later1⟩ := gapped1
      obtain ⟨-, -, apart2, same2, later2⟩ := gapped2
      rw [map_cons, map_cons, checkAdjacentItems, Bool.and_eq_true]
      refine ⟨?_, ih ⟨apart1, same1, later1⟩ ⟨apart2, same2, later2⟩⟩
      simp only [LineRangeMapping.front, LineRangeMapping.back, MappingAlignment.toOutput,
        MappingAlignment.outputRange] at apart1 same1 apart2 same2
      simp only [isAdjacent, LineRange.isBefore, Bool.and_eq_true, decide_eq_true_eq]
      omega

theorem betweenOutputs_isSome {diffs : Source → List T}
    (computed : MappingAlignment.compute mapping (diffs .output1) (diffs .output2) =
      some alignments)
    (gapped : ∀ s, Gapped ⟨1, 1⟩ (alignments.map (·.toOutput s))) (inputLineCount : Int) :
    (DocumentLineRangeMap.betweenOutputs mapping (diffs .output1) (diffs .output2)
      inputLineCount).isSome := by
  have adjacent := adjacent_outputs (gapped .output1) (gapped .output2)
  simp [DocumentLineRangeMap.betweenOutputs, computed, DocumentLineRangeMap.new, adjacent]

/-- The alignments turn the base into both documents. -/
theorem turns_alignments {documents : Source → List α} {diffs : Source → List T}
    (isDiff : ∀ s, IsDiff base (documents s) ((diffs s).map mapping))
    (follows : ∀ s, Follows mapping s ⟨1, 1⟩ alignments)
    (mappings : ∀ s, alignments.flatMap (·.outputLineMappings s) = diffs s)
    (separated : alignments.Pairwise Separated)
    (starts : ∀ a ∈ alignments, 1 ≤ a.inputRange.startLineNumber)
    (ends : ∀ a ∈ alignments, a.inputRange.endLineNumberExclusive ≤ base.length + 1) (s : Source) :
    Turns base (documents s) (alignments.map (·.toOutput s)) := by
  obtain ⟨gapped, bounded, length, turns⟩ := isDiff s
  have covers : Covers (documents s) ((diffs s).map mapping) := by
    apply gapped.covers (le_refl 1)
    rw [outputLineCount_eq, Place.delta] at length
    omega
  rw [← mappings s] at gapped covers turns
  exact @Follows.patch_eq _ _ _ _ _ _ _ ⟨1, 1⟩ 1 (follows s) gapped covers separated starts ends
    (le_refl 1) (le_refl 1) turns

/-- The alignments of two diffs partition both diffs and keep all gaps. -/
theorem alignments_partition_diffs (mapping : T → LineRangeMapping) (diffs : Source → List T)
    (gapped : ∀ s, Gapped ⟨1, 1⟩ ((diffs s).map mapping)) :
    ∃ alignments,
      MappingAlignment.compute mapping (diffs .output1) (diffs .output2) = some alignments ∧
      alignments.Pairwise Separated ∧
      (∀ s, alignments.flatMap (·.outputLineMappings s) = diffs s) ∧
      (∀ s, ∀ a ∈ alignments, ∀ m ∈ a.outputLineMappings s,
        a.inputRange.containsRange (mapping m).inputRange) ∧
      (∀ s, Gapped ⟨1, 1⟩ (alignments.map (·.toOutput s))) ∧
      (∀ s (baseLineCount : Int),
        baseLineCount + 1 - (lastPlace ⟨1, 1⟩ (alignments.map (·.toOutput s))).input =
          outputLineCount ((diffs s).map mapping) baseLineCount + 1 -
            (lastPlace ⟨1, 1⟩ (alignments.map (·.toOutput s))).output) ∧
      (∀ (Line : Type) (base : List Line) (documents : Source → List Line),
        (∀ s, IsDiff base (documents s) ((diffs s).map mapping)) →
          ∀ s, Turns base (documents s) (alignments.map (·.toOutput s))) ∧
      ∀ baseLineCount : Int, (DocumentLineRangeMap.betweenOutputs mapping (diffs .output1)
        (diffs .output2) baseLineCount).isSome := by
  obtain ⟨alignments, computed, follows, mappings, separated, starts, ends⟩ :=
    compute_spec gapped
  have places := fun s => @Follows.gapped _ _ _ _ ⟨1, 1⟩ ⟨1, 1⟩ (follows s) separated starts rfl
  refine ⟨alignments, computed, separated, mappings, fun s => (follows s).contains,
    fun s => (places s).1, ?_, ?_, betweenOutputs_isSome computed fun s => (places s).1⟩
  · intro s baseLineCount
    have delta := (places s).2
    rw [mappings s] at delta
    rw [outputLineCount_eq]
    simp only [Place.delta] at delta ⊢
    omega
  · intro Line base documents isDiff
    apply turns_alignments isDiff follows mappings separated starts
    apply ends
    intro s d member
    have upTo := (isDiff s).gapped.back_le_lastPlace _ (mem_map_of_mem member)
    exact le_trans upTo (isDiff s).bounded

/-- One line is replaced by two in the first output; in the second output a line is
inserted in front of it and another line is deleted further down. -/
def sampleDiffs : Source → List LineRangeMapping
  | .output1 => [⟨⟨2, 1, by decide⟩, ⟨2, 2, by decide⟩⟩]
  | .output2 =>
    [⟨⟨2, 0, by decide⟩, ⟨2, 1, by decide⟩⟩, ⟨⟨5, 1, by decide⟩, ⟨6, 0, by decide⟩⟩]

theorem alignments_partition_diffs_sample :
    ∃ alignments,
      MappingAlignment.compute id (sampleDiffs .output1) (sampleDiffs .output2) =
        some alignments ∧
      alignments.Pairwise Separated ∧
      ∀ s, alignments.flatMap (·.outputLineMappings s) = sampleDiffs s := by
  have aligned := alignments_partition_diffs id sampleDiffs
    (by intro s; cases s <;> decide)
  obtain ⟨alignments, computed, separated, mappings, -⟩ := aligned
  exact ⟨alignments, computed, separated, mappings⟩

end Alignments

end CodeEditor.MergeEditor
