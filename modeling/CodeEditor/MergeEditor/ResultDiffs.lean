import CodeEditor.MergeEditor.TextModelDiffs
import CodeEditor.MergeEditor.Documents

/-!
# The diffs of the result stay exact

The result document is the base with replacements made in it. The stored diffs are the
mappings of these replacements, so applying an edit puts a replacement into the list and
removing a diff takes one out of it.
-/

namespace CodeEditor.MergeEditor

open List Option Int

/-! ## Replacements and their mappings -/

section Mappings

variable {α : Type}

/-- The mapping of a replacement, when the lines in front of it are moved. -/
def mappingOf (delta : Int) (e : Replacement α) : LineRangeMapping where
  inputRange := ⟨e.start, (e.stop - e.start).toNat, natCast_nonneg _⟩
  outputRange := ⟨e.start + delta, e.text.length, natCast_nonneg _⟩

/-- The mappings of replacements that are made from left to right. -/
def mappingsOf : (delta : Int) → List (Replacement α) → List LineRangeMapping
  | _, [] => []
  | delta, e :: edits => mappingOf delta e :: mappingsOf (delta + e.growth) edits

theorem mappingsOf_append (delta : Int) (first second : List (Replacement α)) :
    mappingsOf delta (first ++ second) = mappingsOf delta first ++
      mappingsOf (delta + (first.map Replacement.growth).sum) second := by
  induction first generalizing delta with
  | nil => simp [mappingsOf]
  | cons e first ih =>
    rw [cons_append, mappingsOf, ih, mappingsOf, map_cons, sum_cons, Int.add_assoc, cons_append]

theorem length_mappingsOf (delta : Int) (edits : List (Replacement α)) :
    (mappingsOf delta edits).length = edits.length := by
  induction edits generalizing delta with
  | nil => rfl
  | cons e edits ih => simp [mappingsOf, ih]

/-- The output range of a mapping moved. -/
def LineRangeMapping.addOutputDelta (m : LineRangeMapping) (delta : Int) : LineRangeMapping :=
  { m with outputRange := m.outputRange.delta delta }

theorem mappingsOf_add (delta more : Int) (edits : List (Replacement α)) :
    mappingsOf (delta + more) edits = (mappingsOf delta edits).map (·.addOutputDelta more) := by
  induction edits generalizing delta with
  | nil => rfl
  | cons e edits ih =>
    have moved : mappingOf (delta + more) e = (mappingOf delta e).addOutputDelta more := by
      simp [mappingOf, LineRangeMapping.addOutputDelta, LineRange.delta, Int.add_assoc]
    rw [mappingsOf, mappingsOf, map_cons, moved, ← ih, Int.add_right_comm]

theorem back_input_mappingOf {delta : Int} {e : Replacement α} (ordered : e.start ≤ e.stop) :
    (mappingOf delta e).inputRange.endLineNumberExclusive = e.stop := by
  simp only [mappingOf, LineRange.endLineNumberExclusive]
  omega

theorem back_output_mappingOf (delta : Int) (e : Replacement α) :
    (mappingOf delta e).outputRange.endLineNumberExclusive = e.stop + (delta + e.growth) := by
  simp only [mappingOf, LineRange.endLineNumberExclusive, Replacement.growth]
  omega

/-- The mappings have equal gaps, and unchanged lines behind them move by the growth. -/
theorem gapped_mappingsOf {last : Int} {place : Place} {edits : List (Replacement α)}
    (within : Within last place.input edits) :
    Gapped place (mappingsOf place.delta edits) ∧
      (lastPlace place (mappingsOf place.delta edits)).input ≤ last ∧
      (lastPlace place (mappingsOf place.delta edits)).delta =
        place.delta + (edits.map Replacement.growth).sum := by
  induction edits generalizing place with
  | nil => exact ⟨trivial, within, by simp [mappingsOf]⟩
  | cons e edits ih =>
    obtain ⟨start, ordered, later⟩ := within
    have stop := @back_input_mappingOf _ place.delta e ordered
    have output := back_output_mappingOf place.delta e
    have delta : (mappingOf place.delta e).back.delta = place.delta + e.growth := by
      rw [Place.delta, LineRangeMapping.back, stop, output]
      simp only
      omega
    have rest := @ih (mappingOf place.delta e).back (by
      rw [LineRangeMapping.back, stop]
      exact later)
    rw [delta] at rest
    refine ⟨⟨start, ?_, rest.1⟩, rest.2.1, ?_⟩
    · simp only [LineRangeMapping.front, mappingOf, Place.delta]
      omega
    · rw [mappingsOf, lastPlace_cons, rest.2.2, map_cons, sum_cons, Int.add_assoc]

variable {base : List α}

/-- The lines of an output range are those of its replacement. -/
theorem linesOf_mappingOf {first second : List (Replacement α)} {e : Replacement α}
    (within : Within (base.length + 1) 1 (first ++ e :: second)) :
    linesOf (patch base 1 (first ++ e :: second))
        (mappingOf (first.map Replacement.growth).sum e).outputRange = e.text := by
  obtain ⟨before, ordered, behind⟩ := within.split
  obtain ⟨front, back, length, -, parts, -⟩ := @exists_parts _ base _ 1 _ _ e before ordered
    behind (by
      have le := behind.le
      omega)
  have start : (e.start + (first.map Replacement.growth).sum - 1).toNat = front.length := by
    omega
  rw [parts, linesOf, mappingOf, start, drop_left, toNat_natCast, take_left]

theorem replacements_mappingsOf {edits : List (Replacement α)}
    (within : Within (base.length + 1) 1 edits) :
    replacements (patch base 1 edits) (mappingsOf 0 edits) = edits := by
  suffices general : ∀ first second, edits = first ++ second → replacements (patch base 1 edits)
        (mappingsOf (first.map Replacement.growth).sum second) = second from
    general [] edits rfl
  intro first second split
  induction second generalizing first with
  | nil => rfl
  | cons e second ih =>
    have lines := @linesOf_mappingOf _ base first second e (split ▸ within)
    have rest := ih (first ++ [e]) (by rw [split]; simp)
    have ordered := (split ▸ within).split.2.1
    have sum : ((first ++ [e]).map Replacement.growth).sum =
        (first.map Replacement.growth).sum + e.growth := by simp
    rw [sum] at rest
    rw [← split] at lines
    rw [mappingsOf, replacements, map_cons, ← replacements, rest, lines,
      back_input_mappingOf ordered]
    rfl

/-- Replacements are a diff to the patched document. -/
theorem isDiff_mappingsOf {edits : List (Replacement α)}
    (within : Within (base.length + 1) 1 edits) :
    IsDiff base (patch base 1 edits) (mappingsOf 0 edits) := by
  have places := @gapped_mappingsOf _ (base.length + 1) ⟨1, 1⟩ edits within
  have none : Place.delta ⟨1, 1⟩ = 0 := rfl
  rw [none, Int.zero_add] at places
  refine ⟨places.1, places.2.1, ?_, ?_⟩
  · rw [outputLineCount_eq, places.2.2]
    apply length_patch
    rw [Int.add_comm]
    exact within
  · rw [Turns, replacements_mappingsOf within]

variable {mappings : List LineRangeMapping}

theorem mappingsOf_replacements {document : List α} {place : Place}
    (gapped : Gapped place mappings) (covers : Covers document mappings) :
    mappingsOf place.delta (replacements document mappings) = mappings := by
  induction mappings generalizing place with
  | nil => rfl
  | cons m mappings ih =>
    obtain ⟨start, same, later⟩ := gapped
    have own := covers m (by simp)
    have length := length_linesOf own.1 own.2
    have rest := ih later fun other member =>
      covers other (mem_cons_of_mem _ member)
    have nonneg := m.inputRange.nonneg
    simp only [LineRangeMapping.front, LineRangeMapping.back,
      LineRange.endLineNumberExclusive, Place.delta] at same length rest
    rw [replacements, map_cons, ← replacements, mappingsOf]
    congr 1
    · obtain ⟨⟨inputStart, inputCount, _⟩, ⟨outputStart, outputCount, _⟩⟩ := m
      simp only [mappingOf, LineRangeMapping.mk.injEq, LineRange.mk.injEq,
        LineRange.endLineNumberExclusive, Place.delta, true_and] at same length nonneg ⊢
      omega
    · refine Eq.trans ?_ rest
      congr 1
      simp only [Replacement.growth, Place.delta, LineRange.endLineNumberExclusive]
      omega

/-- Every diff comes from replacements. -/
theorem IsDiff.exists_edits {base document : List α} (isDiff : IsDiff base document mappings) :
    ∃ edits, Within (base.length + 1) 1 edits ∧ mappings = mappingsOf 0 edits ∧
      document = patch base 1 edits := by
  obtain ⟨gapped, bounded, length, turns⟩ := isDiff
  have covers : Covers document mappings := by
    apply gapped.covers (le_refl 1)
    rw [outputLineCount_eq, Place.delta] at length
    omega
  have places := mappingsOf_replacements gapped covers
  refine ⟨replacements document mappings, ?_, places.symm, turns.symm⟩
  apply within_replacements gapped gapped.le_of_mem _ (show (1 : Int) ≤ base.length + 1 by omega)
  intro m member
  have back := gapped.back_le_lastPlace m member
  omega

end Mappings

/-! ## The loops -/

/-- New objects with moved output ranges for all diffs. -/
def shiftAll (delta : Int) :
    List DetailedLineRangeMapping → (nextRef : Nat) → List DetailedLineRangeMapping
  | [], _ => []
  | d :: diffs, nextRef => d.addOutputLineDelta delta nextRef :: shiftAll delta diffs (nextRef + 1)

theorem mappings_shiftAll (delta : Int) (diffs : List DetailedLineRangeMapping) (nextRef : Nat) :
    (shiftAll delta diffs nextRef).map (·.toLineRangeMapping) =
      (diffs.map (·.toLineRangeMapping)).map (·.addOutputDelta delta) := by
  induction diffs generalizing nextRef with
  | nil => rfl
  | cons d diffs ih =>
    rw [shiftAll, map_cons, ih]
    rfl

theorem refs_shiftAll (delta : Int) (diffs : List DetailedLineRangeMapping) (nextRef : Nat) :
    (shiftAll delta diffs nextRef).map (·.ref) = List.range' nextRef diffs.length := by
  induction diffs generalizing nextRef with
  | nil => rfl
  | cons d diffs ih =>
    rw [shiftAll, map_cons, ih, length_cons, range'_succ]
    rfl

variable {diffs : List DetailedLineRangeMapping}

theorem shiftAfter_behind {removed : LineRange}
    (behind : ∀ d ∈ diffs, removed.isBefore d.outputRange = true) (nextRef : Nat) :
    shiftAfter removed delta diffs nextRef =
      (shiftAll delta diffs nextRef, nextRef + diffs.length) := by
  induction diffs generalizing nextRef with
  | nil => rfl
  | cons d diffs ih =>
    have own := behind d (by simp)
    have rest := ih (fun other member =>
      behind other (mem_cons_of_mem _ member)) (nextRef + 1)
    rw [shiftAfter, if_pos own, rest, shiftAll, length_cons, Nat.add_right_comm, Nat.add_assoc]

variable {before behind : List DetailedLineRangeMapping}

theorem shiftAfter_split {removed : LineRange}
    (isBefore : ∀ d ∈ before, removed.isBefore d.outputRange = false)
    (isBehind : ∀ d ∈ behind, removed.isBefore d.outputRange = true) (nextRef : Nat) :
    shiftAfter removed delta (before ++ behind) nextRef =
      (before ++ shiftAll delta behind nextRef, nextRef + behind.length) := by
  induction before with
  | nil => exact shiftAfter_behind isBehind nextRef
  | cons d before ih =>
    have own := isBefore d (by simp)
    have rest := ih fun other member =>
      isBefore other (mem_cons_of_mem _ member)
    rw [cons_append, shiftAfter, if_neg (by simp [own]), rest, cons_append]

namespace TextModelDiffs

/-- How far an edit moves what is behind it. -/
def growthOf (edit : LineRangeEdit) : Int := edit.newLines.length - edit.range.lineCount

/-- How far diffs move what is behind them. -/
def growthBefore (diffs : List DetailedLineRangeMapping) : Int :=
  (diffs.map fun d => d.outputRange.lineCount - d.inputRange.lineCount).sum

variable {edit : LineRangeEdit} {d : DetailedLineRangeMapping}

theorem not_touches_behind
    (behind : edit.range.endLineNumberExclusive < d.inputRange.startLineNumber) :
    d.inputRange.touches edit.range = false ∧ edit.range.isBefore d.inputRange = true := by
  simp only [LineRange.touches, LineRange.isBefore, Bool.and_eq_false_iff, decide_eq_false_iff_not,
    decide_eq_true_eq]
  omega

theorem not_touches_before
    (before : d.inputRange.endLineNumberExclusive < edit.range.startLineNumber) :
    d.inputRange.touches edit.range = false ∧ edit.range.isBefore d.inputRange = false := by
  have nonneg := edit.range.nonneg
  have nonneg' := d.inputRange.nonneg
  simp only [LineRange.endLineNumberExclusive] at before
  simp only [LineRange.touches, LineRange.isBefore, Bool.and_eq_false_iff, decide_eq_false_iff_not]
  simp only [LineRange.endLineNumberExclusive]
  omega

theorem applyLoop_behind
    (behind : ∀ d ∈ diffs, edit.range.endLineNumberExclusive < d.inputRange.startLineNumber)
    (delta : Int) (nextRef : Nat) : applyLoop edit diffs true delta nextRef =
      some (shiftAll (growthOf edit) diffs nextRef, true, delta, nextRef + diffs.length) := by
  induction diffs generalizing nextRef with
  | nil => rfl
  | cons d diffs ih =>
    have own := not_touches_behind (behind d (by simp))
    have rest := ih (fun other member =>
      behind other (mem_cons_of_mem _ member)) (nextRef + 1)
    rw [applyLoop, if_neg (by simp [own.1]), if_pos own.2]
    simp only [if_true, rest, bind_eq_bind, bind_some, nil_append, shiftAll, length_cons, growthOf]
    rw [Nat.add_right_comm, Nat.add_assoc]

/-- What the loop and the step behind it make of diffs on both sides of the edit. -/
theorem applyLoop_split (isBefore : ∀ d ∈ before,
      d.inputRange.endLineNumberExclusive < edit.range.startLineNumber) (isBehind : ∀ d ∈ behind,
      edit.range.endLineNumberExclusive < d.inputRange.startLineNumber) (delta : Int)
    (nextRef : Nat) : ∃ newDiffs firstAfter last,
      applyLoop edit (before ++ behind) false delta nextRef =
        some (newDiffs, firstAfter, delta + growthBefore before, last) ∧
      newDiffs ++ (if firstAfter then [] else
          [editMapping edit (delta + growthBefore before) last]) =
        before ++ editMapping edit (delta + growthBefore before) nextRef ::
          shiftAll (growthOf edit) behind (nextRef + 1) ∧
      (if firstAfter then last else last + 1) = nextRef + 1 + behind.length := by
  induction before generalizing delta with
  | nil =>
    have none : growthBefore [] = 0 := rfl
    rw [none, Int.add_zero]
    cases behind with
    | nil => exact ⟨[], false, nextRef, rfl, rfl, rfl⟩
    | cons d behind =>
      have own := not_touches_behind (isBehind d (by simp))
      have rest := applyLoop_behind (fun other member =>
        isBehind other (mem_cons_of_mem _ member)) delta (nextRef + 1 + 1)
      refine ⟨editMapping edit delta nextRef ::
        shiftAll (growthOf edit) (d :: behind) (nextRef + 1), true,
        nextRef + 1 + 1 + behind.length, ?_, ?_, ?_⟩
      · rw [nil_append, applyLoop, if_neg (by simp [own.1]), if_pos own.2]
        simp only [Bool.false_eq_true, if_false, rest, bind_eq_bind, bind_some,
          cons_append, nil_append, shiftAll, growthOf]
      · simp
      · rw [if_pos rfl, length_cons]
        omega
  | cons d before ih =>
    have own := not_touches_before (isBefore d (by simp))
    have sum : growthBefore (d :: before) =
        d.outputRange.lineCount - d.inputRange.lineCount + growthBefore before := by
      simp [growthBefore]
    obtain ⟨newDiffs, firstAfter, last, loop, diffs, next⟩ := ih
      (fun other member => isBefore other (mem_cons_of_mem _ member))
      (delta + (d.outputRange.lineCount - d.inputRange.lineCount))
    rw [Int.add_assoc, ← sum] at loop diffs
    refine ⟨d :: newDiffs, firstAfter, last, ?_, ?_, next⟩
    · rw [cons_append, applyLoop, if_neg (by simp [own.1]), if_neg (by simp [own.2])]
      simp only [Bool.false_eq_true, if_false, loop, bind_eq_bind, bind_some]
    · rw [cons_append, diffs, cons_append]

theorem applyEditRelativeToOriginal_eq {t : TextModelDiffs} (upToDate : t.state = .upToDate)
    (split : t.diffs = before ++ behind) (isBefore : ∀ d ∈ before,
      d.inputRange.endLineNumberExclusive < edit.range.startLineNumber) (isBehind : ∀ d ∈ behind,
      edit.range.endLineNumberExclusive < d.inputRange.startLineNumber) :
    applyEditRelativeToOriginal t edit = some { t with
      lines := pushEditOperation t.lines (LineRangeEdit.toEdit
        ⟨edit.range.delta (growthBefore before), edit.newLines⟩ t.lines.length)
      diffs := before ++ editMapping edit (growthBefore before) t.nextRef ::
        shiftAll (growthOf edit) behind (t.nextRef + 1)
      nextRef := t.nextRef + 1 + behind.length } := by
  obtain ⟨newDiffs, firstAfter, last, loop, diffs, next⟩ :=
    applyLoop_split isBefore isBehind 0 t.nextRef
  rw [Int.zero_add] at loop diffs
  rw [applyEditRelativeToOriginal, if_neg (by simp [upToDate]), split, loop]
  simp only [bind_eq_bind, bind_some]
  rw [diffs, next]

theorem removeDiff_eq {t : TextModelDiffs} (split : t.diffs = before ++ d :: behind)
    (distinct : (t.diffs.map (·.ref)).Nodup)
    (isBefore : ∀ other ∈ before, d.outputRange.isBefore other.outputRange = false)
    (isBehind : ∀ other ∈ behind, d.outputRange.isBefore other.outputRange = true)
    (input : getLines t.base d.inputRange = some inputLines) : removeDiff t d = some { t with
      lines := pushEditOperation t.lines
        (LineRangeEdit.toEdit ⟨d.outputRange, inputLines⟩ t.lines.length)
      diffs := before ++
        shiftAll (d.inputRange.lineCount - d.outputRange.lineCount) behind t.nextRef
      nextRef := t.nextRef + behind.length } := by
  have others : ∀ other ∈ before ++ behind, other.ref ≠ d.ref := by
    rw [split, map_append, map_cons] at distinct
    have moved := perm_middle.nodup_iff.mp distinct
    rw [nodup_cons, ← map_append] at moved
    intro other member same
    apply moved.1
    rw [← same]
    exact mem_map_of_mem member
  have filtered : t.diffs.filter (·.ref ≠ d.ref) = before ++ behind := by
    have left : before.filter (·.ref ≠ d.ref) = before := by
      apply filter_eq_self.mpr
      intro other member
      simpa using others other (mem_append_left _ member)
    have right : behind.filter (·.ref ≠ d.ref) = behind := by
      apply filter_eq_self.mpr
      intro other member
      simpa using others other (mem_append_right _ member)
    rw [split, filter_append, filter_cons_of_neg (by simp), left, right]
  have shorter : ¬(t.diffs.length = (before ++ behind).length) := by
    rw [split]
    simp
  rw [removeDiff]
  rw [filtered, if_neg shorter, input]
  simp only [bind_eq_bind, bind_some]
  rw [shiftAfter_split isBefore isBehind]

end TextModelDiffs

end CodeEditor.MergeEditor
