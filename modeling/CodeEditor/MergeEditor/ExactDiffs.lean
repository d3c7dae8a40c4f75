import CodeEditor.MergeEditor.ResultDiffs

/-!
# Accepting and reverting keeps the diffs exact

The invariant names the replacements that the result is made of. An accepted edit puts
one replacement between the others, a reverted diff takes one away, and the separate
deltas of the text edit and of the stored diffs are the growth of the replacements in
front.
-/

namespace CodeEditor.MergeEditor

open List Int

/-! ## Replacements with unchanged lines between them -/

section Replacements

variable {α : Type}

/-- An unchanged line is between any two replacements. -/
def Apart (edits : List (Replacement α)) : Prop := edits.Pairwise fun e f => e.stop < f.start

theorem exists_split {first last position : Int} {edits : List (Replacement α)}
    (within : Within last position edits) (apart : Apart edits) {stop : Int}
    (aside : ∀ e ∈ edits, e.stop < first ∨ stop < e.start) :
    ∃ before behind, edits = before ++ behind ∧ (∀ e ∈ before, e.stop < first) ∧
      ∀ e ∈ behind, stop < e.start := by
  induction edits generalizing position with
  | nil => exact ⟨[], [], rfl, by simp, by simp⟩
  | cons e edits ih =>
    obtain ⟨-, ordered, later⟩ := within
    obtain ⟨separated, apart⟩ := pairwise_cons.mp apart
    rcases aside e (by simp) with before | behind
    · obtain ⟨left, right, split, isBefore, isBehind⟩ := ih later apart
        fun other member => aside other (mem_cons_of_mem _ member)
      refine ⟨e :: left, right, by rw [split, cons_append], ?_, isBehind⟩
      intro other member
      obtain rfl | member := mem_cons.mp member
      · exact before
      · exact isBefore other member
    · refine ⟨[], e :: edits, rfl, by simp, ?_⟩
      intro other member
      obtain rfl | member := mem_cons.mp member
      · exact behind
      · have gap := separated other member
        omega

/-- Replacements on both sides of a line leave that line. -/
theorem patch_ne_nil {base : List α} {first second : List (Replacement α)} {line : Int}
    (before : Within line 1 first) (behind : Within (base.length + 1) (line + 1) second) :
    patch base 1 (first ++ second) ≠ [] := by
  have length := @length_patch _ base 1 (first ++ second) (by
    rw [Int.add_comm]
    exact within_append before (behind.of_le (by omega)))
  have left := sum_growth_ge before
  have right := sum_growth_ge behind
  rw [map_append, sum_append] at length
  intro empty
  rw [empty, length_nil] at length
  omega

variable {e : Replacement α}

/-- Taking a replacement out leaves a line. -/
theorem patch_ne_nil_of_apart {base : List α} {first second : List (Replacement α)}
    (some : base ≠ []) (within : Within (base.length + 1) 1 (first ++ e :: second))
    (apart : Apart (first ++ e :: second)) : patch base 1 (first ++ second) ≠ [] := by
  obtain ⟨before, ordered, behind⟩ := within.split
  obtain ⟨-, later, across⟩ := pairwise_append.mp apart
  obtain ⟨separated, -⟩ := pairwise_cons.mp later
  cases second with
  | cons f second =>
    have gap := separated f (by simp)
    apply @patch_ne_nil _ base first (f :: second) e.stop
    · apply before.of_stops (le_trans before.le ordered)
      intro other member
      have apart := across other member e (by simp)
      omega
    · exact ⟨by omega, behind.2⟩
  | nil =>
    cases first with
    | nil => exact some
    | cons f first =>
      have gap := across f (by simp) e (by simp)
      have start := before.1
      have ordered' := before.2.1
      have stop := behind.le
      apply @patch_ne_nil _ base (f :: first) [] (e.start - 1)
      · apply before.of_stops (by omega)
        intro other member
        have apart := across other member e (by simp)
        omega
      · change e.start - 1 + 1 ≤ _
        omega

theorem exists_of_mem_mappingsOf {delta : Int} {edits : List (Replacement α)}
    {m : LineRangeMapping} (member : m ∈ mappingsOf delta edits) :
    ∃ first e second, edits = first ++ e :: second ∧
      m = mappingOf (delta + (first.map Replacement.growth).sum) e := by
  induction edits generalizing delta with
  | nil => cases member
  | cons e edits ih =>
    obtain rfl | member := mem_cons.mp member
    · exact ⟨[], e, edits, rfl, by simp⟩
    · obtain ⟨first, f, second, split, isMapping⟩ := ih member
      refine ⟨e :: first, f, second, by rw [split, cons_append], ?_⟩
      rw [isMapping, map_cons, sum_cons, Int.add_assoc]

/-- Line counts of the mappings add up to the growth of the replacements. -/
theorem growthBefore_eq {last position delta : Int} {edits : List (Replacement α)}
    {diffs : List DetailedLineRangeMapping} (within : Within last position edits)
    (mappings : diffs.map (·.toLineRangeMapping) = mappingsOf delta edits) :
    TextModelDiffs.growthBefore diffs = (edits.map Replacement.growth).sum := by
  induction edits generalizing diffs delta position with
  | nil =>
    have empty : diffs = [] := map_eq_nil_iff.mp mappings
    rw [empty]
    rfl
  | cons e edits ih =>
    obtain ⟨d, rest, rfl, isMapping, later⟩ := map_eq_cons_iff.mp mappings
    have sum := ih within.2.2 later
    have ordered := within.2.1
    have grown : d.outputRange.lineCount - d.inputRange.lineCount = e.growth := by
      rw [isMapping]
      simp only [mappingOf, Replacement.growth]
      omega
    rw [map_cons, sum_cons, ← sum, ← grown]
    rfl

/-- The output ranges behind a replacement start behind its output range. -/
theorem output_behind {last delta : Int} {second : List (Replacement α)}
    (behind : Within last e.stop second) {m : LineRangeMapping}
    (member : m ∈ mappingsOf (delta + e.growth) second) :
    (mappingOf delta e).outputRange.isBefore m.outputRange = true := by
  obtain ⟨between, f, later, rfl, rfl⟩ := exists_of_mem_mappingsOf member
  have sum := sum_growth_ge behind.split.1
  rw [LineRange.isBefore, decide_eq_true_eq, back_output_mappingOf]
  simp only [mappingOf]
  omega

/-- The output ranges in front of a replacement start in front of its output range. -/
theorem output_before {position : Int} {first : List (Replacement α)}
    (before : Within e.start position first) (apart : ∀ f ∈ first, f.stop < e.start)
    {m : LineRangeMapping} (member : m ∈ mappingsOf 0 first) :
    (mappingOf (first.map Replacement.growth).sum e).outputRange.isBefore m.outputRange =
      false := by
  obtain ⟨left, f, right, rfl, rfl⟩ := exists_of_mem_mappingsOf member
  have parts := before.split
  have gap := apart f (by simp)
  have inside : Within (e.start - 1) f.stop right := by
    apply parts.2.2.of_stops (by omega)
    intro other member
    have stop := apart other (by simp [member])
    omega
  have sum := sum_growth_ge inside
  rw [LineRange.isBefore, decide_eq_false_iff_not, back_output_mappingOf]
  simp only [mappingOf, Replacement.growth, map_append, map_cons, sum_append, sum_cons] at sum ⊢
  omega

end Replacements

/-! ## The invariant -/

/-- All diffs are different objects, and the next object is a new one. -/
structure Allocated (diffs : List DetailedLineRangeMapping) (nextRef : Nat) : Prop where
  distinct : (diffs.map (·.ref)).Nodup
  old : ∀ d ∈ diffs, d.ref < nextRef

/-- The diffs behind some of the diffs are replaced by new objects. -/
theorem Allocated.renew {before rest behind : List DetailedLineRangeMapping} {nextRef : Nat}
    (allocated : Allocated (before ++ rest) nextRef) {count : Nat}
    (refs : behind.map (·.ref) = List.range' nextRef count) :
    Allocated (before ++ behind) (nextRef + count) := by
  have distinct := allocated.distinct
  rw [map_append, nodup_append] at distinct
  have isOld : ∀ d ∈ before, d.ref < nextRef := fun d member =>
    allocated.old d (mem_append_left _ member)
  have isNew : ∀ ref ∈ behind.map (·.ref), nextRef ≤ ref ∧ ref < nextRef + count := by
    rw [refs]
    intro ref member
    exact mem_range'_1.mp member
  constructor
  · rw [map_append, nodup_append]
    refine ⟨distinct.1, refs ▸ nodup_range', ?_⟩
    intro ref member other member' same
    obtain ⟨d, inBefore, rfl⟩ := mem_map.mp member
    have less := isOld d inBefore
    have above := (isNew other member').1
    omega
  · intro d member
    obtain inBefore | inBehind := mem_append.mp member
    · exact Nat.lt_add_right _ (isOld d inBefore)
    · exact (isNew d.ref (mem_map_of_mem inBehind)).2

/-- A document has a line, and its lines are plain. -/
structure Document (lines : List Text) : Prop where
  nonempty : lines ≠ []
  plain : ∀ line ∈ lines, Plain line

/-- A line range edit of a document. -/
theorem Document.push {front old back newLines : List Text} {edit : LineRangeEdit}
    (document : Document (front ++ (old ++ back)))
    (start : edit.range.startLineNumber = front.length + 1)
    (count : edit.range.lineCount = old.length) (isNew : edit.newLines = newLines)
    (plain : ∀ line ∈ newLines, Plain line) (stays : front ++ (newLines ++ back) ≠ []) :
    pushEditOperation (front ++ (old ++ back)) (edit.toEdit (front ++ (old ++ back)).length) =
      front ++ (newLines ++ back) ∧ Document (front ++ (newLines ++ back)) := by
  have linesPlain : ∀ line ∈ front ++ (newLines ++ back), Plain line := by
    have oldPlain := document.plain
    intro line member
    simp only [mem_append] at member oldPlain
    rcases member with inFront | inNew | inBack
    · exact oldPlain line (.inl inFront)
    · exact plain line inNew
    · exact oldPlain line (.inr (.inr inBack))
  exact ⟨pushEditOperation_toEdit start count isNew linesPlain document.nonempty stays,
    stays, linesPlain⟩

/-- The result is the base with the replacements made in it, the diffs are theirs. -/
structure Exact (t : TextModelDiffs) (edits : List (Replacement Text)) : Prop where
  upToDate : t.state = .upToDate
  within : Within (t.base.length + 1) 1 edits
  apart : Apart edits
  mappings : t.diffs.map (·.toLineRangeMapping) = mappingsOf 0 edits
  lines : t.lines = patch t.base 1 edits
  baseDocument : Document t.base
  document : Document t.lines
  allocated : Allocated t.diffs t.nextRef

/-- The replacement of an edit. -/
def LineRangeEdit.replacement (edit : LineRangeEdit) : Replacement Text :=
  ⟨edit.range.startLineNumber, edit.range.endLineNumberExclusive, edit.newLines⟩

theorem LineRangeEdit.growth_replacement (edit : LineRangeEdit) :
    edit.replacement.growth = TextModelDiffs.growthOf edit := by
  simp only [replacement, Replacement.growth, TextModelDiffs.growthOf,
    LineRange.endLineNumberExclusive]
  omega

theorem mappingOf_replacement (edit : LineRangeEdit) (delta : Int) (ref : Nat) :
    (TextModelDiffs.editMapping edit delta ref).toLineRangeMapping =
      mappingOf delta edit.replacement := by
  obtain ⟨⟨start, count, nonneg⟩, newLines⟩ := edit
  simp only [TextModelDiffs.editMapping, mappingOf, LineRangeEdit.replacement,
    LineRangeMapping.mk.injEq, LineRange.mk.injEq, LineRange.endLineNumberExclusive, true_and,
    and_true]
  omega

namespace Exact

variable {t : TextModelDiffs} {edits first second : List (Replacement Text)}
  {d : DetailedLineRangeMapping}

/-- Reverting the diff of a replacement takes the replacement away. -/
theorem removeDiff {e : Replacement Text} {before behind : List DetailedLineRangeMapping}
    (exact : Exact t (first ++ e :: second)) (split : t.diffs = before ++ d :: behind)
    (sameIndex : before.length = first.length) :
    ∃ t' behind', t.removeDiff d = some t' ∧ Exact t' (first ++ second) ∧ t'.base = t.base ∧
      t'.diffs = before ++ behind' := by
  have mappings := exact.mappings
  rw [split, map_append, mappingsOf_append, map_cons, mappingsOf, Int.zero_add] at mappings
  obtain ⟨beforeMappings, rest⟩ := append_inj mappings (by
    rw [length_map, length_mappingsOf, sameIndex])
  obtain ⟨isMapping, behindMappings⟩ := cons_eq_cons.mp rest
  obtain ⟨isBefore, ordered, isBehind⟩ := exact.within.split
  obtain ⟨-, later, across⟩ := pairwise_append.mp exact.apart
  have start := isBefore.le
  have stop := isBehind.le
  have bounded : e.stop ≤ 1 + (t.base.length : Int) := by omega
  obtain ⟨front, back, frontLength, -, withText, without⟩ :=
    exists_parts isBefore ordered isBehind bounded
  generalize old : (t.base.drop (e.start - 1).toNat).take (e.stop - e.start).toNat = inputLines
    at without
  have input : getLines t.base d.inputRange = some inputLines := by
    have inBase : d.inputRange.lineCount = 0 ∨ 1 ≤ d.inputRange.startLineNumber ∧
        d.inputRange.endLineNumberExclusive ≤ t.base.length + 1 := by
      right
      rw [isMapping, back_input_mappingOf ordered]
      exact ⟨start, stop⟩
    rw [getLines, if_pos inBase, isMapping, ← old]
    simp only [mappingOf, Int.toNat_natCast]
  have removed := TextModelDiffs.removeDiff_eq split exact.allocated.distinct
    (fun other member => by
      rw [isMapping]
      apply output_before isBefore fun f inFirst => across f inFirst e (by simp)
      rw [← beforeMappings]
      exact mem_map_of_mem member)
    (fun other member => by
      rw [isMapping]
      apply output_behind isBehind
      rw [← behindMappings]
      exact mem_map_of_mem member) input
  have isLines : t.lines = front ++ (e.text ++ back) := by rw [exact.lines, withText]
  have stays : front ++ (inputLines ++ back) ≠ [] := by
    rw [← without]
    exact patch_ne_nil_of_apart exact.baseDocument.nonempty exact.within exact.apart
  have plain : ∀ line ∈ inputLines, Plain line := by
    rw [← old]
    intro line member
    exact exact.baseDocument.plain line (mem_of_mem_drop (mem_of_mem_take member))
  obtain ⟨pushed, document⟩ := @Document.push _ _ _ _ ⟨d.outputRange, inputLines⟩
    (isLines ▸ exact.document) (by
      rw [isMapping]
      simp only [mappingOf]
      omega) (by
      rw [isMapping]
      rfl) rfl plain stays
  rw [← isLines] at pushed
  rw [pushed] at removed
  refine ⟨_, _, removed, ?_, rfl, rfl⟩
  exact {
    upToDate := exact.upToDate
    within := within_append isBefore (isBehind.of_le ordered)
    apart := List.Pairwise.sublist ((sublist_cons_self e second).append_left first) exact.apart
    mappings := by
      have growth : d.inputRange.lineCount - d.outputRange.lineCount = -e.growth := by
        rw [isMapping]
        simp only [mappingOf, Replacement.growth]
        omega
      have moved := mappingsOf_add ((first.map Replacement.growth).sum + e.growth) (-e.growth)
        second
      have cancel : (first.map Replacement.growth).sum + e.growth + -e.growth =
          (first.map Replacement.growth).sum := by omega
      rw [cancel] at moved
      rw [map_append, mappings_shiftAll, behindMappings, beforeMappings, mappingsOf_append,
        Int.zero_add, growth, moved]
    lines := without.symm
    baseDocument := exact.baseDocument
    document
    allocated := (split ▸ exact.allocated).renew (refs_shiftAll _ _ _) }

/-- An edit that touches no diff has each replacement on one of its sides. -/
theorem exists_sides {edit : LineRangeEdit} (exact : Exact t edits)
    (conflictFree : ∀ d ∈ t.diffs, d.inputRange.touches edit.range = false) :
    ∃ first second, edits = first ++ second ∧ (∀ e ∈ first, e.stop < edit.range.startLineNumber) ∧
      ∀ e ∈ second, edit.range.endLineNumberExclusive < e.start := by
  apply exists_split exact.within exact.apart
  intro e member
  obtain ⟨left, right, rfl⟩ := append_of_mem member
  have inMappings : mappingOf (left.map Replacement.growth).sum e ∈
      mappingsOf 0 (left ++ e :: right) := by
    rw [mappingsOf_append, mappingsOf, Int.zero_add]
    simp
  rw [← exact.mappings] at inMappings
  obtain ⟨d, inDiffs, isMapping⟩ := mem_map.mp inMappings
  have free := conflictFree d inDiffs
  rw [isMapping, LineRange.touches, back_input_mappingOf exact.within.split.2.1,
    Bool.and_eq_false_iff, decide_eq_false_iff_not, decide_eq_false_iff_not] at free
  simp only [mappingOf] at free
  omega

/-- The text part of accepting an edit. -/
theorem pushEdit {edit : LineRangeEdit} (exact : Exact t (first ++ second))
    (isBefore : Within edit.range.startLineNumber 1 first)
    (isBehind : Within (t.base.length + 1) edit.range.endLineNumberExclusive second)
    (newPlain : ∀ line ∈ edit.newLines, Plain line)
    (keeps : edit.range.lineCount < t.lines.length + edit.newLines.length) :
    pushEditOperation t.lines (LineRangeEdit.toEdit
        ⟨edit.range.delta (first.map Replacement.growth).sum, edit.newLines⟩ t.lines.length) =
      patch t.base 1 (first ++ edit.replacement :: second) ∧
    Document (patch t.base 1 (first ++ edit.replacement :: second)) := by
  have nonneg := edit.range.nonneg
  have ordered : edit.range.startLineNumber ≤ edit.range.endLineNumberExclusive := by
    rw [LineRange.endLineNumberExclusive]
    omega
  have starts := isBefore.le
  have ends := isBehind.le
  obtain ⟨front, back, frontLength, -, withText, without⟩ := @exists_parts _ t.base _ 1 first
    second edit.replacement isBefore ordered isBehind (by
      simp only [LineRangeEdit.replacement]
      omega)
  simp only [LineRangeEdit.replacement] at frontLength without
  generalize isOld : (t.base.drop (edit.range.startLineNumber - 1).toNat).take
    (edit.range.endLineNumberExclusive - edit.range.startLineNumber).toNat = old at without
  have oldLength : edit.range.lineCount = old.length := by
    rw [← isOld, length_take, length_drop]
    simp only [LineRange.endLineNumberExclusive] at ends ⊢
    omega
  have isLines : t.lines = front ++ (old ++ back) := by rw [exact.lines, without]
  have stays : front ++ (edit.newLines ++ back) ≠ [] := by
    rw [isLines] at keeps
    intro empty
    simp only [append_eq_nil_iff] at empty
    obtain ⟨rfl, noNew, rfl⟩ := empty
    simp only [noNew, nil_append, append_nil, length_nil] at keeps
    omega
  have document := exact.document
  rw [isLines] at document ⊢
  rw [withText]
  apply @Document.push _ _ _ _ ⟨edit.range.delta (first.map Replacement.growth).sum,
    edit.newLines⟩ document _ oldLength rfl newPlain stays
  simp only [LineRange.delta]
  omega

/-- Accepting an edit puts its replacement between the others. -/
theorem applyEdit {edit : LineRangeEdit} (exact : Exact t edits)
    (starts : 1 ≤ edit.range.startLineNumber)
    (ends : edit.range.endLineNumberExclusive ≤ t.base.length + 1)
    (conflictFree : ∀ d ∈ t.diffs, d.inputRange.touches edit.range = false)
    (newPlain : ∀ line ∈ edit.newLines, Plain line)
    (keeps : edit.range.lineCount < t.lines.length + edit.newLines.length) :
    ∃ t' first second before behind delta, edits = first ++ second ∧
      t.applyEditRelativeToOriginal edit = some t' ∧
      Exact t' (first ++ edit.replacement :: second) ∧ t'.base = t.base ∧
      t'.diffs = before ++ TextModelDiffs.editMapping edit delta t.nextRef :: behind ∧
      before.length = first.length := by
  obtain ⟨first, second, rfl, firstBefore, secondBehind⟩ := exact.exists_sides conflictFree
  have mappings := exact.mappings
  rw [mappingsOf_append, Int.zero_add] at mappings
  obtain ⟨before, behind, split, beforeMappings, behindMappings⟩ :=
    map_eq_append_iff.mp mappings
  obtain ⟨inFirst, inSecond⟩ := exact.within.of_append
  have isBefore : Within edit.range.startLineNumber 1 first :=
    inFirst.of_stops starts fun e member => Int.le_of_lt (firstBefore e member)
  have isBehind : Within (t.base.length + 1) edit.range.endLineNumberExclusive second :=
    inSecond.of_starts ends fun e member => Int.le_of_lt (secondBehind e member)
  have growth := growthBefore_eq isBefore beforeMappings
  obtain ⟨pushed, document⟩ := exact.pushEdit isBefore isBehind newPlain keeps
  have applied := TextModelDiffs.applyEditRelativeToOriginal_eq exact.upToDate split
    (fun d member => by
      obtain ⟨left, e, right, rfl, isMapping⟩ := @exists_of_mem_mappingsOf _ 0 first
        d.toLineRangeMapping (by rw [← beforeMappings]; exact mem_map_of_mem member)
      rw [isMapping, back_input_mappingOf isBefore.split.2.1]
      exact firstBefore e (by simp))
    (fun d member => by
      obtain ⟨left, e, right, rfl, isMapping⟩ := @exists_of_mem_mappingsOf _ _ second
        d.toLineRangeMapping (by rw [← behindMappings]; exact mem_map_of_mem member)
      rw [isMapping]
      exact secondBehind e (by simp))
  rw [growth, pushed] at applied
  refine ⟨_, first, second, before, _, _, rfl, applied, ?_, rfl, rfl, ?_⟩
  · exact {
      upToDate := exact.upToDate
      within := by
        have nonneg := edit.range.nonneg
        refine within_append isBefore ⟨Int.le_refl _, ?_, isBehind⟩
        simp only [LineRangeEdit.replacement, LineRange.endLineNumberExclusive]
        omega
      apart := by
        obtain ⟨left, right, across⟩ := pairwise_append.mp exact.apart
        apply pairwise_append.mpr
        refine ⟨left, pairwise_cons.mpr ⟨secondBehind, right⟩, ?_⟩
        intro e member f member'
        obtain rfl | member' := mem_cons.mp member'
        · exact firstBefore e member
        · exact across e member f member'
      mappings := by
        rw [map_append, map_cons, mappings_shiftAll, behindMappings, beforeMappings,
          mappingsOf_append, Int.zero_add, mappingsOf, mappingOf_replacement, mappingsOf_add,
          edit.growth_replacement]
      lines := rfl
      baseDocument := exact.baseDocument
      document
      allocated := by
        have renewed := @Allocated.renew before behind
          (TextModelDiffs.editMapping edit (first.map Replacement.growth).sum t.nextRef ::
            shiftAll (TextModelDiffs.growthOf edit) behind (t.nextRef + 1)) t.nextRef
          (split ▸ exact.allocated) (behind.length + 1) (by
            rw [map_cons, refs_shiftAll, range'_succ]
            rfl)
        rw [Nat.add_comm behind.length, ← Nat.add_assoc] at renewed
        exact renewed }
  · rw [← length_mappingsOf 0 first, ← beforeMappings, length_map]

/-! ## Reverting several diffs -/

theorem apart_iff (within : Within last position edits) {diffs : List DetailedLineRangeMapping}
    (mappings : diffs.map (·.toLineRangeMapping) = mappingsOf delta edits) :
    Apart edits ↔ diffs.Pairwise fun a b =>
      a.inputRange.endLineNumberExclusive < b.inputRange.startLineNumber := by
  have same : diffs.map (fun d =>
      (d.inputRange.startLineNumber, d.inputRange.endLineNumberExclusive)) =
      edits.map fun e => (e.start, e.stop) := by
    induction edits generalizing diffs delta position with
    | nil => rw [map_eq_nil_iff.mp mappings, map_nil, map_nil]
    | cons e edits ih =>
      obtain ⟨d, rest, rfl, isMapping, later⟩ := map_eq_cons_iff.mp mappings
      rw [map_cons, map_cons, ih within.2.2 later, isMapping, back_input_mappingOf within.2.1]
      rfl
  have viaDiffs : (diffs.map fun d =>
      (d.inputRange.startLineNumber, d.inputRange.endLineNumberExclusive)).Pairwise
      (fun a b : Int × Int => a.2 < b.1) ↔ _ := pairwise_map
  rw [same] at viaDiffs
  exact pairwise_map.symm.trans viaDiffs

section

variable (exact : Exact t edits)

include exact

theorem ascending : t.diffs.Pairwise fun a b =>
    a.inputRange.startLineNumber < b.inputRange.startLineNumber := by
  apply ((apart_iff exact.within exact.mappings).mp exact.apart).imp
  intro a b apart
  have nonneg := a.inputRange.nonneg
  rw [LineRange.endLineNumberExclusive] at apart
  omega

/-- A diff is known by where it starts. -/
theorem eq_of_start {a b : DetailedLineRangeMapping} (inDiffs : a ∈ t.diffs)
    (inDiffs' : b ∈ t.diffs) (same : a.inputRange.startLineNumber = b.inputRange.startLineNumber) :
    a = b := by
  have distinct : (t.diffs.map (·.inputRange.startLineNumber)).Nodup := by
    apply pairwise_map.mpr
    exact exact.ascending.imp fun less => ne_of_lt less
  exact inj_on_of_nodup_map distinct inDiffs inDiffs' same

/-- One turn of the loop of `removeDiffs`; the diffs in front stay as they are. -/
theorem removeDiff_of_mem (member : d ∈ t.diffs) :
    ∃ t' edits', t.removeDiff d = some t' ∧ Exact t' edits' ∧ t'.base = t.base ∧ ∀ other ∈ t.diffs,
        other.inputRange.startLineNumber < d.inputRange.startLineNumber → other ∈ t'.diffs := by
  obtain ⟨before, behind, split⟩ := append_of_mem member
  have length : edits.length = before.length + (behind.length + 1) := by
    have both := congrArg List.length exact.mappings
    rw [length_map, length_mappingsOf, split, length_append, length_cons] at both
    exact both.symm
  have inside : before.length < edits.length := by omega
  have parts : edits = edits.take before.length ++
      edits.get ⟨before.length, inside⟩ :: edits.drop (before.length + 1) := by
    rw [get_eq_getElem, getElem_cons_drop, take_append_drop]
  rw [parts] at exact
  obtain ⟨t', behind', removed, exact', base, diffs⟩ := exact.removeDiff split (by
    rw [length_take]
    omega)
  refine ⟨t', _, removed, exact', base, ?_⟩
  intro other inDiffs isBefore
  have ascending := exact.ascending
  rw [split, pairwise_append, pairwise_cons] at ascending
  rw [split] at inDiffs
  rw [diffs]
  rcases mem_append.mp inDiffs with inBefore | rest
  · exact mem_append_left _ inBefore
  · exfalso
    obtain rfl | inBehind := mem_cons.mp rest
    · omega
    · have behind := ascending.2.1.1 other inBehind
      omega

variable {removed : List DetailedLineRangeMapping}

theorem foldlM_removeDiff (members : ∀ d ∈ removed, d ∈ t.diffs)
    (descending : removed.Pairwise fun a b =>
      b.inputRange.startLineNumber < a.inputRange.startLineNumber) :
    ∃ t' edits', removed.foldlM TextModelDiffs.removeDiff t = some t' ∧ Exact t' edits' ∧
      t'.base = t.base := by
  induction removed generalizing t edits with
  | nil => exact ⟨t, edits, rfl, exact, rfl⟩
  | cons d removed ih =>
    obtain ⟨lower, descending⟩ := pairwise_cons.mp descending
    obtain ⟨next, edits', first, exact', base, stay⟩ :=
      exact.removeDiff_of_mem (members d (by simp))
    obtain ⟨t', edits'', rest, exact'', base'⟩ := ih exact' (fun other member =>
        stay other (members other (mem_cons_of_mem _ member)) (lower other member))
      descending
    refine ⟨t', edits'', ?_, exact'', base'.trans base⟩
    rw [foldlM_cons, first]
    exact rest

/-- Reverting some of the diffs. -/
theorem removeDiffs (distinct : removed.Nodup) (members : ∀ d ∈ removed, d ∈ t.diffs) :
    ∃ t' edits', t.removeDiffs removed = some t' ∧ Exact t' edits' ∧ t'.base = t.base := by
  rw [TextModelDiffs.removeDiffs, if_neg (by simp [exact.upToDate])]
  apply exact.foldlM_removeDiff
  · intro d member
    exact members d (mem_mergeSort.mp (mem_reverse.mp member))
  · apply pairwise_reverse.mpr
    have sorted := @pairwise_mergeSort _ (fun a b : DetailedLineRangeMapping =>
      decide (a.inputRange.startLineNumber ≤ b.inputRange.startLineNumber))
      (fun a b c => by simpa using le_trans) (fun a b => by simpa using le_total _ _)
      removed
    have nodup := (mergeSort_perm removed fun a b : DetailedLineRangeMapping =>
      decide (a.inputRange.startLineNumber ≤ b.inputRange.startLineNumber)).nodup_iff.mpr distinct
    apply (sorted.and nodup).imp_of_mem
    intro a b inSorted inSorted' related
    have different : a.inputRange.startLineNumber ≠ b.inputRange.startLineNumber := by
      intro same
      apply related.2
      exact exact.eq_of_start (members a (mem_mergeSort.mp inSorted))
        (members b (mem_mergeSort.mp inSorted')) same
    have le := of_decide_eq_true related.1
    omega

end

end Exact

end CodeEditor.MergeEditor
