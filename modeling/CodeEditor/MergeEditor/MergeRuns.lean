import CodeEditor.MergeEditor.ExactDiffs
import CodeEditor.Foundation.Simulation

/-!
# Sequences of accepted and reverted hunks

Commands of the merge editor one after the other, and the diffs of the result at the end
of every sequence.
-/

namespace CodeEditor.MergeEditor

open Simulation List

inductive MergeCommand
  | applyEditRelativeToOriginal (edit : LineRangeEdit)
  | removeDiffs (diffToRemoves : List DetailedLineRangeMapping)

namespace TextModelDiffs

def step (t : TextModelDiffs) : MergeCommand → Option TextModelDiffs
  | .applyEditRelativeToOriginal edit => t.applyEditRelativeToOriginal edit
  | .removeDiffs diffToRemoves => t.removeDiffs diffToRemoves

/-- The edit lies in the base or just behind it, touches no diff and leaves a line. -/
structure Acceptable (t : TextModelDiffs) (edit : LineRangeEdit) : Prop where
  starts : 1 ≤ edit.range.startLineNumber
  ends : edit.range.endLineNumberExclusive ≤ t.base.length + 1
  conflictFree : ∀ d ∈ t.diffs, d.inputRange.touches edit.range = false
  plain : ∀ line ∈ edit.newLines, Plain line
  keeps : edit.range.lineCount < t.lines.length + edit.newLines.length

def Permitted (t : TextModelDiffs) : MergeCommand → Prop
  | .applyEditRelativeToOriginal edit => t.Acceptable edit
  | .removeDiffs diffToRemoves => diffToRemoves.Nodup ∧ ∀ d ∈ diffToRemoves, d ∈ t.diffs

/-- The diffs are up to date and all objects are there. -/
structure Ready (t : TextModelDiffs) : Prop where
  upToDate : t.state = .upToDate
  base : Document t.base
  lines : Document t.lines
  allocated : Allocated t.diffs t.nextRef

/-- Consecutive diffs are at least one line apart in the base. -/
def DiffsApart (t : TextModelDiffs) : Prop :=
  t.diffs.IsChain fun a b =>
    a.inputRange.endLineNumberExclusive < b.inputRange.startLineNumber

/-- Replacing every base range by its output lines turns the base into the result. -/
def DiffsTurn (t : TextModelDiffs) : Prop :=
  Turns t.base t.lines (t.diffs.map (·.toLineRangeMapping))

instance (t : TextModelDiffs) : Decidable t.DiffsTurn :=
  inferInstanceAs (Decidable (patch _ _ _ = _))

/-- The unchanged parts of the base and of the result have equal lengths. -/
def DiffsAligned (t : TextModelDiffs) : Prop :=
  Gapped ⟨1, 1⟩ (t.diffs.map (·.toLineRangeMapping)) ∧
    (lastPlace ⟨1, 1⟩ (t.diffs.map (·.toLineRangeMapping))).input ≤ t.base.length + 1 ∧
    (t.lines.length : Int) =
      outputLineCount (t.diffs.map (·.toLineRangeMapping)) t.base.length

end TextModelDiffs

open TextModelDiffs

theorem pairwise_of_diffsApart {diffs : List DetailedLineRangeMapping}
    (apart : diffs.IsChain fun a b =>
      a.inputRange.endLineNumberExclusive < b.inputRange.startLineNumber) :
    diffs.Pairwise fun a b =>
      a.inputRange.endLineNumberExclusive < b.inputRange.startLineNumber := by
  have : Trans (fun a b : DetailedLineRangeMapping =>
        a.inputRange.endLineNumberExclusive < b.inputRange.startLineNumber)
      (fun a b : DetailedLineRangeMapping =>
        a.inputRange.endLineNumberExclusive < b.inputRange.startLineNumber)
      (fun a b : DetailedLineRangeMapping =>
        a.inputRange.endLineNumberExclusive < b.inputRange.startLineNumber) := by
    constructor
    intro a b c left right
    have nonneg := b.inputRange.nonneg
    simp only [LineRange.endLineNumberExclusive] at left right ⊢
    omega
  exact isChain_iff_pairwise.mp apart

theorem exists_exact {t : TextModelDiffs} (ready : t.Ready) (apart : t.DiffsApart)
    (turn : t.DiffsTurn) (aligned : t.DiffsAligned) : ∃ edits, Exact t edits := by
  obtain ⟨edits, within, mappings, lines⟩ :=
    IsDiff.exists_edits ⟨aligned.1, aligned.2.1, aligned.2.2, turn⟩
  have pairwise := pairwise_of_diffsApart apart
  exact ⟨edits, ready.upToDate, within, (Exact.apart_iff within mappings).mpr pairwise, mappings,
    lines, ready.base, ready.lines, ready.allocated⟩

namespace Exact

variable {t : TextModelDiffs} {edits : List (Replacement Text)}

section

variable (exact : Exact t edits)

include exact

theorem ready : t.Ready :=
  ⟨exact.upToDate, exact.baseDocument, exact.document, exact.allocated⟩

theorem diffsApart : t.DiffsApart :=
  ((apart_iff exact.within exact.mappings).mp exact.apart).isChain

theorem isDiff : IsDiff t.base t.lines (t.diffs.map (·.toLineRangeMapping)) := by
  rw [exact.mappings, exact.lines]
  exact isDiff_mappingsOf exact.within

theorem step {command : MergeCommand} (permitted : t.Permitted command) :
    ∃ t' edits', t.step command = some t' ∧ Exact t' edits' ∧ t'.base = t.base := by
  cases command with
  | applyEditRelativeToOriginal edit =>
    obtain ⟨starts, ends, conflictFree, plain, keeps⟩ := permitted
    obtain ⟨t', first, second, before, behind, delta, -, applied, exact', base, -⟩ :=
      exact.applyEdit starts ends conflictFree plain keeps
    exact ⟨t', _, applied, exact', base⟩
  | removeDiffs diffToRemoves => exact exact.removeDiffs permitted.1 permitted.2

/-- Reverting an accepted edit gives the lines back. -/
theorem revert (acceptable : t.Acceptable edit) :
    ∃ t' created t'', t.applyEditRelativeToOriginal edit = some t' ∧ created ∈ t'.diffs ∧
      created.inputRange = edit.range ∧
      (∀ d ∈ t'.diffs, d.inputRange = edit.range → d = created) ∧
      t'.removeDiffs [created] = some t'' ∧ t''.lines = t.lines := by
  obtain ⟨starts, ends, conflictFree, plain, keeps⟩ := acceptable
  obtain ⟨t', first, second, before, behind, delta, rfl, applied, exact', base, diffs, sameIndex⟩ :=
    exact.applyEdit starts ends conflictFree plain keeps
  obtain ⟨t'', behind', removed, exact'', base', -⟩ := exact'.removeDiff diffs sameIndex
  have inDiffs : editMapping edit delta t.nextRef ∈ t'.diffs := by
    rw [diffs]
    simp
  refine ⟨t', editMapping edit delta t.nextRef, t'', applied, inDiffs, rfl, ?_, ?_, ?_⟩
  · intro d member same
    apply exact'.eq_of_start member inDiffs
    rw [same]
    rfl
  · rw [TextModelDiffs.removeDiffs, if_neg (by simp [exact'.upToDate]), mergeSort_singleton]
    simp only [reverse_singleton, foldlM_cons, foldlM_nil]
    rw [removed]
    rfl
  · rw [exact''.lines, exact.lines, base', base]

end

end Exact

/-- The diffs stay exact along every sequence of accepted and reverted hunks, and reverting
what was just accepted restores the result. -/
theorem merge_runs_keep_diffs_exact {t : TextModelDiffs} {commands : List MergeCommand}
    (ready : t.Ready) (apart : t.DiffsApart) (turn : t.DiffsTurn) (aligned : t.DiffsAligned)
    (allowed : PermittedRun TextModelDiffs.step Permitted t commands) :
    ∃ t', run TextModelDiffs.step t commands = some t' ∧ t'.base = t.base ∧ t'.Ready ∧
      t'.DiffsApart ∧ t'.DiffsTurn ∧ t'.DiffsAligned ∧
      ∀ edit, t'.Acceptable edit →
        ∃ accepted created reverted, t'.applyEditRelativeToOriginal edit = some accepted ∧
          created ∈ accepted.diffs ∧ created.inputRange = edit.range ∧
          (∀ d ∈ accepted.diffs, d.inputRange = edit.range → d = created) ∧
          accepted.removeDiffs [created] = some reverted ∧ reverted.lines = t'.lines := by
  have simulates : ∀ (s : TextModelDiffs) (base : List Text) (command : MergeCommand),
      (s.base = base ∧ ∃ edits, Exact s edits) → s.Permitted command →
      ∃ s', s.step command = some s' ∧ s'.base = base ∧ ∃ edits, Exact s' edits := by
    rintro s base command ⟨rfl, edits, exact⟩ permitted
    obtain ⟨s', edits', stepped, exact', base'⟩ := exact.step permitted
    exact ⟨s', stepped, base', edits', exact'⟩
  obtain ⟨t', reached, base, edits, exact⟩ := @run_simulates _ _ _ _ _
    (fun s base => s.base = base ∧ ∃ edits, Exact s edits) (fun base _ => base) simulates
    commands t t.base ⟨rfl, exists_exact ready apart turn aligned⟩ allowed
  rw [foldl_fixed] at base
  have isDiff := exact.isDiff
  refine ⟨t', reached, base, exact.ready, exact.diffsApart, isDiff.turns,
    ⟨isDiff.gapped, isDiff.bounded, isDiff.length⟩, ?_⟩
  intro edit acceptable
  obtain ⟨accepted, created, reverted, applied⟩ := exact.revert acceptable
  exact ⟨accepted, created, reverted, applied⟩

/-- Four lines, the second of them replaced by two. -/
def sampleResult : TextModelDiffs where
  base := [[97], [98], [99], [100]]
  lines := [[97], [120], [121], [99], [100]]
  state := .upToDate
  diffs := [⟨⟨⟨2, 1, Int.one_nonneg⟩, ⟨2, 2, Int.natCast_nonneg 2⟩⟩, 0⟩]
  nextRef := 1

/-- The last line is replaced by another. -/
def sampleEdit : LineRangeEdit := ⟨⟨4, 1, Int.one_nonneg⟩, [[122]]⟩

theorem merge_runs_keep_diffs_exact_sample :
    ∃ t', run TextModelDiffs.step sampleResult
        [.applyEditRelativeToOriginal sampleEdit, .removeDiffs sampleResult.diffs] = some t' ∧
      t'.DiffsTurn := by
  have kept := @merge_runs_keep_diffs_exact sampleResult
    [.applyEditRelativeToOriginal sampleEdit, .removeDiffs sampleResult.diffs]
    ⟨rfl, ⟨by decide, by decide⟩, ⟨by decide, by decide⟩, ⟨by decide, by decide⟩⟩
    (by simp [DiffsApart, sampleResult]) (by decide)
    ⟨by decide, by decide, by decide⟩
    (by
      refine ⟨⟨by decide, by decide, by decide, by decide, by decide⟩, ?_⟩
      intro s' taken
      cases taken
      exact ⟨⟨by decide, by decide⟩, fun _ _ => trivial⟩)
  obtain ⟨t', reached, -, -, -, turn, -⟩ := kept
  exact ⟨t', reached, turn⟩

/-- Three equal lines with a diff whose output range is displaced. -/
def displacedResult : TextModelDiffs where
  base := [[97], [97], [97]]
  lines := [[97], [97], [97]]
  state := .upToDate
  diffs := [⟨⟨⟨1, 1, Int.one_nonneg⟩, ⟨3, 1, Int.one_nonneg⟩⟩, 0⟩]
  nextRef := 1

/-- Equal lines can make a displaced diff right, but not for long. -/
theorem displaced_diff_turns_wrong :
    ∃ edit t', displacedResult.Ready ∧ displacedResult.DiffsApart ∧ displacedResult.DiffsTurn ∧
      displacedResult.Permitted (.applyEditRelativeToOriginal edit) ∧
      displacedResult.step (.applyEditRelativeToOriginal edit) = some t' ∧ ¬t'.DiffsTurn := by
  refine ⟨⟨⟨3, 1, Int.one_nonneg⟩, [[98]]⟩, { displacedResult with
    lines := [[97], [97], [98]]
    diffs := displacedResult.diffs ++ [⟨⟨⟨3, 1, Int.one_nonneg⟩, ⟨3, 1, Int.one_nonneg⟩⟩, 1⟩]
    nextRef := 2 }, ?_, ?_, ?_, ?_, ?_, ?_⟩
  · exact ⟨rfl, ⟨by decide, by decide⟩, ⟨by decide, by decide⟩, ⟨by decide, by decide⟩⟩
  · simp [DiffsApart, displacedResult]
  · decide
  · exact ⟨by decide, by decide, by decide, by decide, by decide⟩
  · decide
  · decide

end CodeEditor.MergeEditor
