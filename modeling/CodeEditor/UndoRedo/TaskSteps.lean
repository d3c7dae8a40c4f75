import CodeEditor.UndoRedo.Moving

/-!
# What the tasks keep

Under a condition on the state before it, every step keeps the elements of several resources
settled, and does not look for an edit stack that is missing.
-/

namespace CodeEditor.UndoRedo

open List

namespace UndoRedoService

variable {service after : UndoRedoService}

/-- A step that keeps what a run relies on. -/
structure Progress (service after : UndoRedoService) : Prop where
  wellFormed : after.WellFormed
  settled : after.Settled
  later : service.Later after

/-- Only the elements that are not observed have to be looked at. -/
theorem Evolves.progress_of (evolves : service.Evolves observed after) (settled : service.Settled)
    (others : ∀ element, ¬observed element → (after.element element).isWorkspace →
      (after.placement element).Settled) : service.Progress after where
  wellFormed := evolves.wellFormed
  settled element known workspace := by
    by_cases isObserved : observed element
    · by_cases old : element < service.stackElementCounter
      · exact evolves.settled settled old isObserved workspace
      · exact evolves.added element (Nat.le_of_not_lt old) known isObserved workspace
    · exact others element isObserved workspace
  later := evolves.later

theorem Evolves.progress (evolves : service.Evolves (fun _ => True) after)
    (settled : service.Settled) : service.Progress after :=
  evolves.progress_of settled fun _ notTrue => absurd trivial notTrue

theorem progress_pushElement (wellFormed : service.WellFormed) (settled : service.Settled)
    (pushed : PushedElement) : service.Progress (service.pushElement pushed) := by
  apply (Evolves.pushElement wellFormed pushed).progress_of settled
  intro element isPushed _
  rw [not_ne_iff.mp isPushed]
  exact settled_pushed wellFormed pushed

/-! ## Tasks -/

/-- An element of several resources that has been pushed. -/
def IsTracked (service : UndoRedoService) (element : Nat) : Prop :=
  element < service.stackElementCounter ∧ (service.element element).isWorkspace

/-- A snapshot of the edit stacks of an element. An edit stack that still has its version is
still that of its resource. -/
def SnapshotOk (service : UndoRedoService) (element : Nat)
    (editStackSnapshot : EditStackSnapshot) : Prop :=
  List.Forall₂ (fun strResource entry => entry.1 = 0 ∨
      entry.1 < service.stackCounter ∧ entry.2 ≤ (service.stack entry.1).versionId ∧
        ((service.stack entry.1).versionId = entry.2 →
          service.get strResource = some entry.1))
    (service.element element).strResources editStackSnapshot

/-- What is known of a waiting task. -/
def TaskOk (service : UndoRedoService) : Task → Prop
  | .chooseUndo _ element editStackSnapshot =>
    service.IsTracked element ∧ service.SnapshotOk element editStackSnapshot
  | .prepareWorkspace _ _ element editStackSnapshot _ =>
    service.IsTracked element ∧ service.SnapshotOk element editStackSnapshot
  | .prepareResource _ editStack element _ =>
    (editStack ≠ 0 ∧ editStack < service.stackCounter) ∧
      element < service.stackElementCounter ∧ ¬(service.element element).isWorkspace
  | _ => True

variable {element : Nat}

theorem Later.isTracked (later : service.Later after) (tracked : service.IsTracked element) :
    after.IsTracked element :=
  ⟨lt_of_lt_of_le tracked.1 later.elementCounter, by
    rw [later.kind element tracked.1]
    exact tracked.2⟩

theorem Later.snapshotOk (later : service.Later after) (tracked : service.IsTracked element)
    (snapshot : service.SnapshotOk element editStackSnapshot) :
    after.SnapshotOk element editStackSnapshot := by
  unfold SnapshotOk
  rw [later.resources element tracked.1]
  apply snapshot.imp
  rintro strResource entry (missing | ⟨known, version, current⟩)
  · exact .inl missing
  · have versions := later.versions entry.1 known
    refine .inr ⟨lt_of_lt_of_le known later.stackCounter, version.trans versions, ?_⟩
    intro same
    have unchanged : (service.stack entry.1).versionId = entry.2 := by omega
    exact later.mapped strResource entry.1 (current unchanged) (by omega)

theorem Later.taskOk (later : service.Later after) (ok : service.TaskOk task) :
    after.TaskOk task := by
  cases task with
  | chooseUndo _ element editStackSnapshot =>
    exact ⟨later.isTracked ok.1, later.snapshotOk ok.1 ok.2⟩
  | prepareWorkspace _ _ element editStackSnapshot _ =>
    exact ⟨later.isTracked ok.1, later.snapshotOk ok.1 ok.2⟩
  | prepareResource _ editStack element _ =>
    refine ⟨⟨ok.1.1, lt_of_lt_of_le ok.1.2 later.stackCounter⟩,
      lt_of_lt_of_le ok.2.1 later.elementCounter, ?_⟩
    rw [later.kind element ok.2.1]
    exact ok.2.2
  | call => trivial
  | confirmUndo => trivial
  | invoke => trivial

theorem snapshotOk_getAffectedEditStacks (wellFormed : service.WellFormed) (element : Nat) :
    service.SnapshotOk element (service.getAffectedEditStacks element) := by
  unfold SnapshotOk getAffectedEditStacks
  rw [forall₂_map_right_iff, forall₂_same]
  intro strResource _
  cases found : service.get strResource with
  | none => exact .inl rfl
  | some id =>
    exact .inr ⟨(wellFormed.mapped strResource id found).2.1, Nat.le_refl _, fun _ => rfl⟩

/-- A check that is passed. -/
structure CheckPassed (service : UndoRedoService) (direction : Direction) (element : Nat)
    (editStackSnapshot : EditStackSnapshot) : Prop where
  complete : (service.element element).removedResources = []
  closest : ∀ entry ∈ editStackSnapshot,
    (service.stack entry.1).getClosestElement direction = some element
  unlocked : ∀ entry ∈ editStackSnapshot, (service.stack entry.1).locked = false
  unchanged : ∀ entry ∈ editStackSnapshot, (service.stack entry.1).versionId = entry.2

theorem checkPassed (passed : service.checkWorkspace direction element editStackSnapshot
      checkInvalidatedResources = none) :
    service.CheckPassed direction element editStackSnapshot := by
  unfold checkWorkspace at passed
  dsimp only at passed
  split at passed
  · cases passed
  next complete =>
  split at passed
  · cases passed
  split at passed
  · cases passed
  next closest =>
  split at passed
  · cases passed
  next unlocked =>
  split at passed
  · cases passed
  next unchanged =>
  refine ⟨not_ne_iff.mp complete, ?_, ?_, ?_⟩
  · simpa using closest
  · simpa using unlocked
  · simpa [isSnapshotValid] using unchanged

/-- The edit stacks of a snapshot that passes the check are those of the element. -/
theorem CheckPassed.isAffected (wellFormed : service.WellFormed)
    (passed : service.CheckPassed direction element editStackSnapshot)
    (snapshot : service.SnapshotOk element editStackSnapshot) :
    service.IsAffected element (editStackSnapshot.map Prod.fst) := by
  unfold IsAffected
  unfold SnapshotOk at snapshot
  have entries : ∀ entry ∈ editStackSnapshot, entry.1 ≠ 0 ∧
      (service.stack entry.1).versionId = entry.2 := by
    intro entry member
    refine ⟨fun missing => ?_, passed.unchanged entry member⟩
    have closest := passed.closest entry member
    rw [missing, ResourceEditStack.getClosestElement_eq, wellFormed.missing] at closest
    cases closest
  generalize (service.element element).strResources = strResources at snapshot
  clear passed
  induction snapshot with
  | nil => exact .nil
  | cons ok _ ih =>
    have first := entries _ mem_cons_self
    refine .cons ((ok.resolve_left first.1).2.2 first.2) (ih fun entry member => ?_)
    exact entries entry (mem_cons_of_mem _ member)

end UndoRedoService

/-!
## When a task keeps the elements settled

A step may unsettle an element of several resources when it takes it out of an edit stack without
recording it, or when it splits an element that an ignored resource still has. A split may look
for a missing edit stack when its element is in no edit stack any more.
-/

namespace UndoRedoService

variable {service : UndoRedoService}

/-! ## Conditions -/

/-- When the check fails, an element that can be split may be split. -/
def MaySplitIfChecked (service : UndoRedoService) (direction : Direction) (element : Nat)
    (editStackSnapshot : EditStackSnapshot) (checkInvalidatedResources : Bool) : Prop :=
  ∀ ignoreResources, service.checkWorkspace direction element editStackSnapshot
      checkInvalidatedResources = some ignoreResources →
    (service.element element).canSplit →
    service.MaySplit direction element ignoreResources

/-- A request that comes to an invalid element flushes an edit stack whose elements may be
taken. -/
def MayRequest (service : UndoRedoService) (direction : Direction) (strResource : String)
    (sourceId : Nat) (undoConfirmed : Bool) : Prop :=
  ∀ editStack element,
    service.opening direction strResource sourceId undoConfirmed = .inr (editStack, element) →
    if (service.element element).isWorkspace then
      service.MaySplitIfChecked direction element (service.getAffectedEditStacks element) false
    else (service.element element).isValid = false →
      ∀ side, ∀ flushed ∈ (service.stack editStack).elements side,
        service.MayTake strResource flushed

/-- After a preparation of one resource, another element that is now on top may be taken. -/
def MayMove (service : UndoRedoService) (direction : Direction) (editStack element : Nat) :
    Prop :=
  ∀ popped, (service.stack editStack).getClosestElement direction = some popped →
    popped ≠ element → ∀ strResource, service.get strResource = some editStack →
    service.MayTake strResource popped

def MayResume (service : UndoRedoService) (answer : Answer) : Task → Prop
  | .call direction strResource sourceId undoConfirmed =>
    service.MayRequest direction strResource sourceId undoConfirmed
  | .confirmUndo _ _ => True
  | .chooseUndo _ element editStackSnapshot =>
    match answer.choice with
    | .cancel => True
    | .this => service.MaySplit .undo element []
    | .all => service.MaySplitIfChecked .undo element editStackSnapshot false
  | .prepareWorkspace direction _ element editStackSnapshot _ =>
    answer.succeeds → service.MaySplitIfChecked direction element editStackSnapshot true
  | .prepareResource direction editStack element _ =>
    answer.succeeds → service.MayMove direction editStack element
  | .invoke _ _ _ _ => True

/-! ## Steps -/

/-- An outcome that a run can go on with. -/
structure ProgressTo (service : UndoRedoService) (outcome : Outcome) : Prop where
  progress : service.Progress outcome.service
  tasks : ∀ task ∈ outcome.tasks, outcome.service.TaskOk task
  noError : outcome.typeError = false

theorem progressTo_of_evolves {after : UndoRedoService} {tasks : List Task} {moves : List Move}
    (settled : service.Settled) (evolves : service.Evolves (fun _ => True) after)
    (ok : ∀ task ∈ tasks, after.TaskOk task) :
    service.ProgressTo ⟨after, tasks, moves, false⟩ := ⟨evolves.progress settled, ok, rfl⟩

section

variable {element : Nat} (wellFormed : service.WellFormed) (settled : service.Settled)
  (strResource : String) (tracked : service.IsTracked element)

include wellFormed settled strResource tracked

theorem progressTo_splitAndCall (may : service.MaySplit direction element ignoreResources)
    (individuals : List (String × Bool)) : service.ProgressTo
      (service.splitAndCall direction strResource element ignoreResources individuals) := by
  have completed := completed_splitWorkspaceElement settled tracked.1 tracked.2 may individuals
  have evolves : service.Evolves (fun _ => True)
      (service.splitWorkspaceElement direction element ignoreResources individuals).1 :=
    .splitWorkspaceElement wellFormed tracked.1 individuals fun _ _ => ⟨settled, may⟩
  unfold splitAndCall
  dsimp only
  rw [if_pos completed]
  apply progressTo_of_evolves settled evolves
  intro task member
  rw [mem_singleton.mp member]
  trivial

theorem progressTo_tryToSplit (may : (service.element element).canSplit →
      service.MaySplit direction element ignoreResources) (individuals : List (String × Bool)) :
    service.ProgressTo
      (service.tryToSplit direction strResource element ignoreResources individuals) := by
  unfold tryToSplit
  split
  next canSplit =>
      exact progressTo_splitAndCall wellFormed settled strResource tracked (may canSplit)
        individuals
  next =>
      exact progressTo_of_evolves settled (.removeAll wellFormed _)
        fun _ member => absurd member not_mem_nil

end

variable {direction : Direction}

theorem progressTo_moveAndInvoke {moved : UndoRedoService} {element : Nat} {editStacks : List Nat}
    {undoConfirmed : Bool} (moves : service.moveAll direction element editStacks = moved)
    (wellFormed : service.WellFormed) (progress : service.Progress moved) :
    service.ProgressTo (service.moveAndInvoke direction element editStacks undoConfirmed) := by
  unfold moveAndInvoke
  dsimp only
  rw [moves]
  split
  · exact ⟨progress, fun _ member => absurd member not_mem_nil, rfl⟩
  · have locked : moved.Progress (moved.setLocked editStacks true) :=
      Evolves.progress (.setLocked progress.wellFormed _ _) progress.settled
    refine ⟨⟨locked.wellFormed, locked.settled,
      progress.later.trans wellFormed locked.later⟩, ?_, rfl⟩
    intro task member
    rw [mem_singleton.mp member]
    trivial

section

variable (wellFormed : service.WellFormed) (settled : service.Settled)

include wellFormed settled

/-- An element of several resources is moved when the check is passed. -/
theorem progressTo_workspaceMove {element : Nat} {editStackSnapshot : EditStackSnapshot}
    (undoConfirmed : Bool) (tracked : service.IsTracked element)
    (snapshot : service.SnapshotOk element editStackSnapshot)
    (passed : service.CheckPassed direction element editStackSnapshot) :
    service.ProgressTo (service.moveAndInvoke direction element
      (editStackSnapshot.map Prod.fst) undoConfirmed) := by
  have affected := passed.isAffected wellFormed snapshot
  have closest : ∀ id ∈ editStackSnapshot.map Prod.fst,
      (service.stack id).getClosestElement direction = some element := by
    intro id member
    obtain ⟨entry, isEntry, same⟩ := mem_map.mp member
    exact same ▸ passed.closest entry isEntry
  have moved : service.Evolves (· ≠ element)
      (service.moveAll direction element (editStackSnapshot.map Prod.fst)) := by
    apply Evolves.moveAll wellFormed (affected.nodup wellFormed) tracked.1
    · exact fun different => different rfl
    · intro id member
      obtain ⟨strResource, -, found⟩ := affected.exists_resource member
      exact ⟨(wellFormed.mapped strResource id found).1, closest id member⟩
  apply progressTo_moveAndInvoke rfl wellFormed
  apply moved.progress_of settled
  intro other isElement _
  rw [not_ne_iff.mp isElement]
  exact settled_moveAll wellFormed affected closest (settled element tracked.1 tracked.2)

/-- An element of one resource is moved, whatever is on top. -/
theorem progressTo_resourceMove {editStack element : Nat} (undoConfirmed : Bool)
    (isStack : editStack ≠ 0) (known : element < service.stackElementCounter)
    (single : ¬(service.element element).isWorkspace)
    (may : service.MayMove direction editStack element) : service.ProgressTo
      (service.moveAndInvoke direction element [editStack] undoConfirmed) := by
  apply progressTo_moveAndInvoke rfl wellFormed
  apply Evolves.progress _ settled
  exact Evolves.move wellFormed isStack known (fun _ => single) fun popped _ => may popped

theorem progressTo_workspaceRequest (strResource : String) {element : Nat} (undoConfirmed : Bool)
    (individuals : List (String × Bool)) (tracked : service.IsTracked element)
    (may : service.MaySplitIfChecked direction element
      (service.getAffectedEditStacks element) false) :
    service.ProgressTo (service.workspaceRequest direction strResource element undoConfirmed
      individuals) := by
  have snapshot := snapshotOk_getAffectedEditStacks wellFormed element
  unfold workspaceRequest
  dsimp only
  split
  next ignoreResources checked =>
      exact progressTo_tryToSplit wellFormed settled strResource tracked
        (may ignoreResources checked)
        individuals
  next =>
      split
      all_goals
        apply progressTo_of_evolves settled (.refl wellFormed)
        intro task member
        rw [mem_singleton.mp member]
        exact ⟨tracked, snapshot⟩

theorem progressTo_resourceRequest {editStack element : Nat} (undoConfirmed : Bool)
    (found : service.get strResource = some editStack)
    (closest : (service.stack editStack).getClosestElement direction = some element)
    (single : ¬(service.element element).isWorkspace)
    (may : (service.element element).isValid = false →
      ∀ side, ∀ flushed ∈ (service.stack editStack).elements side,
        service.MayTake strResource flushed) : service.ProgressTo
      (service.resourceRequest direction editStack element undoConfirmed) := by
  obtain ⟨isStack, isKnown, -⟩ := wellFormed.mapped strResource editStack found
  have known : element < service.stackElementCounter := by
    rw [ResourceEditStack.getClosestElement_eq] at closest
    exact wellFormed.known editStack direction element (mem_of_getLast? closest)
  unfold resourceRequest
  split
  next invalid =>
      refine progressTo_of_evolves settled ?_ fun _ member => absurd member not_mem_nil
      apply Evolves.modifyStack wellFormed isStack
      · rfl
      · exact Nat.le_succ _
      · intro side other member
        rw [ResourceEditStack.elements_flushAllElements] at member
        exact absurd member not_mem_nil
      · intro other _ _ side
        rw [ResourceEditStack.elements_flushAllElements]
        exact Nat.zero_le _
      · intro other _ workspace resource mapped stays side member
        right
        have same := wellFormed.get_injective mapped found
        subst same
        rcases may (Bool.eq_false_iff.mpr invalid) side other member workspace with
          recorded | nowhere
        · exact absurd recorded stays
        · exact nowhere
  split
  · exact progressTo_of_evolves settled (.refl wellFormed) fun _ member => absurd member not_mem_nil
  split
  · refine progressTo_of_evolves settled (.refl wellFormed) ?_
    intro task member
    rw [mem_singleton.mp member]
    exact ⟨⟨isStack, isKnown⟩, known, single⟩
  · apply progressTo_resourceMove wellFormed settled undoConfirmed isStack known single
    intro popped isPopped different
    rw [closest] at isPopped
    exact absurd (Option.some.inj isPopped).symm different

end

/-- Before the `try` block no task is left that depends on an element. -/
theorem taskOk_of_opening
    (opened : service.opening direction strResource sourceId undoConfirmed = .inl tasks) :
    ∀ task ∈ tasks, service.TaskOk task := by
  unfold opening at opened
  dsimp only at opened
  split at opened
  · cases opened
    exact fun _ member => absurd member not_mem_nil
  split at opened
  · cases opened
    exact fun _ member => absurd member not_mem_nil
  split at opened
  · cases opened
    intro task member
    rw [mem_singleton.mp member]
    trivial
  split at opened
  · cases opened
    intro task member
    rw [mem_singleton.mp member]
    trivial
  · cases opened

/-- The element to go on with is the closest one of the edit stack of the resource. -/
theorem closest_of_opening {editStack element : Nat}
    (opened : service.opening direction strResource sourceId undoConfirmed =
      .inr (editStack, element)) :
    service.get strResource = some editStack ∧
      (service.stack editStack).getClosestElement direction = some element := by
  unfold opening at opened
  dsimp only at opened
  split at opened
  · cases opened
  next found =>
  split at opened
  · cases opened
  next closest =>
  split at opened
  · cases opened
  split at opened
  · cases opened
  · cases opened
    exact ⟨found, closest⟩

section

variable (wellFormed : service.WellFormed) (settled : service.Settled)

include wellFormed settled

theorem progressTo_request (individuals : List (String × Bool))
    (may : service.MayRequest direction strResource sourceId undoConfirmed) :
    service.ProgressTo (service.request direction strResource sourceId undoConfirmed
      individuals) := by
  unfold request
  split
  next tasks opened =>
      exact progressTo_of_evolves settled (.refl wellFormed) (taskOk_of_opening opened)
  next editStack element opened =>
      have mayGoOn := may editStack element opened
      obtain ⟨found, closest⟩ := closest_of_opening opened
      split
      next workspace =>
          rw [if_pos workspace] at mayGoOn
          rw [ResourceEditStack.getClosestElement_eq] at closest
          have known := wellFormed.known editStack direction element (mem_of_getLast? closest)
          exact progressTo_workspaceRequest wellFormed settled strResource undoConfirmed individuals
            ⟨known, workspace⟩ mayGoOn
      next single =>
          rw [if_neg single] at mayGoOn
          exact progressTo_resourceRequest wellFormed settled undoConfirmed found closest single
            mayGoOn

variable {answer : Answer}

theorem progressTo_chosen (strResource : String) {element : Nat}
    (tracked : service.IsTracked element)
    (snapshot : service.SnapshotOk element editStackSnapshot)
    (may : service.MayResume answer (.chooseUndo strResource element editStackSnapshot)) :
    service.ProgressTo (service.chosen strResource element editStackSnapshot answer) := by
  unfold MayResume at may
  unfold chosen
  cases choice : answer.choice with
  | cancel =>
    exact progressTo_of_evolves settled (.refl wellFormed) fun _ member => absurd member not_mem_nil
  | this =>
    rw [choice] at may
    exact progressTo_splitAndCall wellFormed settled strResource tracked may answer.individuals
  | all =>
    rw [choice] at may
    dsimp only
    split
    next ignoreResources checked =>
        exact progressTo_tryToSplit wellFormed settled strResource tracked
          (may ignoreResources checked) answer.individuals
    next =>
        apply progressTo_of_evolves settled (.refl wellFormed)
        intro task member
        rw [mem_singleton.mp member]
        exact ⟨tracked, snapshot⟩

theorem progressTo_workspacePrepared (strResource : String) {element : Nat} (undoConfirmed : Bool)
    (tracked : service.IsTracked element)
    (snapshot : service.SnapshotOk element editStackSnapshot) (may : answer.succeeds →
      service.MaySplitIfChecked direction element editStackSnapshot true) :
    service.ProgressTo (service.workspacePrepared direction strResource element editStackSnapshot
      undoConfirmed answer) := by
  unfold workspacePrepared
  split
  next succeeds =>
      split
      next ignoreResources checked =>
          exact progressTo_tryToSplit wellFormed settled strResource tracked
            (may succeeds ignoreResources checked) answer.individuals
      next passed =>
          exact progressTo_workspaceMove wellFormed settled undoConfirmed tracked snapshot
            (checkPassed passed)
  next =>
      exact progressTo_of_evolves settled (.removeAll wellFormed _)
        fun _ member => absurd member not_mem_nil

theorem progressTo_invoked (direction : Direction) (element : Nat) (editStacks : List Nat)
    (undoConfirmed succeeds : Bool) : service.ProgressTo
      (service.invoked direction element editStacks undoConfirmed succeeds) := by
  have released : service.Evolves (fun _ => True) (service.setLocked editStacks false) :=
    .setLocked wellFormed _ _
  unfold invoked
  split
  · refine progressTo_of_evolves settled released ?_
    intro task member
    unfold continueInGroup at member
    split at member
    · exact absurd member not_mem_nil
    split at member
    · exact absurd member not_mem_nil
    · rw [mem_singleton.mp member]
      trivial
  · exact progressTo_of_evolves settled
      (released.trans wellFormed (.removeAll released.wellFormed _))
      fun _ member => absurd member not_mem_nil

/-- A task that may be resumed has an outcome that the run can go on with. -/
theorem progressTo_resume (ok : service.TaskOk task) (may : service.MayResume answer task) :
    service.ProgressTo (service.resume answer task) := by
  cases task with
  | call direction strResource sourceId undoConfirmed =>
    exact progressTo_request wellFormed settled answer.individuals may
  | confirmUndo strResource sourceId =>
    apply progressTo_of_evolves settled (.refl wellFormed)
    intro task member
    split at member
    · rw [mem_singleton.mp member]
      trivial
    · exact absurd member not_mem_nil
  | chooseUndo strResource element editStackSnapshot =>
    exact progressTo_chosen wellFormed settled strResource ok.1 ok.2 may
  | prepareWorkspace direction strResource element editStackSnapshot undoConfirmed =>
    exact progressTo_workspacePrepared wellFormed settled strResource undoConfirmed ok.1 ok.2 may
  | prepareResource direction editStack element undoConfirmed =>
    show service.ProgressTo (if answer.succeeds then _ else _)
    split
    next succeeds =>
        exact progressTo_resourceMove wellFormed settled undoConfirmed ok.1.1 ok.2.1 ok.2.2
          (may succeeds)
    next =>
        exact progressTo_of_evolves settled (.refl wellFormed)
          fun _ member => absurd member not_mem_nil
  | invoke direction element editStacks undoConfirmed =>
    exact progressTo_invoked wellFormed settled direction element editStacks undoConfirmed
      answer.succeeds

end

end UndoRedoService

end CodeEditor.UndoRedo
