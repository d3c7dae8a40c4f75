import CodeEditor.UndoRedo.TaskSteps

/-!
# Consistent edit stacks

An element of several resources is in all of their edit stacks, on the same side, except for the
resources that are recorded as removed. In a run whose steps meet their conditions this holds in
every state, and no step looks for a missing edit stack.
-/

namespace CodeEditor.UndoRedo

open List

namespace UndoRedoService

variable {service : UndoRedoService}

/-- Some edit stack of the map has the element. -/
def IsFound (service : UndoRedoService) (element : Nat) : Prop :=
  ∃ strResource id, service.get strResource = some id ∧
    element ∈ (service.stack id).past ++ (service.stack id).future

/-- Each resource of an element that is found, except for the removed ones, has an edit stack that
contains the element once; it is in the past of all these edit stacks or in the future of all. -/
def Consistent (service : UndoRedoService) : Prop :=
  ∀ element, (service.element element).isWorkspace → service.IsFound element →
    (∀ strResource ∈ (service.element element).strResources,
      strResource ∉ (service.element element).removedResources →
      ∃ id, service.get strResource = some id ∧
        ((service.stack id).past ++ (service.stack id).future).count element = 1) ∧
    ∃ side, ∀ strResource ∈ (service.element element).strResources,
      strResource ∉ (service.element element).removedResources →
      ∀ id, service.get strResource = some id → element ∈ (service.stack id).elements side

theorem Settled.consistent (wellFormed : service.WellFormed) (settled : service.Settled) :
    service.Consistent := by
  rintro element workspace ⟨foundResource, foundId, isMapped, member⟩
  obtain ⟨foundSide, held⟩ := ResourceEditStack.mem_past_append_future.mp member
  have known := wellFormed.known foundId foundSide element held
  rw [← side_of_get isMapped] at held
  obtain ⟨side, exactly⟩ := (settled element known workspace).exactly
    ⟨foundResource, foundSide, copies_pos_iff.mpr held⟩
  have mapped : ∀ strResource ∈ (service.element element).strResources,
      strResource ∉ (service.element element).removedResources →
      ∃ id, service.get strResource = some id := by
    intro strResource home stays
    have copies := (exactly strResource home stays).1
    obtain ⟨id, isId, -⟩ := exists_get_of_mem_side (copies_pos_iff.mp (by rw [copies]; decide))
    exact ⟨id, isId⟩
  constructor
  · intro strResource home stays
    obtain ⟨id, isId⟩ := mapped strResource home stays
    refine ⟨id, isId, ?_⟩
    obtain ⟨one, none⟩ := exactly strResource home stays
    have other := none side.opposite side.opposite_ne
    change (service.side strResource _).count element = _ at one other
    rw [side_of_get isId] at one other
    rw [count_append]
    cases side with
    | undo =>
      change (service.stack id).past.count element = 1 at one
      change (service.stack id).future.count element = 0 at other
      omega
    | redo =>
      change (service.stack id).future.count element = 1 at one
      change (service.stack id).past.count element = 0 at other
      omega
  · refine ⟨side, fun strResource home stays id isId => ?_⟩
    have copies := (exactly strResource home stays).1
    rw [← side_of_get isId]
    exact copies_pos_iff.mp (by rw [copies]; decide)

theorem wellFormed_new : new.WellFormed where
  counted := Nat.one_pos
  mapped _ _ found := nomatch found
  known _ direction _ member := by
    cases direction <;> exact absurd member not_mem_nil
  missing direction := by
    cases direction <;> rfl
  distinct _ := nodup_nil

theorem settled_new : new.Settled := fun _ known => absurd known (Nat.not_lt_zero _)

theorem taskOk_sourceTasks (service : UndoRedoService) (direction : Direction)
    (sourceId : Nat) : ∀ task ∈ service.sourceTasks direction sourceId, service.TaskOk task := by
  intro task member
  unfold sourceTasks at member
  split at member
  · exact absurd member not_mem_nil
  split at member
  · exact absurd member not_mem_nil
  split at member
  all_goals
    rw [mem_singleton.mp member]
    trivial

end UndoRedoService

namespace State

/-- The condition on a step: a snapshot that may be restored, or a task that may be resumed. -/
def MayStep (state : State) : Event → Prop
  | .restoreSnapshot strResource snapshot => state.service.MayRestore strResource snapshot
  | .resume position answer =>
    ∀ task, state.tasks[position]? = some task → state.service.MayResume answer task
  | _ => True

/-- Every step of a run meets its condition. -/
def MayRun (state : State) : List Event → Prop
  | [] => True
  | event :: events => state.MayStep event ∧ (state.step event).MayRun events

/-- What a run relies on. -/
structure Ok (state : State) : Prop where
  wellFormed : state.service.WellFormed
  settled : state.service.Settled
  tasks : ∀ task ∈ state.tasks, state.service.TaskOk task

theorem ok_new : new.Ok where
  wellFormed := UndoRedoService.wellFormed_new
  settled := UndoRedoService.settled_new
  tasks _ member := absurd member not_mem_nil

variable {state : State}

/-- The condition on a step lets the run go on with its outcome. -/
theorem Ok.progressTo_outcome (ok : state.Ok) (may : state.MayStep event) :
    state.service.ProgressTo (state.outcome event) := by
  have wellFormed := ok.wellFormed
  have settled := ok.settled
  cases event with
  | pushElement pushed =>
    exact ⟨UndoRedoService.progress_pushElement wellFormed settled pushed,
      fun _ member => absurd member not_mem_nil, rfl⟩
  | undoOrRedo direction strResource =>
    apply UndoRedoService.progressTo_of_evolves settled (.refl wellFormed)
    intro task member
    rw [mem_singleton.mp member]
    trivial
  | undoOrRedoWithSource direction sourceId =>
    exact UndoRedoService.progressTo_of_evolves settled (.refl wellFormed)
      (UndoRedoService.taskOk_sourceTasks state.service direction sourceId)
  | removeElements strResource =>
    exact UndoRedoService.progressTo_of_evolves settled (.removeElements wellFormed strResource)
      fun _ member => absurd member not_mem_nil
  | setElementsValidFlag strResource isValid filter =>
    exact UndoRedoService.progressTo_of_evolves settled
      (.setElementsValidFlag wellFormed strResource isValid filter)
      fun _ member => absurd member not_mem_nil
  | createSnapshot strResource =>
    exact UndoRedoService.progressTo_of_evolves settled (.refl wellFormed)
      fun _ member => absurd member not_mem_nil
  | restoreSnapshot strResource snapshot =>
    exact UndoRedoService.progressTo_of_evolves settled (.restoreSnapshot wellFormed fun _ _ => may)
      fun _ member => absurd member not_mem_nil
  | resume position answer =>
    unfold outcome
    dsimp only
    cases isTask : state.tasks[position]? with
    | none =>
      exact UndoRedoService.progressTo_of_evolves settled (.refl wellFormed)
        fun _ member => absurd member not_mem_nil
    | some task =>
      exact UndoRedoService.progressTo_resume wellFormed settled
        (ok.tasks task (mem_of_getElem? isTask)) (may task isTask)

theorem mem_tasks_of_mem_remaining {task : Task} (member : task ∈ state.remaining event) :
    task ∈ state.tasks := by
  cases event with
  | resume position answer => exact mem_of_mem_eraseIdx member
  | _ => exact member

theorem Ok.step (ok : state.Ok) {event : Event} (may : state.MayStep event) :
    (state.step event).Ok := by
  have goesOn := ok.progressTo_outcome may
  refine ⟨goesOn.progress.wellFormed, goesOn.progress.settled, fun task member => ?_⟩
  rcases mem_append.mp member with waiting | new
  · exact goesOn.progress.later.taskOk (ok.tasks task (mem_tasks_of_mem_remaining waiting))
  · exact goesOn.tasks task new

theorem Ok.run (ok : state.Ok) (may : state.MayRun events) : (state.run events).Ok := by
  induction events generalizing state with
  | nil => exact ok
  | cons event events ih => exact ih (ok.step may.1) may.2

end State

/-- In a run whose steps meet their conditions the edit stacks are consistent in every state, and
no further step that meets its condition dereferences a missing edit stack. -/
theorem bookkeeping_consistent (events : List Event) (may : State.new.MayRun events) :
    (State.new.run events).service.Consistent ∧
      ∀ event, (State.new.run events).MayStep event →
        ((State.new.run events).outcome event).typeError = false := by
  have ok := State.ok_new.run may
  exact ⟨ok.settled.consistent ok.wellFormed, fun event mayStep =>
    (ok.progressTo_outcome mayStep).noError⟩

/-- One file of an element of two files is closed, and the element is undone in the other file:
it is split without the closed file. -/
theorem bookkeeping_consistent_closed :
    (State.new.run [.pushElement ⟨true, ["a", "b"], 0, 0, 0, 0, false, true, false⟩,
      .removeElements "a", .undoOrRedo .undo "b",
      .resume 0 ⟨true, .all, [("b", false)]⟩]).service.Consistent := by
  apply (bookkeeping_consistent [_, _, _, _] ?_).1
  refine ⟨trivial, trivial, trivial, ?_, trivial⟩
  rintro _ ⟨⟩ editStack element opened
  have same : (editStack, element) = (2, 0) := Sum.inr.inj (opened.symm.trans rfl)
  cases same
  intro ignoreResources checked _
  have ignored : ignoreResources = ["a"] := Option.some.inj (checked.symm.trans rfl)
  subst ignored
  constructor
  · intro strResource isResource notIgnored _ missing
    have isSecond : strResource = "b" := by
      rcases mem_pair.mp isResource with isFirst | isSecond
      · exact absurd (mem_singleton.mpr isFirst) notIgnored
      · exact isSecond
    subst isSecond
    cases missing
  · intro _ _ _ _ _ other isIgnored side
    cases mem_singleton.mp isIgnored
    exact not_mem_nil

/-- An element of two files is pushed and a snapshot of the first file taken. After another
element, restoring the snapshot removes the edit stack of the first file, which is not recorded,
and undoing through the second file dereferences it. -/
theorem restoreSnapshot_forgets : ∃ before restored requested,
    State.new.run [.pushElement ⟨true, ["a", "b"], 0, 0, 0, 0, false, true, false⟩,
      .createSnapshot "a"] = before ∧
    before.run [.pushElement ⟨false, ["a"], 0, 0, 0, 0, false, false, false⟩,
      .restoreSnapshot "a" (before.service.createSnapshot "a")] = restored ∧
    ¬restored.service.Consistent ∧
    restored.run [.undoOrRedo .undo "b"] = requested ∧
    (requested.outcome (.resume 0 ⟨true, .all, [("a", false), ("b", false)]⟩)).typeError =
      true := by
  refine ⟨_, _, _, rfl, rfl, fun consistent => ?_, rfl, rfl⟩
  have bookkeeping := consistent 0 rfl ⟨"b", 2, rfl, mem_cons_self⟩
  obtain ⟨id, isMapped, -⟩ := bookkeeping.1 "a" mem_cons_self not_mem_nil
  cases isMapped

end CodeEditor.UndoRedo
