import CodeEditor.UndoRedo.SplitStacks

/-!
# What is moved

Undo and redo move the closest element of an edit stack that is not locked, and lock it while the
element is invoked. Meanwhile a second undo or redo leaves the edit stack alone, or flushes it
for an invalid element, or splits an element of several resources out of it. A preparation of one
resource is the exception: the edit stack is not looked at again when it ends.
-/

namespace CodeEditor.UndoRedo

open List Bool Nat

/-- The edit stacks that are locked for a task. -/
def Task.heldStacks : Task → List Nat
  | .invoke _ _ editStacks _ => editStacks
  | _ => []

/-- The moved element was the closest one of an unlocked edit stack. All elements keep their
order, and the moved one has left its side. -/
structure Move.IsExact (before after : UndoRedoService) (move : Move) : Prop where
  unlocked : (before.stack move.editStack).locked = false
  closest : (before.stack move.editStack).getClosestElement move.direction = some move.element
  order : (after.stack move.editStack).createSnapshot =
    (before.stack move.editStack).createSnapshot
  left : move.element ∉ (after.stack move.editStack).elements move.direction

namespace UndoRedoService

variable {service after : UndoRedoService}

/-- What undo and redo may do to a locked edit stack: nothing, or flush it when its closest element
is invalid, or split an element of several resources. -/
def Spares (service after : UndoRedoService) (id : Nat) : Prop :=
  (∀ side, (after.stack id).elements side = (service.stack id).elements side) ∨
  (∃ direction element, (service.stack id).getClosestElement direction = some element ∧
    (service.element element).isValid = false ∧
    ∀ side, (after.stack id).elements side = []) ∨
  ∃ direction toRemove individual, service.IsTracked toRemove ∧
    ∀ side, (after.stack id).elements side =
      ((service.stack id).splitWorkspaceElement direction toRemove individual).elements side

/-- Locks are released and acquired. -/
structure Locking (service after : UndoRedoService) (released acquired : List Nat) : Prop where
  locked : ∀ id < service.stackCounter, ((after.stack id).locked = true ↔
    (service.stack id).locked = true ∧ id ∉ released ∨ id ∈ acquired)
  unlocked : ∀ id < after.stackCounter, service.stackCounter ≤ id →
    (after.stack id).locked = false
  free : ∀ id ∈ acquired, (service.stack id).locked = false ∧ id ≠ 0 ∧
    id < service.stackCounter
  once : acquired.Nodup

theorem KeepsLocks.locking (keeps : service.KeepsLocks after) : service.Locking after [] [] where
  locked id known := by
    rw [keeps.locked id known]
    simp
  unlocked := keeps.unlocked
  free _ member := absurd member not_mem_nil
  once := nodup_nil

/-- An outcome that is orderly: it moves exactly, and keeps elements distinct. -/
structure Orderly (service : UndoRedoService) (released : List Nat) (outcome : Outcome) :
    Prop where
  wellFormed : outcome.service.WellFormed
  later : service.Later outcome.service
  tasks : ∀ task ∈ outcome.tasks, outcome.service.TaskOk task
  distinct : outcome.service.Distinct
  locking : service.Locking outcome.service released (outcome.tasks.flatMap Task.heldStacks)
  exact : ∀ move ∈ outcome.moves, move.IsExact service outcome.service
  once : (outcome.moves.map Move.editStack).Nodup

/-- An orderly outcome that spares locked edit stacks. -/
structure Sparing (service : UndoRedoService) (released : List Nat) (outcome : Outcome) :
    Prop extends service.Orderly released outcome where
  spares : ∀ id, (service.stack id).locked = true → service.Spares outcome.service id

/-- An outcome without a move that leaves the locks alone. -/
theorem orderly_of_keepsLocks {tasks : List Task} {typeError : Bool}
    (keeps : service.KeepsLocks after) (distinct : after.Distinct)
    (ok : ∀ task ∈ tasks, after.TaskOk task)
    (holdNothing : tasks.flatMap Task.heldStacks = []) :
    service.Orderly [] ⟨after, tasks, [], typeError⟩ where
  wellFormed := keeps.evolves.wellFormed
  later := keeps.evolves.later
  tasks := ok
  distinct := distinct
  locking := by
    rw [holdNothing]
    exact keeps.locking
  exact _ member := absurd member not_mem_nil
  once := nodup_nil

section

variable (wellFormed : service.WellFormed) (distinct : service.Distinct)

include wellFormed distinct

theorem sparing_unchanged {tasks : List Task} (ok : ∀ task ∈ tasks, service.TaskOk task)
    (holdNothing : tasks.flatMap Task.heldStacks = []) :
    service.Sparing [] ⟨service, tasks, [], false⟩ :=
  ⟨orderly_of_keepsLocks (.refl wellFormed) distinct ok holdNothing, fun _ _ => .inl fun _ => rfl⟩

theorem sparing_removeAll (strResources : List String) :
    service.Sparing [] ⟨service.removeAll strResources, [], [], false⟩ := by
  have same : ∀ id side, ((service.removeAll strResources).stack id).elements side =
      (service.stack id).elements side := elements_removeAll strResources
  have shrinks : service.Shrinks (service.removeAll strResources) := by
    intro id side
    rw [same]
  exact ⟨orderly_of_keepsLocks (.removeAll wellFormed strResources) (shrinks.distinct distinct)
    (fun _ member => absurd member not_mem_nil) rfl, fun id _ => .inl (same id)⟩

section

variable {element : Nat} (direction : Direction) (strResource : String)
  (ignoreResources : List String) (tracked : service.IsTracked element)
  (individuals : List (String × Bool))

include direction strResource ignoreResources tracked individuals

theorem sparing_splitAndCall : service.Sparing []
      (service.splitAndCall direction strResource element ignoreResources individuals) := by
  obtain ⟨keeps, splitOnce⟩ := splitOnce_splitWorkspaceElement wellFormed direction element
    ignoreResources individuals
  have distinctThen : (service.splitWorkspaceElement direction element ignoreResources
      individuals).1.Distinct :=
    distinct_splitWorkspaceElement wellFormed distinct element ignoreResources individuals
  have spares : ∀ id, (service.stack id).locked = true → service.Spares
      (service.splitWorkspaceElement direction element ignoreResources individuals).1 id := by
    intro id _
    rcases splitOnce id with unchanged | ⟨other, split⟩
    · exact .inl unchanged
    · exact .inr (.inr ⟨direction, element, _, tracked, split⟩)
  unfold splitAndCall
  dsimp only
  split
  · refine ⟨orderly_of_keepsLocks keeps distinctThen (fun task member => ?_) rfl, spares⟩
    rw [mem_singleton.mp member]
    trivial
  · exact ⟨orderly_of_keepsLocks keeps distinctThen
      (fun _ member => absurd member not_mem_nil) rfl, spares⟩

theorem sparing_tryToSplit : service.Sparing []
      (service.tryToSplit direction strResource element ignoreResources individuals) := by
  unfold tryToSplit
  split
  · exact sparing_splitAndCall wellFormed distinct direction strResource ignoreResources tracked
      individuals
  · exact sparing_removeAll wellFormed distinct _

end

variable {element : Nat}

/-- Moving the closest element of unlocked edit stacks, which are then locked. -/
theorem sparing_moveAndInvoke {editStacks : List Nat} (undoConfirmed : Bool)
    (nodup : editStacks.Nodup) (known : element < service.stackElementCounter)
    (ready : ∀ id ∈ editStacks, (id ≠ 0 ∧ id < service.stackCounter) ∧
      (service.stack id).locked = false ∧
      (service.stack id).getClosestElement direction = some element) : service.Sparing []
      (service.moveAndInvoke direction element editStacks undoConfirmed) := by
  have closest : ∀ id ∈ editStacks, id ≠ 0 ∧
      (service.stack id).getClosestElement direction = some element :=
    fun id member => ⟨(ready id member).1.1, (ready id member).2.2⟩
  have moved : service.KeepsLocks (service.moveAll direction element editStacks) :=
    .moveAll wellFormed nodup known closest
  have movedDistinct := distinct_moveAll distinct nodup fun id member => (closest id member).2
  have stackAt : ∀ id, (service.moveAll direction element editStacks).stack id =
      if id ∈ editStacks then (service.stack id).move direction element else service.stack id :=
    stack_moveAll direction element nodup
  have free : ¬(editStacks.any fun id =>
      ((service.moveAll direction element editStacks).stack id).locked) = true := by
    rw [any_eq_true]
    rintro ⟨id, member, isLocked⟩
    rw [moved.locked id (ready id member).1.2, (ready id member).2.1] at isLocked
    exact false_ne_true isLocked
  unfold moveAndInvoke
  rw [if_neg free]
  have locks : (service.moveAll direction element editStacks).Evolves (fun _ => False)
      ((service.moveAll direction element editStacks).setLocked editStacks true) :=
    .setLocked moved.evolves.wellFormed editStacks true
  have lists : ∀ id side, (((service.moveAll direction element editStacks).setLocked editStacks
      true).stack id).elements side =
      ((service.moveAll direction element editStacks).stack id).elements side :=
    elements_setLocked editStacks true
  have held : [Task.invoke direction element editStacks undoConfirmed].flatMap
      Task.heldStacks = editStacks := by
    simp [Task.heldStacks]
  refine ⟨⟨locks.wellFormed, moved.evolves.later.trans wellFormed locks.later, ?_, ?_, ?_, ?_,
    ?_⟩, ?_⟩
  · intro task member
    rw [mem_singleton.mp member]
    trivial
  · apply Shrinks.distinct _ movedDistinct
    intro id side
    rw [lists]
  · dsimp only
    rw [held]
    refine ⟨fun id knownId => ?_, fun _ new old => ?_, fun id member => ?_, nodup⟩
    · have same := moved.locked id knownId
      rw [stack_setLocked]
      split
      next member => simp [member]
      next notMember => simp [notMember, same]
    · have counter := stackCounter_moveAll service direction element editStacks
      exact absurd (counter ▸ new) (Nat.not_lt_of_le old)
    · exact ⟨(ready id member).2.1, (ready id member).1⟩
  · intro move member
    obtain ⟨id, isId, rfl⟩ := mem_map.mp member
    have isClosest := (closest id isId).2
    have after : ∀ side, (((service.moveAll direction element editStacks).setLocked editStacks
        true).stack id).elements side =
        ((service.stack id).move direction element).elements side := by
      intro side
      rw [lists, stackAt, if_pos isId]
    refine ⟨(ready id isId).2.1, isClosest, ?_, ?_⟩
    · rw [← ResourceEditStack.createSnapshot_move isClosest]
      have past := after .undo
      have future := after .redo
      exact congrArg₂ (fun past future : List Nat => past ++ future.reverse) past future
    · dsimp only
      rw [after, ResourceEditStack.elements_move, if_pos rfl]
      rw [ResourceEditStack.getClosestElement_eq] at isClosest
      have sideNodup : ((service.stack id).elements direction).Nodup := by
        cases direction with
        | undo => exact (distinct id).sublist (sublist_append_left _ _)
        | redo => exact (distinct id).sublist (sublist_append_right _ _)
      rw [← dropLast_append_getLast? element isClosest] at sideNodup
      intro stillThere
      exact (nodup_append.mp sideNodup).2.2 element stillThere element
        (mem_singleton_self element) rfl
  · rw [map_map]
    exact (map_id editStacks).symm ▸ nodup
  · intro id isLocked
    have notMember : id ∉ editStacks := by
      intro member
      rw [(ready id member).2.1] at isLocked
      exact false_ne_true isLocked
    left
    intro side
    rw [lists, stackAt, if_neg notMember]

theorem sparing_workspaceMove (undoConfirmed : Bool) (tracked : service.IsTracked element)
    (snapshot : service.SnapshotOk element editStackSnapshot)
    (passed : service.CheckPassed direction element editStackSnapshot) :
    service.Sparing [] (service.moveAndInvoke direction element
      (editStackSnapshot.map Prod.fst) undoConfirmed) := by
  have affected := passed.isAffected wellFormed snapshot
  apply sparing_moveAndInvoke wellFormed distinct undoConfirmed (affected.nodup wellFormed)
    tracked.1
  intro id member
  obtain ⟨strResource, -, found⟩ := affected.exists_resource member
  obtain ⟨isStack, known, -⟩ := wellFormed.mapped strResource id found
  obtain ⟨entry, isEntry, same⟩ := mem_map.mp member
  subst same
  exact ⟨⟨isStack, known⟩, passed.unlocked entry isEntry, passed.closest entry isEntry⟩

theorem sparing_workspaceRequest (direction : Direction) (strResource : String)
    (undoConfirmed : Bool) (individuals : List (String × Bool))
    (tracked : service.IsTracked element) :
    service.Sparing [] (service.workspaceRequest direction strResource element undoConfirmed
      individuals) := by
  have snapshot := snapshotOk_getAffectedEditStacks wellFormed element
  unfold workspaceRequest
  dsimp only
  split
  · exact sparing_tryToSplit wellFormed distinct direction strResource _ tracked individuals
  · split
    all_goals
      refine sparing_unchanged wellFormed distinct ?_ rfl
      intro task member
      rw [mem_singleton.mp member]
      exact ⟨tracked, snapshot⟩

theorem sparing_resourceRequest {editStack element : Nat} (undoConfirmed : Bool)
    (found : service.get strResource = some editStack)
    (closest : (service.stack editStack).getClosestElement direction = some element)
    (single : ¬(service.element element).isWorkspace) : service.Sparing []
      (service.resourceRequest direction editStack element undoConfirmed) := by
  obtain ⟨isStack, isKnown, -⟩ := wellFormed.mapped strResource editStack found
  have known : element < service.stackElementCounter := by
    rw [ResourceEditStack.getClosestElement_eq] at closest
    exact wellFormed.known editStack direction element (mem_of_getLast? closest)
  unfold resourceRequest
  split
  next invalid =>
      have flushed : service.Evolves (fun _ => False)
          (service.modifyStack editStack .flushAllElements) := by
        apply Evolves.modifyStack wellFormed isStack
        · rfl
        · exact le_succ _
        · intro side other member
          rw [ResourceEditStack.elements_flushAllElements] at member
          exact absurd member not_mem_nil
        · exact fun _ isFalse => isFalse.elim
        · exact fun _ isFalse => isFalse.elim
      refine ⟨orderly_of_keepsLocks (.modifyStack flushed rfl) ?_
        (fun _ member => absurd member not_mem_nil) rfl, ?_⟩
      · apply (shrinks_modifyStack fun side => ?_).distinct distinct
        rw [ResourceEditStack.elements_flushAllElements]
        exact nil_sublist _
      · intro id _
        by_cases same : id = editStack
        · subst same
          refine .inr (.inl ⟨direction, element, closest, eq_false_iff.mpr invalid, ?_⟩)
          intro side
          rw [stack_modifyStack, if_pos rfl, ResourceEditStack.elements_flushAllElements]
        · left
          intro side
          rw [stack_modifyStack, if_neg same]
  split
  · exact sparing_unchanged wellFormed distinct (fun _ member => absurd member not_mem_nil) rfl
  next unlocked =>
  split
  · refine sparing_unchanged wellFormed distinct ?_ rfl
    intro task member
    rw [mem_singleton.mp member]
    exact ⟨⟨isStack, isKnown⟩, known, single⟩
  · apply sparing_moveAndInvoke wellFormed distinct undoConfirmed (nodup_singleton _) known
    intro id member
    rw [mem_singleton.mp member]
    exact ⟨⟨isStack, isKnown⟩, eq_false_iff.mpr unlocked, closest⟩

end

/-- The tasks before the `try` block hold no edit stack. -/
theorem holdNothing_of_opening
    (opened : service.opening direction strResource sourceId undoConfirmed = .inl tasks) :
    tasks.flatMap Task.heldStacks = [] := by
  unfold opening at opened
  dsimp only at opened
  split at opened
  · cases opened
    rfl
  split at opened
  · cases opened
    rfl
  split at opened
  · cases opened
    rfl
  split at opened
  · cases opened
    rfl
  · cases opened

section

variable (wellFormed : service.WellFormed) (distinct : service.Distinct)

include wellFormed distinct

theorem sparing_request (direction : Direction) (strResource : String) (sourceId : Nat)
    (undoConfirmed : Bool) (individuals : List (String × Bool)) : service.Sparing []
      (service.request direction strResource sourceId undoConfirmed individuals) := by
  unfold request
  split
  next tasks opened =>
      exact sparing_unchanged wellFormed distinct (taskOk_of_opening opened)
        (holdNothing_of_opening opened)
  next editStack element opened =>
      obtain ⟨found, closest⟩ := closest_of_opening opened
      split
      next workspace =>
          rw [ResourceEditStack.getClosestElement_eq] at closest
          have known := wellFormed.known editStack direction element (mem_of_getLast? closest)
          exact sparing_workspaceRequest wellFormed distinct direction strResource undoConfirmed
            individuals ⟨known, workspace⟩
      next single =>
          exact sparing_resourceRequest wellFormed distinct undoConfirmed found closest single

theorem sparing_chosen (strResource : String) {element : Nat} (answer : Answer)
    (tracked : service.IsTracked element)
    (snapshot : service.SnapshotOk element editStackSnapshot) :
    service.Sparing [] (service.chosen strResource element editStackSnapshot answer) := by
  unfold chosen
  split
  · exact sparing_unchanged wellFormed distinct (fun _ member => absurd member not_mem_nil) rfl
  · exact sparing_splitAndCall wellFormed distinct .undo strResource [] tracked answer.individuals
  · split
    · exact sparing_tryToSplit wellFormed distinct .undo strResource _ tracked answer.individuals
    · refine sparing_unchanged wellFormed distinct ?_ rfl
      intro task member
      rw [mem_singleton.mp member]
      exact ⟨tracked, snapshot⟩

theorem sparing_workspacePrepared (direction : Direction) (strResource : String) {element : Nat}
    (undoConfirmed : Bool) (answer : Answer) (tracked : service.IsTracked element)
    (snapshot : service.SnapshotOk element editStackSnapshot) :
    service.Sparing [] (service.workspacePrepared direction strResource element
      editStackSnapshot undoConfirmed answer) := by
  unfold workspacePrepared
  split
  · split
    · exact sparing_tryToSplit wellFormed distinct direction strResource _ tracked
        answer.individuals
    next passed =>
        exact sparing_workspaceMove wellFormed distinct undoConfirmed tracked snapshot
          (checkPassed passed)
  · exact sparing_removeAll wellFormed distinct _

/-- The end of an invocation releases its locks. -/
theorem sparing_invoked (direction : Direction) (element : Nat) (editStacks : List Nat)
    (undoConfirmed succeeds : Bool) : service.Sparing editStacks
      (service.invoked direction element editStacks undoConfirmed succeeds) := by
  have released : service.Evolves (fun _ => False) (service.setLocked editStacks false) :=
    .setLocked wellFormed editStacks false
  have lists : ∀ id side, ((service.setLocked editStacks false).stack id).elements side =
      (service.stack id).elements side := elements_setLocked editStacks false
  have distinctThen : (service.setLocked editStacks false).Distinct := by
    apply Shrinks.distinct _ distinct
    intro id side
    rw [lists]
  have locks : service.Locking (service.setLocked editStacks false) editStacks [] := by
    refine ⟨fun id _ => ?_, fun _ new old => absurd new (Nat.not_lt_of_le old),
      fun _ member => absurd member not_mem_nil, nodup_nil⟩
    rw [stack_setLocked]
    split
    next member => simp [member]
    next notMember => simp [notMember]
  unfold invoked
  dsimp only
  split
  · have holdNothing : ((service.setLocked editStacks false).continueInGroup direction element
        undoConfirmed).flatMap Task.heldStacks = [] := by
      unfold continueInGroup
      split
      · rfl
      · split <;> rfl
    refine ⟨⟨released.wellFormed, released.later, ?_, distinctThen, ?_,
      fun _ member => absurd member not_mem_nil, nodup_nil⟩,
      fun id _ => .inl (lists id)⟩
    · intro task member
      unfold continueInGroup at member
      split at member
      · exact absurd member not_mem_nil
      split at member
      · exact absurd member not_mem_nil
      · rw [mem_singleton.mp member]
        trivial
    · dsimp only
      rw [holdNothing]
      exact locks
  · have removed := sparing_removeAll released.wellFormed distinctThen
      ((service.setLocked editStacks false).element element).strResources
    refine ⟨⟨removed.wellFormed, released.later.trans wellFormed removed.later, removed.tasks,
      removed.distinct, ?_, fun _ member => absurd member not_mem_nil, nodup_nil⟩,
      fun id _ => .inl fun side => ?_⟩
    · refine ⟨fun id known => ?_, removed.locking.unlocked,
        fun _ member => absurd member not_mem_nil, nodup_nil⟩
      have keeps : (service.setLocked editStacks false).KeepsLocks _ :=
        .removeAll released.wellFormed
          ((service.setLocked editStacks false).element element).strResources
      rw [keeps.locked id known]
      exact locks.locked id known
    · dsimp only
      rw [elements_removeAll, lists]

end

end UndoRedoService

/-! ## Runs -/

namespace State

/-- Every edit stack that is locked is held by exactly one running invocation, and no edit stack
holds an element twice. -/
structure Exclusive (state : State) : Prop where
  distinct : state.service.Distinct
  heldOnce : (state.tasks.flatMap Task.heldStacks).Nodup
  held : ∀ id ∈ state.tasks.flatMap Task.heldStacks, id ≠ 0 ∧ id < state.service.stackCounter
  locked : ∀ id < state.service.stackCounter, id ≠ 0 →
    ((state.service.stack id).locked = true ↔ id ∈ state.tasks.flatMap Task.heldStacks)

/-- What an event does to the edit stacks: every move is exact, no edit stack is moved twice, and
when a task goes on, locked edit stacks are spared. -/
structure ExactStep (state : State) (event : Event) : Prop where
  moves : ∀ move ∈ (state.outcome event).moves,
    move.IsExact state.service (state.step event).service
  once : ((state.outcome event).moves.map Move.editStack).Nodup
  spares : ∀ position answer, event = .resume position answer →
    ∀ id, (state.service.stack id).locked = true →
      state.service.Spares (state.step event).service id

/-- When the preparation of one resource has succeeded, its element is still the closest one of an
unlocked edit stack. -/
def PreparedStep (state : State) : Event → Prop
  | .resume position answer => ∀ direction editStack element undoConfirmed,
      state.tasks[position]? =
        some (.prepareResource direction editStack element undoConfirmed) →
      answer.succeeds →
      (state.service.stack editStack).locked = false ∧
        (state.service.stack editStack).getClosestElement direction = some element
  | _ => True

def PreparedRun (state : State) : List Event → Prop
  | [] => True
  | event :: events => state.PreparedStep event ∧ (state.step event).PreparedRun events

/-- What a run relies on. -/
structure Steady (state : State) : Prop extends state.Exclusive where
  wellFormed : state.service.WellFormed
  tasks : ∀ task ∈ state.tasks, state.service.TaskOk task

/-- The locks that the resumed task holds. -/
def released (state : State) : Event → List Nat
  | .resume position _ => (state.tasks[position]?.map Task.heldStacks).getD []
  | _ => []

variable {state : State}

theorem sparing_resume (steady : state.Steady) {position : Nat} {answer : Answer}
    (isTask : state.tasks[position]? = some task)
    (prepared : state.PreparedStep (.resume position answer)) :
    state.service.Sparing task.heldStacks (state.service.resume answer task) := by
  have wellFormed := steady.wellFormed
  have distinct := steady.distinct
  have ok := steady.tasks task (mem_of_getElem? isTask)
  cases task with
  | call direction strResource sourceId undoConfirmed =>
    exact UndoRedoService.sparing_request wellFormed distinct direction strResource sourceId
      undoConfirmed answer.individuals
  | confirmUndo strResource sourceId =>
    apply UndoRedoService.sparing_unchanged wellFormed distinct
    · intro task member
      split at member
      · rw [mem_singleton.mp member]
        trivial
      · exact absurd member not_mem_nil
    · split <;> rfl
  | chooseUndo strResource element editStackSnapshot =>
    exact UndoRedoService.sparing_chosen wellFormed distinct strResource answer ok.1 ok.2
  | prepareWorkspace direction strResource element editStackSnapshot undoConfirmed =>
    exact UndoRedoService.sparing_workspacePrepared wellFormed distinct direction strResource
      undoConfirmed answer ok.1 ok.2
  | prepareResource direction editStack element undoConfirmed =>
    show state.service.Sparing [] (if answer.succeeds then _ else _)
    split
    next succeeds =>
        have ready := prepared direction editStack element undoConfirmed isTask succeeds
        apply UndoRedoService.sparing_moveAndInvoke wellFormed distinct undoConfirmed
          (nodup_singleton _) ok.2.1
        intro id member
        rw [mem_singleton.mp member]
        exact ⟨ok.1, ready⟩
    next =>
        exact UndoRedoService.sparing_unchanged wellFormed distinct
          (fun _ member => absurd member not_mem_nil) rfl
  | invoke direction element editStacks undoConfirmed =>
    exact UndoRedoService.sparing_invoked wellFormed distinct direction element editStacks
      undoConfirmed answer.succeeds

theorem Steady.orderly (steady : state.Steady) (prepared : state.PreparedStep event) :
    state.service.Orderly (state.released event) (state.outcome event) := by
  have wellFormed := steady.wellFormed
  have distinct := steady.distinct
  cases event with
  | pushElement pushed =>
    exact UndoRedoService.orderly_of_keepsLocks
      (UndoRedoService.keepsLocks_pushElement wellFormed pushed)
      (UndoRedoService.distinct_pushElement wellFormed distinct pushed)
      (fun _ member => absurd member not_mem_nil) rfl
  | undoOrRedo direction strResource =>
    refine UndoRedoService.orderly_of_keepsLocks (.refl wellFormed) distinct
      (fun task member => ?_) rfl
    rw [mem_singleton.mp member]
    trivial
  | undoOrRedoWithSource direction sourceId =>
    apply UndoRedoService.orderly_of_keepsLocks (.refl wellFormed) distinct
      (UndoRedoService.taskOk_sourceTasks state.service direction sourceId)
    unfold UndoRedoService.sourceTasks
    split
    · rfl
    split
    · rfl
    split <;> rfl
  | removeElements strResource =>
    have shrinks : state.service.Shrinks (state.service.removeElements strResource) := by
      intro id side
      rw [UndoRedoService.elements_removeElements]
    exact UndoRedoService.orderly_of_keepsLocks (.removeElements wellFormed strResource)
      (shrinks.distinct distinct) (fun _ member => absurd member not_mem_nil) rfl
  | setElementsValidFlag strResource isValid filter =>
    have stackAt : (state.service.setElementsValidFlag strResource isValid filter).stack =
        state.service.stack ∧ _ :=
      UndoRedoService.stack_setElementsValidFlag strResource isValid filter
    have shrinks : state.service.Shrinks
        (state.service.setElementsValidFlag strResource isValid filter) := by
      intro id side
      rw [stackAt.1]
    exact UndoRedoService.orderly_of_keepsLocks
      (.of_stack (.setElementsValidFlag wellFormed strResource isValid filter) stackAt.1 stackAt.2)
      (shrinks.distinct distinct) (fun _ member => absurd member not_mem_nil) rfl
  | createSnapshot strResource =>
    exact UndoRedoService.orderly_of_keepsLocks (.refl wellFormed) distinct
      (fun _ member => absurd member not_mem_nil) rfl
  | restoreSnapshot strResource snapshot =>
    have restored := UndoRedoService.KeepsLocks.restoreSnapshot wellFormed strResource snapshot
    exact UndoRedoService.orderly_of_keepsLocks restored.1 (restored.2.distinct distinct)
      (fun _ member => absurd member not_mem_nil) rfl
  | resume position answer =>
    unfold outcome released
    dsimp only
    cases isTask : state.tasks[position]? with
    | none =>
      exact UndoRedoService.orderly_of_keepsLocks (.refl wellFormed) distinct
        (fun _ member => absurd member not_mem_nil) rfl
    | some task => exact (sparing_resume steady isTask prepared).toOrderly

/-- The tasks that hold locks are those that go on waiting and the one that is resumed. -/
theorem perm_heldStacks (state : State) (event : Event) :
    (state.released event ++ (state.remaining event).flatMap Task.heldStacks).Perm
      (state.tasks.flatMap Task.heldStacks) := by
  cases event with
  | resume position answer =>
    unfold released remaining
    dsimp only
    by_cases inRange : position < state.tasks.length
    · rw [getElem?_eq_getElem inRange]
      exact (getElem_cons_eraseIdx_perm inRange).flatMap_right Task.heldStacks
    · rw [getElem?_eq_none (Nat.le_of_not_lt inRange),
        eraseIdx_of_length_le (Nat.le_of_not_lt inRange)]
      exact List.Perm.refl _
  | _ => exact List.Perm.refl _

theorem Steady.step (steady : state.Steady) {event : Event} (prepared : state.PreparedStep event) :
    (state.step event).Steady := by
  have orderly := steady.orderly prepared
  have perm := state.perm_heldStacks event
  have held : (state.step event).tasks.flatMap Task.heldStacks =
      (state.remaining event).flatMap Task.heldStacks ++
        (state.outcome event).tasks.flatMap Task.heldStacks := flatMap_append
  obtain ⟨-, waitingOnce, apart⟩ :=
    nodup_append.mp (perm.nodup_iff.mpr steady.heldOnce)
  have waiting : ∀ id ∈ (state.remaining event).flatMap Task.heldStacks,
      id ∈ state.tasks.flatMap Task.heldStacks :=
    fun id member => perm.subset (mem_append_right _ member)
  have counter := orderly.later.stackCounter
  refine ⟨⟨orderly.distinct, ?_, ?_, ?_⟩, orderly.wellFormed, ?_⟩
  · rw [held]
    refine nodup_append.mpr ⟨waitingOnce, orderly.locking.once, ?_⟩
    rintro old isOld new isNew rfl
    obtain ⟨isStack, known⟩ := steady.held old (waiting old isOld)
    have isLocked := (steady.locked old known isStack).mpr (waiting old isOld)
    rw [(orderly.locking.free old isNew).1] at isLocked
    exact false_ne_true isLocked
  · intro id member
    rw [held] at member
    rcases mem_append.mp member with old | new
    · obtain ⟨isStack, known⟩ := steady.held id (waiting id old)
      exact ⟨isStack, lt_of_lt_of_le known counter⟩
    · obtain ⟨-, isStack, known⟩ := orderly.locking.free id new
      exact ⟨isStack, lt_of_lt_of_le known counter⟩
  · intro id known isStack
    rw [held, mem_append]
    by_cases old : id < state.service.stackCounter
    · refine (orderly.locking.locked id old).trans ?_
      rw [steady.locked id old isStack, ← perm.mem_iff, mem_append]
      constructor
      · rintro (⟨isReleased | stays, notReleased⟩ | new)
        · exact absurd isReleased notReleased
        · exact .inl stays
        · exact .inr new
      · rintro (stays | new)
        · exact .inl ⟨.inr stays, fun isReleased => apart id isReleased id stays rfl⟩
        · exact .inr new
    · have unlocked : ((state.step event).service.stack id).locked = false :=
        orderly.locking.unlocked id known (Nat.le_of_not_lt old)
      rw [unlocked]
      constructor
      · exact fun isTrue => absurd isTrue false_ne_true
      · rintro (stays | new)
        · exact absurd (steady.held id (waiting id stays)).2 old
        · exact absurd (orderly.locking.free id new).2.2 old
  · intro task member
    rcases mem_append.mp member with old | new
    · exact orderly.later.taskOk (steady.tasks task (mem_tasks_of_mem_remaining old))
    · exact orderly.tasks task new

theorem Steady.run (steady : state.Steady) (prepared : state.PreparedRun events) :
    (state.run events).Steady := by
  induction events generalizing state with
  | nil => exact steady
  | cons event events ih => exact ih (steady.step prepared.1) prepared.2

theorem steady_new : new.Steady where
  distinct _ := nodup_nil
  heldOnce := nodup_nil
  held _ member := absurd member not_mem_nil
  locked _ known isStack := absurd (lt_one_iff.mp known) isStack
  wellFormed := UndoRedoService.wellFormed_new
  tasks _ member := absurd member not_mem_nil

theorem Steady.exactStep (steady : state.Steady) (prepared : state.PreparedStep event) :
    state.ExactStep event where
  moves := (steady.orderly prepared).exact
  once := (steady.orderly prepared).once
  spares := by
    rintro position answer rfl id isLocked
    show state.service.Spares (state.outcome (.resume position answer)).service id
    unfold outcome
    dsimp only
    cases isTask : state.tasks[position]? with
    | none => exact .inl fun _ => rfl
    | some task => exact (sparing_resume steady isTask prepared).spares id isLocked

end State

/-- As long as the preparations of one resource find their element where they have left it, every
move is exact, locks are exclusive, and locked edit stacks are spared. -/
theorem moves_exact (events : List Event) (prepared : State.new.PreparedRun events) :
    (State.new.run events).Exclusive ∧
      ∀ event, (State.new.run events).PreparedStep event →
        (State.new.run events).ExactStep event := by
  have steady := State.steady_new.run prepared
  exact ⟨steady.toExclusive, fun event preparedStep => steady.exactStep preparedStep⟩

/-- Of two elements, the one that needs a preparation is undone and redone. -/
theorem moves_exact_prepared :
    let goOn : Event := .resume 0 ⟨true, .all, []⟩
    (State.new.run [.pushElement ⟨false, ["a"], 0, 0, 0, 0, false, false, false⟩,
      .pushElement ⟨true, ["a"], 0, 0, 0, 0, false, false, true⟩,
      .undoOrRedo .undo "a", goOn, goOn, goOn,
      .undoOrRedo .redo "a", goOn, goOn, goOn]).Exclusive := by
  intro goOn
  apply (moves_exact [_, _, _, _, _, _, _, _, _, _] ?_).1
  refine ⟨trivial, trivial, trivial, ?_, ?_, ?_, trivial, ?_, ?_, ?_, trivial⟩
  · rintro _ _ _ _ ⟨⟩
  · rintro _ _ _ _ ⟨⟩ _
    exact ⟨rfl, rfl⟩
  · rintro _ _ _ _ ⟨⟩
  · rintro _ _ _ _ ⟨⟩
  · rintro _ _ _ _ ⟨⟩ _
    exact ⟨rfl, rfl⟩
  · rintro _ _ _ _ ⟨⟩

/-- By design, undoing through a second resource splits an element out of an edit stack that is
locked. And a preparation of one resource ends with a move of an element that has been pushed in
the meantime. -/
theorem locked_split_and_stale_preparation :
    (∃ locked,
      State.new.run [.pushElement ⟨true, ["a", "b"], 0, 0, 0, 0, false, true, false⟩,
        .pushElement ⟨false, ["a"], 0, 0, 0, 0, false, false, false⟩,
        .undoOrRedo .undo "a", .resume 0 ⟨true, .all, []⟩, .undoOrRedo .undo "b"] = locked ∧
      (locked.service.stack 1).locked = true ∧ (locked.service.stack 1).past = [0] ∧
      ((locked.step (.resume 1 ⟨true, .all, [("a", false), ("b", false)]⟩)).service.stack
        1).past = [2]) ∧
    ∃ waiting,
      State.new.run [.pushElement ⟨true, ["a"], 0, 0, 0, 0, false, false, true⟩,
        .undoOrRedo .undo "a", .resume 0 ⟨true, .all, []⟩,
        .pushElement ⟨false, ["a"], 0, 0, 0, 0, false, false, false⟩] = waiting ∧
      (waiting.outcome (.resume 0 ⟨true, .all, []⟩)).moves = [⟨.undo, 1, 0⟩] ∧
      (waiting.service.stack 1).getClosestElement .undo = some 1 :=
  ⟨⟨_, rfl, rfl, rfl, rfl⟩, ⟨_, rfl, rfl, rfl⟩⟩

end CodeEditor.UndoRedo
