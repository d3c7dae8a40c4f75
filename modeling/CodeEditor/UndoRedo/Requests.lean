import CodeEditor.UndoRedo.Service

/-!
# Undo and redo requests

Model of `_undo`, `_redo` and what they call, up to the next call of code outside the service: a
dialog, a preparation, the undo or redo of an element. What is to be done afterwards is a task.
A call of `_undo` or `_redo` is a task as well, so that other tasks may come first.
-/

namespace CodeEditor.UndoRedo

/-- `EditStackSnapshot`: stacks and the versions that they had. -/
abbrev EditStackSnapshot := List (Nat × Nat)

inductive Task where
  /-- `_undo(strResource, sourceId, undoConfirmed)` or `_redo(strResource)`. -/
  | call (direction : Direction) (strResource : String) (sourceId : Nat) (undoConfirmed : Bool)
  /-- `_confirmAndContinueUndo` waits for the answer. -/
  | confirmUndo (strResource : String) (sourceId : Nat)
  /-- `_confirmAndExecuteWorkspaceUndo` waits for the choice. -/
  | chooseUndo (strResource : String) (element : Nat) (editStackSnapshot : EditStackSnapshot)
  /-- A workspace element is being prepared. -/
  | prepareWorkspace (direction : Direction) (strResource : String) (element : Nat)
      (editStackSnapshot : EditStackSnapshot) (undoConfirmed : Bool)
  /-- A resource element is being prepared. -/
  | prepareResource (direction : Direction) (editStack element : Nat) (undoConfirmed : Bool)
  /-- An element is being undone or redone, and the stacks are locked. -/
  | invoke (direction : Direction) (element : Nat) (editStacks : List Nat) (undoConfirmed : Bool)
deriving DecidableEq, Repr

/-- `UndoChoice`. -/
inductive UndoChoice where
  | all
  | this
  | cancel
deriving DecidableEq, Repr

/-- What the code outside the service answers: whether it succeeds or confirms, the choice in the
dialog, and what `split` returns, should it be called. -/
structure Answer where
  succeeds : Bool
  choice : UndoChoice
  individuals : List (String × Bool)
deriving DecidableEq, Repr

/-- One call of `moveBackward` or `moveForward`. -/
structure Move where
  direction : Direction
  editStack : Nat
  element : Nat
deriving DecidableEq, Repr

/-- What a step leaves: the service, the tasks it adds, the moves it has made, and whether it ends
with a `TypeError`. -/
structure Outcome where
  service : UndoRedoService
  tasks : List Task
  moves : List Move
  typeError : Bool

namespace UndoRedoService

variable (service : UndoRedoService)

/-! ## Searching for elements -/

/-- The element is found in front of the other one: with a higher order for undo, with a lower one
for redo. -/
def isCloser : Direction → Nat → Nat → Bool
  | .undo, order, other => order > other
  | .redo, order, other => order < other

/-- `_findClosestUndoElementInGroup` and its siblings: of the closest elements that have an id,
the one to be taken first, and its resource. -/
def findClosest (direction : Direction) (id order : StackElement → Nat) (wanted : Nat) :
    Option (Nat × String) :=
  if wanted = 0 then none
  else service.editStacks.foldl (fun matched entry =>
    match (service.stack entry.2).getClosestElement direction with
    | none => matched
    | some candidate =>
      if id (service.element candidate) = wanted then
        match matched with
        | none => some (candidate, entry.1)
        | some (element, strResource) =>
          if isCloser direction (order (service.element candidate))
            (order (service.element element)) then some (candidate, entry.1)
          else some (element, strResource)
      else matched) none

/-- `_findClosestUndoElementInGroup` and `_findClosestRedoElementInGroup`. -/
def findClosestElementInGroup (direction : Direction) (groupId : Nat) : Option (Nat × String) :=
  service.findClosest direction StackElement.groupId StackElement.groupOrder groupId

/-- `_findClosestUndoElementWithSource` and `_findClosestRedoElementWithSource`. -/
def findClosestElementWithSource (direction : Direction) (sourceId : Nat) :
    Option (Nat × String) :=
  service.findClosest direction StackElement.sourceId StackElement.sourceOrder sourceId

def isPartOfUndoGroup (element : Nat) : Bool :=
  let groupId := (service.element element).groupId
  groupId != 0 && service.editStacks.any fun entry =>
    match (service.stack entry.2).getClosestElement .undo with
    | none => false
    | some pastElement =>
      (pastElement == element &&
        match (service.stack entry.2).getSecondClosestPastElement with
        | none => false
        | some secondPastElement => (service.element secondPastElement).groupId == groupId) ||
      (service.element pastElement).groupId == groupId

/-! ## Locks -/

def setLocked (editStacks : List Nat) (locked : Bool) : UndoRedoService :=
  { service with
    stack := fun id =>
      if id ∈ editStacks then { service.stack id with locked := locked } else service.stack id }

def getAffectedEditStacks (element : Nat) : EditStackSnapshot :=
  (service.element element).strResources.map fun strResource =>
    let id := (service.get strResource).getD 0
    (id, (service.stack id).versionId)

def isSnapshotValid (editStackSnapshot : EditStackSnapshot) : Bool :=
  editStackSnapshot.all fun entry => (service.stack entry.1).versionId == entry.2

def removeAll (strResources : List String) : UndoRedoService :=
  strResources.foldl removeElements service

/-- `moveBackward` or `moveForward` on several stacks. -/
def moveAll (direction : Direction) (element : Nat) (editStacks : List Nat) : UndoRedoService :=
  editStacks.foldl (fun service id => service.modifyStack id (.move direction element)) service

/-- The element is moved, then the locks are acquired, which throws when a stack is locked, and
then the element is invoked. -/
def moveAndInvoke (direction : Direction) (element : Nat) (editStacks : List Nat)
    (undoConfirmed : Bool) : Outcome :=
  let moved := service.moveAll direction element editStacks
  let moves := editStacks.map fun editStack => ⟨direction, editStack, element⟩
  if editStacks.any fun editStack => (moved.stack editStack).locked then ⟨moved, [], moves, false⟩
  else ⟨moved.setLocked editStacks true,
    [.invoke direction element editStacks undoConfirmed], moves, false⟩

/-! ## Workspace elements -/

/-- The element is split, and then the resource is undone or redone. -/
def splitAndCall (direction : Direction) (strResource : String) (element : Nat)
    (ignoreResources : List String) (individuals : List (String × Bool)) : Outcome :=
  let (split, completed) :=
    service.splitWorkspaceElement direction element ignoreResources individuals
  if completed then ⟨split, [.call direction strResource 0 true], [], false⟩
  else ⟨split, [], [], true⟩

/-- `_tryToSplitAndUndo` and `_tryToSplitAndRedo`. -/
def tryToSplit (direction : Direction) (strResource : String) (element : Nat)
    (ignoreResources : List String) (individuals : List (String × Bool)) : Outcome :=
  if (service.element element).canSplit then
    service.splitAndCall direction strResource element ignoreResources individuals
  else ⟨service.removeAll (service.element element).strResources, [], [], false⟩

/-- `_checkWorkspaceUndo` and `_checkWorkspaceRedo`: the resources to ignore when the element is
to be split, or `none` when the check is passed. -/
def checkWorkspace (direction : Direction) (element : Nat)
    (editStackSnapshot : EditStackSnapshot) (checkInvalidatedResources : Bool) :
    Option (List String) :=
  let checked := service.element element
  if checked.removedResources ≠ [] then some checked.removedResources
  else if checkInvalidatedResources ∧ checked.invalidatedResources ≠ [] then
    some checked.invalidatedResources
  else if editStackSnapshot.any fun entry =>
      (service.stack entry.1).getClosestElement direction ≠ some element then some []
  else if editStackSnapshot.any fun entry => (service.stack entry.1).locked then some []
  else if ¬service.isSnapshotValid editStackSnapshot then some []
  else none

/-- `_workspaceUndo` and `_workspaceRedo`; an element that can be split is undone after a choice. -/
def workspaceRequest (direction : Direction) (strResource : String) (element : Nat)
    (undoConfirmed : Bool) (individuals : List (String × Bool)) : Outcome :=
  let affectedEditStacks := service.getAffectedEditStacks element
  match service.checkWorkspace direction element affectedEditStacks false with
  | some ignoreResources =>
    service.tryToSplit direction strResource element ignoreResources individuals
  | none =>
    if direction = .undo ∧ (service.element element).canSplit ∧
        ¬service.isPartOfUndoGroup element then
      ⟨service, [.chooseUndo strResource element affectedEditStacks], [], false⟩
    else ⟨service,
      [.prepareWorkspace direction strResource element affectedEditStacks undoConfirmed], [],
      false⟩

/-! ## Resource elements -/

/-- `_resourceUndo` and `_resourceRedo`; without a preparation the element is invoked at once. -/
def resourceRequest (direction : Direction) (editStack element : Nat) (undoConfirmed : Bool) :
    Outcome :=
  if ¬(service.element element).isValid then
    ⟨service.modifyStack editStack .flushAllElements, [], [], false⟩
  else if (service.stack editStack).locked then ⟨service, [], [], false⟩
  else if (service.element element).hasPrepare then
    ⟨service, [.prepareResource direction editStack element undoConfirmed], [], false⟩
  else service.moveAndInvoke direction element [editStack] undoConfirmed

/-! ## Requests -/

/-- Undo asks for a confirmation, redo does not. -/
def mustConfirm (direction : Direction) (element sourceId : Nat) (undoConfirmed : Bool) : Bool :=
  let called := service.element element
  match direction with
  | .undo => (called.sourceId != sourceId || called.confirmBeforeUndo) && !undoConfirmed
  | .redo => false

/-- What `_undo` and `_redo` come to before their `try` block: an edit stack and its closest
element to go on with, or else the tasks that are left. -/
def opening (direction : Direction) (strResource : String) (sourceId : Nat)
    (undoConfirmed : Bool) : List Task ⊕ Nat × Nat :=
  match service.get strResource with
  | none => .inl []
  | some editStack =>
    match (service.stack editStack).getClosestElement direction with
    | none => .inl []
    | some element =>
      let matched :=
        service.findClosestElementInGroup direction (service.element element).groupId
      match matched.filter fun other => other.1 ≠ element ∧ other.2 ≠ "" with
      | some other => .inl [.call direction other.2 sourceId undoConfirmed]
      | none =>
        if service.mustConfirm direction element sourceId undoConfirmed then
          .inl [.confirmUndo strResource sourceId]
        else .inr (editStack, element)

/-- `_undo` and `_redo`. -/
def request (direction : Direction) (strResource : String) (sourceId : Nat)
    (undoConfirmed : Bool) (individuals : List (String × Bool)) : Outcome :=
  match service.opening direction strResource sourceId undoConfirmed with
  | .inl tasks => ⟨service, tasks, [], false⟩
  | .inr (editStack, element) =>
    if (service.element element).isWorkspace then
      service.workspaceRequest direction strResource element undoConfirmed individuals
    else service.resourceRequest direction editStack element undoConfirmed

/-! ## Answers -/

/-- `_confirmAndExecuteWorkspaceUndo` once the choice is made. -/
def chosen (strResource : String) (element : Nat) (editStackSnapshot : EditStackSnapshot)
    (answer : Answer) : Outcome :=
  match answer.choice with
  | .cancel => ⟨service, [], [], false⟩
  | .this => service.splitAndCall .undo strResource element [] answer.individuals
  | .all =>
    match service.checkWorkspace .undo element editStackSnapshot false with
    | some ignoreResources =>
      service.tryToSplit .undo strResource element ignoreResources answer.individuals
    | none =>
      ⟨service, [.prepareWorkspace .undo strResource element editStackSnapshot true], [],
        false⟩

/-- The rest of `_confirmAndExecuteWorkspaceUndo` or `_executeWorkspaceRedo` after the
preparation. -/
def workspacePrepared (direction : Direction) (strResource : String) (element : Nat)
    (editStackSnapshot : EditStackSnapshot) (undoConfirmed : Bool) (answer : Answer) : Outcome :=
  if answer.succeeds then
    match service.checkWorkspace direction element editStackSnapshot true with
    | some ignoreResources =>
      service.tryToSplit direction strResource element ignoreResources answer.individuals
    | none =>
      service.moveAndInvoke direction element (editStackSnapshot.map Prod.fst) undoConfirmed
  else ⟨service.removeAll (service.element element).strResources, [], [], false⟩

/-- `_continueUndoInGroup` and `_continueRedoInGroup`. -/
def continueInGroup (direction : Direction) (element : Nat) (undoConfirmed : Bool) : List Task :=
  match service.findClosestElementInGroup direction (service.element element).groupId with
  | none => []
  | some (_, strResource) =>
    if strResource = "" then [] else [.call direction strResource 0 undoConfirmed]

/-- The end of `_safeInvokeWithLocks`. -/
def invoked (direction : Direction) (element : Nat) (editStacks : List Nat)
    (undoConfirmed succeeds : Bool) : Outcome :=
  let released := service.setLocked editStacks false
  if succeeds then
    ⟨released, released.continueInGroup direction element undoConfirmed, [], false⟩
  else ⟨released.removeAll (released.element element).strResources, [], [], false⟩

/-- What a task does with its answer. -/
def resume (answer : Answer) : Task → Outcome
  | .call direction strResource sourceId undoConfirmed =>
    service.request direction strResource sourceId undoConfirmed answer.individuals
  | .confirmUndo strResource sourceId =>
    ⟨service, if answer.succeeds then [.call .undo strResource sourceId true] else [], [], false⟩
  | .chooseUndo strResource element editStackSnapshot =>
    service.chosen strResource element editStackSnapshot answer
  | .prepareWorkspace direction strResource element editStackSnapshot undoConfirmed =>
    service.workspacePrepared direction strResource element editStackSnapshot undoConfirmed
      answer
  | .prepareResource direction editStack element undoConfirmed =>
    if answer.succeeds then
      service.moveAndInvoke direction element [editStack] undoConfirmed
    else ⟨service, [], [], false⟩
  | .invoke direction element editStacks undoConfirmed =>
    service.invoked direction element editStacks undoConfirmed answer.succeeds

/-- `undo` and `redo` with a source; only undo passes the source on. -/
def sourceTasks (direction : Direction) (sourceId : Nat) : List Task :=
  match service.findClosestElementWithSource direction sourceId with
  | none => []
  | some (_, strResource) =>
    if strResource = "" then []
    else match direction with
      | .undo => [.call .undo strResource sourceId false]
      | .redo => [.call .redo strResource 0 false]

end UndoRedoService

/-! ## Runs -/

/-- The service, and the tasks that are waiting. -/
structure State where
  service : UndoRedoService
  tasks : List Task

/-- A call of the service, or the answer to a task, which is given by its position. -/
inductive Event where
  | pushElement (pushed : PushedElement)
  | undoOrRedo (direction : Direction) (strResource : String)
  | undoOrRedoWithSource (direction : Direction) (sourceId : Nat)
  | removeElements (strResource : String)
  | setElementsValidFlag (strResource : String) (isValid : Bool) (filter : Nat → Bool)
  | createSnapshot (strResource : String)
  | restoreSnapshot (strResource : String) (snapshot : List Nat)
  | resume (position : Nat) (answer : Answer)

namespace State

def new : State := ⟨.new, []⟩

/-- What an event does. -/
def outcome (state : State) : Event → Outcome
  | .pushElement pushed => ⟨state.service.pushElement pushed, [], [], false⟩
  | .undoOrRedo direction strResource =>
    ⟨state.service, [.call direction strResource 0 false], [], false⟩
  | .undoOrRedoWithSource direction sourceId =>
    ⟨state.service, state.service.sourceTasks direction sourceId, [], false⟩
  | .removeElements strResource => ⟨state.service.removeElements strResource, [], [], false⟩
  | .setElementsValidFlag strResource isValid filter =>
    ⟨state.service.setElementsValidFlag strResource isValid filter, [], [], false⟩
  | .createSnapshot _ => ⟨state.service, [], [], false⟩
  | .restoreSnapshot strResource snapshot =>
    ⟨state.service.restoreSnapshot strResource snapshot, [], [], false⟩
  | .resume position answer =>
    match state.tasks[position]? with
    | none => ⟨state.service, [], [], false⟩
    | some task => state.service.resume answer task

/-- The tasks that go on waiting. -/
def remaining (state : State) : Event → List Task
  | .resume position _ => state.tasks.eraseIdx position
  | _ => state.tasks

def step (state : State) (event : Event) : State :=
  let outcome := state.outcome event
  ⟨outcome.service, state.remaining event ++ outcome.tasks⟩

def run (state : State) (events : List Event) : State := events.foldl step state

end State

end CodeEditor.UndoRedo
