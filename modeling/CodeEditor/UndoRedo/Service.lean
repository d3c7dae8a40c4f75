import Mathlib

/-!
# Edit stacks

Model of `ResourceStackElement`, `WorkspaceStackElement` and `ResourceEditStack` in
`undoRedoService.ts`. Elements and stacks are objects with an identity: a stack holds the
numbers of its elements, and the service holds the objects. Labels are left out.
-/

namespace CodeEditor.UndoRedo

/-- A `ResourceStackElement`, or a `WorkspaceStackElement` when `isWorkspace` is set. `null` is
the empty list for `removedResources` and `invalidatedResources`. -/
structure StackElement where
  isWorkspace : Bool
  strResources : List String
  groupId : Nat
  groupOrder : Nat
  sourceId : Nat
  sourceOrder : Nat
  confirmBeforeUndo : Bool
  /-- `actual.split` is a function. -/
  canSplit : Bool
  /-- `actual` is of type `Workspace` and has `prepareUndoRedo`. -/
  hasPrepare : Bool
  isValid : Bool
  removedResources : List String
  invalidatedResources : List String
deriving DecidableEq, Repr

namespace StackElement

def removeResource (strResource : String) (element : StackElement) : StackElement :=
  if strResource ∈ element.removedResources then element
  else { element with removedResources := element.removedResources ++ [strResource] }

def setValid (strResource : String) (isValid : Bool) (element : StackElement) : StackElement :=
  if element.isWorkspace then
    if isValid then
      { element with
        invalidatedResources := element.invalidatedResources.filter fun r => r ≠ strResource }
    else if strResource ∈ element.invalidatedResources then element
    else { element with invalidatedResources := element.invalidatedResources ++ [strResource] }
  else { element with isValid := isValid }

end StackElement

/-- Undo takes elements from the past, redo from the future. -/
inductive Direction where
  | undo
  | redo
deriving DecidableEq, Repr

structure ResourceEditStack where
  strResource : String
  past : List Nat
  future : List Nat
  locked : Bool
  versionId : Nat
deriving DecidableEq, Repr

/-- The number of leading elements that two lists share. -/
def sharedLength : List Nat → List Nat → Nat
  | a :: first, b :: second => if a = b then sharedLength first second + 1 else 0
  | _, _ => 0

namespace ResourceEditStack

def new (strResource : String) : ResourceEditStack := ⟨strResource, [], [], false, 1⟩

def touch (stack : ResourceEditStack) : ResourceEditStack :=
  { stack with versionId := stack.versionId + 1 }

def flushAllElements (stack : ResourceEditStack) : ResourceEditStack :=
  { stack with past := [], future := [] }.touch

def pushElement (stack : ResourceEditStack) (element : Nat) : ResourceEditStack :=
  { stack with past := stack.past ++ [element], future := [] }.touch

def createSnapshot (stack : ResourceEditStack) : List Nat := stack.past ++ stack.future.reverse

/-- `getClosestPastElement` for undo, `getClosestFutureElement` for redo. -/
def getClosestElement (stack : ResourceEditStack) : Direction → Option Nat
  | .undo => stack.past.getLast?
  | .redo => stack.future.getLast?

def getSecondClosestPastElement (stack : ResourceEditStack) : Option Nat :=
  stack.past.dropLast.getLast?

/-- The elements that `restoreSnapshot` takes out of all their files, as removed. -/
def droppedBySnapshot (stack : ResourceEditStack) (snapshot : List Nat) : List Nat :=
  let shared := sharedLength stack.past snapshot
  if shared < stack.past.length then stack.past.drop shared ++ stack.future.reverse
  else stack.future.reverse.drop
    (sharedLength stack.future.reverse (snapshot.drop stack.past.length))

/-- The past becomes empty once an element of it is not in the snapshot, and the future stays. -/
def restoreSnapshot (stack : ResourceEditStack) (snapshot : List Nat) : ResourceEditStack :=
  let shared := sharedLength stack.past snapshot
  if shared < stack.past.length then { stack with past := [] }.touch
  else
    let sharedFuture :=
      sharedLength stack.future.reverse (snapshot.drop stack.past.length)
    { stack with future := stack.future.drop (stack.future.length - sharedFuture) }.touch

/-- The first occurrence of an element is replaced, or deleted. -/
def replaceFirst (toRemove : Nat) (individual : Option Nat) : List Nat → List Nat
  | [] => []
  | element :: elements =>
    if element = toRemove then individual.toList ++ elements
    else element :: replaceFirst toRemove individual elements

/-- The loop of `splitPastWorkspaceElement`, which starts at the end. -/
def replaceLast (toRemove : Nat) (individual : Option Nat) (elements : List Nat) : List Nat :=
  (replaceFirst toRemove individual elements.reverse).reverse

/-- `splitPastWorkspaceElement` and `splitFutureWorkspaceElement`. -/
def splitWorkspaceElement (direction : Direction) (toRemove : Nat) (individual : Option Nat)
    (stack : ResourceEditStack) : ResourceEditStack :=
  match direction with
  | .undo => { stack with past := replaceLast toRemove individual stack.past }.touch
  | .redo => { stack with future := replaceLast toRemove individual stack.future }.touch

/-- `moveBackward` and `moveForward`. -/
def move (direction : Direction) (element : Nat) (stack : ResourceEditStack) :
    ResourceEditStack :=
  match direction with
  | .undo => { stack with past := stack.past.dropLast, future := stack.future ++ [element] }.touch
  | .redo => { stack with past := stack.past ++ [element], future := stack.future.dropLast }.touch

end ResourceEditStack

/-!
## The undo-redo service

Model of what `UndoRedoService` does with its edit stacks. The map of edit stacks is a list in
the order of insertion. Stack 0 is `missingEditStack`.
-/

open Function

structure UndoRedoService where
  stackElementCounter : Nat
  element : Nat → StackElement
  stackCounter : Nat
  stack : Nat → ResourceEditStack
  editStacks : List (String × Nat)

/-- An element that `pushElement` is given: the keys of its resources, and what is read of it. -/
structure PushedElement where
  isWorkspace : Bool
  resources : List String
  groupId : Nat
  groupOrder : Nat
  sourceId : Nat
  sourceOrder : Nat
  confirmBeforeUndo : Bool
  canSplit : Bool
  hasPrepare : Bool
deriving DecidableEq, Repr

namespace UndoRedoService

def missingEditStack : ResourceEditStack := { ResourceEditStack.new "" with locked := true }

/-- The service before anything happens; the elements are not there yet. -/
def new : UndoRedoService where
  stackElementCounter := 0
  element := fun _ => ⟨false, [], 0, 0, 0, 0, false, false, false, true, [], []⟩
  stackCounter := 1
  stack := fun _ => missingEditStack
  editStacks := []

variable (service : UndoRedoService)

/-- `_editStacks.get`. -/
def get (strResource : String) : Option Nat :=
  (service.editStacks.find? fun entry => entry.1 == strResource).map Prod.snd

def modifyStack (id : Nat) (f : ResourceEditStack → ResourceEditStack) : UndoRedoService :=
  { service with stack := update service.stack id (f (service.stack id)) }

/-- The workspace elements of a list lose a resource. -/
def removeResource (strResource : String) (elements : List Nat) : UndoRedoService :=
  { service with
    element := fun id =>
      if id ∈ elements ∧ (service.element id).isWorkspace then
        (service.element id).removeResource strResource
      else service.element id }

/-- `ResourceEditStack.dispose`. -/
def dispose (id : Nat) : UndoRedoService :=
  let stack := service.stack id
  (service.removeResource stack.strResource (stack.past ++ stack.future)).modifyStack id .touch

/-- A new element, which gets the next number. -/
def addElement (element : StackElement) : UndoRedoService :=
  { service with
    stackElementCounter := service.stackElementCounter + 1
    element := update service.element service.stackElementCounter element }

/-! ## Pushing -/

/-- The edit stack of a resource, which is created when it is missing. -/
def getOrCreate (strResource : String) : Nat × UndoRedoService :=
  match service.get strResource with
  | some id => (id, service)
  | none => (service.stackCounter,
      { service with
        stackCounter := service.stackCounter + 1
        stack := update service.stack service.stackCounter (.new strResource)
        editStacks := service.editStacks ++ [(strResource, service.stackCounter)] })

/-- `ResourceEditStack.pushElement`. -/
def pushOnStack (id element : Nat) : UndoRedoService :=
  (service.removeResource (service.stack id).strResource (service.stack id).future).modifyStack id
    (·.pushElement element)

end UndoRedoService

/-- The loop of `_pushElement`. -/
def pushLoop (element : Nat) : List String → UndoRedoService → UndoRedoService
  | [], service => service
  | strResource :: strResources, service =>
    let (id, service) := service.getOrCreate strResource
    pushLoop element strResources (service.pushOnStack id element)

/-- The stack element for an element: keys are taken once, in their order; an element of type
`Workspace` with one key is a `ResourceStackElement`. -/
def PushedElement.stackElement (pushed : PushedElement) : StackElement :=
  let strResources := pushed.resources.reverse.dedup.reverse
  { isWorkspace := pushed.isWorkspace && strResources.length != 1
    strResources := strResources
    groupId := pushed.groupId
    groupOrder := pushed.groupOrder
    sourceId := pushed.sourceId
    sourceOrder := pushed.sourceOrder
    confirmBeforeUndo := pushed.confirmBeforeUndo
    canSplit := pushed.isWorkspace && pushed.canSplit
    hasPrepare := pushed.isWorkspace && pushed.hasPrepare
    isValid := true
    removedResources := []
    invalidatedResources := [] }

namespace UndoRedoService

variable (service : UndoRedoService)

def pushElement (pushed : PushedElement) : UndoRedoService :=
  let element := pushed.stackElement
  pushLoop service.stackElementCounter element.strResources (service.addElement element)

/-! ## Removing and restoring -/

/-- `_editStacks.delete`. -/
def delete (strResource : String) : UndoRedoService :=
  { service with editStacks := service.editStacks.filter fun entry => entry.1 ≠ strResource }

def removeElements (strResource : String) : UndoRedoService :=
  match service.get strResource with
  | none => service
  | some id => (service.dispose id).delete strResource

def setElementsValidFlag (strResource : String) (isValid : Bool) (filter : Nat → Bool) :
    UndoRedoService :=
  match service.get strResource with
  | none => service
  | some id =>
    let stack := service.stack id
    { service with
      element := fun element =>
        if element ∈ stack.past ++ stack.future ∧ filter element then
          (service.element element).setValid stack.strResource isValid
        else service.element element }

def createSnapshot (strResource : String) : List Nat :=
  match service.get strResource with
  | none => []
  | some id => (service.stack id).createSnapshot

def restoreSnapshot (strResource : String) (snapshot : List Nat) : UndoRedoService :=
  match service.get strResource with
  | none => service
  | some id =>
    let stack := service.stack id
    let restored := (service.removeResource stack.strResource
      (stack.droppedBySnapshot snapshot)).modifyStack id (·.restoreSnapshot snapshot)
    if (restored.stack id).past = [] ∧ (restored.stack id).future = [] then
      restored.removeElements strResource
    else restored

/-! ## Splitting -/

/-- New elements for what `split` returns: the key of a resource, and whether to confirm. -/
def addIndividuals : List (String × Bool) → UndoRedoService → UndoRedoService × List (String × Nat)
  | [], service => (service, [])
  | (strResource, confirmBeforeUndo) :: individuals, service =>
    let added := service.addElement
      ⟨false, [strResource], 0, 0, 0, 0, confirmBeforeUndo, false, false, true, [], []⟩
    let (last, individualMap) := addIndividuals individuals added
    (last, (strResource, service.stackElementCounter) :: individualMap)

/-- `individualMap.get`: the element that was set last. -/
def individual (individualMap : List (String × Nat)) (strResource : String) : Option Nat :=
  (individualMap.reverse.find? fun entry => entry.1 == strResource).map Prod.snd

/-- The loop over the resources, and whether it ends; a missing edit stack is a `TypeError`. -/
def splitLoop (direction : Direction) (toRemove : Nat) (ignoreResources : List String)
    (individualMap : List (String × Nat)) :
    List String → UndoRedoService → UndoRedoService × Bool
  | [], service => (service, true)
  | strResource :: strResources, service =>
    if strResource ∈ ignoreResources then
      splitLoop direction toRemove ignoreResources individualMap strResources service
    else
      match service.get strResource with
      | none => (service, false)
      | some id =>
        splitLoop direction toRemove ignoreResources individualMap strResources
          (service.modifyStack id (.splitWorkspaceElement direction toRemove
            (individual individualMap (service.stack id).strResource)))

/-- `_splitPastWorkspaceElement` and `_splitFutureWorkspaceElement`. -/
def splitWorkspaceElement (direction : Direction) (toRemove : Nat) (ignoreResources : List String)
    (individuals : List (String × Bool)) : UndoRedoService × Bool :=
  let (added, individualMap) := addIndividuals individuals service
  splitLoop direction toRemove ignoreResources individualMap
    (service.element toRemove).strResources added

end UndoRedoService

end CodeEditor.UndoRedo
