import CodeEditor.Foundation.Placements
import CodeEditor.UndoRedo.Requests

/-!
# Where the elements are

Which elements the past and the future of a resource hold, and what the operations on one edit
stack do to them.
-/

namespace CodeEditor.UndoRedo

open List Option Nat

/-! ## The sides of an edit stack -/

variable {individual : Option Nat}

/-- An element is deleted once or replaced by another one. -/
theorem count_replaceFirst (different : individual ≠ some toRemove) (elements : List Nat) :
    (ResourceEditStack.replaceFirst toRemove individual elements).count toRemove =
      elements.count toRemove - 1 := by
  induction elements with
  | nil => rfl
  | cons element elements ih =>
    by_cases same : element = toRemove
    · have none : individual.toList.count toRemove = 0 := by
        apply count_eq_zero.mpr
        rw [mem_toList]
        exact different
      simp [ResourceEditStack.replaceFirst, same, count_append, none]
    · simp [ResourceEditStack.replaceFirst, same, ih]

theorem count_replaceFirst_of_ne {toRemove other : Nat} (notRemoved : other ≠ toRemove)
    (different : individual ≠ some other) (elements : List Nat) :
    (ResourceEditStack.replaceFirst toRemove individual elements).count other =
      elements.count other := by
  induction elements with
  | nil => rfl
  | cons element elements ih =>
    by_cases same : element = toRemove
    · have none : individual.toList.count other = 0 := by
        apply count_eq_zero.mpr
        rw [mem_toList]
        exact different
      simp [ResourceEditStack.replaceFirst, same, count_append, none,
        count_cons_of_ne notRemoved.symm]
    · simp [ResourceEditStack.replaceFirst, same, count_cons, ih]

variable {element : Nat}

theorem mem_replaceFirst
    (member : element ∈ ResourceEditStack.replaceFirst toRemove individual elements) :
    element ∈ elements ∨ individual = some element := by
  induction elements with
  | nil => simp [ResourceEditStack.replaceFirst] at member
  | cons first elements ih =>
    unfold ResourceEditStack.replaceFirst at member
    split at member
    · rw [mem_append, mem_toList] at member
      exact member.symm.imp_left (mem_cons_of_mem first)
    · rcases mem_cons.mp member with same | later
      · exact .inl (by simp [same])
      · exact (ih later).imp_left (mem_cons_of_mem first)

namespace ResourceEditStack

/-- The side that a request in a direction takes elements from. -/
def elements (stack : ResourceEditStack) : Direction → List Nat
  | .undo => stack.past
  | .redo => stack.future

/-- The closest element is the last of its list. -/
theorem getClosestElement_eq (stack : ResourceEditStack) (direction : Direction) :
    stack.getClosestElement direction = (stack.elements direction).getLast? := by
  cases direction <;> rfl

variable {stack : ResourceEditStack}

theorem mem_past_append_future :
    element ∈ stack.past ++ stack.future ↔ ∃ side, element ∈ stack.elements side := by
  rw [mem_append]
  constructor
  · rintro (member | member)
    · exact ⟨.undo, member⟩
    · exact ⟨.redo, member⟩
  · rintro ⟨side, member⟩
    cases side with
    | undo => exact .inl member
    | redo => exact .inr member

@[simp] theorem elements_new (strResource : String) (side : Direction) :
    (ResourceEditStack.new strResource).elements side = [] := by
  cases side <;> rfl

@[simp] theorem elements_touch (stack : ResourceEditStack) (side : Direction) :
    stack.touch.elements side = stack.elements side := by
  cases side <;> rfl

@[simp] theorem elements_flushAllElements (stack : ResourceEditStack) (side : Direction) :
    stack.flushAllElements.elements side = [] := by
  cases side <;> rfl

/-- Pushing clears what could be redone. -/
theorem elements_pushElement (stack : ResourceEditStack) (element : Nat) (side : Direction) :
    (stack.pushElement element).elements side =
      match side with
      | .undo => stack.past ++ [element]
      | .redo => [] := by
  cases side <;> rfl

/-- One of the two lists changes. -/
theorem elements_splitWorkspaceElement (direction : Direction) (toRemove : Nat)
    (individual : Option Nat) (stack : ResourceEditStack) (side : Direction) :
    (stack.splitWorkspaceElement direction toRemove individual).elements side =
      if side = direction then replaceLast toRemove individual (stack.elements side)
      else stack.elements side := by
  cases direction <;> cases side <;> rfl

/-- An element goes from the end of one list to the end of the other. -/
theorem elements_move (direction : Direction) (element : Nat) (stack : ResourceEditStack)
    (side : Direction) :
    (stack.move direction element).elements side =
      if side = direction then (stack.elements side).dropLast
      else stack.elements side ++ [element] := by
  cases direction <;> cases side <;> rfl

/-- One copy less. -/
theorem count_replaceLast (different : individual ≠ some toRemove) (elements : List Nat) :
    (replaceLast toRemove individual elements).count toRemove = elements.count toRemove - 1 := by
  rw [replaceLast, count_reverse, count_replaceFirst different, count_reverse]

/-- Other elements stay. -/
theorem count_replaceLast_of_ne {toRemove other : Nat} (notRemoved : other ≠ toRemove)
    (different : individual ≠ some other) (elements : List Nat) :
    (replaceLast toRemove individual elements).count other = elements.count other := by
  rw [replaceLast, count_reverse, count_replaceFirst_of_ne notRemoved different, count_reverse]

/-- Nothing new but the replacement. -/
theorem mem_replaceLast {toRemove : Nat} {elements : List Nat}
    (member : element ∈ replaceLast toRemove individual elements) :
    element ∈ elements ∨ individual = some element := by
  rw [replaceLast, mem_reverse] at member
  exact (mem_replaceFirst member).imp_left mem_reverse.mp

/-! ## Restoring a snapshot -/

/-- The snapshot differs from the past, and not only from the future. -/
def DiffersInPast (stack : ResourceEditStack) (snapshot : List Nat) : Prop :=
  sharedLength stack.past snapshot < stack.past.length

instance (stack : ResourceEditStack) (snapshot : List Nat) :
    Decidable (stack.DiffersInPast snapshot) :=
  inferInstanceAs (Decidable (_ < _))

/-- A difference in the past empties the past and leaves the future. -/
theorem elements_restoreSnapshot_of_differs (differs : stack.DiffersInPast snapshot)
    (side : Direction) : (stack.restoreSnapshot snapshot).elements side =
      match side with
      | .undo => []
      | .redo => stack.future := by
  unfold restoreSnapshot
  simp only [show sharedLength stack.past snapshot < stack.past.length from differs, if_true]
  cases side <;> rfl

/-- How many elements of the future the snapshot shares. -/
def sharedFuture (stack : ResourceEditStack) (snapshot : List Nat) : Nat :=
  sharedLength stack.future.reverse (snapshot.drop stack.past.length)

/-- The past is the one of the snapshot. -/
theorem elements_restoreSnapshot_of_not_differs (same : ¬stack.DiffersInPast snapshot)
    (side : Direction) : (stack.restoreSnapshot snapshot).elements side =
      match side with
      | .undo => stack.past
      | .redo => stack.future.drop (stack.future.length - stack.sharedFuture snapshot) := by
  unfold restoreSnapshot
  simp only [show ¬sharedLength stack.past snapshot < stack.past.length from same, if_false]
  cases side <;> rfl

theorem droppedBySnapshot_of_differs (differs : stack.DiffersInPast snapshot) :
    stack.droppedBySnapshot snapshot =
      stack.past.drop (sharedLength stack.past snapshot) ++ stack.future.reverse := by
  unfold droppedBySnapshot
  exact if_pos differs

theorem droppedBySnapshot_of_not_differs (same : ¬stack.DiffersInPast snapshot) :
    stack.droppedBySnapshot snapshot = stack.future.reverse.drop (stack.sharedFuture snapshot) := by
  unfold droppedBySnapshot
  exact if_neg same

/-- An element of the future that is dropped is among those that are recorded. -/
theorem mem_droppedBySnapshot (same : ¬stack.DiffersInPast snapshot)
    (member : element ∈ stack.future) (dropped : element ∉
      stack.future.drop (stack.future.length - stack.sharedFuture snapshot)) :
    element ∈ stack.droppedBySnapshot snapshot := by
  rw [droppedBySnapshot_of_not_differs same, drop_reverse, mem_reverse]
  rw [← take_append_drop (stack.future.length - stack.sharedFuture snapshot)
    stack.future, mem_append] at member
  exact member.resolve_right dropped

@[simp] theorem strResource_restoreSnapshot (stack : ResourceEditStack) (snapshot : List Nat) :
    (stack.restoreSnapshot snapshot).strResource = stack.strResource := by
  unfold restoreSnapshot
  dsimp only
  split <;> rfl

@[simp] theorem versionId_restoreSnapshot (stack : ResourceEditStack) (snapshot : List Nat) :
    (stack.restoreSnapshot snapshot).versionId = stack.versionId + 1 := by
  unfold restoreSnapshot
  dsimp only
  split <;> rfl

@[simp] theorem strResource_splitWorkspaceElement (direction : Direction) (toRemove : Nat)
    (individual : Option Nat) (stack : ResourceEditStack) :
    (stack.splitWorkspaceElement direction toRemove individual).strResource =
      stack.strResource := by
  cases direction <;> rfl

@[simp] theorem versionId_splitWorkspaceElement (direction : Direction) (toRemove : Nat)
    (individual : Option Nat) (stack : ResourceEditStack) :
    (stack.splitWorkspaceElement direction toRemove individual).versionId =
      stack.versionId + 1 := by
  cases direction <;> rfl

@[simp] theorem strResource_move (direction : Direction) (element : Nat)
    (stack : ResourceEditStack) :
    (stack.move direction element).strResource = stack.strResource := by
  cases direction <;> rfl

@[simp] theorem versionId_move (direction : Direction) (element : Nat)
    (stack : ResourceEditStack) :
    (stack.move direction element).versionId = stack.versionId + 1 := by
  cases direction <;> rfl

end ResourceEditStack

/-!
## How the service evolves

Numbers are given once, what an element was made with stays, a resource that was removed for an
element stays removed, and an edit stack that leaves the map gets a new version. An element of
several resources is only taken out of an edit stack when that is recorded, or when it is in no
edit stack any more.
-/

open Function

namespace UndoRedoService

variable (service : UndoRedoService)

/-- One side of the edit stack of a resource; empty when there is none. -/
def side (strResource : String) (direction : Direction) : List Nat :=
  match service.get strResource with
  | none => []
  | some id => (service.stack id).elements direction

variable {service} {id : Nat}

theorem side_of_get (found : service.get strResource = some id) (direction : Direction) :
    service.side strResource direction = (service.stack id).elements direction := by
  rw [side, found]

/-- A resource without an edit stack has nothing to undo. -/
theorem side_of_get_none (missing : service.get strResource = none)
    (direction : Direction) : service.side strResource direction = [] := by
  rw [side, missing]

theorem exists_get_of_mem_side (member : element ∈ service.side strResource direction) :
    ∃ id, service.get strResource = some id ∧ element ∈ (service.stack id).elements direction := by
  cases found : service.get strResource with
  | none =>
    rw [side_of_get_none found] at member
    exact absurd member (by simp)
  | some id => exact ⟨id, rfl, by rwa [side_of_get found] at member⟩

/-- What the map and the numbers always satisfy. The missing edit stack stays empty. -/
structure WellFormed (service : UndoRedoService) : Prop where
  counted : 0 < service.stackCounter
  mapped : ∀ strResource id, service.get strResource = some id →
    id ≠ 0 ∧ id < service.stackCounter ∧ (service.stack id).strResource = strResource
  known : ∀ id direction, ∀ element ∈ (service.stack id).elements direction,
    element < service.stackElementCounter
  missing : ∀ direction, (service.stack 0).elements direction = []
  distinct : ∀ element, (service.element element).strResources.Nodup

theorem WellFormed.known_side (wellFormed : service.WellFormed)
    (member : element ∈ service.side strResource direction) :
    element < service.stackElementCounter := by
  obtain ⟨id, -, held⟩ := exists_get_of_mem_side member
  exact wellFormed.known id direction element held

/-- Different resources have different edit stacks. -/
theorem WellFormed.get_injective (wellFormed : service.WellFormed)
    (one : service.get first = some id) (other : service.get second = some id) : first = second :=
  (wellFormed.mapped first id one).2.2.symm.trans (wellFormed.mapped second id other).2.2

/-- Where the copies of an element are. -/
def placement (service : UndoRedoService) (element : Nat) : Placement String Direction where
  copies strResource direction := (service.side strResource direction).count element
  home := {strResource | strResource ∈ (service.element element).strResources}
  left := {strResource | strResource ∈ (service.element element).removedResources}

theorem copies_pos_iff : 0 < (service.placement element).copies strResource direction ↔
      element ∈ service.side strResource direction :=
  count_pos_iff

/-- An element whose data and whose copies stay. -/
theorem thins_of_side_eq {after : UndoRedoService}
    (data : after.element element = service.element element) (sides : ∀ strResource direction,
      after.side strResource direction = service.side strResource direction) :
    (service.placement element).Thins (after.placement element) := by
  apply Placement.Thins.of_copies_eq
  · unfold placement
    rw [data]
  · intro strResource member
    show strResource ∈ (after.element element).removedResources
    rw [data]
    exact member
  · intro strResource direction
    show (after.side strResource direction).count element = _
    rw [sides]
    rfl

/-- What never changes back: numbers, the data of elements, names and versions. -/
structure Later (service after : UndoRedoService) : Prop where
  elementCounter : service.stackElementCounter ≤ after.stackElementCounter
  stackCounter : service.stackCounter ≤ after.stackCounter
  kind : ∀ element < service.stackElementCounter,
    (after.element element).isWorkspace = (service.element element).isWorkspace
  resources : ∀ element < service.stackElementCounter,
    (after.element element).strResources = (service.element element).strResources
  named : ∀ id < service.stackCounter,
    (after.stack id).strResource = (service.stack id).strResource
  versions : ∀ id < service.stackCounter,
    (service.stack id).versionId ≤ (after.stack id).versionId
  mapped : ∀ strResource id, service.get strResource = some id →
    (after.stack id).versionId = (service.stack id).versionId → after.get strResource = some id

theorem Later.refl (service : UndoRedoService) : service.Later service where
  elementCounter := le_refl _
  stackCounter := le_refl _
  kind _ _ := rfl
  resources _ _ := rfl
  named _ _ := rfl
  versions _ _ := le_refl _
  mapped _ _ found _ := found

/-- The service evolves; the elements that are observed are only thinned out, and new ones are
settled. -/
structure Evolves (observed : Nat → Prop) (service after : UndoRedoService) : Prop where
  wellFormed : after.WellFormed
  later : service.Later after
  added : ∀ element, service.stackElementCounter ≤ element →
    element < after.stackElementCounter → observed element →
    (after.element element).isWorkspace → (after.placement element).Settled
  thins : ∀ element < service.stackElementCounter, observed element →
    (service.element element).isWorkspace →
    (service.placement element).Thins (after.placement element)

variable {observed : Nat → Prop}

theorem Evolves.refl (wellFormed : service.WellFormed) : service.Evolves observed service where
  wellFormed := wellFormed
  later := .refl service
  added _ old new := absurd new (Nat.not_lt_of_le old)
  thins _ _ _ _ := .refl _

variable {first second third : UndoRedoService}

/-- Counters and versions only grow. -/
theorem Later.trans (wellFormed : first.WellFormed) (earlier : first.Later second)
    (later : second.Later third) : first.Later third where
  elementCounter := earlier.elementCounter.trans later.elementCounter
  stackCounter := earlier.stackCounter.trans later.stackCounter
  kind element known := by
    rw [later.kind element (lt_of_lt_of_le known earlier.elementCounter),
      earlier.kind element known]
  resources element known := by
    rw [later.resources element (lt_of_lt_of_le known earlier.elementCounter),
      earlier.resources element known]
  named id known := by
    rw [later.named id (lt_of_lt_of_le known earlier.stackCounter), earlier.named id known]
  versions id known :=
    (earlier.versions id known).trans
      (later.versions id (lt_of_lt_of_le known earlier.stackCounter))
  mapped strResource id found version := by
    have known := (wellFormed.mapped strResource id found).2.1
    have first := earlier.versions id known
    have second := later.versions id (lt_of_lt_of_le known earlier.stackCounter)
    have between := earlier.mapped strResource id found (by omega)
    exact later.mapped strResource id between (by omega)

/-- One operation after another. -/
theorem Evolves.trans (wellFormed : first.WellFormed) (earlier : first.Evolves observed second)
    (later : second.Evolves observed third) : first.Evolves observed third where
  wellFormed := later.wellFormed
  later := earlier.later.trans wellFormed later.later
  added element old new isObserved workspace := by
    by_cases between : element < second.stackElementCounter
    · have kind := later.later.kind element between
      rw [kind] at workspace
      exact (earlier.added element old between isObserved workspace).thins
        (later.thins element between isObserved workspace)
    · exact later.added element (Nat.le_of_not_lt between) new isObserved workspace
  thins element known isObserved workspace := by
    apply (earlier.thins element known isObserved workspace).trans
    apply later.thins element (lt_of_lt_of_le known earlier.later.elementCounter) isObserved
    rwa [earlier.later.kind element known]

/-! ## One edit stack is modified -/

section

variable (id : Nat) (f : ResourceEditStack → ResourceEditStack)

@[simp] theorem get_modifyStack (strResource : String) :
    (service.modifyStack id f).get strResource = service.get strResource := rfl

@[simp] theorem element_modifyStack : (service.modifyStack id f).element = service.element := rfl

theorem stack_modifyStack (other : Nat) : (service.modifyStack id f).stack other =
      if other = id then f (service.stack id) else service.stack other :=
  update_apply ..

end

/-- Only the resource of the edit stack sees a change. -/
theorem side_modifyStack (f : ResourceEditStack → ResourceEditStack) (strResource : String)
    (direction : Direction) : (service.modifyStack id f).side strResource direction =
      if service.get strResource = some id then (f (service.stack id)).elements direction
      else service.side strResource direction := by
  cases found : service.get strResource with
  | none => simp [side, found]
  | some other =>
    rw [side_of_get (show (service.modifyStack id f).get strResource = some other from found),
      side_of_get found, stack_modifyStack]
    by_cases same : other = id
    · simp [same]
    · simp [same]

/-- The elements of a side are in no edit stack of another resource. -/
def Elsewhere (service : UndoRedoService) (strResource : String) (element : Nat) : Prop :=
  ∃ other direction, other ≠ strResource ∧ element ∈ service.side other direction

/-- An edit stack may be modified when what it loses is recorded or is held by no other one. -/
theorem Evolves.modifyStack (wellFormed : service.WellFormed) (isStack : id ≠ 0)
    {f : ResourceEditStack → ResourceEditStack}
    (named : (f (service.stack id)).strResource = (service.stack id).strResource)
    (version : (service.stack id).versionId ≤ (f (service.stack id)).versionId)
    (known : ∀ direction, ∀ element ∈ (f (service.stack id)).elements direction,
      element < service.stackElementCounter)
    (counts : ∀ element, observed element → (service.element element).isWorkspace →
      ∀ direction, ((f (service.stack id)).elements direction).count element ≤
        ((service.stack id).elements direction).count element)
    (recorded : ∀ element, observed element → (service.element element).isWorkspace →
      ∀ strResource, service.get strResource = some id →
      strResource ∉ (service.element element).removedResources →
      ∀ direction, element ∈ (service.stack id).elements direction →
      element ∈ (f (service.stack id)).elements direction ∨
        ¬service.Elsewhere strResource element) :
    service.Evolves observed (service.modifyStack id f) := by
  refine ⟨⟨wellFormed.counted, ?_, ?_, ?_, wellFormed.distinct⟩,
    ⟨Nat.le_refl _, Nat.le_refl _, fun _ _ => rfl, fun _ _ => rfl, ?_, ?_,
      fun _ _ found _ => found⟩, fun _ old new => absurd new (Nat.not_lt_of_le old), ?_⟩
  · intro strResource other found
    have mapped := wellFormed.mapped strResource other found
    rw [stack_modifyStack]
    split
    next same => exact ⟨mapped.1, mapped.2.1, by rw [named, ← same, mapped.2.2]⟩
    next => exact mapped
  · intro other direction element
    rw [stack_modifyStack]
    split
    · exact known direction element
    · exact wellFormed.known other direction element
  · intro direction
    rw [stack_modifyStack, if_neg isStack.symm]
    exact wellFormed.missing direction
  · intro other _
    rw [stack_modifyStack]
    split
    next same => rw [named, same]
    next => rfl
  · intro other _
    rw [stack_modifyStack]
    split
    next same => rw [same]; exact version
    next => exact Nat.le_refl _
  · intro element _ isObserved workspace
    refine ⟨rfl, fun _ member => member, fun strResource direction => ?_, ?_⟩
    · unfold placement
      dsimp only
      rw [side_modifyStack]
      split
      next found =>
          rw [side_of_get found]
          exact counts element isObserved workspace direction
      next => exact Nat.le_refl _
    · rintro ⟨foundPlace, foundSide, copy⟩ strResource _ stays ⟨direction, held⟩
      rw [copies_pos_iff] at copy held
      rw [side_modifyStack] at copy
      by_cases found : service.get strResource = some id
      · rw [side_of_get found] at held
        rcases recorded element isObserved workspace strResource found stays direction held with
          still | nowhere
        · refine ⟨direction, copies_pos_iff.mpr ?_⟩
          rw [side_modifyStack, if_pos found]
          exact still
        · by_cases same : foundPlace = strResource
          · subst same
            rw [if_pos found] at copy
            refine ⟨foundSide, copies_pos_iff.mpr ?_⟩
            rw [side_modifyStack, if_pos found]
            exact copy
          · exfalso
            split at copy
            next foundToo => exact same (wellFormed.get_injective foundToo found)
            next => exact nowhere ⟨foundPlace, foundSide, same, copy⟩
      · refine ⟨direction, copies_pos_iff.mpr ?_⟩
        rw [side_modifyStack, if_neg found]
        exact held

/-! ## Elements are modified -/

/-- Elements may be modified when their data stay and removed resources stay removed. -/
theorem Evolves.of_elements (wellFormed : service.WellFormed) (element : Nat → StackElement)
    (kind : ∀ id, (element id).isWorkspace = (service.element id).isWorkspace)
    (resources : ∀ id, (element id).strResources = (service.element id).strResources)
    (removed : ∀ id, ∀ strResource ∈ (service.element id).removedResources,
      strResource ∈ (element id).removedResources) :
    service.Evolves observed { service with element := element } where
  wellFormed :=
    { counted := wellFormed.counted
      mapped := wellFormed.mapped
      known := wellFormed.known
      missing := wellFormed.missing
      distinct := fun id => by
        show (element id).strResources.Nodup
        rw [resources id]
        exact wellFormed.distinct id }
  later :=
    { Later.refl service with
      kind := fun id _ => kind id
      resources := fun id _ => resources id }
  added _ old new := absurd new (Nat.not_lt_of_le old)
  thins id _ _ _ := by
    apply Placement.Thins.of_copies_eq
    · apply Set.ext
      intro strResource
      show strResource ∈ (element id).strResources ↔ _
      rw [resources id]
      rfl
    · exact removed id
    · intro strResource direction
      rfl

end UndoRedoService

namespace StackElement

@[simp] theorem isWorkspace_removeResource (strResource : String) (element : StackElement) :
    (element.removeResource strResource).isWorkspace = element.isWorkspace := by
  unfold removeResource
  split <;> rfl

@[simp] theorem strResources_removeResource (strResource : String) (element : StackElement) :
    (element.removeResource strResource).strResources = element.strResources := by
  unfold removeResource
  split <;> rfl

theorem mem_removeResource {strResource other : String} {element : StackElement} :
    other ∈ (element.removeResource strResource).removedResources ↔
      other ∈ element.removedResources ∨ other = strResource := by
  unfold removeResource
  split
  next member =>
      constructor
      · exact .inl
      · rintro (already | same)
        · exact already
        · exact same ▸ member
  next => simp

section

variable (strResource : String) (isValid : Bool) (element : StackElement)

@[simp] theorem isWorkspace_setValid :
    (element.setValid strResource isValid).isWorkspace = element.isWorkspace := by
  unfold setValid
  split <;> (try split) <;> (try split) <;> rfl

@[simp] theorem strResources_setValid :
    (element.setValid strResource isValid).strResources = element.strResources := by
  unfold setValid
  split <;> (try split) <;> (try split) <;> rfl

@[simp] theorem removedResources_setValid :
    (element.setValid strResource isValid).removedResources = element.removedResources := by
  unfold setValid
  split <;> (try split) <;> (try split) <;> rfl

end

end StackElement

namespace UndoRedoService

variable {service : UndoRedoService} {observed : Nat → Prop}

/-- Elements record that a resource is gone. -/
theorem Evolves.removeResource (wellFormed : service.WellFormed) (strResource : String)
    (elements : List Nat) :
    service.Evolves observed (service.removeResource strResource elements) := by
  apply Evolves.of_elements wellFormed
  · intro id
    split <;> simp
  · intro id
    split <;> simp
  · intro id other member
    split
    · exact StackElement.mem_removeResource.mpr (.inl member)
    · exact member

/-- What is recorded for the elements of a list. -/
theorem mem_removedResources_removeResource {strResource : String} {elements : List Nat}
    (member : element ∈ elements) (workspace : (service.element element).isWorkspace) :
    strResource ∈
      ((service.removeResource strResource elements).element element).removedResources := by
  show strResource ∈ (if element ∈ elements ∧ (service.element element).isWorkspace then
    (service.element element).removeResource strResource
    else service.element element).removedResources
  rw [if_pos ⟨member, workspace⟩]
  exact StackElement.mem_removeResource.mpr (.inr rfl)

theorem Evolves.setElementsValidFlag (wellFormed : service.WellFormed) (strResource : String)
    (isValid : Bool) (filter : Nat → Bool) :
    service.Evolves observed (service.setElementsValidFlag strResource isValid filter) := by
  unfold UndoRedoService.setElementsValidFlag
  split
  · exact .refl wellFormed
  · apply Evolves.of_elements wellFormed
    · intro id
      split <;> simp
    · intro id
      split <;> simp
    · intro id other member
      split
      · rw [StackElement.removedResources_setValid]
        exact member
      · exact member

end UndoRedoService

end CodeEditor.UndoRedo
