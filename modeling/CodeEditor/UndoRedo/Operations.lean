import CodeEditor.UndoRedo.Evolution

/-!
# What the operations keep

Every operation of the service lets it evolve. Restoring a snapshot and flushing an edit stack
need a condition, since they may take elements out without recording it.
-/

namespace CodeEditor.UndoRedo

open Function List Nat

namespace UndoRedoService

variable {service : UndoRedoService} {observed : Nat → Prop}

/-- An element may be taken out of the edit stack of a resource: it is not one of several
resources, or the resource is recorded, or the element is in no other edit stack. -/
def MayTake (service : UndoRedoService) (strResource : String) (element : Nat) : Prop :=
  (service.element element).isWorkspace →
    strResource ∈ (service.element element).removedResources ∨
      ¬service.Elsewhere strResource element

/-! ## Removing elements -/

theorem get_delete (service : UndoRedoService) (strResource other : String) :
    (service.delete strResource).get other =
      if other = strResource then none else service.get other := by
  unfold get delete
  rw [find?_filter]
  by_cases same : other = strResource
  · subst same
    rw [if_pos rfl, Option.map_eq_none_iff, find?_eq_none]
    intro entry _
    simp
  · rw [if_neg same]
    congr 2
    funext entry
    by_cases isOther : entry.1 = other
    · simp [isOther, same]
    · simp [isOther]

theorem Evolves.dispose (wellFormed : service.WellFormed) {id : Nat} (isStack : id ≠ 0) :
    service.Evolves observed (service.dispose id) := by
  have recorded : service.Evolves observed (service.removeResource (service.stack id).strResource
      ((service.stack id).past ++ (service.stack id).future)) := .removeResource wellFormed _ _
  apply recorded.trans wellFormed
  apply Evolves.modifyStack recorded.wellFormed isStack
  · rfl
  · exact le_succ _
  · intro direction element
    exact recorded.wellFormed.known id direction element
  · intro element _ _ direction
    rw [ResourceEditStack.elements_touch]
  · intro element _ _ strResource _ _ direction member
    left
    rwa [ResourceEditStack.elements_touch]

theorem removeElements_of_get {id : Nat} (found : service.get strResource = some id) :
    service.removeElements strResource = (service.dispose id).delete strResource := by
  rw [removeElements, found]

theorem side_removeElements (service : UndoRedoService) (strResource other : String)
    (direction : Direction) :
    (service.removeElements strResource).side other direction =
      if other = strResource then [] else service.side other direction := by
  cases found : service.get strResource with
  | none =>
    have unchanged : service.removeElements strResource = service := by
      rw [removeElements, found]
    rw [unchanged]
    split
    next same => rw [same, side_of_get_none found]
    next => rfl
  | some id =>
    rw [removeElements_of_get found]
    have deleted := get_delete (service.dispose id) strResource other
    by_cases same : other = strResource
    · rw [if_pos same] at deleted ⊢
      exact side_of_get_none deleted direction
    · rw [if_neg same] at deleted ⊢
      cases mapped : service.get other with
      | none => rw [side_of_get_none mapped, side_of_get_none (deleted.trans mapped)]
      | some otherId =>
        rw [side_of_get mapped, side_of_get (deleted.trans mapped)]
        show ((service.dispose id).stack otherId).elements direction = _
        unfold dispose
        rw [stack_modifyStack]
        split
        next sameId => rw [sameId, ResourceEditStack.elements_touch]; rfl
        next => rfl

variable {element : Nat}

/-- The elements of the removed edit stack record it. -/
theorem mem_removedResources_removeElements (wellFormed : service.WellFormed)
    (held : element ∈ service.side strResource direction)
    (workspace : (service.element element).isWorkspace) : strResource ∈
      ((service.removeElements strResource).element element).removedResources := by
  obtain ⟨id, found, member⟩ := exists_get_of_mem_side held
  rw [removeElements_of_get found]
  have name := (wellFormed.mapped strResource id found).2.2
  show strResource ∈ ((service.removeResource (service.stack id).strResource _).element
    element).removedResources
  rw [name]
  exact mem_removedResources_removeResource
    (ResourceEditStack.mem_past_append_future.mpr ⟨direction, member⟩) workspace

theorem Evolves.removeElements (wellFormed : service.WellFormed) (strResource : String) :
    service.Evolves observed (service.removeElements strResource) := by
  cases found : service.get strResource with
  | none =>
    rw [UndoRedoService.removeElements, found]
    exact .refl wellFormed
  | some id =>
    have mapped := wellFormed.mapped strResource id found
    have disposed : service.Evolves observed (service.dispose id) :=
      .dispose wellFormed mapped.1
    have deleted := get_delete (service.dispose id) strResource
    have sides := side_removeElements service strResource
    have records : ∀ element direction, element ∈ service.side strResource direction →
        (service.element element).isWorkspace → strResource ∈
          ((service.removeElements strResource).element element).removedResources :=
      fun _ _ => mem_removedResources_removeElements wellFormed
    rw [removeElements_of_get found] at sides records ⊢
    refine ⟨⟨disposed.wellFormed.counted, ?_, disposed.wellFormed.known,
      disposed.wellFormed.missing, disposed.wellFormed.distinct⟩,
      { disposed.later with mapped := ?_ },
      fun _ old new => absurd new (Nat.not_lt_of_le old), ?_⟩
    · intro other otherId otherFound
      rw [deleted] at otherFound
      split at otherFound
      · exact absurd otherFound (by simp)
      · exact disposed.wellFormed.mapped other otherId otherFound
    · intro other otherId otherFound version
      rw [deleted]
      have different : other ≠ strResource := by
        -- the version of the edit stack that leaves the map has changed
        intro same
        rw [same, found] at otherFound
        have sameId : id = otherId := Option.some.inj otherFound
        subst sameId
        change ((service.dispose id).stack id).versionId = _ at version
        unfold UndoRedoService.dispose at version
        rw [stack_modifyStack, if_pos rfl] at version
        change (service.stack id).versionId + 1 = (service.stack id).versionId at version
        omega
      rw [if_neg different]
      exact otherFound
    · intro element known isObserved workspace
      have thins := disposed.thins element known isObserved workspace
      refine ⟨thins.home, thins.left, fun other direction => ?_, ?_⟩
      · unfold placement
        dsimp only
        rw [sides]
        split
        · exact Nat.zero_le _
        · exact Nat.le_refl _
      · rintro - other _ stays ⟨direction, copy⟩
        rw [copies_pos_iff] at copy
        have different : other ≠ strResource := by
          intro same
          rw [same] at copy stays
          exact stays (records element direction copy workspace)
        refine ⟨direction, copies_pos_iff.mpr ?_⟩
        rw [sides, if_neg different]
        exact copy

theorem Evolves.removeAll (wellFormed : service.WellFormed) (strResources : List String) :
    service.Evolves observed (service.removeAll strResources) := by
  unfold UndoRedoService.removeAll
  induction strResources generalizing service with
  | nil => exact .refl wellFormed
  | cons strResource strResources ih =>
    have first : service.Evolves observed (service.removeElements strResource) :=
      .removeElements wellFormed strResource
    exact first.trans wellFormed (ih first.wellFormed)

/-! ## Restoring a snapshot -/

/-- A difference in the past takes out the elements in front of it, and these may be taken. -/
def MayRestore (service : UndoRedoService) (strResource : String) (snapshot : List Nat) : Prop :=
  ∀ id, service.get strResource = some id → (service.stack id).DiffersInPast snapshot →
    ∀ element ∈ (service.stack id).past.take (sharedLength (service.stack id).past snapshot),
      service.MayTake strResource element

variable {stack : ResourceEditStack}

theorem mem_elements_restoreSnapshot
    (member : element ∈ (stack.restoreSnapshot snapshot).elements direction) :
    element ∈ stack.elements direction := by
  by_cases differs : stack.DiffersInPast snapshot
  · rw [ResourceEditStack.elements_restoreSnapshot_of_differs differs] at member
    cases direction with
    | undo => exact absurd member (by simp)
    | redo => exact member
  · rw [ResourceEditStack.elements_restoreSnapshot_of_not_differs differs] at member
    cases direction with
    | undo => exact member
    | redo => exact mem_of_mem_drop member

theorem count_elements_restoreSnapshot_le (stack : ResourceEditStack) (snapshot : List Nat)
    (direction : Direction) (element : Nat) :
    ((stack.restoreSnapshot snapshot).elements direction).count element ≤
      (stack.elements direction).count element := by
  by_cases differs : stack.DiffersInPast snapshot
  · rw [ResourceEditStack.elements_restoreSnapshot_of_differs differs]
    cases direction with
    | undo => exact zero_le _
    | redo => exact le_refl _
  · rw [ResourceEditStack.elements_restoreSnapshot_of_not_differs differs]
    cases direction with
    | undo => exact le_refl _
    | redo => exact (drop_sublist _ _).count_le element

/-- What restoring a snapshot takes out is recorded, or in front of a difference in the past. -/
theorem mem_or_of_restoreSnapshot (snapshot : List Nat)
    (member : element ∈ stack.elements direction) :
    element ∈ (stack.restoreSnapshot snapshot).elements direction ∨
      element ∈ stack.droppedBySnapshot snapshot ∨
      stack.DiffersInPast snapshot ∧
        element ∈ stack.past.take (sharedLength stack.past snapshot) := by
  by_cases differs : stack.DiffersInPast snapshot
  · cases direction with
    | redo =>
      left
      rw [ResourceEditStack.elements_restoreSnapshot_of_differs differs]
      exact member
    | undo =>
      right
      change element ∈ stack.past at member
      rw [← take_append_drop (sharedLength stack.past snapshot) stack.past, mem_append] at member
      rcases member with front | back
      · exact .inr ⟨differs, front⟩
      · left
        rw [ResourceEditStack.droppedBySnapshot_of_differs differs]
        exact mem_append_left _ back
  · rw [ResourceEditStack.elements_restoreSnapshot_of_not_differs differs]
    cases direction with
    | undo => exact .inl member
    | redo =>
      by_cases kept : element ∈
          stack.future.drop (stack.future.length - stack.sharedFuture snapshot)
      · exact .inl kept
      · exact .inr (.inl (ResourceEditStack.mem_droppedBySnapshot differs member kept))

theorem Evolves.restoreSnapshot (wellFormed : service.WellFormed)
    (may : ∀ element, observed element → service.MayRestore strResource snapshot) :
    service.Evolves observed (service.restoreSnapshot strResource snapshot) := by
  unfold UndoRedoService.restoreSnapshot
  cases found : service.get strResource with
  | none => exact .refl wellFormed
  | some id =>
    have mapped := wellFormed.mapped strResource id found
    have recorded : service.Evolves observed (service.removeResource (service.stack id).strResource
          ((service.stack id).droppedBySnapshot snapshot)) := .removeResource wellFormed _ _
    have restored : service.Evolves observed ((service.removeResource (service.stack id).strResource
          ((service.stack id).droppedBySnapshot snapshot)).modifyStack id
            (·.restoreSnapshot snapshot)) := by
      apply recorded.trans wellFormed
      apply Evolves.modifyStack recorded.wellFormed mapped.1
      · exact ResourceEditStack.strResource_restoreSnapshot _ _
      · rw [ResourceEditStack.versionId_restoreSnapshot]
        exact le_succ _
      · intro direction element member
        exact recorded.wellFormed.known id direction element (mem_elements_restoreSnapshot member)
      · intro element _ _ direction
        exact count_elements_restoreSnapshot_le _ _ _ _
      · intro element isObserved workspace other otherFound stays direction member
        have same : other = strResource := wellFormed.get_injective otherFound found
        subst same
        have isWorkspace : (service.element element).isWorkspace := by
          change (if _ then (service.element element).removeResource _
            else service.element element).isWorkspace at workspace
          split at workspace
          · rwa [StackElement.isWorkspace_removeResource] at workspace
          · exact workspace
        rcases mem_or_of_restoreSnapshot snapshot member with
          still | dropped | ⟨differs, front⟩
        · exact .inl still
        · rw [mapped.2.2] at stays
          exact absurd (mem_removedResources_removeResource dropped isWorkspace) stays
        · right
          rcases may element isObserved id found differs element front isWorkspace with
            already | nowhere
          · have later := recorded.thins element
              (wellFormed.known id direction element member) isObserved isWorkspace
            exact absurd (later.left other already) stays
          · exact nowhere
    dsimp only
    split
    · exact restored.trans wellFormed (.removeElements restored.wellFormed strResource)
    · exact restored

end UndoRedoService

end CodeEditor.UndoRedo
