import CodeEditor.UndoRedo.Consistency

/-!
# What the operations do to locks and lists

No operation changes a lock. No edit stack comes to hold an element twice: lists lose elements,
get a new one, or have one replaced by a new one.
-/

namespace CodeEditor.UndoRedo

open Function List Nat

namespace UndoRedoService

variable {service after : UndoRedoService}

/-- The edit stacks stay as they are locked, and new ones are not locked. -/
structure KeepsLocks (service after : UndoRedoService) : Prop where
  evolves : service.Evolves (fun _ => False) after
  locked : ∀ id < service.stackCounter,
    (after.stack id).locked = (service.stack id).locked
  unlocked : ∀ id < after.stackCounter, service.stackCounter ≤ id →
    (after.stack id).locked = false

/-- No edit stack holds an element twice. -/
def Distinct (service : UndoRedoService) : Prop :=
  ∀ id, ((service.stack id).past ++ (service.stack id).future).Nodup

/-- The edit stacks only lose elements. -/
def Shrinks (service after : UndoRedoService) : Prop :=
  ∀ id side, ((after.stack id).elements side).Sublist ((service.stack id).elements side)

theorem KeepsLocks.refl (wellFormed : service.WellFormed) : service.KeepsLocks service :=
  ⟨.refl wellFormed, fun _ _ => rfl, fun _ new old => absurd new (Nat.not_lt_of_le old)⟩

variable {first second third : UndoRedoService}

/-- Locks are kept by one operation after another. -/
theorem KeepsLocks.trans (wellFormed : first.WellFormed) (earlier : first.KeepsLocks second)
    (later : second.KeepsLocks third) : first.KeepsLocks third where
  evolves := earlier.evolves.trans wellFormed later.evolves
  locked id known := by
    rw [later.locked id (lt_of_lt_of_le known earlier.evolves.later.stackCounter),
      earlier.locked id known]
  unlocked id new notOld := by
    by_cases between : id < second.stackCounter
    · rw [later.locked id between, earlier.unlocked id between notOld]
    · exact later.unlocked id new (Nat.le_of_not_lt between)

theorem Shrinks.refl (service : UndoRedoService) : service.Shrinks service :=
  fun _ _ => List.Sublist.refl _

theorem Shrinks.trans (earlier : first.Shrinks second) (later : second.Shrinks third) :
    first.Shrinks third :=
  fun id side => (later id side).trans (earlier id side)

/-- Losing elements makes no duplicates. -/
theorem Shrinks.distinct (shrinks : service.Shrinks after) (distinct : service.Distinct) :
    after.Distinct := by
  intro id
  exact (distinct id).sublist ((shrinks id .undo).append (shrinks id .redo))

/-! ## Operations that only lose elements -/

/-- A change of one edit stack that leaves its lock as it is. -/
theorem KeepsLocks.modifyStack {id : Nat}
    (evolves : service.Evolves (fun _ => False) (service.modifyStack id f))
    (locked : (f (service.stack id)).locked = (service.stack id).locked) :
    service.KeepsLocks (service.modifyStack id f) := by
  refine ⟨evolves, fun other _ => ?_, fun _ new old => absurd new (Nat.not_lt_of_le old)⟩
  rw [stack_modifyStack]
  split
  next same => rw [locked, same]
  next => rfl

/-- A change of one edit stack that only loses elements. -/
theorem shrinks_modifyStack {id : Nat} {f : ResourceEditStack → ResourceEditStack}
    (sublist : ∀ side,
      ((f (service.stack id)).elements side).Sublist ((service.stack id).elements side)) :
    service.Shrinks (service.modifyStack id f) := by
  intro other side
  rw [stack_modifyStack]
  split
  next same => rw [same]; exact sublist side
  next => exact List.Sublist.refl _

/-- Disposing elements leaves them in the lists. -/
theorem elements_dispose (id other : Nat) (side : Direction) :
    ((service.dispose id).stack other).elements side = (service.stack other).elements side := by
  unfold dispose
  rw [stack_modifyStack]
  split
  next same => rw [same, ResourceEditStack.elements_touch]; rfl
  next => rfl

theorem elements_removeElements (strResource : String) (id : Nat) (side : Direction) :
    ((service.removeElements strResource).stack id).elements side =
      (service.stack id).elements side := by
  cases found : service.get strResource with
  | none => rw [removeElements, found]
  | some removed =>
    rw [removeElements_of_get found]
    exact elements_dispose removed id side

theorem KeepsLocks.removeElements (wellFormed : service.WellFormed) (strResource : String) :
    service.KeepsLocks (service.removeElements strResource) := by
  refine ⟨.removeElements wellFormed strResource, ?_, ?_⟩
  · intro id _
    cases found : service.get strResource with
    | none => rw [UndoRedoService.removeElements, found]
    | some removed =>
      rw [removeElements_of_get found]
      show ((service.dispose removed).stack id).locked = _
      unfold UndoRedoService.dispose
      rw [stack_modifyStack]
      split
      next same => rw [same]; rfl
      next => rfl
  · intro id new old
    cases found : service.get strResource with
    | none =>
      rw [UndoRedoService.removeElements, found] at new
      exact absurd new (Nat.not_lt_of_le old)
    | some removed =>
      rw [removeElements_of_get found] at new
      exact absurd new (Nat.not_lt_of_le old)

theorem elements_removeAll (strResources : List String) (id : Nat) (side : Direction) :
    ((service.removeAll strResources).stack id).elements side =
      (service.stack id).elements side := by
  unfold removeAll
  induction strResources generalizing service with
  | nil => rfl
  | cons strResource strResources ih =>
    rw [foldl_cons, ih, elements_removeElements]

theorem KeepsLocks.removeAll (wellFormed : service.WellFormed) (strResources : List String) :
    service.KeepsLocks (service.removeAll strResources) := by
  unfold UndoRedoService.removeAll
  induction strResources generalizing service with
  | nil => exact .refl wellFormed
  | cons strResource strResources ih =>
    have first : service.KeepsLocks (service.removeElements strResource) :=
      .removeElements wellFormed strResource
    exact first.trans wellFormed (ih first.evolves.wellFormed)

/-- An operation on the elements alone. -/
theorem KeepsLocks.of_stack (evolves : service.Evolves (fun _ => False) after)
    (stack : after.stack = service.stack) (counter : after.stackCounter = service.stackCounter) :
    service.KeepsLocks after :=
  ⟨evolves, fun id _ => by rw [stack],
    fun _ new old => absurd (counter ▸ new) (Nat.not_lt_of_le old)⟩

/-- Valid flags are in the elements, not in the edit stacks. -/
theorem stack_setElementsValidFlag (strResource : String) (isValid : Bool) (filter : Nat → Bool) :
    (service.setElementsValidFlag strResource isValid filter).stack = service.stack ∧
      (service.setElementsValidFlag strResource isValid filter).stackCounter =
        service.stackCounter := by
  unfold setElementsValidFlag
  split <;> exact ⟨rfl, rfl⟩

theorem sublist_elements_restoreSnapshot (stack : ResourceEditStack) (snapshot : List Nat)
    (side : Direction) :
    ((stack.restoreSnapshot snapshot).elements side).Sublist (stack.elements side) := by
  by_cases differs : stack.DiffersInPast snapshot
  · rw [ResourceEditStack.elements_restoreSnapshot_of_differs differs]
    cases side with
    | undo => exact nil_sublist _
    | redo => exact List.Sublist.refl _
  · rw [ResourceEditStack.elements_restoreSnapshot_of_not_differs differs]
    cases side with
    | undo => exact List.Sublist.refl _
    | redo => exact drop_sublist _ _

theorem locked_restoreSnapshot (stack : ResourceEditStack) (snapshot : List Nat) :
    (stack.restoreSnapshot snapshot).locked = stack.locked := by
  unfold ResourceEditStack.restoreSnapshot
  dsimp only
  split <;> rfl

/-- A snapshot is restored by losing elements. -/
theorem KeepsLocks.restoreSnapshot (wellFormed : service.WellFormed) (strResource : String)
    (snapshot : List Nat) :
    service.KeepsLocks (service.restoreSnapshot strResource snapshot) ∧
      service.Shrinks (service.restoreSnapshot strResource snapshot) := by
  have evolves : service.Evolves (fun _ => False) (service.restoreSnapshot strResource snapshot) :=
    .restoreSnapshot wellFormed fun _ isFalse => isFalse.elim
  unfold UndoRedoService.restoreSnapshot at evolves ⊢
  cases found : service.get strResource with
  | none => exact ⟨.refl wellFormed, .refl service⟩
  | some id =>
    dsimp only at evolves ⊢
    have recorded : service.Evolves (fun _ => False)
        (service.removeResource (service.stack id).strResource
          ((service.stack id).droppedBySnapshot snapshot)) := .removeResource wellFormed _ _
    have restored : service.KeepsLocks ((service.removeResource (service.stack id).strResource
          ((service.stack id).droppedBySnapshot snapshot)).modifyStack id
            (·.restoreSnapshot snapshot)) := by
      refine (KeepsLocks.of_stack recorded rfl rfl).trans wellFormed
        (.modifyStack (Evolves.modifyStack recorded.wellFormed
          (wellFormed.mapped strResource id found).1 ?_ ?_ ?_ ?_ ?_) ?_)
      · exact ResourceEditStack.strResource_restoreSnapshot _ _
      · rw [ResourceEditStack.versionId_restoreSnapshot]
        exact le_succ _
      · intro side element member
        exact wellFormed.known id side element (mem_elements_restoreSnapshot member)
      · exact fun _ isFalse => isFalse.elim
      · exact fun _ isFalse => isFalse.elim
      · exact locked_restoreSnapshot _ _
    have shrinks : service.Shrinks ((service.removeResource (service.stack id).strResource
          ((service.stack id).droppedBySnapshot snapshot)).modifyStack id
            (·.restoreSnapshot snapshot)) :=
      shrinks_modifyStack fun side => sublist_elements_restoreSnapshot _ _ side
    split
    · refine ⟨restored.trans wellFormed
        (.removeElements restored.evolves.wellFormed strResource), shrinks.trans ?_⟩
      intro other side
      rw [elements_removeElements]
    · exact ⟨restored, shrinks⟩

/-! ## Pushing -/

/-- A created edit stack is empty and not locked. -/
theorem stack_getOrCreate (strResource : String) (id : Nat) :
    (service.getOrCreate strResource).2.stack id =
      if service.get strResource = none ∧ id = service.stackCounter then .new strResource
      else service.stack id := by
  cases found : service.get strResource with
  | some other =>
    rw [getOrCreate_of_get found]
    simp
  | none =>
    rw [getOrCreate, found]
    show update service.stack _ _ id = _
    rw [update_apply]
    simp

theorem KeepsLocks.getOrCreate (wellFormed : service.WellFormed) (strResource : String) :
    service.KeepsLocks (service.getOrCreate strResource).2 := by
  refine ⟨.getOrCreate wellFormed strResource, ?_, ?_⟩
  · intro id known
    rw [stack_getOrCreate, if_neg fun both => absurd known (by rw [both.2]; exact lt_irrefl _)]
  · intro id new old
    rw [stack_getOrCreate]
    cases found : service.get strResource with
    | some other =>
      rw [getOrCreate_of_get found] at new
      exact absurd new (Nat.not_lt_of_le old)
    | none =>
      rw [UndoRedoService.getOrCreate, found] at new
      rw [if_pos ⟨rfl, Nat.le_antisymm (Nat.le_of_lt_succ new) old⟩]
      rfl

theorem shrinks_getOrCreate (strResource : String) :
    service.Shrinks (service.getOrCreate strResource).2 := by
  intro id side
  rw [stack_getOrCreate]
  split
  · rw [ResourceEditStack.elements_new]
    exact nil_sublist _
  · exact List.Sublist.refl _

theorem KeepsLocks.pushLoop {element : Nat} (strResources : List String)
    (wellFormed : service.WellFormed) (known : element < service.stackElementCounter) :
    service.KeepsLocks (pushLoop element strResources service) := by
  induction strResources generalizing service with
  | nil => exact .refl wellFormed
  | cons strResource strResources ih =>
    unfold UndoRedo.pushLoop
    have created : service.KeepsLocks (service.getOrCreate strResource).2 :=
      .getOrCreate wellFormed strResource
    have found : (service.getOrCreate strResource).2.get strResource =
        some (service.getOrCreate strResource).1 := by
      rw [get_getOrCreate, if_pos rfl]
    have isStack := (created.evolves.wellFormed.mapped strResource _ found).1
    have knownThen := lt_of_lt_of_le known created.evolves.later.elementCounter
    have pushed : (service.getOrCreate strResource).2.KeepsLocks
        ((service.getOrCreate strResource).2.pushOnStack
          (service.getOrCreate strResource).1 element) := by
      refine ⟨.pushOnStack created.evolves.wellFormed isStack knownThen not_false, ?_,
        fun _ new old => absurd new (Nat.not_lt_of_le old)⟩
      intro id _
      unfold UndoRedoService.pushOnStack
      rw [stack_modifyStack]
      split
      next same => rw [same]; rfl
      next => rfl
    apply (created.trans wellFormed pushed).trans wellFormed
    exact ih pushed.evolves.wellFormed
      (lt_of_lt_of_le knownThen pushed.evolves.later.elementCounter)

/-- The pushed element is only in edit stacks that the loop has left behind. -/
theorem distinct_pushLoop {element : Nat} (strResources : List String)
    (nodup : strResources.Nodup) (wellFormed : service.WellFormed)
    (known : element < service.stackElementCounter) (distinct : service.Distinct)
    (apart : ∀ id side, element ∈ (service.stack id).elements side →
      ∃ strResource, strResource ∉ strResources ∧ service.get strResource = some id) :
    (pushLoop element strResources service).Distinct := by
  induction strResources generalizing service with
  | nil => exact distinct
  | cons strResource strResources ih =>
    unfold pushLoop
    have nodupRest := nodup_cons.mp nodup
    have created : service.KeepsLocks (service.getOrCreate strResource).2 :=
      .getOrCreate wellFormed strResource
    have gets := get_getOrCreate service strResource
    have found : (service.getOrCreate strResource).2.get strResource =
        some (service.getOrCreate strResource).1 := by
      rw [gets, if_pos rfl]
    have isStack := (created.evolves.wellFormed.mapped strResource _ found).1
    have knownThen := lt_of_lt_of_le known created.evolves.later.elementCounter
    have pushed : (service.getOrCreate strResource).2.Evolves (fun _ => False)
        ((service.getOrCreate strResource).2.pushOnStack
          (service.getOrCreate strResource).1 element) :=
      .pushOnStack created.evolves.wellFormed isStack knownThen not_false
    have distinctThen := (shrinks_getOrCreate strResource).distinct distinct
    have apartThen : ∀ id side,
        element ∈ ((service.getOrCreate strResource).2.stack id).elements side →
        ∃ other, other ∉ strResource :: strResources ∧
          (service.getOrCreate strResource).2.get other = some id := by
      intro id side member
      obtain ⟨other, absent, mapped⟩ :=
        apart id side ((shrinks_getOrCreate strResource id side).subset member)
      refine ⟨other, absent, ?_⟩
      have different : other ≠ strResource := fun same => absent (same ▸ mem_cons_self)
      rw [gets, if_neg different]
      exact mapped
    have fresh : ∀ side, element ∉ ((service.getOrCreate strResource).2.stack
        (service.getOrCreate strResource).1).elements side := by
      intro side member
      obtain ⟨other, absent, mapped⟩ := apartThen _ side member
      have same := created.evolves.wellFormed.get_injective mapped found
      exact absent (same ▸ mem_cons_self)
    have lists : ∀ id side, (((service.getOrCreate strResource).2.pushOnStack
        (service.getOrCreate strResource).1 element).stack id).elements side =
        if id = (service.getOrCreate strResource).1 then
          (((service.getOrCreate strResource).2.stack
            (service.getOrCreate strResource).1).pushElement element).elements side
        else ((service.getOrCreate strResource).2.stack id).elements side := by
      intro id side
      unfold pushOnStack
      rw [stack_modifyStack]
      split <;> rfl
    apply ih nodupRest.2 pushed.wellFormed (lt_of_lt_of_le knownThen pushed.later.elementCounter)
    · intro id
      have past := lists id .undo
      have future := lists id .redo
      by_cases same : id = (service.getOrCreate strResource).1
      · rw [if_pos same] at past future
        change ((ResourceEditStack.elements _ .undo) ++ ResourceEditStack.elements _ .redo).Nodup
        rw [past, future]
        show ((_ ++ [element]) ++ []).Nodup
        rw [append_nil, nodup_append_comm, singleton_append, nodup_cons]
        exact ⟨fresh .undo, (distinctThen _).sublist (sublist_append_left _ _)⟩
      · rw [if_neg same] at past future
        change ((ResourceEditStack.elements _ .undo) ++ ResourceEditStack.elements _ .redo).Nodup
        rw [past, future]
        exact distinctThen id
    · intro id side member
      rw [lists] at member
      by_cases same : id = (service.getOrCreate strResource).1
      · exact ⟨strResource, nodupRest.1, same ▸ found⟩
      · rw [if_neg same] at member
        obtain ⟨other, absent, mapped⟩ := apartThen id side member
        exact ⟨other, fun later => absent (mem_cons_of_mem _ later), mapped⟩

theorem keepsLocks_pushElement (wellFormed : service.WellFormed) (pushed : PushedElement) :
    service.KeepsLocks (service.pushElement pushed) := by
  have added : service.Evolves (fun _ => False) (service.addElement pushed.stackElement) :=
    .addElement wellFormed (nodup_strResources_stackElement pushed) fun isFalse => isFalse.elim
  exact (KeepsLocks.of_stack added rfl rfl).trans wellFormed
    (.pushLoop _ added.wellFormed (lt_succ_self _))

/-- A pushed element is new, so no list has it yet. -/
theorem distinct_pushElement (wellFormed : service.WellFormed) (distinct : service.Distinct)
    (pushed : PushedElement) : (service.pushElement pushed).Distinct := by
  have added : service.Evolves (fun _ => False) (service.addElement pushed.stackElement) :=
    .addElement wellFormed (nodup_strResources_stackElement pushed) fun isFalse => isFalse.elim
  apply distinct_pushLoop _ (nodup_strResources_stackElement pushed) added.wellFormed
    (lt_succ_self _) distinct
  intro id side member
  exact absurd (wellFormed.known id side _ member) (lt_irrefl _)

end UndoRedoService

end CodeEditor.UndoRedo
