import CodeEditor.UndoRedo.Operations

/-!
# Pushing an element

A pushed element has a new number, and afterwards one copy in the past of each of its resources.
The other elements lose the futures of these resources, which is recorded.
-/

namespace CodeEditor.UndoRedo

open Function List Nat

namespace UndoRedoService

variable {service : UndoRedoService} {observed : Nat → Prop}

/-- The elements of several resources are settled. -/
def Settled (service : UndoRedoService) : Prop :=
  ∀ element < service.stackElementCounter, (service.element element).isWorkspace →
    (service.placement element).Settled

variable {element : Nat}

theorem Evolves.settled {after : UndoRedoService} (evolves : service.Evolves observed after)
    (settled : service.Settled) (known : element < service.stackElementCounter)
    (isObserved : observed element) (workspace : (after.element element).isWorkspace) :
    (after.placement element).Settled := by
  rw [evolves.later.kind element known] at workspace
  exact (settled element known workspace).thins (evolves.thins element known isObserved workspace)

/-! ## A new element -/

theorem Evolves.addElement (wellFormed : service.WellFormed) {element : StackElement}
    (distinct : element.strResources.Nodup)
    (single : observed service.stackElementCounter → ¬element.isWorkspace) :
    service.Evolves observed (service.addElement element) := by
  have old : ∀ id < service.stackElementCounter,
      (service.addElement element).element id = service.element id := by
    intro id known
    exact update_of_ne (Nat.ne_of_lt known) _ _
  refine ⟨⟨wellFormed.counted, wellFormed.mapped, ?_, wellFormed.missing, ?_⟩,
    { Later.refl service with
      elementCounter := Nat.le_succ _
      kind := fun id known => by rw [old id known]
      resources := fun id known => by rw [old id known] }, ?_, ?_⟩
  · intro id direction other member
    exact Nat.lt_succ_of_lt (wellFormed.known id direction other member)
  · intro id
    by_cases same : id = service.stackElementCounter
    · rw [same]
      show (update service.element _ element service.stackElementCounter).strResources.Nodup
      rwa [update_self]
    · show (update service.element _ element id).strResources.Nodup
      rw [update_of_ne same]
      exact wellFormed.distinct id
  · intro id notOld new isObserved workspace
    have same : id = service.stackElementCounter :=
      Nat.le_antisymm (Nat.le_of_lt_succ new) notOld
    subst same
    change (update service.element _ element service.stackElementCounter).isWorkspace at workspace
    rw [update_self] at workspace
    exact absurd workspace (single isObserved)
  · intro id known _ _
    exact thins_of_side_eq (old id known) fun _ _ => rfl

/-! ## The edit stack of a resource -/

theorem getOrCreate_of_get {id : Nat} (found : service.get strResource = some id) :
    service.getOrCreate strResource = (id, service) := by
  rw [getOrCreate, found]

/-- The resource is mapped then, and the others as before. -/
theorem get_getOrCreate (service : UndoRedoService) (strResource other : String) :
    (service.getOrCreate strResource).2.get other =
      if other = strResource then some (service.getOrCreate strResource).1
      else service.get other := by
  cases found : service.get strResource with
  | some id =>
    rw [getOrCreate_of_get found]
    split
    next same => rw [same]; exact found
    next => rfl
  | none =>
    rw [getOrCreate, found]
    show (List.find? _ (service.editStacks ++ [_])).map Prod.snd = _
    by_cases same : other = strResource
    · subst same
      have missing : (service.editStacks.find? fun entry => entry.1 == other) = none :=
        Option.map_eq_none_iff.mp found
      simp [missing]
    · rw [if_neg same]
      have different : ¬strResource = other := fun equal => same equal.symm
      simp [get, different]

/-- The new edit stack is empty. -/
theorem side_getOrCreate (wellFormed : service.WellFormed) (strResource other : String)
    (direction : Direction) :
    (service.getOrCreate strResource).2.side other direction = service.side other direction := by
  have gets := get_getOrCreate service strResource other
  cases found : service.get strResource with
  | some id => rw [getOrCreate_of_get found]
  | none =>
    rw [getOrCreate, found] at gets ⊢
    by_cases same : other = strResource
    · rw [if_pos same] at gets
      rw [side_of_get gets, same, side_of_get_none found]
      dsimp only
      rw [update_self, ResourceEditStack.elements_new]
    · rw [if_neg same] at gets
      cases mapped : service.get other with
      | none => rw [side_of_get_none (gets.trans mapped), side_of_get_none mapped]
      | some id =>
        rw [side_of_get (gets.trans mapped), side_of_get mapped]
        dsimp only
        rw [update_of_ne (Nat.ne_of_lt (wellFormed.mapped other id mapped).2.1)]

theorem Evolves.getOrCreate (wellFormed : service.WellFormed) (strResource : String) :
    service.Evolves observed (service.getOrCreate strResource).2 := by
  have gets := get_getOrCreate service strResource
  have sides := side_getOrCreate wellFormed strResource
  cases found : service.get strResource with
  | some id =>
    rw [getOrCreate_of_get found]
    exact .refl wellFormed
  | none =>
    rw [UndoRedoService.getOrCreate, found] at gets sides ⊢
    have stackAt : ∀ id, update service.stack service.stackCounter
        (ResourceEditStack.new strResource) id =
        if id = service.stackCounter then .new strResource else service.stack id :=
      fun id => update_apply ..
    have mappedOld : ∀ other id, service.get other = some id → id ≠ service.stackCounter :=
      fun other id mapped => Nat.ne_of_lt (wellFormed.mapped other id mapped).2.1
    refine ⟨⟨Nat.succ_pos _, ?_, ?_, ?_, wellFormed.distinct⟩,
      ⟨Nat.le_refl _, Nat.le_succ _, fun _ _ => rfl, fun _ _ => rfl, ?_, ?_, ?_⟩,
      fun _ old new => absurd new (Nat.not_lt_of_le old), ?_⟩
    · intro other id mapped
      rw [gets] at mapped
      dsimp only
      rw [stackAt]
      split at mapped
      next same =>
          cases mapped
          rw [if_pos rfl]
          exact ⟨Nat.ne_of_gt wellFormed.counted, Nat.lt_succ_self _, same.symm⟩
      next =>
          have old := wellFormed.mapped other id mapped
          rw [if_neg (mappedOld other id mapped)]
          exact ⟨old.1, Nat.lt_succ_of_lt old.2.1, old.2.2⟩
    · intro id direction element member
      dsimp only at member
      rw [stackAt] at member
      split at member
      · rw [ResourceEditStack.elements_new] at member
        exact absurd member (by simp)
      · exact wellFormed.known id direction element member
    · intro direction
      dsimp only
      rw [stackAt, if_neg (Nat.ne_of_lt wellFormed.counted)]
      exact wellFormed.missing direction
    · intro id known
      dsimp only
      rw [stackAt, if_neg (Nat.ne_of_lt known)]
    · intro id known
      dsimp only
      rw [stackAt, if_neg (Nat.ne_of_lt known)]
    · intro other id mapped _
      rw [gets, if_neg]
      · exact mapped
      · intro same
        rw [same, found] at mapped
        cases mapped
    · intro element _ _ _
      exact thins_of_side_eq rfl sides

/-! ## Pushing on the edit stacks -/

theorem Evolves.pushOnStack (wellFormed : service.WellFormed) {id element : Nat}
    (isStack : id ≠ 0) (known : element < service.stackElementCounter)
    (unobserved : ¬observed element) :
    service.Evolves observed (service.pushOnStack id element) := by
  have recorded : service.Evolves observed (service.removeResource (service.stack id).strResource
      (service.stack id).future) := .removeResource wellFormed _ _
  apply recorded.trans wellFormed
  apply Evolves.modifyStack recorded.wellFormed isStack
  · rfl
  · exact le_succ _
  · intro direction other member
    rw [ResourceEditStack.elements_pushElement] at member
    cases direction with
    | redo => exact absurd member (by simp)
    | undo =>
      rcases mem_append.mp member with old | new
      · exact wellFormed.known id .undo other old
      · rw [mem_singleton.mp new]
        exact known
  · intro other isObserved _ direction
    have different : other ≠ element := fun same => unobserved (same ▸ isObserved)
    cases direction with
    | redo => exact zero_le _
    | undo =>
      show ((service.stack id).past ++ [element]).count other ≤ (service.stack id).past.count other
      simp [count_append, different.symm]
  · intro other _ workspace strResource found stays direction member
    left
    cases direction with
    | undo =>
      exact mem_append_left _ member
    | redo =>
      exfalso
      apply stays
      have name := (wellFormed.mapped strResource id found).2.2
      rw [← name]
      apply mem_removedResources_removeResource member
      have kind := recorded.later.kind other (wellFormed.known id .redo other member)
      rwa [kind] at workspace

/-- The lists of the resource that is pushed for. -/
theorem side_pushOnStack (service : UndoRedoService) (id element : Nat) (strResource : String)
    (direction : Direction) :
    (service.pushOnStack id element).side strResource direction =
      if service.get strResource = some id then
        match direction with
        | .undo => service.side strResource .undo ++ [element]
        | .redo => []
      else service.side strResource direction := by
  unfold pushOnStack
  rw [side_modifyStack, ResourceEditStack.elements_pushElement]
  show (if service.get strResource = some id then _ else service.side strResource direction) = _
  split
  next found => rw [side_of_get found]; rfl
  next => rfl

/-- By induction on the resources. -/
theorem Evolves.pushLoop (unobserved : ¬observed element) (strResources : List String)
    (wellFormed : service.WellFormed) (known : element < service.stackElementCounter) :
    service.Evolves observed (pushLoop element strResources service) := by
  induction strResources generalizing service with
  | nil => exact .refl wellFormed
  | cons strResource strResources ih =>
    unfold UndoRedo.pushLoop
    have created : service.Evolves observed (service.getOrCreate strResource).2 :=
      .getOrCreate wellFormed strResource
    have found : (service.getOrCreate strResource).2.get strResource =
        some (service.getOrCreate strResource).1 := by
      rw [get_getOrCreate, if_pos rfl]
    have isStack := (created.wellFormed.mapped strResource _ found).1
    have pushed := Evolves.pushOnStack created.wellFormed isStack
      (lt_of_lt_of_le known created.later.elementCounter) unobserved
    apply created.trans wellFormed
    apply pushed.trans created.wellFormed
    exact ih pushed.wellFormed
      (lt_of_lt_of_le known (created.later.trans wellFormed pushed.later).elementCounter)

/-- The pushed element is in the past of the given resources, once for each time that a resource
is given, and in no other place. -/
theorem count_side_pushLoop (strResources : List String) (wellFormed : service.WellFormed)
    (known : element < service.stackElementCounter)
    (fresh : ∀ strResource, element ∉ service.side strResource .redo) (strResource : String)
    (direction : Direction) :
    ((pushLoop element strResources service).side strResource direction).count element =
      match direction with
      | .undo => (service.side strResource .undo).count element + strResources.count strResource
      | .redo => 0 := by
  induction strResources generalizing service with
  | nil =>
    cases direction with
    | undo => rfl
    | redo => exact count_eq_zero.mpr (fresh strResource)
  | cons first strResources ih =>
    unfold pushLoop
    have created : service.Evolves (fun _ => False) (service.getOrCreate first).2 :=
      .getOrCreate wellFormed first
    have found : (service.getOrCreate first).2.get first = some (service.getOrCreate first).1 := by
      rw [get_getOrCreate, if_pos rfl]
    have isStack := (created.wellFormed.mapped first _ found).1
    have pushed : (service.getOrCreate first).2.Evolves (fun _ => False)
        ((service.getOrCreate first).2.pushOnStack (service.getOrCreate first).1 element) :=
      .pushOnStack created.wellFormed isStack
        (lt_of_lt_of_le known created.later.elementCounter) not_false
    have isFirst : ∀ other, (service.getOrCreate first).2.get other =
        some (service.getOrCreate first).1 ↔ other = first := by
      intro other
      constructor
      · exact fun mapped => created.wellFormed.get_injective mapped found
      · exact fun same => same ▸ found
    have sides := side_pushOnStack (service.getOrCreate first).2
      (service.getOrCreate first).1 element
    simp only [isFirst, side_getOrCreate wellFormed] at sides
    rw [ih pushed.wellFormed
      (lt_of_lt_of_le known (created.later.trans wellFormed pushed.later).elementCounter)]
    · cases direction with
      | redo => rfl
      | undo =>
        rw [sides, count_cons]
        by_cases same : strResource = first
        · simp [same, count_append]
          omega
        · have different : ¬first = strResource := fun equal => same equal.symm
          simp [same, different]
    · intro other
      rw [sides]
      split
      · exact not_mem_nil
      · exact fresh other

/-! ## Pushing -/

theorem nodup_strResources_stackElement (pushed : PushedElement) :
    pushed.stackElement.strResources.Nodup :=
  nodup_reverse.mpr (nodup_dedup _)

/-- A push is an operation for all elements but the new one. -/
theorem Evolves.pushElement (wellFormed : service.WellFormed) (pushed : PushedElement) :
    service.Evolves (· ≠ service.stackElementCounter) (service.pushElement pushed) := by
  have added : service.Evolves (· ≠ service.stackElementCounter)
      (service.addElement pushed.stackElement) :=
    .addElement wellFormed (nodup_strResources_stackElement pushed)
      fun different => absurd rfl different
  apply added.trans wellFormed
  exact Evolves.pushLoop (fun different => different rfl) _ added.wellFormed (lt_succ_self _)

/-- The pushed element is settled: it is in the past of each of its resources. -/
theorem settled_pushed (wellFormed : service.WellFormed) (pushed : PushedElement) :
    ((service.pushElement pushed).placement service.stackElementCounter).Settled := by
  have added : service.Evolves (fun _ => False) (service.addElement pushed.stackElement) :=
    .addElement wellFormed (nodup_strResources_stackElement pushed) fun isFalse => isFalse.elim
  have known : service.stackElementCounter <
      (service.addElement pushed.stackElement).stackElementCounter := Nat.lt_succ_self _
  have unknown : ∀ strResource direction,
      service.stackElementCounter ∉ service.side strResource direction := by
    intro strResource direction member
    exact absurd (wellFormed.known_side member) (Nat.lt_irrefl _)
  have counts := count_side_pushLoop pushed.stackElement.strResources added.wellFormed known
    fun strResource => unknown strResource .redo
  have loops : (service.addElement pushed.stackElement).Evolves (fun _ => False)
      (service.pushElement pushed) := .pushLoop not_false _ added.wellFormed known
  have resources : ((service.pushElement pushed).element
      service.stackElementCounter).strResources = pushed.stackElement.strResources := by
    refine (loops.later.resources _ known).trans ?_
    show (update service.element _ pushed.stackElement _).strResources = _
    rw [update_self]
  have none : ∀ strResource, (service.side strResource .undo).count
      service.stackElementCounter = 0 :=
    fun strResource => count_eq_zero.mpr (unknown strResource .undo)
  apply Placement.Settled.of_copies .undo
  · intro strResource member
    change strResource ∈ ((service.pushElement pushed).element _).strResources at member
    rw [resources] at member
    refine (counts strResource .undo).trans ?_
    show (service.side strResource .undo).count _ + _ = 1
    rw [none, count_eq_one_of_mem (nodup_strResources_stackElement pushed) member]
  · intro strResource direction other
    refine (counts strResource direction).trans ?_
    cases direction with
    | redo => rfl
    | undo =>
      show (service.side strResource .undo).count _ + _ = 0
      rw [none, Nat.zero_add, count_eq_zero]
      intro member
      rcases other with absent | different
      · apply absent
        show strResource ∈ ((service.pushElement pushed).element _).strResources
        rwa [resources]
      · exact different rfl

end UndoRedoService

end CodeEditor.UndoRedo
