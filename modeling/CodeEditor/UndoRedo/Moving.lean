import CodeEditor.UndoRedo.Splitting

/-!
# Moving an element

A move takes an element off one side of an edit stack and puts it on the other one. An element of
several resources is moved in all of their edit stacks at once.
-/

namespace CodeEditor.UndoRedo

open Function List

/-- The direction in which a move puts the element. -/
def Direction.opposite : Direction → Direction
  | .undo => .redo
  | .redo => .undo

theorem Direction.opposite_of_ne {direction other : Direction} (different : other ≠ direction) :
    other = direction.opposite := by
  cases direction <;> cases other <;> first | rfl | exact absurd rfl different

theorem Direction.opposite_ne (direction : Direction) : direction.opposite ≠ direction := by
  cases direction <;> decide

namespace UndoRedoService

variable {service : UndoRedoService} {observed : Nat → Prop}

/-! ## Locks -/

theorem stack_setLocked (editStacks : List Nat) (locked : Bool) (id : Nat) :
    (service.setLocked editStacks locked).stack id =
      if id ∈ editStacks then { service.stack id with locked := locked }
      else service.stack id := rfl

theorem elements_setLocked (editStacks : List Nat) (locked : Bool) (id : Nat)
    (direction : Direction) :
    ((service.setLocked editStacks locked).stack id).elements direction =
      (service.stack id).elements direction := by
  rw [stack_setLocked]
  split
  · cases direction <;> rfl
  · rfl

theorem side_setLocked (editStacks : List Nat) (locked : Bool) (strResource : String)
    (direction : Direction) :
    (service.setLocked editStacks locked).side strResource direction =
      service.side strResource direction := by
  have same : (service.setLocked editStacks locked).get strResource = service.get strResource := rfl
  cases found : service.get strResource with
  | none => rw [side_of_get_none found, side_of_get_none (same.trans found)]
  | some id => rw [side_of_get found, side_of_get (same.trans found), elements_setLocked]

theorem Evolves.setLocked (wellFormed : service.WellFormed) (editStacks : List Nat)
    (locked : Bool) : service.Evolves observed (service.setLocked editStacks locked) := by
  have names : ∀ id, ((service.setLocked editStacks locked).stack id).strResource =
      (service.stack id).strResource := by
    intro id
    rw [stack_setLocked]
    split <;> rfl
  refine ⟨⟨wellFormed.counted, ?_, ?_, ?_, wellFormed.distinct⟩, { Later.refl service with
      named := fun id _ => names id
      versions := fun id _ => ?_
      mapped := fun _ _ found _ => found },
    fun _ old new => absurd new (Nat.not_lt_of_le old), ?_⟩
  · intro strResource id found
    rw [names]
    exact wellFormed.mapped strResource id found
  · intro id direction element
    rw [elements_setLocked]
    exact wellFormed.known id direction element
  · intro direction
    rw [elements_setLocked]
    exact wellFormed.missing direction
  · rw [stack_setLocked]
    split <;> exact Nat.le_refl _
  · intro element _ _ _
    exact thins_of_side_eq (by rfl) (side_setLocked editStacks locked)

/-! ## One edit stack -/

variable {element : Nat}

/-- What is on top may be another element, if it may be taken out. -/
theorem Evolves.move (wellFormed : service.WellFormed) {id : Nat} (isStack : id ≠ 0)
    (known : element < service.stackElementCounter)
    (unobserved : observed element → ¬(service.element element).isWorkspace)
    (may : ∀ popped, observed popped →
      (service.stack id).getClosestElement direction = some popped →
      popped ≠ element → ∀ strResource, service.get strResource = some id →
      service.MayTake strResource popped) :
    service.Evolves observed (service.modifyStack id (.move direction element)) := by
  have different : ∀ other, observed other → (service.element other).isWorkspace →
      other ≠ element := by
    intro other isObserved workspace same
    exact unobserved (same ▸ isObserved) (same ▸ workspace)
  apply Evolves.modifyStack wellFormed isStack
  · exact ResourceEditStack.strResource_move _ _ _
  · rw [ResourceEditStack.versionId_move]
    exact Nat.le_succ _
  · intro side other member
    rw [ResourceEditStack.elements_move] at member
    split at member
    · exact wellFormed.known id side other (dropLast_subset _ member)
    · rcases mem_append.mp member with old | new
      · exact wellFormed.known id side other old
      · rw [mem_singleton.mp new]
        exact known
  · intro other isObserved workspace side
    rw [ResourceEditStack.elements_move]
    split
    · exact (dropLast_sublist _).count_le other
    · simp [count_append, (different other isObserved workspace).symm]
  · intro other isObserved workspace strResource found stays side member
    rw [ResourceEditStack.elements_move]
    split
    next same =>
        subst same
        cases last : ((service.stack id).elements side).getLast? with
        | none =>
          rw [getLast?_eq_none_iff.mp last] at member
          exact absurd member not_mem_nil
        | some popped =>
          rw [← dropLast_append_getLast? _ last, mem_append, mem_singleton] at member
          rcases member with below | onTop
          · exact .inl below
          · right
            subst onTop
            have closest := (service.stack id).getClosestElement_eq side
            rcases may other isObserved (closest.trans last) (different other isObserved workspace)
              strResource found workspace with recorded | nowhere
            · exact absurd recorded stays
            · exact nowhere
    next => exact .inl (mem_append_left _ member)

/-! ## All edit stacks of an element -/

@[simp] theorem get_moveAll (direction : Direction) (element : Nat) (editStacks : List Nat)
    (strResource : String) :
    (service.moveAll direction element editStacks).get strResource = service.get strResource := by
  unfold moveAll
  induction editStacks generalizing service with
  | nil => rfl
  | cons id editStacks ih => exact ih

@[simp] theorem element_moveAll (direction : Direction) (element : Nat)
    (editStacks : List Nat) :
    (service.moveAll direction element editStacks).element = service.element := by
  unfold moveAll
  induction editStacks generalizing service with
  | nil => rfl
  | cons id editStacks ih => exact ih

variable {editStacks : List Nat}

theorem stack_moveAll (direction : Direction) (element : Nat) (distinct : editStacks.Nodup)
    (id : Nat) : (service.moveAll direction element editStacks).stack id =
      if id ∈ editStacks then (service.stack id).move direction element
      else service.stack id := by
  unfold moveAll
  induction editStacks generalizing service with
  | nil => rfl
  | cons first editStacks ih =>
    have distinctRest := nodup_cons.mp distinct
    rw [foldl_cons, ih distinctRest.2, stack_modifyStack]
    by_cases same : id = first
    · subst same
      simp [distinctRest.1]
    · simp [same]

/-- The element is the closest one of all the edit stacks, and each is moved once. -/
theorem Evolves.moveAll (wellFormed : service.WellFormed) (distinct : editStacks.Nodup)
    (known : element < service.stackElementCounter) (unobserved : ¬observed element)
    (closest : ∀ id ∈ editStacks, id ≠ 0 ∧
      (service.stack id).getClosestElement direction = some element) :
    service.Evolves observed (service.moveAll direction element editStacks) := by
  unfold UndoRedoService.moveAll
  induction editStacks generalizing service with
  | nil => exact .refl wellFormed
  | cons first editStacks ih =>
    have distinctRest := nodup_cons.mp distinct
    have isFirst := closest first mem_cons_self
    have moved : service.Evolves observed
        (service.modifyStack first (.move direction element)) := by
      apply Evolves.move wellFormed isFirst.1 known fun isObserved =>
        absurd isObserved unobserved
      intro popped _ isPopped different
      rw [isFirst.2] at isPopped
      exact absurd (Option.some.inj isPopped).symm different
    refine moved.trans wellFormed (ih moved.wellFormed distinctRest.2 known ?_)
    intro id member
    have different : id ≠ first := fun same => distinctRest.1 (same ▸ member)
    rw [stack_modifyStack, if_neg different]
    exact closest id (mem_cons_of_mem first member)

/-- The edit stacks of an element of several resources. -/
def IsAffected (service : UndoRedoService) (element : Nat) (editStacks : List Nat) : Prop :=
  List.Forall₂ (fun strResource id => service.get strResource = some id)
    (service.element element).strResources editStacks

theorem IsAffected.nodup (wellFormed : service.WellFormed)
    (affected : service.IsAffected element editStacks) : editStacks.Nodup := by
  have unique : Relator.BiUnique fun strResource id => service.get strResource = some id := by
    constructor
    · intro first id second one other
      exact wellFormed.get_injective one other
    · intro strResource one other isOne isOther
      exact Option.some.inj (isOne.symm.trans isOther)
  exact (rel_nodup unique affected).mp (wellFormed.distinct element)

theorem IsAffected.exists_mem (affected : service.IsAffected element editStacks)
    {strResource : String} (member : strResource ∈ (service.element element).strResources) :
    ∃ id ∈ editStacks, service.get strResource = some id := by
  unfold IsAffected at affected
  generalize (service.element element).strResources = strResources at affected member
  induction affected with
  | nil => exact absurd member not_mem_nil
  | cons found _ ih =>
    rcases mem_cons.mp member with same | later
    · exact ⟨_, mem_cons_self, same ▸ found⟩
    · obtain ⟨id, isId, mapped⟩ := ih later
      exact ⟨id, mem_cons_of_mem _ isId, mapped⟩

theorem IsAffected.exists_resource (affected : service.IsAffected element editStacks) {id : Nat}
    (member : id ∈ editStacks) : ∃ strResource ∈ (service.element element).strResources,
      service.get strResource = some id := by
  unfold IsAffected at affected
  generalize (service.element element).strResources = strResources at affected ⊢
  induction affected with
  | nil => exact absurd member not_mem_nil
  | cons found _ ih =>
    rcases mem_cons.mp member with same | later
    · exact ⟨_, mem_cons_self, same ▸ found⟩
    · obtain ⟨strResource, isResource, mapped⟩ := ih later
      exact ⟨strResource, mem_cons_of_mem _ isResource, mapped⟩

/-- A settled element that is moved in all of its edit stacks is settled on the other side. -/
theorem settled_moveAll (wellFormed : service.WellFormed) {direction : Direction}
    (affected : service.IsAffected element editStacks) (closest : ∀ id ∈ editStacks,
      (service.stack id).getClosestElement direction = some element)
    (settled : (service.placement element).Settled) :
    ((service.moveAll direction element editStacks).placement element).Settled := by
  have distinct := affected.nodup wellFormed
  have sides : ∀ strResource side,
      (service.moveAll direction element editStacks).side strResource side =
        (service.get strResource).elim [] fun id =>
          (if id ∈ editStacks then (service.stack id).move direction element
            else service.stack id).elements side := by
    intro strResource side
    unfold UndoRedoService.side
    rw [get_moveAll]
    cases service.get strResource with
    | none => rfl
    | some id => exact congrArg (·.elements side) (stack_moveAll direction element distinct id)
  apply Placement.Settled.of_copies direction.opposite
  · intro strResource member
    change strResource ∈
      ((service.moveAll direction element editStacks).element element).strResources at member
    rw [element_moveAll] at member
    obtain ⟨id, isId, found⟩ := affected.exists_mem member
    have held : element ∈ service.side strResource direction := by
      rw [side_of_get found]
      exact mem_of_getLast? ((ResourceEditStack.getClosestElement_eq _ _).symm.trans
        (closest id isId))
    have other : (service.side strResource direction.opposite).count element = 0 := by
      apply count_eq_zero.mpr
      intro otherHeld
      exact direction.opposite_ne (settled.oneSide _ _ _ _ (copies_pos_iff.mpr otherHeld)
        (copies_pos_iff.mpr held))
    show ((service.moveAll direction element editStacks).side strResource _).count element = 1
    rw [sides, found]
    dsimp only [Option.elim]
    rw [if_pos isId, ResourceEditStack.elements_move, if_neg direction.opposite_ne,
      count_append, ← side_of_get found, other, count_singleton_self]
  · intro strResource side notBoth
    show ((service.moveAll direction element editStacks).side strResource side).count element = 0
    rw [sides]
    cases found : service.get strResource with
    | none => rfl
    | some id =>
      dsimp only [Option.elim]
      by_cases isId : id ∈ editStacks
      · obtain ⟨resource, isResource, mapped⟩ := affected.exists_resource isId
        have same := wellFormed.get_injective mapped found
        subst same
        have onSide : side = direction := by
          by_contra different
          rcases notBoth with absent | opposite
          · apply absent
            show resource ∈ ((service.moveAll direction element editStacks).element
              element).strResources
            rwa [element_moveAll]
          · exact opposite (Direction.opposite_of_ne different)
        have last : ((service.stack id).elements side).getLast? = some element := by
          rw [onSide, ← ResourceEditStack.getClosestElement_eq]
          exact closest id isId
        have once := settled.once resource side
        change (service.side resource side).count element ≤ 1 at once
        rw [side_of_get found, ← dropLast_append_getLast? _ last, count_append,
          count_singleton_self] at once
        rw [if_pos isId, ResourceEditStack.elements_move, if_pos onSide]
        omega
      · rw [if_neg isId, ← side_of_get found]
        apply count_eq_zero.mpr
        intro held
        have home := settled.inside strResource side (copies_pos_iff.mpr held)
        obtain ⟨resourceId, isResourceId, mapped⟩ := affected.exists_mem home
        rw [found] at mapped
        exact isId (Option.some.inj mapped ▸ isResourceId)

end UndoRedoService

end CodeEditor.UndoRedo
