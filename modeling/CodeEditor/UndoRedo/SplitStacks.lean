import CodeEditor.UndoRedo.Locks

/-!
# What a split and a move do to each edit stack

A split leaves the lists of an edit stack, or splits it once. A move takes the closest element of
each of its edit stacks to the other side.
-/

namespace CodeEditor.UndoRedo

open Function List

namespace ResourceEditStack

variable {individual : Option Nat}

theorem nodup_replaceFirst {elements : List Nat} (nodup : elements.Nodup)
    (fresh : ∀ id, individual = some id → id ∉ elements) :
    (replaceFirst toRemove individual elements).Nodup := by
  rw [nodup_iff_count_le_one]
  intro element
  by_cases new : individual = some element
  · -- the new element takes the place of one occurrence at most
    have absent := fresh element new
    have bound : ∀ others : List Nat, element ∉ others →
        (replaceFirst toRemove individual others).count element ≤ 1 := by
      intro others notIn
      induction others with
      | nil => exact Nat.zero_le 1
      | cons first others ih =>
        have different : first ≠ element := fun same => notIn (same ▸ mem_cons_self)
        have notLater : element ∉ others := fun later => notIn (mem_cons_of_mem _ later)
        unfold replaceFirst
        split
        · rw [count_append, count_eq_zero.mpr notLater, new]
          simp
        · rw [count_cons_of_ne different]
          exact ih notLater
    exact bound elements absent
  · by_cases same : element = toRemove
    · rw [same, count_replaceFirst (same ▸ new)]
      exact (Nat.sub_le _ 1).trans (nodup_iff_count_le_one.mp nodup _)
    · rw [count_replaceFirst_of_ne same new]
      exact nodup_iff_count_le_one.mp nodup element

theorem nodup_replaceLast {elements : List Nat} (nodup : elements.Nodup)
    (fresh : ∀ id, individual = some id → id ∉ elements) :
    (replaceLast toRemove individual elements).Nodup := by
  unfold replaceLast
  rw [nodup_reverse]
  apply nodup_replaceFirst (nodup_reverse.mpr nodup)
  intro id isIndividual member
  exact fresh id isIndividual (mem_reverse.mp member)

variable {stack : ResourceEditStack}

/-- A split keeps the elements of an edit stack distinct. -/
theorem nodup_splitWorkspaceElement (direction : Direction)
    (nodup : (stack.past ++ stack.future).Nodup)
    (fresh : ∀ id, individual = some id → ∀ side, id ∉ stack.elements side) :
    ((stack.splitWorkspaceElement direction toRemove individual).elements .undo ++
      (stack.splitWorkspaceElement direction toRemove individual).elements .redo).Nodup := by
  obtain ⟨pastNodup, futureNodup, apart⟩ := nodup_append.mp nodup
  cases direction with
  | undo =>
    refine nodup_append.mpr ⟨nodup_replaceLast pastNodup fun id isIndividual =>
      fresh id isIndividual .undo, futureNodup, fun first isFirst second isSecond => ?_⟩
    rcases mem_replaceLast isFirst with old | new
    · exact apart first old second isSecond
    · exact fun same => fresh first new .redo (same ▸ isSecond)
  | redo =>
    refine nodup_append.mpr ⟨pastNodup, nodup_replaceLast futureNodup fun id isIndividual =>
      fresh id isIndividual .redo, fun first isFirst second isSecond => ?_⟩
    rcases mem_replaceLast isSecond with old | new
    · exact apart first isFirst second old
    · exact fun same => fresh second new .undo (same ▸ isFirst)

@[simp] theorem locked_splitWorkspaceElement (direction : Direction) (toRemove : Nat)
    (individual : Option Nat) (stack : ResourceEditStack) :
    (stack.splitWorkspaceElement direction toRemove individual).locked = stack.locked := by
  cases direction <;> rfl

@[simp] theorem locked_move (direction : Direction) (element : Nat)
    (stack : ResourceEditStack) : (stack.move direction element).locked = stack.locked := by
  cases direction <;> rfl

/-- Moving the closest element keeps the order of all elements. -/
theorem createSnapshot_move {element : Nat}
    (closest : stack.getClosestElement direction = some element) :
    (stack.move direction element).createSnapshot = stack.createSnapshot := by
  rw [getClosestElement_eq] at closest
  have last := dropLast_append_getLast? element closest
  cases direction with
  | undo =>
    show stack.past.dropLast ++ (stack.future ++ [element]).reverse =
      stack.past ++ stack.future.reverse
    change stack.past.dropLast ++ [element] = stack.past at last
    rw [reverse_append, reverse_singleton, singleton_append, append_cons, last]
  | redo =>
    show (stack.past ++ [element]) ++ stack.future.dropLast.reverse =
      stack.past ++ stack.future.reverse
    change stack.future.dropLast ++ [element] = stack.future at last
    have reversed := congrArg List.reverse last
    rw [reverse_append, reverse_singleton, singleton_append] at reversed
    rw [append_assoc, singleton_append, reversed]

end ResourceEditStack

namespace UndoRedoService

variable {service after : UndoRedoService} {direction : Direction} {toRemove : Nat}
  {ignoreResources : List String} {individualMap : List (String × Nat)}

/-- An edit stack keeps its lists, or is split once. -/
def SplitOnce (service : UndoRedoService) (direction : Direction) (toRemove : Nat)
    (individualMap : List (String × Nat)) (current : UndoRedoService) (id : Nat) : Prop :=
  (∀ side, (current.stack id).elements side = (service.stack id).elements side) ∨
    ∃ strResource, ∀ side, (current.stack id).elements side =
      ((service.stack id).splitWorkspaceElement direction toRemove
        (individual individualMap strResource)).elements side

/-- The edit stacks of the rest are untouched. -/
structure SplitAtMostOnce (service : UndoRedoService) (direction : Direction) (toRemove : Nat)
    (individualMap : List (String × Nat)) (rest : List String) (current : UndoRedoService) :
    Prop where
  keepsLocks : service.KeepsLocks current
  distinct : rest.Nodup
  untouched : ∀ strResource ∈ rest, ∀ id, current.get strResource = some id →
    ∀ side, (current.stack id).elements side = (service.stack id).elements side
  splitOnce : ∀ id, service.SplitOnce direction toRemove individualMap current id

theorem SplitAtMostOnce.split (wellFormed : service.WellFormed) {rest : List String}
    {first : String} {id : Nat}
    (soFar : service.SplitAtMostOnce direction toRemove individualMap (first :: rest) current)
    (found : current.get first = some id)
    (fresh : ∀ strResource other, individual individualMap strResource = some other →
      other < service.stackElementCounter) :
    service.SplitAtMostOnce direction toRemove individualMap rest
      (current.modifyStack id (.splitWorkspaceElement direction toRemove
        (individual individualMap (current.stack id).strResource))) := by
  have evolves := soFar.keepsLocks.evolves
  have distinctRest := nodup_cons.mp soFar.distinct
  have split : current.KeepsLocks (current.modifyStack id (.splitWorkspaceElement direction toRemove
        (individual individualMap (current.stack id).strResource))) := by
    apply KeepsLocks.modifyStack
    · apply Evolves.splitStack evolves.wellFormed found not_false
      intro other isIndividual
      exact ⟨lt_of_lt_of_le (fresh _ other isIndividual) evolves.later.elementCounter, not_false⟩
    · exact ResourceEditStack.locked_splitWorkspaceElement _ _ _ _
  refine ⟨soFar.keepsLocks.trans wellFormed split, distinctRest.2, ?_, ?_⟩
  · intro strResource member other mapped side
    have different : other ≠ id := by
      intro same
      have isFirst := evolves.wellFormed.get_injective (same ▸ mapped) found
      exact distinctRest.1 (isFirst ▸ member)
    rw [stack_modifyStack, if_neg different]
    exact soFar.untouched strResource (mem_cons_of_mem first member) other mapped side
  · intro other
    by_cases same : other = id
    · subst same
      right
      refine ⟨(current.stack other).strResource, fun side => ?_⟩
      have unchanged := soFar.untouched first mem_cons_self other found
      rw [stack_modifyStack, if_pos rfl, ResourceEditStack.elements_splitWorkspaceElement,
        ResourceEditStack.elements_splitWorkspaceElement, unchanged]
    · have splitOnce := soFar.splitOnce other
      unfold SplitOnce at splitOnce ⊢
      rw [stack_modifyStack, if_neg same]
      exact splitOnce

theorem splitAtMostOnce_splitLoop {strResources : List String} (wellFormed : service.WellFormed)
    (distinct : strResources.Nodup)
    (fresh : ∀ strResource other, individual individualMap strResource = some other →
      other < service.stackElementCounter) :
    ∃ rest, service.SplitAtMostOnce direction toRemove individualMap rest
      (splitLoop direction toRemove ignoreResources individualMap strResources service).1 := by
  have initial : service.SplitAtMostOnce direction toRemove individualMap strResources service :=
    ⟨.refl wellFormed, distinct, fun _ _ _ _ _ => rfl, fun _ => .inl fun _ => rfl⟩
  obtain ⟨rest, soFar, -⟩ := splitLoop_induction
    (service.SplitAtMostOnce direction toRemove individualMap) initial
    (fun first _ _ soFar _ => ⟨soFar.keepsLocks, (nodup_cons.mp soFar.distinct).2,
      fun strResource member => soFar.untouched strResource (mem_cons_of_mem first member),
      soFar.splitOnce⟩)
    (fun _ _ _ _ soFar _ found => soFar.split wellFormed found fresh)
  exact ⟨rest, soFar⟩

theorem stack_addIndividuals (individuals : List (String × Bool)) :
    (addIndividuals individuals service).1.stack = service.stack := by
  induction individuals generalizing service with
  | nil => rfl
  | cons individual individuals ih => exact ih

theorem stackCounter_addIndividuals (individuals : List (String × Bool)) :
    (addIndividuals individuals service).1.stackCounter = service.stackCounter := by
  induction individuals generalizing service with
  | nil => rfl
  | cons individual individuals ih => exact ih

/-- A split keeps the locks, and splits each edit stack at most once. -/
theorem splitOnce_splitWorkspaceElement (wellFormed : service.WellFormed)
    (direction : Direction) (toRemove : Nat) (ignoreResources : List String)
    (individuals : List (String × Bool)) :
    service.KeepsLocks (service.splitWorkspaceElement direction toRemove ignoreResources
        individuals).1 ∧
      ∀ id, service.SplitOnce direction toRemove (addIndividuals individuals service).2
        (service.splitWorkspaceElement direction toRemove ignoreResources individuals).1 id := by
  have added : service.Evolves (fun _ => False) (addIndividuals individuals service).1 :=
    .addIndividuals individuals wellFormed
  have same : (addIndividuals individuals service).1.stack = service.stack :=
    stack_addIndividuals individuals
  obtain ⟨rest, soFar⟩ : ∃ rest, (addIndividuals individuals service).1.SplitAtMostOnce direction
      toRemove (addIndividuals individuals service).2 rest
      (service.splitWorkspaceElement direction toRemove ignoreResources individuals).1 :=
    splitAtMostOnce_splitLoop added.wellFormed (wellFormed.distinct toRemove)
      fun _ _ isIndividual => (new_of_individual isIndividual).1
  refine ⟨(KeepsLocks.of_stack added same (stackCounter_addIndividuals individuals)).trans
    wellFormed soFar.keepsLocks, fun id => ?_⟩
  have once := soFar.splitOnce id
  unfold SplitOnce at once
  rw [same] at once
  exact once

theorem distinct_splitWorkspaceElement (wellFormed : service.WellFormed)
    (distinct : service.Distinct) (toRemove : Nat) (ignoreResources : List String)
    (individuals : List (String × Bool)) :
    (service.splitWorkspaceElement direction toRemove ignoreResources individuals).1.Distinct := by
  intro id
  show (ResourceEditStack.elements _ .undo ++ ResourceEditStack.elements _ .redo).Nodup
  rcases (splitOnce_splitWorkspaceElement wellFormed direction toRemove ignoreResources
    individuals).2 id with unchanged | ⟨strResource, split⟩
  · rw [unchanged, unchanged]
    exact distinct id
  · rw [split, split]
    apply ResourceEditStack.nodup_splitWorkspaceElement direction (distinct id)
    intro other isIndividual side member
    have new := (new_of_individual isIndividual).2
    exact absurd (wellFormed.known id side other member) (Nat.not_lt_of_le new)

/-! ## Moving -/

theorem stackCounter_moveAll (service : UndoRedoService) (direction : Direction) (element : Nat)
    (editStacks : List Nat) :
    (service.moveAll direction element editStacks).stackCounter = service.stackCounter := by
  unfold moveAll
  induction editStacks generalizing service with
  | nil => rfl
  | cons first editStacks ih => exact ih _

/-- Moving the closest element of each edit stack keeps the elements distinct. -/
theorem distinct_moveAll (distinct : service.Distinct) {element : Nat} {editStacks : List Nat}
    (nodup : editStacks.Nodup) (closest : ∀ id ∈ editStacks,
      (service.stack id).getClosestElement direction = some element) :
    (service.moveAll direction element editStacks).Distinct := by
  intro id
  rw [stack_moveAll direction element nodup]
  split
  next member =>
      have same := ResourceEditStack.createSnapshot_move (closest id member)
      have perm : ∀ stack : ResourceEditStack,
          (stack.past ++ stack.future).Nodup ↔ stack.createSnapshot.Nodup := by
        intro stack
        exact ((reverse_perm _).append_left _).nodup_iff.symm
      rw [perm, same, ← perm]
      exact distinct id
  next => exact distinct id

theorem KeepsLocks.moveAll (wellFormed : service.WellFormed) {element : Nat}
    {editStacks : List Nat} (nodup : editStacks.Nodup)
    (known : element < service.stackElementCounter)
    (closest : ∀ id ∈ editStacks, id ≠ 0 ∧
      (service.stack id).getClosestElement direction = some element) :
    service.KeepsLocks (service.moveAll direction element editStacks) := by
  have counter := stackCounter_moveAll service direction element editStacks
  refine ⟨.moveAll wellFormed nodup known not_false closest, fun id _ => ?_,
    fun _ new old => absurd (counter ▸ new) (Nat.not_lt_of_le old)⟩
  rw [stack_moveAll direction element nodup]
  split
  · exact ResourceEditStack.locked_move _ _ _
  · rfl

end UndoRedoService

end CodeEditor.UndoRedo
