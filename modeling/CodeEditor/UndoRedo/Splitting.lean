import CodeEditor.UndoRedo.Pushing

/-!
# Splitting an element

A split takes an element of several resources out of one side of their edit stacks, but for the
resources that are ignored, and puts a new element of one resource in its place.
-/

namespace CodeEditor.UndoRedo

open Function List Nat

namespace UndoRedoService

variable {service : UndoRedoService} {observed : Nat → Prop}

/-! ## The individual elements -/

section

variable (individuals : List (String × Bool))

theorem Evolves.addIndividuals (wellFormed : service.WellFormed) :
    service.Evolves observed (addIndividuals individuals service).1 := by
  induction individuals generalizing service with
  | nil => exact .refl wellFormed
  | cons individual individuals ih =>
    have added : service.Evolves observed (service.addElement
        ⟨false, [individual.1], 0, 0, 0, 0, individual.2, false, false, true, [], []⟩) :=
      .addElement wellFormed (nodup_singleton _) fun _ isFalse => nomatch isFalse
    exact added.trans wellFormed (ih added.wellFormed)

theorem side_addIndividuals (strResource : String) (direction : Direction) :
    (addIndividuals individuals service).1.side strResource direction =
      service.side strResource direction := by
  induction individuals generalizing service with
  | nil => rfl
  | cons individual individuals ih => exact ih

theorem get_addIndividuals (strResource : String) :
    (addIndividuals individuals service).1.get strResource = service.get strResource := by
  induction individuals generalizing service with
  | nil => rfl
  | cons individual individuals ih => exact ih

theorem element_addIndividuals {element : Nat} (known : element < service.stackElementCounter) :
    (addIndividuals individuals service).1.element element = service.element element := by
  induction individuals generalizing service with
  | nil => rfl
  | cons individual individuals ih =>
    refine (ih (Nat.lt_succ_of_lt known)).trans ?_
    exact update_of_ne (Nat.ne_of_lt known) _ _

theorem le_stackElementCounter_addIndividuals : service.stackElementCounter ≤
      (addIndividuals individuals service).1.stackElementCounter := by
  induction individuals generalizing service with
  | nil => exact le_refl _
  | cons individual individuals ih => exact (le_succ _).trans (@ih (service.addElement _))

end

/-- The individual elements have new numbers. -/
theorem new_of_mem_addIndividuals {entry : String × Nat}
    (member : entry ∈ (addIndividuals individuals service).2) :
    service.stackElementCounter ≤ entry.2 ∧
      entry.2 < (addIndividuals individuals service).1.stackElementCounter := by
  induction individuals generalizing service with
  | nil => exact absurd member not_mem_nil
  | cons individual individuals ih =>
    rcases mem_cons.mp member with same | later
    · rw [same]
      refine ⟨le_refl _, lt_of_lt_of_le (lt_succ_self _) ?_⟩
      exact @le_stackElementCounter_addIndividuals (service.addElement _) individuals
    · have between := ih later
      exact ⟨(le_succ _).trans between.1, between.2⟩

variable {id : Nat}

/-- The individual elements are not elements of several resources. -/
theorem isWorkspace_addIndividuals (individuals : List (String × Bool))
    (notOld : service.stackElementCounter ≤ id)
    (new : id < (addIndividuals individuals service).1.stackElementCounter) :
    ((addIndividuals individuals service).1.element id).isWorkspace = false := by
  induction individuals generalizing service with
  | nil => exact absurd new (Nat.not_lt_of_le notOld)
  | cons individual individuals ih =>
    rcases Nat.eq_or_lt_of_le notOld with same | later
    · subst same
      refine (congrArg StackElement.isWorkspace
        (element_addIndividuals individuals (Nat.lt_succ_self _))).trans ?_
      show (update service.element _ _ service.stackElementCounter).isWorkspace = false
      rw [update_self]
    · exact ih later new

theorem exists_of_individual (found : individual individualMap strResource = some id) :
    ∃ entry ∈ individualMap, entry.2 = id := by
  unfold individual at found
  obtain ⟨entry, isEntry, same⟩ := Option.map_eq_some_iff.mp found
  exact ⟨entry, mem_reverse.mp (mem_of_find?_eq_some isEntry), same⟩

/-! ## The loop over the resources -/

section

variable {direction : Direction} {toRemove : Nat} {ignoreResources : List String}
  {individualMap : List (String × Nat)}

theorem completed_splitLoop {strResources : List String}
    (mapped : ∀ strResource ∈ strResources, strResource ∉ ignoreResources →
      service.get strResource ≠ none) :
    (splitLoop direction toRemove ignoreResources individualMap strResources service).2 =
      true := by
  induction strResources generalizing service with
  | nil => rfl
  | cons strResource strResources ih =>
    unfold splitLoop
    have later := fun other member => mapped other (mem_cons_of_mem strResource member)
    split
    · exact ih later
    next notIgnored =>
        have isMapped := mapped strResource mem_cons_self notIgnored
        cases found : service.get strResource with
        | none => exact absurd found isMapped
        | some id => exact ih later

/-- What holds before the loop and is kept by each split of an edit stack holds where the loop
ends, and all resources are treated when it completes. -/
theorem splitLoop_induction
    (p : List String → UndoRedoService → Prop) (initial : p strResources service)
    (skip : ∀ strResource rest current, p (strResource :: rest) current →
      strResource ∈ ignoreResources → p rest current)
    (split : ∀ strResource rest current id, p (strResource :: rest) current →
      strResource ∉ ignoreResources → current.get strResource = some id →
      p rest (current.modifyStack id (.splitWorkspaceElement direction toRemove
        (individual individualMap (current.stack id).strResource)))) :
    ∃ rest, p rest
        (splitLoop direction toRemove ignoreResources individualMap strResources service).1 ∧
      ((splitLoop direction toRemove ignoreResources individualMap strResources service).2 →
        rest = []) := by
  induction strResources generalizing service with
  | nil => exact ⟨[], initial, fun _ => rfl⟩
  | cons strResource strResources ih =>
    unfold splitLoop
    split
    next ignored => exact ih (skip _ _ _ initial ignored)
    next notIgnored =>
        cases found : service.get strResource with
        | none => exact ⟨strResource :: strResources, initial, fun isFalse => nomatch isFalse⟩
        | some id => exact ih (split _ _ _ id initial notIgnored found)

theorem stackElementCounter_splitLoop (strResources : List String) :
    (splitLoop direction toRemove ignoreResources individualMap strResources
      service).1.stackElementCounter = service.stackElementCounter := by
  obtain ⟨-, same, -⟩ := splitLoop_induction
    (fun _ current => current.stackElementCounter = service.stackElementCounter) rfl
    (fun _ _ _ same _ => same) (fun _ _ _ _ same _ _ => same)
  exact same

theorem element_splitLoop (strResources : List String) :
    (splitLoop direction toRemove ignoreResources individualMap strResources
      service).1.element = service.element := by
  obtain ⟨-, same, -⟩ := splitLoop_induction
    (fun _ current => current.element = service.element) rfl
    (fun _ _ _ same _ => same) (fun _ _ _ _ same _ _ => same)
  exact same

/-- One edit stack is split. -/
theorem Evolves.splitStack (wellFormed : service.WellFormed)
    (found : service.get strResource = some id) (unobserved : ¬observed toRemove)
    {individual : Option Nat} (fresh : ∀ other, individual = some other →
      other < service.stackElementCounter ∧ ¬observed other) : service.Evolves observed
      (service.modifyStack id (.splitWorkspaceElement direction toRemove individual)) := by
  have same : ∀ element, observed element → ∀ elements : List Nat,
      (ResourceEditStack.replaceLast toRemove individual elements).count element =
        elements.count element := by
    intro element isObserved elements
    apply ResourceEditStack.count_replaceLast_of_ne
    · exact fun equal => unobserved (equal ▸ isObserved)
    · exact fun equal => (fresh element equal).2 isObserved
  apply Evolves.modifyStack wellFormed (wellFormed.mapped strResource id found).1
  · exact ResourceEditStack.strResource_splitWorkspaceElement _ _ _ _
  · rw [ResourceEditStack.versionId_splitWorkspaceElement]
    exact le_succ _
  · intro side element member
    rw [ResourceEditStack.elements_splitWorkspaceElement] at member
    split at member
    · rcases ResourceEditStack.mem_replaceLast member with old | new
      · exact wellFormed.known id side element old
      · exact (fresh element new).1
    · exact wellFormed.known id side element member
  · intro element isObserved _ side
    rw [ResourceEditStack.elements_splitWorkspaceElement]
    split
    · exact (same element isObserved _).le
    · exact le_refl _
  · intro element isObserved _ _ _ _ side member
    left
    rw [ResourceEditStack.elements_splitWorkspaceElement]
    split
    · rw [← count_pos_iff, same element isObserved]
      exact count_pos_iff.mpr member
    · exact member

theorem Evolves.splitLoop (wellFormed : service.WellFormed) (unobserved : ¬observed toRemove)
    (fresh : ∀ strResource id, individual individualMap strResource = some id →
      id < service.stackElementCounter ∧ ¬observed id) :
    service.Evolves observed
      (splitLoop direction toRemove ignoreResources individualMap strResources service).1 := by
  have step : ∀ strResource (_ : List String) current id, service.Evolves observed current →
      strResource ∉ ignoreResources → current.get strResource = some id →
      service.Evolves observed (current.modifyStack id (.splitWorkspaceElement direction toRemove
        (individual individualMap (current.stack id).strResource))) := by
    intro strResource _ current id evolves _ found
    apply evolves.trans wellFormed
    apply Evolves.splitStack evolves.wellFormed found unobserved
    intro individualId isIndividual
    have isFresh := fresh _ individualId isIndividual
    exact ⟨lt_of_lt_of_le isFresh.1 evolves.later.elementCounter, isFresh.2⟩
  obtain ⟨-, evolves, -⟩ := splitLoop_induction
    (fun _ current => service.Evolves observed current) (.refl wellFormed)
    (fun _ _ _ evolves _ => evolves) step
  exact evolves

/-- The state of the loop: the edit stacks of the rest are untouched, and each other one that is
not ignored has lost one copy on the side that is split. -/
structure SplitSoFar (service : UndoRedoService) (direction : Direction) (toRemove : Nat)
    (ignoreResources strResources rest : List String) (current : UndoRedoService) : Prop where
  evolves : service.Evolves (fun _ => False) current
  distinct : rest.Nodup
  subset : ∀ other ∈ rest, other ∈ strResources
  unchanged : ∀ other ∈ rest, ∀ side, current.side other side = service.side other side
  counts : ∀ other side, (current.side other side).count toRemove =
    if (other ∈ strResources ∧ other ∉ rest ∧ other ∉ ignoreResources) ∧ side = direction then
      (service.side other side).count toRemove - 1
    else (service.side other side).count toRemove

variable {strResources rest : List String}

theorem SplitSoFar.skip {first : String}
    (soFar : service.SplitSoFar direction toRemove ignoreResources
      strResources (first :: rest) current) (ignored : first ∈ ignoreResources) :
    service.SplitSoFar direction toRemove ignoreResources strResources rest current where
  evolves := soFar.evolves
  distinct := (nodup_cons.mp soFar.distinct).2
  subset other member := soFar.subset other (mem_cons_of_mem first member)
  unchanged other member := soFar.unchanged other (mem_cons_of_mem first member)
  counts other side := by
    rw [soFar.counts]
    by_cases same : other = first
    · simp [same, ignored]
    · simp [same]

theorem SplitSoFar.split (wellFormed : service.WellFormed) {first : String}
    {individual : Option Nat}
    (soFar : service.SplitSoFar direction toRemove ignoreResources strResources (first :: rest)
      current) (notIgnored : first ∉ ignoreResources) (found : current.get first = some id)
    (fresh : ∀ other, individual = some other →
      other < service.stackElementCounter ∧ other ≠ toRemove) :
    service.SplitSoFar direction toRemove ignoreResources strResources rest
      (current.modifyStack id (.splitWorkspaceElement direction toRemove individual)) := by
  have evolves := soFar.evolves
  have distinctRest := nodup_cons.mp soFar.distinct
  have isFirst : ∀ other, current.get other = some id ↔ other = first := by
    intro other
    constructor
    · exact fun mapped => evolves.wellFormed.get_injective mapped found
    · exact fun same => same ▸ found
  have sides : ∀ other side,
      (current.modifyStack id (.splitWorkspaceElement direction toRemove individual)).side
        other side =
        if other = first ∧ side = direction then
          ResourceEditStack.replaceLast toRemove individual (current.side first side)
        else current.side other side := by
    intro other side
    rw [side_modifyStack, ResourceEditStack.elements_splitWorkspaceElement]
    simp only [isFirst]
    by_cases same : other = first
    · subst same
      rw [side_of_get found]
      simp
    · simp [same]
  refine ⟨evolves.trans wellFormed ?_, distinctRest.2,
    fun other member => soFar.subset other (mem_cons_of_mem first member), ?_, ?_⟩
  · apply Evolves.splitStack evolves.wellFormed found not_false
    intro individualId isIndividual
    exact ⟨lt_of_lt_of_le (fresh _ isIndividual).1 evolves.later.elementCounter, not_false⟩
  · intro other member side
    have different : other ≠ first := fun same => distinctRest.1 (same ▸ member)
    rw [sides, if_neg fun both => different both.1]
    exact soFar.unchanged other (mem_cons_of_mem first member) side
  · intro other side
    rw [sides]
    by_cases both : other = first ∧ side = direction
    · obtain ⟨rfl, rfl⟩ := both
      rw [if_pos ⟨rfl, rfl⟩, if_pos ⟨⟨soFar.subset other mem_cons_self, distinctRest.1,
        notIgnored⟩, rfl⟩, ResourceEditStack.count_replaceLast,
        soFar.unchanged other mem_cons_self]
      exact fun same => (fresh _ same).2 rfl
    · rw [if_neg both, soFar.counts]
      by_cases same : other = first
      · have otherSide : side ≠ direction := fun equal => both ⟨same, equal⟩
        simp [otherSide]
      · simp [same]

/-- Each edit stack that is not ignored loses one copy on the side that is split. -/
theorem count_splitLoop (completed :
      (splitLoop direction toRemove ignoreResources individualMap strResources service).2)
    (wellFormed : service.WellFormed) (distinct : strResources.Nodup)
    (fresh : ∀ strResource id, individual individualMap strResource = some id →
      id < service.stackElementCounter ∧ id ≠ toRemove) (strResource : String)
    (side : Direction) :
    ((splitLoop direction toRemove ignoreResources individualMap strResources service).1.side
        strResource side).count toRemove =
      if (strResource ∈ strResources ∧ strResource ∉ ignoreResources) ∧ side = direction then
        (service.side strResource side).count toRemove - 1
      else (service.side strResource side).count toRemove := by
  have initial : service.SplitSoFar direction toRemove ignoreResources strResources strResources
      service := by
    refine ⟨.refl wellFormed, distinct, fun _ member => member, fun _ _ _ => rfl, ?_⟩
    intro other side
    rw [if_neg]
    rintro ⟨⟨member, absent, -⟩, -⟩
    exact absent member
  obtain ⟨rest, soFar, all⟩ := splitLoop_induction
    (service.SplitSoFar direction toRemove ignoreResources strResources) initial
    (fun _ _ _ soFar ignored => soFar.skip ignored)
    (fun _ _ _ _ soFar notIgnored found => soFar.split wellFormed notIgnored found (fresh _))
  rw [soFar.counts, all completed]
  simp

end

/-! ## The split -/

/-- An element may be split without the ignored resources. `reachable`: a resource that is
recorded as removed, or any one when the element is in no edit stack, has an edit stack.
`complete`: no ignored resource still has the element when it is taken out elsewhere. -/
structure MaySplit (service : UndoRedoService) (direction : Direction) (toRemove : Nat)
    (ignoreResources : List String) : Prop where
  reachable : ∀ strResource ∈ (service.element toRemove).strResources,
    strResource ∉ ignoreResources →
    strResource ∈ (service.element toRemove).removedResources ∨
      (∀ other side, toRemove ∉ service.side other side) →
    service.get strResource ≠ none
  complete : ∀ strResource ∈ (service.element toRemove).strResources,
    strResource ∉ ignoreResources →
    strResource ∉ (service.element toRemove).removedResources →
    toRemove ∈ service.side strResource direction →
    ∀ other ∈ ignoreResources, ∀ side, toRemove ∉ service.side other side

/-- Every edit stack that a split looks for is there. -/
theorem MaySplit.mapped (may : service.MaySplit direction toRemove ignoreResources)
    (settled : (service.placement toRemove).Settled) :
    ∀ strResource ∈ (service.element toRemove).strResources, strResource ∉ ignoreResources →
      service.get strResource ≠ none := by
  intro strResource member notIgnored
  by_cases removed : strResource ∈ (service.element toRemove).removedResources
  · exact may.reachable strResource member notIgnored (.inl removed)
  · by_cases nowhere : ∀ other side, toRemove ∉ service.side other side
    · exact may.reachable strResource member notIgnored (.inr nowhere)
    · push Not at nowhere
      obtain ⟨other, side, found⟩ := nowhere
      obtain ⟨placeSide, copy⟩ := settled.present ⟨other, side, copies_pos_iff.mpr found⟩
        strResource member removed
      obtain ⟨id, isMapped, -⟩ := exists_get_of_mem_side (copies_pos_iff.mp copy)
      rw [isMapped]
      exact Option.some_ne_none id

theorem new_of_individual
    (isIndividual : individual (addIndividuals individuals service).2 strResource = some id) :
    id < (addIndividuals individuals service).1.stackElementCounter ∧
      service.stackElementCounter ≤ id := by
  obtain ⟨entry, member, same⟩ := exists_of_individual isIndividual
  rw [← same]
  exact (new_of_mem_addIndividuals member).symm

theorem completed_splitWorkspaceElement (settled : service.Settled) {toRemove : Nat}
    (known : toRemove < service.stackElementCounter)
    (workspace : (service.element toRemove).isWorkspace)
    (may : service.MaySplit direction toRemove ignoreResources)
    (individuals : List (String × Bool)) :
    (service.splitWorkspaceElement direction toRemove ignoreResources individuals).2 = true := by
  apply completed_splitLoop
  intro strResource member notIgnored
  rw [get_addIndividuals]
  exact may.mapped (settled toRemove known workspace) strResource member notIgnored

/-- The elements that are observed need a split that is allowed. -/
theorem Evolves.splitWorkspaceElement (wellFormed : service.WellFormed) {toRemove : Nat}
    (known : toRemove < service.stackElementCounter) (individuals : List (String × Bool))
    (may : observed toRemove → (service.element toRemove).isWorkspace → service.Settled ∧
      service.MaySplit direction toRemove ignoreResources) :
    service.Evolves observed
      (service.splitWorkspaceElement direction toRemove ignoreResources individuals).1 := by
  have added : service.Evolves (fun other => other < service.stackElementCounter ∧
      other ≠ toRemove) (UndoRedoService.addIndividuals individuals service).1 :=
    .addIndividuals individuals wellFormed
  have split : service.Evolves (fun other => other < service.stackElementCounter ∧ other ≠ toRemove)
      (service.splitWorkspaceElement direction toRemove ignoreResources individuals).1 := by
    apply added.trans wellFormed
    apply Evolves.splitLoop added.wellFormed fun both => both.2 rfl
    intro strResource id isIndividual
    have new := new_of_individual isIndividual
    exact ⟨new.1, fun both => absurd both.1 (Nat.not_lt_of_le new.2)⟩
  have elements : ∀ other,
      (service.splitWorkspaceElement direction toRemove ignoreResources individuals).1.element
        other = (UndoRedoService.addIndividuals individuals service).1.element other :=
    congrFun (element_splitLoop _)
  refine ⟨split.wellFormed, split.later, ?_, fun other otherKnown isObserved workspace => ?_⟩
  · intro other notOld new _ otherWorkspace
    have counter : (service.splitWorkspaceElement direction toRemove ignoreResources
        individuals).1.stackElementCounter = _ := stackElementCounter_splitLoop _
    rw [elements, isWorkspace_addIndividuals individuals notOld (counter ▸ new)] at otherWorkspace
    exact absurd otherWorkspace Bool.false_ne_true
  by_cases same : other = toRemove
  · subst same
    obtain ⟨settled, allowed⟩ := may isObserved workspace
    have data := (elements other).trans (element_addIndividuals individuals known)
    have completed := completed_splitWorkspaceElement settled known workspace allowed individuals
    have counts := count_splitLoop completed added.wellFormed (wellFormed.distinct other)
      fun strResource id isIndividual =>
        ⟨(new_of_individual isIndividual).1,
          Nat.ne_of_gt (lt_of_lt_of_le known (new_of_individual isIndividual).2)⟩
    simp only [side_addIndividuals] at counts
    apply (settled other known workspace).thins_of_chosen {strResource |
      strResource ∈ (service.element other).strResources ∧ strResource ∉ ignoreResources}
      direction
    · unfold placement
      rw [data]
    · unfold placement
      rw [data]
    · intro strResource chosen
      exact (counts strResource direction).trans (if_pos ⟨chosen, rfl⟩)
    · intro strResource side notBoth
      exact (counts strResource side).trans (if_neg fun both =>
        notBoth.elim (fun absent => absent both.1) fun different => different both.2)
    · intro strResource chosen stays copy ignored isHome notChosen side
      have isIgnored : ignored ∈ ignoreResources := by
        by_contra notIgnored
        exact notChosen ⟨isHome, notIgnored⟩
      apply count_eq_zero.mpr
      exact allowed.complete strResource chosen.1 chosen.2 stays (copies_pos_iff.mp copy) ignored
        isIgnored side
  · exact split.thins other otherKnown ⟨otherKnown, same⟩ workspace

end UndoRedoService

end CodeEditor.UndoRedo
