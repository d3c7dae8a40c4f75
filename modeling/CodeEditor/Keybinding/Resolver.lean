import CodeEditor.ContextKey.Expression

/-!
# The keybinding resolver

Model of `keybindingResolver.ts`: how the default and the user keybindings are filtered and
entered into the map by first chord and into the map by command, and how pressed chords are
resolved.

Keybinding items are objects, compared by identity: they are the values of a type, and what
the resolver reads of them is given by functions. The functions of `contextkey.ts` that
substitute constants and compare clauses are parameters.
-/

namespace CodeEditor.Keybinding

open ContextKey List Option

/-- What the resolver reads of its keybinding items. -/
structure Items (I α A : Type) where
  chords : I → List String
  bubble : I → Bool
  command : I → Option String
  commandArgs : I → A
  when : I → Option (Expression α)
  isDefault : I → Bool

/-- What the resolver uses of `contextkey.ts`. -/
structure Clauses (α : Type) where
  substituteConstants : Expression α → Option (Expression α)
  expressionsAreEqualWithConstantSubstitution : Expression α → Expression α → Bool
  implies : Expression α → Expression α → Bool

inductive ResolutionResult (A : Type)
  | noMatchingKb
  | moreChordsNeeded
  | kbFound (commandId : Option String) (commandArgs : A) (isBubble : Bool)

/-- The keybindings by first chord, and by command. -/
structure KeybindingResolver (I : Type) where
  map : String → Option (List I)
  lookupMap : String → Option (List I)

variable {I α A Context : Type} [DecidableEq I]

/-! ## Removals -/

section Removals

variable (K : Items I α A) (C : Clauses α)

def isTargetedForRemoval (defaultKb : I) (keypress : List String) (when : Option (Expression α)) :
    Bool :=
  keypress.isPrefixOf (K.chords defaultKb) &&
    match when with
    | none => true
    | some .trueExpr => true
    | some clause =>
      match K.when defaultKb with
      | none => false
      | some defaultClause => C.expressionsAreEqualWithConstantSubstitution clause defaultClause

def isRemoval (rule : I) : Bool :=
  match K.command rule with
  | none => false
  | some command => command.toList.head? == some '-'

/-- The rules entered under `command` in the map of removals. -/
def removals (rules : List I) (command : String) : List I :=
  rules.filter fun rule => K.command rule == some ("-" ++ command)

/-- Whether the second pass of `handleRemovals` keeps a rule. -/
def isKept (rules : List I) (rule : I) : Bool :=
  match K.command rule with
  | none => true
  | some command =>
    if command = "" then true
    else if command.toList.head? = some '-' then false
    else if (removals K rules command).isEmpty || !K.isDefault rule then true
    else !(removals K rules command).any fun commandRemoval =>
      isTargetedForRemoval K C rule (K.chords commandRemoval) (K.when commandRemoval)

def handleRemovals (rules : List I) : List I :=
  if rules.any (isRemoval K) then rules.filter (isKept K C rules) else rules

end Removals

/-! ## Building the maps -/

section Building

variable (K : Items I α A) (C : Clauses α)

/-- The command of an item, unless it is `null` or empty. -/
def commandOf (item : I) : Option String :=
  (K.command item).filter (· ≠ "")

def addToLookupMap (lookupMap : String → Option (List I)) (item : I) :
    String → Option (List I) :=
  match commandOf K item with
  | none => lookupMap
  | some command =>
    Function.update lookupMap command (some ((lookupMap command).getD [] ++ [item]))

def removeFromLookupMap (lookupMap : String → Option (List I)) (item : I) :
    String → Option (List I) :=
  match commandOf K item with
  | none => lookupMap
  | some command =>
    match lookupMap command with
    | none => lookupMap
    | some arr => Function.update lookupMap command (some (arr.erase item))

def whenIsEntirelyIncluded (a b : Option (Expression α)) : Bool :=
  match b with
  | none => true
  | some .trueExpr => true
  | some b =>
    match a with
    | none => false
    | some .trueExpr => false
    | some a => C.implies a b

/-- Whether the chords of two items agree from the second on, as far as both have chords. -/
def isShorterKbPrefix (conflict item : I) : Bool :=
  (((K.chords conflict).drop 1).zip ((K.chords item).drop 1)).all fun chord =>
    chord.1 == chord.2

/-- Whether adding `item` removes `conflict`, an item with the same first chord, from the
lookup map. -/
def overwrites (item conflict : I) : Bool :=
  K.command conflict != K.command item && isShorterKbPrefix K conflict item &&
    whenIsEntirelyIncluded C (K.when conflict) (K.when item)

def addKeyPress (resolver : KeybindingResolver I) (keypress : String) (item : I) :
    KeybindingResolver I :=
  match resolver.map keypress with
  | none =>
    { map := Function.update resolver.map keypress (some [item])
      lookupMap := addToLookupMap K resolver.lookupMap item }
  | some conflicts =>
    let lookupMap := conflicts.reverse.foldl (fun lookupMap conflict =>
      if overwrites K C item conflict then removeFromLookupMap K lookupMap conflict
      else lookupMap) resolver.lookupMap
    { map := Function.update resolver.map keypress (some (conflicts ++ [item]))
      lookupMap := addToLookupMap K lookupMap item }

/-- Whether a keybinding has chords, and a clause that is not `false` by its constants. -/
def isAddable (k : I) : Bool :=
  match (K.when k).bind C.substituteConstants with
  | some .falseExpr => false
  | _ => !(K.chords k).isEmpty

/-- One round of the loop of the constructor. -/
def addKeybinding (resolver : KeybindingResolver I) (k : I) : KeybindingResolver I :=
  if isAddable K C k then
    match K.chords k with
    | [] => resolver
    | keypress :: _ => addKeyPress K C resolver keypress k
  else resolver

/-- The constructor of the resolver. -/
def KeybindingResolver.create (defaultKeybindings overrides : List I) : KeybindingResolver I :=
  (handleRemovals K C (defaultKeybindings ++ overrides)).foldl (addKeybinding K C)
    { map := fun _ => none, lookupMap := fun _ => none }

def lookupKeybindings (resolver : KeybindingResolver I) (commandId : String) : List I :=
  ((resolver.lookupMap commandId).getD []).reverse

end Building

/-! ## Resolution -/

section Resolution

variable (K : Items I α A) (value : Context → α → Bool)

def contextMatchesRules (context : Context) (rules : Option (Expression α)) : Bool :=
  match rules with
  | none => true
  | some rules => rules.evaluate (value context)

/-- The last item whose clause holds. -/
def findCommand (context : Context) (items : List I) : Option I :=
  items.reverse.find? fun k => contextMatchesRules value context (K.when k)

/-- The items that have all the pressed chords. -/
def matching (kbCandidates : List I) (pressedChords : List String) : List I :=
  if pressedChords.length < 2 then kbCandidates
  else kbCandidates.filter fun candidate =>
    pressedChords.length ≤ (K.chords candidate).length &&
      (pressedChords.drop 1).isPrefixOf ((K.chords candidate).drop 1)

/-- The item that `resolve` decides by. -/
def resolvedItem (resolver : KeybindingResolver I) (context : Context)
    (pressedChords : List String) : Option I :=
  match pressedChords.head?.bind resolver.map with
  | none => none
  | some kbCandidates => findCommand K value context (matching K kbCandidates pressedChords)

def resolve (resolver : KeybindingResolver I) (context : Context) (currentChords : List String)
    (keypress : String) : ResolutionResult A :=
  let pressedChords := currentChords ++ [keypress]
  match resolvedItem K value resolver context pressedChords with
  | none => .noMatchingKb
  | some result =>
    if pressedChords.length < (K.chords result).length then .moreChordsNeeded
    else .kbFound (K.command result) (K.commandArgs result) (K.bubble result)

end Resolution

/-!
## What the two maps of the resolver hold

The map by first chord holds the added keybindings in their order. The map by command holds a
keybinding exactly when no keybinding added after it overwrites it.
-/

variable (K : Items I α A) (C : Clauses α)

/-- The keybindings that the constructor adds, in their order. -/
def addedKeybindings (defaultKeybindings overrides : List I) : List I :=
  (handleRemovals K C (defaultKeybindings ++ overrides)).filter (isAddable K C)

/-- The elements behind the last occurrence of `k`, in reverse. -/
def laterThan (bindings : List I) (k : I) : List I :=
  bindings.reverse.takeWhile (· ≠ k)

theorem laterThan_append_singleton (bindings : List I) (item k : I) :
    laterThan (bindings ++ [item]) k = if item = k then [] else item :: laterThan bindings k := by
  unfold laterThan
  by_cases same : item = k <;> simp [same]

/-- The elements of `bindings` with a given first chord. -/
def startingWith (bindings : List I) (keypress : String) : List I :=
  bindings.filter fun k => (K.chords k).head? == some keypress

/-- `item` begins with the first chord of `k`, and adding it overwrites `k`. -/
def Overwrites (item k : I) : Prop :=
  (K.chords item).head? = (K.chords k).head? ∧ overwrites K C item k = true

instance (item k : I) : Decidable (Overwrites K C item k) := by
  unfold Overwrites
  infer_instance

omit [DecidableEq I] in

/-! ## Occurrences in the map by command -/

/-- How often the map by command holds `k`. -/
def held (lookupMap : String → Option (List I)) (k : I) : Nat :=
  match commandOf K k with
  | none => 0
  | some command => ((lookupMap command).getD []).count k

variable {K}

section

variable {k : I} (hasCommand : commandOf K k = some command) (lookupMap : String → Option (List I))

include hasCommand lookupMap

theorem held_of_command : held K lookupMap k = ((lookupMap command).getD []).count k := by
  simp [held, hasCommand]

theorem held_addToLookupMap (item : I) : held K (addToLookupMap K lookupMap item) k =
      held K lookupMap k + if item = k then 1 else 0 := by
  rw [held_of_command hasCommand, held_of_command hasCommand]
  unfold addToLookupMap
  by_cases same : item = k
  · subst same
    simp [hasCommand]
  · cases itemCommand : commandOf K item with
    | none => simp [same]
    | some other =>
      by_cases sameCommand : command = other
      · subst sameCommand
        simp [same, count_append]
      · simp [Function.update_of_ne sameCommand, same]

theorem held_removeFromLookupMap (item : I) : held K (removeFromLookupMap K lookupMap item) k =
      held K lookupMap k - if item = k then 1 else 0 := by
  rw [held_of_command hasCommand, held_of_command hasCommand]
  unfold removeFromLookupMap
  cases itemCommand : commandOf K item with
  | none =>
    have differs : item ≠ k := by
      intro same
      rw [same, hasCommand] at itemCommand
      cases itemCommand
    simp [differs]
  | some other =>
    cases entry : lookupMap other with
    | none =>
      by_cases same : item = k
      · subst same
        rw [hasCommand] at itemCommand
        cases itemCommand
        simp [entry]
      · simp [same, entry]
    | some arr =>
      by_cases sameCommand : command = other
      · subst sameCommand
        simp only [entry, Function.update_self, getD_some, count_erase]
        by_cases same : item = k <;> simp [same]
      · have differs : item ≠ k := by
          intro same
          rw [same, hasCommand] at itemCommand
          exact sameCommand (Option.some.inj itemCommand)
        simp [Function.update_of_ne sameCommand, differs, entry]

end

theorem held_foldl_removeFromLookupMap
    (hasCommand : commandOf K k = some command) (isOverwritten : I → Bool) (conflicts : List I)
    (lookupMap : String → Option (List I)) :
    held K (conflicts.foldl (fun lookupMap conflict =>
        if isOverwritten conflict then removeFromLookupMap K lookupMap conflict
        else lookupMap) lookupMap) k =
      held K lookupMap k - if isOverwritten k then conflicts.count k else 0 := by
  induction conflicts generalizing lookupMap with
  | nil => simp
  | cons conflict conflicts ih =>
    rw [foldl_cons, ih, count_cons]
    by_cases same : conflict = k
    · subst same
      by_cases isRemoved : isOverwritten conflict = true
      · simp only [isRemoved, if_true, held_removeFromLookupMap hasCommand, beq_self_eq_true]
        omega
      · simp [isRemoved]
    · have unchanged : held K (if isOverwritten conflict then
          removeFromLookupMap K lookupMap conflict else lookupMap) k = held K lookupMap k := by
        by_cases isRemoved : isOverwritten conflict = true
        · simp [isRemoved, held_removeFromLookupMap hasCommand, same]
        · simp [isRemoved]
      rw [unchanged]
      simp [same]

/-! ## One keybinding -/

/-- The map by first chord holds the elements of `bindings` in their order. -/
def MapHolds (K : Items I α A) (resolver : KeybindingResolver I) (bindings : List I) : Prop :=
  ∀ keypress, resolver.map keypress =
    if startingWith K bindings keypress = [] then none
    else some (startingWith K bindings keypress)

omit [DecidableEq I] in
theorem MapHolds.getD (holds : MapHolds K resolver bindings) (keypress : String) :
    (resolver.map keypress).getD [] = startingWith K bindings keypress := by
  rw [holds keypress]
  by_cases isEmpty : startingWith K bindings keypress = [] <;> simp [isEmpty]

omit [DecidableEq I] in
theorem startingWith_append_singleton (bindings : List I) (item : I) (keypress : String) :
    startingWith K (bindings ++ [item]) keypress = startingWith K bindings keypress ++
        if (K.chords item).head? = some keypress then [item] else [] := by
  unfold startingWith
  rw [filter_append, filter_singleton]
  congr 1
  by_cases same : (K.chords item).head? = some keypress
  · simp [same]
  · have differs : ((K.chords item).head? == some keypress) = false := by simpa using same
    rw [differs, if_neg same, cond_false]

theorem addKeyPress_map (resolver : KeybindingResolver I) (keypress : String) (item : I) :
    (addKeyPress K C resolver keypress item).map = Function.update resolver.map keypress
        (some ((resolver.map keypress).getD [] ++ [item])) := by
  unfold addKeyPress
  cases resolver.map keypress <;> rfl

theorem mapHolds_addKeyPress (first : (K.chords item).head? = some keypress)
    (holds : MapHolds K resolver bindings) :
    MapHolds K (addKeyPress K C resolver keypress item) (bindings ++ [item]) := by
  intro other
  rw [addKeyPress_map, holds.getD, startingWith_append_singleton, first]
  by_cases same : other = keypress
  · subst same
    simp
  · have differs : ¬ some keypress = some other := by
      intro equal
      exact same (Option.some.inj equal).symm
    rw [Function.update_of_ne same, if_neg differs, append_nil]
    exact holds other

theorem held_addKeyPress (hasCommand : commandOf K k = some command)
    (first : (K.chords item).head? = some keypress) (holds : MapHolds K resolver bindings) :
    held K (addKeyPress K C resolver keypress item).lookupMap k =
      held K resolver.lookupMap k - (if Overwrites K C item k then bindings.count k else 0) +
        if item = k then 1 else 0 := by
  have occurrences : (startingWith K bindings keypress).count k =
      if (K.chords item).head? = (K.chords k).head? then bindings.count k else 0 := by
    unfold startingWith
    by_cases same : (K.chords k).head? = some keypress
    · rw [count_filter (by simpa using same), first, same, if_pos rfl]
    · rw [first, if_neg (Ne.symm same), count_eq_zero]
      intro member
      exact same (by simpa using (mem_filter.mp member).2)
  have removed : (if overwrites K C item k = true then
      (startingWith K bindings keypress).count k else 0) =
      if Overwrites K C item k then bindings.count k else 0 := by
    unfold Overwrites
    rw [occurrences]
    by_cases same : (K.chords item).head? = (K.chords k).head? <;>
      by_cases isOverwritten : overwrites K C item k = true <;> simp [same, isOverwritten]
  rw [← removed, ← holds.getD]
  unfold addKeyPress
  cases entry : resolver.map keypress with
  | none => simp [held_addToLookupMap hasCommand]
  | some conflicts =>
    rw [held_addToLookupMap hasCommand,
      held_foldl_removeFromLookupMap hasCommand (fun conflict => overwrites K C item conflict),
      count_reverse, getD_some]

/-! ## All keybindings -/

/-- The maps after `bindings` have been added. -/
structure Holds (K : Items I α A) (C : Clauses α) (resolver : KeybindingResolver I)
    (bindings : List I) : Prop where
  map : MapHolds K resolver bindings
  held_le : ∀ k, held K resolver.lookupMap k ≤ bindings.count k
  held_eq_zero_iff : ∀ k, (commandOf K k).isSome → k ∈ bindings →
    (held K resolver.lookupMap k = 0 ↔ ∃ item ∈ laterThan bindings k, Overwrites K C item k)

theorem holds_nil : Holds K C { map := fun _ => none, lookupMap := fun _ => none } [] where
  map _ := rfl
  held_le k := by
    unfold held
    cases commandOf K k <;> simp
  held_eq_zero_iff k _ member := absurd member not_mem_nil

theorem Holds.addKeyPress (first : (K.chords item).head? = some keypress)
    (holds : Holds K C resolver bindings) :
    Holds K C (addKeyPress K C resolver keypress item) (bindings ++ [item]) where
  map := mapHolds_addKeyPress C first holds.map
  held_le k := by
    cases hasCommand : commandOf K k with
    | none => simp [held, hasCommand]
    | some command =>
      rw [held_addKeyPress C hasCommand first holds.map, count_append, count_singleton]
      have before := holds.held_le k
      by_cases same : item = k
      · simp only [same, if_true, beq_self_eq_true]
        omega
      · simp only [same, if_false, beq_iff_eq]
        omega
  held_eq_zero_iff k hasCommand member := by
    obtain ⟨command, isCommand⟩ := isSome_iff_exists.mp hasCommand
    rw [held_addKeyPress C isCommand first holds.map, laterThan_append_singleton]
    by_cases same : item = k
    · simp [same]
    · have earlier : k ∈ bindings := by
        rcases mem_append.mp member with earlier | last
        · exact earlier
        · exact absurd (mem_singleton.mp last).symm same
      have before := holds.held_le k
      rw [if_neg same, if_neg same, exists_mem_cons_iff,
        ← holds.held_eq_zero_iff k hasCommand earlier]
      by_cases isOverwritten : Overwrites K C item k
      · simp only [isOverwritten, if_true, true_or, iff_true]
        omega
      · simp [isOverwritten]

omit [DecidableEq I] in
theorem chords_ne_nil_of_isAddable (addable : isAddable K C k = true) : K.chords k ≠ [] := by
  unfold isAddable at addable
  intro empty
  split at addable
  · cases addable
  · simp [empty] at addable

theorem Holds.addKeybinding
    (addable : isAddable K C item = true) (holds : Holds K C resolver bindings) :
    Holds K C (addKeybinding K C resolver item) (bindings ++ [item]) := by
  unfold Keybinding.addKeybinding
  rw [if_pos addable]
  cases chords : K.chords item with
  | nil => exact absurd chords (chords_ne_nil_of_isAddable C addable)
  | cons keypress rest => exact holds.addKeyPress C (by rw [chords, head?_cons])

theorem Holds.foldl (rules : List I) (holds : Holds K C resolver bindings) :
    Holds K C (rules.foldl (Keybinding.addKeybinding K C) resolver)
      (bindings ++ rules.filter (isAddable K C)) := by
  induction rules generalizing resolver bindings with
  | nil => simpa using holds
  | cons rule rules ih =>
    by_cases addable : isAddable K C rule = true
    · rw [foldl_cons, filter_cons_of_pos addable, append_cons]
      exact ih (holds.addKeybinding C addable)
    · have skipped : Keybinding.addKeybinding K C resolver rule = resolver := by
        unfold Keybinding.addKeybinding
        rw [if_neg addable]
      rw [foldl_cons, filter_cons_of_neg addable, skipped]
      exact ih holds

variable (K) in
theorem holds_create (defaultKeybindings overrides : List I) :
    Holds K C (KeybindingResolver.create K C defaultKeybindings overrides)
      (addedKeybindings K C defaultKeybindings overrides) := by
  have built := (holds_nil (K := K) C).foldl C
    (handleRemovals K C (defaultKeybindings ++ overrides))
  rwa [nil_append] at built

end CodeEditor.Keybinding
