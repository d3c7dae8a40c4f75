import CodeEditor.Watcher.EventCoalescer

/-!
# The net effect of file events

On Linux the coalescer keeps for each path the net effect of the events so far. Of the deletions
it reports those that have no deleted parent.
-/

namespace CodeEditor.Watcher

open Uri List Option Nat

variable {platform : Platform} {initial present : Set Text} {changes : List IFileChange}

/-! ## What events say -/

/-- The paths that exist behind an event. -/
def afterEvent (platform : Platform) (present : Set Text) (event : IFileChange) : Set Text :=
  match event.type with
  | .added => insert (event.fsPath platform) present
  | .deleted => present \ {event.fsPath platform}
  | .updated => present

/-- The paths that exist behind all events. -/
def afterEvents (platform : Platform) (initial : Set Text) (changes : List IFileChange) :
    Set Text :=
  changes.foldl (afterEvent platform) initial

/-- Absent paths are added, present ones updated and deleted. -/
def Allowed (platform : Platform) (present : Set Text) (event : IFileChange) : Prop :=
  match event.type with
  | .added => event.fsPath platform ∉ present
  | .updated | .deleted => event.fsPath platform ∈ present

/-- Every event is allowed behind the events in front of it. -/
def Consistent (platform : Platform) : Set Text → List IFileChange → Prop
  | _, [] => True
  | present, event :: changes =>
    Allowed platform present event ∧
      Consistent platform (afterEvent platform present event) changes

/-! ## The net effect on one path -/

/-- What an event makes of the net effect on its path. -/
def merge : Option FileChangeType → FileChangeType → Option FileChangeType
  | none, type => some type
  | some .added, .deleted => none
  | some .added, .updated => some .added
  | some .deleted, .added => some .updated
  | some _, type => some type

/-- The net effect on a path that existed `before` or not, exists `now` or not, and that events
have `touched` or not. -/
def NetEffect (before now touched : Prop) : Option FileChangeType → Prop
  | none => (before ↔ now) ∧ (touched → ¬before)
  | some .added => ¬before ∧ now
  | some .updated => before ∧ now ∧ touched
  | some .deleted => before ∧ ¬now

theorem NetEffect.congr {before now now' touched touched' : Prop}
    (net : NetEffect before now touched effect)
    (sameNow : now ↔ now') (sameTouched : touched ↔ touched') :
    NetEffect before now' touched' effect := by
  rw [← propext sameNow, ← propext sameTouched]
  exact net

section

variable {before now touched : Prop} (net : NetEffect before now touched effect)

include net

theorem NetEffect.merge_added (absent : ¬now) :
    NetEffect before True True (merge effect .added) := by
  match effect with
  | none => exact ⟨fun isBefore => absent (net.1.mp isBefore), trivial⟩
  | some .added => exact absurd net.2 absent
  | some .updated => exact absurd net.2.1 absent
  | some .deleted => exact ⟨net.1, trivial, trivial⟩

theorem NetEffect.merge_updated (isNow : now) :
    NetEffect before now True (merge effect .updated) := by
  match effect with
  | none => exact ⟨net.1.mpr isNow, isNow, trivial⟩
  | some .added => exact net
  | some .updated => exact ⟨net.1, isNow, trivial⟩
  | some .deleted => exact absurd isNow net.2

theorem NetEffect.merge_deleted (isNow : now) :
    NetEffect before False True (merge effect .deleted) := by
  match effect with
  | none => exact ⟨net.1.mpr isNow, id⟩
  | some .added => exact ⟨⟨net.1, False.elim⟩, fun _ => net.1⟩
  | some .updated => exact ⟨net.1, id⟩
  | some .deleted => exact absurd isNow net.2

theorem NetEffect.added_iff : effect = some .added ↔ ¬before ∧ now := by
  match effect with
  | none => exact ⟨nofun, fun both => absurd (net.1.mpr both.2) both.1⟩
  | some .added => exact ⟨fun _ => net, fun _ => rfl⟩
  | some .updated => exact ⟨nofun, fun both => absurd net.1 both.1⟩
  | some .deleted => exact ⟨nofun, fun both => absurd net.1 both.1⟩

theorem NetEffect.updated_iff : effect = some .updated ↔ before ∧ now ∧ touched := by
  match effect with
  | none => exact ⟨nofun, fun all => absurd all.1 (net.2 all.2.2)⟩
  | some .added => exact ⟨nofun, fun all => absurd all.1 net.1⟩
  | some .updated => exact ⟨fun _ => net, fun _ => rfl⟩
  | some .deleted => exact ⟨nofun, fun all => absurd all.2.1 net.2⟩

theorem NetEffect.deleted_iff : effect = some .deleted ↔ before ∧ ¬now := by
  match effect with
  | none => exact ⟨nofun, fun both => absurd (net.1.mp both.1) both.2⟩
  | some .added => exact ⟨nofun, fun both => absurd both.1 net.1⟩
  | some .updated => exact ⟨nofun, fun both => absurd net.2.1 both.2⟩
  | some .deleted => exact ⟨fun _ => net, fun _ => rfl⟩

end

/-! ## The state of the coalescer -/

namespace EventCoalescer

variable {coalescer : EventCoalescer} {event : IFileChange}

/-- The path of a change object. -/
def pathOf (platform : Platform) (coalescer : EventCoalescer) (reference : Nat) : Option Text :=
  (coalescer.objects[reference]?).map (·.fsPath platform)

/-- The set and the map hold the same objects, at most one for a path. -/
structure WellFormed (platform : Platform) (coalescer : EventCoalescer) : Prop where
  nodup : coalescer.coalesced.Nodup
  held : ∀ reference ∈ coalescer.coalesced, reference < coalescer.objects.length
  map_iff : ∀ path reference, coalescer.mapPathToChange.get? path = some reference ↔
    reference ∈ coalescer.coalesced ∧ coalescer.pathOf platform reference = some path

/-- The net effect that the coalescer keeps for a path. -/
def effect (coalescer : EventCoalescer) (path : Text) : Option FileChangeType :=
  (coalescer.existing? path).map fun existing => existing.2.type

theorem wellFormed_new : WellFormed platform .new where
  nodup := .nil
  held := fun _ mem => absurd mem not_mem_nil
  map_iff := by
    intro path reference
    constructor
    · intro isHere
      cases isHere
    · rintro ⟨mem, -⟩
      cases mem

variable {reference : Nat} {path : Text}

theorem existing?_eq_some_iff : coalescer.existing? path = some (reference, event) ↔
      coalescer.mapPathToChange.get? path = some reference ∧
        coalescer.objects[reference]? = some event := by
  rw [existing?, bind_eq_some_iff]
  constructor
  · rintro ⟨reference', isHere, isObject⟩
    obtain ⟨event', found, same⟩ := map_eq_some_iff.mp isObject
    cases same
    exact ⟨isHere, found⟩
  · rintro ⟨isHere, isObject⟩
    exact ⟨reference, isHere, by rw [isObject, map_some]⟩

theorem WellFormed.existing?_eq_none_iff (wellFormed : coalescer.WellFormed platform) :
    coalescer.existing? path = none ↔ coalescer.mapPathToChange.get? path = none := by
  constructor
  · intro absent
    cases isHere : coalescer.mapPathToChange.get? path with
    | none => rfl
    | some reference =>
      have inside := wellFormed.held _ ((wellFormed.map_iff _ _).mp isHere).1
      rw [existing?_eq_some_iff.mpr ⟨isHere, getElem?_eq_getElem inside⟩] at absent
      cases absent
  · intro absent
    rw [existing?, absent, bind_none]

/-- The effects are those of the objects that the map leads to. -/
theorem effect_eq (path : Text) :
    coalescer.effect path = (coalescer.mapPathToChange.get? path).bind fun reference =>
      (coalescer.objects[reference]?).map IFileChange.type := by
  rw [effect, existing?]
  cases coalescer.mapPathToChange.get? path with
  | none => rfl
  | some reference =>
    rw [Option.bind_some, Option.bind_some, Option.map_map]
    rfl

theorem WellFormed.getElem?_meet (wellFormed : coalescer.WellFormed platform)
    (isHere : coalescer.mapPathToChange.get? path = some reference) :
    (coalescer.meet event).objects[reference]? = coalescer.objects[reference]? :=
  getElem?_append_left (wellFormed.held _ ((wellFormed.map_iff _ _).mp isHere).1)

theorem WellFormed.meet (wellFormed : coalescer.WellFormed platform) (event : IFileChange) :
    (coalescer.meet event).WellFormed platform where
  nodup := wellFormed.nodup
  held := by
    intro reference mem
    rw [EventCoalescer.meet, length_append]
    exact Nat.lt_add_right _ (wellFormed.held reference mem)
  map_iff := by
    intro path reference
    show coalescer.mapPathToChange.get? path = _ ↔ reference ∈ coalescer.coalesced ∧ _
    rw [wellFormed.map_iff]
    apply and_congr_right
    intro mem
    rw [pathOf, pathOf, EventCoalescer.meet, getElem?_append_left (wellFormed.held reference mem)]

theorem WellFormed.effect_meet (wellFormed : coalescer.WellFormed platform)
    (event : IFileChange) (path : Text) :
    (coalescer.meet event).effect path = coalescer.effect path := by
  rw [effect_eq, effect_eq]
  show (coalescer.mapPathToChange.get? path).bind _ = _
  cases isHere : coalescer.mapPathToChange.get? path with
  | none => rfl
  | some reference => rw [bind_some, bind_some, wellFormed.getElem?_meet isHere]

theorem toKey_of_linux (linux : platform.isLinux = true) :
    toKey platform event = event.fsPath platform := by
  rw [toKey, if_pos linux]

/-- A new object is added for a path that has none. -/
theorem WellFormed.keepEvent (linux : platform.isLinux = true)
    (wellFormed : coalescer.WellFormed platform)
    (isObject : coalescer.objects[reference]? = some event)
    (absent : coalescer.mapPathToChange.get? (event.fsPath platform) = none) :
    (coalescer.keepEvent platform reference event).WellFormed platform ∧
      ∀ path, (coalescer.keepEvent platform reference event).effect path =
        if path = event.fsPath platform then some event.type else coalescer.effect path := by
  have isPath : coalescer.pathOf platform reference = some (event.fsPath platform) := by
    rw [pathOf, isObject, map_some]
  have found : ∀ path, (coalescer.keepEvent platform reference event).mapPathToChange.get? path =
      if path = event.fsPath platform then some reference
      else coalescer.mapPathToChange.get? path := by
    intro path
    rw [EventCoalescer.keepEvent, toKey_of_linux linux, Dictionary.get?_set]
  constructor
  · constructor
    · exact nodup_addElement wellFormed.nodup reference
    · intro other mem
      cases mem_addElement.mp mem with
      | inl same =>
        rw [same]
        exact (List.getElem?_eq_some_iff.mp isObject).1
      | inr old => exact wellFormed.held other old
    · intro path other
      rw [found]
      show _ ↔ other ∈ addElement coalescer.coalesced reference ∧
        coalescer.pathOf platform other = some path
      rw [mem_addElement]
      by_cases isKey : path = event.fsPath platform
      · rw [if_pos isKey, some_inj]
        constructor
        · rintro rfl
          exact ⟨.inl rfl, by rw [isPath, isKey]⟩
        · rintro ⟨same | old, hasPath⟩
          · exact same.symm
          · rw [isKey] at hasPath
            rw [(wellFormed.map_iff _ _).mpr ⟨old, hasPath⟩] at absent
            cases absent
      · rw [if_neg isKey, wellFormed.map_iff]
        apply and_congr_left
        intro hasPath
        refine ⟨.inr, ?_⟩
        rintro (same | old)
        · rw [same, isPath] at hasPath
          exact absurd (Option.some.inj hasPath).symm isKey
        · exact old
  · intro path
    rw [effect_eq, effect_eq, found]
    split_ifs with isKey
    · show (coalescer.objects[reference]?).map _ = _
      rw [isObject, map_some]
    · rfl

/-- The object of a path gets another type. -/
theorem WellFormed.setType (wellFormed : coalescer.WellFormed platform)
    (isHere : coalescer.existing? path = some (reference, event)) (type : FileChangeType) :
    (coalescer.setType reference event type).WellFormed platform ∧
      ∀ other, (coalescer.setType reference event type).effect other =
        if other = path then some type else coalescer.effect other := by
  obtain ⟨found, isObject⟩ := existing?_eq_some_iff.mp isHere
  have inside := (List.getElem?_eq_some_iff.mp isObject).1
  have object : ∀ other, (coalescer.setType reference event type).objects[other]? =
      if other = reference then some { event with type } else coalescer.objects[other]? := by
    intro other
    rw [EventCoalescer.setType, List.getElem?_set]
    by_cases same : reference = other
    · rw [if_pos same, if_pos inside, if_pos same.symm]
    · rw [if_neg same, if_neg (Ne.symm same)]
  have samePath : ∀ other, (coalescer.setType reference event type).pathOf platform other =
      coalescer.pathOf platform other := by
    intro other
    rw [pathOf, pathOf, object]
    split_ifs with same
    · rw [same, isObject]
      rfl
    · rfl
  constructor
  · constructor
    · exact wellFormed.nodup
    · intro other mem
      rw [EventCoalescer.setType, List.length_set]
      exact wellFormed.held other mem
    · intro other reference'
      rw [samePath]
      exact wellFormed.map_iff other reference'
  · intro other
    rw [effect_eq, effect_eq]
    show (coalescer.mapPathToChange.get? other).bind _ = _
    by_cases isPath : other = path
    · rw [if_pos isPath, isPath, found, bind_some, object, if_pos rfl, map_some]
    · rw [if_neg isPath]
      cases isOther : coalescer.mapPathToChange.get? other with
      | none => rfl
      | some reference' =>
        have apart : reference' ≠ reference := by
          rintro rfl
          have first := ((wellFormed.map_iff _ _).mp found).2
          have second := ((wellFormed.map_iff _ _).mp isOther).2
          exact isPath (Option.some.inj (second.symm.trans first))
        rw [bind_some, bind_some, object, if_neg apart]

/-- The object of a path leaves the set and the map. -/
theorem WellFormed.drop (linux : platform.isLinux = true)
    (wellFormed : coalescer.WellFormed platform)
    (found : coalescer.mapPathToChange.get? (event.fsPath platform) = some reference) :
    EventCoalescer.WellFormed platform { coalescer with
          mapPathToChange := coalescer.mapPathToChange.erase (toKey platform event)
          coalesced := coalescer.coalesced.erase reference } ∧
      ∀ path, EventCoalescer.effect { coalescer with
          mapPathToChange := coalescer.mapPathToChange.erase (toKey platform event)
          coalesced := coalescer.coalesced.erase reference } path =
        if path = event.fsPath platform then none else coalescer.effect path := by
  rw [toKey_of_linux linux]
  constructor
  · constructor
    · exact wellFormed.nodup.erase reference
    · intro other mem
      exact wellFormed.held other (mem_of_mem_erase mem)
    · intro path other
      show (coalescer.mapPathToChange.erase _).get? path = _ ↔
        other ∈ coalescer.coalesced.erase reference ∧ coalescer.pathOf platform other = _
      rw [Dictionary.get?_erase, wellFormed.nodup.mem_erase_iff, and_assoc, ← wellFormed.map_iff]
      by_cases isKey : path = event.fsPath platform
      · rw [if_pos isKey, isKey, found]
        constructor
        · intro isHere
          cases isHere
        · rintro ⟨apart, same⟩
          exact absurd (Option.some.inj same).symm apart
      · rw [if_neg isKey]
        constructor
        · intro isHere
          refine ⟨?_, isHere⟩
          rintro rfl
          have first := ((wellFormed.map_iff _ _).mp found).2
          have second := ((wellFormed.map_iff _ _).mp isHere).2
          exact isKey (Option.some.inj (second.symm.trans first))
        · exact And.right
  · intro path
    rw [effect_eq, effect_eq]
    show ((coalescer.mapPathToChange.erase _).get? path).bind _ = _
    rw [Dictionary.get?_erase]
    split_ifs
    · rfl
    · rfl

/-- The object of a path has this path. -/
theorem WellFormed.fsPath_of_existing (wellFormed : coalescer.WellFormed platform)
    (isHere : coalescer.existing? path = some (reference, event)) :
    event.fsPath platform = path := by
  obtain ⟨found, isObject⟩ := existing?_eq_some_iff.mp isHere
  have isPath := ((wellFormed.map_iff _ _).mp found).2
  rw [pathOf, isObject, map_some] at isPath
  exact Option.some.inj isPath

/-- An event is merged into the net effect that the object of its path stands for. -/
theorem WellFormed.processExisting (linux : platform.isLinux = true)
    (wellFormed : coalescer.WellFormed platform) {existingEvent : IFileChange}
    (isHere : coalescer.existing? (event.fsPath platform) = some (reference, existingEvent))
    (fresh : Nat) :
    (coalescer.processExisting platform reference existingEvent fresh event).WellFormed platform ∧
      ∀ path, (coalescer.processExisting platform reference existingEvent fresh event).effect path =
        if path = event.fsPath platform then merge (some existingEvent.type) event.type
        else coalescer.effect path := by
  have samePath := wellFormed.fsPath_of_existing isHere
  unfold EventCoalescer.processExisting
  rw [if_neg fun both => both.1 samePath]
  split_ifs with undone again same
  · rw [undone.1, undone.2]
    exact wellFormed.drop linux (existing?_eq_some_iff.mp isHere).1
  · rw [again.1, again.2]
    exact wellFormed.setType isHere .updated
  · refine ⟨wellFormed, ?_⟩
    intro path
    split_ifs with isPath
    · rw [isPath, effect, isHere, map_some, same.1, same.2]
      rfl
    · rfl
  · have merged : merge (some existingEvent.type) event.type = some event.type := by
      revert undone again same
      cases existingEvent.type <;> cases event.type <;> simp [merge]
    rw [merged]
    exact wellFormed.setType isHere event.type

/-- The coalescer merges the event into the net effect on its path. -/
theorem WellFormed.processEvent (linux : platform.isLinux = true)
    (wellFormed : coalescer.WellFormed platform) (event : IFileChange) :
    (coalescer.processEvent platform event).WellFormed platform ∧
      ∀ path, (coalescer.processEvent platform event).effect path =
        if path = event.fsPath platform then
          merge (coalescer.effect (event.fsPath platform)) event.type
        else coalescer.effect path := by
  have met := wellFormed.meet event
  simp only [← wellFormed.effect_meet event]
  unfold EventCoalescer.processEvent
  rw [toKey_of_linux linux]
  cases isHere : (coalescer.meet event).existing? (event.fsPath platform) with
  | none =>
    have isObject : (coalescer.meet event).objects[coalescer.objects.length]? = some event :=
      getElem?_concat_length
    have noEffect : (coalescer.meet event).effect (event.fsPath platform) = none := by
      rw [effect, isHere, map_none]
    rw [noEffect]
    exact met.keepEvent linux isObject (met.existing?_eq_none_iff.mp isHere)
  | some existing =>
    have isEffect : (coalescer.meet event).effect (event.fsPath platform) =
        some existing.2.type := by
      rw [effect, isHere, map_some]
    rw [isEffect]
    exact met.processExisting linux isHere coalescer.objects.length

/-- What the coalescer keeps behind a list of events. -/
structure Tracks (platform : Platform) (initial : Set Text) (changes : List IFileChange)
    (coalescer : EventCoalescer) : Prop where
  wellFormed : coalescer.WellFormed platform
  net : ∀ path, NetEffect (path ∈ initial) (path ∈ afterEvents platform initial changes)
    (∃ event ∈ changes, event.fsPath platform = path) (coalescer.effect path)

theorem tracks_new (platform : Platform) (initial : Set Text) :
    Tracks platform initial [] .new where
  wellFormed := wellFormed_new
  net := fun path => ⟨Iff.rfl, fun touched => by simp at touched⟩

theorem Tracks.processEvent (linux : platform.isLinux = true)
    (tracks : Tracks platform initial changes coalescer)
    (allowed : Allowed platform (afterEvents platform initial changes) event) :
    Tracks platform initial (changes ++ [event]) (coalescer.processEvent platform event) := by
  obtain ⟨wellFormed', effect'⟩ := tracks.wellFormed.processEvent linux event
  refine ⟨wellFormed', ?_⟩
  intro path
  have net := tracks.net path
  have isAfter : afterEvents platform initial (changes ++ [event]) =
      afterEvent platform (afterEvents platform initial changes) event := by
    rw [afterEvents, foldl_append]
    rfl
  rw [effect', isAfter]
  split_ifs with isPath
  · subst isPath
    have touched : (∃ other ∈ changes ++ [event], other.fsPath platform = event.fsPath platform) ↔
        True := iff_true_intro ⟨event, by simp, rfl⟩
    cases isType : event.type with
    | added =>
      rw [Allowed, isType] at allowed
      apply (net.merge_added allowed).congr _ touched.symm
      rw [afterEvent, isType]
      exact (iff_true_intro (Set.mem_insert _ _)).symm
    | updated =>
      rw [Allowed, isType] at allowed
      apply (net.merge_updated allowed).congr _ touched.symm
      rw [afterEvent, isType]
    | deleted =>
      rw [Allowed, isType] at allowed
      apply (net.merge_deleted allowed).congr _ touched.symm
      rw [afterEvent, isType]
      exact (iff_false_intro fun mem => mem.2 rfl).symm
  · apply net.congr
    · rw [afterEvent]
      cases event.type with
      | added => exact (Set.mem_insert_iff.trans (or_iff_right isPath)).symm
      | updated => exact Iff.rfl
      | deleted => exact ⟨fun mem => ⟨mem, isPath⟩, And.left⟩
    · constructor
      · rintro ⟨other, mem, same⟩
        exact ⟨other, mem_append_left _ mem, same⟩
      · rintro ⟨other, mem, same⟩
        cases mem_append.mp mem with
        | inl old => exact ⟨other, old, same⟩
        | inr new =>
          rw [mem_singleton.mp new] at same
          exact absurd same.symm isPath

/-- The net effects behind a consistent list of events. -/
theorem Tracks.run (linux : platform.isLinux = true)
    (tracks : Tracks platform initial changes coalescer)
    (consistent : Consistent platform (afterEvents platform initial changes) more) :
    Tracks platform initial (changes ++ more)
      (more.foldl (EventCoalescer.processEvent platform) coalescer) := by
  induction more generalizing changes coalescer with
  | nil =>
    rw [append_nil]
    exact tracks
  | cons event more ih =>
    obtain ⟨allowed, rest⟩ := consistent
    have step := tracks.processEvent linux allowed
    have isAfter : afterEvents platform initial (changes ++ [event]) =
        afterEvent platform (afterEvents platform initial changes) event := by
      rw [afterEvents, foldl_append]
      rfl
    rw [← isAfter] at rest
    rw [append_cons]
    exact ih step rest

/-! ## What is reported -/

/-- An object in the set stands for the net effect on its path. -/
theorem WellFormed.exists_events_iff (wellFormed : coalescer.WellFormed platform)
    {type : FileChangeType} :
    (∃ event ∈ coalescer.events, event.fsPath platform = path ∧ event.type = type) ↔
      coalescer.effect path = some type := by
  rw [effect, map_eq_some_iff]
  constructor
  · rintro ⟨event, mem, isPath, isType⟩
    obtain ⟨reference, inside, isObject⟩ := mem_filterMap.mp mem
    refine ⟨(reference, event), existing?_eq_some_iff.mpr ⟨?_, isObject⟩, isType⟩
    rw [wellFormed.map_iff, pathOf, isObject, map_some, isPath]
    exact ⟨inside, rfl⟩
  · rintro ⟨⟨reference, event⟩, isHere, isType⟩
    obtain ⟨found, isObject⟩ := existing?_eq_some_iff.mp isHere
    have inside := ((wellFormed.map_iff _ _).mp found).1
    exact ⟨event, mem_filterMap.mpr ⟨reference, inside, isObject⟩,
      wellFormed.fsPath_of_existing isHere, isType⟩

theorem WellFormed.nodup_events (wellFormed : coalescer.WellFormed platform) :
    (coalescer.events.map (·.fsPath platform)).Nodup := by
  rw [List.Nodup, pairwise_map, events, pairwise_filterMap]
  apply wellFormed.nodup.imp_of_mem
  intro first second inFirst inSecond apart event isFirst event' isSecond same
  have isPath : coalescer.pathOf platform first = some (event.fsPath platform) := by
    rw [pathOf, isFirst, map_some]
  have isPath' : coalescer.pathOf platform second = some (event.fsPath platform) := by
    rw [pathOf, isSecond, map_some, same]
  have here := (wellFormed.map_iff _ _).mpr ⟨inFirst, isPath⟩
  have here' := (wellFormed.map_iff _ _).mpr ⟨inSecond, isPath'⟩
  exact apart (Option.some.inj (here.symm.trans here'))

variable {deletedPaths : List Text} {deletions : List IFileChange}

theorem withoutDeletedParents_sublist (deletedPaths : List Text) (deletions : List IFileChange) :
    (withoutDeletedParents platform deletedPaths deletions).Sublist deletions := by
  induction deletions generalizing deletedPaths with
  | nil => exact List.Sublist.refl _
  | cons e rest ih =>
    rw [withoutDeletedParents]
    split_ifs
    · exact (ih _).cons e
    · exact (ih _).cons_cons e

/-- A deletion is kept, or a parent is deleted. -/
theorem kept_or_below (deletedPaths : List Text) {e : IFileChange} (mem : e ∈ deletions) :
    e ∈ withoutDeletedParents platform deletedPaths deletions ∨ ∃ deletedPath ∈ deletedPaths ++
          (withoutDeletedParents platform deletedPaths deletions).map (·.fsPath platform),
        isParent platform (e.fsPath platform) deletedPath (!platform.isLinux) := by
  induction deletions generalizing deletedPaths with
  | nil => cases mem
  | cons first rest ih =>
    rw [withoutDeletedParents]
    split_ifs with below
    · cases mem_cons.mp mem with
      | inl same =>
        obtain ⟨deletedPath, inside, isBelow⟩ := any_eq_true.mp below
        rw [same]
        exact .inr ⟨deletedPath, mem_append_left _ inside, isBelow⟩
      | inr behind => exact ih deletedPaths behind
    · cases mem_cons.mp mem with
      | inl same => exact .inl (same ▸ mem_cons_self)
      | inr behind =>
        cases ih (deletedPaths ++ [first.fsPath platform]) behind with
        | inl kept => exact .inl (.tail _ kept)
        | inr isBelow =>
          rw [append_assoc] at isBelow
          exact .inr isBelow

/-- A kept deletion is not below a path that was deleted before. -/
theorem not_below_deletedPaths (deletedPaths : List Text) {e : IFileChange}
    (kept : e ∈ withoutDeletedParents platform deletedPaths deletions) :
    ∀ deletedPath ∈ deletedPaths,
      ¬isParent platform (e.fsPath platform) deletedPath (!platform.isLinux) := by
  induction deletions generalizing deletedPaths with
  | nil => cases kept
  | cons first rest ih =>
    rw [withoutDeletedParents] at kept
    intro deletedPath inside isBelow
    split_ifs at kept with below
    · exact ih deletedPaths kept deletedPath inside isBelow
    · cases mem_cons.mp kept with
      | inl same =>
        rw [same] at isBelow
        exact below (any_eq_true.mpr ⟨deletedPath, inside, isBelow⟩)
      | inr behind =>
        exact ih _ behind deletedPath (mem_append_left _ inside) isBelow

/-- A kept deletion is not below one that was kept before. -/
theorem pairwise_withoutDeletedParents (deletedPaths : List Text) (deletions : List IFileChange) :
    (withoutDeletedParents platform deletedPaths deletions).Pairwise fun first second =>
      ¬isParent platform (second.fsPath platform) (first.fsPath platform) (!platform.isLinux) := by
  induction deletions generalizing deletedPaths with
  | nil => exact .nil
  | cons first rest ih =>
    rw [withoutDeletedParents]
    split_ifs
    · exact ih deletedPaths
    · refine .cons ?_ (ih _)
      intro second kept
      exact not_below_deletedPaths _ kept _ (by simp)

end EventCoalescer

/-- A path is below another one. -/
def Below (platform : Platform) (path ancestor : Text) : Prop :=
  ancestor ≠ [] ∧ path ≠ ancestor ∧ withSeparator platform ancestor <+: path

theorem prefix_withSeparator (platform : Platform) (candidate : Text) :
    candidate <+: withSeparator platform candidate := by
  rw [withSeparator]
  split_ifs
  · exact prefix_append _ _
  · exact prefix_refl _

theorem Below.length_lt (below : Below platform path ancestor) : ancestor.length < path.length := by
  obtain ⟨-, apart, starts⟩ := below
  have isPrefix := (prefix_withSeparator platform ancestor).trans starts
  apply lt_of_le_of_ne isPrefix.length_le
  intro same
  exact apart (isPrefix.eq_of_length same).symm

theorem isParent_iff : isParent platform path candidate false ↔ Below platform path candidate := by
  constructor
  · intro holds
    rw [isParent, if_neg Bool.false_ne_true] at holds
    split_ifs at holds with trivial short
    rw [not_or, not_or] at trivial
    exact ⟨trivial.2.1, trivial.2.2, isPrefixOf_iff_prefix.mp holds⟩
  · intro below
    have shorter := below.length_lt
    obtain ⟨nonempty, apart, starts⟩ := below
    rw [isParent, if_neg, if_neg (not_lt.mpr shorter.le), if_neg Bool.false_ne_true]
    · exact isPrefixOf_iff_prefix.mpr starts
    · rintro (empty | empty | same)
      · rw [empty] at shorter
        cases shorter
      · exact nonempty empty
      · exact apart same

/-- The path is the path of a reported change of this type. -/
def Reported (platform : Platform) (reported : List IFileChange) (type : FileChangeType)
    (path : Text) : Prop :=
  ∃ event ∈ reported, event.fsPath platform = path ∧ event.type = type

namespace EventCoalescer

variable {coalescer : EventCoalescer}

/-- The deletions, shortest path first. -/
def sortedDeletions (platform : Platform) (coalescer : EventCoalescer) : List IFileChange :=
  (coalescer.events.filter fun e => e.type = .deleted).mergeSort fun e1 e2 =>
    (e1.fsPath platform).length ≤ (e2.fsPath platform).length

theorem coalesce_eq :
    coalescer.coalesce platform =
      withoutDeletedParents platform [] (coalescer.sortedDeletions platform) ++
        coalescer.events.filter fun e => e.type ≠ .deleted := rfl

theorem mem_sortedDeletions {e : IFileChange} :
    e ∈ coalescer.sortedDeletions platform ↔ e ∈ coalescer.events ∧ e.type = .deleted := by
  rw [sortedDeletions, mem_mergeSort, mem_filter, decide_eq_true_iff]

theorem pairwise_sortedDeletions : (coalescer.sortedDeletions platform).Pairwise fun first second =>
      (first.fsPath platform).length ≤ (second.fsPath platform).length := by
  apply (pairwise_mergeSort _ _ _).imp
  · intro first second holds
    exact decide_eq_true_iff.mp holds
  · intro first second third holds holds'
    exact decide_eq_true_iff.mpr
      ((decide_eq_true_iff.mp holds).trans (decide_eq_true_iff.mp holds'))
  · intro first second
    rw [Bool.or_eq_true, decide_eq_true_iff, decide_eq_true_iff]
    exact le_total _ _

theorem reported_iff_of_ne {type : FileChangeType} (other : type ≠ .deleted) :
    Reported platform (coalescer.coalesce platform) type path ↔
      ∃ event ∈ coalescer.events, event.fsPath platform = path ∧ event.type = type := by
  constructor
  · rintro ⟨event, mem, isPath, isType⟩
    cases mem_append.mp mem with
    | inl kept =>
      have isDeleted := (withoutDeletedParents_sublist _ _).subset kept
      exact absurd (isType.symm.trans (mem_sortedDeletions.mp isDeleted).2) other
    | inr kept => exact ⟨event, mem_of_mem_filter kept, isPath, isType⟩
  · rintro ⟨event, mem, isPath, isType⟩
    refine ⟨event, mem_append_right _ (mem_filter.mpr ⟨mem, ?_⟩), isPath, isType⟩
    rw [decide_eq_true_iff, isType]
    exact other

/-- The reported deletions are those that are kept. -/
theorem reported_deleted_iff : Reported platform (coalescer.coalesce platform) .deleted path ↔
      ∃ event ∈ withoutDeletedParents platform [] (coalescer.sortedDeletions platform),
        event.fsPath platform = path := by
  constructor
  · rintro ⟨event, mem, isPath, isType⟩
    cases mem_append.mp mem with
    | inl kept => exact ⟨event, kept, isPath⟩
    | inr kept => simp [isType] at kept
  · rintro ⟨event, kept, isPath⟩
    have isDeleted := (withoutDeletedParents_sublist _ _).subset kept
    exact ⟨event, mem_append_left _ kept, isPath, (mem_sortedDeletions.mp isDeleted).2⟩

theorem WellFormed.nodup_coalesce (wellFormed : coalescer.WellFormed platform) :
    ((coalescer.coalesce platform).map (·.fsPath platform)).Nodup := by
  have nodup := wellFormed.nodup_events
  rw [coalesce_eq, map_append, nodup_append]
  refine ⟨?_, ?_, ?_⟩
  · apply ((withoutDeletedParents_sublist _ _).map _).nodup
    rw [sortedDeletions, ((mergeSort_perm _ _).map _).nodup_iff]
    exact (filter_sublist.map _).nodup nodup
  · exact (filter_sublist.map _).nodup nodup
  · intro path inDeletions path' inOthers same
    obtain ⟨event, kept, rfl⟩ := mem_map.mp inDeletions
    obtain ⟨event', mem', rfl⟩ := mem_map.mp inOthers
    have isDeleted := mem_sortedDeletions.mp ((withoutDeletedParents_sublist _ _).subset kept)
    obtain ⟨mem, notDeleted⟩ := mem_filter.mp mem'
    have sameEvent := inj_on_of_nodup_map nodup isDeleted.1 mem same
    rw [decide_eq_true_iff, ← sameEvent] at notDeleted
    exact notDeleted isDeleted.2

/-- A deletion is reported, or one above it is. -/
theorem reported_or_below (linux : platform.isLinux = true) {e : IFileChange}
    (mem : e ∈ coalescer.events) (isDeleted : e.type = .deleted) :
    ∃ path, Reported platform (coalescer.coalesce platform) .deleted path ∧
      (path = e.fsPath platform ∨ Below platform (e.fsPath platform) path) := by
  cases kept_or_below [] (mem_sortedDeletions.mpr ⟨mem, isDeleted⟩) with
  | inl kept => exact ⟨_, reported_deleted_iff.mpr ⟨e, kept, rfl⟩, .inl rfl⟩
  | inr below =>
    obtain ⟨path, inside, isBelow⟩ := below
    obtain ⟨event, kept, isPath⟩ := mem_map.mp inside
    rw [linux, Bool.not_true, isParent_iff] at isBelow
    exact ⟨path, reported_deleted_iff.mpr ⟨event, kept, isPath⟩, .inr isBelow⟩

theorem not_below_reported (linux : platform.isLinux = true)
    (reported : Reported platform (coalescer.coalesce platform) .deleted path)
    (reported' : Reported platform (coalescer.coalesce platform) .deleted path') :
    ¬Below platform path path' := by
  obtain ⟨event, kept, rfl⟩ := reported_deleted_iff.mp reported
  obtain ⟨event', kept', rfl⟩ := reported_deleted_iff.mp reported'
  have above : (withoutDeletedParents platform [] (coalescer.sortedDeletions platform)).Pairwise
      fun first second => ¬Below platform (second.fsPath platform) (first.fsPath platform) := by
    apply (pairwise_withoutDeletedParents [] _).imp
    intro first second notParent
    rw [linux, Bool.not_true, isParent_iff] at notParent
    exact notParent
  have longer : (withoutDeletedParents platform [] (coalescer.sortedDeletions platform)).Pairwise
      fun first second => ¬Below platform (first.fsPath platform) (second.fsPath platform) := by
    apply (pairwise_sortedDeletions.sublist (withoutDeletedParents_sublist [] _)).imp
    intro first second shorter below
    exact absurd below.length_lt (not_lt.mpr shorter)
  exact List.Pairwise.forall_of_forall_of_flip (fun _ _ below => below.2.1 rfl) longer above
    kept kept'

end EventCoalescer

/-! ## The net effect -/

open EventCoalescer in
/-- On a case-sensitive platform `coalesceEvents` reports the net effect of consistent events, and
no deletion below a reported one. -/
theorem coalesceEvents_net (platform : Platform) (linux : platform.isLinux = true)
    (initial : Set Text) (changes : List IFileChange)
    (consistent : Consistent platform initial changes) :
    (∀ path, Reported platform (coalesceEvents platform changes) .added path ↔
      path ∉ initial ∧ path ∈ afterEvents platform initial changes) ∧
    (∀ path, Reported platform (coalesceEvents platform changes) .updated path ↔
      path ∈ initial ∧ path ∈ afterEvents platform initial changes ∧
        ∃ event ∈ changes, event.fsPath platform = path) ∧
    ((coalesceEvents platform changes).map (·.fsPath platform)).Nodup ∧
    (∀ path ∈ initial, path ∉ afterEvents platform initial changes →
      ∃ reported, Reported platform (coalesceEvents platform changes) .deleted reported ∧
        (reported = path ∨ Below platform path reported)) ∧
    (∀ path, Reported platform (coalesceEvents platform changes) .deleted path →
      path ∈ initial ∧ path ∉ afterEvents platform initial changes) ∧
    ∀ path path', Reported platform (coalesceEvents platform changes) .deleted path →
      Reported platform (coalesceEvents platform changes) .deleted path' →
      ¬Below platform path path' := by
  have tracks : Tracks platform initial changes
      (changes.foldl (EventCoalescer.processEvent platform) .new) :=
    (tracks_new platform initial).run linux consistent
  refine ⟨?_, ?_, tracks.wellFormed.nodup_coalesce, ?_, ?_, ?_⟩
  · intro path
    rw [coalesceEvents, reported_iff_of_ne (by decide), tracks.wellFormed.exists_events_iff,
      (tracks.net path).added_iff]
  · intro path
    rw [coalesceEvents, reported_iff_of_ne (by decide), tracks.wellFormed.exists_events_iff,
      (tracks.net path).updated_iff]
  · intro path before gone
    have isDeleted := (tracks.net path).deleted_iff.mpr ⟨before, gone⟩
    obtain ⟨event, mem, rfl, isType⟩ := tracks.wellFormed.exists_events_iff.mpr isDeleted
    exact reported_or_below linux mem isType
  · intro path reported
    obtain ⟨event, kept, rfl⟩ := reported_deleted_iff.mp reported
    obtain ⟨mem, isType⟩ := mem_sortedDeletions.mp
      ((withoutDeletedParents_sublist _ _).subset kept)
    exact (tracks.net _).deleted_iff.mp
      (tracks.wellFormed.exists_events_iff.mp ⟨event, mem, rfl, isType⟩)
  · intro path path' reported reported'
    exact not_below_reported linux reported reported'

/-- The file with a path. -/
def sampleFile (path : Text) : URI :=
  { scheme := fileScheme, authority := [], path, query := [], fragment := [] }

def linuxPlatform : Platform := { isWindows := false, isLinux := true, toLowerCase := id }

/-- `/a/b` and then `/a` are deleted, `/c` is added and changed. -/
def sampleChanges : List IFileChange :=
  [⟨.deleted, sampleFile [slash, 97, slash, 98]⟩, ⟨.deleted, sampleFile [slash, 97]⟩,
    ⟨.added, sampleFile [slash, 99]⟩, ⟨.updated, sampleFile [slash, 99]⟩]

theorem coalesceEvents_net_sample :
    Reported linuxPlatform (coalesceEvents linuxPlatform sampleChanges) .added [slash, 99] ∧
      ¬(Reported linuxPlatform (coalesceEvents linuxPlatform sampleChanges) .deleted [slash, 97] ∧
        Reported linuxPlatform (coalesceEvents linuxPlatform sampleChanges) .deleted
          [slash, 97, slash, 98]) := by
  have distinct : ([slash, 97] : Text) ≠ [slash, 97, slash, 98] ∧
      ([slash, 99] : Text) ≠ [slash, 97] ∧
      ([slash, 99] : Text) ≠ [slash, 97, slash, 98] := by decide
  have consistent : Consistent linuxPlatform {[slash, 97], [slash, 97, slash, 98]} sampleChanges :=
    ⟨.inr rfl, ⟨.inl rfl, distinct.1⟩,
      fun present => present.1.1.elim distinct.2.1 distinct.2.2, .inl rfl, trivial⟩
  obtain ⟨added, -, -, -, -, apart⟩ := coalesceEvents_net linuxPlatform rfl _ _ consistent
  constructor
  · exact (added _).mpr ⟨fun present => present.elim distinct.2.1 distinct.2.2, .inl rfl⟩
  · rintro ⟨outer, inner⟩
    exact apart _ _ inner outer ⟨cons_ne_nil _ _, distinct.1.symm, [98], rfl⟩

end CodeEditor.Watcher
