import CodeEditor.UserDataSync.ExtensionsMerge

/-!
# The passes, key by key

What a pass does for a key changes the lists and the remote map at that key only, and it adds
extensions with that key.
-/

namespace CodeEditor.UserDataSync
namespace Extensions

open List

variable {ν : Type} (toLowerCase : String → String) (uuids : Dictionary String String)

/-! ## Keys -/

/-- The last extension of a list with a key. -/
def findKey (extensions : List (ISyncExtension ν)) (key : Key) : Option (ISyncExtension ν) :=
  (extensions.filter fun extension => getKey toLowerCase uuids extension = key).getLast?

/-- The known uuids are not empty. -/
def KnownUuids : Prop := ∀ id, uuids.get? id ≠ some ""

variable {toLowerCase uuids}

theorem findKey_append (first second : List (ISyncExtension ν)) (key : Key) :
    findKey toLowerCase uuids (first ++ second) key =
      (findKey toLowerCase uuids second key).or (findKey toLowerCase uuids first key) := by
  rw [findKey, filter_append, getLast?_append]
  rfl

theorem findKey_cons (extension : ISyncExtension ν) (extensions : List (ISyncExtension ν))
    (key : Key) :
    findKey toLowerCase uuids (extension :: extensions) key =
      (findKey toLowerCase uuids extensions key).or
        (if key = getKey toLowerCase uuids extension then some extension else none) := by
  rw [← singleton_append, findKey_append]
  apply congrArg
  rw [findKey]
  by_cases isKey : key = getKey toLowerCase uuids extension
  · rw [if_pos isKey, filter_cons_of_pos (by simp [isKey])]
    rfl
  · rw [if_neg isKey, filter_cons_of_neg (by simpa using fun same => isKey same.symm)]
    rfl

variable {key : Key} {extension : ISyncExtension ν} {extensions : List (ISyncExtension ν)}

theorem getKey_of_findKey (found : findKey toLowerCase uuids extensions key = some extension) :
    extension ∈ extensions ∧ getKey toLowerCase uuids extension = key := by
  have member := mem_of_getLast? found
  simpa using member

theorem findKey_map {f : ISyncExtension ν → ISyncExtension ν}
    (keeps : ∀ extension, (f extension).identifier = extension.identifier)
    (extensions : List (ISyncExtension ν)) (key : Key) :
    findKey toLowerCase uuids (extensions.map f) key =
      (findKey toLowerCase uuids extensions key).map f := by
  have sameKey : ∀ extension, getKey toLowerCase uuids (f extension) =
      getKey toLowerCase uuids extension := by
    intro extension
    rw [getKey, getKey, keeps]
  rw [findKey, findKey, filter_map, getLast?_map]
  simp only [Function.comp_def, sameKey]

theorem findKey_filter (keeps : Key → Bool) (extensions : List (ISyncExtension ν)) (key : Key) :
    findKey toLowerCase uuids
        (extensions.filter fun extension => keeps (getKey toLowerCase uuids extension)) key =
      if keeps key then findKey toLowerCase uuids extensions key else none := by
  rw [findKey, filter_filter]
  split
  · rename_i kept
    apply congrArg
    apply filter_congr
    intro extension _
    by_cases isKey : getKey toLowerCase uuids extension = key
    · simp [isKey, kept]
    · simp [isKey]
  · rename_i dropped
    rw [getLast?_eq_none_iff, filter_eq_nil_iff]
    intro extension _
    by_cases isKey : getKey toLowerCase uuids extension = key
    · simp [isKey, dropped]
    · simp [isKey]

/-- A map of extensions holds the last one of each key. -/
theorem get?_extensionsMap (extensions : List (ISyncExtension ν)) (key : Key) :
    (extensionsMap toLowerCase uuids extensions).get? key =
      findKey toLowerCase uuids extensions key := by
  have general : ∀ map : Dictionary Key (ISyncExtension ν),
      (extensions.foldl (addExtensionToMap toLowerCase uuids) map).get? key =
        (findKey toLowerCase uuids extensions key).or (map.get? key) := by
    induction extensions with
    | nil => exact fun map => rfl
    | cons extension extensions ih =>
      intro map
      rw [foldl_cons, ih, addExtensionToMap, Dictionary.get?_set, findKey_cons, Option.or_assoc]
      apply congrArg
      split <;> rfl
  rw [extensionsMap, general, Dictionary.get?_empty, Option.or_none]

theorem isTrue_some (value : Option Bool) : isTrue (some (isTrue value)) = isTrue value := by
  simp [isTrue]

theorem truthy_some {uuid : String} (notEmpty : uuid ≠ "") : truthy (some uuid) = some uuid := by
  simp [truthy, Option.filter_some, notEmpty]

theorem ne_empty_of_truthy {value : Option String}
    (isUuid : truthy value = some uuid) : uuid ≠ "" := by
  have filtered := Option.filter_eq_some_iff.mp isUuid
  simpa using filtered.2

/-- An outgoing extension keeps its key. -/
theorem getKey_massageOutgoingExtension (known : KnownUuids uuids)
    (hasKey : getKey toLowerCase uuids extension = key) :
    getKey toLowerCase uuids (massageOutgoingExtension extension key) = key := by
  have knownUuid := known (toLowerCase extension.identifier.id)
  simp only [getKey, identifierKey, massageOutgoingExtension] at hasKey ⊢
  cases own : truthy extension.identifier.uuid with
  | some uuid =>
    rw [own] at hasKey
    subst hasKey
    simp [keyOf, truthy_some (ne_empty_of_truthy own)]
  | none =>
    rw [own, Option.none_or] at hasKey
    cases stored : uuids.get? (toLowerCase extension.identifier.id) with
    | some uuid =>
      have notEmpty : uuid ≠ "" := by
        intro empty
        rw [stored, empty] at knownUuid
        exact knownUuid rfl
      rw [stored] at hasKey
      subst hasKey
      simp [keyOf, truthy_some notEmpty]
    | none =>
      rw [stored] at hasKey
      subst hasKey
      simp [keyOf, truthy]

/-! ## One key of a draft -/

/-- What a draft holds for one key. -/
structure KeyView (ν : Type) where
  added : List (ISyncExtension ν) := []
  updated : List (ISyncExtension ν) := []
  removed : List IExtensionIdentifier := []
  remote : Option (ISyncExtension ν)

namespace KeyView

def perform (v : KeyView ν) : Effect ν → KeyView ν
  | .add extension => { v with added := v.added ++ [extension] }
  | .remove identifier => { v with removed := v.removed ++ [identifier] }
  | .update extension => { v with updated := v.updated ++ [extension] }
  | .setRemote extension => { v with remote := some extension }
  | .deleteRemote => { v with remote := none }

/-- The local extension once the changes are made. -/
def localAfter (v : KeyView ν) (before : Option (ISyncExtension ν)) :
    Option (ISyncExtension ν) :=
  v.updated.getLast?.or (v.added.getLast?.or (if v.removed = [] then before else none))

end KeyView

variable (toLowerCase uuids)

def Draft.at (d : Draft ν) (key : Key) : KeyView ν where
  added := d.localChanges.added.filter fun extension => getKey toLowerCase uuids extension = key
  updated :=
    d.localChanges.updated.filter fun extension => getKey toLowerCase uuids extension = key
  removed := d.localChanges.removed.filter fun identifier =>
    identifierKey toLowerCase uuids identifier = key
  remote := d.newRemoteExtensionsMap.get? key

/-- The key of an id, with the known uuids. -/
def idKey (id : String) : Key := keyOf toLowerCase (uuids.get? (toLowerCase id)) id

/-- The key of an identifier and of its id. -/
def HasKey (key : Key) (identifier : IExtensionIdentifier) : Prop :=
  identifierKey toLowerCase uuids identifier = key ∧ idKey toLowerCase uuids identifier.id = key

/-- An effect on extensions with a key. -/
def Effect.On (key : Key) : Effect ν → Prop
  | .add extension => HasKey toLowerCase uuids key extension.identifier
  | .remove identifier => HasKey toLowerCase uuids key identifier
  | .update extension => HasKey toLowerCase uuids key extension.identifier
  | .setRemote extension => HasKey toLowerCase uuids key extension.identifier
  | .deleteRemote => True

variable {toLowerCase uuids}

/-- An outgoing extension keeps its key. -/
theorem HasKey.massageOutgoingExtension (known : KnownUuids uuids)
    (hasKey : HasKey toLowerCase uuids key extension.identifier) :
    HasKey toLowerCase uuids key (massageOutgoingExtension extension key).identifier :=
  ⟨getKey_massageOutgoingExtension known hasKey.1, hasKey.2⟩

theorem filter_push {α : Type} {f : α → Key} (list : List α) {a : α} (hasKey : f a = key)
    (other : Key) : (list ++ [a]).filter (fun a => f a = other) =
      if other = key then list.filter (fun a => f a = key) ++ [a]
      else list.filter fun a => f a = other := by
  by_cases isKey : other = key
  · simp [isKey, hasKey]
  · simp [isKey, hasKey, Ne.symm isKey]

/-- An effect changes a draft at its key only. -/
theorem at_perform (d : Draft ν) {effect : Effect ν} (on : effect.On toLowerCase uuids key)
    (other : Key) : (d.perform key effect).at toLowerCase uuids other =
      if other = key then (d.at toLowerCase uuids key).perform effect
      else d.at toLowerCase uuids other := by
  cases effect with
  | add extension =>
    have pushed := filter_push (f := getKey toLowerCase uuids) d.localChanges.added on.1
    simp only [Draft.at, Draft.perform, KeyView.perform, pushed]
    by_cases isKey : other = key <;> simp [isKey]
  | update extension =>
    have pushed := filter_push (f := getKey toLowerCase uuids) d.localChanges.updated on.1
    simp only [Draft.at, Draft.perform, KeyView.perform, pushed]
    by_cases isKey : other = key <;> simp [isKey]
  | remove identifier =>
    simp only [Draft.at, Draft.perform, KeyView.perform, filter_push _ on.1]
    by_cases isKey : other = key <;> simp [isKey]
  | setRemote extension =>
    simp only [Draft.at, Draft.perform, KeyView.perform, Dictionary.get?_set]
    by_cases isKey : other = key <;> simp [isKey]
  | deleteRemote =>
    simp only [Draft.at, Draft.perform, KeyView.perform, Dictionary.get?_erase]
    by_cases isKey : other = key <;> simp [isKey]

theorem at_foldl_perform {effects : List (Effect ν)}
    (on : ∀ effect ∈ effects, effect.On toLowerCase uuids key) (d : Draft ν) (other : Key) :
    (effects.foldl (Draft.perform key) d).at toLowerCase uuids other =
      if other = key then effects.foldl KeyView.perform (d.at toLowerCase uuids key)
      else d.at toLowerCase uuids other := by
  induction effects generalizing d with
  | nil =>
    by_cases isKey : other = key <;> simp [isKey]
  | cons effect effects ih =>
    have onRest : ∀ effect ∈ effects, effect.On toLowerCase uuids key :=
      fun effect member => on effect (mem_cons_of_mem _ member)
    have onFirst := on effect mem_cons_self
    rw [foldl_cons, ih onRest, at_perform d onFirst, at_perform d onFirst]
    by_cases isKey : other = key <;> simp [isKey]

/-! ## Passes -/

/-- What a pass does for one key. -/
def PassAt (step : Key → Except MergeError (List (Effect ν))) (keys : List Key) (key : Key)
    (v v' : KeyView ν) : Prop :=
  if key ∈ keys then ∃ effects, step key = .ok effects ∧ v' = effects.foldl KeyView.perform v
  else v' = v

variable {step : Key → Except MergeError (List (Effect ν))} {keys : List Key}

theorem PassAt.of_mem {v v' : KeyView ν} (pass : PassAt step keys key v v') (member : key ∈ keys) :
    ∃ effects, step key = .ok effects ∧ v' = effects.foldl KeyView.perform v := by
  rwa [PassAt, if_pos member] at pass

theorem PassAt.of_notMem {v v' : KeyView ν} (pass : PassAt step keys key v v')
    (absent : key ∉ keys) : v' = v := by
  rwa [PassAt, if_neg absent] at pass

/-- The effects of a step are on extensions with its key. -/
def StepOn (toLowerCase : String → String) (uuids : Dictionary String String)
    (step : Key → Except MergeError (List (Effect ν))) : Prop :=
  ∀ key effects, step key = .ok effects → ∀ effect ∈ effects, effect.On toLowerCase uuids key

theorem PassAt.preserves (pass : PassAt step keys key v v') (on : StepOn toLowerCase uuids step)
    {inv : KeyView ν → Prop}
    (performed : ∀ v effect, effect.On toLowerCase uuids key → inv v → inv (v.perform effect))
    (holds : inv v) : inv v' := by
  by_cases member : key ∈ keys
  · obtain ⟨effects, isStep, rfl⟩ := pass.of_mem member
    have onEffects := on key effects isStep
    clear isStep pass
    induction effects generalizing v with
    | nil => exact holds
    | cons effect effects ih =>
      apply ih
      · exact performed v effect (onEffects effect mem_cons_self) holds
      · intro effect member
        exact onEffects effect (mem_cons_of_mem _ member)
  · rw [pass.of_notMem member]
    exact holds

theorem runPass_at (on : StepOn toLowerCase uuids step) (nodup : keys.Nodup) {d d' : Draft ν}
    (done : runPass step keys d = .ok d') (key : Key) :
    PassAt step keys key (d.at toLowerCase uuids key) (d'.at toLowerCase uuids key) := by
  have stepped : ∀ d d' key,
      (do let effects ← step key; return effects.foldl (Draft.perform key) d) =
        (.ok d' : Except MergeError (Draft ν)) →
      ∃ effects, step key = .ok effects ∧ effects.foldl (Draft.perform key) d = d' := by
    intro d d' key ok
    cases result : step key with
    | error e => simp [result, bind, Except.bind] at ok
    | ok effects =>
      exact ⟨effects, rfl, by simpa [result, bind, Except.bind, pure, Except.pure] using ok⟩
  apply @foldlM_view _ _ _ _ keys _ (Draft.at toLowerCase uuids) _
    (fun key v v' => ∃ effects, step key = .ok effects ∧ v' = effects.foldl KeyView.perform v)
    _ _ nodup d d' done key
  · intro d d' key _ ok
    obtain ⟨effects, isStep, isNext⟩ := stepped d d' key ok
    refine ⟨effects, isStep, ?_⟩
    rw [← isNext, at_foldl_perform (on key effects isStep), if_pos rfl]
  · intro d d' key other _ ok isOther
    obtain ⟨effects, isStep, isNext⟩ := stepped d d' key ok
    rw [← isNext, at_foldl_perform (on key effects isStep), if_neg isOther]

theorem runPass_error {d : Draft ν} {e : MergeError} (failed : runPass step keys d = .error e) :
    ∃ key ∈ keys, step key = .error e := by
  obtain ⟨d', key, member, stepFailed⟩ := foldlM_error failed
  refine ⟨key, member, ?_⟩
  cases result : step key with
  | error e' => simpa [result, bind, Except.bind] using stepFailed
  | ok effects => simp [result, bind, Except.bind, pure, Except.pure] at stepFailed

/-! ## The merged extension -/

variable {ε α β : Type}

theorem bind_ok {x : Except ε α} {f : α → Except ε β} {b : β} (ok : x >>= f = .ok b) :
    ∃ a, x = .ok a ∧ f a = .ok b := by
  cases x with
  | error e => cases ok
  | ok a => exact ⟨a, rfl, ok⟩

theorem bind_error {x : Except ε α} {f : α → Except ε β} {e : ε} (failed : x >>= f = .error e) :
    x = .error e ∨ ∃ a, x = .ok a ∧ f a = .error e := by
  cases x with
  | error e' => exact .inl (by simpa [bind, Except.bind] using failed)
  | ok a => exact .inr ⟨a, rfl, failed⟩

theorem ok_bind (a : α) (f : α → Except ε β) : Except.ok a >>= f = f a := rfl

section Merged

variable [DecidableEq ν] {gt : String → String → Option Bool}

/-- `semver.gt` does not accept the versions. -/
def Incomparable (gt : String → String → Option Bool) (first second : ISyncExtension ν) : Prop :=
  gt first.version second.version = none ∨ gt second.version first.version = none

theorem semverGt_error {first second : String} {e : MergeError}
    (failed : semverGt gt first second = .error e) :
    e = .invalidVersion ∧ gt first second = none := by
  unfold semverGt at failed
  split at failed
  · cases failed
  · rename_i none
    cases failed
    exact ⟨rfl, none⟩

theorem mergeExtensionState_error {localExtension remoteExtension : ISyncExtension ν}
    {lastSyncExtension : Option (ISyncExtension ν)} {e : MergeError}
    (failed : mergeExtensionState gt localExtension remoteExtension lastSyncExtension = .error e) :
    e = .invalidVersion ∧ Incomparable gt localExtension remoteExtension := by
  have first := @semverGt_error gt localExtension.version remoteExtension.version
  have second := @semverGt_error gt remoteExtension.version localExtension.version
  unfold mergeExtensionState at failed
  unfold Incomparable
  by_cases noVersion : remoteExtension.version = ""
  · simp [noVersion, pure, Except.pure] at failed
  · cases localState : localExtension.state <;> cases remoteState : remoteExtension.state <;>
      cases greater : semverGt gt localExtension.version remoteExtension.version <;>
      cases smaller : semverGt gt remoteExtension.version localExtension.version <;>
      simp [noVersion, localState, remoteState, greater, smaller, bind, Except.bind, pure,
        Except.pure] at failed <;> grind

omit [DecidableEq ν] in
theorem mergedVersion_error {side localExtension remoteExtension : ISyncExtension ν}
    {e : MergeError} (failed : mergedVersion gt side localExtension remoteExtension = .error e) :
    e = .invalidVersion ∧ Incomparable gt localExtension remoteExtension := by
  unfold mergedVersion at failed
  split_ifs at failed
  obtain comparisonFailed | ⟨isGreater, -, returned⟩ := bind_error failed
  · obtain ⟨isInvalid, incomparable⟩ := semverGt_error comparisonFailed
    exact ⟨isInvalid, .inr incomparable⟩
  · cases returned

variable {lastSyncExtensionsMap : Option (Dictionary Key (ISyncExtension ν))}

theorem mergeExtension_error {localExtension remoteExtension preferred : ISyncExtension ν}
    {e : MergeError}
    (failed : mergeExtension gt lastSyncExtensionsMap key localExtension remoteExtension
      preferred = .error e) :
    e = .invalidVersion ∧ Incomparable gt localExtension remoteExtension := by
  unfold mergeExtension at failed
  obtain versionFailed | ⟨version, -, stateFailed⟩ := bind_error failed
  · exact mergedVersion_error versionFailed
  · obtain mergeFailed | ⟨state, -, returned⟩ := bind_error stateFailed
    · exact mergeExtensionState_error mergeFailed
    · cases returned

/-- The merged extension is the preferred one, and it is installed where one of both is. -/
theorem mergeExtension_ok {localExtension remoteExtension preferred merged : ISyncExtension ν}
    (ok : mergeExtension gt lastSyncExtensionsMap key localExtension remoteExtension
      preferred = .ok merged) : merged.identifier = preferred.identifier ∧
      (isTrue merged.installed = true ↔
        isTrue localExtension.installed = true ∨ isTrue remoteExtension.installed = true) := by
  unfold mergeExtension at ok
  obtain ⟨version, -, ok⟩ := bind_ok ok
  obtain ⟨state, -, ok⟩ := bind_ok ok
  cases ok
  refine ⟨rfl, ?_⟩
  by_cases installed : isTrue localExtension.installed = true
  · simp [installed]
  · simp [installed]

end Merged

/-! ## The steps -/

section Steps

variable [DecidableEq ν] {gt : String → String → Option Bool}
  {localExtensionsMap remoteExtensionsMap skippedExtensionsMap :
    Dictionary Key (ISyncExtension ν)}
  {lastSyncExtensionsMap : Option (Dictionary Key (ISyncExtension ν))}
  {lastSyncBuiltinExtensions : Option (List Key)}
  {localToRemote baseToLocal baseToRemote : KeyComparison Key}

/-- A map holds its extensions under their keys. -/
def Keyed (toLowerCase : String → String) (uuids : Dictionary String String)
    (map : Dictionary Key (ISyncExtension ν)) : Prop :=
  ∀ key extension, map.get? key = some extension →
    HasKey toLowerCase uuids key extension.identifier

omit [DecidableEq ν] in
theorem keyed_extensionsMap
    (sameKey : ∀ extension ∈ extensions, idKey toLowerCase uuids extension.identifier.id =
      getKey toLowerCase uuids extension) :
    Keyed toLowerCase uuids (extensionsMap toLowerCase uuids extensions) := by
  intro key extension found
  rw [get?_extensionsMap] at found
  obtain ⟨member, hasKey⟩ := getKey_of_findKey found
  exact ⟨hasKey, (sameKey extension member).trans hasKey⟩

omit [DecidableEq ν] in
theorem assertIsDefined_ok {α : Type} {value : Option α} {a : α}
    (ok : assertIsDefined value = .ok a) : value = some a := by
  cases value with
  | none => cases ok
  | some value =>
    cases ok
    rfl

section On

variable (known : KnownUuids uuids) (localKeyed : Keyed toLowerCase uuids localExtensionsMap)
  (remoteKeyed : Keyed toLowerCase uuids remoteExtensionsMap)

include localKeyed in
omit [DecidableEq ν] in
theorem removedInRemote_on :
    StepOn toLowerCase uuids (removedInRemote localExtensionsMap lastSyncExtensionsMap
      lastSyncBuiltinExtensions) := by
  intro key effects ok effect member
  unfold removedInRemote at ok
  cases found : localExtensionsMap.get? key with
  | none =>
    simp only [found] at ok
    cases ok
    cases member
  | some localExtension =>
    simp only [found] at ok
    obtain ⟨baseExtension, -, ok⟩ := bind_ok ok
    have hasKey := localKeyed key localExtension found
    split at ok
    all_goals
      cases ok
      cases mem_singleton.mp member
      exact hasKey

include known remoteKeyed in
theorem addedInRemote_on :
    StepOn toLowerCase uuids (addedInRemote gt localExtensionsMap remoteExtensionsMap
      lastSyncExtensionsMap localToRemote) := by
  intro key effects ok effect member
  unfold addedInRemote at ok
  obtain ⟨remoteExtension, inRemote, ok⟩ := bind_ok ok
  have hasKey := remoteKeyed key remoteExtension (assertIsDefined_ok inRemote)
  cases found : localExtensionsMap.get? key with
  | some localExtension =>
    simp only [found] at ok
    split at ok
    · obtain ⟨merged, isMerged, ok⟩ := bind_ok ok
      have mergedKey := (mergeExtension_ok isMerged).1 ▸ hasKey
      split at ok
      · cases ok
        cases mem_singleton.mp member
        exact mergedKey
      · cases ok
        simp only [mem_cons, not_mem_nil, or_false] at member
        obtain rfl | rfl := member
        · exact mergedKey.massageOutgoingExtension known
        · exact mergedKey
    · cases ok
      cases member
  | none =>
    simp only [found] at ok
    split at ok
    · cases ok
      cases mem_singleton.mp member
      exact hasKey.massageOutgoingExtension known
    · cases ok
      cases member

include known localKeyed remoteKeyed in
theorem updatedInRemote_on :
    StepOn toLowerCase uuids (updatedInRemote gt localExtensionsMap remoteExtensionsMap
      lastSyncExtensionsMap lastSyncBuiltinExtensions) := by
  intro key effects ok effect member
  unfold updatedInRemote at ok
  obtain ⟨remoteExtension, inRemote, ok⟩ := bind_ok ok
  obtain ⟨baseExtension, -, ok⟩ := bind_ok ok
  have hasKey := remoteKeyed key remoteExtension (assertIsDefined_ok inRemote)
  cases found : localExtensionsMap.get? key with
  | some localExtension =>
    simp only [found] at ok
    split at ok
    · cases ok
      cases mem_singleton.mp member
      exact localKeyed key localExtension found
    · obtain ⟨merged, isMerged, ok⟩ := bind_ok ok
      have mergedKey := (mergeExtension_ok isMerged).1 ▸ hasKey
      cases ok
      simp only [mem_cons, not_mem_nil, or_false] at member
      obtain rfl | rfl := member
      · exact mergedKey.massageOutgoingExtension known
      · exact mergedKey
  | none =>
    simp only [found] at ok
    split at ok
    · cases ok
      cases mem_singleton.mp member
      exact hasKey.massageOutgoingExtension known
    · cases ok
      cases member

include localKeyed in
omit [DecidableEq ν] in
theorem addedInLocal_on :
    StepOn toLowerCase uuids (addedInLocal localExtensionsMap baseToRemote) := by
  intro key effects ok effect member
  unfold addedInLocal at ok
  split at ok
  · cases ok
    cases member
  · obtain ⟨localExtension, inLocal, ok⟩ := bind_ok ok
    cases ok
    cases mem_singleton.mp member
    exact localKeyed key localExtension (assertIsDefined_ok inLocal)

include localKeyed in
theorem updatedInLocal_on :
    StepOn toLowerCase uuids (updatedInLocal gt localExtensionsMap remoteExtensionsMap
      lastSyncExtensionsMap baseToRemote) := by
  intro key effects ok effect member
  unfold updatedInLocal at ok
  split at ok
  · cases ok
    cases member
  · split at ok
    · cases ok
      cases member
    · obtain ⟨localExtension, inLocal, ok⟩ := bind_ok ok
      obtain ⟨remoteExtension, -, ok⟩ := bind_ok ok
      obtain ⟨merged, isMerged, ok⟩ := bind_ok ok
      cases ok
      cases mem_singleton.mp member
      have isLocal := (mergeExtension_ok isMerged).1
      rw [Effect.On, isLocal]
      exact localKeyed key localExtension (assertIsDefined_ok inLocal)

end On

omit [DecidableEq ν] in
theorem removedInLocal_on :
    StepOn toLowerCase uuids (removedInLocal remoteExtensionsMap skippedExtensionsMap
      lastSyncExtensionsMap lastSyncBuiltinExtensions baseToRemote) := by
  intro key effects ok effect member
  have onlyDeletes : effects = [] ∨ effects = [.deleteRemote] := by
    unfold removedInLocal at ok
    split_ifs at ok
    all_goals try exact .inl (by cases ok; rfl)
    obtain ⟨remoteExtension, -, ok⟩ := bind_ok ok
    split at ok
    · exact .inl (by cases ok; rfl)
    · split at ok
      · exact .inl (by cases ok; rfl)
      · split at ok
        · exact .inl (by cases ok; rfl)
        · obtain ⟨baseExtension, -, ok⟩ := bind_ok ok
          split at ok
          · exact .inl (by cases ok; rfl)
          · exact .inr (by cases ok; rfl)
  obtain rfl | rfl := onlyDeletes
  · cases member
  · cases mem_singleton.mp member
    trivial

end Steps

end Extensions
end CodeEditor.UserDataSync
