import CodeEditor.UserDataSync.ExtensionsDecisions

/-!
# Convergence of extensions

After a merge, an extension that counts is installed locally only where it is installed in
remote, and installed in remote only where it is present locally.
-/

namespace CodeEditor.UserDataSync
namespace Extensions

open List

variable {ν : Type} {toLowerCase : String → String} {uuids : Dictionary String String}

/-! ## Known uuids -/

section Uuids

variable (toLowerCase : String → String)

/-- Each id has at most one uuid. -/
def Consistent (identifiers : List IExtensionIdentifier) : Prop :=
  ∀ first ∈ identifiers, ∀ second ∈ identifiers,
    toLowerCase first.id = toLowerCase second.id → ∀ uuid other,
      truthy first.uuid = some uuid → truthy second.uuid = some other → uuid = other

variable {toLowerCase}

theorem addUUID_get? (uuids : Dictionary String String) (identifier : IExtensionIdentifier)
    (id : String) :
    (addUUID toLowerCase uuids identifier).get? id =
      if id = toLowerCase identifier.id then (truthy identifier.uuid).or (uuids.get? id)
      else uuids.get? id := by
  unfold addUUID
  cases truthy identifier.uuid with
  | none => simp
  | some uuid =>
    rw [Dictionary.get?_set]
    split <;> simp

variable {identifiers : List IExtensionIdentifier}

/-- A known uuid was collected. -/
theorem collected_of_get? {id uuid : String}
    (found : (identifiers.foldl (addUUID toLowerCase) uuids).get? id = some uuid) :
    uuids.get? id = some uuid ∨ ∃ identifier ∈ identifiers,
      toLowerCase identifier.id = id ∧ truthy identifier.uuid = some uuid := by
  induction identifiers generalizing uuids with
  | nil => exact .inl found
  | cons identifier identifiers ih =>
    obtain before | ⟨other, member, isOther⟩ := ih found
    · rw [addUUID_get?] at before
      split at before
      · rename_i isId
        cases own : truthy identifier.uuid with
        | none =>
          rw [own, Option.none_or] at before
          exact .inl before
        | some uuid' =>
          rw [own, Option.some_or] at before
          cases before
          exact .inr ⟨identifier, mem_cons_self, isId.symm, own⟩
      · exact .inl before
    · exact .inr ⟨other, mem_cons_of_mem _ member, isOther⟩

/-- The uuid of every identifier is collected. -/
theorem isSome_get?_of_mem {uuids : Dictionary String String} {id : String}
    (collected : (uuids.get? id).isSome ∨ ∃ identifier ∈ identifiers,
      toLowerCase identifier.id = id ∧ (truthy identifier.uuid).isSome) :
    ((identifiers.foldl (addUUID toLowerCase) uuids).get? id).isSome := by
  induction identifiers generalizing uuids with
  | nil => simpa using collected
  | cons identifier identifiers ih =>
    apply ih
    rw [addUUID_get?]
    obtain before | ⟨other, member, isId, isSome⟩ := collected
    · left
      split
      · simp [before]
      · exact before
    · obtain rfl | member := mem_cons.mp member
      · left
        rw [if_pos isId.symm, Option.isSome_or, isSome, Bool.true_or]
      · exact .inr ⟨other, member, isId, isSome⟩

variable {identifiers : List IExtensionIdentifier}

theorem knownUuids_collectUuids : KnownUuids (collectUuids toLowerCase identifiers) := by
  intro id found
  obtain before | ⟨identifier, -, -, isUuid⟩ := collected_of_get? found
  · simp at before
  · exact ne_empty_of_truthy isUuid rfl

/-- With consistent identifiers, the key of an identifier is that of its id. -/
theorem idKey_eq (consistent : Consistent toLowerCase identifiers)
    {identifier : IExtensionIdentifier} (member : identifier ∈ identifiers) :
    idKey toLowerCase (collectUuids toLowerCase identifiers) identifier.id =
      identifierKey toLowerCase (collectUuids toLowerCase identifiers) identifier := by
  unfold idKey identifierKey
  cases own : truthy identifier.uuid with
  | none => rw [Option.none_or]
  | some uuid =>
    have isKnown : ((collectUuids toLowerCase identifiers).get?
        (toLowerCase identifier.id)).isSome :=
      isSome_get?_of_mem (.inr ⟨identifier, member, rfl, by rw [own]; rfl⟩)
    obtain ⟨other, found⟩ := Option.isSome_iff_exists.mp isKnown
    obtain before | ⟨second, inList, sameId, isUuid⟩ := collected_of_get? found
    · simp at before
    · rw [found, Option.some_or,
        consistent identifier member second inList sameId.symm uuid other own isUuid]

end Uuids

/-! ## Convergence -/

section Convergence

variable (toLowerCase : String → String) (uuids : Dictionary String String)

/-- The local list once the changes are made. -/
def IMergeResult.localAfter (r : IMergeResult ν) (localExtensions : List (ISyncExtension ν)) :
    List (ISyncExtension ν) :=
  localExtensions.filter (fun extension => getKey toLowerCase uuids extension ∉
    r.localChanges.removed.map (identifierKey toLowerCase uuids)) ++
      r.localChanges.added ++ r.localChanges.updated

/-- The remote list, replaced where there are changes. -/
def IMergeResult.remoteAfter (r : IMergeResult ν)
    (remoteExtensions : Option (List (ISyncExtension ν))) : List (ISyncExtension ν) :=
  match r.remoteChanges with
  | some changes => changes.all
  | none => remoteExtensions.getD []

/-- One of the ignored extensions has the id. -/
def IsIgnored (ignoredExtensions : List String) (id : String) : Prop :=
  ∃ ignored ∈ ignoredExtensions, toLowerCase ignored = toLowerCase id

/-- What a merge promises. -/
structure Converges (localExtensions : List (ISyncExtension ν))
    (remoteExtensions : Option (List (ISyncExtension ν)))
    (skippedExtensions : List (ISyncExtension ν)) (ignoredExtensions : List String)
    (lastSyncBuiltinExtensions : List IExtensionIdentifier) (r : IMergeResult ν) : Prop where
  /-- No ignored extension is added, updated or removed locally. -/
  ignoredInLocal :
    (∀ extension ∈ r.localChanges.added ++ r.localChanges.updated,
      ¬IsIgnored toLowerCase ignoredExtensions extension.identifier.id) ∧
    ∀ identifier ∈ r.localChanges.removed,
      ¬IsIgnored toLowerCase ignoredExtensions identifier.id
  /-- Nor is it remotely. -/
  ignoredInRemote : ∀ changes, r.remoteChanges = some changes →
    ∀ extension ∈ changes.added ++ changes.updated ++ changes.removed,
      ¬IsIgnored toLowerCase ignoredExtensions extension.identifier.id
  /-- The remote entry of an ignored extension is kept, in the outgoing form where the list is
  replaced. -/
  ignoredKept : ∀ remoteList, remoteExtensions = some remoteList → ∀ extension ∈ remoteList,
    IsIgnored toLowerCase ignoredExtensions extension.identifier.id →
    let key := getKey toLowerCase uuids extension
    findKey toLowerCase uuids (r.remoteAfter remoteExtensions) key =
      if r.remoteChanges.isSome then
        (findKey toLowerCase uuids remoteList key).map fun entry =>
          massageOutgoingExtension (massageIncomingExtension entry) key
      else findKey toLowerCase uuids remoteList key
  settled : ∀ key, key ∉ ignoredExtensionsSet toLowerCase uuids ignoredExtensions →
    key ∉ skippedExtensions.map (getKey toLowerCase uuids) →
    key ∉ lastSyncBuiltinExtensionsSet toLowerCase uuids lastSyncBuiltinExtensions →
    Settled (findKey toLowerCase uuids (r.localAfter toLowerCase uuids localExtensions) key)
      (findKey toLowerCase uuids (r.remoteAfter remoteExtensions) key)

variable {toLowerCase uuids}

theorem mem_ignoredExtensionsSet {key : Key} :
    key ∈ ignoredExtensionsSet toLowerCase uuids ignoredExtensions ↔
      ∃ id ∈ ignoredExtensions, idKey toLowerCase uuids id = key := by
  have isFold : ignoredExtensionsSet toLowerCase uuids ignoredExtensions =
      (ignoredExtensions.map (idKey toLowerCase uuids)).foldl addElement [] := by
    rw [foldl_map]
    rfl
  rw [isFold, mem_foldl_addElement, mem_map]
  simp

theorem idKey_congr (same : toLowerCase first = toLowerCase second) :
    idKey toLowerCase uuids first = idKey toLowerCase uuids second := by
  rw [idKey, idKey, same]
  unfold keyOf
  rw [same]

theorem isIgnored_mem {id : String} (isIgnored : IsIgnored toLowerCase ignoredExtensions id) :
    idKey toLowerCase uuids id ∈ ignoredExtensionsSet toLowerCase uuids ignoredExtensions := by
  obtain ⟨ignored, member, same⟩ := isIgnored
  exact mem_ignoredExtensionsSet.mpr ⟨ignored, member, idKey_congr same⟩

theorem mem_keys_extensionsMap {extensions : List (ISyncExtension ν)} {key : Key} :
    key ∈ (extensionsMap toLowerCase uuids extensions).keys ↔
      key ∈ extensions.map (getKey toLowerCase uuids) := by
  rw [Dictionary.mem_keys_iff, get?_extensionsMap, findKey, getLast?_isSome, mem_map]
  simp [filter_eq_nil_iff]

/-- The local list, seen at a key. -/
theorem findKey_localAfter (d : Draft ν) (remoteChanges : Option (RemoteChanges ν))
    (localExtensions : List (ISyncExtension ν)) (key : Key) :
    findKey toLowerCase uuids (IMergeResult.localAfter toLowerCase uuids
        ⟨d.localChanges, remoteChanges⟩ localExtensions) key =
      (d.at toLowerCase uuids key).localAfter (findKey toLowerCase uuids localExtensions key) := by
  have removed : (d.at toLowerCase uuids key).removed = [] ↔
      key ∉ d.localChanges.removed.map (identifierKey toLowerCase uuids) := by
    simp [Draft.at, filter_eq_nil_iff]
  rw [IMergeResult.localAfter, findKey_append, findKey_append]
  rw [findKey_filter fun key =>
    decide (key ∉ d.localChanges.removed.map (identifierKey toLowerCase uuids))]
  rw [KeyView.localAfter]
  simp only [removed, decide_eq_true_eq]
  rfl

/-- The outgoing list, seen at a key. -/
theorem findKey_all (known : KnownUuids uuids) {map : Dictionary Key (ISyncExtension ν)}
    (keyed : Keyed toLowerCase uuids map) (key : Key) :
    findKey toLowerCase uuids
        (map.entries.map fun entry => massageOutgoingExtension entry.2 entry.1) key =
      (map.get? key).map fun extension => massageOutgoingExtension extension key := by
  have entryKey : ∀ entry ∈ map.entries,
      getKey toLowerCase uuids (massageOutgoingExtension entry.2 entry.1) = entry.1 := by
    intro entry member
    exact getKey_massageOutgoingExtension known
      (keyed entry.1 entry.2 (Dictionary.get?_of_mem member)).1
  have nodup := map.nodup
  rw [Dictionary.get?]
  generalize map.entries = entries at entryKey nodup
  induction entries with
  | nil => rfl
  | cons entry entries ih =>
    rw [map_cons, nodup_cons] at nodup
    rw [map_cons, findKey_cons, entryKey entry mem_cons_self, lookup_cons,
      ih (fun entry member => entryKey entry (mem_cons_of_mem _ member)) nodup.2]
    by_cases isKey : key = entry.1
    · have missing : entries.lookup key = none := by
        rw [← Option.not_isSome_iff_eq_none, Dictionary.lookup_isSome_iff, isKey]
        exact nodup.1
      rw [missing, isKey]
      simp
    · have differs : (key == entry.1) = false := by simpa using isKey
      rw [differs, if_neg isKey, Option.or_none]

/-- Whether an extension is installed. -/
def isInstalled (extension : Option (ISyncExtension ν)) : Option Bool :=
  extension.map fun extension => isTrue extension.installed

theorem settled_iff {localExtension remoteExtension : Option (ISyncExtension ν)} :
    Settled localExtension remoteExtension ↔
      (isInstalled localExtension = some true → isInstalled remoteExtension = some true) ∧
      (isInstalled remoteExtension = some true → isInstalled localExtension ≠ none) := by
  constructor
  · intro settled
    constructor
    · intro installed
      obtain ⟨extension, isLocal, isTrue⟩ := Option.map_eq_some_iff.mp installed
      obtain ⟨other, isRemote, otherTrue⟩ := settled.toRemote extension isLocal isTrue
      exact Option.map_eq_some_iff.mpr ⟨other, isRemote, otherTrue⟩
    · intro installed
      obtain ⟨extension, isRemote, isTrue⟩ := Option.map_eq_some_iff.mp installed
      have present := settled.toLocal extension isRemote isTrue
      rw [isInstalled, ne_eq, Option.map_eq_none_iff]
      exact Option.isSome_iff_ne_none.mp present
  · rintro ⟨toRemote, toLocal⟩
    constructor
    · intro extension isLocal isTrue
      have installed := toRemote (Option.map_eq_some_iff.mpr ⟨extension, isLocal, isTrue⟩)
      exact Option.map_eq_some_iff.mp installed
    · intro extension isRemote isTrue
      have present := toLocal (Option.map_eq_some_iff.mpr ⟨extension, isRemote, isTrue⟩)
      rw [isInstalled, ne_eq, Option.map_eq_none_iff] at present
      exact Option.isSome_iff_ne_none.mpr present

theorem Settled.congr {first second third fourth : Option (ISyncExtension ν)}
    (settled : Settled first second) (inLocal : isInstalled first = isInstalled third)
    (inRemote : isInstalled second = isInstalled fourth) : Settled third fourth := by
  rw [settled_iff] at settled ⊢
  rwa [inLocal, inRemote] at settled

theorem settled_self (extension : Option (ISyncExtension ν)) : Settled extension extension := by
  rw [settled_iff]
  constructor
  · exact id
  · intro installed missing
    rw [missing] at installed
    cases installed

theorem isInstalled_massageIncomingExtension (extension : Option (ISyncExtension ν)) :
    isInstalled (extension.map massageIncomingExtension) = isInstalled extension := by
  cases extension with
  | none => rfl
  | some extension =>
    simp only [isInstalled, Option.map_some, massageIncomingExtension, isTrue_some]

theorem isInstalled_localAfter (v : KeyView ν) (same : isInstalled first = isInstalled second) :
    isInstalled (v.localAfter first) = isInstalled (v.localAfter second) := by
  unfold KeyView.localAfter
  cases v.updated.getLast? with
  | some extension => rfl
  | none =>
    cases v.added.getLast? with
    | some extension => rfl
    | none =>
      split
      · exact same
      · rfl

theorem areSame_self [DecidableEq ν] (checkVersionProperty checkInstalledProperty : Bool)
    (extension : ISyncExtension ν) :
    areSame checkVersionProperty checkInstalledProperty extension extension = true := by
  have sameState : isSameExtensionState extension.state extension.state = true := by
    unfold isSameExtensionState compareExtensionState
    rw [isEmpty_compareKeys]
    intro key _
    refine ⟨rfl, ?_⟩
    unfold differAt
    cases valueIn (some (extension.state.getD .empty)) key <;> simp
  simp [areSame, sameState]

/-! ### A finished draft -/

section Finished

variable [DecidableEq ν]

/-- What is known about each key of a finished draft. -/
structure Finished (toLowerCase : String → String) (uuids : Dictionary String String)
    (localExtensionsMap remoteExtensionsMap : Dictionary Key (ISyncExtension ν))
    (ignored skipped builtin : List Key) (d : Draft ν) : Prop where
  ofIgnored : ∀ key ∈ ignored,
    d.at toLowerCase uuids key = { remote := remoteExtensionsMap.get? key }
  settled : ∀ key, key ∉ ignored → key ∉ skipped → key ∉ builtin →
    Settled ((d.at toLowerCase uuids key).localAfter (localExtensionsMap.get? key))
      (d.newRemoteExtensionsMap.get? key)
  added : ∀ extension ∈ d.localChanges.added ++ d.localChanges.updated,
    HasKey toLowerCase uuids (getKey toLowerCase uuids extension) extension.identifier
  removed : ∀ identifier ∈ d.localChanges.removed,
    HasKey toLowerCase uuids (identifierKey toLowerCase uuids identifier) identifier
  keyed : Keyed toLowerCase uuids d.newRemoteExtensionsMap

/-- Everything in a view has its key. -/
structure KeyView.Keyed (toLowerCase : String → String) (uuids : Dictionary String String)
    (key : Key) (v : KeyView ν) : Prop where
  added : ∀ extension ∈ v.added ++ v.updated, HasKey toLowerCase uuids key extension.identifier
  removed : ∀ identifier ∈ v.removed, HasKey toLowerCase uuids key identifier
  remote : ∀ extension, v.remote = some extension →
    HasKey toLowerCase uuids key extension.identifier

omit [DecidableEq ν] in
theorem KeyView.Keyed.perform {v : KeyView ν}
    (keyed : v.Keyed toLowerCase uuids key) {effect : Effect ν}
    (on : effect.On toLowerCase uuids key) : (v.perform effect).Keyed toLowerCase uuids key := by
  obtain ⟨added, removed, remote⟩ := keyed
  cases effect with
  | add extension => exact ⟨by simp_all [KeyView.perform, Effect.On]; grind, removed, remote⟩
  | update extension => exact ⟨by simp_all [KeyView.perform, Effect.On]; grind, removed, remote⟩
  | remove identifier => exact ⟨added, by simp_all [KeyView.perform, Effect.On]; grind, remote⟩
  | setRemote extension => exact ⟨added, removed, by simp_all [KeyView.perform, Effect.On]⟩
  | deleteRemote => exact ⟨added, removed, by simp [KeyView.perform]⟩

omit [DecidableEq ν] in
/-- A draft all of whose views are keyed. -/
theorem keyed_draft {d : Draft ν}
    (keyed : ∀ key, (d.at toLowerCase uuids key).Keyed toLowerCase uuids key) :
    (∀ extension ∈ d.localChanges.added ++ d.localChanges.updated,
      HasKey toLowerCase uuids (getKey toLowerCase uuids extension) extension.identifier) ∧
    (∀ identifier ∈ d.localChanges.removed,
      HasKey toLowerCase uuids (identifierKey toLowerCase uuids identifier) identifier) ∧
    Extensions.Keyed toLowerCase uuids d.newRemoteExtensionsMap := by
  refine ⟨?_, ?_, ?_⟩
  · intro extension member
    apply (keyed (getKey toLowerCase uuids extension)).added
    simpa [Draft.at] using member
  · intro identifier member
    apply (keyed (identifierKey toLowerCase uuids identifier)).removed
    simpa [Draft.at] using member
  · intro key
    exact (keyed key).remote

variable {gt : String → String → Option Bool}
  {localExtensionsMap remoteExtensionsMap skippedExtensionsMap :
    Dictionary Key (ISyncExtension ν)}
  {lastSyncExtensionsMap : Option (Dictionary Key (ISyncExtension ν))} {ignored builtin : List Key}

/-- Without differences between local and remote, nothing is to be done. -/
theorem finished_of_same (remoteKeyed : Keyed toLowerCase uuids remoteExtensionsMap)
    (same : (compare ignored false (some localExtensionsMap)
      (some remoteExtensionsMap)).isEmpty = true) :
    Finished toLowerCase uuids localExtensionsMap remoteExtensionsMap ignored
      skippedExtensionsMap.keys builtin ⟨{}, remoteExtensionsMap⟩ where
  ofIgnored := fun key _ => rfl
  settled := by
    intro key notIgnored _ _
    obtain ⟨present, noDifference⟩ := isEmpty_compareKeys.mp same key notIgnored
    change Settled (localExtensionsMap.get? key) (remoteExtensionsMap.get? key)
    cases inLocal : localExtensionsMap.get? key with
    | none =>
      cases inRemote : remoteExtensionsMap.get? key with
      | none => exact settled_self none
      | some remoteExtension => simp [inLocal, inRemote] at present
    | some localExtension =>
      cases inRemote : remoteExtensionsMap.get? key with
      | none => simp [inLocal, inRemote] at present
      | some remoteExtension =>
        have areSame : areSame false true localExtension remoteExtension = true := by
          simpa [differAt, inLocal, inRemote] using noDifference
        apply settled_present
        rw [installed_eq_of_areSame areSame]
        exact id
  added := by simp
  removed := by simp
  keyed := remoteKeyed

theorem finished_of_runPasses (known : KnownUuids uuids)
    (localKeyed : Keyed toLowerCase uuids localExtensionsMap)
    (remoteKeyed : Keyed toLowerCase uuids remoteExtensionsMap)
    (done : runPasses gt localExtensionsMap remoteExtensionsMap skippedExtensionsMap
      lastSyncExtensionsMap (some builtin)
      (compare ignored false (some localExtensionsMap) (some remoteExtensionsMap))
      (compare ignored false lastSyncExtensionsMap (some localExtensionsMap))
      (compare ignored true lastSyncExtensionsMap (some remoteExtensionsMap))
      ⟨{}, remoteExtensionsMap⟩ = .ok d) :
    Finished toLowerCase uuids localExtensionsMap remoteExtensionsMap ignored
      skippedExtensionsMap.keys builtin d := by
  have run := runPasses_at known localKeyed remoteKeyed (nodup_compare ignored false _ _)
    (nodup_compare ignored true _ _) done
  have keyed : ∀ key, (d.at toLowerCase uuids key).Keyed toLowerCase uuids key := by
    intro key
    apply (run key).preserves known localKeyed remoteKeyed
    · intro v effect on keyed
      exact keyed.perform on
    · exact ⟨by simp [Draft.at], by simp [Draft.at], remoteKeyed key⟩
  obtain ⟨added, removed, remote⟩ := keyed_draft keyed
  constructor
  · intro key isIgnored
    exact (run key).of_ignored isIgnored
  · intro key notIgnored notSkipped notBuiltin
    exact (run key).settled notIgnored notSkipped notBuiltin
  · exact added
  · exact removed
  · exact remote

end Finished

/-! ### The merge -/

section Merge

variable [DecidableEq ν] {gt : String → String → Option Bool}
  {localExtensions remoteExtensions : List (ISyncExtension ν)}
  {lastSyncExtensions : Option (List (ISyncExtension ν))}
  {skippedExtensions : List (ISyncExtension ν)} {ignoredExtensions : List String}
  {lastSyncBuiltinExtensions : List IExtensionIdentifier}

omit [DecidableEq ν] in
theorem get?_incomingMap (extensions : List (ISyncExtension ν)) (key : Key) :
    (extensionsMap toLowerCase uuids (extensions.map massageIncomingExtension)).get? key =
      (findKey toLowerCase uuids extensions key).map massageIncomingExtension := by
  rw [get?_extensionsMap, findKey_map]
  exact fun extension => rfl

section RemoteResult

variable {remoteMap newRemoteMap : Dictionary Key (ISyncExtension ν)}

/-- An extension in the remote changes is under a key that was changed. -/
theorem changed_of_mem_remoteResult (isChanges : remoteResult remoteMap newRemoteMap = some changes)
    {extension : ISyncExtension ν}
    (member : extension ∈ changes.added ++ changes.updated ++ changes.removed) :
    ∃ key, (newRemoteMap.get? key = some extension ∨ remoteMap.get? key = some extension) ∧
      newRemoteMap.get? key ≠ remoteMap.get? key := by
  unfold remoteResult at isChanges
  dsimp only at isChanges
  split at isChanges
  · cases isChanges
  · cases isChanges
    simp only [mem_append, mem_filterMap, mem_added, mem_removed, mem_updated,
      valueIn_some] at member
    obtain (⟨key, ⟨-, missing, -⟩, found⟩ | ⟨key, ⟨-, differ⟩, found⟩) |
      ⟨key, ⟨-, -, missing⟩, found⟩ := member
    · exact ⟨key, .inl found, by simp [found, missing]⟩
    · refine ⟨key, .inl found, ?_⟩
      intro same
      rw [differAt, valueIn_some, valueIn_some, ← same, found] at differ
      simp [areSame_self] at differ
    · exact ⟨key, .inr found, by simp [found, missing]⟩

theorem findKey_remoteAfter (known : KnownUuids uuids)
    (keyed : Keyed toLowerCase uuids newRemoteMap) (localChanges : LocalChanges ν)
    (remoteExtensions : List (ISyncExtension ν)) (key : Key) :
    findKey toLowerCase uuids (IMergeResult.remoteAfter
        ⟨localChanges, remoteResult remoteMap newRemoteMap⟩ (some remoteExtensions)) key =
      if (remoteResult remoteMap newRemoteMap).isSome then
        (newRemoteMap.get? key).map fun extension => massageOutgoingExtension extension key
      else findKey toLowerCase uuids remoteExtensions key := by
  unfold IMergeResult.remoteAfter remoteResult
  by_cases empty : (compare [] true (some remoteMap) (some newRemoteMap)).isEmpty = true
  · simp [empty]
  · simp only [empty, Bool.false_eq_true, if_false, Option.isSome_some, if_true]
    exact findKey_all known keyed key

/-- Without remote changes, the same extensions are installed. -/
theorem isInstalled_of_remoteResult_none
    (noChanges : remoteResult remoteMap newRemoteMap = none) (key : Key) :
    isInstalled (newRemoteMap.get? key) = isInstalled (remoteMap.get? key) := by
  unfold remoteResult at noChanges
  dsimp only at noChanges
  split at noChanges
  · rename_i empty
    obtain ⟨present, same⟩ := isEmpty_compareKeys.mp empty key not_mem_nil
    cases before : remoteMap.get? key <;> cases after : newRemoteMap.get? key <;>
      simp [before, after, differAt] at present same ⊢
    rw [isInstalled, isInstalled, Option.map_some, Option.map_some, installed_eq_of_areSame same]
  · cases noChanges

end RemoteResult

omit [DecidableEq ν] in
theorem isInstalled_massageOutgoingExtension (extension : Option (ISyncExtension ν)) (key : Key) :
    isInstalled (extension.map fun extension => massageOutgoingExtension extension key) =
      isInstalled extension := by
  cases extension with
  | none => rfl
  | some extension => simp [isInstalled]

/-- The lists of a result, from a finished draft. -/
theorem Finished.converges (known : KnownUuids uuids) (sameKey : ∀ extension ∈ remoteExtensions,
      idKey toLowerCase uuids extension.identifier.id = getKey toLowerCase uuids extension)
    (remoteKeyed : Keyed toLowerCase uuids remoteExtensionsMap)
    (finished : Finished toLowerCase uuids localExtensionsMap remoteExtensionsMap
      (ignoredExtensionsSet toLowerCase uuids ignoredExtensions)
      (extensionsMap toLowerCase uuids skippedExtensions).keys
      (lastSyncBuiltinExtensionsSet toLowerCase uuids lastSyncBuiltinExtensions) d)
    (isLocal : ∀ key, localExtensionsMap.get? key =
      (findKey toLowerCase uuids localExtensions key).map massageIncomingExtension)
    (isRemote : ∀ key, remoteExtensionsMap.get? key =
      (findKey toLowerCase uuids remoteExtensions key).map massageIncomingExtension) :
    Converges toLowerCase uuids localExtensions (some remoteExtensions) skippedExtensions
      ignoredExtensions lastSyncBuiltinExtensions
      ⟨d.localChanges, remoteResult remoteExtensionsMap d.newRemoteExtensionsMap⟩ := by
  -- an ignored id has an ignored key, where nothing was done
  have ofIgnored : ∀ key id, idKey toLowerCase uuids id = key →
      IsIgnored toLowerCase ignoredExtensions id →
      d.at toLowerCase uuids key = { remote := remoteExtensionsMap.get? key } := by
    intro key id isKey isIgnored
    apply finished.ofIgnored
    rw [← isKey]
    exact isIgnored_mem isIgnored
  have remoteOfIgnored : ∀ key id, idKey toLowerCase uuids id = key →
      IsIgnored toLowerCase ignoredExtensions id →
      d.newRemoteExtensionsMap.get? key = remoteExtensionsMap.get? key :=
    fun key id isKey isIgnored => congrArg KeyView.remote (ofIgnored key id isKey isIgnored)
  constructor
  · constructor
    · intro extension member isIgnored
      have hasKey := finished.added extension member
      have unchanged := ofIgnored _ _ hasKey.2 isIgnored
      rw [mem_append] at member
      obtain member | member := member
      · have inView : extension ∈
            (d.at toLowerCase uuids (getKey toLowerCase uuids extension)).added := by
          simpa [Draft.at] using member
        rw [unchanged] at inView
        cases inView
      · have inView : extension ∈
            (d.at toLowerCase uuids (getKey toLowerCase uuids extension)).updated := by
          simpa [Draft.at] using member
        rw [unchanged] at inView
        cases inView
    · intro identifier member isIgnored
      have unchanged := ofIgnored _ _ (finished.removed identifier member).2 isIgnored
      have inView : identifier ∈
          (d.at toLowerCase uuids (identifierKey toLowerCase uuids identifier)).removed := by
        simpa [Draft.at] using member
      rw [unchanged] at inView
      cases inView
  · intro changes isChanges extension member isIgnored
    obtain ⟨key, found, changed⟩ := changed_of_mem_remoteResult isChanges member
    apply changed
    obtain found | found := found
    · exact remoteOfIgnored key _ (finished.keyed key extension found).2 isIgnored
    · exact remoteOfIgnored key _ (remoteKeyed key extension found).2 isIgnored
  · rintro remoteList ⟨⟩ extension member isIgnored
    have kept := remoteOfIgnored _ _ (sameKey extension member) isIgnored
    simp only [findKey_remoteAfter known finished.keyed, kept, isRemote, Option.map_map]
    rfl
  · intro key notIgnored notSkipped notBuiltin
    rw [← mem_keys_extensionsMap] at notSkipped
    rw [findKey_localAfter, findKey_remoteAfter known finished.keyed]
    apply (finished.settled key notIgnored notSkipped notBuiltin).congr
    · apply isInstalled_localAfter
      rw [isLocal, isInstalled_massageIncomingExtension]
    · split
      · rw [isInstalled_massageOutgoingExtension]
      · rename_i noChanges
        rw [Option.not_isSome_iff_eq_none] at noChanges
        rw [isInstalled_of_remoteResult_none noChanges, isRemote,
          isInstalled_massageIncomingExtension]

/-- The merge with a remote list converges. -/
theorem mergeWith_converges (known : KnownUuids uuids)
    (sameKey : ∀ extension ∈ localExtensions ++ remoteExtensions,
      idKey toLowerCase uuids extension.identifier.id = getKey toLowerCase uuids extension)
    (ok : mergeWith toLowerCase gt uuids localExtensions remoteExtensions lastSyncExtensions
      skippedExtensions ignoredExtensions (some lastSyncBuiltinExtensions) = .ok r) :
    Converges toLowerCase uuids localExtensions (some remoteExtensions) skippedExtensions
      ignoredExtensions lastSyncBuiltinExtensions r := by
  have localKeyed : Keyed toLowerCase uuids
      (extensionsMap toLowerCase uuids (localExtensions.map massageIncomingExtension)) := by
    apply keyed_extensionsMap
    simp only [forall_mem_map]
    exact fun extension member => sameKey extension (mem_append_left _ member)
  have remoteKeyed : Keyed toLowerCase uuids
      (extensionsMap toLowerCase uuids (remoteExtensions.map massageIncomingExtension)) := by
    apply keyed_extensionsMap
    simp only [forall_mem_map]
    exact fun extension member => sameKey extension (mem_append_right _ member)
  unfold mergeWith at ok
  obtain ⟨d, isDraft, ok⟩ := bind_ok ok
  cases ok
  apply Finished.converges known _ remoteKeyed _ (get?_incomingMap localExtensions)
    (get?_incomingMap remoteExtensions)
  · exact fun extension member => sameKey extension (mem_append_right _ member)
  · unfold mergeMaps at isDraft
    dsimp only at isDraft
    split at isDraft
    · rename_i same
      cases isDraft
      exact finished_of_same remoteKeyed same
    · exact finished_of_runPasses known localKeyed remoteKeyed isDraft

/-- Where it fails, the versions of two extensions cannot be compared. -/
theorem mergeWith_error
    (failed : mergeWith toLowerCase gt uuids localExtensions remoteExtensions lastSyncExtensions
      skippedExtensions ignoredExtensions builtin = .error e) :
    e = .invalidVersion ∧ ∃ localExtension ∈ localExtensions,
      ∃ remoteExtension ∈ remoteExtensions, Incomparable gt localExtension remoteExtension := by
  unfold mergeWith at failed
  obtain failed | ⟨d, -, returned⟩ := bind_error failed
  · unfold mergeMaps at failed
    dsimp only at failed
    split at failed
    · cases failed
    · obtain ⟨isInvalid, key, first, second, inLocal, inRemote, incomparable⟩ :=
        runPasses_error failed
      rw [get?_incomingMap, Option.map_eq_some_iff] at inLocal inRemote
      obtain ⟨localExtension, foundLocal, rfl⟩ := inLocal
      obtain ⟨remoteExtension, foundRemote, rfl⟩ := inRemote
      exact ⟨isInvalid, localExtension, (getKey_of_findKey foundLocal).1, remoteExtension,
        (getKey_of_findKey foundRemote).1, incomparable⟩
  · cases returned

omit [DecidableEq ν] in
/-- The first sync uploads what is not ignored. -/
theorem converges_first (sameKey : ∀ extension ∈ localExtensions,
      idKey toLowerCase uuids extension.identifier.id = getKey toLowerCase uuids extension)
    {remote : List (ISyncExtension ν)}
    (isRemote : remote = localExtensions.filter fun extension =>
      ignoredExtensions.all fun id => toLowerCase id ≠ toLowerCase extension.identifier.id) :
    Converges toLowerCase uuids localExtensions none skippedExtensions ignoredExtensions
      lastSyncBuiltinExtensions
      ⟨{}, if remote.length > 0 then
        some { added := remote, updated := [], removed := [], all := remote } else none⟩ := by
  have mem_remote : ∀ extension, extension ∈ remote ↔ extension ∈ localExtensions ∧
      ¬IsIgnored toLowerCase ignoredExtensions extension.identifier.id := by
    intro extension
    rw [isRemote, mem_filter]
    simp [IsIgnored]
  have remoteAfter : IMergeResult.remoteAfter (⟨{}, if remote.length > 0 then
      some { added := remote, updated := [], removed := [], all := remote } else none⟩ :
        IMergeResult ν) none = remote := by
    unfold IMergeResult.remoteAfter
    cases remote with
    | nil => rfl
    | cons extension remote => rfl
  constructor
  · simp
  · intro changes isChanges extension member
    split at isChanges
    · cases isChanges
      simp only [append_nil, mem_remote] at member
      exact member.2
    · cases isChanges
  · intro remoteList isList
    cases isList
  · intro key notIgnored _ _
    have found : findKey toLowerCase uuids remote key =
        findKey toLowerCase uuids localExtensions key := by
      rw [findKey, findKey, isRemote, filter_filter]
      apply congrArg
      apply filter_congr
      intro extension member
      by_cases isKey : getKey toLowerCase uuids extension = key
      · have kept := (mem_remote extension).mpr ⟨member, ?_⟩
        · rw [isRemote, mem_filter] at kept
          rw [kept.2, Bool.and_true]
        · intro isIgnored
          apply notIgnored
          rw [← isKey, ← sameKey extension member]
          exact isIgnored_mem isIgnored
      · simp [isKey]
    have unchanged : IMergeResult.localAfter toLowerCase uuids (⟨{}, if remote.length > 0 then
        some { added := remote, updated := [], removed := [], all := remote } else none⟩ :
          IMergeResult ν) localExtensions = localExtensions := by
      simp [IMergeResult.localAfter]
    rw [remoteAfter, found, unchanged]
    exact settled_self _

end Merge

/-- Merging extensions converges, and the only failure is that of a comparison of versions. -/
theorem extensionsMerge_converges [DecidableEq ν] (toLowerCase : String → String)
    (gt : String → String → Option Bool) (localExtensions : List (ISyncExtension ν))
    (remoteExtensions lastSyncExtensions : Option (List (ISyncExtension ν)))
    (skippedExtensions : List (ISyncExtension ν)) (ignoredExtensions : List String)
    (lastSyncBuiltinExtensions : List IExtensionIdentifier)
    (consistent : Consistent toLowerCase (identifiers localExtensions
      (remoteExtensions.getD []) lastSyncExtensions skippedExtensions
      (some lastSyncBuiltinExtensions))) :
    let uuids := collectUuids toLowerCase (identifiers localExtensions
      (remoteExtensions.getD []) lastSyncExtensions skippedExtensions
      (some lastSyncBuiltinExtensions))
    let result := merge toLowerCase gt localExtensions remoteExtensions lastSyncExtensions
      skippedExtensions ignoredExtensions (some lastSyncBuiltinExtensions)
    (∀ e, result = .error e → e = .invalidVersion ∧ ∃ localExtension ∈ localExtensions,
      ∃ remoteExtension ∈ remoteExtensions.getD [],
        Incomparable gt localExtension remoteExtension) ∧
    ∀ r, result = .ok r → Converges toLowerCase uuids localExtensions remoteExtensions
      skippedExtensions ignoredExtensions lastSyncBuiltinExtensions r := by
  have listed : ∀ extension ∈ localExtensions ++ remoteExtensions.getD [],
      extension.identifier ∈ identifiers localExtensions (remoteExtensions.getD [])
        lastSyncExtensions skippedExtensions (some lastSyncBuiltinExtensions) := by
    intro extension member
    rw [identifiers, ← map_append, append_assoc, append_assoc]
    exact mem_append_left _ (mem_map_of_mem member)
  cases remoteExtensions with
  | none =>
    constructor
    · intro e failed
      cases failed
    · intro r ok
      cases ok
      apply converges_first _ rfl
      intro extension member
      exact idKey_eq consistent (listed extension (mem_append_left _ member))
  | some remoteExtensions =>
    constructor
    · exact fun e failed => mergeWith_error failed
    · intro r ok
      apply mergeWith_converges knownUuids_collectUuids _ ok
      intro extension member
      exact idKey_eq consistent (listed extension member)

/-- An extension without the optional properties. -/
def plainExtension (id : String) : ISyncExtension Nat :=
  { identifier := ⟨id, none⟩, version := "1.0.0", pinned := none, preRelease := none,
    disabled := none, installed := none, isApplicationScoped := none, state := none }

/-- The merge of a locally installed extension, with an ignored one in remote. -/
def firstSync : Except MergeError (IMergeResult Nat) :=
  merge String.toLower (fun _ _ => some false)
    [{ plainExtension "x" with installed := some true }] (some [plainExtension "i"]) none []
    ["i"] (some [])

theorem consistent_firstSync :
    Consistent String.toLower (identifiers [{ plainExtension "x" with installed := some true }]
      [plainExtension "i"] none [] (some [])) := by
  intro first inFirst second _ _ uuid other isUuid
  simp [identifiers, plainExtension] at inFirst
  obtain rfl | rfl := inFirst <;> simp [truthy] at isUuid

theorem extensionsMerge_converges_firstSync : ∃ r, firstSync = .ok r ∧
    Converges String.toLower
      (collectUuids String.toLower (identifiers [{ plainExtension "x" with installed := some true }]
        [plainExtension "i"] none [] (some [])))
      [{ plainExtension "x" with installed := some true }] (some [plainExtension "i"]) [] ["i"] []
      r := by
  have converges := extensionsMerge_converges String.toLower (fun _ _ => some false)
    [{ plainExtension "x" with installed := some true }] (some [plainExtension "i"]) none []
    ["i"] [] consistent_firstSync
  cases result : firstSync with
  | error e =>
    obtain ⟨_, _, _, _, _, incomparable⟩ := converges.1 e result
    simp [Incomparable] at incomparable
  | ok r => exact ⟨r, rfl, converges.2 r result⟩

/-- The entry of an ignored extension is sent in the outgoing form. -/
theorem ignored_entry_changes :
    ¬∀ (localExtensions remoteExtensions : List (ISyncExtension Nat))
      (ignoredExtensions : List String) (r : IMergeResult Nat),
      merge String.toLower (fun _ _ => some false) localExtensions (some remoteExtensions) none []
        ignoredExtensions (some []) = .ok r →
      ∀ extension ∈ remoteExtensions,
        IsIgnored String.toLower ignoredExtensions extension.identifier.id →
        extension ∈ r.remoteAfter (some remoteExtensions) := by
  intro unchanged
  cases result : firstSync with
  | error e =>
    have isOk : firstSync.toBool = true := by decide +kernel
    rw [result] at isOk
    cases isOk
  | ok r =>
    have kept := unchanged _ _ _ r result (plainExtension "i") mem_cons_self
      ⟨"i", mem_cons_self, rfl⟩
    have pinned : ((firstSync.toOption.map (·.remoteAfter (some [plainExtension "i"]))).getD
        []).all (·.pinned.isSome) = true := by
      decide +kernel
    rw [result] at pinned
    have isPinned := all_eq_true.mp pinned _ kept
    cases isPinned

end Convergence

end Extensions
end CodeEditor.UserDataSync
