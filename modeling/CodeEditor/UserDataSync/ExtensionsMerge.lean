import CodeEditor.Foundation.Dictionary

/-!
# Merging extensions

Model of `extensionsMerge.ts`. A property that may be missing is an `Option`; `pinned` and
`preRelease` are missing in what older clients wrote. The values of an extension state are
compared with `equals`. Lower case and the order of versions are parameters: `semver.gt`
throws for a version that it does not accept.
-/

namespace CodeEditor.UserDataSync
namespace Extensions

structure IExtensionIdentifier where
  id : String
  uuid : Option String
  deriving DecidableEq

/-- `ILocalSyncExtension` and `IRemoteSyncExtension`. -/
structure ISyncExtension (ν : Type) where
  identifier : IExtensionIdentifier
  version : String
  pinned : Option Bool
  preRelease : Option Bool
  disabled : Option Bool
  installed : Option Bool
  isApplicationScoped : Option Bool
  state : Option (Dictionary String ν)

structure LocalChanges (ν : Type) where
  added : List (ISyncExtension ν) := []
  removed : List IExtensionIdentifier := []
  updated : List (ISyncExtension ν) := []

structure RemoteChanges (ν : Type) where
  added : List (ISyncExtension ν)
  removed : List (ISyncExtension ν)
  updated : List (ISyncExtension ν)
  all : List (ISyncExtension ν)

structure IMergeResult (ν : Type) where
  localChanges : LocalChanges ν
  remoteChanges : Option (RemoteChanges ν)

inductive MergeError
  /-- `assertIsDefined` throws. -/
  | assertion
  /-- `semver.gt` throws. -/
  | invalidVersion
  deriving DecidableEq

/-- The keys `uuid:…` and `id:…`. -/
inductive Key
  | uuid (uuid : String)
  | id (id : String)
  deriving DecidableEq

/-- `!!value` of an optional property. -/
def isTrue (value : Option Bool) : Bool := value = some true

/-- `value || undefined`: the empty string counts as missing. -/
def truthy (value : Option String) : Option String := value.filter (· ≠ "")

variable {ν : Type}

/-- Add optional properties. -/
def massageIncomingExtension (extension : ISyncExtension ν) : ISyncExtension ν :=
  { extension with
    disabled := some (isTrue extension.disabled), installed := some (isTrue extension.installed) }

/-- Remove optional properties. -/
def massageOutgoingExtension (extension : ISyncExtension ν) (key : Key) : ISyncExtension ν :=
  { extension with
    identifier :=
      { id := extension.identifier.id,
        uuid := match key with
          | .uuid uuid => some uuid
          | .id _ => none },
    -- always set, to tell them from what older clients wrote
    preRelease := some (isTrue extension.preRelease),
    pinned := some (isTrue extension.pinned),
    disabled := if isTrue extension.disabled then extension.disabled else none,
    installed := if isTrue extension.installed then extension.installed else none,
    isApplicationScoped :=
      if isTrue extension.isApplicationScoped then extension.isApplicationScoped else none }

section State

variable [DecidableEq ν]

def compareExtensionState (source target : Option (Dictionary String ν)) :
    KeyComparison String :=
  compareKeys (fun first second => decide (first = second)) [] source target

def isSameExtensionState (first second : Option (Dictionary String ν)) : Bool :=
  (compareExtensionState (some (first.getD .empty)) (some (second.getD .empty))).isEmpty

def areSame (checkVersionProperty checkInstalledProperty : Bool)
    (fromExtension toExtension : ISyncExtension ν) : Bool :=
  if fromExtension.disabled ≠ toExtension.disabled then false
  else if isTrue fromExtension.isApplicationScoped ≠ isTrue toExtension.isApplicationScoped then
    false
  else if checkInstalledProperty ∧ fromExtension.installed ≠ toExtension.installed then false
  else if isTrue fromExtension.installed ∧ isTrue toExtension.installed ∧
      (fromExtension.preRelease ≠ toExtension.preRelease ∨
        fromExtension.pinned ≠ toExtension.pinned ∨
        isTrue toExtension.pinned ∧ fromExtension.version ≠ toExtension.version) then false
  else if !isSameExtensionState fromExtension.state toExtension.state then false
  else if checkVersionProperty ∧ fromExtension.version ≠ toExtension.version then false
  else true

def compare (ignoredExtensions : List Key) (checkVersionProperty : Bool)
    (source target : Option (Dictionary Key (ISyncExtension ν))) : KeyComparison Key :=
  compareKeys (areSame checkVersionProperty true) ignoredExtensions source target

/-- The state with the changes of remote since the base. -/
def mergeStates (localState remoteState : Dictionary String ν)
    (baseState : Option (Dictionary String ν)) : Dictionary String ν :=
  let baseToRemote := compareExtensionState baseState (some remoteState)
  let baseToLocal := compareExtensionState baseState (some localState)
  let mergedState := (baseToRemote.added ++ baseToRemote.updated).foldl
    (fun mergedState key => mergedState.copy remoteState key) localState
  baseToRemote.removed.foldl
    (fun mergedState key =>
      if key ∈ baseToLocal.updated then mergedState else mergedState.erase key) mergedState

variable (gt : String → String → Option Bool)

/-- `semver.gt`. -/
def semverGt (first second : String) : Except MergeError Bool :=
  match gt first second with
  | some result => .ok result
  | none => .error .invalidVersion

def mergeExtensionState (localExtension remoteExtension : ISyncExtension ν)
    (lastSyncExtension : Option (ISyncExtension ν)) :
    Except MergeError (Option (Dictionary String ν)) := do
  let localState := localExtension.state
  let remoteState := remoteExtension.state
  let baseState := lastSyncExtension.bind (·.state)
  if remoteExtension.version = "" then return localState
  if localState.isSome then
    if ← semverGt gt localExtension.version remoteExtension.version then return localState
  if remoteState.isSome then
    if ← semverGt gt remoteExtension.version localExtension.version then return remoteState
  -- remote and local are on the same version
  match localState, remoteState with
  | none, _ => return remoteState
  | _, none => return localState
  | some localState, some remoteState =>
    return some (mergeStates localState remoteState baseState)

end State

/-! ## Keys -/

section Keys

variable (toLowerCase : String → String)

def addUUID (uuids : Dictionary String String) (identifier : IExtensionIdentifier) :
    Dictionary String String :=
  match truthy identifier.uuid with
  | some uuid => uuids.set (toLowerCase identifier.id) uuid
  | none => uuids

/-- The known uuids, by id. -/
def collectUuids (identifiers : List IExtensionIdentifier) : Dictionary String String :=
  identifiers.foldl (addUUID toLowerCase) .empty

variable (uuids : Dictionary String String)

/-- The key for an optional uuid and an id. -/
def keyOf (uuid : Option String) (id : String) : Key :=
  match uuid with
  | some uuid => .uuid uuid
  | none => .id (toLowerCase id)

/-- The key of an identifier, with the known uuids. -/
def identifierKey (identifier : IExtensionIdentifier) : Key :=
  keyOf toLowerCase ((truthy identifier.uuid).or (uuids.get? (toLowerCase identifier.id)))
    identifier.id

def getKey (extension : ISyncExtension ν) : Key :=
  identifierKey toLowerCase uuids extension.identifier

def addExtensionToMap (map : Dictionary Key (ISyncExtension ν)) (extension : ISyncExtension ν) :
    Dictionary Key (ISyncExtension ν) :=
  map.set (getKey toLowerCase uuids extension) extension

def extensionsMap (extensions : List (ISyncExtension ν)) : Dictionary Key (ISyncExtension ν) :=
  extensions.foldl (addExtensionToMap toLowerCase uuids) .empty

def ignoredExtensionsSet (ignoredExtensions : List String) : List Key :=
  ignoredExtensions.foldl
    (fun set id => addElement set (keyOf toLowerCase (uuids.get? (toLowerCase id)) id)) []

/-- A missing uuid is looked up, an empty one is not. -/
def lastSyncBuiltinExtensionsSet (lastSyncBuiltinExtensions : List IExtensionIdentifier) :
    List Key :=
  lastSyncBuiltinExtensions.foldl
    (fun set identifier => addElement set
      (keyOf toLowerCase
        (truthy (identifier.uuid.or (uuids.get? (toLowerCase identifier.id))))
        identifier.id)) []

end Keys

/-! ## The passes -/

/-- One thing that a pass does for a key. -/
inductive Effect (ν : Type)
  | add (extension : ISyncExtension ν)
  | remove (identifier : IExtensionIdentifier)
  | update (extension : ISyncExtension ν)
  | setRemote (extension : ISyncExtension ν)
  | deleteRemote

/-- The variables of `merge` that the passes change. -/
structure Draft (ν : Type) where
  localChanges : LocalChanges ν
  newRemoteExtensionsMap : Dictionary Key (ISyncExtension ν)

def Draft.perform (key : Key) (d : Draft ν) : Effect ν → Draft ν
  | .add extension => { d with localChanges.added := d.localChanges.added ++ [extension] }
  | .remove identifier =>
    { d with localChanges.removed := d.localChanges.removed ++ [identifier] }
  | .update extension => { d with localChanges.updated := d.localChanges.updated ++ [extension] }
  | .setRemote extension =>
    { d with newRemoteExtensionsMap := d.newRemoteExtensionsMap.set key extension }
  | .deleteRemote => { d with newRemoteExtensionsMap := d.newRemoteExtensionsMap.erase key }

/-- A loop over keys. -/
def runPass (step : Key → Except MergeError (List (Effect ν))) (keys : List Key) (d : Draft ν) :
    Except MergeError (Draft ν) :=
  keys.foldlM (fun d key => do
    let effects ← step key
    return effects.foldl (Draft.perform key) d) d

def assertIsDefined {α : Type} : Option α → Except MergeError α
  | some value => .ok value
  | none => .error .assertion

section Passes

variable [DecidableEq ν] (gt : String → String → Option Bool)
  (localExtensionsMap remoteExtensionsMap skippedExtensionsMap :
    Dictionary Key (ISyncExtension ν))
  (lastSyncExtensionsMap : Option (Dictionary Key (ISyncExtension ν)))
  (lastSyncBuiltinExtensions : Option (List Key))
  (localToRemote baseToLocal baseToRemote : KeyComparison Key)

/-- The version of `side` where it is pinned there, else the later one. -/
def mergedVersion (side localExtension remoteExtension : ISyncExtension ν) :
    Except MergeError String :=
  if isTrue side.pinned then .ok side.version
  -- `pinned` is missing when it is from an older client
  else if side.pinned.isNone ∧ isTrue localExtension.pinned then .ok localExtension.version
  else if remoteExtension.version = "" then .ok localExtension.version
  else if !isTrue localExtension.installed then .ok remoteExtension.version
  else do
    let isGreater ← semverGt gt remoteExtension.version localExtension.version
    return if isGreater then remoteExtension.version else localExtension.version

/-- The inner function `merge`. -/
def mergeExtension (key : Key) (localExtension remoteExtension preferred : ISyncExtension ν) :
    Except MergeError (ISyncExtension ν) := do
  let side := if isTrue localExtension.installed then preferred else remoteExtension
  let version ← mergedVersion gt side localExtension remoteExtension
  let state ← mergeExtensionState gt localExtension remoteExtension
    (valueIn lastSyncExtensionsMap key)
  return { preferred with
    installed := if isTrue localExtension.installed then localExtension.installed
      else remoteExtension.installed,
    pinned := side.pinned.or localExtension.pinned,
    preRelease := side.preRelease.or localExtension.preRelease,
    version, state }

/-- It is known not to be a builtin extension during the last sync, and it was installed. -/
def wasAnInstalledExtensionDuringLastSync (key : Key) (baseExtension : ISyncExtension ν) :
    Bool :=
  match lastSyncBuiltinExtensions with
  | some builtin => key ∉ builtin ∧ isTrue baseExtension.installed
  | none => false

/-- Remotely removed extension: exists in base and does not in remote. -/
def removedInRemote (key : Key) : Except MergeError (List (Effect ν)) :=
  match localExtensionsMap.get? key with
  | none => return []
  | some localExtension => do
      let baseExtension ← assertIsDefined (valueIn lastSyncExtensionsMap key)
      if isTrue localExtension.installed ∧
          wasAnInstalledExtensionDuringLastSync lastSyncBuiltinExtensions key baseExtension then
        return [.remove localExtension.identifier]
      else
        -- a builtin extension, or it got installed after the last sync
        return [.setRemote localExtension]

/-- Remotely added extension: does not exist in base and exists in remote. -/
def addedInRemote (key : Key) : Except MergeError (List (Effect ν)) := do
  let remoteExtension ← assertIsDefined (remoteExtensionsMap.get? key)
  match localExtensionsMap.get? key with
  | some localExtension =>
    if key ∈ localToRemote.updated then
      let mergedExtension ← mergeExtension gt lastSyncExtensionsMap key localExtension
        remoteExtension remoteExtension
      -- locally only when more than the installed property has changed
      if areSame false false localExtension remoteExtension then
        return [.setRemote mergedExtension]
      else
        return [.update (massageOutgoingExtension mergedExtension key),
          .setRemote mergedExtension]
    else return []
  | none =>
    if isTrue remoteExtension.installed then
      return [.add (massageOutgoingExtension remoteExtension key)]
    else return []

/-- Remotely updated extension: exists in base and remote. -/
def updatedInRemote (key : Key) : Except MergeError (List (Effect ν)) := do
  let remoteExtension ← assertIsDefined (remoteExtensionsMap.get? key)
  let baseExtension ← assertIsDefined (valueIn lastSyncExtensionsMap key)
  match localExtensionsMap.get? key with
  | some localExtension =>
    if wasAnInstalledExtensionDuringLastSync lastSyncBuiltinExtensions key baseExtension ∧
        isTrue localExtension.installed ∧ !isTrue remoteExtension.installed then
      return [.remove localExtension.identifier]
    else
      let mergedExtension ← mergeExtension gt lastSyncExtensionsMap key localExtension
        remoteExtension remoteExtension
      return [.update (massageOutgoingExtension mergedExtension key),
        .setRemote mergedExtension]
  | none =>
    if isTrue remoteExtension.installed then
      return [.add (massageOutgoingExtension remoteExtension key)]
    else return []

/-- Locally added extension: does not exist in base and exists in local. -/
def addedInLocal (key : Key) : Except MergeError (List (Effect ν)) := do
  if key ∈ baseToRemote.added then return []
  else
    let localExtension ← assertIsDefined (localExtensionsMap.get? key)
    return [.setRemote localExtension]

/-- Locally updated extension: exists in base and local. -/
def updatedInLocal (key : Key) : Except MergeError (List (Effect ν)) := do
  if key ∈ baseToRemote.removed then return []
  else if key ∈ baseToRemote.updated then return []
  else
    let localExtension ← assertIsDefined (localExtensionsMap.get? key)
    let remoteExtension ← assertIsDefined (remoteExtensionsMap.get? key)
    let mergedExtension ← mergeExtension gt lastSyncExtensionsMap key localExtension
      remoteExtension localExtension
    return [.setRemote mergedExtension]

/-- Locally removed extension: exists in base and does not exist in local. -/
def removedInLocal (key : Key) : Except MergeError (List (Effect ν)) := do
  if key ∈ baseToRemote.updated then return []
  else if key ∈ baseToRemote.removed then return []
  else if key ∈ skippedExtensionsMap.keys then return []
  else
    let remoteExtension ← assertIsDefined (remoteExtensionsMap.get? key)
    -- a builtin extension
    if !isTrue remoteExtension.installed then return []
    else
      match lastSyncBuiltinExtensions with
      | none => return []
      | some builtin =>
        if key ∈ builtin then return []
        else
          let baseExtension ← assertIsDefined (valueIn lastSyncExtensionsMap key)
          if !isTrue baseExtension.installed then return []
          else return [.deleteRemote]

/-- All passes. -/
def runPasses (d : Draft ν) : Except MergeError (Draft ν) := do
  let d ← runPass (removedInRemote localExtensionsMap lastSyncExtensionsMap
    lastSyncBuiltinExtensions) baseToRemote.removed d
  let d ← runPass (addedInRemote gt localExtensionsMap remoteExtensionsMap lastSyncExtensionsMap
    localToRemote) baseToRemote.added d
  let d ← runPass (updatedInRemote gt localExtensionsMap remoteExtensionsMap
    lastSyncExtensionsMap lastSyncBuiltinExtensions) baseToRemote.updated d
  let d ← runPass (addedInLocal localExtensionsMap baseToRemote) baseToLocal.added d
  let d ← runPass (updatedInLocal gt localExtensionsMap remoteExtensionsMap
    lastSyncExtensionsMap baseToRemote) baseToLocal.updated d
  runPass (removedInLocal remoteExtensionsMap skippedExtensionsMap lastSyncExtensionsMap
    lastSyncBuiltinExtensions baseToRemote) baseToLocal.removed d

end Passes

/-! ## The merge -/

section Merge

variable [DecidableEq ν] (toLowerCase : String → String) (gt : String → String → Option Bool)

/-- All identifiers, in the order in which their uuids are collected. -/
def identifiers (localExtensions remoteExtensions : List (ISyncExtension ν))
    (lastSyncExtensions : Option (List (ISyncExtension ν)))
    (skippedExtensions : List (ISyncExtension ν))
    (lastSyncBuiltinExtensions : Option (List IExtensionIdentifier)) :
    List IExtensionIdentifier :=
  localExtensions.map (·.identifier) ++ remoteExtensions.map (·.identifier) ++
    (lastSyncExtensions.getD []).map (·.identifier) ++ skippedExtensions.map (·.identifier) ++
      lastSyncBuiltinExtensions.getD []

/-- The property `remote` of the result. -/
def remoteResult (remoteExtensionsMap newRemoteExtensionsMap : Dictionary Key (ISyncExtension ν)) :
    Option (RemoteChanges ν) :=
  let remoteChanges :=
    compare [] true (some remoteExtensionsMap) (some newRemoteExtensionsMap)
  if remoteChanges.isEmpty then none
  else some
    { added := remoteChanges.added.filterMap newRemoteExtensionsMap.get?,
      updated := remoteChanges.updated.filterMap newRemoteExtensionsMap.get?,
      removed := remoteChanges.removed.filterMap remoteExtensionsMap.get?,
      all := newRemoteExtensionsMap.entries.map fun entry =>
        massageOutgoingExtension entry.2 entry.1 }

/-- The passes run only where local and remote differ. -/
def mergeMaps
    (localExtensionsMap remoteExtensionsMap skippedExtensionsMap :
      Dictionary Key (ISyncExtension ν))
    (lastSyncExtensionsMap : Option (Dictionary Key (ISyncExtension ν)))
    (ignored : List Key) (lastSyncBuiltinExtensions : Option (List Key)) :
    Except MergeError (Draft ν) :=
  let localToRemote :=
    compare ignored false (some localExtensionsMap) (some remoteExtensionsMap)
  if localToRemote.isEmpty then .ok ⟨{}, remoteExtensionsMap⟩
  else
    runPasses gt localExtensionsMap remoteExtensionsMap skippedExtensionsMap
      lastSyncExtensionsMap lastSyncBuiltinExtensions localToRemote
      (compare ignored false lastSyncExtensionsMap (some localExtensionsMap))
      (compare ignored true lastSyncExtensionsMap (some remoteExtensionsMap))
      ⟨{}, remoteExtensionsMap⟩

/-- The merge with a remote list. -/
def mergeWith (uuids : Dictionary String String)
    (localExtensions remoteExtensions : List (ISyncExtension ν))
    (lastSyncExtensions : Option (List (ISyncExtension ν)))
    (skippedExtensions : List (ISyncExtension ν)) (ignoredExtensions : List String)
    (lastSyncBuiltinExtensions : Option (List IExtensionIdentifier)) :
    Except MergeError (IMergeResult ν) := do
  let incomingMap (extensions : List (ISyncExtension ν)) :=
    extensionsMap toLowerCase uuids (extensions.map massageIncomingExtension)
  let d ← mergeMaps gt (incomingMap localExtensions) (incomingMap remoteExtensions)
    (extensionsMap toLowerCase uuids skippedExtensions) (lastSyncExtensions.map incomingMap)
    (ignoredExtensionsSet toLowerCase uuids ignoredExtensions)
    (lastSyncBuiltinExtensions.map (lastSyncBuiltinExtensionsSet toLowerCase uuids))
  return {
    localChanges := d.localChanges,
    remoteChanges := remoteResult (incomingMap remoteExtensions) d.newRemoteExtensionsMap }

def merge (localExtensions : List (ISyncExtension ν))
    (remoteExtensions lastSyncExtensions : Option (List (ISyncExtension ν)))
    (skippedExtensions : List (ISyncExtension ν)) (ignoredExtensions : List String)
    (lastSyncBuiltinExtensions : Option (List IExtensionIdentifier)) :
    Except MergeError (IMergeResult ν) :=
  match remoteExtensions with
  | none =>
    let remote := localExtensions.filter fun extension =>
      ignoredExtensions.all fun id => toLowerCase id ≠ toLowerCase extension.identifier.id
    .ok {
      localChanges := {},
      remoteChanges :=
        if remote.length > 0 then
          some { added := remote, updated := [], removed := [], all := remote }
        else none }
  | some remoteExtensions =>
    let uuids := collectUuids toLowerCase (identifiers localExtensions remoteExtensions
      lastSyncExtensions skippedExtensions lastSyncBuiltinExtensions)
    mergeWith toLowerCase gt uuids localExtensions remoteExtensions lastSyncExtensions
      skippedExtensions ignoredExtensions lastSyncBuiltinExtensions

end Merge

end Extensions
end CodeEditor.UserDataSync
