import CodeEditor.Foundation.Dictionary

/-!
# Merging the global state

Model of `globalStateMerge.ts`. A storage is a `Dictionary` of versioned values, all of its
keys are own properties. The passes of `merge` first write the local changes into a clone of
the remote storage and then collect what is to be done in local.
-/

namespace CodeEditor.UserDataSync
namespace GlobalState

structure IStorageValue where
  version : Int
  value : String
  deriving DecidableEq

abbrev Storage := Dictionary String IStorageValue

def SYNC_SERVICE_URL_TYPE : String := "sync.store.url.type"

/-- What is to be done in local. -/
structure LocalChanges where
  added : Storage := .empty
  removed : List String := []
  updated : Storage := .empty

/-- What was done in remote, with all of it where anything was done. -/
structure RemoteChanges where
  added : List String := []
  removed : List String := []
  updated : List String := []
  all : Option Storage := none

structure IMergeResult where
  localChanges : LocalChanges := {}
  remoteChanges : RemoteChanges := {}

/-- `objects.equals` of two values. -/
def equals (first second : IStorageValue) : Bool := first = second

def compare (source target : Storage) : KeyComparison String :=
  compareKeys equals [] (some source) (some target)

/-- What a side did since the base; without a base it added everything. -/
def compareToBase (baseStorage : Option Storage) (storage : Storage) : KeyComparison String :=
  match baseStorage with
  | some base => compare base storage
  | none => ⟨storage.keys.foldl addElement [], [], []⟩

section Passes

variable (localStorage remoteStorage : Storage) (baseStorage : Option Storage)
  (machine unregistered : List String) (baseToLocal baseToRemote : KeyComparison String)

/-- Added in local. -/
def addedInLocal (remote : Storage) (key : String) : Storage :=
  -- the first time the remote value gets precedence, except for the sync service type
  if key ≠ SYNC_SERVICE_URL_TYPE ∧ baseStorage.isNone ∧ key ∈ baseToRemote.added then remote
  else remote.copy localStorage key

/-- Updated in local. -/
def updatedInLocal (remote : Storage) (key : String) : Storage := remote.copy localStorage key

/-- Removed in local. -/
def removedInLocal (remote : Storage) (key : String) : Storage :=
  if key ∈ unregistered then remote else remote.erase key

/-- `localValue && localValue.value === remoteValue.value`. -/
def sameValue (localValue remoteValue : Option IStorageValue) : Bool :=
  match localValue, remoteValue with
  | some l, some r => l.value = r.value
  | _, _ => false

/-- Added in remote. -/
def addedInRemote (changes : LocalChanges) (key : String) : LocalChanges :=
  if key ∈ machine then changes
  -- also added in local from the time it is last synced
  else if baseStorage.isSome ∧ key ∈ baseToLocal.added then changes
  else if sameValue (localStorage.get? key) (remoteStorage.get? key) then changes
  -- the local sync service type takes precedence the first time
  else if key = SYNC_SERVICE_URL_TYPE ∧ baseStorage.isNone ∧ key ∈ baseToLocal.added then
    changes
  else if (localStorage.get? key).isSome then
    { changes with updated := changes.updated.copy remoteStorage key }
  else { changes with added := changes.added.copy remoteStorage key }

/-- Updated in remote. -/
def updatedInRemote (changes : LocalChanges) (key : String) : LocalChanges :=
  if key ∈ machine then changes
  else if key ∈ baseToLocal.updated ∨ key ∈ baseToLocal.removed then changes
  else if sameValue (localStorage.get? key) (remoteStorage.get? key) then changes
  else { changes with updated := changes.updated.copy remoteStorage key }

/-- Removed in remote. -/
def removedInRemote (changes : LocalChanges) (key : String) : LocalChanges :=
  if key ∈ machine then changes
  else if key ∈ baseToLocal.updated ∨ key ∈ baseToLocal.removed then changes
  else { changes with removed := changes.removed ++ [key] }

/-- The clone of the remote storage behind the first three passes. -/
def newRemote : Storage :=
  let remote := baseToLocal.added.foldl
    (addedInLocal localStorage baseStorage baseToRemote) remoteStorage
  let remote := baseToLocal.updated.foldl (updatedInLocal localStorage) remote
  baseToLocal.removed.foldl (removedInLocal unregistered) remote

/-- The other three passes. -/
def newLocal : LocalChanges :=
  let changes := baseToRemote.added.foldl
    (addedInRemote localStorage remoteStorage baseStorage machine baseToLocal) {}
  let changes := baseToRemote.updated.foldl
    (updatedInRemote localStorage remoteStorage machine baseToLocal) changes
  baseToRemote.removed.foldl (removedInRemote machine baseToLocal) changes

end Passes

def merge (localStorage : Storage) (remoteStorage baseStorage : Option Storage)
    (machine unregistered : List String) : IMergeResult :=
  match remoteStorage with
  | none =>
    { remoteChanges.added := localStorage.keys,
      remoteChanges.all := if localStorage.keys.length > 0 then some localStorage else none }
  | some remoteStorage =>
    -- no changes found between local and remote
    if (compare localStorage remoteStorage).isEmpty then {}
    else
      let baseToRemote := compareToBase baseStorage remoteStorage
      let baseToLocal := compareToBase baseStorage localStorage
      let remote := newRemote localStorage remoteStorage baseStorage unregistered baseToLocal
        baseToRemote
      let result := compare remoteStorage remote
      { localChanges := newLocal localStorage remoteStorage baseStorage machine baseToLocal
          baseToRemote,
        remoteChanges :=
          { added := result.added, updated := result.updated, removed := result.removed,
            all := if result.isEmpty then none else some remote } }

/-!
## Convergence of the global state

The passes of `merge` decide every key on its own, from its values in the base, in local and
in remote.
-/

/-! ## Comparisons -/

theorem differAt_equals {source target : Option Storage} {key : String} :
    differAt equals source target key = true ↔ Differ (valueIn source key) (valueIn target key) :=
  differAt_eq

section Compare

variable (base : Option Storage) (storage : Storage) {key : String}

theorem mem_added : key ∈ (compareToBase base storage).added ↔
    valueIn base key = none ∧ (storage.get? key).isSome := by
  cases base with
  | none =>
    simp [compareToBase, mem_foldl_addElement, Dictionary.mem_keys_iff]
  | some base => simp [compareToBase, compare, mem_added_compareKeys]

theorem mem_removed : key ∈ (compareToBase base storage).removed ↔
    (valueIn base key).isSome ∧ storage.get? key = none := by
  cases base with
  | none => simp [compareToBase]
  | some base => simp [compareToBase, compare, mem_removed_compareKeys]

theorem mem_updated : key ∈ (compareToBase base storage).updated ↔
    Differ (valueIn base key) (storage.get? key) := by
  cases base with
  | none => simp [compareToBase, Differ]
  | some base => simp [compareToBase, compare, mem_updated_compareKeys, differAt_equals]

theorem nodup_added : (compareToBase base storage).added.Nodup := by
  cases base with
  | none => exact nodup_foldl_addElement _ .nil
  | some base => exact nodup_added_compareKeys

theorem nodup_removed : (compareToBase base storage).removed.Nodup := by
  cases base with
  | none => exact .nil
  | some base => exact nodup_removed_compareKeys

theorem nodup_updated : (compareToBase base storage).updated.Nodup := by
  cases base with
  | none => exact .nil
  | some base => exact nodup_updated_compareKeys

end Compare

theorem isEmpty_compare {first second : Storage} :
    (compare first second).isEmpty = true ↔ ∀ key, first.get? key = second.get? key :=
  isEmpty_compareKeys_eq

/-! ## One key of the remote storage -/

/-- The decision about a key of the remote storage, from its values and from whether this is
the first time, the key is the sync service type, and it is unregistered. -/
def remoteKey (first isSync isUnregistered : Bool)
    (baseValue localValue remoteValue : Option IStorageValue) : Option IStorageValue :=
  match baseValue, localValue with
  | none, none => remoteValue
  | none, some l => if !isSync && first && remoteValue.isSome then remoteValue else some l
  | some _, none => if isUnregistered then remoteValue else none
  | some b, some l => if b = l then remoteValue else some l

section Keys

variable (localStorage remoteStorage : Storage) (base : Option Storage)
  (machine unregistered : List String)

/-! A pass changes the storage at its key only. -/

theorem get?_addedInLocal (remote : Storage) (key other : String) :
    (addedInLocal localStorage base (compareToBase base remoteStorage) remote key).get? other =
      if other = key then
        if key ≠ SYNC_SERVICE_URL_TYPE ∧ base.isNone ∧ (remoteStorage.get? key).isSome then
          remote.get? key
        else (localStorage.get? key).or (remote.get? key)
      else remote.get? other := by
  have added : base.isNone ∧ key ∈ (compareToBase base remoteStorage).added ↔
      base.isNone ∧ (remoteStorage.get? key).isSome := by
    rw [mem_added]
    cases base <;> simp
  rw [addedInLocal]
  simp only [added]
  by_cases isKey : other = key
  · subst isKey
    split <;> simp [Dictionary.get?_copy]
  · split <;> simp [Dictionary.get?_copy, isKey]

theorem get?_updatedInLocal (remote : Storage) (key other : String) :
    (updatedInLocal localStorage remote key).get? other =
      if other = key then (localStorage.get? key).or (remote.get? key)
      else remote.get? other :=
  Dictionary.get?_copy remote localStorage key other

theorem get?_removedInLocal (remote : Storage) (key other : String) :
    (removedInLocal unregistered remote key).get? other =
      if other = key then if key ∈ unregistered then remote.get? key else none
      else remote.get? other := by
  rw [removedInLocal]
  by_cases isKey : other = key
  · subst isKey
    split <;> simp
  · split <;> simp [isKey]

theorem get?_newRemote (key : String) :
    (newRemote localStorage remoteStorage base unregistered (compareToBase base localStorage)
      (compareToBase base remoteStorage)).get? key =
      remoteKey base.isNone (key = SYNC_SERVICE_URL_TYPE) (key ∈ unregistered)
        (valueIn base key) (localStorage.get? key) (remoteStorage.get? key) := by
  rw [newRemote]
  rw [@foldl_view _ _ _ _ _ Dictionary.get? _
    (fun key value => if key ∈ unregistered then value else none)
    (get?_removedInLocal unregistered) (nodup_removed _ _)]
  rw [@foldl_view _ _ _ _ _ Dictionary.get? _ (fun key value => (localStorage.get? key).or value)
    (get?_updatedInLocal localStorage) (nodup_updated _ _)]
  rw [@foldl_view _ _ _ _ _ Dictionary.get? _ (fun key value =>
      if key ≠ SYNC_SERVICE_URL_TYPE ∧ base.isNone ∧ (remoteStorage.get? key).isSome then value
      else (localStorage.get? key).or value)
    (get?_addedInLocal localStorage remoteStorage base) (nodup_added _ _)]
  simp only [mem_added, mem_removed, mem_updated, Differ]
  cases valueIn base key <;> cases localStorage.get? key <;> cases remoteStorage.get? key <;>
    simp [remoteKey]

/-! ## One key of the local storage -/

/-- What the changes do to one key. -/
structure KeyChanges where
  added : Option IStorageValue := none
  updated : Option IStorageValue := none
  removed : Bool := false

def LocalChanges.at (changes : LocalChanges) (key : String) : KeyChanges where
  added := changes.added.get? key
  updated := changes.updated.get? key
  removed := key ∈ changes.removed

namespace KeyChanges

variable (isMachine : Bool) (first : Bool) (isSync : Bool)
  (baseValue localValue remoteValue : Option IStorageValue)

def addedInRemote (v : KeyChanges) : KeyChanges :=
  if isMachine then v
  else if first = false ∧ baseValue = none ∧ localValue.isSome then v
  else if sameValue localValue remoteValue then v
  else if isSync ∧ first ∧ baseValue = none ∧ localValue.isSome then v
  else if localValue.isSome then { v with updated := remoteValue.or v.updated }
  else { v with added := remoteValue.or v.added }

def updatedInRemote (v : KeyChanges) : KeyChanges :=
  if isMachine then v
  else if Differ baseValue localValue ∨ baseValue.isSome ∧ localValue = none then v
  else if sameValue localValue remoteValue then v
  else { v with updated := remoteValue.or v.updated }

def removedInRemote (v : KeyChanges) : KeyChanges :=
  if isMachine then v
  else if Differ baseValue localValue ∨ baseValue.isSome ∧ localValue = none then v
  else { v with removed := true }

/-- The value of a key once the changes are made. -/
def apply (v : KeyChanges) (value : Option IStorageValue) : Option IStorageValue :=
  if v.removed then none else (v.added.or v.updated).or value

end KeyChanges

/-- The decision about a key of the local storage. -/
def localKey (isMachine first isSync : Bool)
    (baseValue localValue remoteValue : Option IStorageValue) : Option IStorageValue :=
  match baseValue, localValue, remoteValue with
  | none, none, some r => if isMachine then none else some r
  | none, some l, some r =>
    if isMachine || !first || l.value = r.value || isSync then some l else some r
  | some b, some l, none => if isMachine || b ≠ l then some l else none
  | some b, some l, some r =>
    if isMachine || b = r || b ≠ l || l.value = r.value then some l else some r
  | _, l, _ => l

/-- The three passes make the decision. -/
theorem localKey_eq (isMachine first isSync : Bool)
    (baseValue localValue remoteValue : Option IStorageValue) :
    localKey isMachine first isSync baseValue localValue remoteValue =
      let v : KeyChanges := {}
      let v := if baseValue = none ∧ remoteValue.isSome then
        v.addedInRemote isMachine first isSync baseValue localValue remoteValue else v
      let v := if Differ baseValue remoteValue then
        v.updatedInRemote isMachine baseValue localValue remoteValue else v
      let v := if baseValue.isSome ∧ remoteValue = none then
        v.removedInRemote isMachine baseValue localValue else v
      v.apply localValue := by
  simp only [KeyChanges.addedInRemote, KeyChanges.updatedInRemote, KeyChanges.removedInRemote,
    KeyChanges.apply, Differ, sameValue]
  cases isMachine <;> cases first <;> cases isSync <;> cases baseValue <;> cases localValue <;>
    cases remoteValue <;> simp [localKey] <;> split_ifs <;> simp_all

/-- A pass changes the result at its key only, and as the key sees it. -/
theorem actsAs_passes :
    let baseToLocal := compareToBase base localStorage
    ActsAs LocalChanges.at (addedInRemote localStorage remoteStorage base machine baseToLocal)
        (fun key => KeyChanges.addedInRemote (key ∈ machine) base.isNone
          (key = SYNC_SERVICE_URL_TYPE) (valueIn base key) (localStorage.get? key)
          (remoteStorage.get? key)) ∧
      ActsAs LocalChanges.at (updatedInRemote localStorage remoteStorage machine baseToLocal)
        (fun key => KeyChanges.updatedInRemote (key ∈ machine) (valueIn base key)
          (localStorage.get? key) (remoteStorage.get? key)) ∧
      ActsAs LocalChanges.at (removedInRemote machine baseToLocal)
        (fun key => KeyChanges.removedInRemote (key ∈ machine) (valueIn base key)
          (localStorage.get? key)) := by
  have notFirst : base.isSome = true ↔ base.isNone = false := by cases base <;> simp
  refine ⟨?_, ?_, ?_⟩
  all_goals
    intro changes key other
    simp only [addedInRemote, updatedInRemote, removedInRemote, KeyChanges.addedInRemote,
      KeyChanges.updatedInRemote, KeyChanges.removedInRemote, mem_added, mem_updated, mem_removed,
      decide_eq_true_eq, notFirst]
    by_cases isKey : other = key
    · rw [if_pos isKey, isKey]
      split_ifs <;> simp [LocalChanges.at, Dictionary.get?_copy]
    · rw [if_neg isKey]
      split_ifs <;> simp [LocalChanges.at, Dictionary.get?_copy, isKey]

theorem apply_newLocal (key : String) :
    ((newLocal localStorage remoteStorage base machine (compareToBase base localStorage)
        (compareToBase base remoteStorage)).at key).apply (localStorage.get? key) =
      localKey (key ∈ machine) base.isNone (key = SYNC_SERVICE_URL_TYPE) (valueIn base key)
        (localStorage.get? key) (remoteStorage.get? key) := by
  obtain ⟨added, updated, removed⟩ := actsAs_passes localStorage remoteStorage base machine
  rw [localKey_eq, newLocal, foldl_view removed (nodup_removed _ _),
    foldl_view updated (nodup_updated _ _), foldl_view added (nodup_added _ _)]
  simp only [mem_added, mem_removed, mem_updated]
  rfl

end Keys

/-! ## Convergence -/

/-- The storage value of a key in local, once the changes are made. -/
def IMergeResult.localValue (r : IMergeResult) (localStorage : Storage) (key : String) :
    Option IStorageValue :=
  if key ∈ r.localChanges.removed then none
  else ((r.localChanges.added.get? key).or (r.localChanges.updated.get? key)).or
    (localStorage.get? key)

/-- The storage value of a key in remote, once all of it is replaced. -/
def IMergeResult.remoteValue (r : IMergeResult) (remoteStorage : Storage) (key : String) :
    Option IStorageValue :=
  (r.remoteChanges.all.getD remoteStorage).get? key

/-- What a merge promises; the value of a storage value is compared, not its version. -/
structure Converges (localStorage remoteStorage : Storage) (base : Option Storage)
    (machine unregistered : List String) (r : IMergeResult) : Prop where
  agree : ∀ key, key ∉ machine → key ∉ unregistered →
    (r.localValue localStorage key).map IStorageValue.value =
      (r.remoteValue remoteStorage key).map IStorageValue.value
  changedInLocal : ∀ key, key ∉ machine → key ∉ unregistered →
    localStorage.get? key ≠ valueIn base key → remoteStorage.get? key = valueIn base key →
      r.localValue localStorage key = localStorage.get? key ∧
      r.remoteValue remoteStorage key = localStorage.get? key
  changedInRemote : ∀ key, key ∉ machine → key ∉ unregistered →
    localStorage.get? key = valueIn base key → remoteStorage.get? key ≠ valueIn base key →
      (r.localValue localStorage key).map IStorageValue.value =
        (remoteStorage.get? key).map IStorageValue.value ∧
      r.remoteValue remoteStorage key = remoteStorage.get? key
  changedInBoth : ∀ key, key ∉ machine → key ∉ unregistered →
    localStorage.get? key ≠ valueIn base key → remoteStorage.get? key ≠ valueIn base key →
      if base.isSome ∨ key = SYNC_SERVICE_URL_TYPE then
        (r.localValue localStorage key).map IStorageValue.value =
          (localStorage.get? key).map IStorageValue.value ∧
        (r.remoteValue remoteStorage key).map IStorageValue.value =
          (localStorage.get? key).map IStorageValue.value
      else
        (r.localValue localStorage key).map IStorageValue.value =
          (remoteStorage.get? key).map IStorageValue.value ∧
        (r.remoteValue remoteStorage key).map IStorageValue.value =
          (remoteStorage.get? key).map IStorageValue.value
  machineUnchanged : ∀ key ∈ machine, r.localValue localStorage key = localStorage.get? key
  added : ∀ key, key ∈ r.remoteChanges.added ↔
    remoteStorage.get? key = none ∧ (r.remoteValue remoteStorage key).isSome
  removed : ∀ key, key ∈ r.remoteChanges.removed ↔
    (remoteStorage.get? key).isSome ∧ r.remoteValue remoteStorage key = none
  updated : ∀ key, key ∈ r.remoteChanges.updated ↔
    Differ (remoteStorage.get? key) (r.remoteValue remoteStorage key)

/-! The same for one key. -/

section Decision

variable {first isSync : Bool} {baseValue localValue remoteValue : Option IStorageValue}

theorem localKey_machine :
    localKey true first isSync baseValue localValue remoteValue = localValue := by
  cases baseValue <;> cases localValue <;> cases remoteValue <;> simp [localKey]

theorem keys_agree :
    (localKey false first isSync baseValue localValue remoteValue).map IStorageValue.value =
      (remoteKey first isSync false baseValue localValue remoteValue).map IStorageValue.value := by
  cases first <;> cases isSync <;> cases baseValue <;> cases localValue <;>
    cases remoteValue <;> simp [localKey, remoteKey]
  all_goals grind

theorem keys_changedInLocal (changed : localValue ≠ baseValue)
    (unchanged : remoteValue = baseValue) :
    localKey false first isSync baseValue localValue remoteValue = localValue ∧
      remoteKey first isSync false baseValue localValue remoteValue = localValue := by
  subst unchanged
  cases remoteValue <;> cases localValue <;> simp_all [localKey, remoteKey]

theorem keys_changedInRemote (unchanged : localValue = baseValue)
    (changed : remoteValue ≠ baseValue) :
    (localKey false first isSync baseValue localValue remoteValue).map IStorageValue.value =
        remoteValue.map IStorageValue.value ∧
      remoteKey first isSync false baseValue localValue remoteValue = remoteValue := by
  subst unchanged
  cases remoteValue <;> cases localValue <;> simp_all [localKey, remoteKey]
  grind

theorem keys_changedInBoth (missing : first = true → baseValue = none)
    (changedInLocal : localValue ≠ baseValue) (changedInRemote : remoteValue ≠ baseValue) :
    let winner := if first = false ∨ isSync = true then localValue else remoteValue
    (localKey false first isSync baseValue localValue remoteValue).map IStorageValue.value =
        winner.map IStorageValue.value ∧
      (remoteKey first isSync false baseValue localValue remoteValue).map IStorageValue.value =
        winner.map IStorageValue.value := by
  cases first <;> cases isSync <;> cases baseValue <;> cases localValue <;>
    cases remoteValue <;> simp_all [localKey, remoteKey]
  all_goals grind

end Decision

theorem localValue_eq (r : IMergeResult) (localStorage : Storage) (key : String) :
    r.localValue localStorage key = (r.localChanges.at key).apply (localStorage.get? key) := by
  simp [IMergeResult.localValue, KeyChanges.apply, LocalChanges.at]

/-- Where nothing is to be done, nothing is done. -/
theorem converges_of_same {localStorage remoteStorage : Storage} (base : Option Storage)
    (machine unregistered : List String)
    (same : ∀ key, localStorage.get? key = remoteStorage.get? key) :
    Converges localStorage remoteStorage base machine unregistered {} := by
  have localValue : ∀ key, IMergeResult.localValue {} localStorage key =
      remoteStorage.get? key := by
    intro key
    simp [IMergeResult.localValue, same]
  have remoteValue : ∀ key, IMergeResult.remoteValue {} remoteStorage key =
      remoteStorage.get? key := fun key => rfl
  constructor
  all_goals intro key
  all_goals simp only [localValue, remoteValue, same key]
  all_goals cases remoteStorage.get? key <;> simp_all [Differ]

/-- Merging with a remote storage converges. -/
theorem globalState_converges (localStorage remoteStorage : Storage) (base : Option Storage)
    (machine unregistered : List String) :
    Converges localStorage remoteStorage base machine unregistered
      (merge localStorage (some remoteStorage) base machine unregistered) := by
  rw [merge]
  split
  · rename_i empty
    exact converges_of_same base machine unregistered (isEmpty_compare.mp empty)
  · dsimp only
    have localKeys := apply_newLocal localStorage remoteStorage base machine
    have remoteKeys := get?_newRemote localStorage remoteStorage base unregistered
    generalize newRemote localStorage remoteStorage base unregistered
      (compareToBase base localStorage) (compareToBase base remoteStorage) = remote
      at remoteKeys ⊢
    -- the remote storage is replaced where anything changed
    have replaced : ∀ key, ((if (compare remoteStorage remote).isEmpty then none
        else some remote).getD remoteStorage).get? key = remote.get? key := by
      intro key
      split
      · rename_i empty
        exact isEmpty_compare.mp empty key
      · rfl
    have first : ∀ key, base.isNone = true → valueIn base key = none := by
      intro key isNone
      rw [Option.isNone_iff_eq_none.mp isNone]
      rfl
    constructor
    all_goals simp only [localValue_eq, IMergeResult.remoteValue, replaced, localKeys, remoteKeys]
    · intro key notMachine registered
      simp only [notMachine, registered, decide_false]
      exact keys_agree
    · intro key notMachine registered changed unchanged
      simp only [notMachine, registered, decide_false]
      exact keys_changedInLocal changed unchanged
    · intro key notMachine registered unchanged changed
      simp only [notMachine, registered, decide_false]
      exact keys_changedInRemote unchanged changed
    · intro key notMachine registered changedInLocal changedInRemote
      simp only [notMachine, registered, decide_false]
      have decided := @keys_changedInBoth base.isNone (key = SYNC_SERVICE_URL_TYPE) _ _ _
        (first key) changedInLocal changedInRemote
      have wins : base.isNone = false ∨ decide (key = SYNC_SERVICE_URL_TYPE) = true ↔
          base.isSome ∨ key = SYNC_SERVICE_URL_TYPE := by
        cases base <;> simp
      simp only [wins] at decided
      split
      · rename_i localWins
        rwa [if_pos localWins] at decided
      · rename_i remoteWins
        rwa [if_neg remoteWins] at decided
    · intro key isMachine
      simp only [isMachine, decide_true]
      exact localKey_machine
    · intro key
      simp [compare, mem_added_compareKeys, remoteKeys]
    · intro key
      simp [compare, mem_removed_compareKeys, remoteKeys]
    · intro key
      simp [compare, mem_updated_compareKeys, differAt_equals, remoteKeys]

end GlobalState
end CodeEditor.UserDataSync
