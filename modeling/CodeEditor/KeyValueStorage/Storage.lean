import CodeEditor.Foundation.Dictionary

/-!
# The key-value storage

Model of `Storage` above a database. Requests to the database are issued, take effect one after
the other, and complete; `getItems` reads the database at some time before it completes. Values
are strings already, and change events, `optimize` and `whenFlushed` are left out.
-/

namespace CodeEditor.KeyValueStorage

variable {κ ν : Type} [DecidableEq κ] [DecidableEq ν]

inductive StorageHint where
  | STORAGE_DOES_NOT_EXIST
  | STORAGE_IN_MEMORY
deriving DecidableEq, Repr

inductive StorageState where
  | None
  | Initialized
  | Closed
deriving DecidableEq, Repr

/-- `IUpdateRequest`, with a set of keys to delete. -/
structure UpdateRequest (κ ν : Type) where
  insert : Dictionary κ ν
  delete : List κ

namespace UpdateRequest

/-- What the request does to a map. -/
def apply (request : UpdateRequest κ ν) (items : Dictionary κ ν) : Dictionary κ ν :=
  let inserted := request.insert.entries.foldl (fun items entry => items.set entry.1 entry.2) items
  request.delete.foldl Dictionary.erase inserted

end UpdateRequest

/-- A storage, and the database below it. `delayed` says that `flushDelayer` is triggered, and
`queued` that its throttler waits for the active request. `loading` has what `getItems` has read,
once it has read it, until it completes. The requests in `issued` have not taken effect, and
`applied` counts those that have, but have not completed. -/
structure Storage (κ ν : Type) where
  hint : Option StorageHint
  state : StorageState
  cache : Dictionary κ ν
  pendingInserts : Dictionary κ ν
  pendingDeletes : List κ
  pendingClose : Bool
  delayed : Bool
  queued : Bool
  loading : Option (Option (Dictionary κ ν))
  loaded : Bool
  database : Dictionary κ ν
  issued : List (UpdateRequest κ ν)
  applied : ℕ

namespace Storage

def new (hint : Option StorageHint) (database : Dictionary κ ν) : Storage κ ν where
  hint
  state := .None
  cache := .empty
  pendingInserts := .empty
  pendingDeletes := []
  pendingClose := false
  delayed := false
  queued := false
  loading := none
  loaded := false
  database
  issued := []
  applied := 0

/-! ## External changes -/

def acceptExternal (storage : Storage κ ν) (key : κ) (value : Option ν) : Storage κ ν :=
  if storage.state = .Closed then storage
  else
    match value with
    | none => { storage with cache := storage.cache.erase key }
    | some value =>
      if storage.cache.get? key ≠ some value then
        { storage with cache := storage.cache.set key value }
      else storage

def onDidChangeItemsExternal (storage : Storage κ ν) (changes : UpdateRequest κ ν) :
    Storage κ ν :=
  let storage := changes.insert.entries.foldl
    (fun storage entry => storage.acceptExternal entry.1 (some entry.2)) storage
  changes.delete.foldl (fun storage key => storage.acceptExternal key none) storage

/-! ## Loading -/

def init (storage : Storage κ ν) : Storage κ ν :=
  if storage.state ≠ .None then storage
  else
    let storage := { storage with state := .Initialized }
    if storage.hint = some .STORAGE_DOES_NOT_EXIST then { storage with loaded := true }
    else { storage with loading := some none }

/-! ## Flushing -/

def hasPending (storage : Storage κ ν) : Bool :=
  0 < storage.pendingInserts.entries.length || 0 < storage.pendingDeletes.length

def flushPending (storage : Storage κ ν) : Storage κ ν :=
  if !storage.hasPending then storage
  else { storage with
    issued := storage.issued ++ [⟨storage.pendingInserts, storage.pendingDeletes⟩]
    pendingDeletes := []
    pendingInserts := .empty }

def doFlush (storage : Storage κ ν) : Storage κ ν :=
  if storage.hint = some .STORAGE_IN_MEMORY then storage.flushPending
  else { storage with delayed := true }

def flush (storage : Storage κ ν) : Storage κ ν :=
  if storage.state = .Closed ∨ storage.pendingClose then storage else storage.doFlush

/-- The throttler has an active promise. -/
def isActive (storage : Storage κ ν) : Bool :=
  0 < storage.issued.length || 0 < storage.applied

/-! ## Changes -/

def delete (storage : Storage κ ν) (key : κ) : Storage κ ν :=
  if storage.state = .Closed then storage
  else if storage.cache.get? key = none then storage
  else doFlush { storage with
    cache := storage.cache.erase key
    pendingDeletes := addElement storage.pendingDeletes key
    pendingInserts := storage.pendingInserts.erase key }

def set (storage : Storage κ ν) (key : κ) (value : Option ν) : Storage κ ν :=
  if storage.state = .Closed then storage
  else
    match value with
    | none => storage.delete key
    | some value =>
      if storage.cache.get? key = some value then storage
      else doFlush { storage with
        cache := storage.cache.set key value
        pendingInserts := storage.pendingInserts.set key value
        pendingDeletes := storage.pendingDeletes.filter (· ≠ key) }

def close (storage : Storage κ ν) : Storage κ ν :=
  if storage.pendingClose then storage
  else doFlush { storage with pendingClose := true, state := .Closed }

/-! ## The database and the timer -/

/-- `getItems` reads the database. -/
def readItems (storage : Storage κ ν) : Storage κ ν :=
  match storage.loading with
  | some none => { storage with loading := some (some storage.database) }
  | _ => storage

/-- `getItems` completes. -/
def itemsLoaded (storage : Storage κ ν) : Storage κ ν :=
  match storage.loading with
  | some (some items) => { storage with loading := none, cache := items, loaded := true }
  | _ => storage

/-- `flushDelayer` hands its task to the throttler. -/
def delayElapsed (storage : Storage κ ν) : Storage κ ν :=
  if !storage.delayed then storage
  else
    let storage := { storage with delayed := false }
    if storage.isActive then { storage with queued := true } else storage.flushPending

/-- The request that was issued first takes effect. -/
def requestApplied (storage : Storage κ ν) : Storage κ ν :=
  match storage.issued with
  | [] => storage
  | request :: requests => { storage with
      database := request.apply storage.database
      issued := requests
      applied := storage.applied + 1 }

/-- A request that has taken effect completes. -/
def requestCompleted (storage : Storage κ ν) : Storage κ ν :=
  if storage.applied = 0 then storage
  else
    let storage := { storage with applied := storage.applied - 1 }
    if storage.queued && !storage.isActive then flushPending { storage with queued := false }
    else storage

/-- Another process changes the database, and the storage is told. -/
def changeExternally (storage : Storage κ ν) (changes : UpdateRequest κ ν) : Storage κ ν :=
  { storage with database := changes.apply storage.database }.onDidChangeItemsExternal changes

end Storage

/-- What can happen to a storage. -/
inductive Event (κ ν : Type) where
  | init
  | set (key : κ) (value : Option ν)
  | delete (key : κ)
  | flush
  | close
  | readItems
  | itemsLoaded
  | delayElapsed
  | requestApplied
  | requestCompleted
  | changeExternally (changes : UpdateRequest κ ν)

namespace Storage

def step (storage : Storage κ ν) : Event κ ν → Storage κ ν
  | .init => storage.init
  | .set key value => storage.set key value
  | .delete key => storage.delete key
  | .flush => storage.flush
  | .close => storage.close
  | .readItems => storage.readItems
  | .itemsLoaded => storage.itemsLoaded
  | .delayElapsed => storage.delayElapsed
  | .requestApplied => storage.requestApplied
  | .requestCompleted => storage.requestCompleted
  | .changeExternally changes => storage.changeExternally changes

def run (storage : Storage κ ν) (events : List (Event κ ν)) : Storage κ ν :=
  events.foldl step storage

end Storage

end KeyValueStorage
end CodeEditor

/-!
## The storage and its database agree

As long as the storage loads before it is changed, and another process keeps away from keys that
are being written and from a storage that loads or is closed, the cache has what all changes in
their order leave behind, and the database has it too as soon as no request is left.
-/

namespace CodeEditor
namespace KeyValueStorage

open List

variable {κ ν : Type} [DecidableEq κ]

/-! ## Requests -/

namespace UpdateRequest

/-- What the request makes of the value of a key. -/
def value (request : UpdateRequest κ ν) (key : κ) (old : Option ν) : Option ν :=
  if key ∈ request.delete then none else (request.insert.get? key).or old

/-- The keys that are inserted or deleted. -/
def keys (request : UpdateRequest κ ν) : List κ := request.insert.keys ++ request.delete

theorem value_of_not_mem {request : UpdateRequest κ ν} {key : κ} (not : key ∉ request.keys)
    (old : Option ν) : request.value key old = old := by
  rw [keys, mem_append] at not
  obtain ⟨notInserted, notDeleted⟩ := not_or.mp not
  rw [Dictionary.mem_keys_iff, Option.not_isSome_iff_eq_none] at notInserted
  rw [value, if_neg notDeleted, notInserted, Option.none_or]

theorem foldl_insert {entries : List (κ × ν)} (nodup : (entries.map Prod.fst).Nodup) (key : κ)
    (old : Option ν) :
    entries.foldl (fun old entry => if key = entry.1 then some entry.2 else old) old =
      (entries.lookup key).or old := by
  induction entries generalizing old with
  | nil => rfl
  | cons entry entries ih =>
    rw [map_cons, nodup_cons] at nodup
    rw [foldl_cons, ih nodup.2, lookup_cons]
    by_cases isEntry : key = entry.1
    · subst isEntry
      have absent : entries.lookup entry.1 = none := by
        rw [← Option.not_isSome_iff_eq_none, Dictionary.lookup_isSome_iff]
        exact nodup.1
      simp [absent]
    · have differs : (key == entry.1) = false := by simpa using isEntry
      rw [if_neg isEntry, differs]

theorem foldl_delete (keys : List κ) (key : κ) (old : Option ν) :
    keys.foldl (fun old deleted => if key = deleted then none else old) old =
      if key ∈ keys then none else old := by
  induction keys generalizing old with
  | nil => simp
  | cons deleted keys ih =>
    rw [foldl_cons, ih]
    by_cases isDeleted : key = deleted
    · simp [isDeleted]
    · simp [isDeleted]

/-- Two folds over a request, looked at through the view of one key. -/
theorem foldl_value {σ : Type} (request : UpdateRequest κ ν) (key : κ) (view : σ → Option ν)
    {put : σ → κ × ν → σ} {remove : σ → κ → σ}
    (view_put : ∀ s entry, view (put s entry) = if key = entry.1 then some entry.2 else view s)
    (view_remove : ∀ s deleted, view (remove s deleted) = if key = deleted then none else view s)
    (s : σ) :
    view (request.delete.foldl remove (request.insert.entries.foldl put s)) =
      request.value key (view s) := by
  have removed : ∀ s, view (request.delete.foldl remove s) = request.delete.foldl
      (fun old deleted => if key = deleted then none else old) (view s) := fun s =>
    (foldl_hom view fun s deleted => (view_remove s deleted).symm).symm
  have inserted : view (request.insert.entries.foldl put s) = request.insert.entries.foldl
      (fun old entry => if key = entry.1 then some entry.2 else old) (view s) :=
    (foldl_hom view fun s entry => (view_put s entry).symm).symm
  rw [removed, inserted, foldl_delete, foldl_insert request.insert.nodup]
  rfl

theorem get?_apply (request : UpdateRequest κ ν) (items : Dictionary κ ν) (key : κ) :
    (request.apply items).get? key = request.value key (items.get? key) :=
  request.foldl_value key (·.get? key) (fun items entry => items.get?_set entry.1 entry.2 key)
    (fun items deleted => items.get?_erase deleted key) items

end UpdateRequest

/-- What requests, one after the other, make of the value of a key. -/
def valueAfter (requests : List (UpdateRequest κ ν)) (key : κ) (old : Option ν) : Option ν :=
  requests.foldl (fun old request => request.value key old) old

variable {requests : List (UpdateRequest κ ν)}

theorem valueAfter_of_not_mem {key : κ} (not : ∀ request ∈ requests, key ∉ request.keys)
    (old : Option ν) : valueAfter requests key old = old := by
  induction requests generalizing old with
  | nil => rfl
  | cons request requests ih =>
    rw [valueAfter, foldl_cons, request.value_of_not_mem (not request (by simp))]
    exact ih (fun other member => not other (mem_cons_of_mem _ member)) old

/-! ## What the changes leave behind -/

/-- The values after all changes, by whomever, in their order; after `close` the storage makes no
more changes. -/
structure Contents (κ ν : Type) where
  closed : Bool
  values : κ → Option ν

namespace Contents

/-- A change that the storage makes. -/
def put (contents : Contents κ ν) (key : κ) (value : Option ν) : Contents κ ν :=
  if contents.closed then contents
  else { contents with values := Function.update contents.values key value }

def step (contents : Contents κ ν) : Event κ ν → Contents κ ν
  | .set key value => contents.put key value
  | .delete key => contents.put key none
  | .close => { contents with closed := true }
  | .changeExternally changes =>
    { contents with values := fun key => changes.value key (contents.values key) }
  | _ => contents

/-- The contents of a database after the events. -/
def after (database : Dictionary κ ν) (events : List (Event κ ν)) : Contents κ ν :=
  events.foldl step ⟨false, database.get?⟩

end Contents

namespace Storage

/-- The cache is loaded, or there is nothing to load. -/
def Tracks (storage : Storage κ ν) : Prop :=
  storage.loaded = true ∨ storage.hint = some .STORAGE_DOES_NOT_EXIST

/-- What is pending, as a request. -/
def pending (storage : Storage κ ν) : UpdateRequest κ ν :=
  ⟨storage.pendingInserts, storage.pendingDeletes⟩

/-- `init` has completed, no key is pending and no request is in flight. -/
def atRest (storage : Storage κ ν) : Bool :=
  storage.loaded && !storage.hasPending && !storage.isActive

/-- The condition on an event. A storage that is open is changed when it is loaded or has nothing
to load. Another process changes the database when the storage is open, `getItems` has not read
the items that it is about to return, and the keys are neither pending nor to be written. -/
def Keeps (storage : Storage κ ν) : Event κ ν → Prop
  | .set _ _ | .delete _ => storage.state = .Closed ∨ storage.Tracks
  | .changeExternally changes =>
    storage.state ≠ .Closed ∧ ¬ storage.loading.join.isSome ∧
      ∀ request ∈ storage.issued ++ [storage.pending], ∀ key ∈ changes.keys,
        key ∉ request.keys
  | _ => True

instance decidableKeeps (storage : Storage κ ν) : ∀ event, Decidable (storage.Keeps event)
  | .set _ _ => inferInstanceAs (Decidable (_ ∨ _ = _ ∨ _ = _))
  | .delete _ => inferInstanceAs (Decidable (_ ∨ _ = _ ∨ _ = _))
  | .changeExternally _ => inferInstanceAs (Decidable (_ ∧ _ ∧ _))
  | .init | .flush | .close | .readItems | .itemsLoaded | .delayElapsed | .requestApplied
  | .requestCompleted => isTrue trivial

/-- The database will have the contents once the requests and what is pending have taken effect,
and the cache has them already, unless it is still to be loaded. -/
structure Agrees (storage : Storage κ ν) (contents : Contents κ ν) : Prop where
  closed : contents.closed = true ↔ storage.state = .Closed
  closing : storage.pendingClose = true ↔ storage.state = .Closed
  stored : ∀ key, valueAfter (storage.issued ++ [storage.pending]) key
    (storage.database.get? key) = contents.values key
  tracked : storage.Tracks → ∀ key, storage.cache.get? key = contents.values key
  untouched : ¬ storage.Tracks → storage.hasPending = false ∧ storage.issued = []
  read : ∀ items, storage.loading = some (some items) →
    ∀ key, items.get? key = contents.values key
  loads : storage.loading ≠ none → ¬ storage.Tracks
  starts : storage.state = .None → storage.loaded = false ∧ storage.loading = none

/-- What is pending will be flushed. -/
structure Scheduled (storage : Storage κ ν) : Prop where
  pending : storage.hasPending = true → storage.delayed = true ∨ storage.queued = true
  waits : storage.queued = true → storage.isActive = true

theorem agrees_new {hint : Option StorageHint} {database : Dictionary κ ν}
    (missing : hint = some .STORAGE_DOES_NOT_EXIST → database.entries = []) :
    (new hint database).Agrees ⟨false, database.get?⟩ where
  closed := by simp [new]
  closing := by simp [new]
  stored key := rfl
  tracked tracks key := by
    have isEmpty := missing (tracks.resolve_left Bool.false_ne_true)
    show none = database.entries.lookup key
    rw [isEmpty]
    rfl
  untouched _ := ⟨rfl, rfl⟩
  read _ loading := nomatch loading
  loads notNone := absurd rfl notNone
  starts _ := ⟨rfl, rfl⟩

/-! ## Flushing -/

omit [DecidableEq κ] in
theorem pending_eq_of_not_hasPending {storage : Storage κ ν}
    (nothing : storage.hasPending = false) : storage.pending = ⟨.empty, []⟩ := by
  simp only [hasPending, Bool.or_eq_false_iff, decide_eq_false_iff_not, Nat.not_lt,
    Nat.le_zero, length_eq_zero_iff] at nothing
  obtain ⟨noInserts, noDeletes⟩ := nothing
  have isEmpty : storage.pendingInserts = .empty := by
    cases inserts : storage.pendingInserts
    rw [inserts] at noInserts
    cases noInserts
    rfl
  rw [pending, noDeletes, isEmpty]

omit [DecidableEq κ] in
theorem hasPending_flushPending (storage : Storage κ ν) :
    storage.flushPending.hasPending = false := by
  unfold flushPending
  split
  next nothing => simpa using nothing
  next => rfl

/-- What is pending becomes the last request. -/
theorem Agrees.flushPending {storage : Storage κ ν}
    (agrees : storage.Agrees contents) : storage.flushPending.Agrees contents := by
  unfold Storage.flushPending
  split
  next => exact agrees
  next pending =>
      exact { agrees with
        stored := by
          intro key
          rw [← agrees.stored key]
          exact foldl_append
        untouched := by
          intro tracksNot
          exact absurd (agrees.untouched tracksNot).1 (by simpa using pending) }

omit [DecidableEq κ] in
theorem isActive_flushPending {storage : Storage κ ν} (active : storage.isActive = true) :
    storage.flushPending.isActive = true := by
  unfold flushPending
  split
  next => exact active
  next => simp [isActive]

theorem Agrees.doFlush {storage : Storage κ ν}
    (agrees : storage.Agrees contents) : storage.doFlush.Agrees contents := by
  unfold Storage.doFlush
  split
  next => exact agrees.flushPending
  next => exact { agrees with }

omit [DecidableEq κ] in
/-- After a flush is asked for, what is pending will be flushed. -/
theorem scheduled_doFlush {storage : Storage κ ν}
    (waits : storage.queued = true → storage.isActive = true) : storage.doFlush.Scheduled := by
  unfold Storage.doFlush
  split
  next =>
      refine ⟨?_, ?_⟩
      · intro pending
        rw [hasPending_flushPending] at pending
        exact absurd pending Bool.false_ne_true
      · intro queued
        apply isActive_flushPending
        apply waits
        unfold Storage.flushPending at queued
        split at queued <;> exact queued
  next => exact ⟨fun _ => .inl rfl, waits⟩

/-! ## Changes -/

section Changes

variable {storage : Storage κ ν} {contents : Contents κ ν}

section

variable (agrees : storage.Agrees contents)

include agrees

theorem Agrees.put_closed (isClosed : storage.state = .Closed)
    (key : κ) (value : Option ν) : storage.Agrees (contents.put key value) := by
  rw [Contents.put, if_pos (agrees.closed.mpr isClosed)]
  exact agrees

variable {value : Option ν}

/-- The key has the value already. -/
theorem Agrees.put_same (tracks : storage.Tracks) {key : κ}
    (same : storage.cache.get? key = value) : storage.Agrees (contents.put key value) := by
  have unchanged : Function.update contents.values key value = contents.values := by
    rw [← same, agrees.tracked tracks key]
    exact Function.update_eq_self key contents.values
  rw [Contents.put, unchanged]
  split <;> exact agrees

/-- The key is changed in the cache and in what is pending. -/
theorem Agrees.put_pending (isOpen : storage.state ≠ .Closed) (tracks : storage.Tracks) {key : κ}
    {cache inserts : Dictionary κ ν} {deletes : List κ} (cached : ∀ other, cache.get? other =
      if other = key then value else storage.cache.get? other)
    (written : ∀ other old, UpdateRequest.value ⟨inserts, deletes⟩ other old =
      if other = key then value else storage.pending.value other old) :
    Agrees { storage with cache := cache, pendingInserts := inserts, pendingDeletes := deletes }
      (contents.put key value) := by
  have notClosed : ¬ contents.closed = true := fun closed => isOpen (agrees.closed.mp closed)
  rw [Contents.put, if_neg notClosed]
  exact { agrees with
    stored := by
      intro other
      have before := agrees.stored other
      rw [valueAfter, foldl_append] at before ⊢
      dsimp only
      rw [Function.update_apply, ← before]
      exact written other _
    tracked := by
      intro _ other
      dsimp only
      rw [Function.update_apply, ← agrees.tracked tracks other]
      exact cached other
    untouched := fun not => absurd tracks not
    read := fun items isLoading =>
      absurd tracks (agrees.loads (isLoading ▸ Option.some_ne_none _)) }

theorem Agrees.delete (keeps : storage.state = .Closed ∨ storage.Tracks) :
    (storage.delete key).Agrees (contents.put key none) := by
  unfold Storage.delete
  split
  next isClosed => exact agrees.put_closed isClosed key none
  next isOpen =>
      have tracks := keeps.resolve_left isOpen
      split
      next absent => exact agrees.put_same tracks absent
      next =>
          apply Agrees.doFlush
          apply agrees.put_pending isOpen tracks
          · intro other
            exact Dictionary.get?_erase storage.cache key other
          · intro other old
            rw [UpdateRequest.value, UpdateRequest.value]
            by_cases isKey : other = key
            · simp [isKey]
            · simp only [mem_addElement, isKey, false_or, Dictionary.get?_erase, if_false]
              rfl

theorem Agrees.set [DecidableEq ν] (keeps : storage.state = .Closed ∨ storage.Tracks) :
    (storage.set key value).Agrees (contents.put key value) := by
  unfold Storage.set
  split
  next isClosed => exact agrees.put_closed isClosed key value
  next isOpen =>
      have tracks := keeps.resolve_left isOpen
      cases value with
      | none => exact agrees.delete keeps
      | some value =>
        dsimp only
        split
        next same => exact agrees.put_same tracks same
        next =>
            apply Agrees.doFlush
            apply agrees.put_pending isOpen tracks
            · intro other
              exact Dictionary.get?_set storage.cache key value other
            · intro other old
              rw [UpdateRequest.value, UpdateRequest.value]
              by_cases isKey : other = key
              · simp [isKey]
              · simp only [mem_filter, isKey, Dictionary.get?_set, if_false, ne_eq,
                  not_false_eq_true, decide_true, and_true]
                rfl

theorem Agrees.close : storage.close.Agrees { contents with closed := true } := by
  unfold Storage.close
  split
  next closing =>
      exact { agrees with closed := ⟨fun _ => agrees.closing.mp closing, fun _ => rfl⟩ }
  next =>
      apply Agrees.doFlush
      exact { agrees with
        closed := by simp
        closing := by simp
        starts := nofun }

/-! ## Loading -/

theorem Agrees.init : storage.init.Agrees contents := by
  unfold Storage.init
  split
  next => exact agrees
  next isNew =>
      have isNone : storage.state = .None := not_not.mp isNew
      have notClosed : contents.closed = true ↔ StorageState.Initialized = .Closed := by
        rw [agrees.closed, isNone]
        decide
      have notClosing : storage.pendingClose = true ↔ StorageState.Initialized = .Closed := by
        rw [agrees.closing, isNone]
        decide
      dsimp only
      split
      next nothingToLoad =>
          have tracks : storage.Tracks := .inr nothingToLoad
          exact { agrees with
            closed := notClosed
            closing := notClosing
            tracked := fun _ => agrees.tracked tracks
            untouched := fun not => absurd (.inl rfl) not
            loads := fun isLoading => absurd tracks (agrees.loads isLoading)
            starts := nofun }
      next toLoad =>
          exact { agrees with
            closed := notClosed
            closing := notClosing
            read := nofun
            loads := by
              rintro _ (loaded | nothingToLoad)
              · rw [(agrees.starts isNone).1] at loaded
                exact Bool.false_ne_true loaded
              · exact toLoad nothingToLoad
            starts := nofun }

/-- While the storage is being loaded, the database has the contents. -/
theorem Agrees.database_eq (tracksNot : ¬ storage.Tracks)
    (key : κ) : storage.database.get? key = contents.values key := by
  obtain ⟨noPending, noIssued⟩ := agrees.untouched tracksNot
  rw [← agrees.stored key, noIssued, pending_eq_of_not_hasPending noPending]
  rfl

theorem Agrees.readItems : storage.readItems.Agrees contents := by
  unfold Storage.readItems
  split
  next isLoading =>
      have tracksNot := agrees.loads (isLoading ▸ Option.some_ne_none _)
      exact { agrees with
        read := by
          rintro items ⟨⟩
          exact agrees.database_eq tracksNot
        loads := fun _ => tracksNot
        starts := by
          intro isNone
          rw [(agrees.starts isNone).2] at isLoading
          cases isLoading }
  next => exact agrees

theorem Agrees.itemsLoaded : storage.itemsLoaded.Agrees contents := by
  unfold Storage.itemsLoaded
  split
  next items isLoading =>
      exact { agrees with
        tracked := fun _ => agrees.read items isLoading
        untouched := fun not => absurd (.inl rfl) not
        read := nofun
        loads := fun notNone => absurd rfl notNone
        starts := by
          intro isNone
          rw [(agrees.starts isNone).2] at isLoading
          cases isLoading }
  next => exact agrees

/-! ## The database and the timer -/

theorem Agrees.delayElapsed : storage.delayElapsed.Agrees contents := by
  unfold Storage.delayElapsed
  split
  next => exact agrees
  next =>
      dsimp only
      split
      next => exact { agrees with }
      next =>
          apply Agrees.flushPending
          exact { agrees with }

/-- A request that takes effect is moved from what is issued to the database. -/
theorem Agrees.requestApplied : storage.requestApplied.Agrees contents := by
  unfold Storage.requestApplied
  split
  next => exact agrees
  next request requests issued =>
      have tracks : storage.Tracks := by
        by_contra tracksNot
        rw [(agrees.untouched tracksNot).2] at issued
        cases issued
      exact { agrees with
        stored := by
          intro key
          rw [← agrees.stored key, issued]
          rw [request.get?_apply]
          rfl
        untouched := fun not => absurd tracks not }

theorem Agrees.requestCompleted : storage.requestCompleted.Agrees contents := by
  unfold Storage.requestCompleted
  split
  next => exact agrees
  next =>
      dsimp only
      split
      next =>
          apply Agrees.flushPending
          exact { agrees with }
      next => exact { agrees with }

end

/-! ## External changes -/

section External

variable [DecidableEq ν]

/-- The cache after an external change to a key. -/
def accepted (cache : Dictionary κ ν) (key : κ) : Option ν → Dictionary κ ν
  | none => cache.erase key
  | some value => if cache.get? key ≠ some value then cache.set key value else cache

theorem get?_accepted (cache : Dictionary κ ν) (key : κ) (value : Option ν) (other : κ) :
    (accepted cache key value).get? other = if other = key then value else cache.get? other := by
  cases value with
  | none => exact cache.get?_erase key other
  | some value =>
    rw [accepted]
    split
    next => exact cache.get?_set key value other
    next same =>
        split
        next isKey => rw [isKey, not_not.mp same]
        next => rfl

theorem acceptExternal_eq (isOpen : storage.state ≠ .Closed) (key : κ) (value : Option ν) :
    storage.acceptExternal key value =
      { storage with cache := accepted storage.cache key value } := by
  unfold acceptExternal
  rw [if_neg isOpen]
  cases value with
  | none => rfl
  | some value =>
    rw [accepted]
    dsimp only
    split <;> rfl

omit [DecidableEq κ] [DecidableEq ν] in
/-- Steps that change the cache only, as long as the storage is open. -/
theorem foldl_cache {β : Type} {step : Storage κ ν → β → Storage κ ν}
    {act : Dictionary κ ν → β → Dictionary κ ν}
    (acts : ∀ storage b, storage.state ≠ .Closed →
      step storage b = { storage with cache := act storage.cache b })
    (list : List β) (storage : Storage κ ν) (isOpen : storage.state ≠ .Closed) :
    list.foldl step storage = { storage with cache := list.foldl act storage.cache } := by
  induction list generalizing storage with
  | nil => rfl
  | cons b list ih =>
    rw [foldl_cons, acts storage b isOpen]
    exact ih _ isOpen

theorem onDidChangeItemsExternal_eq (isOpen : storage.state ≠ .Closed)
    (changes : UpdateRequest κ ν) :
    ∃ cache, storage.onDidChangeItemsExternal changes = { storage with cache } ∧
      ∀ key, cache.get? key = changes.value key (storage.cache.get? key) := by
  let put (cache : Dictionary κ ν) (entry : κ × ν) := accepted cache entry.1 (some entry.2)
  let remove (cache : Dictionary κ ν) (key : κ) := accepted cache key none
  refine ⟨changes.delete.foldl remove (changes.insert.entries.foldl put storage.cache), ?_, ?_⟩
  · have inserted (storage : Storage κ ν) (isOpen : storage.state ≠ .Closed) :
        changes.insert.entries.foldl
          (fun storage entry => storage.acceptExternal entry.1 (some entry.2)) storage =
        { storage with cache := changes.insert.entries.foldl put storage.cache } :=
      foldl_cache (fun _ entry isOpen => acceptExternal_eq isOpen entry.1 (some entry.2)) _ _ isOpen
    have removed (storage : Storage κ ν) (isOpen : storage.state ≠ .Closed) :
        changes.delete.foldl (fun storage key => storage.acceptExternal key none) storage =
        { storage with cache := changes.delete.foldl remove storage.cache } :=
      foldl_cache (fun _ key isOpen => acceptExternal_eq isOpen key none) _ _ isOpen
    rw [onDidChangeItemsExternal, inserted storage isOpen]
    exact removed _ isOpen
  · intro key
    exact changes.foldl_value key (·.get? key)
      (fun cache entry => get?_accepted cache entry.1 (some entry.2) key)
      (fun cache deleted => get?_accepted cache deleted none key) storage.cache

omit [DecidableEq ν] in
/-- The requests do not touch the keys that another process changes. -/
theorem valueAfter_external {changes : UpdateRequest κ ν}
    (apart : ∀ request ∈ requests, ∀ key ∈ changes.keys, key ∉ request.keys) (key : κ)
    (old : Option ν) : valueAfter requests key (changes.value key old) =
      changes.value key (valueAfter requests key old) := by
  by_cases touched : key ∈ changes.keys
  · have untouched : ∀ request ∈ requests, key ∉ request.keys := fun request member =>
      apart request member key touched
    rw [valueAfter_of_not_mem untouched, valueAfter_of_not_mem untouched]
  · rw [changes.value_of_not_mem touched, changes.value_of_not_mem touched]

theorem Agrees.changeExternally (agrees : storage.Agrees contents)
    (keeps : storage.Keeps (.changeExternally changes)) :
    (storage.changeExternally changes).Agrees (contents.step (.changeExternally changes)) := by
  obtain ⟨isOpen, notRead, apart⟩ := keeps
  obtain ⟨cache, told, changed⟩ := @onDidChangeItemsExternal_eq _ _ _
    { storage with database := changes.apply storage.database } _ isOpen changes
  rw [Storage.changeExternally, told]
  exact { agrees with
    stored := by
      intro key
      show valueAfter (storage.issued ++ [storage.pending]) key _ = changes.value key _
      rw [changes.get?_apply, valueAfter_external apart, agrees.stored]
    tracked := by
      intro tracks key
      rw [changed]
      exact congrArg (changes.value key) (agrees.tracked tracks key)
    read := fun items isLoading => absurd (by rw [isLoading]; rfl) notRead }

end External

theorem Agrees.step [DecidableEq ν] (agrees : storage.Agrees contents) {event : Event κ ν}
    (keeps : storage.Keeps event) : (storage.step event).Agrees (contents.step event) := by
  cases event with
  | init => exact agrees.init
  | set key value => exact agrees.set keeps
  | delete key => exact agrees.delete keeps
  | flush =>
    unfold Storage.step Storage.flush
    dsimp only
    split
    next => exact agrees
    next => exact agrees.doFlush
  | close => exact agrees.close
  | readItems => exact agrees.readItems
  | itemsLoaded => exact agrees.itemsLoaded
  | delayElapsed => exact agrees.delayElapsed
  | requestApplied => exact agrees.requestApplied
  | requestCompleted => exact agrees.requestCompleted
  | changeExternally changes => exact agrees.changeExternally keeps

end Changes

/-! ## What is pending is flushed -/

section Scheduling

variable [DecidableEq ν] {storage : Storage κ ν}

theorem Scheduled.acceptExternal (scheduled : storage.Scheduled) (key : κ) (value : Option ν) :
    (storage.acceptExternal key value).Scheduled := by
  unfold Storage.acceptExternal
  split
  next => exact scheduled
  next =>
      cases value with
      | none => exact ⟨scheduled.pending, scheduled.waits⟩
      | some value =>
        dsimp only
        split
        next => exact ⟨scheduled.pending, scheduled.waits⟩
        next => exact scheduled

theorem Scheduled.changeExternally (scheduled : storage.Scheduled)
    (changes : UpdateRequest κ ν) : (storage.changeExternally changes).Scheduled := by
  unfold Storage.changeExternally onDidChangeItemsExternal
  apply List.foldlRecOn
  · apply List.foldlRecOn
    · exact ⟨scheduled.pending, scheduled.waits⟩
    · intro storage scheduled entry _
      exact scheduled.acceptExternal entry.1 (some entry.2)
  · intro storage scheduled key _
    exact scheduled.acceptExternal key none

omit [DecidableEq ν] in
theorem Scheduled.delete (scheduled : storage.Scheduled) (key : κ) :
    (storage.delete key).Scheduled := by
  unfold Storage.delete
  split
  next => exact scheduled
  next =>
      split
      next => exact scheduled
      next => exact scheduled_doFlush scheduled.waits

theorem Scheduled.set (scheduled : storage.Scheduled) (key : κ) (value : Option ν) :
    (storage.set key value).Scheduled := by
  unfold Storage.set
  split
  next => exact scheduled
  next =>
      cases value with
      | none => exact scheduled.delete key
      | some value =>
        dsimp only
        split
        next => exact scheduled
        next => exact scheduled_doFlush scheduled.waits

omit [DecidableEq κ] [DecidableEq ν] in
/-- A flush leaves nothing pending. -/
theorem scheduled_flushPending (idle : storage.queued = false) :
    storage.flushPending.Scheduled := by
  constructor
  · intro pending
    rw [hasPending_flushPending] at pending
    exact absurd pending Bool.false_ne_true
  · intro queued
    have kept : storage.flushPending.queued = storage.queued := by
      unfold flushPending
      split <;> rfl
    rw [kept, idle] at queued
    exact absurd queued Bool.false_ne_true

omit [DecidableEq κ] [DecidableEq ν] in
theorem Scheduled.delayElapsed (scheduled : storage.Scheduled) :
    storage.delayElapsed.Scheduled := by
  unfold Storage.delayElapsed
  split
  next => exact scheduled
  next =>
      dsimp only
      split
      next active => exact ⟨fun _ => .inr rfl, fun _ => active⟩
      next idle =>
          apply scheduled_flushPending
          cases queued : storage.queued with
          | false => rfl
          | true => exact absurd (scheduled.waits queued) idle

omit [DecidableEq κ] [DecidableEq ν] in
theorem Scheduled.requestCompleted (scheduled : storage.Scheduled) :
    storage.requestCompleted.Scheduled := by
  unfold Storage.requestCompleted
  split
  next => exact scheduled
  next =>
      dsimp only
      split
      next => exact scheduled_flushPending rfl
      next waits =>
          refine ⟨scheduled.pending, ?_⟩
          intro queued
          by_contra idle
          exact waits (by simpa [Bool.eq_false_iff.mpr idle] using queued)

theorem Scheduled.step (scheduled : storage.Scheduled) (event : Event κ ν) :
    (storage.step event).Scheduled := by
  cases event with
  | init =>
    unfold Storage.step Storage.init
    dsimp only
    split
    next => exact scheduled
    next => split <;> exact ⟨scheduled.pending, scheduled.waits⟩
  | set key value => exact scheduled.set key value
  | delete key => exact scheduled.delete key
  | flush =>
    unfold Storage.step Storage.flush
    dsimp only
    split
    next => exact scheduled
    next => exact scheduled_doFlush scheduled.waits
  | close =>
    unfold Storage.step Storage.close
    dsimp only
    split
    next => exact scheduled
    next => exact scheduled_doFlush scheduled.waits
  | readItems =>
    unfold Storage.step Storage.readItems
    dsimp only
    split <;> exact ⟨scheduled.pending, scheduled.waits⟩
  | itemsLoaded =>
    unfold Storage.step Storage.itemsLoaded
    dsimp only
    split <;> exact ⟨scheduled.pending, scheduled.waits⟩
  | delayElapsed => exact scheduled.delayElapsed
  | requestApplied =>
    unfold Storage.step Storage.requestApplied
    dsimp only
    split
    next => exact scheduled
    next => exact ⟨scheduled.pending, fun _ => by simp [isActive]⟩
  | requestCompleted => exact scheduled.requestCompleted
  | changeExternally changes => exact scheduled.changeExternally changes

end Scheduling

/-! ## Runs -/

/-- Every event of a run keeps to the condition in the state that it finds. -/
def Runs [DecidableEq ν] (storage : Storage κ ν) : List (Event κ ν) → Prop
  | [] => True
  | event :: events => storage.Keeps event ∧ (storage.step event).Runs events

instance decidableRuns [DecidableEq ν] :
    ∀ (storage : Storage κ ν) (events : List (Event κ ν)), Decidable (storage.Runs events)
  | _, [] => isTrue trivial
  | storage, event :: events =>
    have := decidableRuns (storage.step event) events
    inferInstanceAs (Decidable (_ ∧ _))

theorem Agrees.run [DecidableEq ν] {storage : Storage κ ν}
    (agrees : storage.Agrees contents) (runs : storage.Runs events) :
    (storage.run events).Agrees (events.foldl Contents.step contents) := by
  induction events generalizing storage contents with
  | nil => exact agrees
  | cons event events ih => exact ih (agrees.step runs.1) runs.2

theorem Scheduled.run [DecidableEq ν] {storage : Storage κ ν} (scheduled : storage.Scheduled)
    (events : List (Event κ ν)) : (storage.run events).Scheduled := by
  induction events generalizing storage with
  | nil => exact scheduled
  | cons event events ih => exact ih (scheduled.step event)

/-- At rest, the cache and the database agree, and no change has been lost; what is pending does
not stay so. -/
theorem storage_agrees [DecidableEq ν] (hint : Option StorageHint) (database : Dictionary κ ν)
    (missing : hint = some .STORAGE_DOES_NOT_EXIST → database.entries = [])
    (events : List (Event κ ν)) (runs : (new hint database).Runs events) :
    let storage := (new hint database).run events
    (storage.atRest = true → ∀ key, storage.cache.get? key = storage.database.get? key ∧
      storage.database.get? key = (Contents.after database events).values key) ∧
    (storage.hasPending = true → storage.delayed = true ∨ storage.queued = true ∧
      storage.isActive = true) := by
  have agrees := (agrees_new missing).run runs
  have scheduled : (new hint database).Scheduled := ⟨nofun, nofun⟩
  have pending := scheduled.run events
  refine ⟨?_, ?_⟩
  · intro isAtRest key
    simp only [atRest, Bool.and_eq_true, Bool.not_eq_true'] at isAtRest
    obtain ⟨⟨loaded, nothing⟩, idle⟩ := isAtRest
    have noIssued : ((new hint database).run events).issued = [] := by
      simp only [isActive, Bool.or_eq_false_iff, decide_eq_false_iff_not, Nat.not_lt,
        Nat.le_zero, length_eq_zero_iff] at idle
      exact idle.1
    have stored := agrees.stored key
    rw [noIssued, pending_eq_of_not_hasPending nothing] at stored
    exact ⟨(agrees.tracked (.inl loaded) key).trans stored.symm, stored⟩
  · intro isPending
    exact (pending.pending isPending).imp_right fun queued => ⟨queued, pending.waits queued⟩

/-- A value is set and flushed, another process deletes it while it is not being written, and a
value that is set before `close` is flushed afterwards. -/
def flushedAtLast : List (Event ℕ ℕ) :=
  [.init, .readItems, .itemsLoaded, .set 1 (some 10), .delayElapsed, .set 2 (some 20),
    .requestApplied, .requestCompleted, .changeExternally ⟨.empty, [1]⟩, .close, .delayElapsed,
    .requestApplied, .requestCompleted]

theorem storage_agrees_flushedAtLast :
    let storage : Storage ℕ ℕ := (new none .empty).run flushedAtLast
    (storage.atRest = true → ∀ key, storage.cache.get? key = storage.database.get? key ∧
      storage.database.get? key = (Contents.after .empty flushedAtLast).values key) ∧
    (storage.hasPending = true → storage.delayed = true ∨ storage.queued = true ∧
      storage.isActive = true) :=
  storage_agrees none .empty nofun flushedAtLast (by decide)

/-- Another process sets a value after the storage has been closed. -/
def changedAfterClose : List (Event ℕ ℕ) :=
  [.init, .readItems, .itemsLoaded, .close, .delayElapsed,
    .changeExternally ⟨Dictionary.empty.set 1 10, []⟩]

/-- A closed storage does not accept external changes. -/
theorem closed_storage_disagrees :
    let storage : Storage ℕ ℕ := (new none .empty).run changedAfterClose
    storage.atRest = true ∧ storage.cache.get? 1 = none ∧ storage.database.get? 1 = some 10 := by
  decide

end Storage

end CodeEditor.KeyValueStorage
