import CodeEditor.Foundation.Dictionary
import CodeEditor.Uri.Uri

/-!
# Coalescing file events

Model of `EventCoalescer` in `watcher.ts` and of `isParent` in `files.ts`. A change object is
known by its place in the list of the objects met so far, so that the set and the map share it.
-/

namespace CodeEditor.Watcher

open Uri

inductive FileChangeType
  | updated
  | added
  | deleted
  deriving DecidableEq

/-- One change of a file. -/
structure IFileChange where
  type : FileChangeType
  resource : URI
  deriving DecidableEq

/-- What is asked of the platform; `toLowerCase` is the method of strings. -/
structure Platform where
  isWindows : Bool
  isLinux : Bool
  toLowerCase : Text → Text

/-- The separator of file system paths. -/
def Platform.sep (platform : Platform) : CodeUnit :=
  if platform.isWindows then backslash else slash

def IFileChange.fsPath (platform : Platform) (event : IFileChange) : Text :=
  event.resource.fsPath platform.isWindows

/-! ## Parents -/

/-- The loop of `compareSubstring`, over `count` code units. -/
def compareSubstring (a b : Text) (start : Nat) : Nat → Int
  | 0 => 0
  | count + 1 =>
    match a[start]?, b[start]? with
    | some codeA, some codeB =>
      if codeA < codeB then -1
      else if codeA > codeB then 1
      else compareSubstring a b (start + 1) count
    | _, _ => compareSubstring a b (start + 1) count

/-- The upper case variant of a letter of ASCII. -/
def toUpperAscii (code : CodeUnit) : CodeUnit := if isLowerCase code then code - 32 else code

/-- The loop of `compareSubstringIgnoreCase`, over `count` code units. -/
def compareSubstringIgnoreCase (platform : Platform) (a b : Text) (start : Nat) : Nat → Int
  | 0 => 0
  | count + 1 =>
    match a[start]?, b[start]? with
    | some codeA, some codeB =>
      if codeA = codeB then compareSubstringIgnoreCase platform a b (start + 1) count
      else if codeA ≥ 128 ∨ codeB ≥ 128 then
        -- not ASCII letters -> fallback to lower-casing strings
        compareSubstring (platform.toLowerCase a) (platform.toLowerCase b) start (count + 1)
      else
        let diff : Int := (toUpperAscii codeA).toNat - (toUpperAscii codeB).toNat
        if diff = 0 then compareSubstringIgnoreCase platform a b (start + 1) count
        else diff
    -- not reached; the difference would not be a number
    | _, _ => 1

def startsWithIgnoreCase (platform : Platform) (str candidate : Text) : Bool :=
  if str.length < candidate.length then false
  else compareSubstringIgnoreCase platform str candidate 0 candidate.length = 0

/-- A candidate ends with a separator. -/
def withSeparator (platform : Platform) (candidate : Text) : Text :=
  if candidate.getLast? ≠ some platform.sep then candidate ++ [platform.sep] else candidate

def isParent (platform : Platform) (path candidate : Text) (ignoreCase : Bool) : Bool :=
  if path = [] ∨ candidate = [] ∨ path = candidate then false
  else if path.length < candidate.length then false
  else if ignoreCase then startsWithIgnoreCase platform path (withSeparator platform candidate)
  else (withSeparator platform candidate).isPrefixOf path

/-! ## The coalescer -/

structure EventCoalescer where
  /-- The change objects met so far. -/
  objects : List IFileChange
  coalesced : List Nat
  mapPathToChange : Dictionary Text Nat

namespace EventCoalescer

def new : EventCoalescer := ⟨[], [], .empty⟩

def toKey (platform : Platform) (event : IFileChange) : Text :=
  if platform.isLinux then event.fsPath platform
  else platform.toLowerCase (event.fsPath platform) -- normalise to file system case sensitivity

/-- The change object of a key. -/
def existing? (coalescer : EventCoalescer) (key : Text) : Option (Nat × IFileChange) :=
  (coalescer.mapPathToChange.get? key).bind fun reference =>
    (coalescer.objects[reference]?).map fun event => (reference, event)

/-- The event is added to the set and to the map. -/
def keepEvent (platform : Platform) (coalescer : EventCoalescer) (reference : Nat)
    (event : IFileChange) : EventCoalescer :=
  { coalescer with
    coalesced := addElement coalescer.coalesced reference
    mapPathToChange := coalescer.mapPathToChange.set (toKey platform event) reference }

/-- A change object gets another type. -/
def setType (coalescer : EventCoalescer) (reference : Nat) (event : IFileChange)
    (type : FileChangeType) : EventCoalescer :=
  { coalescer with objects := coalescer.objects.set reference { event with type } }

/-- The coalescer has met one more object. -/
def meet (coalescer : EventCoalescer) (event : IFileChange) : EventCoalescer :=
  { coalescer with objects := coalescer.objects ++ [event] }

/-- The branches of `processEvent` for a path that has an object already. -/
def processExisting (platform : Platform) (coalescer : EventCoalescer) (existing : Nat)
    (existingEvent : IFileChange) (reference : Nat) (event : IFileChange) : EventCoalescer :=
  -- macOS/Windows: track renames to different case
  if existingEvent.fsPath platform ≠ event.fsPath platform ∧
      (event.type = .deleted ∨ event.type = .added) then
    coalescer.keepEvent platform reference event
  -- Ignore CREATE followed by DELETE in one go
  else if existingEvent.type = .added ∧ event.type = .deleted then
    { coalescer with
      mapPathToChange := coalescer.mapPathToChange.erase (toKey platform event)
      coalesced := coalescer.coalesced.erase existing }
  -- Flatten DELETE followed by CREATE into CHANGE
  else if existingEvent.type = .deleted ∧ event.type = .added then
    coalescer.setType existing existingEvent .updated
  -- Do nothing. Keep the created event
  else if existingEvent.type = .added ∧ event.type = .updated then coalescer
  -- Otherwise apply change type
  else coalescer.setType existing existingEvent event.type

def processEvent (platform : Platform) (coalescer : EventCoalescer) (event : IFileChange) :
    EventCoalescer :=
  let reference := coalescer.objects.length
  match (coalescer.meet event).existing? (toKey platform event) with
  | none => (coalescer.meet event).keepEvent platform reference event
  | some (existing, existingEvent) =>
    (coalescer.meet event).processExisting platform existing existingEvent reference event

/-- The deletions without those below a path that is deleted already. -/
def withoutDeletedParents (platform : Platform) :
    List Text → List IFileChange → List IFileChange
  | _, [] => []
  | deletedPaths, e :: rest =>
    if deletedPaths.any fun deletedPath =>
        isParent platform (e.fsPath platform) deletedPath (!platform.isLinux) then
      withoutDeletedParents platform deletedPaths rest
    else e :: withoutDeletedParents platform (deletedPaths ++ [e.fsPath platform]) rest

/-- The change objects in the set. -/
def events (coalescer : EventCoalescer) : List IFileChange :=
  coalescer.coalesced.filterMap fun reference => coalescer.objects[reference]?

def coalesce (platform : Platform) (coalescer : EventCoalescer) : List IFileChange :=
  let addOrChangeEvents := coalescer.events.filter fun e => e.type ≠ .deleted
  let deleted := coalescer.events.filter fun e => e.type = .deleted
  -- shortest path first
  let sorted := deleted.mergeSort fun e1 e2 =>
    (e1.fsPath platform).length ≤ (e2.fsPath platform).length
  withoutDeletedParents platform [] sorted ++ addOrChangeEvents

end EventCoalescer

def coalesceEvents (platform : Platform) (changes : List IFileChange) : List IFileChange :=
  (changes.foldl (EventCoalescer.processEvent platform) .new).coalesce platform

end CodeEditor.Watcher
