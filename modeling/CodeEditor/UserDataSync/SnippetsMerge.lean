import CodeEditor.Foundation.Dictionary

/-!
# Merging snippets

Model of `snippetsMerge.ts`. A dictionary of strings is a `Dictionary` with the keys in
the order of `Object.keys`; all its keys are own properties. The passes of `merge` over
the three comparisons are steps on a draft of the result.
-/

namespace CodeEditor.UserDataSync

open List

abbrev Snippets := Dictionary String String

/-- What is to be done on one side. -/
structure Changes where
  added : Snippets := .empty
  updated : Snippets := .empty
  removed : List String := []

structure IMergeResult where
  localChanges : Changes := {}
  remoteChanges : Changes := {}
  conflicts : List String := []

def compare (source target : Option Snippets) : KeyComparison String :=
  compareKeys (fun first second => decide (first = second)) [] source target

def areSame (a b : Snippets) : Bool := (compare (some a) (some b)).isEmpty

section Passes

variable (localSnippets remoteSnippets : Snippets)
  (localToRemote baseToLocal baseToRemote : KeyComparison String)

/-- Removed snippets in local. -/
def removedInLocal (r : IMergeResult) (key : String) : IMergeResult :=
  if key ∈ baseToRemote.updated then
    -- got updated in remote: add to local
    { r with localChanges.added := r.localChanges.added.copy remoteSnippets key }
  else
    { r with remoteChanges.removed := addElement r.remoteChanges.removed key }

/-- Removed snippets in remote. -/
def removedInRemote (r : IMergeResult) (key : String) : IMergeResult :=
  if key ∈ r.conflicts then r
  else if key ∈ baseToLocal.updated then
    { r with conflicts := addElement r.conflicts key }
  else
    { r with localChanges.removed := addElement r.localChanges.removed key }

/-- Updated snippets in local. -/
def updatedInLocal (r : IMergeResult) (key : String) : IMergeResult :=
  if key ∈ r.conflicts then r
  else if key ∈ baseToRemote.updated then
    if key ∈ localToRemote.updated then
      { r with conflicts := addElement r.conflicts key }
    else r
  else
    { r with remoteChanges.updated := r.remoteChanges.updated.copy localSnippets key }

/-- Updated snippets in remote. -/
def updatedInRemote (r : IMergeResult) (key : String) : IMergeResult :=
  if key ∈ r.conflicts then r
  else if key ∈ baseToLocal.updated then
    if key ∈ localToRemote.updated then
      { r with conflicts := addElement r.conflicts key }
    else r
  else if (localSnippets.get? key).isSome then
    { r with localChanges.updated := r.localChanges.updated.copy remoteSnippets key }
  else r

/-- Added snippets in local. -/
def addedInLocal (r : IMergeResult) (key : String) : IMergeResult :=
  if key ∈ r.conflicts then r
  else if key ∈ baseToRemote.added then
    if key ∈ localToRemote.updated then
      { r with conflicts := addElement r.conflicts key }
    else r
  else
    { r with remoteChanges.added := r.remoteChanges.added.copy localSnippets key }

/-- Added snippets in remote. -/
def addedInRemote (r : IMergeResult) (key : String) : IMergeResult :=
  if key ∈ r.conflicts then r
  else if key ∈ baseToLocal.added then
    if key ∈ localToRemote.updated then
      { r with conflicts := addElement r.conflicts key }
    else r
  else
    { r with localChanges.added := r.localChanges.added.copy remoteSnippets key }

end Passes

/-- The six passes over the comparisons. -/
def mergePasses (localSnippets remoteSnippets : Snippets)
    (localToRemote baseToLocal baseToRemote : KeyComparison String) : IMergeResult :=
  let r := baseToLocal.removed.foldl (removedInLocal remoteSnippets baseToRemote) {}
  let r := baseToRemote.removed.foldl (removedInRemote baseToLocal) r
  let r := baseToLocal.updated.foldl (updatedInLocal localSnippets localToRemote baseToRemote) r
  let r := baseToRemote.updated.foldl
    (updatedInRemote localSnippets remoteSnippets localToRemote baseToLocal) r
  let r := baseToLocal.added.foldl (addedInLocal localSnippets localToRemote baseToRemote) r
  baseToRemote.added.foldl (addedInRemote remoteSnippets localToRemote baseToLocal) r

def merge (localSnippets : Snippets) (remote base : Option Snippets) : IMergeResult :=
  match remote with
  | none => { remoteChanges.added := localSnippets }
  | some remoteSnippets =>
    let localToRemote := compare (some localSnippets) (some remoteSnippets)
    -- no changes found between local and remote
    if localToRemote.isEmpty then {}
    else
      mergePasses localSnippets remoteSnippets localToRemote
        (compare base (some localSnippets)) (compare base (some remoteSnippets))

/-!
## Convergence of merged snippets

The passes of `merge` decide every key on its own, from its values in the base, in local
and in remote. The decision is right except for a key that was removed on both sides.
-/

/-! ## Comparisons -/

section Compare

variable (source target : Option Snippets) {key : String}

theorem mem_added : key ∈ (compare source target).added ↔
    valueIn source key = none ∧ (valueIn target key).isSome := by
  simp [compare, mem_added_compareKeys]

theorem mem_removed : key ∈ (compare source target).removed ↔
    (valueIn source key).isSome ∧ valueIn target key = none := by
  simp [compare, mem_removed_compareKeys]

theorem mem_updated : key ∈ (compare source target).updated ↔
    Differ (valueIn source key) (valueIn target key) := by
  simp [compare, mem_updated_compareKeys, differAt_eq]

theorem nodup_added : (compare source target).added.Nodup := nodup_added_compareKeys

theorem nodup_removed : (compare source target).removed.Nodup := nodup_removed_compareKeys

theorem nodup_updated : (compare source target).updated.Nodup := nodup_updated_compareKeys

end Compare

theorem isEmpty_compare : (compare (some a) (some b)).isEmpty ↔ ∀ key, a.get? key = b.get? key :=
  isEmpty_compareKeys_eq

/-! ## One key at a time -/

/-- What the changes of one side do to a key. -/
structure KeyChanges where
  added : Option String := none
  updated : Option String := none
  removed : Bool := false
  deriving DecidableEq

/-- What a result says about one key. -/
structure KeyResult where
  localChanges : KeyChanges := {}
  remoteChanges : KeyChanges := {}
  conflict : Bool := false
  deriving DecidableEq

def Changes.at (changes : Changes) (key : String) : KeyChanges where
  added := changes.added.get? key
  updated := changes.updated.get? key
  removed := key ∈ changes.removed

def IMergeResult.at (r : IMergeResult) (key : String) : KeyResult where
  localChanges := r.localChanges.at key
  remoteChanges := r.remoteChanges.at key
  conflict := key ∈ r.conflicts

/-- The decision about a key, from its values in the base, in local and in remote. -/
def mergeKey : (base localValue remoteValue : Option String) → KeyResult
  | none, none, none => {}
  | none, none, some r => { localChanges.added := some r }
  | none, some l, none => { remoteChanges.added := some l }
  | none, some l, some r => if l = r then {} else { conflict := true }
  | some _, none, none => { localChanges.removed := true, remoteChanges.removed := true }
  | some b, none, some r =>
    if b = r then { remoteChanges.removed := true } else { localChanges.added := some r }
  | some b, some l, none =>
    if b = l then { localChanges.removed := true } else { conflict := true }
  | some b, some l, some r =>
    if b = l then if b = r then {} else { localChanges.updated := some r }
    else if b = r then { remoteChanges.updated := some l }
    else if l = r then {} else { conflict := true }

/-! The passes as seen by one key. -/

namespace KeyResult

variable (base localValue remoteValue : Option String)

def removedInLocal (v : KeyResult) : KeyResult :=
  if Differ base remoteValue then
    { v with localChanges.added := remoteValue.or v.localChanges.added }
  else { v with remoteChanges.removed := true }

def removedInRemote (v : KeyResult) : KeyResult :=
  if v.conflict then v
  else if Differ base localValue then { v with conflict := true }
  else { v with localChanges.removed := true }

def updatedInLocal (v : KeyResult) : KeyResult :=
  if v.conflict then v
  else if Differ base remoteValue then
    if Differ localValue remoteValue then { v with conflict := true } else v
  else { v with remoteChanges.updated := localValue.or v.remoteChanges.updated }

def updatedInRemote (v : KeyResult) : KeyResult :=
  if v.conflict then v
  else if Differ base localValue then
    if Differ localValue remoteValue then { v with conflict := true } else v
  else if localValue.isSome then
    { v with localChanges.updated := remoteValue.or v.localChanges.updated }
  else v

def addedInLocal (v : KeyResult) : KeyResult :=
  if v.conflict then v
  else if base = none ∧ remoteValue.isSome then
    if Differ localValue remoteValue then { v with conflict := true } else v
  else { v with remoteChanges.added := localValue.or v.remoteChanges.added }

def addedInRemote (v : KeyResult) : KeyResult :=
  if v.conflict then v
  else if base = none ∧ localValue.isSome then
    if Differ localValue remoteValue then { v with conflict := true } else v
  else { v with localChanges.added := remoteValue.or v.localChanges.added }

/-- All six passes make the decision. -/
theorem mergeKey_eq : mergeKey base localValue remoteValue =
      let v : KeyResult := {}
      let v := if base.isSome ∧ localValue = none then
        v.removedInLocal base remoteValue else v
      let v := if base.isSome ∧ remoteValue = none then
        v.removedInRemote base localValue else v
      let v := if Differ base localValue then
        v.updatedInLocal base localValue remoteValue else v
      let v := if Differ base remoteValue then
        v.updatedInRemote base localValue remoteValue else v
      let v := if base = none ∧ localValue.isSome then
        v.addedInLocal base localValue remoteValue else v
      if base = none ∧ remoteValue.isSome then
        v.addedInRemote base localValue remoteValue else v := by
  simp only [removedInLocal, removedInRemote, updatedInLocal, updatedInRemote, addedInLocal,
    addedInRemote, Differ]
  cases base <;> cases localValue <;> cases remoteValue <;> simp [mergeKey] <;> grind

end KeyResult

section Passes

variable (localSnippets remoteSnippets : Snippets) (base : Option Snippets)

theorem at_conflict (r : IMergeResult) (key : String) :
    (r.at key).conflict = decide (key ∈ r.conflicts) := rfl

/-- A pass changes the result at its key only, and as the key sees it. -/
theorem actsAs_passes :
    let localToRemote := compare (some localSnippets) (some remoteSnippets)
    let baseToLocal := compare base (some localSnippets)
    let baseToRemote := compare base (some remoteSnippets)
    let act (pass : Option String → Option String → Option String → KeyResult → KeyResult)
      (key : String) := pass (valueIn base key) (localSnippets.get? key) (remoteSnippets.get? key)
    ActsAs IMergeResult.at (removedInLocal remoteSnippets baseToRemote)
        (fun key => (act fun base _ => KeyResult.removedInLocal base) key) ∧
      ActsAs IMergeResult.at (removedInRemote baseToLocal)
        (act fun base localValue _ => KeyResult.removedInRemote base localValue) ∧
      ActsAs IMergeResult.at (updatedInLocal localSnippets localToRemote baseToRemote)
        (act KeyResult.updatedInLocal) ∧
      ActsAs IMergeResult.at
        (updatedInRemote localSnippets remoteSnippets localToRemote baseToLocal)
        (act KeyResult.updatedInRemote) ∧
      ActsAs IMergeResult.at (addedInLocal localSnippets localToRemote baseToRemote)
        (act KeyResult.addedInLocal) ∧
      ActsAs IMergeResult.at (addedInRemote remoteSnippets localToRemote baseToLocal)
        (act KeyResult.addedInRemote) := by
  refine ⟨?_, ?_, ?_, ?_, ?_, ?_⟩
  all_goals
    intro r key other
    simp only [removedInLocal, removedInRemote, updatedInLocal, updatedInRemote, addedInLocal,
      addedInRemote, KeyResult.removedInLocal, KeyResult.removedInRemote,
      KeyResult.updatedInLocal, KeyResult.updatedInRemote, KeyResult.addedInLocal,
      KeyResult.addedInRemote, mem_updated, mem_added, valueIn_some, at_conflict,
      decide_eq_true_eq]
    by_cases isKey : other = key
    · rw [if_pos isKey, isKey]
      split_ifs <;> simp [IMergeResult.at, Changes.at, Dictionary.get?_copy]
    · rw [if_neg isKey]
      split_ifs <;> simp [IMergeResult.at, Changes.at, Dictionary.get?_copy, isKey]

theorem at_mergePasses (key : String) : (mergePasses localSnippets remoteSnippets
        (compare (some localSnippets) (some remoteSnippets))
        (compare base (some localSnippets)) (compare base (some remoteSnippets))).at key =
      mergeKey (valueIn base key) (localSnippets.get? key) (remoteSnippets.get? key) := by
  rw [KeyResult.mergeKey_eq, mergePasses]
  obtain ⟨removedInLocal, removedInRemote, updatedInLocal, updatedInRemote, addedInLocal,
    addedInRemote⟩ := actsAs_passes localSnippets remoteSnippets base
  rw [foldl_view addedInRemote (nodup_added _ _), foldl_view addedInLocal (nodup_added _ _),
    foldl_view updatedInRemote (nodup_updated _ _), foldl_view updatedInLocal (nodup_updated _ _),
    foldl_view removedInRemote (nodup_removed _ _), foldl_view removedInLocal (nodup_removed _ _)]
  simp only [mem_added, mem_removed, mem_updated, valueIn_some]
  rfl

end Passes

/-! ## Convergence -/

/-- The snippet of a key once the changes are made. -/
def Changes.apply (changes : Changes) (side : Snippets) (key : String) : Option String :=
  if key ∈ changes.removed then none
  else ((changes.added.get? key).or (changes.updated.get? key)).or (side.get? key)

/-- The changes do nothing to a key. -/
def Changes.Untouched (changes : Changes) (key : String) : Prop :=
  key ∉ changes.added.keys ∧ key ∉ changes.updated.keys ∧ key ∉ changes.removed

/-- Every change fits the side that it is made on. -/
structure Changes.Exact (changes : Changes) (side : Snippets) : Prop where
  added : ∀ key ∈ changes.added.keys, key ∉ side.keys
  updated : ∀ key ∈ changes.updated.keys, key ∈ side.keys ∧
    changes.updated.get? key ≠ side.get? key
  removed : ∀ key ∈ changes.removed, key ∈ side.keys

/-- The two sides agree after the changes of a result, except at its conflicts. -/
structure Converges (localSnippets remoteSnippets : Snippets) (base : Option Snippets)
    (r : IMergeResult) : Prop where
  agree : ∀ key, key ∉ r.conflicts →
    r.localChanges.apply localSnippets key = r.remoteChanges.apply remoteSnippets key
  changedInLocal : ∀ key, localSnippets.get? key ≠ valueIn base key →
    remoteSnippets.get? key = valueIn base key →
      r.localChanges.apply localSnippets key = localSnippets.get? key ∧
      r.remoteChanges.apply remoteSnippets key = localSnippets.get? key
  changedInRemote : ∀ key, localSnippets.get? key = valueIn base key →
    remoteSnippets.get? key ≠ valueIn base key →
      r.localChanges.apply localSnippets key = remoteSnippets.get? key ∧
      r.remoteChanges.apply remoteSnippets key = remoteSnippets.get? key
  conflicts : ∀ key ∈ r.conflicts, localSnippets.get? key ≠ valueIn base key ∧
    remoteSnippets.get? key ≠ valueIn base key ∧
    r.localChanges.Untouched key ∧ r.remoteChanges.Untouched key
  localExact : r.localChanges.Exact localSnippets
  remoteExact : r.remoteChanges.Exact remoteSnippets

/-! The same for one key. -/

def KeyChanges.apply (changes : KeyChanges) (value : Option String) : Option String :=
  if changes.removed then none else (changes.added.or changes.updated).or value

def KeyChanges.Exact (changes : KeyChanges) (value : Option String) : Prop :=
  (changes.added.isSome → value = none) ∧
    (changes.updated.isSome → value.isSome ∧ changes.updated ≠ value) ∧
    (changes.removed → value.isSome)

structure KeyResult.Converges (base localValue remoteValue : Option String)
    (v : KeyResult) : Prop where
  agree : v.conflict = false →
    v.localChanges.apply localValue = v.remoteChanges.apply remoteValue
  changedInLocal : localValue ≠ base → remoteValue = base →
    v.localChanges.apply localValue = localValue ∧
      v.remoteChanges.apply remoteValue = localValue
  changedInRemote : localValue = base → remoteValue ≠ base →
    v.localChanges.apply localValue = remoteValue ∧
      v.remoteChanges.apply remoteValue = remoteValue
  conflict : v.conflict → localValue ≠ base ∧ remoteValue ≠ base ∧
    v.localChanges = {} ∧ v.remoteChanges = {}
  localExact : v.localChanges.Exact localValue
  remoteExact : v.remoteChanges.Exact remoteValue

theorem Changes.apply_eq (changes : Changes) (side : Snippets) (key : String) :
    changes.apply side key = (changes.at key).apply (side.get? key) := by
  simp [Changes.apply, KeyChanges.apply, Changes.at]

theorem Changes.untouched_iff (changes : Changes) (key : String) :
    changes.Untouched key ↔ changes.at key = {} := by
  simp [Changes.Untouched, Changes.at, Dictionary.mem_keys_iff]

theorem Changes.exact_iff (changes : Changes) (side : Snippets) :
    changes.Exact side ↔ ∀ key, (changes.at key).Exact (side.get? key) := by
  simp only [KeyChanges.Exact, Changes.at, decide_eq_true_eq]
  constructor
  · intro exactness key
    have added := exactness.added key
    have updated := exactness.updated key
    have removed := exactness.removed key
    simp only [Dictionary.mem_keys_iff] at added updated removed
    exact ⟨fun isAdded => Option.not_isSome_iff_eq_none.mp (added isAdded), updated, removed⟩
  · intro exactness
    simp only [← Dictionary.mem_keys_iff] at exactness
    refine ⟨fun key isAdded => ?_, fun key => (exactness key).2.1, fun key => (exactness key).2.2⟩
    rw [Dictionary.mem_keys_iff, (exactness key).1 isAdded]
    simp

theorem converges_iff : Converges localSnippets remoteSnippets base r ↔ ∀ key,
      (r.at key).Converges (valueIn base key) (localSnippets.get? key)
        (remoteSnippets.get? key) := by
  constructor
  · rintro ⟨agree, changedInLocal, changedInRemote, conflicts, localExact, remoteExact⟩ key
    simp only [Changes.apply_eq, Changes.untouched_iff, Changes.exact_iff] at *
    exact ⟨fun none => agree key (by simpa [IMergeResult.at] using none), changedInLocal key,
      changedInRemote key, fun conflict => conflicts key
        (by simpa [IMergeResult.at] using conflict),
      localExact key, remoteExact key⟩
  · intro converges
    refine ⟨?_, ?_, ?_, ?_, ?_, ?_⟩
    · intro key none
      simp only [Changes.apply_eq]
      exact (converges key).agree (by simpa [IMergeResult.at] using none)
    · simp only [Changes.apply_eq]
      exact fun key => (converges key).changedInLocal
    · simp only [Changes.apply_eq]
      exact fun key => (converges key).changedInRemote
    · intro key conflict
      simp only [Changes.untouched_iff]
      exact (converges key).conflict (by simpa [IMergeResult.at] using conflict)
    · rw [Changes.exact_iff]
      exact fun key => (converges key).localExact
    · rw [Changes.exact_iff]
      exact fun key => (converges key).remoteExact

/-- A key is decided rightly unless both sides removed it. -/
theorem mergeKey_converges_iff (base localValue remoteValue : Option String) :
    (mergeKey base localValue remoteValue).Converges base localValue remoteValue ↔
      (base.isSome → localValue.isSome ∨ remoteValue.isSome) := by
  constructor
  · intro converges present
    by_contra missing
    have removed := converges.localExact.2.2
    cases base <;> cases localValue <;> cases remoteValue <;> simp_all [mergeKey]
  · intro present
    cases base <;> cases localValue <;> cases remoteValue <;> simp only [mergeKey] <;> try split_ifs
    all_goals constructor <;> simp_all [KeyChanges.apply, KeyChanges.Exact]
    all_goals grind

/-- Where nothing is to be done, nothing is done. -/
theorem converges_of_same {localSnippets remoteSnippets : Snippets} (base : Option Snippets)
    (same : ∀ key, localSnippets.get? key = remoteSnippets.get? key) :
    Converges localSnippets remoteSnippets base {} := by
  rw [converges_iff]
  intro key
  constructor <;> simp_all [IMergeResult.at, Changes.at, KeyChanges.apply, KeyChanges.Exact]

/-- Merging converges exactly when no snippet of the base was removed on both sides, or
there is nothing to merge. -/
theorem merge_converges_iff (localSnippets remoteSnippets : Snippets)
    (base : Option Snippets) :
    Converges localSnippets remoteSnippets base
        (merge localSnippets (some remoteSnippets) base) ↔
      (∀ key, (valueIn base key).isSome → key ∈ localSnippets.keys ∨ key ∈ remoteSnippets.keys) ∨
        ∀ key, localSnippets.get? key = remoteSnippets.get? key := by
  by_cases same : ∀ key, localSnippets.get? key = remoteSnippets.get? key
  · rw [merge, if_pos (isEmpty_compare.mpr same)]
    exact iff_of_true (converges_of_same base same) (.inr same)
  · rw [merge, if_neg fun empty => same (isEmpty_compare.mp empty), converges_iff]
    simp only [at_mergePasses, mergeKey_converges_iff, Dictionary.mem_keys_iff]
    exact (or_iff_left same).symm

/-- The snippet `b` was removed on both sides while `a` changed in remote. -/
theorem removed_on_both_sides :
    ¬ Converges ⟨[("a", "1")], by decide⟩ ⟨[("a", "2")], by decide⟩
      (some ⟨[("a", "1"), ("b", "1")], by decide⟩)
      (merge ⟨[("a", "1")], by decide⟩ (some ⟨[("a", "2")], by decide⟩)
        (some ⟨[("a", "1"), ("b", "1")], by decide⟩)) := by
  intro converges
  have removed := converges.localExact.removed "b" (by decide)
  revert removed
  decide

end CodeEditor.UserDataSync
