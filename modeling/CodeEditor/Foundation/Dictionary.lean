import Mathlib

/-!
# Dictionaries and sets in insertion order

A dictionary is a list of entries with distinct keys, a set a list of distinct
elements; both keep the order in which keys were first added. A fold over distinct
keys whose steps act at their own key only is described key by key.
-/

namespace CodeEditor

open List

variable {κ ν α σ : Type}

/-! ## Dictionaries -/

/-- Entries with distinct keys, oldest first. -/
structure Dictionary (κ ν : Type) where
  entries : List (κ × ν)
  nodup : (entries.map Prod.fst).Nodup

namespace Dictionary

def empty : Dictionary κ ν := ⟨[], .nil⟩

def keys (d : Dictionary κ ν) : List κ := d.entries.map Prod.fst

variable [DecidableEq κ]

/-- The value of a key. -/
def get? (d : Dictionary κ ν) (key : κ) : Option ν := d.entries.lookup key

@[simp] theorem get?_empty (key : κ) : (empty : Dictionary κ ν).get? key = none := rfl

theorem lookup_isSome_iff {entries : List (κ × ν)} :
    (entries.lookup key).isSome ↔ key ∈ entries.map Prod.fst := by
  induction entries with
  | nil => simp
  | cons entry entries ih =>
    cases same : key == entry.1 with
    | true => simp_all
    | false => simp_all

theorem mem_keys_iff {d : Dictionary κ ν} {key : κ} : key ∈ d.keys ↔ (d.get? key).isSome :=
  lookup_isSome_iff.symm

/-- An entry is the value of its key. -/
theorem get?_of_mem {d : Dictionary κ ν} {entry : κ × ν} (member : entry ∈ d.entries) :
    d.get? entry.1 = some entry.2 := by
  have nodup := d.nodup
  rw [get?]
  generalize d.entries = entries at member nodup
  induction entries with
  | nil => cases member
  | cons first entries ih =>
    rw [map_cons, nodup_cons] at nodup
    rw [lookup_cons]
    obtain rfl | member := mem_cons.mp member
    · simp
    · have differs : (entry.1 == first.1) = false := by
        rw [beq_eq_false_iff_ne]
        intro same
        exact nodup.1 (same ▸ mem_map_of_mem member)
      rw [differs]
      exact ih member nodup.2

/-- Replace the value of a key where it stands. -/
def replaceEntry (key : κ) (value : ν) (entry : κ × ν) : κ × ν :=
  if entry.1 = key then (key, value) else entry

@[simp] theorem replaceEntry_fst (key : κ) (value : ν) (entry : κ × ν) :
    (replaceEntry key value entry).1 = entry.1 := by
  unfold replaceEntry
  split
  · rename_i same
    exact same.symm
  · rfl

theorem map_fst_replaceEntry (key : κ) (value : ν) (entries : List (κ × ν)) :
    (entries.map (replaceEntry key value)).map Prod.fst = entries.map Prod.fst := by
  rw [map_map]
  apply map_congr_left
  intro entry _
  exact replaceEntry_fst key value entry

/-- `d[key] = value`: a new key goes to the end. -/
def set (d : Dictionary κ ν) (key : κ) (value : ν) : Dictionary κ ν :=
  if absent : key ∈ d.keys then
    ⟨d.entries.map (replaceEntry key value), by rw [map_fst_replaceEntry]; exact d.nodup⟩
  else
    ⟨d.entries ++ [(key, value)], by
      rw [map_append, nodup_append]
      refine ⟨d.nodup, by simp, ?_⟩
      intro a member b isKey same
      simp only [map_cons, map_nil, mem_singleton] at isKey
      rw [same, isKey] at member
      exact absent member⟩

theorem lookup_replaceEntry (entries : List (κ × ν)) (key : κ) (value : ν) (other : κ) :
    (entries.map (replaceEntry key value)).lookup other =
      (entries.lookup other).map fun old => if other = key then value else old := by
  induction entries with
  | nil => rfl
  | cons entry entries ih =>
    rw [map_cons, lookup_cons, lookup_cons, replaceEntry_fst]
    cases isEntry : other == entry.1 with
    | true =>
      have same : other = entry.1 := by simpa using isEntry
      subst same
      simp only [replaceEntry, Option.map_some]
      split <;> rfl
    | false => exact ih

@[simp] theorem get?_set (d : Dictionary κ ν) (key : κ) (value : ν) (other : κ) :
    (d.set key value).get? other = if other = key then some value else d.get? other := by
  unfold set
  split
  · rename_i present
    rw [get?, lookup_replaceEntry]
    split
    · rename_i isKey
      rw [keys, ← lookup_isSome_iff, Option.isSome_iff_exists] at present
      obtain ⟨old, found⟩ := present
      rw [isKey, found]
      rfl
    · exact Option.map_id'
  · rename_i absent
    have missing : d.entries.lookup key = none := by
      rw [← Option.not_isSome_iff_eq_none, lookup_isSome_iff]
      exact absent
    simp only [get?, lookup_append]
    by_cases isKey : other = key
    · subst isKey
      simp [missing]
    · have differs : (other == key) = false := by simpa using isKey
      simp [isKey, lookup_cons, differs]

/-- `delete d[key]`. -/
def erase (d : Dictionary κ ν) (key : κ) : Dictionary κ ν :=
  ⟨d.entries.filter (·.1 ≠ key), by
    have kept : (d.entries.filter (·.1 ≠ key)).map Prod.fst = d.keys.filter (· ≠ key) := by
      rw [keys, filter_map]
      rfl
    rw [kept]
    exact d.nodup.filter _⟩

theorem lookup_filter_ne (entries : List (κ × ν)) (key other : κ) :
    (entries.filter (·.1 ≠ key)).lookup other =
      if other = key then none else entries.lookup other := by
  induction entries with
  | nil => simp
  | cons entry entries ih =>
    by_cases isEntry : entry.1 = key
    · rw [filter_cons_of_neg (by simpa using isEntry), ih, lookup_cons]
      split
      · rfl
      · rename_i differs
        have other' : (other == entry.1) = false := by
          rw [isEntry]
          simpa using differs
        rw [other']
    · rw [filter_cons_of_pos (by simpa using isEntry), lookup_cons, lookup_cons, ih]
      cases same : other == entry.1 with
      | false => rfl
      | true =>
        have isOther : other = entry.1 := by simpa using same
        simp only
        rw [if_neg (isOther ▸ isEntry)]

@[simp] theorem get?_erase (d : Dictionary κ ν) (key other : κ) :
    (d.erase key).get? other = if other = key then none else d.get? other :=
  lookup_filter_ne d.entries key other

/-- `d[key] = source[key]`, where `source` has the key. -/
def copy (d source : Dictionary κ ν) (key : κ) : Dictionary κ ν :=
  match source.get? key with
  | none => d
  | some value => d.set key value

theorem get?_copy (d source : Dictionary κ ν) (key other : κ) : (d.copy source key).get? other =
      if other = key then (source.get? key).or (d.get? key) else d.get? other := by
  unfold copy
  cases found : source.get? key with
  | none =>
    simp only [Option.none_or]
    split
    · rename_i isKey
      rw [isKey]
    · rfl
  | some value => simp

end Dictionary

/-! ## Sets -/

variable [DecidableEq κ] [DecidableEq α]

/-- `set.add(a)`: a new element goes to the end. -/
def addElement (set : List α) (a : α) : List α :=
  if a ∈ set then set else set ++ [a]

variable {set : List α}

@[simp] theorem mem_addElement {a b : α} : b ∈ addElement set a ↔ b = a ∨ b ∈ set := by
  unfold addElement
  split
  · rename_i member
    constructor
    · exact .inr
    · rintro (rfl | member')
      · exact member
      · exact member'
  · simp [or_comm]

theorem nodup_addElement (nodup : set.Nodup) (a : α) : (addElement set a).Nodup := by
  unfold addElement
  split
  · exact nodup
  · rename_i absent
    rw [← concat_eq_append]
    exact nodup.concat absent

theorem mem_foldl_addElement {elements set : List α} {b : α} :
    b ∈ elements.foldl addElement set ↔ b ∈ elements ∨ b ∈ set := by
  induction elements generalizing set with
  | nil => simp
  | cons a elements ih =>
    rw [foldl_cons, ih, mem_addElement, mem_cons]
    tauto

theorem nodup_foldl_addElement (elements : List α) (nodup : set.Nodup) :
    (elements.foldl addElement set).Nodup := by
  induction elements generalizing set with
  | nil => exact nodup
  | cons a elements ih =>
    exact ih (nodup_addElement nodup a)

/-! ## Comparing dictionaries -/

/-- The keys that were added, removed and updated between two dictionaries. -/
structure KeyComparison (κ : Type) where
  added : List κ
  removed : List κ
  updated : List κ

namespace KeyComparison

/-- Nothing was added, removed or updated. -/
def isEmpty (c : KeyComparison κ) : Bool :=
  c.added.length = 0 && c.removed.length = 0 && c.updated.length = 0

end KeyComparison

section Compare

variable (areSame : ν → ν → Bool) (ignored : List κ)

/-- The keys of a dictionary that count; none where there is no dictionary. -/
def countedKeys : Option (Dictionary κ ν) → List κ
  | none => []
  | some d => d.keys.filter (· ∉ ignored)

/-- The value of a key, where there is a dictionary. -/
def valueIn (d : Option (Dictionary κ ν)) (key : κ) : Option ν := d.bind (·.get? key)

/-- A key that both sides have, with values that are not the same. -/
def differAt (source target : Option (Dictionary κ ν)) (key : κ) : Bool :=
  match valueIn source key, valueIn target key with
  | some first, some second => !areSame first second
  | _, _ => false

/-- Compare two dictionaries key by key, up to the ignored keys. -/
def compareKeys (source target : Option (Dictionary κ ν)) : KeyComparison κ :=
  let sourceKeys := countedKeys ignored source
  let targetKeys := countedKeys ignored target
  let added := (targetKeys.filter (· ∉ sourceKeys)).foldl addElement []
  let removed := (sourceKeys.filter (· ∉ targetKeys)).foldl addElement []
  let updated := sourceKeys.foldl
    (fun updated key =>
      if key ∈ removed then updated
      else if differAt areSame source target key then addElement updated key
      else updated) []
  { added, removed, updated }

variable {areSame ignored} {source target : Option (Dictionary κ ν)} {key : κ}

@[simp] theorem valueIn_none (key : κ) : valueIn (none : Option (Dictionary κ ν)) key = none :=
  rfl

@[simp] theorem valueIn_some (d : Dictionary κ ν) (key : κ) :
    valueIn (some d) key = d.get? key := rfl

theorem mem_countedKeys {d : Option (Dictionary κ ν)} :
    key ∈ countedKeys ignored d ↔ key ∉ ignored ∧ (valueIn d key).isSome := by
  cases d with
  | none => simp [countedKeys]
  | some d =>
    rw [countedKeys, mem_filter, Dictionary.mem_keys_iff, decide_eq_true_eq, and_comm]
    rfl

theorem mem_added_compareKeys : key ∈ (compareKeys areSame ignored source target).added ↔
    key ∉ ignored ∧ valueIn source key = none ∧ (valueIn target key).isSome := by
  simp only [compareKeys, mem_foldl_addElement, mem_filter, mem_countedKeys,
    decide_eq_true_eq, not_mem_nil, or_false, Option.not_isSome_iff_eq_none,
    not_and]
  tauto

theorem mem_removed_compareKeys : key ∈ (compareKeys areSame ignored source target).removed ↔
    key ∉ ignored ∧ (valueIn source key).isSome ∧ valueIn target key = none := by
  simp only [compareKeys, mem_foldl_addElement, mem_filter, mem_countedKeys,
    decide_eq_true_eq, not_mem_nil, or_false, Option.not_isSome_iff_eq_none,
    not_and]
  tauto

/-- The updated keys are the kept ones whose values are not the same. -/
theorem updated_compareKeys : (compareKeys areSame ignored source target).updated =
    ((countedKeys ignored source).filter fun key =>
      key ∉ (compareKeys areSame ignored source target).removed ∧
        differAt areSame source target key).foldl addElement [] := by
  rw [foldl_filter]
  apply congrArg (fun step => (countedKeys ignored source).foldl step [])
  funext updated key
  change (if key ∈ (compareKeys areSame ignored source target).removed then updated
    else if differAt areSame source target key then addElement updated key
    else updated) = _
  by_cases removed : key ∈ (compareKeys areSame ignored source target).removed
  · rw [if_pos removed, if_neg]
    simp [removed]
  · rw [if_neg removed]
    by_cases differ : differAt areSame source target key
    · rw [if_pos differ, if_pos (by simp [removed, differ])]
    · rw [if_neg differ, if_neg (by simp [differ])]

theorem mem_updated_compareKeys : key ∈ (compareKeys areSame ignored source target).updated ↔
    key ∉ ignored ∧ differAt areSame source target key = true := by
  rw [updated_compareKeys, mem_foldl_addElement]
  simp only [mem_filter, mem_countedKeys, mem_removed_compareKeys, decide_eq_true_eq,
    not_mem_nil, or_false]
  constructor
  · rintro ⟨⟨counts, -⟩, -, differ⟩
    exact ⟨counts, differ⟩
  · rintro ⟨counts, differ⟩
    refine ⟨⟨counts, ?_⟩, ?_, differ⟩
    · cases inSource : valueIn source key with
      | none => simp [differAt, inSource] at differ
      | some value => rfl
    · rintro ⟨-, -, missing⟩
      rw [differAt, missing] at differ
      simp at differ

theorem nodup_added_compareKeys : (compareKeys areSame ignored source target).added.Nodup :=
  nodup_foldl_addElement _ .nil

theorem nodup_removed_compareKeys : (compareKeys areSame ignored source target).removed.Nodup :=
  nodup_foldl_addElement _ .nil

theorem nodup_updated_compareKeys : (compareKeys areSame ignored source target).updated.Nodup := by
  rw [updated_compareKeys]
  exact nodup_foldl_addElement _ .nil

/-- Without changes, every key that counts is missing on both sides or the same. -/
theorem isEmpty_compareKeys :
    (compareKeys areSame ignored source target).isEmpty = true ↔ ∀ key, key ∉ ignored →
      (valueIn source key).isSome = (valueIn target key).isSome ∧
        differAt areSame source target key = false := by
  simp only [KeyComparison.isEmpty, Bool.and_eq_true, decide_eq_true_eq,
    length_eq_zero_iff, eq_nil_iff_forall_not_mem, mem_added_compareKeys,
    mem_removed_compareKeys, mem_updated_compareKeys]
  constructor
  · rintro ⟨⟨added, removed⟩, updated⟩ key counts
    cases inSource : valueIn source key <;> cases inTarget : valueIn target key <;> simp_all
  · intro same
    refine ⟨⟨?_, ?_⟩, ?_⟩
    · rintro key ⟨counts, missing, present⟩
      have sides := (same key counts).1
      rw [missing, present] at sides
      cases sides
    · rintro key ⟨counts, present, missing⟩
      have sides := (same key counts).1
      rw [missing, present] at sides
      cases sides
    · rintro key ⟨counts, differ⟩
      rw [(same key counts).2] at differ
      cases differ

/-- Both sides have the key, with different values. -/
def Differ (first second : Option ν) : Prop :=
  first.isSome ∧ second.isSome ∧ first ≠ second

instance [DecidableEq ν] : @DecidableRel (Option ν) _ Differ :=
  fun _ _ => inferInstanceAs (Decidable (_ ∧ _ ∧ _))

section Equality

variable [DecidableEq ν]

theorem differAt_eq :
    differAt (fun first second : ν => decide (first = second)) source target key = true ↔
      Differ (valueIn source key) (valueIn target key) := by
  rw [differAt]
  cases valueIn source key <;> cases valueIn target key <;> simp [Differ]

/-- Compared by equality, dictionaries without changes have the same values. -/
theorem isEmpty_compareKeys_eq :
    (compareKeys (fun first second : ν => decide (first = second)) []
      source target).isEmpty = true ↔ ∀ key, valueIn source key = valueIn target key := by
  rw [isEmpty_compareKeys]
  simp only [not_mem_nil, not_false_iff, true_implies, Bool.eq_false_iff, ne_eq, differAt_eq,
    Differ]
  apply forall_congr'
  intro key
  cases valueIn source key <;> cases valueIn target key <;> simp

end Equality

end Compare

/-! ## Folds that act key by key -/

variable {keys : List κ}

/-- A step changes what is seen at its key only, in the way of `act`. -/
def ActsAs (view : σ → κ → ν) (step : σ → κ → σ) (act : κ → ν → ν) : Prop :=
  ∀ s key other, view (step s key) other =
    if other = key then act key (view s key) else view s other

/-- A fold over distinct keys, looked at through the view of one key. -/
theorem foldl_view {view : σ → κ → ν} {step : σ → κ → σ} {act : κ → ν → ν}
    (step_view : ActsAs view step act) (nodup : keys.Nodup) (s : σ) (key : κ) :
    view (keys.foldl step s) key =
      if key ∈ keys then act key (view s key) else view s key := by
  induction keys generalizing s with
  | nil => simp
  | cons first keys ih =>
    rw [nodup_cons] at nodup
    rw [foldl_cons, ih nodup.2, step_view]
    by_cases isFirst : key = first
    · subst isFirst
      rw [if_neg nodup.1, if_pos rfl, if_pos (by simp)]
    · simp [isFirst]

/-- The same for steps that can fail. -/
theorem foldlM_view {ε : Type} {view : σ → κ → ν} {step : σ → κ → Except ε σ}
    {rel : κ → ν → ν → Prop}
    (step_own : ∀ s s' key, key ∈ keys → step s key = .ok s' → rel key (view s key) (view s' key))
    (step_other : ∀ s s' key other, key ∈ keys → step s key = .ok s' → other ≠ key →
      view s' other = view s other) (nodup : keys.Nodup) {s s' : σ}
    (done : keys.foldlM step s = .ok s') (key : κ) :
    if key ∈ keys then rel key (view s key) (view s' key) else view s' key = view s key := by
  induction keys generalizing s with
  | nil =>
    simp only [foldlM_nil, pure, Except.pure, Except.ok.injEq] at done
    simp [done]
  | cons first keys ih =>
    rw [nodup_cons] at nodup
    rw [foldlM_cons] at done
    cases stepped : step s first with
    | error e => simp [stepped, bind, Except.bind] at done
    | ok s₁ =>
      simp only [stepped, bind, Except.bind] at done
      have rest := ih (fun s s' key member => step_own s s' key (mem_cons_of_mem _ member))
        (fun s s' key other member => step_other s s' key other (mem_cons_of_mem _ member))
        nodup.2 done
      by_cases isFirst : key = first
      · subst isFirst
        rw [if_neg nodup.1] at rest
        rw [if_pos (by simp), rest]
        exact step_own s s₁ key (by simp) stepped
      · have kept := step_other s s₁ first key (by simp) stepped isFirst
        simpa [isFirst, kept] using rest

omit [DecidableEq κ] in
/-- A fold fails only where a step fails. -/
theorem foldlM_error {ε : Type} {step : σ → κ → Except ε σ} {s : σ} {e : ε}
    (failed : keys.foldlM step s = .error e) : ∃ s', ∃ key ∈ keys, step s' key = .error e := by
  induction keys generalizing s with
  | nil => simp [pure, Except.pure] at failed
  | cons first keys ih =>
    rw [foldlM_cons] at failed
    cases stepped : step s first with
    | error e' =>
      simp only [stepped, bind, Except.bind, Except.error.injEq] at failed
      subst failed
      exact ⟨s, first, by simp, stepped⟩
    | ok s₁ =>
      simp only [stepped, bind, Except.bind] at failed
      obtain ⟨s', key, member, found⟩ := ih failed
      exact ⟨s', key, mem_cons_of_mem _ member, found⟩

end CodeEditor
