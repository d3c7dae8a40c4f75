import CodeEditor.UserDataSync.ExtensionsPasses

/-!
# The decision about an extension

The passes of `merge` decide every key on its own, from its extensions in the base, in local
and in remote.
-/

namespace CodeEditor.UserDataSync
namespace Extensions

open Option

variable {ν : Type} {toLowerCase : String → String} {uuids : Dictionary String String}

section Steps

variable [DecidableEq ν] {gt : String → String → Option Bool}
  {localExtensionsMap remoteExtensionsMap skippedExtensionsMap :
    Dictionary Key (ISyncExtension ν)}
  {lastSyncExtensionsMap : Option (Dictionary Key (ISyncExtension ν))}
  {lastSyncBuiltinExtensions : Option (List Key)}
  {localToRemote baseToLocal baseToRemote : KeyComparison Key}

/-! ## One key of a run -/

/-- What all passes do for one key. -/
def PassesAt (gt : String → String → Option Bool)
    (localExtensionsMap remoteExtensionsMap skippedExtensionsMap :
      Dictionary Key (ISyncExtension ν))
    (lastSyncExtensionsMap : Option (Dictionary Key (ISyncExtension ν)))
    (lastSyncBuiltinExtensions : Option (List Key))
    (localToRemote baseToLocal baseToRemote : KeyComparison Key) (key : Key)
    (v v' : KeyView ν) : Prop :=
  ∃ v₁ v₂ v₃ v₄ v₅,
    PassAt (removedInRemote localExtensionsMap lastSyncExtensionsMap lastSyncBuiltinExtensions)
      baseToRemote.removed key v v₁ ∧
    PassAt (addedInRemote gt localExtensionsMap remoteExtensionsMap lastSyncExtensionsMap
      localToRemote) baseToRemote.added key v₁ v₂ ∧
    PassAt (updatedInRemote gt localExtensionsMap remoteExtensionsMap lastSyncExtensionsMap
      lastSyncBuiltinExtensions) baseToRemote.updated key v₂ v₃ ∧
    PassAt (addedInLocal localExtensionsMap baseToRemote) baseToLocal.added key v₃ v₄ ∧
    PassAt (updatedInLocal gt localExtensionsMap remoteExtensionsMap lastSyncExtensionsMap
      baseToRemote) baseToLocal.updated key v₄ v₅ ∧
    PassAt (removedInLocal remoteExtensionsMap skippedExtensionsMap lastSyncExtensionsMap
      lastSyncBuiltinExtensions baseToRemote) baseToLocal.removed key v₅ v'

/-- The lists of a comparison have no key twice. -/
structure KeyComparison.Nodup (c : KeyComparison Key) : Prop where
  added : c.added.Nodup
  removed : c.removed.Nodup
  updated : c.updated.Nodup

theorem nodup_compare (ignored : List Key) (checkVersionProperty : Bool)
    (source target : Option (Dictionary Key (ISyncExtension ν))) :
    KeyComparison.Nodup (compare ignored checkVersionProperty source target) :=
  ⟨nodup_added_compareKeys, nodup_removed_compareKeys, nodup_updated_compareKeys⟩

section

variable (known : KnownUuids uuids) (localKeyed : Keyed toLowerCase uuids localExtensionsMap)
  (remoteKeyed : Keyed toLowerCase uuids remoteExtensionsMap)

include known localKeyed remoteKeyed

theorem runPasses_at (nodupLocal : KeyComparison.Nodup baseToLocal)
    (nodupRemote : KeyComparison.Nodup baseToRemote)
    (done : runPasses gt localExtensionsMap remoteExtensionsMap skippedExtensionsMap
      lastSyncExtensionsMap lastSyncBuiltinExtensions localToRemote baseToLocal baseToRemote d =
        .ok d') (key : Key) :
    PassesAt gt localExtensionsMap remoteExtensionsMap skippedExtensionsMap
      lastSyncExtensionsMap lastSyncBuiltinExtensions localToRemote baseToLocal baseToRemote key
      (d.at toLowerCase uuids key) (d'.at toLowerCase uuids key) := by
  unfold runPasses at done
  obtain ⟨d₁, first, done⟩ := bind_ok done
  obtain ⟨d₂, second, done⟩ := bind_ok done
  obtain ⟨d₃, third, done⟩ := bind_ok done
  obtain ⟨d₄, fourth, done⟩ := bind_ok done
  obtain ⟨d₅, fifth, sixth⟩ := bind_ok done
  exact ⟨d₁.at toLowerCase uuids key, d₂.at toLowerCase uuids key, d₃.at toLowerCase uuids key,
    d₄.at toLowerCase uuids key, d₅.at toLowerCase uuids key,
    runPass_at (removedInRemote_on localKeyed) nodupRemote.removed first key,
    runPass_at (addedInRemote_on known remoteKeyed) nodupRemote.added second key,
    runPass_at (updatedInRemote_on known localKeyed remoteKeyed) nodupRemote.updated third key,
    runPass_at (addedInLocal_on localKeyed) nodupLocal.added fourth key,
    runPass_at (updatedInLocal_on localKeyed) nodupLocal.updated fifth key,
    runPass_at removedInLocal_on nodupLocal.removed sixth key⟩

theorem PassesAt.preserves
    (run : PassesAt gt localExtensionsMap remoteExtensionsMap skippedExtensionsMap
      lastSyncExtensionsMap lastSyncBuiltinExtensions localToRemote baseToLocal baseToRemote key
      v v') {inv : KeyView ν → Prop}
    (performed : ∀ v effect, effect.On toLowerCase uuids key → inv v → inv (v.perform effect))
    (holds : inv v) : inv v' := by
  obtain ⟨v₁, v₂, v₃, v₄, v₅, first, second, third, fourth, fifth, sixth⟩ := run
  apply sixth.preserves removedInLocal_on performed
  apply fifth.preserves (updatedInLocal_on localKeyed) performed
  apply fourth.preserves (addedInLocal_on localKeyed) performed
  apply third.preserves (updatedInRemote_on known localKeyed remoteKeyed) performed
  apply second.preserves (addedInRemote_on known remoteKeyed) performed
  exact first.preserves (removedInRemote_on localKeyed) performed holds

end

/-- Local is installed only where remote is, and remote is installed only where local is
present. -/
structure Settled (localExtension remoteExtension : Option (ISyncExtension ν)) : Prop where
  toRemote : ∀ extension, localExtension = some extension → isTrue extension.installed = true →
    ∃ other, remoteExtension = some other ∧ isTrue other.installed = true
  toLocal : ∀ extension, remoteExtension = some extension → isTrue extension.installed = true →
    localExtension.isSome

section Compare

variable {ignored : List Key} {checkVersionProperty : Bool}
  {source target : Option (Dictionary Key (ISyncExtension ν))} {key : Key}

theorem mem_added : key ∈ (compare ignored checkVersionProperty source target).added ↔
    key ∉ ignored ∧ valueIn source key = none ∧ (valueIn target key).isSome :=
  mem_added_compareKeys

theorem mem_removed : key ∈ (compare ignored checkVersionProperty source target).removed ↔
    key ∉ ignored ∧ (valueIn source key).isSome ∧ valueIn target key = none :=
  mem_removed_compareKeys

theorem mem_updated : key ∈ (compare ignored checkVersionProperty source target).updated ↔
    key ∉ ignored ∧ differAt (areSame checkVersionProperty true) source target key = true :=
  mem_updated_compareKeys

theorem installed_eq_of_areSame {first second : ISyncExtension ν}
    (same : areSame checkVersionProperty true first second = true) :
    first.installed = second.installed := by
  by_contra differ
  unfold areSame at same
  simp [differ] at same

end Compare

section Decision

variable {ignored builtin : List Key} {key : Key} {v v' : KeyView ν}

omit [DecidableEq ν] in
theorem settled_present {localExtension remoteExtension : ISyncExtension ν}
    (installed : isTrue localExtension.installed = true → isTrue remoteExtension.installed = true) :
    Settled (some localExtension) (some remoteExtension) where
  toRemote := by
    intro extension isLocal isInstalled
    cases isLocal
    exact ⟨remoteExtension, rfl, installed isInstalled⟩
  toLocal := fun _ _ _ => rfl

omit [DecidableEq ν] in
theorem settled_absent {remoteExtension : Option (ISyncExtension ν)}
    (notInstalled : ∀ extension, remoteExtension = some extension →
      isTrue extension.installed = false) :
    Settled none remoteExtension where
  toRemote := by
    intro extension isLocal
    cases isLocal
  toLocal := by
    intro extension isRemote isInstalled
    rw [notInstalled extension isRemote] at isInstalled
    cases isInstalled

omit [DecidableEq ν] in
@[simp] theorem installed_massageOutgoingExtension (extension : ISyncExtension ν) (key : Key) :
    isTrue (massageOutgoingExtension extension key).installed = isTrue extension.installed := by
  simp only [massageOutgoingExtension]
  split
  · rfl
  · rename_i notInstalled
    simp [isTrue] at notInstalled ⊢
    exact notInstalled

section Run

variable (run : PassesAt gt localExtensionsMap remoteExtensionsMap skippedExtensionsMap
    lastSyncExtensionsMap (some builtin)
    (compare ignored false (some localExtensionsMap) (some remoteExtensionsMap))
    (compare ignored false lastSyncExtensionsMap (some localExtensionsMap))
    (compare ignored true lastSyncExtensionsMap (some remoteExtensionsMap)) key
    { remote := remoteExtensionsMap.get? key } v')

include run

/-- An extension that the base does not have. -/
theorem PassesAt.settled_new (notIgnored : key ∉ ignored)
    (inBase : valueIn lastSyncExtensionsMap key = none) :
    Settled (v'.localAfter (localExtensionsMap.get? key)) v'.remote := by
  obtain ⟨v₁, v₂, v₃, v₄, v₅, first, second, third, fourth, fifth, sixth⟩ := run
  cases inLocal : localExtensionsMap.get? key with
  | none =>
    cases inRemote : remoteExtensionsMap.get? key with
    | none =>
      simp [PassAt, mem_added, mem_removed, mem_updated, differAt, inBase, inLocal,
        inRemote] at first second third fourth fifth sixth
      subst_vars
      exact settled_absent (by simp)
    | some remoteExtension =>
      simp [PassAt, mem_added, mem_removed, mem_updated, differAt, inBase, inLocal, inRemote,
        notIgnored, addedInRemote, assertIsDefined, ok_bind]
        at first second third fourth fifth sixth
      obtain ⟨effects, isStep, performed⟩ := second
      by_cases installed : isTrue remoteExtension.installed = true
      · rw [if_pos installed] at isStep
        cases isStep
        subst_vars
        exact settled_present fun _ => installed
      · rw [if_neg installed] at isStep
        cases isStep
        subst_vars
        exact settled_absent (by simpa [List.foldl] using installed)
  | some localExtension =>
    cases inRemote : remoteExtensionsMap.get? key with
    | none =>
      simp [PassAt, mem_added, mem_removed, mem_updated, differAt, inBase, inLocal, inRemote,
        notIgnored, addedInLocal, assertIsDefined, ok_bind, pure, Except.pure]
        at first second third fourth fifth sixth
      subst_vars
      exact settled_present id
    | some remoteExtension =>
      simp [PassAt, mem_added, mem_removed, mem_updated, differAt, inBase, inLocal, inRemote,
        notIgnored, addedInRemote, addedInLocal, assertIsDefined, ok_bind, pure, Except.pure]
        at first second third fourth fifth sixth
      obtain ⟨effects, isStep, performed⟩ := second
      split at isStep
      rotate_left
      · rename_i same
        cases isStep
        subst_vars
        have sameInstalled := installed_eq_of_areSame (Bool.not_eq_false _ ▸ same)
        exact settled_present fun installed => sameInstalled ▸ installed
      · obtain ⟨merged, isMerged, isStep⟩ := bind_ok isStep
        have installed := (mergeExtension_ok isMerged).2
        split at isStep
        · cases isStep
          subst_vars
          exact settled_present fun isInstalled => installed.mpr (.inl isInstalled)
        · cases isStep
          subst_vars
          exact settled_present fun isInstalled => by simpa using isInstalled

/-- An extension that the base has and local does not. -/
theorem PassesAt.settled_removed (notIgnored : key ∉ ignored)
    (notSkipped : key ∉ skippedExtensionsMap.keys) (notBuiltin : key ∉ builtin)
    {baseExtension : ISyncExtension ν}
    (inBase : valueIn lastSyncExtensionsMap key = some baseExtension)
    (inLocal : localExtensionsMap.get? key = none) :
    Settled (v'.localAfter none) v'.remote := by
  obtain ⟨v₁, v₂, v₃, v₄, v₅, first, second, third, fourth, fifth, sixth⟩ := run
  cases inRemote : remoteExtensionsMap.get? key with
  | none =>
    simp [PassAt, mem_added, mem_removed, mem_updated, differAt, inBase, inLocal, inRemote,
      notIgnored, removedInRemote, removedInLocal, pure, Except.pure]
      at first second third fourth fifth sixth
    subst_vars
    exact settled_absent (by simp)
  | some remoteExtension =>
    simp [PassAt, mem_added, mem_removed, mem_updated, differAt, inBase, inLocal, inRemote,
      notIgnored, notSkipped, notBuiltin, updatedInRemote, removedInLocal, assertIsDefined,
      ok_bind, pure, Except.pure] at first second third fourth fifth sixth
    by_cases same : areSame true true baseExtension remoteExtension = true
    · have sameInstalled := installed_eq_of_areSame same
      simp only [same, if_true] at third
      simp [same, sameInstalled] at sixth
      by_cases installed : isTrue remoteExtension.installed = true
      · simp [installed] at sixth
        subst_vars
        exact settled_absent (by simp [KeyView.perform])
      · simp [installed] at sixth
        subst_vars
        exact settled_absent (by simpa using installed)
    · simp [same] at third sixth
      by_cases installed : isTrue remoteExtension.installed = true
      · simp [installed] at third
        subst_vars
        exact settled_present fun _ => installed
      · simp [installed] at third
        subst_vars
        exact settled_absent (by simpa using installed)

/-- An extension that the base and local have. -/
theorem PassesAt.settled_kept (notIgnored : key ∉ ignored) (notBuiltin : key ∉ builtin)
    {baseExtension localExtension : ISyncExtension ν}
    (inBase : valueIn lastSyncExtensionsMap key = some baseExtension)
    (inLocal : localExtensionsMap.get? key = some localExtension) :
    Settled (v'.localAfter (some localExtension)) v'.remote := by
  obtain ⟨v₁, v₂, v₃, v₄, v₅, first, second, third, fourth, fifth, sixth⟩ := run
  cases inRemote : remoteExtensionsMap.get? key with
  | none =>
    simp [PassAt, mem_added, mem_removed, mem_updated, differAt, inBase, inLocal, inRemote,
      notIgnored, notBuiltin, removedInRemote, updatedInLocal, assertIsDefined,
      wasAnInstalledExtensionDuringLastSync, ok_bind, pure, Except.pure]
      at first second third fourth fifth sixth
    obtain ⟨effects, isStep, performed⟩ := first
    split at isStep
    · cases isStep
      subst_vars
      exact settled_absent (by simp [KeyView.perform])
    · cases isStep
      subst_vars
      exact settled_present id
  | some remoteExtension =>
    simp [PassAt, mem_added, mem_removed, mem_updated, differAt, inBase, inLocal, inRemote,
      notIgnored, notBuiltin, updatedInRemote, updatedInLocal, assertIsDefined,
      wasAnInstalledExtensionDuringLastSync, ok_bind, pure, Except.pure]
      at first second third fourth fifth sixth
    by_cases same : areSame true true baseExtension remoteExtension = true
    · have sameInstalled := installed_eq_of_areSame same
      simp only [same, if_true] at third
      split at fifth
      · rename_i unchanged
        have localInstalled := installed_eq_of_areSame unchanged
        subst_vars
        apply settled_present
        rw [← localInstalled, sameInstalled]
        exact id
      · obtain ⟨effects, isStep, performed⟩ := fifth
        simp only [same, Bool.true_eq_false, if_false] at isStep
        obtain ⟨merged, isMerged, isStep⟩ := bind_ok isStep
        have installed := (mergeExtension_ok isMerged).2
        cases isStep
        subst_vars
        exact settled_present fun isInstalled => installed.mpr (.inl isInstalled)
    · have unchanged : v₅ = v₄ := by simpa [same] using fifth
      simp only [same, Bool.false_eq_true, if_false] at third
      obtain ⟨effects, isStep, performed⟩ := third
      split at isStep
      · rename_i removed
        cases isStep
        subst_vars
        exact settled_absent (by simpa [KeyView.perform] using removed.2.2)
      · obtain ⟨merged, isMerged, isStep⟩ := bind_ok isStep
        cases isStep
        subst_vars
        exact settled_present fun isInstalled => by simpa using isInstalled

/-- The decision about a key converges. -/
theorem PassesAt.settled (notIgnored : key ∉ ignored) (notSkipped : key ∉ skippedExtensionsMap.keys)
    (notBuiltin : key ∉ builtin) :
    Settled (v'.localAfter (localExtensionsMap.get? key)) v'.remote := by
  cases inBase : valueIn lastSyncExtensionsMap key with
  | none => exact run.settled_new notIgnored inBase
  | some baseExtension =>
    cases inLocal : localExtensionsMap.get? key with
    | none => exact run.settled_removed notIgnored notSkipped notBuiltin inBase inLocal
    | some localExtension => exact run.settled_kept notIgnored notBuiltin inBase inLocal

end Run

/-- Nothing is done about an ignored key. -/
theorem PassesAt.of_ignored
    (run : PassesAt gt localExtensionsMap remoteExtensionsMap skippedExtensionsMap
      lastSyncExtensionsMap lastSyncBuiltinExtensions
      (compare ignored false (some localExtensionsMap) (some remoteExtensionsMap))
      (compare ignored false lastSyncExtensionsMap (some localExtensionsMap))
      (compare ignored true lastSyncExtensionsMap (some remoteExtensionsMap)) key v v')
    (isIgnored : key ∈ ignored) : v' = v := by
  obtain ⟨v₁, v₂, v₃, v₄, v₅, first, second, third, fourth, fifth, sixth⟩ := run
  simp only [PassAt, mem_added, mem_removed, mem_updated, isIgnored, not_true_eq_false,
    false_and, if_false] at first second third fourth fifth sixth
  rw [sixth, fifth, fourth, third, second, first]

end Decision

/-! ## Failures -/

section Failures

variable (gt localExtensionsMap remoteExtensionsMap) in
/-- Only the comparison of the versions of a local and a remote extension fails. -/
def Failure (e : MergeError) : Prop :=
  e = .invalidVersion ∧ ∃ key localExtension remoteExtension,
    localExtensionsMap.get? key = some localExtension ∧
    remoteExtensionsMap.get? key = some remoteExtension ∧
    Incomparable gt localExtension remoteExtension

variable {ignored : List Key} {key : Key} {e : MergeError}

omit [DecidableEq ν] in
theorem differAt_some {areSame : ISyncExtension ν → ISyncExtension ν → Bool}
    (differ : differAt areSame source target key = true) :
    ∃ first second, valueIn source key = some first ∧ valueIn target key = some second := by
  cases inSource : valueIn source key with
  | none => simp [differAt, inSource] at differ
  | some first =>
    cases inTarget : valueIn target key with
    | none => simp [differAt, inTarget] at differ
    | some second => exact ⟨first, second, rfl, rfl⟩

theorem removedInRemote_error (member : key ∈
      (compare ignored true lastSyncExtensionsMap (some remoteExtensionsMap)).removed)
    (failed : removedInRemote localExtensionsMap lastSyncExtensionsMap
      lastSyncBuiltinExtensions key = .error e) : False := by
  rw [mem_removed, isSome_iff_exists] at member
  obtain ⟨-, ⟨baseExtension, inBase⟩, -⟩ := member
  unfold removedInRemote at failed
  split at failed
  · cases failed
  · simp only [inBase, assertIsDefined, ok_bind] at failed
    split at failed <;> cases failed

theorem addedInRemote_error (member : key ∈
      (compare ignored true lastSyncExtensionsMap (some remoteExtensionsMap)).added)
    (failed : addedInRemote gt localExtensionsMap remoteExtensionsMap lastSyncExtensionsMap
      localToRemote key = .error e) :
    Failure gt localExtensionsMap remoteExtensionsMap e := by
  rw [mem_added, valueIn_some, isSome_iff_exists] at member
  obtain ⟨-, -, remoteExtension, inRemote⟩ := member
  unfold addedInRemote at failed
  simp only [inRemote, assertIsDefined, ok_bind] at failed
  split at failed
  · rename_i localExtension inLocal
    split at failed
    · obtain mergeFailed | ⟨merged, -, returned⟩ := bind_error failed
      · obtain ⟨isInvalid, incomparable⟩ := mergeExtension_error mergeFailed
        exact ⟨isInvalid, key, localExtension, remoteExtension, inLocal, inRemote, incomparable⟩
      · split at returned <;> cases returned
    · cases failed
  · split at failed <;> cases failed

theorem updatedInRemote_error (member : key ∈
      (compare ignored true lastSyncExtensionsMap (some remoteExtensionsMap)).updated)
    (failed : updatedInRemote gt localExtensionsMap remoteExtensionsMap lastSyncExtensionsMap
      lastSyncBuiltinExtensions key = .error e) :
    Failure gt localExtensionsMap remoteExtensionsMap e := by
  obtain ⟨baseExtension, remoteExtension, inBase, inRemote⟩ :=
    differAt_some (mem_updated.mp member).2
  rw [valueIn_some] at inRemote
  unfold updatedInRemote at failed
  simp only [inBase, inRemote, assertIsDefined, ok_bind] at failed
  split at failed
  · rename_i localExtension inLocal
    split at failed
    · cases failed
    · obtain mergeFailed | ⟨merged, -, returned⟩ := bind_error failed
      · obtain ⟨isInvalid, incomparable⟩ := mergeExtension_error mergeFailed
        exact ⟨isInvalid, key, localExtension, remoteExtension, inLocal, inRemote, incomparable⟩
      · cases returned
  · split at failed <;> cases failed

theorem addedInLocal_error (member : key ∈
      (compare ignored false lastSyncExtensionsMap (some localExtensionsMap)).added)
    (failed : addedInLocal localExtensionsMap baseToRemote key = .error e) : False := by
  rw [mem_added, valueIn_some, isSome_iff_exists] at member
  obtain ⟨-, -, localExtension, inLocal⟩ := member
  unfold addedInLocal at failed
  split at failed
  · cases failed
  · simp only [inLocal, assertIsDefined, ok_bind] at failed
    cases failed

theorem inRemote_of_notMem_removed (notIgnored : key ∉ ignored)
    (inBase : valueIn lastSyncExtensionsMap key = some baseExtension)
    (kept : key ∉ (compare ignored true lastSyncExtensionsMap (some remoteExtensionsMap)).removed) :
    ∃ remoteExtension, remoteExtensionsMap.get? key = some remoteExtension := by
  rw [mem_removed, inBase, valueIn_some] at kept
  rw [← ne_none_iff_exists']
  intro missing
  exact kept ⟨notIgnored, rfl, missing⟩

theorem updatedInLocal_error (member : key ∈
      (compare ignored false lastSyncExtensionsMap (some localExtensionsMap)).updated)
    (failed : updatedInLocal gt localExtensionsMap remoteExtensionsMap lastSyncExtensionsMap
      (compare ignored true lastSyncExtensionsMap (some remoteExtensionsMap)) key = .error e) :
    Failure gt localExtensionsMap remoteExtensionsMap e := by
  obtain ⟨notIgnored, differ⟩ := mem_updated.mp member
  obtain ⟨baseExtension, localExtension, inBase, inLocal⟩ := differAt_some differ
  rw [valueIn_some] at inLocal
  unfold updatedInLocal at failed
  split_ifs at failed with removed updated
  · cases failed
  · cases failed
  · obtain ⟨remoteExtension, inRemote⟩ := inRemote_of_notMem_removed notIgnored inBase removed
    simp only [inLocal, inRemote, assertIsDefined, ok_bind] at failed
    obtain mergeFailed | ⟨merged, -, returned⟩ := bind_error failed
    · obtain ⟨isInvalid, incomparable⟩ := mergeExtension_error mergeFailed
      exact ⟨isInvalid, key, localExtension, remoteExtension, inLocal, inRemote, incomparable⟩
    · cases returned

theorem removedInLocal_error (member : key ∈
      (compare ignored false lastSyncExtensionsMap (some localExtensionsMap)).removed)
    (failed : removedInLocal remoteExtensionsMap skippedExtensionsMap lastSyncExtensionsMap
      lastSyncBuiltinExtensions
      (compare ignored true lastSyncExtensionsMap (some remoteExtensionsMap)) key = .error e) :
    False := by
  rw [mem_removed, isSome_iff_exists] at member
  obtain ⟨notIgnored, ⟨baseExtension, inBase⟩, -⟩ := member
  unfold removedInLocal at failed
  split_ifs at failed with updated removed skipped
  all_goals try cases failed
  obtain ⟨remoteExtension, inRemote⟩ := inRemote_of_notMem_removed notIgnored inBase removed
  simp only [inBase, inRemote, assertIsDefined, ok_bind] at failed
  split at failed
  · cases failed
  · split at failed
    · cases failed
    · split_ifs at failed
      all_goals cases failed

theorem runPasses_error
    (failed : runPasses gt localExtensionsMap remoteExtensionsMap skippedExtensionsMap
      lastSyncExtensionsMap lastSyncBuiltinExtensions localToRemote
      (compare ignored false lastSyncExtensionsMap (some localExtensionsMap))
      (compare ignored true lastSyncExtensionsMap (some remoteExtensionsMap)) d = .error e) :
    Failure gt localExtensionsMap remoteExtensionsMap e := by
  unfold runPasses at failed
  obtain failed | ⟨d₁, -, failed⟩ := bind_error failed
  · obtain ⟨key, member, stepFailed⟩ := runPass_error failed
    exact (removedInRemote_error member stepFailed).elim
  obtain failed | ⟨d₂, -, failed⟩ := bind_error failed
  · obtain ⟨key, member, stepFailed⟩ := runPass_error failed
    exact addedInRemote_error member stepFailed
  obtain failed | ⟨d₃, -, failed⟩ := bind_error failed
  · obtain ⟨key, member, stepFailed⟩ := runPass_error failed
    exact updatedInRemote_error member stepFailed
  obtain failed | ⟨d₄, -, failed⟩ := bind_error failed
  · obtain ⟨key, member, stepFailed⟩ := runPass_error failed
    exact (addedInLocal_error member stepFailed).elim
  obtain failed | ⟨d₅, -, failed⟩ := bind_error failed
  · obtain ⟨key, member, stepFailed⟩ := runPass_error failed
    exact updatedInLocal_error member stepFailed
  · obtain ⟨key, member, stepFailed⟩ := runPass_error failed
    exact (removedInLocal_error member stepFailed).elim

end Failures

end Steps

end Extensions
end CodeEditor.UserDataSync
