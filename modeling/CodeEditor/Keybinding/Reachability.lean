import CodeEditor.Keybinding.Resolver

/-!
# Hidden keybindings that still fire

A keybinding that is hidden by one with as many chords or more never fires: whoever presses
its chords is answered by a later keybinding. One that is hidden by a shorter keybinding fires
as soon as longer keybindings keep the resolver waiting for its chords.
-/

namespace CodeEditor.Keybinding

open ContextKey List

variable {I α A Context : Type} [DecidableEq I] (K : Items I α A) (C : Clauses α)
  (value : Context → α → Bool)

/-! ## Runs of presses -/

/-- Each of the pressed chords was answered by a wait for more. -/
inductive Awaiting (resolver : KeybindingResolver I) : List String → Prop
  | start : Awaiting resolver []
  | press {currentChords : List String} {keypress : String} (context : Context) :
      Awaiting resolver currentChords →
      resolve K value resolver context currentChords keypress = .moreChordsNeeded →
      Awaiting resolver (currentChords ++ [keypress])

/-- A run of presses ends with `k` being found. -/
def Fires (resolver : KeybindingResolver I) (k : I) : Prop :=
  ∃ currentChords keypress context,
    Awaiting K value resolver currentChords ∧
    resolvedItem K value resolver context (currentChords ++ [keypress]) = some k ∧
    resolve K value resolver context currentChords keypress =
      .kbFound (K.command k) (K.commandArgs k) (K.bubble k)

/-- `k` has a command and was added, and the map by command has lost it. -/
def IsHidden (resolver : KeybindingResolver I) (k : I) : Prop :=
  ∃ command, commandOf K k = some command ∧
    (∃ keypress, k ∈ (resolver.map keypress).getD []) ∧
    k ∉ lookupKeybindings resolver command

/-! ## The keybinding that decides -/

/-- `j` is the last of the keybindings that begin with `chords` and whose clause holds. -/
def Prevails (bindings : List I) (context : Context) (chords : List String) (j : I) : Prop :=
  j ∈ bindings ∧ chords <+: K.chords j ∧
    contextMatchesRules value context (K.when j) = true ∧
    ∀ i ∈ laterThan bindings j, chords <+: K.chords i →
      contextMatchesRules value context (K.when i) = false

theorem find?_eq_some_iff_takeWhile (p : I → Bool) (l : List I) (a : I) :
    l.find? p = some a ↔ a ∈ l ∧ p a = true ∧ ∀ x ∈ l.takeWhile (· ≠ a), p x = false := by
  induction l with
  | nil => simp
  | cons b l ih =>
    by_cases same : b = a
    · subst same
      by_cases holds : p b = true
      · simp [holds]
      · have other : l.find? p ≠ some b := by
          intro found
          exact holds (find?_some found)
        simp [holds, other]
    · have differs : a ≠ b := Ne.symm same
      by_cases holds : p b = true
      · simp [holds, same]
      · simp [holds, same, differs, ih]

omit [DecidableEq I] in
theorem matching_startingWith (bindings : List I) (keypress : String) (rest : List String) :
    matching K (startingWith K bindings keypress) (keypress :: rest) =
      bindings.filter fun j => (keypress :: rest).isPrefixOf (K.chords j) := by
  unfold matching startingWith
  cases rest with
  | nil =>
    apply filter_congr
    intro j _
    cases chords : K.chords j with
    | nil => simp
    | cons c cs =>
      rw [List.isPrefixOf, List.isPrefixOf, Bool.and_true, head?_cons, Option.some_beq_some]
      exact BEq.comm
  | cons next rest =>
    rw [if_neg (by simp), filter_filter]
    apply filter_congr
    intro j _
    cases chords : K.chords j with
    | nil => simp
    | cons c cs =>
      rw [Bool.eq_iff_iff]
      simp only [Bool.and_eq_true, decide_eq_true_eq, beq_iff_eq, head?_cons,
        drop_one, tail_cons, isPrefixOf_iff_prefix, cons_prefix_cons,
        Option.some.injEq]
      constructor
      · rintro ⟨⟨_, isPrefix⟩, same⟩
        exact ⟨same.symm, isPrefix⟩
      · rintro ⟨same, isPrefix⟩
        have shorter := isPrefix.length_le
        simp only [length_cons] at shorter ⊢
        exact ⟨⟨by omega, isPrefix⟩, same.symm⟩

variable {K C} {resolver : KeybindingResolver I} {bindings : List I}

theorem resolvedItem_eq_some_iff (holds : MapHolds K resolver bindings) (context : Context)
    {pressedChords : List String} (pressed : pressedChords ≠ []) (j : I) :
    resolvedItem K value resolver context pressedChords = some j ↔
      Prevails K value bindings context pressedChords j := by
  cases pressedChords with
  | nil => exact absurd rfl pressed
  | cons keypress rest =>
    have found : resolvedItem K value resolver context (keypress :: rest) =
        bindings.reverse.find? fun k => (keypress :: rest).isPrefixOf (K.chords k) &&
          contextMatchesRules value context (K.when k) := by
      unfold resolvedItem
      rw [head?_cons, Option.bind_some]
      have candidates := holds.getD keypress
      cases entry : resolver.map keypress with
      | none =>
        rw [entry, Option.getD_none] at candidates
        have none := matching_startingWith K bindings keypress rest
        rw [← candidates] at none
        have empty : bindings.filter (fun k => (keypress :: rest).isPrefixOf (K.chords k)) =
            [] := by
          rw [← none]
          unfold matching
          split <;> rfl
        symm
        rw [find?_eq_none]
        intro k member
        have excluded := filter_eq_nil_iff.mp empty k (mem_reverse.mp member)
        simp [excluded]
      | some kbCandidates =>
        rw [entry, Option.getD_some] at candidates
        simp only [candidates, matching_startingWith]
        unfold findCommand
        rw [← filter_reverse, find?_filter]
        simp only [Bool.decide_and, Bool.decide_eq_true]
    rw [found, find?_eq_some_iff_takeWhile]
    unfold Prevails laterThan
    simp only [mem_reverse, Bool.and_eq_true, isPrefixOf_iff_prefix, and_assoc,
      ← Bool.not_eq_true, not_and]

/-! ## When a keybinding fires -/

theorem resolve_eq_moreChordsNeeded_iff (holds : MapHolds K resolver bindings) (context : Context)
    (currentChords : List String) (keypress : String) :
    resolve K value resolver context currentChords keypress = .moreChordsNeeded ↔
      ∃ j, Prevails K value bindings context (currentChords ++ [keypress]) j ∧
        (currentChords ++ [keypress]).length < (K.chords j).length := by
  simp only [← resolvedItem_eq_some_iff value holds context
    (append_ne_nil_of_right_ne_nil currentChords (cons_ne_nil keypress []))]
  simp only [resolve]
  generalize resolvedItem K value resolver context (currentChords ++ [keypress]) = found
  cases found with
  | none => simp
  | some result =>
    by_cases longer : (currentChords ++ [keypress]).length < (K.chords result).length
    · simp only [longer, if_true, Option.some.injEq, true_iff]
      exact ⟨result, rfl, longer⟩
    · simp only [longer, if_false, Option.some.injEq]
      constructor
      · intro impossible
        cases impossible
      · rintro ⟨j, rfl, isLonger⟩
        exact absurd isLonger longer

/-- In some context a keybinding longer than `chords` is the last one to match. -/
def CanAwait (K : Items I α A) (value : Context → α → Bool) (bindings : List I)
    (chords : List String) : Prop :=
  ∃ context j, Prevails K value bindings context chords j ∧ chords.length < (K.chords j).length

theorem awaiting_iff (holds : MapHolds K resolver bindings) (chords : List String) :
    Awaiting K value resolver chords ↔
      ∀ n, 0 < n → n ≤ chords.length → CanAwait K value bindings (chords.take n) := by
  constructor
  · intro awaiting
    induction awaiting with
    | start =>
      intro n positive bound
      rw [length_nil] at bound
      omega
    | @press currentChords keypress context _ more ih =>
      intro n positive bound
      rw [length_append, length_singleton] at bound
      by_cases isLast : n = currentChords.length + 1
      · rw [take_of_length_le (by simp [isLast])]
        exact ⟨context, (resolve_eq_moreChordsNeeded_iff value holds _ _ _).mp more⟩
      · rw [take_append_of_le_length (by omega)]
        exact ih n positive (by omega)
  · intro canAwait
    induction chords using List.reverseRecOn with
    | nil => exact .start
    | append_singleton currentChords keypress ih =>
      obtain ⟨context, isLast⟩ := canAwait (currentChords.length + 1) (by omega) (by simp)
      rw [take_of_length_le (by simp)] at isLast
      apply Awaiting.press context
      · apply ih
        intro n positive bound
        have earlier := canAwait n positive (by simp; omega)
        rwa [take_append_of_le_length bound] at earlier
      · exact (resolve_eq_moreChordsNeeded_iff value holds _ _ _).mpr isLast

/-- A keybinding fires when each of its proper prefixes can be awaited, and it is itself the
last to match all of its chords. -/
theorem fires_iff (holds : MapHolds K resolver bindings) (k : I) :
    Fires K value resolver k ↔ K.chords k ≠ [] ∧ (∀ n, 0 < n → n < (K.chords k).length →
        CanAwait K value bindings ((K.chords k).take n)) ∧
      ∃ context, Prevails K value bindings context (K.chords k) k := by
  constructor
  · rintro ⟨currentChords, keypress, context, awaiting, found, result⟩
    have pressed : currentChords ++ [keypress] ≠ [] := by simp
    have prevails := (resolvedItem_eq_some_iff value holds context pressed k).mp found
    have complete : ¬ (currentChords ++ [keypress]).length < (K.chords k).length := by
      intro longer
      simp only [resolve, found, longer, if_true] at result
      cases result
    have same : currentChords ++ [keypress] = K.chords k :=
      prevails.2.1.eq_of_length_le (not_lt.mp complete)
    rw [same] at prevails
    refine ⟨by rw [← same]; exact pressed, ?_, context, prevails⟩
    intro n positive bound
    rw [← same, length_append, length_singleton] at bound
    rw [← same, take_append_of_le_length (by omega)]
    exact (awaiting_iff value holds currentChords).mp awaiting n positive (by omega)
  · rintro ⟨nonempty, canAwait, context, prevails⟩
    have split := dropLast_append_getLast nonempty
    have lengths : (K.chords k).dropLast.length + 1 = (K.chords k).length := by
      have positive := length_pos_iff.mpr nonempty
      rw [length_dropLast]
      omega
    have found : resolvedItem K value resolver context
        ((K.chords k).dropLast ++ [(K.chords k).getLast nonempty]) = some k := by
      rw [split]
      exact (resolvedItem_eq_some_iff value holds context nonempty k).mpr prevails
    refine ⟨(K.chords k).dropLast, (K.chords k).getLast nonempty, context, ?_, found, ?_⟩
    · rw [awaiting_iff value holds]
      intro n positive bound
      rw [dropLast_eq_take, take_take, min_eq_left (by omega)]
      exact canAwait n positive (by omega)
    · simp only [resolve, found]
      simp [split]

/-! ## Keybindings that are as long as what they hide -/

theorem isHidden_iff (k : I) :
    IsHidden K (KeybindingResolver.create K C defaultKeybindings overrides) k ↔
      (commandOf K k).isSome ∧ k ∈ addedKeybindings K C defaultKeybindings overrides ∧
        ∃ item ∈ laterThan (addedKeybindings K C defaultKeybindings overrides) k,
          Overwrites K C item k := by
  have holds := holds_create K C defaultKeybindings overrides
  have isAdded : (∃ keypress, k ∈ ((KeybindingResolver.create K C defaultKeybindings
      overrides).map keypress).getD []) ↔
      k ∈ addedKeybindings K C defaultKeybindings overrides := by
    simp only [holds.map.getD]
    constructor
    · rintro ⟨keypress, member⟩
      exact mem_of_mem_filter member
    · intro member
      obtain ⟨keypress, rest, chords⟩ :=
        exists_cons_of_ne_nil (chords_ne_nil_of_isAddable C (mem_filter.mp member).2)
      exact ⟨keypress, mem_filter.mpr ⟨member, by simp [chords]⟩⟩
  unfold IsHidden
  rw [isAdded]
  constructor
  · rintro ⟨command, hasCommand, member, lost⟩
    have isSome : (commandOf K k).isSome := by simp [hasCommand]
    refine ⟨isSome, member, (holds.held_eq_zero_iff k isSome member).mp ?_⟩
    rw [held_of_command hasCommand, count_eq_zero]
    simpa [lookupKeybindings] using lost
  · rintro ⟨isSome, member, isOverwritten⟩
    obtain ⟨command, hasCommand⟩ := Option.isSome_iff_exists.mp isSome
    refine ⟨command, hasCommand, member, ?_⟩
    have lost := (holds.held_eq_zero_iff k isSome member).mpr isOverwritten
    rw [held_of_command hasCommand, count_eq_zero] at lost
    simpa [lookupKeybindings] using lost

theorem prefix_of_zip_all {shorter longer : List String} (bound : shorter.length ≤ longer.length)
    (agree : (shorter.zip longer).all (fun chord => chord.1 == chord.2) = true) :
    shorter <+: longer := by
  induction shorter generalizing longer with
  | nil => exact nil_prefix
  | cons c shorter ih =>
    cases longer with
    | nil => simp at bound
    | cons d longer =>
      rw [zip_cons_cons, all_cons, Bool.and_eq_true, beq_iff_eq] at agree
      simp only [length_cons] at bound
      rw [cons_prefix_cons]
      exact ⟨agree.1, ih (by omega) agree.2⟩

omit [DecidableEq I] in
theorem prefix_of_overwrites (isOverwritten : Overwrites K C item k)
    (bound : (K.chords k).length ≤ (K.chords item).length) : K.chords k <+: K.chords item := by
  obtain ⟨first, isOverwritten⟩ := isOverwritten
  unfold overwrites isShorterKbPrefix at isOverwritten
  simp only [Bool.and_eq_true, drop_one] at isOverwritten
  have agree := isOverwritten.1.2
  cases chords : K.chords k with
  | nil => exact nil_prefix
  | cons c cs =>
    cases others : K.chords item with
    | nil => simp [chords, others] at first
    | cons d ds =>
      rw [chords, others] at first agree bound
      rw [cons_prefix_cons]
      exact ⟨(Option.some.inj first).symm, prefix_of_zip_all (by simpa using bound) agree⟩

section Sound

variable (sound : ∀ a b, C.implies a b = true → ∀ context : Context,
  a.evaluate (value context) = true → b.evaluate (value context) = true)

include sound

theorem matches_of_included (included : whenIsEntirelyIncluded C a b = true) (context : Context)
    (holds : contextMatchesRules value context a = true) :
    contextMatchesRules value context b = true := by
  unfold whenIsEntirelyIncluded at included
  split at included
  · rfl
  · simp [contextMatchesRules]
  · split at included
    · cases included
    · cases included
    · exact sound _ _ included context holds

omit [DecidableEq I] in
theorem Overwrites.matches (isOverwritten : Overwrites K C item k)
    (context : Context) (holds : contextMatchesRules value context (K.when k) = true) :
    contextMatchesRules value context (K.when item) = true := by
  have included := isOverwritten.2
  unfold overwrites at included
  rw [Bool.and_eq_true] at included
  exact matches_of_included value sound included.2 context holds

/-- A keybinding overwritten by one with as many chords is never the last to match. -/
theorem not_prevails_of_overwrites {item k : I} (isLater : item ∈ laterThan bindings k)
    (isOverwritten : Overwrites K C item k)
    (bound : (K.chords k).length ≤ (K.chords item).length) (context : Context) :
    ¬ Prevails K value bindings context (K.chords k) k := by
  rintro ⟨_, _, holds, others⟩
  have isFalse := others item isLater (prefix_of_overwrites isOverwritten bound)
  rw [isOverwritten.matches value sound context holds] at isFalse
  cases isFalse

end Sound

/-- Hidden keybindings are dead exactly when each that only shorter keybindings hide has a
proper prefix that is never awaited, or is behind later keybindings in every context. -/
theorem hidden_dead_iff
    (sound : ∀ a b, C.implies a b = true → ∀ context : Context,
      a.evaluate (value context) = true → b.evaluate (value context) = true)
    (defaultKeybindings overrides : List I) :
    (∀ k, IsHidden K (KeybindingResolver.create K C defaultKeybindings overrides) k →
      ¬ Fires K value (KeybindingResolver.create K C defaultKeybindings overrides) k) ↔
    ∀ k ∈ addedKeybindings K C defaultKeybindings overrides, (commandOf K k).isSome →
      (∃ item ∈ laterThan (addedKeybindings K C defaultKeybindings overrides) k,
        Overwrites K C item k) →
      (∀ item ∈ laterThan (addedKeybindings K C defaultKeybindings overrides) k,
        Overwrites K C item k → (K.chords item).length < (K.chords k).length) →
      (∃ n, 0 < n ∧ n < (K.chords k).length ∧
        ¬ CanAwait K value (addedKeybindings K C defaultKeybindings overrides)
          ((K.chords k).take n)) ∨
      ∀ context, contextMatchesRules value context (K.when k) = true →
        ∃ j ∈ laterThan (addedKeybindings K C defaultKeybindings overrides) k,
          K.chords k <+: K.chords j ∧ contextMatchesRules value context (K.when j) = true := by
  have holds := (holds_create K C defaultKeybindings overrides).map
  have nonempty : ∀ k ∈ addedKeybindings K C defaultKeybindings overrides, K.chords k ≠ [] :=
    fun k member => chords_ne_nil_of_isAddable C (mem_filter.mp member).2
  simp only [isHidden_iff, fires_iff value holds]
  generalize addedKeybindings K C defaultKeybindings overrides = bindings at nonempty
  constructor
  · intro dead k member hasCommand isOverwritten _
    by_contra alive
    rw [not_or] at alive
    obtain ⟨awaited, inFront⟩ := alive
    apply dead k ⟨hasCommand, member, isOverwritten⟩
    refine ⟨nonempty k member, ?_, ?_⟩
    · intro n positive bound
      by_contra never
      exact awaited ⟨n, positive, bound, never⟩
    · by_contra never
      apply inFront
      intro context matched
      by_contra none
      apply never
      refine ⟨context, member, prefix_rfl, matched, ?_⟩
      intro i isLater isPrefix
      rw [← Bool.not_eq_true]
      intro alsoMatched
      exact none ⟨i, isLater, isPrefix, alsoMatched⟩
  · rintro condition k ⟨hasCommand, member, isOverwritten⟩ ⟨_, canAwait, context, prevails⟩
    have shorter : ∀ item ∈ laterThan bindings k, Overwrites K C item k →
        (K.chords item).length < (K.chords k).length := by
      intro item isLater overwritten
      by_contra notShorter
      exact not_prevails_of_overwrites value sound isLater overwritten (not_lt.mp notShorter)
        context prevails
    rcases condition k member hasCommand isOverwritten shorter with
      ⟨n, positive, bound, never⟩ | inFront
    · exact never (canAwait n positive bound)
    · obtain ⟨j, isLater, isPrefix, matched⟩ := inFront context prevails.2.2.1
      have isFalse := prevails.2.2.2 j isLater isPrefix
      rw [matched] at isFalse
      cases isFalse

/-! ## Three keybindings -/

/-- `ctrl+k ctrl+c`, `ctrl+k` and `ctrl+k ctrl+d`. -/
inductive Sample
  | comment
  | prefixOnly
  | delete
  deriving DecidableEq

/-- The keybindings have commands of their own and no clauses. -/
def sampleItems : Items Sample String Unit where
  chords
    | .comment => ["ctrl+k", "ctrl+c"]
    | .prefixOnly => ["ctrl+k"]
    | .delete => ["ctrl+k", "ctrl+d"]
  bubble _ := false
  command
    | .comment => some "comment"
    | .prefixOnly => some "prefix"
    | .delete => some "delete"
  commandArgs _ := ()
  when _ := none
  isDefault _ := true

/-- Clauses are compared by the cases that need no look inside. -/
def sampleClauses : Clauses String where
  substituteConstants := some
  expressionsAreEqualWithConstantSubstitution _ _ := false
  implies
    | .falseExpr, _ => true
    | _, .trueExpr => true
    | _, _ => false

/-- The contexts give the value of each key. -/
def sampleValue (context : String → Bool) (key : String) : Bool := context key

def sampleResolver : KeybindingResolver Sample :=
  .create sampleItems sampleClauses [.comment, .prefixOnly, .delete] []

theorem hidden_fires :
    IsHidden sampleItems sampleResolver .comment ∧
      Fires sampleItems sampleValue sampleResolver .comment := by
  constructor
  · exact ⟨"comment", rfl, ⟨"ctrl+k", by decide⟩, by decide⟩
  · refine ⟨["ctrl+k"], "ctrl+c", fun _ => true, ?_, rfl, rfl⟩
    exact .press (fun _ => true) .start rfl

theorem sampleClauses_sound (a b : Expression String) (included : sampleClauses.implies a b = true)
    (context : String → Bool) (holds : a.evaluate (sampleValue context) = true) :
    b.evaluate (sampleValue context) = true := by
  simp only [sampleClauses] at included
  split at included
  · simp at holds
  · simp
  · cases included

/-- Without the third keybinding nothing is awaited behind the second. -/
theorem not_canAwait_sample :
    ¬ CanAwait sampleItems sampleValue [Sample.comment, .prefixOnly] ["ctrl+k"] := by
  rintro ⟨context, j, ⟨_, _, _, others⟩, longer⟩
  cases j with
  | comment =>
    have isFalse := others .prefixOnly (by decide) (by decide)
    cases isFalse
  | prefixOnly => exact absurd longer (by decide)
  | delete => simp_all

theorem hidden_dead_sample :
    ¬ Fires sampleItems sampleValue
      (.create sampleItems sampleClauses [.comment, .prefixOnly] []) .comment := by
  have dead := (hidden_dead_iff (K := sampleItems) sampleValue sampleClauses_sound
    [.comment, .prefixOnly] []).mpr
  apply dead
  · intro k member _ isOverwritten _
    left
    cases k with
    | comment => exact ⟨1, by decide, by decide, not_canAwait_sample⟩
    | prefixOnly => exact absurd isOverwritten (by decide)
    | delete => exact absurd member (by decide)
  · exact ⟨"comment", rfl, ⟨"ctrl+k", by decide⟩, by decide⟩

end CodeEditor.Keybinding
