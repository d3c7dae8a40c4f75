import CodeEditor.ContextKey.Expression

/-!
# Building and negating expressions keeps their meaning

A conjunction is false where one of its elements is, a disjunction is true where one is: both
take their absorbing value exactly where an element does. So only which values occur counts,
and sorting, flattening and leaving out duplicates do not change that.
-/

namespace CodeEditor.ContextKey
namespace Expression

open List

variable {α β γ : Type}

/-! ## Lists of results -/

theorem mem_of_mapM {f : β → Option γ} {list : List β} {results : List γ}
    (mapped : list.mapM f = some results) :
    (∀ a ∈ list, ∃ b ∈ results, f a = some b) ∧ ∀ b ∈ results, ∃ a ∈ list, f a = some b := by
  induction list generalizing results with
  | nil =>
    simp only [mapM_nil, pure, Option.some.injEq] at mapped
    subst mapped
    simp
  | cons a list ih =>
    rw [mapM_cons, Option.bind_eq_bind, Option.bind_eq_some_iff] at mapped
    obtain ⟨b, isFirst, mapped⟩ := mapped
    rw [Option.bind_eq_bind, Option.bind_eq_some_iff] at mapped
    obtain ⟨rest, isRest, isResults⟩ := mapped
    cases isResults
    obtain ⟨forth, back⟩ := ih isRest
    constructor
    · intro other member
      obtain rfl | member := mem_cons.mp member
      · exact ⟨b, mem_cons_self, isFirst⟩
      · obtain ⟨result, inRest, isResult⟩ := forth other member
        exact ⟨result, mem_cons_of_mem _ inRest, isResult⟩
    · intro other member
      obtain rfl | member := mem_cons.mp member
      · exact ⟨a, mem_cons_self, isFirst⟩
      · obtain ⟨result, inRest, isResult⟩ := back other member
        exact ⟨result, mem_cons_of_mem _ inRest, isResult⟩

/-! ## Valid expressions -/

section Valid

variable (A : Atoms α) (admissible : α → Prop) (value : α → Bool)

/-- Admissible atoms are negated by `negate`, and equal ones have one value. -/
structure SoundAtoms : Prop where
  negate_admissible : ∀ a, admissible a → admissible (A.negate a)
  value_negate : ∀ a, admissible a → value (A.negate a) = !value a
  value_eq : ∀ a b, admissible a → admissible b → A.type a = A.type b → A.equals a b = true →
    value a = value b

/-- An expression over admissible atoms, without empty arrays, whose known negations are its
negations. -/
inductive Valid : Expression α → Prop
  | falseExpr : Valid falseExpr
  | trueExpr : Valid trueExpr
  | atom {a : α} (isAdmissible : admissible a) : Valid (atom a)
  | and {expr : List (Expression α)} {negated : Option (Expression α)} (nonempty : expr ≠ [])
      (elements : ∀ e ∈ expr, Valid e) (known : ∀ n, negated = some n → Valid n)
      (isNegation : ∀ n, negated = some n → evaluate value n = !expr.all (evaluate value)) :
      Valid (and expr negated)
  | or {expr : List (Expression α)} {negated : Option (Expression α)} (nonempty : expr ≠ [])
      (elements : ∀ e ∈ expr, Valid e) (known : ∀ n, negated = some n → Valid n)
      (isNegation : ∀ n, negated = some n → evaluate value n = !expr.any (evaluate value)) :
      Valid (or expr negated)

variable {A admissible value} {expr others : List (Expression α)}

theorem evaluate_eq_of_equalsAll (same : ∀ e ∈ expr, ∀ other ∈ others, equals A e other = true →
      evaluate value e = evaluate value other) (equal : equalsAll A expr others = true) :
    expr.all (evaluate value) = others.all (evaluate value) ∧
      expr.any (evaluate value) = others.any (evaluate value) := by
  induction expr generalizing others with
  | nil =>
    cases others with
    | nil => exact ⟨rfl, rfl⟩
    | cons other others => simp [equalsAll] at equal
  | cons e expr ih =>
    cases others with
    | nil => simp [equalsAll] at equal
    | cons other others =>
      rw [equalsAll, Bool.and_eq_true] at equal
      have first := same e mem_cons_self other mem_cons_self equal.1
      have rest := ih (fun e inExpr other inOthers =>
        same e (mem_cons_of_mem _ inExpr) other (mem_cons_of_mem _ inOthers)) equal.2
      simp only [all_cons, any_cons, first, rest.1, rest.2, and_self]

/-- Equal expressions have one value. -/
theorem evaluate_eq_of_equals (sound : SoundAtoms A admissible value)
    (valid : Valid admissible value e) (validOther : Valid admissible value other)
    (equal : equals A e other = true) : evaluate value e = evaluate value other := by
  induction valid generalizing other with
  | falseExpr =>
    cases validOther <;> simp [equals] at equal ⊢
  | trueExpr =>
    cases validOther <;> simp [equals] at equal ⊢
  | atom isAdmissible =>
    cases validOther with
    | atom otherAdmissible =>
      simp only [equals, Bool.and_eq_true, decide_eq_true_eq] at equal
      exact sound.value_eq _ _ isAdmissible otherAdmissible equal.1 equal.2
    | _ => simp [equals] at equal
  | and nonempty elements known isNegation elementsHypothesis knownHypothesis =>
    cases validOther with
    | and _ otherElements _ _ =>
      rw [evaluate_and, evaluate_and]
      exact (evaluate_eq_of_equalsAll (fun e inExpr other inOthers =>
        elementsHypothesis e inExpr (otherElements other inOthers)) equal).1
    | _ => simp [equals] at equal
  | or nonempty elements known isNegation elementsHypothesis knownHypothesis =>
    cases validOther with
    | or _ otherElements _ _ =>
      rw [evaluate_or, evaluate_or]
      exact (evaluate_eq_of_equalsAll (fun e inExpr other inOthers =>
        elementsHypothesis e inExpr (otherElements other inOthers)) equal).2
    | _ => simp [equals] at equal

/-! ## Gathering -/

theorem mem_of_mem_eliminateDuplicates {e : Expression α}
    (member : e ∈ eliminateDuplicates A expr) : e ∈ expr := by
  induction expr using eliminateDuplicates.induct (A := A) with
  | case1 first second expr equal ih =>
    rw [eliminateDuplicates, if_pos equal] at member
    have inRest := ih member
    simp only [mem_cons] at inRest ⊢
    tauto
  | case2 first second expr differ ih =>
    rw [eliminateDuplicates, if_neg differ] at member
    obtain rfl | member := mem_cons.mp member
    · exact mem_cons_self
    · exact mem_cons_of_mem _ (ih member)
  | case3 expr short =>
    rwa [eliminateDuplicates] at member
    exact short

variable {expr : List (Expression α)}

/-- The elements that are left out have the value of one that stays. -/
theorem value_mem_eliminateDuplicates (sound : SoundAtoms A admissible value)
    (valid : ∀ e ∈ expr, Valid admissible value e) {e : Expression α} (member : e ∈ expr) :
    ∃ other ∈ eliminateDuplicates A expr, evaluate value other = evaluate value e := by
  induction expr using eliminateDuplicates.induct (A := A) generalizing e with
  | case1 first second expr equal ih =>
    rw [eliminateDuplicates, if_pos equal]
    have validRest : ∀ e ∈ first :: expr, Valid admissible value e := by
      intro e member
      apply valid
      simp only [mem_cons] at member ⊢
      tauto
    have same := evaluate_eq_of_equals sound (valid first mem_cons_self)
      (valid second (mem_cons_of_mem _ mem_cons_self)) equal
    simp only [mem_cons] at member
    obtain rfl | rfl | member := member
    · exact ih validRest mem_cons_self
    · rw [← same]
      exact ih validRest mem_cons_self
    · exact ih validRest (mem_cons_of_mem _ member)
  | case2 first second expr differ ih =>
    rw [eliminateDuplicates, if_neg differ]
    obtain rfl | member := mem_cons.mp member
    · exact ⟨e, mem_cons_self, rfl⟩
    · obtain ⟨other, inRest, same⟩ := ih (fun e member => valid e (mem_cons_of_mem _ member)) member
      exact ⟨other, mem_cons_of_mem _ inRest, same⟩
  | case3 expr short =>
    refine ⟨e, ?_, rfl⟩
    rwa [eliminateDuplicates]
    exact short

/-- The elements that an array contributes. -/
theorem mem_collect {before expr : List (Expression α)} {hadNeutral hasNeutral : Bool}
    (collected : collect isNeutral isAbsorbing nested arr before hadNeutral =
      some (expr, hasNeutral)) :
    (∀ x, x ∈ expr ↔ x ∈ before ∨
      ∃ e, some e ∈ arr ∧ isNeutral e = false ∧ x ∈ (nested e).getD [e]) ∧
    (hasNeutral = true ↔ hadNeutral = true ∨ ∃ e, some e ∈ arr ∧ isNeutral e = true) := by
  induction arr generalizing before hadNeutral with
  | nil =>
    cases collected
    simp
  | cons element arr ih =>
    cases element with
    | none =>
      have rest := ih collected
      simpa using rest
    | some e =>
      rw [collect] at collected
      split at collected
      · rename_i neutral
        obtain ⟨elements, neutrals⟩ := ih collected
        constructor
        · intro x
          rw [elements]
          constructor
          · rintro (inBefore | ⟨other, member, rest⟩)
            · exact .inl inBefore
            · exact .inr ⟨other, mem_cons_of_mem _ member, rest⟩
          · rintro (inBefore | ⟨other, member, notNeutral, isElement⟩)
            · exact .inl inBefore
            · obtain same | member := mem_cons.mp member
              · cases same
                rw [neutral] at notNeutral
                cases notNeutral
              · exact .inr ⟨other, member, notNeutral, isElement⟩
        · constructor
          · exact fun _ => .inr ⟨e, mem_cons_self, neutral⟩
          · exact fun _ => neutrals.mpr (.inl rfl)
      · rename_i notNeutral
        split at collected
        · cases collected
        · obtain ⟨elements, neutrals⟩ := ih collected
          constructor
          · intro x
            rw [elements, mem_append, or_assoc]
            apply or_congr_right
            constructor
            · rintro (isElement | ⟨other, member, rest⟩)
              · exact ⟨e, mem_cons_self, by simpa using notNeutral, isElement⟩
              · exact ⟨other, mem_cons_of_mem _ member, rest⟩
            · rintro ⟨other, member, rest⟩
              obtain same | member := mem_cons.mp member
              · cases same
                exact .inl rest.2
              · exact .inr ⟨other, member, rest⟩
          · rw [neutrals]
            apply or_congr_right
            constructor
            · rintro ⟨other, member, isNeutral⟩
              exact ⟨other, mem_cons_of_mem _ member, isNeutral⟩
            · rintro ⟨other, member, isNeutral⟩
              obtain same | member := mem_cons.mp member
              · cases same
                exact absurd isNeutral notNeutral
              · exact ⟨other, member, isNeutral⟩

theorem absorbing_of_collect {before : List (Expression α)}
    (absorbed : collect isNeutral isAbsorbing nested arr before hadNeutral = none) :
    ∃ e, some e ∈ arr ∧ isAbsorbing e = true := by
  induction arr generalizing before hadNeutral with
  | nil => cases absorbed
  | cons element arr ih =>
    cases element with
    | none =>
      obtain ⟨e, member, isAbsorbing⟩ := ih absorbed
      exact ⟨e, mem_cons_of_mem _ member, isAbsorbing⟩
    | some e =>
      rw [collect] at absorbed
      split at absorbed
      · obtain ⟨e, member, isAbsorbing⟩ := ih absorbed
        exact ⟨e, mem_cons_of_mem _ member, isAbsorbing⟩
      · split at absorbed
        · rename_i isAbsorbing
          exact ⟨e, mem_cons_self, isAbsorbing⟩
        · obtain ⟨e, member, isAbsorbing⟩ := ih absorbed
          exact ⟨e, mem_cons_of_mem _ member, isAbsorbing⟩

/-- A connective with the absorbing value `z`: how it takes expressions apart. -/
structure Connective (admissible : α → Prop) (value : α → Bool) (z : Bool)
    (isNeutral isAbsorbing : Expression α → Bool)
    (nested : Expression α → Option (List (Expression α)))
    (neutral absorbing : Expression α) : Prop where
  validNeutral : Valid admissible value neutral
  validAbsorbing : Valid admissible value absorbing
  evaluate_neutral : evaluate value neutral = !z
  evaluate_absorbing : evaluate value absorbing = z
  ofNeutral : ∀ e, isNeutral e = true → evaluate value e = !z
  ofAbsorbing : ∀ e, isAbsorbing e = true → evaluate value e = z
  nonempty : ∀ e, Valid admissible value e → (nested e).getD [e] ≠ []
  validNested : ∀ e, Valid admissible value e → ∀ x ∈ (nested e).getD [e],
    Valid admissible value x
  evaluate_nested : ∀ e, evaluate value e = z ↔
    ∃ x ∈ (nested e).getD [e], evaluate value x = z

theorem conjunction : Connective admissible value false isTrue isFalse conjuncts trueExpr
    falseExpr where
  validNeutral := .trueExpr
  validAbsorbing := .falseExpr
  evaluate_neutral := by simp
  evaluate_absorbing := by simp
  ofNeutral := by
    intro e neutral
    cases e <;> simp [isTrue] at neutral ⊢
  ofAbsorbing := by
    intro e absorbing
    cases e <;> simp [isFalse] at absorbing ⊢
  nonempty := by
    intro e valid
    cases valid with
    | and nonempty => exact nonempty
    | _ => simp [conjuncts]
  validNested := by
    intro e valid
    cases valid with
    | and nonempty elements known isNegation => exact elements
    | falseExpr => simpa [conjuncts] using Valid.falseExpr
    | trueExpr => simpa [conjuncts] using Valid.trueExpr
    | atom isAdmissible => simpa [conjuncts] using Valid.atom isAdmissible
    | or nonempty elements known isNegation =>
      simpa [conjuncts] using Valid.or nonempty elements known isNegation
  evaluate_nested := by
    intro e
    cases e <;> simp [conjuncts]

theorem disjunction : Connective admissible value true isFalse isTrue disjuncts falseExpr
    trueExpr where
  validNeutral := .falseExpr
  validAbsorbing := .trueExpr
  evaluate_neutral := by simp
  evaluate_absorbing := by simp
  ofNeutral := by
    intro e neutral
    cases e <;> simp [isFalse] at neutral ⊢
  ofAbsorbing := by
    intro e absorbing
    cases e <;> simp [isTrue] at absorbing ⊢
  nonempty := by
    intro e valid
    cases valid with
    | or nonempty => exact nonempty
    | _ => simp [disjuncts]
  validNested := by
    intro e valid
    cases valid with
    | or nonempty elements known isNegation => exact elements
    | falseExpr => simpa [disjuncts] using Valid.falseExpr
    | trueExpr => simpa [disjuncts] using Valid.trueExpr
    | atom isAdmissible => simpa [disjuncts] using Valid.atom isAdmissible
    | and nonempty elements known isNegation =>
      simpa [disjuncts] using Valid.and nonempty elements known isNegation
  evaluate_nested := by
    intro e
    cases e <;> simp [disjuncts]

/-- The value of an array, where `z` is absorbing. -/
def OccursIn (value : α → Bool) (z : Bool) (arr : List (Option (Expression α))) : Prop :=
  ∃ e, some e ∈ arr ∧ evaluate value e = z

/-- A result of a connective over an array. -/
def ResultOf (admissible : α → Prop) (value : α → Bool) (z : Bool)
    (arr : List (Option (Expression α))) : Option (Expression α) → Prop
  | some e => Valid admissible value e ∧ (evaluate value e = z ↔ OccursIn value z arr)
  | none => ∀ e, some e ∉ arr

/-- The elements of a connective that are left of an array. -/
structure TermsOf (admissible : α → Prop) (value : α → Bool) (z : Bool)
    (arr : List (Option (Expression α))) (expr : List (Expression α)) : Prop where
  nonempty : expr ≠ []
  valid : ∀ e ∈ expr, Valid admissible value e
  occurs : (∃ e ∈ expr, evaluate value e = z) ↔ OccursIn value z arr

/-- What is gathered of an array has its value. -/
def GatheredOf (admissible : α → Prop) (value : α → Bool) (z : Bool)
    (arr : List (Option (Expression α))) : Gathered α → Prop
  | .done result => ResultOf admissible value z arr result
  | .terms expr => TermsOf admissible value z arr expr

section Gather

variable {z : Bool} {isNeutral isAbsorbing : Expression α → Bool}
  {nested : Expression α → Option (List (Expression α))} {neutral absorbing : Expression α}
  {arr : List (Option (Expression α))}

section

variable (connective : Connective admissible value z isNeutral isAbsorbing nested neutral absorbing)
  (valid : ∀ e, some e ∈ arr → Valid admissible value e)

include connective valid

theorem terms_of_collect {hasNeutral : Bool}
    (collected : collect isNeutral isAbsorbing nested arr [] false = some (expr, hasNeutral)) :
    (∀ e ∈ expr, Valid admissible value e) ∧
      ((∃ e ∈ expr, evaluate value e = z) ↔ OccursIn value z arr) := by
  obtain ⟨elements, -⟩ := mem_collect collected
  simp only [not_mem_nil, false_or] at elements
  constructor
  · intro x member
    obtain ⟨e, inArray, -, isElement⟩ := (elements x).mp member
    exact connective.validNested e (valid e inArray) x isElement
  · constructor
    · rintro ⟨x, member, isZ⟩
      obtain ⟨e, inArray, -, isElement⟩ := (elements x).mp member
      exact ⟨e, inArray, (connective.evaluate_nested e).mpr ⟨x, isElement, isZ⟩⟩
    · rintro ⟨e, inArray, isZ⟩
      have notNeutral : isNeutral e = false := by
        rw [Bool.eq_false_iff]
        intro isNeutral
        rw [connective.ofNeutral e isNeutral] at isZ
        cases z <;> cases isZ
      obtain ⟨x, isElement, isZ⟩ := (connective.evaluate_nested e).mp isZ
      exact ⟨x, (elements x).mpr ⟨e, inArray, notNeutral, isElement⟩, isZ⟩

theorem result_of_empty {hasNeutral : Bool}
    (collected : collect isNeutral isAbsorbing nested arr [] false = some ([], hasNeutral)) :
    ResultOf admissible value z arr (if hasNeutral then some neutral else none) := by
  obtain ⟨elements, neutrals⟩ := mem_collect collected
  have occurs := (terms_of_collect connective valid collected).2
  simp only [Bool.false_eq_true, false_or] at neutrals
  split
  · refine ⟨connective.validNeutral, ?_⟩
    rw [connective.evaluate_neutral, ← occurs]
    cases z <;> simp
  · rename_i noNeutral
    intro e inArray
    have notNeutral : isNeutral e = false := by
      rw [Bool.eq_false_iff]
      exact fun isNeutral => noNeutral (neutrals.mpr ⟨e, inArray, isNeutral⟩)
    obtain ⟨x, isElement⟩ := exists_mem_of_ne_nil _ (connective.nonempty e (valid e inArray))
    have inEmpty := (elements x).mpr (.inr ⟨e, inArray, notNeutral, isElement⟩)
    cases inEmpty

end

theorem gather_spec (sound : SoundAtoms A admissible value)
    (connective : Connective admissible value z isNeutral isAbsorbing nested neutral absorbing)
    (valid : ∀ e, some e ∈ arr → Valid admissible value e) :
    GatheredOf admissible value z arr
      (gather A isNeutral isAbsorbing nested neutral absorbing arr) := by
  unfold gather
  split
  · rename_i absorbed
    refine ⟨connective.validAbsorbing, ?_⟩
    obtain ⟨e, inArray, isAbsorbing⟩ := absorbing_of_collect absorbed
    simp only [connective.evaluate_absorbing, true_iff]
    exact ⟨e, inArray, connective.ofAbsorbing e isAbsorbing⟩
  · rename_i hasNeutral collected
    exact result_of_empty connective valid collected
  · rename_i e hasNeutral collected
    obtain ⟨validTerms, occurs⟩ := terms_of_collect connective valid collected
    exact ⟨validTerms e mem_cons_self, by rw [← occurs]; simp⟩
  · rename_i expr hasNeutral notEmpty notSingle collected
    obtain ⟨validTerms, occurs⟩ := terms_of_collect connective valid collected
    have sorted := A.sort_perm (cmp A) expr
    have validSorted : ∀ e ∈ A.sort (cmp A) expr, Valid admissible value e :=
      fun e member => validTerms e (sorted.mem_iff.mp member)
    -- the terms that stay have the values of all terms
    have terms : TermsOf admissible value z arr (eliminateDuplicates A (A.sort (cmp A) expr)) := by
      refine ⟨?_, ?_, ?_⟩
      · have nonempty : expr ≠ [] := by
          rintro rfl
          exact notEmpty rfl
        obtain ⟨e, member⟩ := exists_mem_of_ne_nil _ nonempty
        obtain ⟨other, stays, -⟩ := value_mem_eliminateDuplicates sound validSorted
          (sorted.mem_iff.mpr member)
        exact ne_nil_of_mem stays
      · intro e member
        exact validSorted e (mem_of_mem_eliminateDuplicates member)
      · rw [← occurs]
        constructor
        · rintro ⟨e, member, isZ⟩
          exact ⟨e, sorted.mem_iff.mp (mem_of_mem_eliminateDuplicates member), isZ⟩
        · rintro ⟨e, member, isZ⟩
          obtain ⟨other, stays, same⟩ := value_mem_eliminateDuplicates sound validSorted
            (sorted.mem_iff.mpr member)
          exact ⟨other, stays, same.trans isZ⟩
    split
    · rename_i e isSingle
      rw [isSingle] at terms
      exact ⟨terms.valid e mem_cons_self, by rw [← terms.occurs]; simp⟩
    · exact terms

end Gather

/-! ## The functions that call each other -/

/-- What a builder promises for its result. -/
def Builds (admissible : α → Prop) (value : α → Bool) (z : Bool)
    (arr : List (Option (Expression α))) (negated result : Option (Expression α)) : Prop :=
  (∀ e, some e ∈ arr → Valid admissible value e) →
  (∀ n, negated = some n → Valid admissible value n ∧
    (evaluate value n = !z ↔ OccursIn value z arr)) →
  ResultOf admissible value z arr result

/-- What a negation promises. -/
def Negates (admissible : α → Prop) (value : α → Bool) (e result : Expression α) : Prop :=
  Valid admissible value e →
    Valid admissible value result ∧ evaluate value result = !evaluate value e

/-- Two elements of opposite values are found. -/
def FindsOpposites (admissible : α → Prop) (value : α → Bool) (expr : List (Expression α))
    (found : Bool) : Prop :=
  (∀ e ∈ expr, Valid admissible value e) → found = true → ∀ z, ∃ e ∈ expr, evaluate value e = z

/-- A loop keeps the value of a conjunction. -/
def KeepsConjunction (admissible : α → Prop) (value : α → Bool)
    (expr result : List (Expression α)) : Prop :=
  expr ≠ [] → (∀ e ∈ expr, Valid admissible value e) →
  result ≠ [] ∧ (∀ e ∈ result, Valid admissible value e) ∧
    ((∃ e ∈ result, evaluate value e = false) ↔ ∃ e ∈ expr, evaluate value e = false)

variable {negated : Option (Expression α)}

/-- Whether a disjunction with the given elements is the result of an array. -/
theorem TermsOf.result_or (terms : TermsOf admissible value true arr expr)
    (known : ∀ n, negated = some n → Valid admissible value n ∧
      (evaluate value n = false ↔ OccursIn value true arr)) :
    ResultOf admissible value true arr (some (or expr negated)) := by
  have isAny : expr.any (evaluate value) = true ↔ OccursIn value true arr := by
    rw [← terms.occurs, any_eq_true]
  refine ⟨.or terms.nonempty terms.valid (fun n isNegated => (known n isNegated).1) ?_, ?_⟩
  · intro n isNegated
    cases value : expr.any (evaluate value) <;> simp_all
  · rw [evaluate_or]
    exact isAny

theorem TermsOf.result_and (terms : TermsOf admissible value false arr expr)
    (known : ∀ n, negated = some n → Valid admissible value n ∧
      (evaluate value n = true ↔ OccursIn value false arr)) :
    ResultOf admissible value false arr (some (and expr negated)) := by
  have isAll : expr.all (evaluate value) = false ↔ OccursIn value false arr := by
    rw [← terms.occurs, all_eq_false]
    simp
  refine ⟨.and terms.nonempty terms.valid (fun n isNegated => (known n isNegated).1) ?_, ?_⟩
  · intro n isNegated
    cases value : expr.all (evaluate value) <;> simp_all
  · rw [evaluate_and]
    exact isAll

/-- Elements of opposite values make the absorbing expression the result. -/
theorem TermsOf.result_redundant (terms : TermsOf admissible value z arr expr)
    (opposites : FindsOpposites admissible value expr true)
    (validAbsorbing : Valid admissible value absorbing)
    (isAbsorbing : evaluate value absorbing = z) :
    ResultOf admissible value z arr (some absorbing) := by
  refine ⟨validAbsorbing, ?_⟩
  simp only [isAbsorbing, true_iff, ← terms.occurs]
  exact opposites terms.valid rfl z

section Steps

variable (sound : SoundAtoms A admissible value)

include sound in
theorem orCreate_step {isRedundant : List (Expression α) → Option Bool}
    (finds : ∀ expr r, isRedundant expr = some r → FindsOpposites admissible value expr r)
    (done : (match gatherOr A arr with
      | .done result => some result
      | .terms expr => do
          let isTrue ← isRedundant expr
          some (if isTrue then some trueExpr else some (or expr negated))) = some result) :
    Builds admissible value true arr negated result := by
  intro valid known
  have gathered := gather_spec sound disjunction valid
  rw [← gatherOr] at gathered
  cases found : gatherOr A arr with
  | done result' =>
    rw [found] at done gathered
    cases done
    exact gathered
  | terms expr =>
    rw [found] at done gathered
    rw [Option.bind_eq_bind, Option.bind_eq_some_iff] at done
    obtain ⟨isTrue, checked, done⟩ := done
    have terms : TermsOf admissible value true arr expr := gathered
    cases done
    split
    · rename_i redundant
      apply terms.result_redundant _ .trueExpr (evaluate_trueExpr value)
      exact redundant ▸ finds expr isTrue checked
    · exact terms.result_or known

include sound in
theorem andCreate_step {isRedundant : List (Expression α) → Option Bool}
    {distribute : List (Expression α) → Option (List (Expression α))}
    (finds : ∀ expr r, isRedundant expr = some r → FindsOpposites admissible value expr r)
    (keeps : ∀ expr r, distribute expr = some r → KeepsConjunction admissible value expr r)
    (done : (match gatherAnd A arr with
      | .done result => some result
      | .terms expr => do
          let expr ← distribute expr
          match single? expr with
          | some e => some (some e)
          | none => do
              let isFalse ← isRedundant expr
              some (if isFalse then some falseExpr else some (and expr negated))) =
        some result) :
    Builds admissible value false arr negated result := by
  intro valid known
  have gathered := gather_spec sound conjunction valid
  rw [← gatherAnd] at gathered
  cases found : gatherAnd A arr with
  | done result' =>
    rw [found] at done gathered
    cases done
    exact gathered
  | terms expr =>
    rw [found] at done gathered
    rw [Option.bind_eq_bind, Option.bind_eq_some_iff] at done
    obtain ⟨distributed, isDistributed, done⟩ := done
    have before : TermsOf admissible value false arr expr := gathered
    obtain ⟨nonempty, validDistributed, same⟩ :=
      keeps expr distributed isDistributed before.nonempty before.valid
    have terms : TermsOf admissible value false arr distributed :=
      ⟨nonempty, validDistributed, same.trans before.occurs⟩
    split at done
    · rename_i e isSingle
      cases done
      have onlyElement : distributed = [e] := by
        unfold single? at isSingle
        split at isSingle <;> simp_all
      rw [onlyElement] at terms
      exact ⟨terms.valid e mem_cons_self, by rw [← terms.occurs]; simp⟩
    · rw [Option.bind_eq_bind, Option.bind_eq_some_iff] at done
      obtain ⟨isFalse, checked, done⟩ := done
      cases done
      split
      · rename_i redundant
        apply terms.result_redundant _ .falseExpr (evaluate_falseExpr value)
        exact redundant ▸ finds distributed isFalse checked
      · exact terms.result_and known

include sound in
theorem hasNegation_step {negate : Expression α → Option (Expression α)}
    {hasNegation : List (Expression α) → Option Bool}
    (negates : ∀ e r, negate e = some r → Negates admissible value e r)
    (finds : ∀ expr r, hasNegation expr = some r → FindsOpposites admissible value expr r)
    {found : Bool} (done : (match expr with
      | first :: second :: expr => do
          let negated ← negate first
          if (second :: expr).any (equals A negated) then some true
          else hasNegation (second :: expr)
      | _ => some false) = some found) : FindsOpposites admissible value expr found := by
  intro valid isFound
  subst isFound
  split at done
  · rename_i first second rest
    rw [Option.bind_eq_bind, Option.bind_eq_some_iff] at done
    obtain ⟨negated, isNegated, done⟩ := done
    obtain ⟨validNegated, opposite⟩ := negates first negated isNegated (valid first (by simp))
    split at done
    · rename_i hasEqual
      obtain ⟨other, member, equal⟩ := any_eq_true.mp hasEqual
      have same := evaluate_eq_of_equals sound validNegated
        (valid other (mem_cons_of_mem _ member)) equal
      intro z
      by_cases isFirst : evaluate value first = z
      · exact ⟨first, mem_cons_self, isFirst⟩
      · refine ⟨other, mem_cons_of_mem _ member, ?_⟩
        rw [← same, opposite]
        cases z <;> simpa using isFirst
    · have later := finds _ _ done (fun e member => valid e (mem_cons_of_mem _ member)) rfl
      intro z
      obtain ⟨e, member, isZ⟩ := later z
      exact ⟨e, mem_cons_of_mem _ member, isZ⟩
  · cases done

/-- The conjunction of two expressions. -/
theorem builds_pair {left right : Expression α}
    (builds : Builds admissible value false [some left, some right] none result)
    (validLeft : Valid admissible value left) (validRight : Valid admissible value right) :
    ∃ e, result = some e ∧ Valid admissible value e ∧
      (evaluate value e = true ↔ evaluate value left = true ∧ evaluate value right = true) := by
  have isResult := builds (by
    intro e member
    simp only [mem_cons, Option.some.injEq, not_mem_nil, or_false] at member
    obtain rfl | rfl := member
    · exact validLeft
    · exact validRight) (by simp)
  cases result with
  | none => exact absurd mem_cons_self (isResult left)
  | some e =>
    refine ⟨e, rfl, isResult.1, ?_⟩
    have isFalse : evaluate value e = false ↔
        evaluate value left = false ∨ evaluate value right = false := by
      rw [isResult.2]
      simp [OccursIn]
    revert isFalse
    cases evaluate value e <;> cases evaluate value left <;> cases evaluate value right <;> simp

/-- A conjunction in which two elements are replaced by their conjunction. -/
theorem keeps_pair (isBoth : evaluate value both = true ↔
      evaluate value first = true ∧ evaluate value second = true)
    (isExpr : ∀ e, e ∈ expr ↔ e = first ∨ e = second ∨ e ∈ others) :
    (∃ e ∈ both :: others, evaluate value e = false) ↔ ∃ e ∈ expr, evaluate value e = false := by
  simp only [isExpr, mem_cons, exists_eq_or_imp]
  rw [← or_assoc]
  apply or_congr_left
  revert isBoth
  cases evaluate value both <;> cases evaluate value first <;> cases evaluate value second <;> simp

theorem evaluate_terminals (e : Expression α) :
    evaluate value e = true ↔ ∃ x ∈ getTerminals e, evaluate value x = true := by
  cases e <;> simp [getTerminals, disjuncts]

theorem valid_terminals (valid : Valid admissible value e) :
    ∀ x ∈ getTerminals e, Valid admissible value x :=
  disjunction.validNested e valid

section Builders

variable {andCreate orCreate :
    List (Option (Expression α)) → Option (Expression α) → Bool → Option (Option (Expression α))}
  (buildsAnd : ∀ arr negated check r, andCreate arr negated check = some r →
    Builds admissible value false arr negated r)
  (buildsOr : ∀ arr negated check r, orCreate arr negated check = some r →
    Builds admissible value true arr negated r)

include buildsAnd buildsOr in
theorem distributeNegated_step
    {distributeNegated : List (Expression α) → Option (List (Expression α))}
    (keeps : ∀ expr r, distributeNegated expr = some r →
      KeepsConjunction admissible value expr r ∧ r.length ≤ 1)
    {expr result : List (Expression α)}
    (done : (match expr with
      | left :: right :: rest => do
          let pairs := (getTerminals left).flatMap fun left =>
            (getTerminals right).map fun right => [some left, some right]
          let all ← pairs.mapM fun pair => andCreate pair none false
          let first ← orCreate all none false
          match first with
          | some first => distributeNegated (first :: rest)
          | none => none
      | _ => some expr) = some result) :
    KeepsConjunction admissible value expr result ∧ result.length ≤ 1 := by
  split at done
  · rename_i left right rest
    simp only [Option.bind_eq_bind, Option.bind_eq_some_iff] at done
    obtain ⟨all, mapped, first, isFirst, done⟩ := done
    cases first with
    | none => cases done
    | some first =>
      obtain ⟨keepsRest, short⟩ := keeps _ _ done
      refine ⟨?_, short⟩
      intro _ valid
      have validLeft := valid left (by simp)
      have validRight := valid right (by simp)
      obtain ⟨forth, back⟩ := mem_of_mapM mapped
      -- every pair of terminals has its conjunction among the results
      have pair : ∀ l ∈ getTerminals left, ∀ r ∈ getTerminals right, ∀ x,
          andCreate [some l, some r] none false = some x → ∃ e, x = some e ∧
            Valid admissible value e ∧ (evaluate value e = true ↔
              evaluate value l = true ∧ evaluate value r = true) := by
        intro l inLeft r inRight x isX
        exact builds_pair (buildsAnd _ _ _ _ isX) (valid_terminals validLeft l inLeft)
          (valid_terminals validRight r inRight)
      have ofAll : ∀ x ∈ all, ∃ l ∈ getTerminals left, ∃ r ∈ getTerminals right, ∃ e,
          x = some e ∧ Valid admissible value e ∧ (evaluate value e = true ↔
            evaluate value l = true ∧ evaluate value r = true) := by
        intro x member
        obtain ⟨p, isPair, isX⟩ := back x member
        simp only [mem_flatMap, mem_map] at isPair
        obtain ⟨l, inLeft, r, inRight, rfl⟩ := isPair
        exact ⟨l, inLeft, r, inRight, pair l inLeft r inRight x isX⟩
      have isResult := buildsOr _ _ _ _ isFirst (by
        intro e member
        obtain ⟨l, inLeft, r, inRight, other, isE, validE, -⟩ := ofAll _ member
        cases isE
        exact validE) (by simp)
      have isBoth : evaluate value first = true ↔
          evaluate value left = true ∧ evaluate value right = true := by
        rw [isResult.2, evaluate_terminals left, evaluate_terminals right]
        constructor
        · rintro ⟨e, member, isTrue⟩
          obtain ⟨l, inLeft, r, inRight, other, isE, -, both⟩ := ofAll _ member
          cases isE
          exact ⟨⟨l, inLeft, (both.mp isTrue).1⟩, r, inRight, (both.mp isTrue).2⟩
        · rintro ⟨⟨l, inLeft, leftTrue⟩, r, inRight, rightTrue⟩
          obtain ⟨x, inAll, isX⟩ := forth [some l, some r] (by
            simp only [mem_flatMap, mem_map]
            exact ⟨l, inLeft, r, inRight, rfl⟩)
          obtain ⟨e, rfl, -, both⟩ := pair l inLeft r inRight x isX
          exact ⟨e, inAll, both.mpr ⟨leftTrue, rightTrue⟩⟩
      obtain ⟨nonempty, validResult, same⟩ := keepsRest (by simp) (by
        intro e member
        obtain rfl | member := mem_cons.mp member
        · exact isResult.1
        · exact valid e (by simp [member]))
      refine ⟨nonempty, validResult, same.trans ?_⟩
      exact keeps_pair isBoth (by simp)
  · rename_i notTwo
    cases done
    refine ⟨fun nonempty valid => ⟨nonempty, valid, Iff.rfl⟩, ?_⟩
    obtain _ | ⟨left, _ | ⟨right, rest⟩⟩ := expr
    · simp
    · simp
    · exact absurd rfl (notTwo left right rest)

include buildsAnd buildsOr in
theorem distribute_step {distribute : List (Expression α) → Option (List (Expression α))}
    (keeps : ∀ expr r, distribute expr = some r → KeepsConjunction admissible value expr r)
    {expr result : List (Expression α)}
    (done : (match expr.reverse with
      | or lastElement _ :: secondToLastElement :: rest => do
          let elements ← lastElement.mapM fun el =>
            andCreate [some el, some secondToLastElement] none check
          let resultElement ← orCreate elements none rest.isEmpty
          match resultElement with
          | some resultElement => distribute (A.sort (cmp A) (rest.reverse ++ [resultElement]))
          | none => distribute rest.reverse
      | _ => some expr) = some result) :
    KeepsConjunction admissible value expr result := by
  split at done
  · rename_i lastElement negated second rest isReverse
    simp only [Option.bind_eq_bind, Option.bind_eq_some_iff] at done
    obtain ⟨elements, mapped, resultElement, isResult, done⟩ := done
    intro _ valid
    have isExpr : ∀ e, e ∈ expr ↔ e = or lastElement negated ∨ e = second ∨ e ∈ rest := by
      intro e
      rw [← mem_reverse, isReverse, mem_cons, mem_cons]
    have validLast := valid _ ((isExpr _).mpr (.inl rfl))
    have validSecond := valid _ ((isExpr _).mpr (.inr (.inl rfl)))
    obtain ⟨forth, back⟩ := mem_of_mapM mapped
    have pair : ∀ el ∈ lastElement, ∀ x,
        andCreate [some el, some second] none check = some x → ∃ e, x = some e ∧
          Valid admissible value e ∧ (evaluate value e = true ↔
            evaluate value el = true ∧ evaluate value second = true) := by
      intro el member x isX
      exact builds_pair (buildsAnd _ _ _ _ isX) (valid_terminals validLast el member) validSecond
    have built := buildsOr _ _ _ _ isResult (by
      intro e member
      obtain ⟨el, inLast, isX⟩ := back _ member
      obtain ⟨other, isE, validE, -⟩ := pair el inLast _ isX
      cases isE
      exact validE) (by simp)
    cases resultElement with
    | none =>
      -- the disjunction has an element, so there is a result
      obtain ⟨el, inLast⟩ := exists_mem_of_ne_nil _ (disjunction.nonempty _ validLast)
      obtain ⟨x, inElements, isX⟩ := forth el inLast
      obtain ⟨e, rfl, -⟩ := pair el inLast x isX
      exact absurd inElements (built e)
    | some both =>
      have isBoth : evaluate value both = true ↔
          evaluate value (or lastElement negated) = true ∧ evaluate value second = true := by
        rw [built.2, evaluate_terminals (or lastElement negated)]
        constructor
        · rintro ⟨e, member, isTrue⟩
          obtain ⟨el, inLast, isX⟩ := back _ member
          obtain ⟨other, isE, -, both⟩ := pair el inLast _ isX
          cases isE
          exact ⟨⟨el, inLast, (both.mp isTrue).1⟩, (both.mp isTrue).2⟩
        · rintro ⟨⟨el, inLast, isTrue⟩, secondTrue⟩
          obtain ⟨x, inElements, isX⟩ := forth el inLast
          obtain ⟨e, rfl, -, both⟩ := pair el inLast x isX
          exact ⟨e, inElements, both.mpr ⟨isTrue, secondTrue⟩⟩
      have sorted := A.sort_perm (cmp A) (rest.reverse ++ [both])
      have isSorted : ∀ e, e ∈ A.sort (cmp A) (rest.reverse ++ [both]) ↔ e ∈ both :: rest := by
        intro e
        rw [sorted.mem_iff]
        simp [or_comm]
      obtain ⟨nonempty, validResult, same⟩ := keeps _ _ done
        (ne_nil_of_mem ((isSorted both).mpr mem_cons_self)) (by
          intro e member
          obtain rfl | member := mem_cons.mp ((isSorted e).mp member)
          · exact built.1
          · exact valid e ((isExpr e).mpr (.inr (.inr member))))
      refine ⟨nonempty, validResult, same.trans ?_⟩
      simp only [isSorted]
      exact keeps_pair isBoth isExpr
  · cases done
    exact fun nonempty valid => ⟨nonempty, valid, Iff.rfl⟩

/-- The negations of the elements have the opposite values. -/
theorem negations_of_mapM {negate : Expression α → Option (Expression α)}
    (negates : ∀ e r, negate e = some r → Negates admissible value e r)
    {expr negations : List (Expression α)} (mapped : expr.mapM negate = some negations)
    (elements : ∀ e ∈ expr, Valid admissible value e) :
    (∀ n ∈ negations, Valid admissible value n) ∧
      ∀ z, (∃ n ∈ negations, evaluate value n = z) ↔ ∃ e ∈ expr, evaluate value e = !z := by
  obtain ⟨forth, back⟩ := mem_of_mapM mapped
  constructor
  · intro n member
    obtain ⟨e, inExpr, isNegated⟩ := back n member
    exact (negates e n isNegated (elements e inExpr)).1
  · intro z
    constructor
    · rintro ⟨n, member, isZ⟩
      obtain ⟨e, inExpr, isNegated⟩ := back n member
      have opposite := (negates e n isNegated (elements e inExpr)).2
      exact ⟨e, inExpr, by rw [← isZ, opposite, Bool.not_not]⟩
    · rintro ⟨e, inExpr, isNotZ⟩
      obtain ⟨n, member, isNegated⟩ := forth e inExpr
      have opposite := (negates e n isNegated (elements e inExpr)).2
      exact ⟨n, member, by rw [opposite, isNotZ, Bool.not_not]⟩

include buildsOr in
/-- A disjunction that is built as the negation of an expression. -/
theorem negation_of_orCreate (valid : Valid admissible value e)
    {terms : List (Expression α)} (validTerms : ∀ x ∈ terms, Valid admissible value x)
    (occurs : (∃ x ∈ terms, evaluate value x = true) ↔ evaluate value e = false)
    (built : orCreate (terms.map some) (some e) true = some (some result)) :
    Valid admissible value result ∧ evaluate value result = !evaluate value e := by
  have isOccurs : OccursIn value true (terms.map some) ↔ evaluate value e = false := by
    rw [← occurs, OccursIn]
    simp
  have isResult := buildsOr _ _ _ _ built (by simpa using validTerms) (by
    rintro n ⟨⟩
    exact ⟨valid, isOccurs.symm⟩)
  refine ⟨isResult.1, ?_⟩
  have isTrue := isResult.2.trans isOccurs
  revert isTrue
  cases evaluate value result <;> cases evaluate value e <;> simp

include buildsOr in
theorem negate_step (sound : SoundAtoms A admissible value)
    {negate : Expression α → Option (Expression α)}
    {distributeNegated : List (Expression α) → Option (List (Expression α))}
    (negates : ∀ e r, negate e = some r → Negates admissible value e r)
    (keeps : ∀ expr r, distributeNegated expr = some r →
      KeepsConjunction admissible value expr r ∧ r.length ≤ 1)
    {e result : Expression α}
    (done : (match e with
      | falseExpr => some trueExpr
      | trueExpr => some falseExpr
      | atom a => some (atom (A.negate a))
      | and _ (some negated) => some negated
      | or _ (some negated) => some negated
      | and expr none => do
          let result ← expr.mapM fun e => negate e
          let negated ← orCreate (result.map some) (some (and expr none)) true
          negated
      | or expr none => do
          let result ← expr.mapM fun e => negate e
          let result ← distributeNegated result
          let negated ← orCreate (result.map some) (some (or expr none)) true
          negated) = some result) :
    Negates admissible value e result := by
  intro valid
  cases valid with
  | falseExpr =>
    cases done
    exact ⟨.trueExpr, by simp⟩
  | trueExpr =>
    cases done
    exact ⟨.falseExpr, by simp⟩
  | atom isAdmissible =>
    cases done
    exact ⟨.atom (sound.negate_admissible _ isAdmissible),
      by simpa using sound.value_negate _ isAdmissible⟩
  | @and expr negated nonempty elements known isNegation =>
    cases negated with
    | some negated =>
      cases done
      refine ⟨known _ rfl, ?_⟩
      rw [evaluate_and]
      exact isNegation _ rfl
    | none =>
      simp only [Option.bind_eq_bind, Option.bind_eq_some_iff] at done
      obtain ⟨negations, mapped, built, isBuilt, done⟩ := done
      subst done
      obtain ⟨validNegations, opposite⟩ := negations_of_mapM negates mapped elements
      apply negation_of_orCreate buildsOr (.and nonempty elements known isNegation)
        validNegations _ isBuilt
      rw [opposite true, evaluate_and, all_eq_false]
      simp
  | @or expr negated nonempty elements known isNegation =>
    cases negated with
    | some negated =>
      cases done
      refine ⟨known _ rfl, ?_⟩
      rw [evaluate_or]
      exact isNegation _ rfl
    | none =>
      simp only [Option.bind_eq_bind, Option.bind_eq_some_iff] at done
      obtain ⟨negations, mapped, terms, isTerms, built, isBuilt, done⟩ := done
      subst done
      obtain ⟨validNegations, opposite⟩ := negations_of_mapM negates mapped elements
      obtain ⟨keepsTerms, short⟩ := keeps _ _ isTerms
      have someNegation : negations ≠ [] := by
        obtain ⟨e, member⟩ := exists_mem_of_ne_nil _ nonempty
        obtain ⟨n, inNegations, -⟩ := (mem_of_mapM mapped).1 e member
        exact ne_nil_of_mem inNegations
      obtain ⟨someTerm, validTerms, same⟩ := keepsTerms someNegation validNegations
      apply negation_of_orCreate buildsOr (.or nonempty elements known isNegation)
        validTerms _ isBuilt
      -- the loop leaves one element, the conjunction of the negations
      obtain ⟨x, rfl⟩ : ∃ x, terms = [x] := by
        apply length_eq_one_iff.mp
        have positive := length_pos_iff.mpr someTerm
        omega
      rw [opposite false] at same
      rw [evaluate_or]
      have isAny : expr.any (evaluate value) = true ↔ ∃ e ∈ expr, evaluate value e = !false := by
        rw [any_eq_true]
        rfl
      rw [← isAny] at same
      revert same
      cases evaluate value x <;> cases expr.any (evaluate value) <;> simp

end Builders

end Steps

/-! ## Results -/

/-- Whatever is returned has the meaning that is promised. -/
theorem returns_sound (sound : SoundAtoms A admissible value) :
    (∀ e r, negate A e = some r → Negates admissible value e r) ∧
    (∀ expr r, distributeNegated A expr = some r →
      KeepsConjunction admissible value expr r ∧ r.length ≤ 1) ∧
    (∀ arr negated check r, orCreate A arr negated check = some r →
      Builds admissible value true arr negated r) ∧
    (∀ check expr r, isRedundant A check expr = some r → FindsOpposites admissible value expr r) ∧
    (∀ expr r, hasNegation A expr = some r → FindsOpposites admissible value expr r) ∧
    (∀ arr negated check r, andCreate A arr negated check = some r →
      Builds admissible value false arr negated r) ∧
    ∀ check expr r, distribute A check expr = some r →
      KeepsConjunction admissible value expr r := by
  apply negate.mutual_partial_correctness A (fun e r => Negates admissible value e r)
    (fun expr r => KeepsConjunction admissible value expr r ∧ r.length ≤ 1)
    (fun arr negated _ r => Builds admissible value true arr negated r)
    (fun _ expr r => FindsOpposites admissible value expr r)
    (fun expr r => FindsOpposites admissible value expr r)
    (fun arr negated _ r => Builds admissible value false arr negated r)
    (fun _ expr r => KeepsConjunction admissible value expr r)
  · intro negate distributeNegated orCreate negates keeps buildsOr e r done
    exact negate_step buildsOr sound negates keeps done
  · intro distributeNegated orCreate andCreate keeps buildsOr buildsAnd expr r done
    exact distributeNegated_step buildsAnd buildsOr keeps done
  · intro isRedundant finds arr negated check r done
    exact orCreate_step sound (finds check) done
  · intro hasNegation finds check expr r done
    split at done
    · exact finds expr r done
    · cases done
      intro _ isFound
      cases isFound
  · intro negate hasNegation negates finds expr r done
    exact hasNegation_step sound negates finds done
  · intro isRedundant distribute finds keeps arr negated check r done
    exact andCreate_step sound (finds check) (keeps check) done
  · intro orCreate andCreate distribute buildsOr buildsAnd keeps check expr r done
    exact distribute_step buildsAnd buildsOr (keeps check) done

end Valid

end Expression
end CodeEditor.ContextKey
