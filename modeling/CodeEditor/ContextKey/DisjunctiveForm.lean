import CodeEditor.ContextKey.Normalization

/-!
# Conjunctions without disjunctions

`ContextKeyAndExpr._normalizeArr` distributes a conjunction over its last element as long as that
is a disjunction. Where no other element stops the loop behind a disjunction, no conjunction that
is built contains a disjunction, and neither does one in a negation.
-/

namespace CodeEditor.ContextKey
namespace Expression

open List

variable {α : Type}

/-- No conjunction in an expression contains a disjunction, nor one in its known negations, and
all atoms satisfy `p`. Without `disjunctions`, the expression is no disjunction either. -/
inductive DNF (p : α → Prop) : (disjunctions : Bool) → Expression α → Prop
  | falseExpr {d : Bool} : DNF p d falseExpr
  | trueExpr {d : Bool} : DNF p d trueExpr
  | atom {d : Bool} {a : α} (holds : p a) : DNF p d (.atom a)
  | and {d : Bool} {expr : List (Expression α)} {negated : Option (Expression α)}
      (elements : ∀ e ∈ expr, DNF p false e)
      (known : ∀ n, negated = some n → DNF p true n) : DNF p d (.and expr negated)
  | or {expr : List (Expression α)} {negated : Option (Expression α)}
      (elements : ∀ e ∈ expr, DNF p false e)
      (known : ∀ n, negated = some n → DNF p true n) : DNF p true (.or expr negated)

section Forms

variable {p : α → Prop} {d : Bool} {e : Expression α}

theorem DNF.weaken (normal : DNF p false e) : DNF p d e := by
  cases normal with
  | falseExpr => exact .falseExpr
  | trueExpr => exact .trueExpr
  | atom holds => exact .atom holds
  | and elements known => exact .and elements known

theorem DNF.disjuncts_eq_none (normal : DNF p false e) : e.disjuncts = none := by
  cases normal <;> rfl

theorem DNF.of_disjuncts_eq_none (normal : DNF p true e) (notOr : e.disjuncts = none) :
    DNF p false e := by
  cases normal with
  | falseExpr => exact .falseExpr
  | trueExpr => exact .trueExpr
  | atom holds => exact .atom holds
  | and elements known => exact .and elements known
  | or => cases notOr

theorem DNF.terminals (normal : DNF p true e) : ∀ x ∈ getTerminals e, DNF p false x := by
  cases notOr : e.disjuncts with
  | none => simpa [getTerminals, notOr] using normal.of_disjuncts_eq_none notOr
  | some expr =>
    cases normal with
    | or elements known => exact elements
    | _ => cases notOr

theorem DNF.conjuncts (normal : DNF p d e) : ∀ x ∈ e.conjuncts.getD [e], DNF p d x := by
  cases notAnd : e.conjuncts with
  | none => simpa using normal
  | some expr =>
    cases normal with
    | and elements known =>
      cases notAnd
      exact fun x member => (elements x member).weaken
    | _ => cases notAnd

end Forms

/-! ## Building -/

variable {A : Atoms α} {p : α → Prop} {arr : List (Option (Expression α))}
  {negated : Option (Expression α)} {check d : Bool} {e result : Expression α}
  {expr : List (Expression α)}

theorem gatherAnd_dnf (elements : ∀ e, some e ∈ arr → DNF p d e) :
    ∀ e ∈ (gatherAnd A arr).elements, DNF p d e := by
  intro e member
  obtain rfl | rfl | ⟨x, inArray, isPart⟩ := mem_gather member
  · exact .trueExpr
  · exact .falseExpr
  · exact (elements x inArray).conjuncts e isPart

theorem gatherOr_dnf (elements : ∀ e, some e ∈ arr → DNF p true e) :
    ∀ e ∈ (gatherOr A arr).elements, DNF p false e := by
  intro e member
  obtain rfl | rfl | ⟨x, inArray, isPart⟩ := mem_gather member
  · exact .falseExpr
  · exact .trueExpr
  · exact (elements x inArray).terminals e isPart

theorem dnf_orCreate (elements : ∀ e, some e ∈ arr → DNF p true e)
    (known : ∀ n, negated = some n → DNF p true n)
    (created : orCreate A arr negated check = some (some result)) : DNF p true result := by
  have gathered := gatherOr_dnf (A := A) elements
  rw [Atoms.orCreate.eq_def] at created
  cases isGathered : gatherOr A arr with
  | done gatheredResult =>
    rw [isGathered] at created gathered
    cases created
    exact (gathered result (by simp [Gathered.elements])).weaken
  | terms expr =>
    rw [isGathered] at created gathered
    obtain ⟨isTrue, -, created⟩ := Option.bind_eq_some_iff.mp created
    cases isTrue with
    | true =>
      cases created
      exact .trueExpr
    | false =>
      cases created
      exact .or gathered known

/-- The loop is never stopped behind a disjunction, neither here nor in the calls that it makes. -/
inductive Distributes (A : Atoms α) (check : Bool) : List (Expression α) → Prop
  | stop {expr : List (Expression α)}
      (settled : expr.length ≤ 1 ∨ ∀ e ∈ expr, e.disjuncts = none) : Distributes A check expr
  | step {expr lastElement rest : List (Expression α)} {negated : Option (Expression α)}
      {second : Expression α} (isReverse : expr.reverse = .or lastElement negated :: second :: rest)
      (calls : ∀ el ∈ lastElement, ∀ terms,
        gatherAnd A [some el, some second] = .terms terms → Distributes A check terms)
      (later : ∀ elements resultElement,
        (lastElement.mapM fun el => andCreate A [some el, some second] none check) =
          some elements →
        orCreate A elements none rest.isEmpty = some resultElement →
        Distributes A check (resultElement.elim rest.reverse fun resultElement =>
          A.sort (cmp A) (rest.reverse ++ [resultElement]))) : Distributes A check expr

/-- A loop leaves one element, or no disjunction. -/
def Settles (A : Atoms α) (p : α → Prop) (check : Bool) (expr : List (Expression α)) : Prop :=
  ∀ result, (∀ e ∈ expr, DNF p true e) → distribute A check expr = some result →
    (∀ e ∈ result, DNF p true e) ∧ (result.length ≤ 1 ∨ ∀ e ∈ result, DNF p false e)

theorem dnf_andCreate_of_settles
    (settles : ∀ terms, gatherAnd A arr = .terms terms → Settles A p check terms)
    (elements : ∀ e, some e ∈ arr → DNF p true e)
    (known : ∀ n, negated = some n → DNF p true n)
    (created : andCreate A arr negated check = some (some result)) : DNF p true result := by
  have gathered := gatherAnd_dnf (A := A) elements
  rw [Atoms.andCreate.eq_def] at created
  cases isGathered : gatherAnd A arr with
  | done gatheredResult =>
    rw [isGathered] at created gathered
    cases created
    exact gathered result (by simp [Gathered.elements])
  | terms expr =>
    rw [isGathered] at created gathered
    obtain ⟨distributed, isDistributed, created⟩ := Option.bind_eq_some_iff.mp created
    obtain ⟨normal, short⟩ := settles expr isGathered distributed gathered isDistributed
    split at created
    · rename_i e isSingle
      cases created
      apply normal
      unfold single? at isSingle
      split at isSingle <;> simp_all
    · rename_i notSingle
      obtain ⟨isFalse, -, created⟩ := Option.bind_eq_some_iff.mp created
      cases isFalse with
      | true =>
        cases created
        exact .falseExpr
      | false =>
        cases created
        refine .and ?_ known
        rcases short with short | conjunctive
        · cases distributed with
          | nil => simp
          | cons e rest =>
            obtain rfl : rest = [] := length_eq_zero_iff.mp (by simpa using short)
            cases notSingle
        · exact conjunctive

/-- The results of one round of the loop are normal. -/
theorem dnf_round {lastElement : List (Expression α)} {second : Expression α}
    {elements : List (Option (Expression α))}
    (settles : ∀ el ∈ lastElement, ∀ terms,
      gatherAnd A [some el, some second] = .terms terms → Settles A p check terms)
    (normalLast : ∀ el ∈ lastElement, DNF p false el) (normalSecond : DNF p true second)
    (mapped : (lastElement.mapM fun el => andCreate A [some el, some second] none check) =
      some elements)
    {finished : Bool} (isResult : orCreate A elements none finished = some (some result)) :
    DNF p true result := by
  refine dnf_orCreate ?_ (by simp) isResult
  intro e member
  obtain ⟨el, inLast, created⟩ := (mem_of_mapM mapped).2 _ member
  refine dnf_andCreate_of_settles (settles el inLast) ?_ (by simp) created
  simpa using ⟨(normalLast el inLast).weaken, normalSecond⟩

theorem dnf_distribute (distributes : Distributes A check expr) : Settles A p check expr := by
  induction distributes with
  | @stop expr settled =>
    intro result normal isResult
    have unchanged : result = expr := by
      rw [Atoms.distribute.eq_def] at isResult
      split at isResult
      · rename_i lastElement negated second rest isReverse
        have whole : expr = (Expression.or lastElement negated :: second :: rest).reverse := by
          rw [← isReverse, reverse_reverse]
        rcases settled with short | noOr
        · rw [whole] at short
          simp at short
        · have isNone := noOr (.or lastElement negated) (by simp [whole])
          cases isNone
      · exact (Option.some.inj isResult).symm
    subst unchanged
    exact ⟨normal, settled.imp_right fun noOr e member =>
      (normal e member).of_disjuncts_eq_none (noOr e member)⟩
  | @step expr lastElement rest negated second isReverse calls later callsHypothesis
      laterHypothesis =>
    intro result normal isDistributed
    have isExpr : ∀ e, e ∈ expr ↔ e = or lastElement negated ∨ e = second ∨ e ∈ rest := by
      intro e
      rw [← mem_reverse, isReverse, mem_cons, mem_cons]
    rw [Atoms.distribute.eq_def, isReverse] at isDistributed
    simp only [Option.bind_eq_bind, Option.bind_eq_some_iff] at isDistributed
    obtain ⟨elements, mapped, resultElement, isResult, isDistributed⟩ := isDistributed
    have isLater := laterHypothesis elements resultElement mapped isResult result
    cases resultElement with
    | none =>
      refine isLater ?_ isDistributed
      exact fun e member => normal e ((isExpr e).mpr (.inr (.inr (mem_reverse.mp member))))
    | some resultElement =>
      refine isLater ?_ isDistributed
      intro e member
      simp only [Option.elim, (A.sort_perm _ _).mem_iff, mem_append, mem_reverse,
        mem_singleton] at member
      rcases member with inRest | rfl
      · exact normal e ((isExpr e).mpr (.inr (.inr inRest)))
      · exact dnf_round callsHypothesis (normal _ ((isExpr _).mpr (.inl rfl))).terminals
          (normal _ ((isExpr _).mpr (.inr (.inl rfl)))) mapped isResult

/-- The branch that stops behind a disjunction is not taken in a call. -/
def Allowed (A : Atoms α) (check : Bool) (arr : List (Option (Expression α))) : Prop :=
  ∀ terms, gatherAnd A arr = .terms terms → Distributes A check terms

theorem dnf_andCreate (allowed : Allowed A check arr)
    (elements : ∀ e, some e ∈ arr → DNF p true e)
    (known : ∀ n, negated = some n → DNF p true n)
    (created : andCreate A arr negated check = some (some result)) : DNF p true result :=
  dnf_andCreate_of_settles (fun terms isTerms => dnf_distribute (allowed terms isTerms))
    elements known created

/-- Without disjunctions, there is nothing to distribute. -/
theorem allowed_of_dnf (elements : ∀ e, some e ∈ arr → DNF p false e) :
    Allowed A check arr := by
  intro terms isTerms
  have gathered := gatherAnd_dnf (A := A) elements
  rw [isTerms] at gathered
  exact .stop (.inr fun e member => (gathered e member).disjuncts_eq_none)

/-! ## Sorting -/

/-- What is sorted is in order. -/
def SortsBy (A : Atoms α) : Prop :=
  ∀ expr, (A.sort (cmp A) expr).Pairwise fun first second => cmp A first second ≤ 0

/-- Where no atom sorts behind a disjunction and the last element is none, there is none. -/
theorem noDisjunction_of_sorted {last : Expression α} (early : ∀ a, p a → A.type a < 9)
    (normal : DNF p true last) (notOr : last.disjuncts = none)
    (sorted : ∀ e ∈ expr, cmp A e last ≤ 0) : ∀ e ∈ expr, e.disjuncts = none := by
  intro e member
  cases e with
  | or inner negated =>
    have order := sorted _ member
    cases normal with
    | atom holds =>
      have isEarly := early _ holds
      simp only [cmp, type] at order
      omega
    | or => cases notOr
    | _ => simp [cmp, type] at order
  | _ => rfl

def isDisjunction (e : Expression α) : Bool := e.disjuncts.isSome

theorem countP_eq_zero_of_dnf (normal : ∀ e ∈ expr, DNF p false e) :
    expr.countP isDisjunction = 0 := by
  rw [countP_eq_zero]
  intro e member
  simp [isDisjunction, (normal e member).disjuncts_eq_none]

theorem countP_conjuncts (normal : DNF p true e) :
    (e.conjuncts.getD [e]).countP isDisjunction ≤ 1 := by
  cases normal with
  | and elements known => simp [conjuncts, countP_eq_zero_of_dnf elements]
  | _ => simp [conjuncts, countP_singleton, isDisjunction, disjuncts]

/-- Of a conjunction of two elements, the first of which has none, one disjunction is gathered. -/
theorem countP_gatherAnd {el second : Expression α} {terms : List (Expression α)}
    (first : DNF p false el) (normal : DNF p true second)
    (isTerms : gatherAnd A [some el, some second] = .terms terms) :
    terms.countP isDisjunction ≤ 1 := by
  obtain ⟨collected, hasTrue, isCollected, -, rfl⟩ := exists_collected isTerms
  have parts : collected.Sublist (el.conjuncts.getD [el] ++ second.conjuncts.getD [second]) := by
    simp only [collect, nil_append] at isCollected
    split_ifs at isCollected <;> cases isCollected <;> simp
  have count := parts.countP_le (p := isDisjunction)
  have none := countP_eq_zero_of_dnf first.conjuncts
  have one := countP_conjuncts normal
  have kept :=
    (eliminateDuplicates_sublist A (A.sort (cmp A) collected)).countP_le (p := isDisjunction)
  rw [(A.sort_perm (cmp A) collected).countP_eq] at kept
  rw [countP_append] at count
  omega

theorem sorted_of_gather (sorts : SortsBy A) (isTerms : gatherAnd A arr = .terms expr) :
    expr.Pairwise fun first second => cmp A first second ≤ 0 := by
  obtain ⟨collected, hasTrue, -, -, rfl⟩ := exists_collected isTerms
  exact (sorts collected).sublist (eliminateDuplicates_sublist A _)

/-- The only disjunction that a call of the loop can have is the second to last element. -/
theorem distributes_call (sorts : SortsBy A) {el second : Expression α}
    {terms : List (Expression α)} (first : DNF p false el) (normal : DNF p true second)
    (isTerms : gatherAnd A [some el, some second] = .terms terms)
    (smaller : isDisjunction second = true → (∀ e ∈ terms, DNF p true e) →
      (terms.Pairwise fun first second => cmp A first second ≤ 0) →
      terms.countP isDisjunction ≤ 1 → Distributes A check terms) : Distributes A check terms := by
  cases isSecond : second.disjuncts with
  | none =>
    refine allowed_of_dnf (p := p) ?_ terms isTerms
    simpa using ⟨first, normal.of_disjuncts_eq_none isSecond⟩
  | some _ =>
    have gathered : ∀ e ∈ (gatherAnd A [some el, some second]).elements, DNF p true e :=
      gatherAnd_dnf (by simpa using ⟨first.weaken, normal⟩)
    rw [isTerms] at gathered
    exact smaller (by simp [isDisjunction, isSecond]) gathered (sorted_of_gather sorts isTerms)
      (countP_gatherAnd first normal isTerms)

/-- Where the disjunctions are at the end, the loop never stops behind one. -/
theorem distributes_of_sorts (sorts : SortsBy A) (early : ∀ a, p a → A.type a < 9)
    (expr : List (Expression α)) (normal : ∀ e ∈ expr, DNF p true e)
    (sorted : expr.Pairwise fun first second => cmp A first second ≤ 0) :
    Distributes A check expr := by
  have reversed := pairwise_reverse.mpr sorted
  have isExpr : ∀ e, e ∈ expr.reverse → DNF p true e := by simpa using normal
  match isReverse : expr.reverse with
  | [] =>
    exact .stop (.inl (by simp [reverse_eq_nil_iff.mp isReverse]))
  | [e] =>
    have single := congrArg length isReverse
    rw [length_reverse] at single
    exact .stop (.inl single.le)
  | last :: second :: rest =>
    rw [isReverse] at isExpr reversed
    cases isLast : last.disjuncts with
    | none =>
      have others : ∀ e ∈ second :: rest, e.disjuncts = none :=
        noDisjunction_of_sorted early (isExpr last mem_cons_self) isLast
          fun _ => rel_of_pairwise_cons reversed
      refine .stop (.inr ?_)
      intro e member
      rw [← mem_reverse, isReverse] at member
      obtain rfl | member := mem_cons.mp member
      · exact isLast
      · exact others e member
    | some lastElement =>
      obtain ⟨negated, rfl⟩ : ∃ negated, last = or lastElement negated := by
        cases last <;> cases isLast
        exact ⟨_, rfl⟩
      have normalLast := (isExpr _ mem_cons_self).terminals
      have normalSecond := isExpr second (by simp)
      have normalRest : ∀ e ∈ rest, DNF p true e := fun e member => isExpr e (by simp [member])
      have count : expr.countP isDisjunction = 1 + (second :: rest).countP isDisjunction := by
        rw [← (reverse_perm expr).countP_eq, isReverse, countP_cons_of_pos rfl, add_comm]
      have length : expr.length = rest.length + 2 := by
        rw [← length_reverse, isReverse, length_cons, length_cons]
      have calls : ∀ el ∈ lastElement, ∀ terms,
          gatherAnd A [some el, some second] = .terms terms → Distributes A check terms := by
        intro el inLast terms isTerms
        refine distributes_call sorts (normalLast el inLast) normalSecond isTerms ?_
        intro isSecond gathered inOrder one
        have fewer : terms.countP isDisjunction < expr.countP isDisjunction := by
          rw [count, countP_cons_of_pos isSecond]
          omega
        exact distributes_of_sorts sorts early terms gathered inOrder
      have again : ∀ next, (∀ e ∈ next, DNF p true e) →
          (next.Pairwise fun first second => cmp A first second ≤ 0) →
          next.countP isDisjunction ≤ expr.countP isDisjunction → next.length < expr.length →
          Distributes A check next := fun next normal sorted fewer shorter =>
        distributes_of_sorts sorts early next normal sorted
      refine .step isReverse calls ?_
      intro elements resultElement mapped isResult
      cases resultElement with
      | none =>
        have parts : rest.reverse.Sublist expr := by
          rw [← reverse_sublist, reverse_reverse, isReverse]
          exact (sublist_cons_self second rest).cons _
        apply again
        · simpa using normalRest
        · exact sorted.sublist parts
        · exact parts.countP_le
        · rw [Option.elim, length_reverse]
          omega
      | some resultElement =>
        have perm : (A.sort (cmp A) (rest.reverse ++ [resultElement])).Perm
            (resultElement :: rest) := by
          apply (A.sort_perm (cmp A) _).trans
          apply (perm_append_singleton resultElement rest.reverse).trans
          exact (reverse_perm rest).cons resultElement
        apply again
        · intro e member
          obtain rfl | member := mem_cons.mp (perm.mem_iff.mp member)
          · exact dnf_round (fun el inLast terms isTerms =>
              dnf_distribute (calls el inLast terms isTerms)) normalLast normalSecond mapped
              isResult
          · exact normalRest e member
        · exact sorts _
        · rw [Option.elim, perm.countP_eq, count, countP_cons, countP_cons]
          split_ifs <;> omega
        · rw [Option.elim, perm.length_eq, length_cons]
          omega
termination_by (expr.countP isDisjunction, expr.length)
decreasing_by
  · exact Prod.Lex.left _ _ fewer
  · exact Prod.Lex.right' _ fewer shorter

theorem allowed_of_sorts (sorts : SortsBy A) (early : ∀ a, p a → A.type a < 9)
    (elements : ∀ e, some e ∈ arr → DNF p true e) : Allowed A check arr := by
  intro terms isTerms
  have gathered := gatherAnd_dnf (A := A) elements
  rw [isTerms] at gathered
  exact distributes_of_sorts sorts early terms gathered (sorted_of_gather sorts isTerms)

/-! ## Negating -/

theorem dnf_distributeNegated {result : List (Expression α)}
    (normal : ∀ e ∈ expr, DNF p true e) (isResult : distributeNegated A expr = some result) :
    ∀ e ∈ result, DNF p true e := by
  cases expr with
  | nil =>
    rw [Atoms.distributeNegated.eq_def] at isResult
    cases isResult
    simp
  | cons left rest =>
    induction rest generalizing left with
    | nil =>
      rw [Atoms.distributeNegated.eq_def] at isResult
      cases isResult
      exact normal
    | cons right rest ih =>
      rw [Atoms.distributeNegated.eq_def] at isResult
      simp only [Option.bind_eq_bind, Option.bind_eq_some_iff] at isResult
      obtain ⟨all, mapped, first, isFirst, isResult⟩ := isResult
      cases first with
      | none => cases isResult
      | some first =>
        refine ih first ?_ isResult
        have normalAll : ∀ e, some e ∈ all → DNF p true e := by
          intro e member
          obtain ⟨pair, isPair, created⟩ := (mem_of_mapM mapped).2 _ member
          simp only [mem_flatMap, mem_map] at isPair
          obtain ⟨l, inLeft, r, inRight, rfl⟩ := isPair
          have both : ∀ x, some x ∈ [some l, some r] → DNF p false x := by
            simpa using ⟨(normal left (by simp)).terminals l inLeft,
              (normal right (by simp)).terminals r inRight⟩
          exact dnf_andCreate (allowed_of_dnf both) (fun x member => (both x member).weaken)
            (by simp) created
        intro e member
        obtain rfl | member := mem_cons.mp member
        · exact dnf_orCreate normalAll (by simp) isFirst
        · exact normal e (by simp [member])

theorem dnf_negate (closed : ∀ a, p a → p (A.negate a)) (normal : DNF p d e)
    (isNegated : negate A e = some result) : DNF p true result := by
  induction normal generalizing result with
  | falseExpr =>
    rw [negate.eq_def] at isNegated
    cases isNegated
    exact .trueExpr
  | trueExpr =>
    rw [negate.eq_def] at isNegated
    cases isNegated
    exact .falseExpr
  | atom holds =>
    rw [negate.eq_def] at isNegated
    cases isNegated
    exact .atom (closed _ holds)
  | @and d expr negated elements known elementsHypothesis knownHypothesis =>
    rw [negate.eq_def] at isNegated
    cases negated with
    | some negated =>
      cases isNegated
      exact known _ rfl
    | none =>
      simp only [Option.bind_eq_bind, Option.bind_eq_some_iff] at isNegated
      obtain ⟨negations, mapped, created, isCreated, rfl⟩ := isNegated
      refine dnf_orCreate ?_ ?_ isCreated
      · intro e member
        obtain ⟨x, inExpr, isNegated⟩ := (mem_of_mapM mapped).2 e (by simpa using member)
        exact elementsHypothesis x inExpr isNegated
      · rintro n ⟨⟩
        exact .and elements known
  | @or expr negated elements known elementsHypothesis knownHypothesis =>
    rw [negate.eq_def] at isNegated
    cases negated with
    | some negated =>
      cases isNegated
      exact known _ rfl
    | none =>
      simp only [Option.bind_eq_bind, Option.bind_eq_some_iff] at isNegated
      obtain ⟨negations, mapped, terms, isTerms, created, isCreated, rfl⟩ := isNegated
      refine dnf_orCreate ?_ ?_ isCreated
      · intro e member
        refine dnf_distributeNegated ?_ isTerms e (by simpa using member)
        intro n inNegations
        obtain ⟨x, inExpr, isNegated⟩ := (mem_of_mapM mapped).2 n inNegations
        exact elementsHypothesis x inExpr isNegated
      · rintro n ⟨⟩
        exact .or elements known

/-! ## Expressions that are called for -/

/-- An expression over the atoms that satisfy `p`: created or negated, where the calls of
`ContextKeyExpr.and` are allowed. -/
inductive Created (A : Atoms α) (p : α → Prop)
    (allowed : Bool → List (Option (Expression α)) → Prop) : Expression α → Prop
  | falseExpr : Created A p allowed falseExpr
  | trueExpr : Created A p allowed trueExpr
  | atom {a : α} (holds : p a) : Created A p allowed (atom a)
  | andCreate {arr : List (Option (Expression α))} {check : Bool} {e : Expression α}
      (elements : ∀ x, some x ∈ arr → Created A p allowed x) (isAllowed : allowed check arr)
      (created : andCreate A arr none check = some (some e)) : Created A p allowed e
  | orCreate {arr : List (Option (Expression α))} {check : Bool} {e : Expression α}
      (elements : ∀ x, some x ∈ arr → Created A p allowed x)
      (created : orCreate A arr none check = some (some e)) : Created A p allowed e
  | negate {e negated : Expression α} (created : Created A p allowed e)
      (isNegated : negate A e = some negated) : Created A p allowed negated

theorem Created.built {allowed : Bool → List (Option (Expression α)) → Prop}
    (created : Created A p allowed e) : Built A p e := by
  induction created with
  | falseExpr => exact .falseExpr
  | trueExpr => exact .trueExpr
  | atom holds => exact .atom holds
  | andCreate _ _ created ih => exact .andCreate ih created
  | orCreate _ created ih => exact .orCreate ih created
  | negate _ isNegated ih => exact .negate ih isNegated

/-- With allowed calls, no conjunction contains a disjunction. -/
theorem Created.dnf (closed : ∀ a, p a → p (A.negate a))
    (created : Created A p (Allowed A) e) : DNF p true e := by
  induction created with
  | falseExpr => exact .falseExpr
  | trueExpr => exact .trueExpr
  | atom holds => exact .atom holds
  | andCreate _ isAllowed created ih => exact dnf_andCreate isAllowed ih (by simp) created
  | orCreate _ created ih => exact dnf_orCreate ih (by simp) created
  | negate _ isNegated ih => exact dnf_negate closed ih isNegated

/-- All calls are allowed where the sorting sorts and no atom sorts behind a disjunction. -/
theorem Created.allowed (sorts : SortsBy A) (early : ∀ a, p a → A.type a < 9)
    (closed : ∀ a, p a → p (A.negate a)) (created : Created A p (fun _ _ => True) e) :
    Created A p (Allowed A) e := by
  induction created with
  | falseExpr => exact .falseExpr
  | trueExpr => exact .trueExpr
  | atom holds => exact .atom holds
  | andCreate _ _ created ih =>
    exact .andCreate ih (allowed_of_sorts sorts early fun x member => (ih x member).dnf closed)
      created
  | orCreate _ created ih => exact .orCreate ih created
  | negate _ isNegated ih => exact .negate ih isNegated

end Expression
end CodeEditor.ContextKey
