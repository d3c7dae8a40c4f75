import CodeEditor.ContextKey.Normalization

/-!
# Implication

Model of `implies` in `contextkey.ts`. A positive answer is right unless the run takes an atom for
one that is not the same: regular expressions of one source with other flags, and in the lists of
`&&` and `||` also values that are neither less nor greater.
-/

namespace CodeEditor.ContextKey

open Expression List

/-! ## The answer -/

section Implies

variable {α : Type} (A : Atoms α)

/-- The two arrays are walked together. -/
def allElementsIncluded : List (Expression α) → List (Expression α) → Bool
  | [], _ => true
  | _ :: _, [] => false
  | e :: p, other :: q =>
    if Expression.cmp A e other < 0 then
      -- an element from `p` is missing from `q`
      false
    else if Expression.cmp A e other = 0 then allElementsIncluded p q
    else allElementsIncluded (e :: p) q

/-- Whether it is provable that the first expression implies the second. -/
def implies (p q : Expression α) : Bool :=
  if p.isFalse || q.isTrue then true
  else
    match p, q with
    | .or expr _, .or others _ => allElementsIncluded A expr others
    | .or _ _, _ => false
    | p, .or others _ => others.attach.any fun element => implies p element.1
    | .and expr _, .and others _ => allElementsIncluded A others expr
    | .and expr _, q => expr.attach.any fun element => implies element.1 q
    | p, q => equals A p q
termination_by sizeOf p + sizeOf q
decreasing_by
  · have smaller := sizeOf_lt_of_mem element.2
    simp only [Expression.or.sizeOf_spec]
    omega
  · have smaller := sizeOf_lt_of_mem element.2
    simp only [Expression.and.sizeOf_spec]
    omega

/-! ## Terms that compare as the same -/

/-- Two atoms stand at the same place of two expressions, where `cmp` compares them. -/
inductive Pairs : Expression α → Expression α → α → α → Prop
  | atom {a b : α} : Pairs (.atom a) (.atom b) a b
  | and {expr others : List (Expression α)} {negated negated' : Option (Expression α)}
      {e other : Expression α} {a b : α} (place : (e, other) ∈ expr.zip others)
      (inside : Pairs e other a b) : Pairs (.and expr negated) (.and others negated') a b
  | or {expr others : List (Expression α)} {negated negated' : Option (Expression α)}
      {e other : Expression α} {a b : α} (place : (e, other) ∈ expr.zip others)
      (inside : Pairs e other a b) : Pairs (.or expr negated) (.or others negated') a b

/-- The atoms that are compared in two expressions which compare as the same have one value. -/
def SameWhereEqual (value : α → Bool) (e other : Expression α) : Prop :=
  ∀ a b, Pairs e other a b → A.type a = A.type b → A.cmp a b = 0 → value a = value b

variable {A} {value : α → Bool}

theorem evaluate_eq_of_cmpAll {expr others : List (Expression α)}
    (same : ∀ pair ∈ expr.zip others, Expression.cmp A pair.1 pair.2 = 0 →
      evaluate value pair.1 = evaluate value pair.2)
    (length : expr.length = others.length) (isZero : cmpAll A expr others = 0) :
    expr.all (evaluate value) = others.all (evaluate value) ∧
      expr.any (evaluate value) = others.any (evaluate value) := by
  induction expr generalizing others with
  | nil =>
    cases others with
    | nil => exact ⟨rfl, rfl⟩
    | cons other others => cases length
  | cons e expr ih =>
    cases others with
    | nil => cases length
    | cons other others =>
      rw [cmpAll] at isZero
      by_cases first : Expression.cmp A e other = 0
      · rw [if_neg (not_not.mpr first)] at isZero
        have here := same (e, other) mem_cons_self first
        have rest := ih (fun pair place => same pair (.tail _ place)) (Nat.succ.inj length) isZero
        simp only [all_cons, any_cons, here, rest.1, rest.2, and_self]
      · rw [if_pos first] at isZero
        exact absurd isZero first

/-- The numbers of the other types are not those of atoms. -/
def AtomTypes (A : Atoms α) : Prop :=
  ∀ a, A.type a ≠ 0 ∧ A.type a ≠ 1 ∧ A.type a ≠ 6 ∧ A.type a ≠ 9

/-- Expressions that compare as the same have one value. -/
theorem evaluate_eq_of_cmp (types : AtomTypes A) : ∀ {e other : Expression α},
    SameWhereEqual A value e other → Expression.cmp A e other = 0 →
      evaluate value e = evaluate value other
  | .and expr negated, other, same, isZero => by
      cases other with
      | and others negated' =>
        rw [Expression.cmp] at isZero
        split_ifs at isZero with shorter longer
        · omega
        · rw [evaluate_and, evaluate_and]
          refine (evaluate_eq_of_cmpAll ?_ (by omega) isZero).1
          intro pair place first
          have inExpr := (of_mem_zip place).1
          exact evaluate_eq_of_cmp types (fun a b inside => same a b (.and place inside)) first
      | atom b =>
        have distinct := types b
        simp only [Expression.cmp, Expression.type] at isZero
        omega
      | _ => simp [Expression.cmp, Expression.type] at isZero
  | .or expr negated, other, same, isZero => by
      cases other with
      | or others negated' =>
        rw [Expression.cmp] at isZero
        split_ifs at isZero with shorter longer
        · omega
        · rw [evaluate_or, evaluate_or]
          refine (evaluate_eq_of_cmpAll ?_ (by omega) isZero).2
          intro pair place first
          have inExpr := (of_mem_zip place).1
          exact evaluate_eq_of_cmp types (fun a b inside => same a b (.or place inside)) first
      | atom b =>
        have distinct := types b
        simp only [Expression.cmp, Expression.type] at isZero
        omega
      | _ => simp [Expression.cmp, Expression.type] at isZero
  | .atom a, other, same, isZero => by
      have distinct := types a
      cases other with
      | atom b =>
        rw [Expression.cmp] at isZero
        split_ifs at isZero with differ
        · omega
        · rw [evaluate_atom, evaluate_atom]
          exact same a b .atom (not_not.mp differ) isZero
      | _ =>
        simp only [Expression.cmp, Expression.type] at isZero
        omega
  | .falseExpr, other, same, isZero => by
      cases other with
      | falseExpr => rfl
      | atom b =>
        have distinct := types b
        simp only [Expression.cmp, Expression.type] at isZero
        omega
      | _ => simp [Expression.cmp, Expression.type] at isZero
  | .trueExpr, other, same, isZero => by
      cases other with
      | trueExpr => rfl
      | atom b =>
        have distinct := types b
        simp only [Expression.cmp, Expression.type] at isZero
        omega
      | _ => simp [Expression.cmp, Expression.type] at isZero
termination_by e => sizeOf e
decreasing_by
  · have smaller := sizeOf_lt_of_mem inExpr
    simp only [Expression.and.sizeOf_spec]
    omega
  · have smaller := sizeOf_lt_of_mem inExpr
    simp only [Expression.or.sizeOf_spec]
    omega

variable (A)

/-- The walk through two arrays takes an element of the first for one of the second. -/
inductive Meets : List (Expression α) → List (Expression α) → Expression α → Expression α → Prop
  | here {e other : Expression α} {p q : List (Expression α)}
      (same : Expression.cmp A e other = 0) : Meets (e :: p) (other :: q) e other
  | behind {e other e' other' : Expression α} {p q : List (Expression α)}
      (same : Expression.cmp A e other = 0) (later : Meets p q e' other') :
      Meets (e :: p) (other :: q) e' other'
  | skip {e other e' other' : Expression α} {p q : List (Expression α)}
      (greater : 0 < Expression.cmp A e other) (later : Meets (e :: p) q e' other') :
      Meets (e :: p) (other :: q) e' other'

/-- `implies` answers `true` and takes an atom for another one: in two arrays, or as whole
expressions. The elements of an array are tried one after the other until one gives `true`. -/
inductive Takes : Expression α → Expression α → (inArrays : Bool) → α → α → Prop
  | atoms {a b : α} (equal : equals A (.atom a) (.atom b) = true) :
      Takes (.atom a) (.atom b) false a b
  | terms {expr others : List (Expression α)} {negated negated' : Option (Expression α)}
      {e other : Expression α} {a b : α} (included : allElementsIncluded A expr others = true)
      (meets : Meets A expr others e other) (inside : Pairs e other a b) :
      Takes (.or expr negated) (.or others negated') true a b
  | factors {expr others : List (Expression α)} {negated negated' : Option (Expression α)}
      {e other : Expression α} {a b : α} (included : allElementsIncluded A others expr = true)
      (meets : Meets A others expr e other) (inside : Pairs e other a b) :
      Takes (.and expr negated) (.and others negated') true a b
  | toTerm {p other : Expression α} {before after : List (Expression α)}
      {negated' : Option (Expression α)} {inArrays : Bool} {a b : α} (notOr : p.disjuncts = none)
      (first : ∀ earlier ∈ before, implies A p earlier = false)
      (takes : Takes p other inArrays a b) :
      Takes p (.or (before ++ other :: after) negated') inArrays a b
  | ofFactor {q e : Expression α} {before after : List (Expression α)}
      {negated : Option (Expression α)} {inArrays : Bool} {a b : α} (notOr : q.disjuncts = none)
      (notAnd : q.conjuncts = none) (first : ∀ earlier ∈ before, implies A earlier q = false)
      (takes : Takes e q inArrays a b) :
      Takes (.and (before ++ e :: after) negated) q inArrays a b

variable {A} in
/-- An atom is only taken for another one where the answer is `true`. -/
theorem implies_of_takes {p q : Expression α} {inArrays : Bool} {a b : α}
    (takes : Takes A p q inArrays a b) : implies A p q = true := by
  induction takes with
  | atoms equal => simpa [implies, Expression.isFalse, Expression.isTrue] using equal
  | terms included => simpa [implies, Expression.isFalse, Expression.isTrue] using included
  | factors included => simpa [implies, Expression.isFalse, Expression.isTrue] using included
  | @toTerm p other before after negated' inArrays a b notOr first takes ih =>
    cases p with
    | or => cases notOr
    | _ => simp [implies, ih]
  | @ofFactor q e before after negated inArrays a b notOr notAnd first takes ih =>
    cases q with
    | or => cases notOr
    | and => cases notAnd
    | _ => simp [implies, ih]

/-- The atoms that `implies` takes for the same have one value. -/
def TakesSoundly (value : α → Bool) (p q : Expression α) : Prop :=
  ∀ inArrays a b, Takes A p q inArrays a b → A.type a = A.type b →
    (if inArrays then A.cmp a b = 0 else A.equals a b = true) → value a = value b

variable {A}

/-- Every element of the first array is taken for one of the second. -/
theorem exists_of_allElementsIncluded (included : allElementsIncluded A p q = true) :
    ∀ e ∈ p, ∃ other ∈ q, Expression.cmp A e other = 0 ∧ Meets A p q e other := by
  induction q generalizing p with
  | nil =>
    cases p with
    | nil => nofun
    | cons e p => cases included
  | cons other q ih =>
    cases p with
    | nil => nofun
    | cons e p =>
      rw [allElementsIncluded] at included
      split_ifs at included with less same
      · intro e' mem
        cases mem_cons.mp mem with
        | inl isFirst =>
          subst isFirst
          exact ⟨other, .head _, same, .here same⟩
        | inr later =>
          obtain ⟨other', inQ, same', meets⟩ := ih included e' later
          exact ⟨other', .tail _ inQ, same', .behind same meets⟩
      · intro e' mem
        obtain ⟨other', inQ, same', meets⟩ := ih included e' mem
        exact ⟨other', .tail _ inQ, same', .skip (by omega) meets⟩

/-- The first element for which a test succeeds. -/
theorem exists_first_of_any {list : List (Expression α)} {test : Expression α → Bool}
    (isAny : list.any test = true) : ∃ before e after, list = before ++ e :: after ∧
      test e = true ∧ ∀ earlier ∈ before, test earlier = false := by
  obtain ⟨e, found⟩ := Option.isSome_iff_exists.mp (find?_isSome.mpr (any_eq_true.mp isAny))
  obtain ⟨holds, before, after, split, earlier⟩ := find?_eq_some_iff_append.mp found
  exact ⟨before, e, after, split, holds, by simpa using earlier⟩

/-- A positive answer is right where atoms are taken for the same soundly. -/
theorem evaluate_of_implies (types : AtomTypes A)
    (soundly : TakesSoundly A value p q) (holds : implies A p q = true)
    (isTrue : evaluate value p = true) : evaluate value q = true := by
  induction p, q using implies.induct with
  | case1 p q trivial =>
    rw [Bool.or_eq_true] at trivial
    cases trivial with
    | inl isFalse =>
      cases p with
      | falseExpr => exact absurd isTrue (by simp)
      | _ => cases isFalse
    | inr isTrue =>
      cases q with
      | trueExpr => simp
      | _ => cases isTrue
  | case2 expr negated others negated' notTrivial =>
    rw [implies, if_neg notTrivial] at holds
    rw [evaluate_or, any_eq_true] at isTrue ⊢
    obtain ⟨e, inExpr, eIsTrue⟩ := isTrue
    obtain ⟨other, inOthers, same, meets⟩ := exists_of_allElementsIncluded holds e inExpr
    refine ⟨other, inOthers, ?_⟩
    rw [← eIsTrue]
    symm
    apply evaluate_eq_of_cmp types _ same
    intro a b inside
    exact soundly true a b (.terms holds meets inside)
  | case3 q expr negated notOr notTrivial =>
    rw [implies, if_neg notTrivial] at holds
    · cases holds
    · exact notOr
  | case4 p others negated' notOr notTrivial ih =>
    have isAny : others.any (implies A p) = true := by
      rw [implies, if_neg notTrivial, any_subtype (fun _ _ => rfl), unattach_attach] at holds
      · exact holds
      · exact notOr
    have disjunctsNone : p.disjuncts = none := by
      cases p with
      | or expr negated => exact absurd rfl (notOr expr negated)
      | _ => rfl
    obtain ⟨before, element, after, rfl, elementHolds, first⟩ := exists_first_of_any isAny
    rw [evaluate_or, any_eq_true]
    refine ⟨element, by simp, ?_⟩
    apply ih ⟨element, by simp⟩ _ elementHolds isTrue
    intro inArrays a b takes
    exact soundly inArrays a b (.toTerm disjunctsNone first takes)
  | case5 expr negated others negated' notTrivial =>
    rw [implies, if_neg notTrivial] at holds
    rw [evaluate_and, all_eq_true] at isTrue ⊢
    intro other inOthers
    obtain ⟨e, inExpr, same, meets⟩ := exists_of_allElementsIncluded holds other inOthers
    rw [← isTrue e inExpr]
    apply evaluate_eq_of_cmp types _ same
    intro a b inside
    exact soundly true a b (.factors holds meets inside)
  | case6 expr negated q notOr notAnd notTrivial ih =>
    have isAny : expr.any (implies A · q) = true := by
      rw [implies, if_neg notTrivial, @any_subtype _ _ _ _ (implies A · q) (fun _ _ => rfl),
        unattach_attach] at holds
      · exact holds
      · exact notOr
      · exact notAnd
    have notLists : q.disjuncts = none ∧ q.conjuncts = none := by
      cases q with
      | or others negated' => exact absurd rfl (notOr others negated')
      | and others negated' => exact absurd rfl (notAnd others negated')
      | _ => exact ⟨rfl, rfl⟩
    obtain ⟨before, element, after, rfl, elementHolds, first⟩ := exists_first_of_any isAny
    rw [evaluate_and, all_eq_true] at isTrue
    apply ih ⟨element, by simp⟩ _ elementHolds (isTrue element (by simp))
    intro inArrays a b takes
    exact soundly inArrays a b (.ofFactor notLists.1 notLists.2 first takes)
  | case7 p q notOrs notOr notOr' notAnds notAnd notTrivial =>
    have isEqual : equals A p q = true := by
      rw [implies, if_neg notTrivial] at holds
      · exact holds
      · exact notOr
      · exact notAnd
      · exact notOr'
      · exact notOrs
      · exact notAnds
    cases p with
    | or expr negated => exact absurd rfl (notOr expr negated)
    | and expr negated => exact absurd rfl (notAnd expr negated)
    | atom a =>
      cases q with
      | atom b =>
        have takes : Takes A (.atom a) (.atom b) false a b := .atoms isEqual
        rw [equals, Bool.and_eq_true, decide_eq_true_eq] at isEqual
        rw [evaluate_atom] at isTrue ⊢
        rw [← soundly false a b takes isEqual.1 isEqual.2, isTrue]
      | _ => simp [equals] at isEqual
    | falseExpr => exact absurd isTrue (by simp)
    | trueExpr =>
      cases q with
      | trueExpr => simp
      | _ => simp [equals] at isEqual

end Implies

/-! ## The atoms of context keys -/

section Atoms

variable {N R : Type} (P : Platform N R)

theorem atomTypes : AtomTypes (atoms P) := by
  intro a
  cases a with
  | comparison op key value =>
    cases op <;> exact ⟨nofun, nofun, nofun, nofun⟩
  | _ => exact ⟨nofun, nofun, nofun, nofun⟩

variable {P}

/-- Two values that are neither less nor greater, and not the same. -/
def Incomparable (P : Platform N R) (first second : Value N) : Prop :=
  first ≠ second ∧ P.less first second = false ∧ P.less second first = false

/-- Two atoms are taken for the same and are not: regular expressions of one source, and in arrays
also atoms whose values are neither less nor greater. -/
def Atom.IsMistakenFor (inArrays : Bool) (a b : Atom P) : Prop :=
  match a, b with
  | .regex key regexp, .regex other otherRegexp
  | .notRegex key regexp, .notRegex other otherRegexp =>
    key = other ∧ sourceOf P regexp = sourceOf P otherRegexp ∧ regexp ≠ otherRegexp
  | .equals key value, .equals other otherValue
  | .notEquals key value, .notEquals other otherValue =>
    inArrays = true ∧ key = other ∧ Incomparable P value.1 otherValue.1
  | .comparison op key value, .comparison otherOp other otherValue =>
    inArrays = true ∧ op = otherOp ∧ key = other ∧
      Incomparable P value.toValue otherValue.toValue
  | _, _ => False

/-- `<` of strings: of two different strings one is less. -/
def OrdersStrings (P : Platform N R) : Prop :=
  ∀ first second, lessString P first second = false → lessString P second first = false →
    first = second

theorem eq_of_cmp1 (orders : OrdersStrings P) (isZero : cmp1 P key1 key2 = 0) : key1 = key2 := by
  rw [cmp1] at isZero
  split_ifs at isZero with less greater
  · omega
  · exact orders key1 key2 (Bool.eq_false_iff.mpr less) (Bool.eq_false_iff.mpr greater)

theorem eq_of_cmp2 (orders : OrdersStrings P) (isZero : cmp2 P key1 value1 key2 value2 = 0) :
    key1 = key2 ∧ P.less value1 value2 = false ∧ P.less value2 value1 = false := by
  rw [cmp2] at isZero
  split_ifs at isZero with less greater lessValue greaterValue
  · omega
  · omega
  · exact ⟨orders key1 key2 (Bool.eq_false_iff.mpr less) (Bool.eq_false_iff.mpr greater),
      Bool.eq_false_iff.mpr lessValue, Bool.eq_false_iff.mpr greaterValue⟩

/-- Values that compare as the same are the same, unless they are incomparable. -/
theorem value_eq_of_cmp2 (orders : OrdersStrings P) (isZero : cmp2 P key1 value1 key2 value2 = 0)
    (comparable : ¬(key1 = key2 ∧ Incomparable P value1 value2)) :
    key1 = key2 ∧ value1 = value2 := by
  obtain ⟨sameKey, notLess, notGreater⟩ := eq_of_cmp2 orders isZero
  refine ⟨sameKey, ?_⟩
  by_contra apart
  exact comparable ⟨sameKey, apart, notLess, notGreater⟩

theorem text_eq_of_cmp2 (orders : OrdersStrings P)
    (isZero : cmp2 P key1 (Atom.text text1) key2 (Atom.text text2) = 0) :
    key1 = key2 ∧ text1 = text2 := by
  obtain ⟨sameKey, notLess, notGreater⟩ := eq_of_cmp2 orders isZero
  exact ⟨sameKey, orders text1 text2 notLess notGreater⟩

variable [LinearOrder N] [Zero N] {context : String → Value N}

/-- Atoms that compare as the same in arrays have one value, unless one is mistaken. -/
theorem Atom.evaluate_eq_of_cmp (orders : OrdersStrings P) {a b : Atom P}
    (sameType : a.type = b.type) (isZero : a.cmp b = 0) (notMistaken : ¬a.IsMistakenFor true b) :
    a.evaluate context = b.evaluate context := by
  cases a with
  | defined key =>
    cases b with
    | defined other =>
      have same : key = other := Subtype.ext (eq_of_cmp1 orders isZero)
      rw [same]
    | comparison op _ _ => cases op <;> cases sameType
    | _ => cases sameType
  | not key =>
    cases b with
    | not other =>
      have same : key = other := Subtype.ext (eq_of_cmp1 orders isZero)
      rw [same]
    | comparison op _ _ => cases op <;> cases sameType
    | _ => cases sameType
  | equals key value =>
    cases b with
    | equals other otherValue =>
      obtain ⟨sameKey, sameValue⟩ := value_eq_of_cmp2 orders isZero fun both =>
        notMistaken ⟨rfl, Subtype.ext both.1, both.2⟩
      rw [Subtype.ext sameKey, Subtype.ext sameValue]
    | comparison op _ _ => cases op <;> cases sameType
    | _ => cases sameType
  | notEquals key value =>
    cases b with
    | notEquals other otherValue =>
      obtain ⟨sameKey, sameValue⟩ := value_eq_of_cmp2 orders isZero fun both =>
        notMistaken ⟨rfl, Subtype.ext both.1, both.2⟩
      rw [Subtype.ext sameKey, Subtype.ext sameValue]
    | comparison op _ _ => cases op <;> cases sameType
    | _ => cases sameType
  | regex key regexp =>
    cases b with
    | regex other otherRegexp =>
      obtain ⟨sameKey, sameSource⟩ := text_eq_of_cmp2 orders isZero
      have same : regexp = otherRegexp := by
        by_contra apart
        exact notMistaken ⟨sameKey, sameSource, apart⟩
      rw [sameKey, same]
    | comparison op _ _ => cases op <;> cases sameType
    | _ => cases sameType
  | notRegex key regexp =>
    cases b with
    | notRegex other otherRegexp =>
      obtain ⟨sameKey, sameSource⟩ := text_eq_of_cmp2 orders isZero
      have same : regexp = otherRegexp := by
        by_contra apart
        exact notMistaken ⟨sameKey, sameSource, apart⟩
      rw [sameKey, same]
    | comparison op _ _ => cases op <;> cases sameType
    | _ => cases sameType
  | isIn key valueKey =>
    cases b with
    | isIn other otherValueKey =>
      obtain ⟨sameKey, sameValueKey⟩ := text_eq_of_cmp2 orders isZero
      rw [sameKey, sameValueKey]
    | comparison op _ _ => cases op <;> cases sameType
    | _ => cases sameType
  | notIn key valueKey =>
    cases b with
    | notIn other otherValueKey =>
      obtain ⟨sameKey, sameValueKey⟩ := text_eq_of_cmp2 orders isZero
      rw [sameKey, sameValueKey]
    | comparison op _ _ => cases op <;> cases sameType
    | _ => cases sameType
  | comparison op key value =>
    cases b with
    | comparison otherOp other otherValue =>
      have sameOp : op = otherOp := by
        cases op <;> cases otherOp <;> first | rfl | cases sameType
      obtain ⟨sameKey, sameValue⟩ := value_eq_of_cmp2 orders isZero fun both =>
        notMistaken ⟨rfl, sameOp, both.1, both.2⟩
      rw [sameOp, sameKey, Bound.toValue_injective sameValue]
    | _ => cases op <;> cases sameType

/-- Equal atoms have one value, unless one is mistaken. -/
theorem Atom.evaluate_eq_of_isEqual_of_notMistaken {a b : Atom P} (equal : a.isEqual b = true)
    (notMistaken : ¬a.IsMistakenFor false b) : a.evaluate context = b.evaluate context := by
  refine evaluate_eq_of_isEqual ?_ equal
  intro key first second isFirst isSecond sameSource
  have same : first = second := by
    by_contra apart
    apply notMistaken
    cases a with
    | regex key' regexp =>
      cases isFirst
      cases b with
      | regex other otherRegexp =>
        cases isSecond
        exact ⟨rfl, sameSource, apart⟩
      | _ => cases equal
    | notRegex key' regexp =>
      cases isFirst
      cases b with
      | notRegex other otherRegexp =>
        cases isSecond
        exact ⟨rfl, sameSource, apart⟩
      | _ => cases equal
    | _ => cases isFirst
  rw [same]

/-- A positive answer of `implies` is right, unless its run takes an atom for one that it is
mistaken for. -/
theorem implies_sound (orders : OrdersStrings P) (p q : Expression (Atom P))
    (notMistaken : ∀ inArrays a b, Takes (atoms P) p q inArrays a b → ¬a.IsMistakenFor inArrays b)
    (holds : implies (atoms P) p q = true) (context : String → Value N)
    (isTrue : evaluate (Atom.evaluate context) p = true) :
    evaluate (Atom.evaluate context) q = true := by
  refine evaluate_of_implies (atomTypes P) ?_ holds isTrue
  intro inArrays a b takes sameType same
  have distinct := notMistaken inArrays a b takes
  cases inArrays with
  | true => exact Atom.evaluate_eq_of_cmp orders sameType same distinct
  | false => exact Atom.evaluate_eq_of_isEqual_of_notMistaken same distinct

end Atoms

/-- `a && b` implies `a`. -/
def sampleFactors : Expression (Atom naturalPlatform) :=
  .and [.atom (.defined (naturalKey "a" constantValue_a)),
    .atom (.defined (naturalKey "b" constantValue_b))] none

def sampleFactor : Expression (Atom naturalPlatform) :=
  .atom (.defined (naturalKey "a" constantValue_a))

theorem ordersStrings_naturalPlatform : OrdersStrings naturalPlatform := by
  intro first second notLess notGreater
  exact String.le_antisymm (of_decide_eq_false notGreater) (of_decide_eq_false notLess)

theorem implies_sound_sample :
    evaluate (Atom.evaluate fun _ => .primitive (.boolean true)) sampleFactor = true := by
  refine implies_sound ordersStrings_naturalPlatform sampleFactors sampleFactor ?_ ?_ _ ?_
  · intro inArrays a b takes mistaken
    generalize isFactors : sampleFactors = factors at takes
    cases takes with
    | atoms => cases isFactors
    | @ofFactor _ e before after _ _ _ _ _ _ _ takes =>
      have element : e ∈ before ++ e :: after := by simp
      rw [← (Expression.and.inj isFactors).1, mem_cons, mem_singleton] at element
      rcases element with rfl | rfl
      · cases takes with
        | atoms => exact mistaken
      · cases takes with
        | atoms => exact mistaken
  · simp [implies, sampleFactors, sampleFactor, Expression.isFalse, Expression.isTrue,
      equals, atoms, Atom.type,
      Atom.isEqual]
  · simp [sampleFactors, Atom.evaluate, Value.isTruthy]

/-! ## Flags -/

/-- A letter without its case, where a regular expression ignores it. -/
def foldCase (ignoreCase : Bool) (text : String) : List Char :=
  if ignoreCase then text.toList.map Char.toLower else text.toList

/-- A platform whose regular expressions are plain texts, with the flag `i` or without. -/
def flagPlatform : Platform Nat (String × Bool) where
  constantValue := naturalPlatform.constantValue
  looseEquals := naturalPlatform.looseEquals
  strictEquals := naturalPlatform.strictEquals
  strictEquals_eq := naturalPlatform.strictEquals_eq
  less := naturalPlatform.less
  parseFloat := naturalPlatform.parseFloat
  source := Prod.fst
  test regexp value := match value with
    | .primitive (.string text) =>
      foldCase regexp.2 regexp.1 <:+: foldCase regexp.2 text
    | _ => false
  sort := naturalPlatform.sort
  sort_perm := naturalPlatform.sort_perm

/-- `a =~ /x/i` does not imply `a =~ /x/`, and `implies` says that it does. -/
theorem implies_unsound :
    OrdersStrings flagPlatform ∧
      ¬∀ p q : Expression (Atom flagPlatform), implies (atoms flagPlatform) p q = true →
        ∀ context : String → Value Nat, evaluate (Atom.evaluate context) p = true →
          evaluate (Atom.evaluate context) q = true := by
  refine ⟨ordersStrings_naturalPlatform, ?_⟩
  intro holds
  have wrong := holds (regexCreate flagPlatform "a" (some ("x", true)))
    (regexCreate flagPlatform "a" (some ("x", false)))
    (by simp [implies, regexCreate, Expression.isFalse, Expression.isTrue,
      equals, atoms, Atom.type, Atom.isEqual,
      sourceOf, flagPlatform])
    (fun _ => .primitive (.string "X"))
  revert wrong
  simp [regexCreate, Atom.evaluate, evaluateRegex, flagPlatform, foldCase]

end CodeEditor.ContextKey
