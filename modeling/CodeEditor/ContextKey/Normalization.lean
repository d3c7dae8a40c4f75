import CodeEditor.ContextKey.Atoms
import CodeEditor.ContextKey.Termination

/-!
# Normalization and negation of when-clauses

The atoms are sound in a context where their negations are their negations and equal atoms
have one value. All atoms but comparisons and regular expressions are sound in every context.
-/

namespace CodeEditor.ContextKey

open Expression List Option

variable {N R : Type} {P : Platform N R}

/-! ## Soundness of the atoms -/

section Sound

variable (context : String → Value N)

/-- The comparison of two numbers. -/
def Atom.IsNumeric : Atom P → Prop
  | .comparison _ key value =>
    (P.parseFloat (context key)).isSome ∧ ∃ n : N, value = .number (some n)
  | _ => True

/-- The key and the regular expression of an atom. -/
def Atom.pattern? : Atom P → Option (String × Option R)
  | .regex key regexp => some (key, regexp)
  | .notRegex key regexp => some (key, regexp)
  | _ => none

variable {context}

@[simp] theorem Atom.pattern?_negate (a : Atom P) : a.negate.pattern? = a.pattern? := by
  cases a <;> rfl

theorem Atom.negate_negate (a : Atom P) : a.negate.negate = a := by
  cases a with
  | comparison op key value => cases op <;> rfl
  | _ => rfl

theorem Atom.isNumeric_negate (a : Atom P) : a.negate.IsNumeric context ↔ a.IsNumeric context := by
  cases a <;> rfl

theorem Bound.toValue_injective {first second : Bound P}
    (same : first.toValue = second.toValue) : first = second := by
  cases first <;> cases second <;> simp_all [Bound.toValue]

variable [LinearOrder N] [Zero N] (context)

/-- Regular expressions with one source give one result. -/
def Atom.Agree (a b : Atom P) : Prop :=
  ∀ key first second, a.pattern? = some (key, first) → b.pattern? = some (key, second) →
    sourceOf P first = sourceOf P second →
    evaluateRegex (P := P) first (context key) = evaluateRegex (P := P) second (context key)

variable {context}

omit [Zero N] in
theorem Comparison.holds_negate (op : Comparison) (first second : N) :
    op.negate.holds first second = !op.holds first second := by
  cases op <;> simp [Comparison.negate, Comparison.holds, ← decide_not]

/-- The negation of a comparison is its negation exactly where both sides are numbers. -/
theorem Atom.evaluate_negate_iff (a : Atom P) :
    a.negate.evaluate context = !a.evaluate context ↔ a.IsNumeric context := by
  cases a with
  | comparison op key value =>
    cases value with
    | text s notNumber => simp [negate, evaluate, evaluateComparison, IsNumeric]
    | number bound =>
      cases bound with
      | none => simp [negate, evaluate, evaluateComparison, IsNumeric]
      | some bound =>
        cases parsed : P.parseFloat (context key) with
        | none => simp [negate, evaluate, evaluateComparison, IsNumeric, parsed]
        | some n =>
          simp [negate, evaluate, evaluateComparison, IsNumeric, parsed, Comparison.holds_negate]
  | _ => simp [negate, evaluate, IsNumeric]

/-- Equal atoms have one value, where their regular expressions agree. -/
theorem Atom.evaluate_eq_of_isEqual {a b : Atom P} (agree : a.Agree context b)
    (equal : a.isEqual b = true) : a.evaluate context = b.evaluate context := by
  cases a <;> cases b <;> simp only [isEqual, Bool.and_eq_true, decide_eq_true_eq,
    Bool.false_eq_true] at equal
  case defined.defined => simp [evaluate, equal]
  case not.not => simp [evaluate, equal]
  case equals.equals =>
      have same := P.strictEquals_eq _ _ equal.2
      simp [evaluate, equal.1, same]
  case notEquals.notEquals =>
      have same := P.strictEquals_eq _ _ equal.2
      simp [evaluate, equal.1, same]
  case regex.regex key regexp other otherRegexp =>
      obtain ⟨rfl, sameSource⟩ := equal
      exact agree key regexp otherRegexp rfl rfl sameSource
  case notRegex.notRegex key regexp other otherRegexp =>
      obtain ⟨rfl, sameSource⟩ := equal
      rw [evaluate, evaluate, agree key regexp otherRegexp rfl rfl sameSource]
  case isIn.isIn => simp [evaluate, equal]
  case notIn.notIn => simp [evaluate, equal]
  case comparison.comparison =>
      obtain ⟨⟨rfl, rfl⟩, same⟩ := equal
      rw [Bound.toValue_injective (P.strictEquals_eq _ _ same)]

/-- Atoms that are numeric and agree are sound. -/
theorem soundAtoms {admissible : Atom P → Prop} (closed : ∀ a, admissible a → admissible a.negate)
    (numeric : ∀ a, admissible a → a.IsNumeric context)
    (agree : ∀ a b, admissible a → admissible b → a.Agree context b) :
    SoundAtoms (atoms P) admissible (Atom.evaluate context) where
  negate_admissible := closed
  value_negate := fun a isAdmissible => a.evaluate_negate_iff.mpr (numeric a isAdmissible)
  value_eq := fun a b first second _ equal =>
    Atom.evaluate_eq_of_isEqual (agree a b first second) equal

end Sound

/-! ## Nested calls -/

/-- A nesting of calls of `ContextKeyExpr.and` and `ContextKeyExpr.or`, on non-empty lists. -/
inductive Clause (α : Type)
  | constant (b : Bool)
  | atom (a : α)
  | and (first : Clause α) (rest : List (Clause α))
  | or (first : Clause α) (rest : List (Clause α))

namespace Clause

variable {α : Type}

mutual

/-- The Boolean value of a nesting. -/
def value (v : α → Bool) : Clause α → Bool
  | constant b => b
  | atom a => v a
  | and first rest => value v first && allValue v rest
  | or first rest => value v first || anyValue v rest

def allValue (v : α → Bool) : List (Clause α) → Bool
  | [] => true
  | c :: rest => value v c && allValue v rest

def anyValue (v : α → Bool) : List (Clause α) → Bool
  | [] => false
  | c :: rest => value v c || anyValue v rest

end

mutual

/-- What the calls return; `none` where one of them does not return, or returns `undefined`. -/
def build (A : Atoms α) : Clause α → Option (Expression α)
  | constant true => some trueExpr
  | constant false => some falseExpr
  | atom a => some (.atom a)
  | and first rest => do
      let first ← build A first
      let rest ← buildAll A rest
      let result ← andCreate A ((first :: rest).map some) none true
      result
  | or first rest => do
      let first ← build A first
      let rest ← buildAll A rest
      let result ← orCreate A ((first :: rest).map some) none true
      result

def buildAll (A : Atoms α) : List (Clause α) → Option (List (Expression α))
  | [] => some []
  | c :: rest => do
      let first ← build A c
      let rest ← buildAll A rest
      some (first :: rest)

end

mutual

/-- All atoms satisfy `p`. -/
def All (p : α → Prop) : Clause α → Prop
  | constant _ => True
  | atom a => p a
  | and first rest => All p first ∧ AllOf p rest
  | or first rest => All p first ∧ AllOf p rest

def AllOf (p : α → Prop) : List (Clause α) → Prop
  | [] => True
  | c :: rest => All p c ∧ AllOf p rest

end

section Build

variable {A : Atoms α} {admissible : α → Prop} {v : α → Bool}

mutual

theorem build_valid (sound : SoundAtoms A admissible v) (c : Clause α) (all : c.All admissible) :
    ∃ e, c.build A = some e ∧ Valid admissible v e ∧ evaluate v e = c.value v := by
  match c with
  | constant true => exact ⟨trueExpr, by rw [build], .trueExpr, by simp [value]⟩
  | constant false => exact ⟨falseExpr, by rw [build], .falseExpr, by simp [value]⟩
  | atom a => exact ⟨.atom a, by rw [build], .atom (by simpa [All] using all), by simp [value]⟩
  | and first rest =>
    obtain ⟨e, isFirst, valid, isValue⟩ := build_valid sound first all.1
    obtain ⟨expr, isRest, validRest, allValues, -⟩ := buildAll_valid sound rest all.2
    obtain ⟨r, isResult, validResult, resultValue⟩ := andCreate_valid sound
      (cons_ne_nil e expr) (forall_mem_cons.mpr ⟨valid, validRest⟩) true
    refine ⟨r, ?_, validResult, ?_⟩
    · rw [build]
      simp only [isFirst, isRest, isResult, bind_eq_bind, bind_some]
    · rw [resultValue, value, all_cons, isValue, allValues]
  | or first rest =>
    obtain ⟨e, isFirst, valid, isValue⟩ := build_valid sound first all.1
    obtain ⟨expr, isRest, validRest, -, anyValues⟩ := buildAll_valid sound rest all.2
    obtain ⟨r, isResult, validResult, resultValue⟩ := orCreate_valid sound
      (cons_ne_nil e expr) (forall_mem_cons.mpr ⟨valid, validRest⟩) true
    refine ⟨r, ?_, validResult, ?_⟩
    · rw [build]
      simp only [isFirst, isRest, isResult, bind_eq_bind, bind_some]
    · rw [resultValue, value, any_cons, isValue, anyValues]

theorem buildAll_valid (sound : SoundAtoms A admissible v) (clauses : List (Clause α))
    (all : AllOf admissible clauses) :
    ∃ expr, buildAll A clauses = some expr ∧ (∀ e ∈ expr, Valid admissible v e) ∧
      expr.all (evaluate v) = allValue v clauses ∧ expr.any (evaluate v) = anyValue v clauses := by
  match clauses with
  | [] => exact ⟨[], by rw [buildAll], by simp, by simp [allValue], by simp [anyValue]⟩
  | c :: rest =>
    obtain ⟨e, isFirst, valid, isValue⟩ := build_valid sound c all.1
    obtain ⟨expr, isRest, validRest, allValues, anyValues⟩ := buildAll_valid sound rest all.2
    refine ⟨e :: expr, ?_, forall_mem_cons.mpr ⟨valid, validRest⟩, ?_, ?_⟩
    · rw [buildAll]
      simp only [isFirst, isRest, bind_eq_bind, bind_some]
    · rw [allValue, all_cons, isValue, allValues]
    · rw [anyValue, any_cons, isValue, anyValues]

end

end Build

end Clause

/-! ## A platform -/

/-- `<` of strings and of natural numbers. -/
def lessValue : Value Nat → Value Nat → Bool
  | .primitive (.string first), .primitive (.string second) => first < second
  | .primitive (.number (some first)), .primitive (.number (some second)) => first < second
  | _, _ => false

/-- `parseFloat`, for natural numbers. -/
def parseNatural : Value Nat → Option Nat
  | .primitive (.number n) => n
  | .primitive (.string s) => s.toNat?
  | _ => none

/-- A platform with the natural numbers, where a regular expression is its source and matches
only that. -/
def naturalPlatform : Platform Nat String where
  constantValue key := if key = "true" then some true else if key = "false" then some false
    else none
  looseEquals first second := first = second
  strictEquals first second := first = second
  strictEquals_eq := by simp
  less := lessValue
  parseFloat := parseNatural
  source := id
  test regexp value := value = .primitive (.string regexp)
  sort cmp list := list.mergeSort fun a b => cmp a b ≤ 0
  sort_perm cmp list := mergeSort_perm _ _

/-- A key of the platform. -/
def naturalKey (key : String) (notConstant : naturalPlatform.constantValue key = none) :
    Key naturalPlatform := ⟨key, notConstant⟩

theorem constantValue_a : naturalPlatform.constantValue "a" = none := by decide

theorem constantValue_b : naturalPlatform.constantValue "b" = none := by decide

/-! ## Normalization -/

/-- An atom that is neither a comparison nor a regular expression. -/
def Atom.IsPlain : Atom P → Prop
  | .regex _ _ => False
  | .notRegex _ _ => False
  | .comparison _ _ _ => False
  | _ => True

section Plain

variable [LinearOrder N] [Zero N]

theorem soundAtoms_isPlain (context : String → Value N) :
    SoundAtoms (atoms P) Atom.IsPlain (Atom.evaluate context) := by
  apply soundAtoms
  · intro a plain
    cases a <;> simp_all [Atom.IsPlain, Atom.negate]
  · intro a plain
    cases a <;> simp_all [Atom.IsPlain, Atom.IsNumeric]
  · intro a b plain _ key first second isPattern
    cases a <;> simp_all [Atom.IsPlain, Atom.pattern?]

/-- Building a nesting of conjunctions and disjunctions returns an expression with its value. -/
theorem normalization_preserves_value (c : Clause (Atom P)) (plain : c.All Atom.IsPlain) :
    ∃ e, c.build (atoms P) = some e ∧ ∀ context : String → Value N,
      evaluate (Atom.evaluate context) e = c.value (Atom.evaluate context) := by
  obtain ⟨e, isBuilt, -, -⟩ := Clause.build_valid
    (soundAtoms_isPlain fun _ => .primitive .undefined) c plain
  refine ⟨e, isBuilt, ?_⟩
  intro context
  obtain ⟨other, isOther, -, isValue⟩ :=
    Clause.build_valid (soundAtoms_isPlain context) c plain
  rw [isBuilt] at isOther
  cases isOther
  exact isValue

/-- `(a || b) && c in d`. -/
def sampleClause : Clause (Atom naturalPlatform) :=
  .and (.or (.atom (.defined (naturalKey "a" constantValue_a)))
    [.atom (.defined (naturalKey "b" constantValue_b))]) [.atom (.isIn "c" "d")]

theorem normalization_preserves_value_sample :
    ∃ e, sampleClause.build (atoms naturalPlatform) = some e ∧ ∀ context : String → Value Nat,
      evaluate (Atom.evaluate context) e = sampleClause.value (Atom.evaluate context) := by
  apply normalization_preserves_value
  simp [sampleClause, Clause.All, Clause.AllOf, Atom.IsPlain]

end Plain

/-! ## Negation -/

/-- An expression over the atoms that satisfy `p`: created, negated, or built by `map`. -/
inductive Built {α : Type} (A : Atoms α) (p : α → Prop) : Expression α → Prop
  | falseExpr : Built A p falseExpr
  | trueExpr : Built A p trueExpr
  | atom {a : α} (holds : p a) : Built A p (.atom a)
  | andCreate {arr : List (Option (Expression α))} {check : Bool} {e : Expression α}
      (elements : ∀ x, some x ∈ arr → Built A p x)
      (created : andCreate A arr none check = some (some e)) : Built A p e
  | orCreate {arr : List (Option (Expression α))} {check : Bool} {e : Expression α}
      (elements : ∀ x, some x ∈ arr → Built A p x)
      (created : orCreate A arr none check = some (some e)) : Built A p e
  | negate {e negated : Expression α} (built : Built A p e)
      (isNegated : negate A e = some negated) : Built A p negated
  | mapAnd {expr : List (Expression α)} (nonempty : expr ≠ [])
      (elements : ∀ x ∈ expr, Built A p x) : Built A p (.and expr none)
  | mapOr {expr : List (Expression α)} (nonempty : expr ≠ [])
      (elements : ∀ x ∈ expr, Built A p x) : Built A p (.or expr none)

theorem Built.valid {α : Type} {A : Atoms α} {p admissible : α → Prop} {v : α → Bool}
    (sound : SoundAtoms A admissible v) (isAdmissible : ∀ a, p a → admissible a)
    {e : Expression α} (built : Built A p e) : Valid admissible v e := by
  induction built with
  | falseExpr => exact .falseExpr
  | trueExpr => exact .trueExpr
  | atom holds => exact .atom (isAdmissible _ holds)
  | andCreate elements created elementsHypothesis =>
    exact ((returns_sound sound).2.2.2.2.2.1 _ _ _ _ created elementsHypothesis (by simp)).1
  | orCreate elements created elementsHypothesis =>
    exact ((returns_sound sound).2.2.1 _ _ _ _ created elementsHypothesis (by simp)).1
  | negate built isNegated ih =>
    exact ((returns_sound sound).1 _ _ isNegated ih).1
  | mapAnd nonempty elements elementsHypothesis =>
    exact .and nonempty elementsHypothesis (by simp) (by simp)
  | mapOr nonempty elements elementsHypothesis =>
    exact .or nonempty elementsHypothesis (by simp) (by simp)

section Negation

variable [LinearOrder N] [Zero N]

/-- `e.negate().evaluate(context)` is the negation of `e.evaluate(context)`. -/
def NegatesIn (context : String → Value N) (e : Expression (Atom P)) : Prop :=
  ∃ negated, negate (atoms P) e = some negated ∧
    evaluate (Atom.evaluate context) negated = !evaluate (Atom.evaluate context) e

/-- A comparison is negated exactly where it is one of numbers. -/
theorem negatesIn_comparison (context : String → Value N) (op : Comparison) (key : String)
    (value : Bound P) :
    NegatesIn context (.atom (.comparison op key value)) ↔
      Atom.IsNumeric context (.comparison op key value) := by
  rw [← Atom.evaluate_negate_iff]
  have isNegated : negate (atoms P) (.atom (.comparison op key value)) =
      some (.atom (Atom.negate (.comparison op key value))) := by
    rw [negate.eq_def]
    rfl
  constructor
  · rintro ⟨negated, returned, opposite⟩
    rw [isNegated] at returned
    cases returned
    simpa using opposite
  · intro opposite
    exact ⟨_, isNegated, by simpa using opposite⟩

/-- Atoms that are numeric and agree, together with their negations. -/
theorem soundAtoms_closure {p : Atom P → Prop} (numeric : ∀ a, p a → a.IsNumeric context)
    (agree : ∀ a b, p a → p b → a.Agree context b) :
    SoundAtoms (atoms P) (fun a => p a ∨ p a.negate) (Atom.evaluate context) := by
  apply soundAtoms
  · rintro a (holds | holds)
    · exact .inr (a.negate_negate.symm ▸ holds)
    · exact .inl holds
  · rintro a (holds | holds)
    · exact numeric a holds
    · exact (Atom.isNumeric_negate a).mp (numeric _ holds)
  · -- an atom and its negation have one pattern
    have pattern : ∀ a : Atom P, p a ∨ p a.negate → ∃ b, p b ∧ b.pattern? = a.pattern? := by
      rintro a (holds | holds)
      · exact ⟨a, holds, rfl⟩
      · exact ⟨a.negate, holds, a.pattern?_negate⟩
    intro a b first second key left right isLeft isRight sameSource
    obtain ⟨a', holds, same⟩ := pattern a first
    obtain ⟨b', holds', same'⟩ := pattern b second
    exact agree a' b' holds holds' key left right (same.trans isLeft) (same'.trans isRight)
      sameSource

/-- Negation is negation in a context where all comparisons are of numbers, and where regular
expressions with one source agree; for a comparison alone, exactly there. -/
theorem negate_evaluates (context : String → Value N) :
    (∀ p : Atom P → Prop, (∀ a, p a → a.IsNumeric context) →
      (∀ a b, p a → p b → a.Agree context b) →
      ∀ e, Built (atoms P) p e → NegatesIn context e) ∧
    ∀ (op : Comparison) (key : String) (value : Bound P),
      NegatesIn context (.atom (.comparison op key value)) ↔
        Atom.IsNumeric context (.comparison op key value) := by
  constructor
  · intro p numeric agree e built
    have sound := soundAtoms_closure numeric agree
    obtain ⟨negated, isNegated, -, opposite⟩ :=
      negate_valid sound (built.valid sound fun a holds => .inl holds)
    exact ⟨negated, isNegated, opposite⟩
  · exact negatesIn_comparison context

/-- `k > 5 || a`, where `k` is 7. -/
theorem negate_evaluates_seven :
    NegatesIn (fun _ => .primitive (.number (some 7)))
      (.or [.atom (.comparison .greater "k" (.number (some 5))),
        .atom (.defined (naturalKey "a" constantValue_a))] none) := by
  apply (negate_evaluates fun _ => .primitive (.number (some 7))).1 fun a =>
    a = .comparison .greater "k" (.number (some 5)) ∨ a = .defined (naturalKey "a" constantValue_a)
  · rintro a (rfl | rfl)
    · exact ⟨rfl, 5, rfl⟩
    · trivial
  · rintro a b (rfl | rfl) _ key first second isPattern
    · cases isPattern
    · cases isPattern
  · apply Built.mapOr (cons_ne_nil _ _)
    intro x member
    simp only [mem_cons, not_mem_nil, or_false] at member
    obtain rfl | rfl := member
    · exact .atom (.inl rfl)
    · exact .atom (.inr rfl)

/-- `k > 5` and its negation are both false where `k` is undefined. -/
theorem negate_undefined :
    ¬∀ e : Expression (Atom naturalPlatform), Built (atoms naturalPlatform) (fun _ => True) e →
      NegatesIn (fun _ => .primitive .undefined) e := by
  intro negates
  have negated := negates (.atom (.comparison .greater "k" (.number (some 5)))) (.atom trivial)
  rw [negatesIn_comparison] at negated
  simp [Atom.IsNumeric, naturalPlatform, parseNatural] at negated

end Negation

end CodeEditor.ContextKey
