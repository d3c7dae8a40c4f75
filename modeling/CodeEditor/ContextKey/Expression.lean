import Mathlib

/-!
# Context key expressions

Model of the classes `ContextKeyAndExpr` and `ContextKeyOrExpr` in `contextkey.ts`, over the
atoms that the other classes are. The functions that build and negate expressions call each
other; where one of them does not return, the model has `none`.

An expression is a value here: the property `negated` holds what an expression was built with,
and a negation that is computed on demand is computed again instead of being remembered.
-/

namespace CodeEditor.ContextKey

/-- An expression over atoms; `negated` is the expression it is the negation of. -/
inductive Expression (α : Type)
  | falseExpr
  | trueExpr
  | atom (a : α)
  | and (expr : List (Expression α)) (negated : Option (Expression α))
  | or (expr : List (Expression α)) (negated : Option (Expression α))

/-- What the expressions use of their atoms, and of the sorting of arrays. -/
structure Atoms (α : Type) where
  /-- The number of `ContextKeyExprType`. -/
  type : α → Nat
  /-- The comparison of two atoms of one type. -/
  cmp : α → α → Int
  equals : α → α → Bool
  negate : α → α
  /-- `Array.prototype.sort`. -/
  sort : (Expression α → Expression α → Int) → List (Expression α) → List (Expression α)
  sort_perm : ∀ cmp expr, (sort cmp expr).Perm expr

variable {α : Type}

namespace Expression

/-- The number of `ContextKeyExprType`. -/
def type (A : Atoms α) : Expression α → Nat
  | falseExpr => 0
  | trueExpr => 1
  | atom a => A.type a
  | and _ _ => 6
  | or _ _ => 9

/-! ## Comparison -/

section Compare

variable (A : Atoms α)

mutual

def cmp : Expression α → Expression α → Int
  | and expr _, and other _ =>
    if expr.length < other.length then -1
    else if expr.length > other.length then 1
    else cmpAll expr other
  | or expr _, or other _ =>
    if expr.length < other.length then -1
    else if expr.length > other.length then 1
    else cmpAll expr other
  | atom a, atom b => if A.type a ≠ A.type b then A.type a - A.type b else A.cmp a b
  | e, other => e.type A - other.type A

/-- The first difference of two arrays. -/
def cmpAll : List (Expression α) → List (Expression α) → Int
  | e :: expr, other :: others =>
    let r := cmp e other
    if r ≠ 0 then r else cmpAll expr others
  | _, _ => 0

end

mutual

def equals : Expression α → Expression α → Bool
  | falseExpr, falseExpr => true
  | trueExpr, trueExpr => true
  | atom a, atom b => A.type a = A.type b && A.equals a b
  | and expr _, and other _ => equalsAll expr other
  | or expr _, or other _ => equalsAll expr other
  | _, _ => false

/-- Arrays of one length, equal element by element. -/
def equalsAll : List (Expression α) → List (Expression α) → Bool
  | [], [] => true
  | e :: expr, other :: others => equals e other && equalsAll expr others
  | _, _ => false

end

end Compare

/-! ## Evaluation -/

section Evaluate

variable (value : α → Bool)

mutual

/-- The value of an expression, from the values of the atoms in a context. -/
def evaluate : Expression α → Bool
  | falseExpr => false
  | trueExpr => true
  | atom a => value a
  | and expr _ => evaluateAll expr
  | or expr _ => evaluateAny expr

def evaluateAll : List (Expression α) → Bool
  | [] => true
  | e :: expr => evaluate e && evaluateAll expr

def evaluateAny : List (Expression α) → Bool
  | [] => false
  | e :: expr => evaluate e || evaluateAny expr

end

theorem evaluateAll_eq (expr : List (Expression α)) :
    evaluateAll value expr = expr.all (evaluate value) := by
  induction expr with
  | nil => rfl
  | cons e expr ih => rw [evaluateAll, ih, List.all_cons]

theorem evaluateAny_eq (expr : List (Expression α)) :
    evaluateAny value expr = expr.any (evaluate value) := by
  induction expr with
  | nil => rfl
  | cons e expr ih => rw [evaluateAny, ih, List.any_cons]

@[simp] theorem evaluate_falseExpr : evaluate value (falseExpr : Expression α) = false := by
  rw [evaluate]

@[simp] theorem evaluate_trueExpr : evaluate value (trueExpr : Expression α) = true := by
  rw [evaluate]

@[simp] theorem evaluate_atom (a : α) : evaluate value (atom a) = value a := by
  rw [evaluate]

@[simp] theorem evaluate_and (expr : List (Expression α)) (negated : Option (Expression α)) :
    evaluate value (and expr negated) = expr.all (evaluate value) := by
  rw [evaluate, evaluateAll_eq]

@[simp] theorem evaluate_or (expr : List (Expression α)) (negated : Option (Expression α)) :
    evaluate value (or expr negated) = expr.any (evaluate value) := by
  rw [evaluate, evaluateAny_eq]

end Evaluate

/-! ## Building expressions -/

def isTrue : Expression α → Bool
  | trueExpr => true
  | _ => false

def isFalse : Expression α → Bool
  | falseExpr => true
  | _ => false

/-- The elements of a conjunction. -/
def conjuncts : Expression α → Option (List (Expression α))
  | and expr _ => some expr
  | _ => none

/-- The elements of a disjunction. -/
def disjuncts : Expression α → Option (List (Expression α))
  | or expr _ => some expr
  | _ => none

def getTerminals (node : Expression α) : List (Expression α) := node.disjuncts.getD [node]

/-- The first loop of `_normalizeArr`: the elements of an array, with those of nested
expressions, and whether a neutral one was left out. An absorbing element ends the loop. -/
def collect (isNeutral isAbsorbing : Expression α → Bool)
    (nested : Expression α → Option (List (Expression α))) :
    List (Option (Expression α)) → List (Expression α) → Bool →
      Option (List (Expression α) × Bool)
  | [], expr, hasNeutral => some (expr, hasNeutral)
  | none :: arr, expr, hasNeutral => collect isNeutral isAbsorbing nested arr expr hasNeutral
  | some e :: arr, expr, hasNeutral =>
    if isNeutral e then collect isNeutral isAbsorbing nested arr expr true
    else if isAbsorbing e then none
    else collect isNeutral isAbsorbing nested arr (expr ++ (nested e).getD [e]) hasNeutral

/-- The only element. -/
def single? : List (Expression α) → Option (Expression α)
  | [e] => some e
  | _ => none

section Normalize

variable (A : Atoms α)

/-- Eliminate duplicate terms, which are next to each other. -/
def eliminateDuplicates : List (Expression α) → List (Expression α)
  | first :: second :: expr =>
    if equals A first second then eliminateDuplicates (first :: expr)
    else first :: eliminateDuplicates (second :: expr)
  | expr => expr
termination_by expr => expr.length

/-- What is left of an array before the loops that call other functions. -/
inductive Gathered (α : Type)
  | done (result : Option (Expression α))
  | terms (expr : List (Expression α))

/-- The common part of both `_normalizeArr`. A single element is returned before sorting, which
is what sorting it gives. -/
def gather (isNeutral isAbsorbing : Expression α → Bool)
    (nested : Expression α → Option (List (Expression α))) (neutral absorbing : Expression α)
    (arr : List (Option (Expression α))) : Gathered α :=
  match collect isNeutral isAbsorbing nested arr [] false with
  | none => .done (some absorbing)
  | some ([], hasNeutral) => .done (if hasNeutral then some neutral else none)
  | some ([e], _) => .done (some e)
  | some (expr, _) =>
    match eliminateDuplicates A (A.sort (cmp A) expr) with
    | [e] => .done (some e)
    | expr => .terms expr

/-- `anything && true ==> anything`, `anything && false ==> false`. -/
def gatherAnd (arr : List (Option (Expression α))) : Gathered α :=
  gather A isTrue isFalse conjuncts trueExpr falseExpr arr

/-- `anything || false ==> anything`, `anything || true ==> true`. -/
def gatherOr (arr : List (Option (Expression α))) : Gathered α :=
  gather A isFalse isTrue disjuncts falseExpr trueExpr arr

end Normalize

end Expression

open Expression

mutual

def Expression.negate (A : Atoms α) (e : Expression α) : Option (Expression α) :=
  match e with
  | .falseExpr => some .trueExpr
  | .trueExpr => some .falseExpr
  | .atom a => some (.atom (A.negate a))
  | .and _ (some negated) => some negated
  | .or _ (some negated) => some negated
  | .and expr none => do
      let result ← expr.mapM fun e => e |>.negate A
      let negated ← A |>.orCreate (result.map some) (some (.and expr none)) true
      negated
  | .or expr none => do
      let result ← expr.mapM fun e => e |>.negate A
      let result ← A |>.distributeNegated result
      let negated ← A |>.orCreate (result.map some) (some (.or expr none)) true
      negated
partial_fixpoint

/-- The loop of `ContextKeyOrExpr.negate`, which takes the first two elements. -/
def Atoms.distributeNegated (A : Atoms α) (result : List (Expression α)) :
    Option (List (Expression α)) :=
  match result with
  | left :: right :: rest => do
      let pairs := (getTerminals left).flatMap fun left =>
        (getTerminals right).map fun right => [some left, some right]
      let all ← pairs.mapM fun pair => A |>.andCreate pair none false
      match ← A |>.orCreate all none false with
      | some first => A |>.distributeNegated (first :: rest)
      | none => none
  | _ => some result
partial_fixpoint

/-- Whether an element is the negation of an earlier one. -/
def Atoms.hasNegation (A : Atoms α) (expr : List (Expression α)) : Option Bool :=
  match expr with
  | first :: second :: expr => do
      let negated ← first |>.negate A
      if (second :: expr).any (Expression.equals A negated) then some true
      else A |>.hasNegation (second :: expr)
  | _ => some false
partial_fixpoint

/-- The loop of `ContextKeyAndExpr._normalizeArr`, which distributes the last element over the
second to last one. -/
def Atoms.distribute (A : Atoms α) (extraRedundantCheck : Bool) (expr : List (Expression α)) :
    Option (List (Expression α)) :=
  match expr.reverse with
  | .or lastElement _ :: secondToLastElement :: rest => do
      let elements ← lastElement.mapM fun el =>
        A |>.andCreate [some el, some secondToLastElement] none extraRedundantCheck
      match ← A |>.orCreate elements none rest.isEmpty with
      | some resultElement =>
        A |>.distribute extraRedundantCheck
          (A.sort (Expression.cmp A) (rest.reverse ++ [resultElement]))
      | none => A |>.distribute extraRedundantCheck rest.reverse
  | _ => some expr
partial_fixpoint

/-- The check for `A && !A` or `A || !A`, where it is asked for. -/
def Atoms.isRedundant (A : Atoms α) (extraRedundantCheck : Bool) (expr : List (Expression α)) :
    Option Bool :=
  if extraRedundantCheck then A |>.hasNegation expr else some false
partial_fixpoint

/-- `ContextKeyAndExpr.create`. -/
def Atoms.andCreate (A : Atoms α) (arr : List (Option (Expression α)))
    (negated : Option (Expression α)) (extraRedundantCheck : Bool) :
    Option (Option (Expression α)) :=
  match gatherAnd A arr with
  | .done result => some result
  | .terms expr => do
      let expr ← A |>.distribute extraRedundantCheck expr
      match single? expr with
      | some e => some (some e)
      | none => do
          let isFalse ← A |>.isRedundant extraRedundantCheck expr
          some (if isFalse then some .falseExpr else some (.and expr negated))
partial_fixpoint

/-- `ContextKeyOrExpr.create`. -/
def Atoms.orCreate (A : Atoms α) (arr : List (Option (Expression α)))
    (negated : Option (Expression α)) (extraRedundantCheck : Bool) :
    Option (Option (Expression α)) :=
  match gatherOr A arr with
  | .done result => some result
  | .terms expr => do
      let isTrue ← A |>.isRedundant extraRedundantCheck expr
      some (if isTrue then some .trueExpr else some (.or expr negated))
partial_fixpoint

end

namespace Expression

export Atoms (andCreate orCreate distribute distributeNegated hasNegation isRedundant)

end Expression
end CodeEditor.ContextKey
