import CodeEditor.ContextKey.Expression

/-!
# Atoms of context key expressions

Model of the classes of `contextkey.ts` other than `ContextKeyAndExpr` and `ContextKeyOrExpr`.
What they use of the language is a parameter: `==`, `===`, `<`, `parseFloat`, regular
expressions and the sorting of arrays. The numbers other than `NaN` are a linear order.
-/

namespace CodeEditor.ContextKey

/-! ## Values -/

/-- Primitive values; the number `NaN` is `none`. -/
inductive Primitive (N : Type)
  | undefined
  | null
  | boolean (b : Bool)
  | number (n : Option N)
  | string (s : String)
  deriving DecidableEq

/-- `ContextKeyValue`. -/
inductive Value (N : Type)
  | primitive (p : Primitive N)
  | array (elements : List (Primitive N))
  | record (entries : List (String × Primitive N))
  deriving DecidableEq

variable {N R : Type}

/-- `!!value`. -/
def Value.isTruthy [DecidableEq N] [Zero N] : Value N → Bool
  | .primitive .undefined => false
  | .primitive .null => false
  | .primitive (.boolean b) => b
  | .primitive (.number none) => false
  | .primitive (.number (some n)) => n ≠ 0
  | .primitive (.string s) => s ≠ ""
  | _ => true

def Value.boolean? : Value N → Option Bool
  | .primitive (.boolean b) => some b
  | _ => none

/-- The language, and `CONSTANT_VALUES`. `N` are the numbers, `R` the regular expressions. `test`
is a function: it stands for those without the flags `g` and `y`, which keep a `lastIndex`. -/
structure Platform (N R : Type) where
  constantValue : String → Option Bool
  /-- `==` -/
  looseEquals : Value N → Value N → Bool
  /-- `===` -/
  strictEquals : Value N → Value N → Bool
  strictEquals_eq : ∀ v w, strictEquals v w = true → v = w
  /-- `<` -/
  less : Value N → Value N → Bool
  parseFloat : Value N → Option N
  /-- The properties `source` and `test` of a regular expression. -/
  source : R → String
  test : R → Value N → Bool
  /-- `Array.prototype.sort`, with any comparison. -/
  sort : {β : Type} → (β → β → Int) → List β → List β
  sort_perm : ∀ {β : Type} (cmp : β → β → Int) (list : List β), (sort cmp list).Perm list

/-! ## Atoms -/

variable (P : Platform N R)

/-- A key that is not a constant. -/
def Key : Type := { key : String // P.constantValue key = none }

/-- A value that is not a boolean. -/
def Comparand (N : Type) : Type := { value : Value N // value.boolean? = none }

/-- What `withFloatOrStr` passes on: a number, or a text that is not one. -/
inductive Bound
  | number (n : Option N)
  | text (s : String) (notNumber : P.parseFloat (.primitive (.string s)) = none)

/-- `>`, `>=`, `<` and `<=`. -/
inductive Comparison
  | greater
  | greaterEquals
  | smaller
  | smallerEquals
  deriving DecidableEq

inductive Atom
  | defined (key : Key P)
  | not (key : Key P)
  | equals (key : Key P) (value : Comparand N)
  | notEquals (key : Key P) (value : Comparand N)
  | regex (key : String) (regexp : Option R)
  | notRegex (key : String) (regexp : Option R)
  | isIn (key valueKey : String)
  | notIn (key valueKey : String)
  | comparison (op : Comparison) (key : String) (value : Bound P)

variable {P}

def Bound.toValue : Bound P → Value N
  | .number n => .primitive (.number n)
  | .text s _ => .primitive (.string s)

/-! ### Creation -/

section Create

open Expression

variable (P)

/-- The constant expressions. -/
def constantExpr : Bool → Expression (Atom P)
  | true => trueExpr
  | false => falseExpr

/-- `ContextKeyDefinedExpr.create`. -/
def definedCreate (key : String) : Expression (Atom P) :=
  match constant : P.constantValue key with
  | some constantValue => constantExpr P constantValue
  | none => atom (.defined ⟨key, constant⟩)

/-- `ContextKeyNotExpr.create`. -/
def notCreate (key : String) : Expression (Atom P) :=
  match constant : P.constantValue key with
  | some constantValue => constantExpr P !constantValue
  | none => atom (.not ⟨key, constant⟩)

/-- A boolean as a string value. -/
def booleanText (b : Bool) : Value N := .primitive (.string (if b then "true" else "false"))

/-- `ContextKeyEqualsExpr.create`. -/
def equalsCreate (key : String) (value : Value N) : Expression (Atom P) :=
  match isBoolean : value.boolean? with
  | some true => definedCreate P key
  | some false => notCreate P key
  | none =>
    match constant : P.constantValue key with
    | some constantValue =>
      constantExpr P (P.strictEquals value (booleanText constantValue))
    | none => atom (.equals ⟨key, constant⟩ ⟨value, isBoolean⟩)

/-- `ContextKeyNotEqualsExpr.create`. -/
def notEqualsCreate (key : String) (value : Value N) : Expression (Atom P) :=
  match isBoolean : value.boolean? with
  | some true => notCreate P key
  | some false => definedCreate P key
  | none =>
    match constant : P.constantValue key with
    | some constantValue =>
      constantExpr P !P.strictEquals value (booleanText constantValue)
    | none => atom (.notEquals ⟨key, constant⟩ ⟨value, isBoolean⟩)

/-- `ContextKeyInExpr.create`. -/
def inCreate (key valueKey : String) : Expression (Atom P) := atom (.isIn key valueKey)

/-- `ContextKeyNotInExpr.create`. -/
def notInCreate (key valueKey : String) : Expression (Atom P) := atom (.notIn key valueKey)

/-- `ContextKeyRegexExpr.create`. -/
def regexCreate (key : String) (regexp : Option R) : Expression (Atom P) :=
  atom (.regex key regexp)

/-- `ContextKeyNotRegexExpr.create`. -/
def notRegexCreate (key : String) (regexp : Option R) : Expression (Atom P) :=
  atom (.notRegex key regexp)

/-- `withFloatOrStr`: nothing is passed on where the result is `false`. -/
def withFloatOrStr (value : Value N) : Option (Bound P) :=
  match value with
  | .primitive (.string s) =>
    match notNumber : P.parseFloat (.primitive (.string s)) with
    | some n => some (.number (some n))
    | none => some (.text s notNumber)
  | .primitive (.number n) => some (.number n)
  | _ => none

/-- The common form of the functions `create` of comparisons. -/
def comparisonCreate (op : Comparison) (key : String) (value : Value N) :
    Expression (Atom P) :=
  match withFloatOrStr P value with
  | some value => atom (.comparison op key value)
  | none => falseExpr

/-- `ContextKeyGreaterExpr.create`. -/
def greaterCreate (key : String) (value : Value N) : Expression (Atom P) :=
  comparisonCreate P .greater key value

/-- `ContextKeyGreaterEqualsExpr.create`. -/
def greaterEqualsCreate (key : String) (value : Value N) : Expression (Atom P) :=
  comparisonCreate P .greaterEquals key value

/-- `ContextKeySmallerExpr.create`. -/
def smallerCreate (key : String) (value : Value N) : Expression (Atom P) :=
  comparisonCreate P .smaller key value

/-- `ContextKeySmallerEqualsExpr.create`. -/
def smallerEqualsCreate (key : String) (value : Value N) : Expression (Atom P) :=
  comparisonCreate P .smallerEquals key value

/-- The functions `negate`, by the functions `create`. -/
def negateExpr : Atom P → Expression (Atom P)
  | .defined key => notCreate P key.1
  | .not key => definedCreate P key.1
  | .equals key value => notEqualsCreate P key.1 value.1
  | .notEquals key value => equalsCreate P key.1 value.1
  | .regex key regexp => notRegexCreate P key regexp
  | .notRegex key regexp => regexCreate P key regexp
  | .isIn key valueKey => notInCreate P key valueKey
  | .notIn key valueKey => inCreate P key valueKey
  | .comparison .greater key value => smallerEqualsCreate P key value.toValue
  | .comparison .greaterEquals key value => smallerCreate P key value.toValue
  | .comparison .smaller key value => greaterEqualsCreate P key value.toValue
  | .comparison .smallerEquals key value => greaterCreate P key value.toValue

end Create

/-! ### Negation -/

namespace Comparison

def negate : Comparison → Comparison
  | greater => smallerEquals
  | greaterEquals => smaller
  | smaller => greaterEquals
  | smallerEquals => greater

end Comparison

namespace Atom

/-- The atom that `negate` gives. -/
def negate : Atom P → Atom P
  | defined key => not key
  | not key => defined key
  | equals key value => notEquals key value
  | notEquals key value => equals key value
  | regex key regexp => notRegex key regexp
  | notRegex key regexp => regex key regexp
  | isIn key valueKey => notIn key valueKey
  | notIn key valueKey => isIn key valueKey
  | comparison op key value => comparison op.negate key value

end Atom

theorem withFloatOrStr_toValue (value : Bound P) : withFloatOrStr P value.toValue = some value := by
  cases value with
  | number n => rfl
  | text s notNumber =>
    simp only [Bound.toValue, withFloatOrStr]
    split
    · rename_i n isNumber
      rw [notNumber] at isNumber
      cases isNumber
    · rfl

/-- Negating an atom creates an atom again: no key is a constant, no value a boolean, and a
text stays a text. -/
theorem negateExpr_eq (a : Atom P) : negateExpr P a = .atom a.negate := by
  cases a with
  | defined key =>
    obtain ⟨key, constant⟩ := key
    simp only [negateExpr, notCreate]
    split <;> simp_all [Atom.negate]
  | not key =>
    obtain ⟨key, constant⟩ := key
    simp only [negateExpr, definedCreate]
    split <;> simp_all [Atom.negate]
  | equals key value =>
    obtain ⟨key, constant⟩ := key
    obtain ⟨value, notBoolean⟩ := value
    simp only [negateExpr, notEqualsCreate]
    split
    · simp_all
    · simp_all
    · split <;> simp_all [Atom.negate]
  | notEquals key value =>
    obtain ⟨key, constant⟩ := key
    obtain ⟨value, notBoolean⟩ := value
    simp only [negateExpr, equalsCreate]
    split
    · simp_all
    · simp_all
    · split <;> simp_all [Atom.negate]
  | regex key regexp => rfl
  | notRegex key regexp => rfl
  | isIn key valueKey => rfl
  | notIn key valueKey => rfl
  | comparison op key value =>
    cases op <;> simp [negateExpr, smallerEqualsCreate, smallerCreate, greaterEqualsCreate,
        greaterCreate, comparisonCreate, withFloatOrStr_toValue, Atom.negate,
        Comparison.negate]

/-! ### Comparison -/

section Compare

variable (P)

/-- `<` of strings. -/
def lessString (first second : String) : Bool :=
  P.less (.primitive (.string first)) (.primitive (.string second))

def cmp1 (key1 key2 : String) : Int :=
  if lessString P key1 key2 then -1 else if lessString P key2 key1 then 1 else 0

def cmp2 (key1 : String) (value1 : Value N) (key2 : String) (value2 : Value N) : Int :=
  if lessString P key1 key2 then -1
  else if lessString P key2 key1 then 1
  else if P.less value1 value2 then -1
  else if P.less value2 value1 then 1
  else 0

/-- The source of a regular expression, where there is one. -/
def sourceOf (regexp : Option R) : String := (regexp.map P.source).getD ""

end Compare

namespace Atom

/-- The number of `ContextKeyExprType`. -/
def type : Atom P → Nat
  | defined _ => 2
  | not _ => 3
  | equals _ _ => 4
  | notEquals _ _ => 5
  | regex _ _ => 7
  | notRegex _ _ => 8
  | isIn _ _ => 10
  | notIn _ _ => 11
  | comparison .greater _ _ => 12
  | comparison .greaterEquals _ _ => 13
  | comparison .smaller _ _ => 14
  | comparison .smallerEquals _ _ => 15

def text (s : String) : Value N := .primitive (.string s)

def cmp : Atom P → Atom P → Int
  | defined key, defined other => cmp1 P key.1 other.1
  | not key, not other => cmp1 P key.1 other.1
  | equals key value, equals other otherValue => cmp2 P key.1 value.1 other.1 otherValue.1
  | notEquals key value, notEquals other otherValue =>
    cmp2 P key.1 value.1 other.1 otherValue.1
  | regex key regexp, regex other otherRegexp =>
    cmp2 P key (text (sourceOf P regexp)) other (text (sourceOf P otherRegexp))
  | notRegex key regexp, notRegex other otherRegexp =>
    cmp2 P key (text (sourceOf P regexp)) other (text (sourceOf P otherRegexp))
  | isIn key valueKey, isIn other otherValueKey =>
    cmp2 P key (text valueKey) other (text otherValueKey)
  | notIn key valueKey, notIn other otherValueKey =>
    cmp2 P key (text valueKey) other (text otherValueKey)
  | comparison _ key value, comparison _ other otherValue =>
    cmp2 P key value.toValue other otherValue.toValue
  | _, _ => 0

def isEqual : Atom P → Atom P → Bool
  | defined key, defined other => key.1 = other.1
  | not key, not other => key.1 = other.1
  | equals key value, equals other otherValue =>
    key.1 = other.1 && P.strictEquals value.1 otherValue.1
  | notEquals key value, notEquals other otherValue =>
    key.1 = other.1 && P.strictEquals value.1 otherValue.1
  | regex key regexp, regex other otherRegexp =>
    key = other && sourceOf P regexp = sourceOf P otherRegexp
  | notRegex key regexp, notRegex other otherRegexp =>
    key = other && sourceOf P regexp = sourceOf P otherRegexp
  | isIn key valueKey, isIn other otherValueKey => key = other && valueKey = otherValueKey
  | notIn key valueKey, notIn other otherValueKey => key = other && valueKey = otherValueKey
  | comparison op key value, comparison otherOp other otherValue =>
    op = otherOp && key = other && P.strictEquals value.toValue otherValue.toValue
  | _, _ => false

end Atom

variable (P) in
/-- What expressions use of their atoms. -/
def atoms : Atoms (Atom P) where
  type := Atom.type
  cmp := Atom.cmp
  equals := Atom.isEqual
  negate := Atom.negate
  sort := P.sort
  sort_perm := P.sort_perm

/-! ### Evaluation -/

section Evaluate

variable [LinearOrder N] [Zero N] (context : String → Value N)

def Comparison.holds : Comparison → N → N → Bool
  | .greater, first, second => first > second
  | .greaterEquals, first, second => first ≥ second
  | .smaller, first, second => first < second
  | .smallerEquals, first, second => first ≤ second

/-- `ContextKeyInExpr.evaluate`. -/
def evaluateIn (source item : Value N) : Bool :=
  match source, item with
  | .array elements, .primitive item => item ∈ elements
  | .record entries, .primitive (.string item) => item ∈ entries.map Prod.fst
  | _, _ => false

/-- `ContextKeyRegexExpr.evaluate`. -/
def evaluateRegex (regexp : Option R) (value : Value N) : Bool :=
  match regexp with
  | some regexp => P.test regexp value
  | none => false

/-- The functions `evaluate` of comparisons; `NaN` compares to nothing. -/
def evaluateComparison (op : Comparison) (value : Value N) : Bound P → Bool
  | .text _ _ => false
  | .number bound =>
    match P.parseFloat value, bound with
    | some first, some second => op.holds first second
    | _, _ => false

/-- The value of an atom in a context. -/
def Atom.evaluate : Atom P → Bool
  | defined key => (context key.1).isTruthy
  | not key => !(context key.1).isTruthy
  | equals key value => P.looseEquals (context key.1) value.1
  | notEquals key value => !P.looseEquals (context key.1) value.1
  | regex key regexp => evaluateRegex (P := P) regexp (context key)
  | notRegex key regexp => !evaluateRegex (P := P) regexp (context key)
  | isIn key valueKey => evaluateIn (context valueKey) (context key)
  | notIn key valueKey => !evaluateIn (context valueKey) (context key)
  | comparison op key value => evaluateComparison op (context key) value

end Evaluate

end CodeEditor.ContextKey
