import CodeEditor.ContextKey.DisjunctiveForm
import CodeEditor.ContextKey.Scanner

/-!
# Serializing context key expressions

Model of the functions `serialize` in `contextkey.ts`, and the tokens that the scanner finds in
what they write. No parentheses are written: an expression is read again as a disjunction of
conjunctions.
-/

namespace CodeEditor.ContextKey

open Expression List Bool

variable {N R : Type} {P : Platform N R}

/-- What serializing uses of the language: texts of values, and flags of regular expressions. -/
structure Writer (N R : Type) where
  stringOf : Value N → String
  stringOf_string : ∀ s, stringOf (.primitive (.string s)) = s
  flags : R → String

section Serialize

variable (W : Writer N R)

def Comparison.symbol : Comparison → String
  | .greater => ">"
  | .greaterEquals => ">="
  | .smaller => "<"
  | .smallerEquals => "<="

/-- `ContextKeyRegexExpr.serialize`. -/
def serializeRegex (P : Platform N R) (key : String) (regexp : Option R) : String :=
  key ++ " =~ " ++
    match regexp with
    | some regexp => "/" ++ P.source regexp ++ "/" ++ W.flags regexp
    | none => "/invalid/"

def Atom.serialize : Atom P → String
  | .defined key => key.1
  | .not key => "!" ++ key.1
  | .equals key value => key.1 ++ " == '" ++ W.stringOf value.1 ++ "'"
  | .notEquals key value => key.1 ++ " != '" ++ W.stringOf value.1 ++ "'"
  | .regex key regexp => serializeRegex W P key regexp
  | .notRegex key regexp => "!(" ++ serializeRegex W P key regexp ++ ")"
  | .isIn key valueKey => key ++ " in '" ++ valueKey ++ "'"
  | .notIn key valueKey => key ++ " not in '" ++ valueKey ++ "'"
  | .comparison op key value => key ++ " " ++ op.symbol ++ " " ++ W.stringOf value.toValue

mutual

def serialize : Expression (Atom P) → String
  | falseExpr => "false"
  | trueExpr => "true"
  | atom a => a.serialize W
  | .and expr _ => " && ".intercalate (serializeAll expr)
  | .or expr _ => " || ".intercalate (serializeAll expr)

def serializeAll : List (Expression (Atom P)) → List String
  | [] => []
  | e :: expr => serialize e :: serializeAll expr

end

theorem serializeAll_eq (expr : List (Expression (Atom P))) :
    serializeAll W expr = expr.map (serialize W) := by
  induction expr with
  | nil => rfl
  | cons e expr ih => rw [serializeAll, ih, map_cons]

@[simp] theorem serialize_and (expr : List (Expression (Atom P)))
    (negated : Option (Expression (Atom P))) :
    serialize W (.and expr negated) = " && ".intercalate (expr.map (serialize W)) := by
  rw [serialize, serializeAll_eq]

@[simp] theorem serialize_or (expr : List (Expression (Atom P)))
    (negated : Option (Expression (Atom P))) :
    serialize W (.or expr negated) = " || ".intercalate (expr.map (serialize W)) := by
  rw [serialize, serializeAll_eq]

end Serialize

/-! ## What is written is a disjunction of conjunctions -/

section Clauses

/-- Parts that are joined with a separator, joined with it again. -/
theorem intercalate_flatMap {β : Type} (separator : String) (f : β → List String)
    (list : List β) (nonempty : ∀ b ∈ list, f b ≠ []) :
    separator.intercalate (list.flatMap f) =
      separator.intercalate (list.map fun b => separator.intercalate (f b)) := by
  induction list with
  | nil => rfl
  | cons b list ih =>
    have rest := ih fun b member => nonempty b (mem_cons_of_mem _ member)
    have first := nonempty b mem_cons_self
    by_cases isEmpty : list = []
    · subst isEmpty
      simp
    · have others : list.flatMap f ≠ [] := by
        obtain ⟨other, member⟩ := exists_mem_of_ne_nil list isEmpty
        intro isNil
        exact nonempty other (mem_cons_of_mem _ member) (flatMap_eq_nil_iff.mp isNil other member)
      rw [flatMap_cons, String.intercalate_append_of_ne_nil first others, rest,
        map_cons, String.intercalate_cons_of_ne_nil (by simpa using isEmpty)]

variable {admissible p : Atom P → Prop} (W : Writer N R)

/-- A constant, or an admissible atom. -/
inductive IsLiteral (admissible : Atom P → Prop) : Expression (Atom P) → Prop
  | falseExpr : IsLiteral admissible falseExpr
  | trueExpr : IsLiteral admissible trueExpr
  | atom {a : Atom P} (isAdmissible : admissible a) : IsLiteral admissible (atom a)

/-- The text of a conjunction of literals. -/
def conjunctionText (literals : List (Expression (Atom P))) : String :=
  " && ".intercalate (literals.map (serialize W))

/-- The text of a disjunction of conjunctions. -/
def clausesText (clauses : List (List (Expression (Atom P)))) : String :=
  " || ".intercalate (clauses.map (conjunctionText W))

/-- Where the text of each element is that of some parts, so is the text of all of them. -/
theorem exists_parts {β : Type} {expr : List (Expression (Atom P))} (nonempty : expr ≠ [])
    (separator : String) (text : β → String) {good : β → Prop}
    {meaning : Expression (Atom P) → List β → Prop}
    (each : ∀ e ∈ expr, ∃ parts : List β, parts ≠ [] ∧ (∀ b ∈ parts, good b) ∧
      serialize W e = separator.intercalate (parts.map text) ∧ meaning e parts) :
    ∃ f : Expression (Atom P) → List β, expr.flatMap f ≠ [] ∧ (∀ b ∈ expr.flatMap f, good b) ∧
      separator.intercalate (expr.map (serialize W)) =
        separator.intercalate ((expr.flatMap f).map text) ∧ ∀ e ∈ expr, meaning e (f e) := by
  classical
  choose! f isNonempty isGood isText isMeaning using each
  refine ⟨f, ?_, ?_, ?_, isMeaning⟩
  · obtain ⟨e, member⟩ := exists_mem_of_ne_nil expr nonempty
    intro isNil
    exact isNonempty e member (flatMap_eq_nil_iff.mp isNil e member)
  · intro b member
    obtain ⟨e, inExpr, inParts⟩ := mem_flatMap.mp member
    exact isGood e inExpr b inParts
  · rw [map_flatMap, intercalate_flatMap]
    · congr 1
      apply map_congr_left
      exact isText
    · intro e member
      simpa using isNonempty e member

/-- Without disjunctions, a conjunction of literals is written. -/
theorem exists_literals (valid : Valid admissible v e) (normal : DNF p false e) :
    ∃ literals : List (Expression (Atom P)), literals ≠ [] ∧
      (∀ l ∈ literals, IsLiteral admissible l) ∧ serialize W e = conjunctionText W literals ∧
      ∀ value, evaluate value e = literals.all (evaluate value) := by
  induction valid with
  | falseExpr =>
    exact ⟨[falseExpr], by simp, by simpa using .falseExpr, by simp [conjunctionText], by simp⟩
  | trueExpr =>
    exact ⟨[trueExpr], by simp, by simpa using .trueExpr, by simp [conjunctionText], by simp⟩
  | @atom a isAdmissible =>
    exact ⟨[.atom a], by simp, by simpa using .atom isAdmissible, by simp [conjunctionText],
      by simp⟩
  | @and expr negated nonempty elements known isNegation elementsHypothesis knownHypothesis =>
    cases normal with
    | and elementsNormal =>
      obtain ⟨f, isNonempty, isLiteral, isText, isValue⟩ :=
        exists_parts W nonempty " && " (serialize W) fun e member =>
          elementsHypothesis e member (elementsNormal e member)
      refine ⟨expr.flatMap f, isNonempty, isLiteral, ?_, ?_⟩
      · rw [serialize_and, isText, conjunctionText]
      · intro value
        rw [evaluate_and, all_flatMap, Bool.eq_iff_iff, all_eq_true, all_eq_true]
        apply forall₂_congr
        intro e member
        rw [isValue e member value]
  | or nonempty elements known isNegation => cases normal

/-- An expression is written as a disjunction of conjunctions of literals, and means that. -/
structure WrittenAs (admissible : Atom P → Prop) (e : Expression (Atom P))
    (clauses : List (List (Expression (Atom P)))) : Prop where
  nonempty : clauses ≠ []
  isClause : ∀ literals ∈ clauses, literals ≠ [] ∧ ∀ l ∈ literals, IsLiteral admissible l
  text : serialize W e = clausesText W clauses
  value : ∀ value, evaluate value e = clauses.any fun literals => literals.all (evaluate value)

theorem writtenAs_of_noDisjunction (valid : Valid admissible v e) (normal : DNF p false e) :
    ∃ clauses, WrittenAs W admissible e clauses := by
  obtain ⟨literals, isNonempty, isLiteral, isText, isValue⟩ := exists_literals W valid normal
  refine ⟨[literals], ?_, ?_, ?_, ?_⟩
  · apply cons_ne_nil
  · simpa using ⟨isNonempty, isLiteral⟩
  · simpa [clausesText] using isText
  · simpa using isValue

/-- Without disjunctions in conjunctions, a disjunction of conjunctions is written. -/
theorem writtenAs_of_dnf (valid : Valid admissible v e) (normal : DNF p true e) :
    ∃ clauses, WrittenAs W admissible e clauses := by
  cases notOr : e.disjuncts with
  | none => exact writtenAs_of_noDisjunction W valid (normal.of_disjuncts_eq_none notOr)
  | some expr =>
    cases normal with
    | @or expr negated elements known =>
      cases valid with
      | or nonempty elementsValid isKnown isNegation =>
        have each : ∀ e ∈ expr, ∃ clauses, clauses ≠ [] ∧
            (∀ literals ∈ clauses, literals ≠ [] ∧ ∀ l ∈ literals, IsLiteral admissible l) ∧
            serialize W e = " || ".intercalate (clauses.map (conjunctionText W)) ∧
            ∀ value, evaluate value e =
              clauses.any fun literals => literals.all (evaluate value) := by
          intro e member
          obtain ⟨clauses, written⟩ :=
            writtenAs_of_noDisjunction W (elementsValid e member) (elements e member)
          exact ⟨clauses, written.nonempty, written.isClause, written.text, written.value⟩
        obtain ⟨f, isNonempty, isClause, isText, isValue⟩ :=
          exists_parts W nonempty " || " (conjunctionText W) each
        refine ⟨expr.flatMap f, isNonempty, isClause, ?_, ?_⟩
        · rw [serialize_or, isText, clausesText]
        · intro value
          rw [evaluate_or, any_flatMap, Bool.eq_iff_iff, any_eq_true, any_eq_true]
          apply exists_congr
          intro e
          apply and_congr_right
          intro member
          rw [isValue e member value]
    | _ => cases notOr

end Clauses

/-! ## The tokens of what is written -/

section Tokens

variable (L : Letters)

/-- The types of the tokens of a text, from an offset on. -/
def typesFrom (start : Nat) (input : List Char) : List TokenType :=
  (scan L start input).1.map Token.type

theorem typesFrom_cons (start : Nat) (ch : Char) (rest : List Char) : ∃ next,
    typesFrom L start (ch :: rest) = (scanOne L start ch rest).tokens.map Token.type ++
        typesFrom L next (scanOne L start ch rest).rest := by
  rw [typesFrom, scan, map_append]
  exact ⟨_, rfl⟩

/-- Nothing, or a blank. -/
def Separated (rest : List Char) : Prop := ∀ c ∈ rest.head?, c = ' '

/-- Before a blank or the end, a text has tokens of these types. -/
def Renders (text : List Char) (types : List TokenType) : Prop :=
  ∀ start rest, Separated rest →
    ∃ next, typesFrom L start (text ++ rest) = types ++ typesFrom L next rest

variable {L}

/-- A text that one round of the scanner takes. -/
theorem renders_of_scanOne {text : List Char} {type : TokenType}
    (isOne : ∀ start rest, Separated rest → ∃ offset,
      scanOne L start ch (text ++ rest) = ⟨[⟨type, offset⟩], [], rest⟩) :
    Renders L (ch :: text) [type] := by
  intro start rest separated
  obtain ⟨offset, isScanned⟩ := isOne start rest separated
  obtain ⟨next, isTypes⟩ := typesFrom_cons L start ch (text ++ rest)
  rw [isScanned] at isTypes
  exact ⟨next, isTypes⟩

theorem typesFrom_blank (start : Nat) (rest : List Char) :
    ∃ next, typesFrom L start (' ' :: rest) = typesFrom L next rest :=
  typesFrom_cons L start ' ' rest

theorem Renders.append
    (isFirst : Renders L first firstTypes) (isSecond : Renders L second secondTypes) :
    Renders L (first ++ ' ' :: second) (firstTypes ++ secondTypes) := by
  intro start rest separated
  obtain ⟨next, isTypes⟩ := isFirst start (' ' :: (second ++ rest)) (by simp [Separated])
  obtain ⟨after, isBlank⟩ := typesFrom_blank (L := L) next (second ++ rest)
  obtain ⟨last, isRest⟩ := isSecond after rest separated
  refine ⟨last, ?_⟩
  rw [append_assoc, cons_append, isTypes, isBlank, isRest, append_assoc]

/-! ### Words -/

variable {c : Char}

theorem Letters.isLetter_eq_false (isLatin : c.toNat < 0xaa) (notAlpha : c.isAlpha = false) :
    L.isLetter c = false := by
  rw [eq_false_iff]
  intro isLetter
  rw [L.ascii c isLatin isLetter] at notAlpha
  cases notAlpha

theorem isStringChar_eq_false (isLatin : c.toNat < 0xaa)
    (isOther : (c.isAlphanum || "_<>-./\\:*?+[]^,#@;\"%$".toList.contains c) = false) :
    isStringChar L c = false := by
  have notAlpha : c.isAlpha = false := by
    simp only [Char.isAlphanum, or_eq_false_iff] at isOther
    exact isOther.1.1
  rw [isStringChar, isOther, Letters.isLetter_eq_false isLatin notAlpha]
  rfl

/-- A key that the scanner finds as one token, and the parser takes for a key. -/
structure IsIdentifier (L : Letters) (key : String) : Prop where
  isString : ∀ c ∈ key.toList, isStringChar L c = true
  nonempty : key.toList ≠ []
  begins : ∀ c ∈ key.toList.head?, c ≠ '/' ∧ c ≠ '<' ∧ c ≠ '>'
  notKeyword : keyword? key = none

theorem isIdentifier_of_head {key : String} {rest : List Char} (letters : key.toList = c :: rest)
    (isString : (c :: rest).all (isStringChar L) = true) (begins : c ≠ '/' ∧ c ≠ '<' ∧ c ≠ '>')
    (notKeyword : keyword? key = none) : IsIdentifier L key where
  isString := by rwa [letters, ← all_eq_true]
  nonempty := by simp [letters]
  begins := by simpa [letters] using begins
  notKeyword := notKeyword

theorem scanOne_of_isStringChar (isString : isStringChar L c = true)
    (begins : c ≠ '/' ∧ c ≠ '<' ∧ c ≠ '>') (start : Nat) (rest : List Char) :
    scanOne L start c rest = scanString L start c rest := by
  unfold scanOne
  split
  all_goals
    first
    | rfl
    | exact absurd rfl begins.1
    | exact absurd rfl begins.2.1
    | exact absurd rfl begins.2.2
    | (rw [isStringChar_eq_false (by decide) (by decide)] at isString
       cases isString)

theorem Separated.stopsAt (separated : Separated rest) : StopsAt (isStringChar L) rest := by
  intro c isHead
  rw [separated c isHead]
  exact isStringChar_eq_false (by decide) (by decide)

/-- A word is a keyword or a string. -/
theorem renders_word {word : String} (isString : ∀ c ∈ word.toList, isStringChar L c = true)
    (nonempty : word.toList ≠ []) (begins : ∀ c ∈ word.toList.head?, c ≠ '/' ∧ c ≠ '<' ∧ c ≠ '>') :
    Renders L word.toList [(keyword? word).getD (.str word)] := by
  cases isWord : word.toList with
  | nil => exact absurd isWord nonempty
  | cons c text =>
    rw [isWord] at isString begins
    apply renders_of_scanOne
    intro start rest separated
    refine ⟨start, ?_⟩
    have isLexeme : String.ofList (c :: text) = word := by
      rw [← isWord, String.ofList_toList]
    obtain ⟨isTaken, isDropped⟩ := takeWhile_append
      (fun c member => isString c (mem_cons_of_mem _ member)) separated.stopsAt
    rw [scanOne_of_isStringChar (isString c mem_cons_self) (begins c rfl), scanString,
      if_pos (isString c mem_cons_self)]
    simp only [isTaken, isDropped, isLexeme, addToken]

theorem IsIdentifier.renders (identifier : IsIdentifier L key) :
    Renders L key.toList [.str key] := by
  have isWord := renders_word identifier.isString identifier.nonempty identifier.begins
  rwa [identifier.notKeyword] at isWord

theorem isStringChar_of_isAlpha (isAlpha : c.isAlpha = true) : isStringChar L c = true := by
  simp [isStringChar, Char.isAlphanum, isAlpha]

/-- A keyword. -/
theorem renders_keyword {word : String} {type : TokenType} (isKeyword : keyword? word = some type)
    (isAlpha : word.toList.all Char.isAlpha = true) (nonempty : word.toList ≠ []) :
    Renders L word.toList [type] := by
  rw [all_eq_true] at isAlpha
  have begins : ∀ c ∈ word.toList.head?, c ≠ '/' ∧ c ≠ '<' ∧ c ≠ '>' := by
    intro c isHead
    have isLetter := isAlpha c (mem_of_mem_head? isHead)
    refine ⟨?_, ?_, ?_⟩
    all_goals
      rintro rfl
      cases isLetter
  have isWord := renders_word (fun c member => isStringChar_of_isAlpha (L := L) (isAlpha c member))
    nonempty begins
  rwa [isKeyword] at isWord

/-! ### Operators and quoted strings -/

theorem Separated.ne {rest : List Char} (separated : Separated (c :: rest)) :
    c = ' ' := separated c rfl

theorem renders_neg {text : List Char} (isText : Renders L text types)
    (begins : ∀ c ∈ text.head?, c ≠ '=') (nonempty : text ≠ []) :
    Renders L ('!' :: text) (.neg :: types) := by
  intro start rest separated
  obtain ⟨next, isTypes⟩ := typesFrom_cons L start '!' (text ++ rest)
  obtain ⟨last, isRest⟩ := isText next rest separated
  refine ⟨last, ?_⟩
  cases text with
  | nil => exact absurd rfl nonempty
  | cons c text =>
    have isNeg : scanOne L start '!' (c :: text ++ rest) =
        ⟨[⟨.neg, start⟩], [], c :: text ++ rest⟩ := by
      simp only [scanOne, cons_append]
      unfold scanNeg
      split
      · simp_all
      · simp_all
      · rfl
    rw [cons_append, isTypes, isNeg, isRest]
    rfl

theorem renders_eq : Renders L ['=', '='] [.eq false] := by
  apply renders_of_scanOne
  intro start rest separated
  refine ⟨start, ?_⟩
  cases rest with
  | nil => rfl
  | cons c rest =>
    rw [separated.ne]
    rfl

theorem renders_notEq : Renders L ['!', '='] [.notEq false] := by
  apply renders_of_scanOne
  intro start rest separated
  refine ⟨start, ?_⟩
  cases rest with
  | nil => rfl
  | cons c rest =>
    rw [separated.ne]
    rfl

theorem renders_and : Renders L ['&', '&'] [.and] := by
  apply renders_of_scanOne
  intro start rest separated
  exact ⟨start, rfl⟩

theorem renders_or : Renders L ['|', '|'] [.or] := by
  apply renders_of_scanOne
  intro start rest separated
  exact ⟨start, rfl⟩

theorem renders_quoted {text : String} (noQuote : '\'' ∉ text.toList) :
    Renders L ('\'' :: (text.toList ++ ['\''])) [.quotedStr text] := by
  apply renders_of_scanOne
  intro start rest separated
  refine ⟨start + 1, ?_⟩
  have others : ∀ c ∈ text.toList, decide (c ≠ '\'') = true := by
    intro c member
    rw [decide_eq_true_eq]
    rintro rfl
    exact noQuote member
  simp only [scanOne, scanQuotedString, append_assoc, cons_append, nil_append]
  rw [dropWhile_append_of_pos others, takeWhile_append_of_pos others]
  simp [addToken]

end Tokens

end CodeEditor.ContextKey
