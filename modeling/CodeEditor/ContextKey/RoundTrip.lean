import CodeEditor.ContextKey.Parser
import CodeEditor.ContextKey.Serialization

/-!
# Reading serialized expressions

What an expression is written as is read again, with the same value, where no conjunction in it
contains a disjunction.
-/

namespace CodeEditor.ContextKey

open Expression List Option

variable {N R : Type} {P : Platform N R}

/-! ## Tokens of literals -/

section Literals

variable (W : Writer N R) (L : Letters)

/-- A string value without single quotes. -/
def IsQuotable (value : Value N) : Prop :=
  ∃ s : String, value = .primitive (.string s) ∧ '\'' ∉ s.toList

/-- An atom of `has`, `not`, `equals`, `in`, `notIn` and their negations, with keys that are
identifiers and string values without single quotes. -/
def Atom.IsSimple : Atom P → Prop
  | .defined key => IsIdentifier L key.1
  | .not key => IsIdentifier L key.1
  | .equals key value => IsIdentifier L key.1 ∧ IsQuotable value.1
  | .notEquals key value => IsIdentifier L key.1 ∧ IsQuotable value.1
  | .isIn key valueKey => IsIdentifier L key ∧ IsIdentifier L valueKey
  | .notIn key valueKey => IsIdentifier L key ∧ IsIdentifier L valueKey
  | _ => False

/-- The types of the tokens of a simple atom. -/
def Atom.tokenTypes : Atom P → List TokenType
  | .defined key => [.str key.1]
  | .not key => [.neg, .str key.1]
  | .equals key value => [.str key.1, .eq false, .quotedStr (W.stringOf value.1)]
  | .notEquals key value => [.str key.1, .notEq false, .quotedStr (W.stringOf value.1)]
  | .isIn key valueKey => [.str key, .isIn, .quotedStr valueKey]
  | .notIn key valueKey => [.str key, .not, .isIn, .quotedStr valueKey]
  | _ => []

/-- The types of the tokens of a literal. -/
def literalTypes : Expression (Atom P) → List TokenType
  | falseExpr => [.false]
  | trueExpr => [.true]
  | atom a => a.tokenTypes W
  | _ => []

/-- The types of the tokens of a conjunction. -/
def conjunctionTypes (literals : List (Expression (Atom P))) : List TokenType :=
  [.and].intercalate (literals.map (literalTypes W))

/-- The types of the tokens of a disjunction. -/
def clausesTypes (clauses : List (List (Expression (Atom P)))) : List TokenType :=
  [.or].intercalate (clauses.map (conjunctionTypes W))

variable {W L}

theorem IsIdentifier.noQuote (identifier : IsIdentifier L key) : '\'' ∉ key.toList := by
  intro member
  have isString := identifier.isString _ member
  rw [isStringChar_eq_false (by decide) (by decide)] at isString
  cases isString

theorem IsQuotable.noQuote {value : Value N} (quotable : IsQuotable value) :
    '\'' ∉ (W.stringOf value).toList := by
  obtain ⟨s, rfl, noQuote⟩ := quotable
  rwa [W.stringOf_string]

/-- A key, an operator and a quoted string. -/
theorem renders_operation {key operator text : String}
    (identifier : IsIdentifier L key) (isOperator : Renders L operator.toList types)
    (noQuote : '\'' ∉ text.toList) :
    Renders L (key ++ " " ++ operator ++ " '" ++ text ++ "'").toList
      (.str key :: (types ++ [.quotedStr text])) := by
  have whole := identifier.renders.append (isOperator.append (renders_quoted noQuote))
  simpa [String.toList_append] using whole

theorem renders_atom {a : Atom P} (simple : a.IsSimple L) :
    Renders L (a.serialize W).toList (a.tokenTypes W) := by
  cases a with
  | defined key => exact simple.renders
  | not key =>
    have begins : ∀ c ∈ key.1.toList.head?, c ≠ '=' := by
      rintro c isHead rfl
      have isString := simple.isString _ (mem_of_mem_head? isHead)
      rw [isStringChar_eq_false (by decide) (by decide)] at isString
      cases isString
    simpa [Atom.serialize, Atom.tokenTypes, String.toList_append] using
      renders_neg simple.renders begins simple.nonempty
  | equals key value =>
    have operator : Renders L "==".toList [.eq false] := renders_eq
    have whole := renders_operation simple.1 operator (simple.2.noQuote (W := W))
    simpa [Atom.serialize, Atom.tokenTypes, String.append_assoc] using whole
  | notEquals key value =>
    have operator : Renders L "!=".toList [.notEq false] := renders_notEq
    have whole := renders_operation simple.1 operator (simple.2.noQuote (W := W))
    simpa [Atom.serialize, Atom.tokenTypes, String.append_assoc] using whole
  | regex key regexp => exact absurd simple id
  | notRegex key regexp => exact absurd simple id
  | isIn key valueKey =>
    have isKeyword : Renders L "in".toList [.isIn] :=
      renders_keyword (by decide) (by decide) (by decide)
    have whole := renders_operation simple.1 isKeyword simple.2.noQuote
    simpa [Atom.serialize, Atom.tokenTypes, String.append_assoc] using whole
  | notIn key valueKey =>
    have isNot : Renders L "not".toList [.not] :=
      renders_keyword (by decide) (by decide) (by decide)
    have isKeyword : Renders L "in".toList [.isIn] :=
      renders_keyword (by decide) (by decide) (by decide)
    have operator : Renders L "not in".toList [.not, .isIn] := isNot.append isKeyword
    have whole := renders_operation simple.1 operator simple.2.noQuote
    simpa [Atom.serialize, Atom.tokenTypes, String.append_assoc] using whole
  | comparison op key value => exact absurd simple id

theorem renders_literal {l : Expression (Atom P)} (literal : IsLiteral (Atom.IsSimple L) l) :
    Renders L (serialize W l).toList (literalTypes W l) := by
  cases literal with
  | falseExpr =>
    have isKeyword : Renders L "false".toList [.false] :=
      renders_keyword (by decide) (by decide) (by decide)
    exact isKeyword
  | trueExpr =>
    have isKeyword : Renders L "true".toList [.true] :=
      renders_keyword (by decide) (by decide) (by decide)
    exact isKeyword
  | atom simple => exact renders_atom simple

/-- Parts joined with an operator between blanks. -/
theorem renders_intercalate {β : Type} {operator : String} {type : TokenType}
    (isOperator : Renders L operator.toList [type]) {text : β → String}
    {types : β → List TokenType} {parts : List β} (nonempty : parts ≠ [])
    (each : ∀ b ∈ parts, Renders L (text b).toList (types b)) :
    Renders L ((" " ++ operator ++ " ").intercalate (parts.map text)).toList
      ([type].intercalate (parts.map types)) := by
  induction parts with
  | nil => exact absurd rfl nonempty
  | cons b parts ih =>
    have first := each b mem_cons_self
    by_cases isEmpty : parts = []
    · subst isEmpty
      simpa using first
    · have rest := ih isEmpty fun b member =>
        each b (mem_cons_of_mem _ member)
      have whole := first.append (isOperator.append rest)
      rw [map_cons, String.intercalate_cons_of_ne_nil (by simpa using isEmpty),
        map_cons, intercalate_cons_of_ne_nil (by simpa using isEmpty)]
      simpa [String.toList_append] using whole

/-- The tokens of a disjunction of conjunctions. -/
theorem renders_clauses {clauses : List (List (Expression (Atom P)))} (nonempty : clauses ≠ [])
    (isClause : ∀ literals ∈ clauses,
      literals ≠ [] ∧ ∀ l ∈ literals, IsLiteral (Atom.IsSimple L) l) :
    Renders L (clausesText W clauses).toList (clausesTypes W clauses) := by
  have isOr : Renders L "||".toList [.or] := renders_or
  apply renders_intercalate isOr nonempty
  intro literals member
  have isAnd : Renders L "&&".toList [.and] := renders_and
  apply renders_intercalate isAnd (isClause literals member).1
  intro l inLiterals
  exact renders_literal ((isClause literals member).2 l inLiterals)

end Literals

/-! ## Parsing the tokens -/

section Parsing

/-- A production returns, and where it ends. -/
def Returns {β : Type} (p : Parse β) (c : Cursor) (b : β) (c' : Cursor) : Prop :=
  (p.run c).run = some (.ok (b, c'))

theorem Returns.bind {β γ : Type} {p : Parse β} {f : β → Parse γ} {c c' c'' : Cursor} {b : β}
    {result : γ} (first : Returns p c b c') (second : Returns (f b) c' result c'') :
    Returns (p >>= f) c result c'' := by
  unfold Returns at first second ⊢
  rw [StateT.run_bind, ExceptT.run_bind, first]
  exact second

/-- The types of the tokens from the current one on. -/
def Cursor.types (c : Cursor) : List TokenType := c.rest.map Token.type

variable {types : List TokenType} {c : Cursor} {type : TokenType}

theorem Cursor.exists_of_types (isTypes : c.types = type :: types) :
    ∃ previous offset rest, c = ⟨previous, ⟨type, offset⟩ :: rest⟩ ∧
      rest.map Token.type = types := by
  obtain ⟨previous, tokens⟩ := c
  obtain ⟨⟨tokenType, offset⟩, rest, isTokens, isType, isRest⟩ := map_eq_cons_iff.mp isTypes
  cases isType
  cases isTokens
  exact ⟨previous, offset, rest, rfl, isRest⟩

variable {previous : Option Token} {rest : List Token}

theorem Cursor.advance_cons {token : Token} (notEnd : token.type ≠ .eof) :
    Cursor.advance ⟨previous, token :: rest⟩ = ⟨some token, rest⟩ := by
  simp [advance, isAtEnd, peek, notEnd]

theorem returns_matchOne (isTypes : c.types = type :: types) (notEnd : type ≠ .eof) :
    ∃ c', Returns (Parse.matchOne type) c true c' ∧ c'.types = types := by
  obtain ⟨previous, offset, rest, rfl, isRest⟩ := Cursor.exists_of_types isTypes
  refine ⟨Cursor.advance ⟨previous, ⟨type, offset⟩ :: rest⟩, ?_, ?_⟩
  · unfold Returns Parse.matchOne
    simp [Parse.peek, Parse.advance, Cursor.peek]
  · rw [Cursor.advance_cons notEnd]
    exact isRest

theorem returns_not_matchOne {type other : TokenType} (isTypes : c.types = type :: types)
    (differs : type ≠ other) : Returns (Parse.matchOne other) c false c := by
  obtain ⟨previous, offset, rest, rfl, isRest⟩ := Cursor.exists_of_types isTypes
  unfold Returns Parse.matchOne
  simp [Parse.peek, Cursor.peek, differs]

variable {W : Writer N R} {reader : Reader R} {config : ParserConfig}

/-- What stands behind a literal, and behind a conjunction. -/
def EndsLiteral (type : TokenType) : Prop := type = .and ∨ type = .or ∨ type = .eof

theorem returns_primary {token : Token} (notNeg : token.type ≠ .neg)
    {e : Option (Expression (Atom P))}
    (returned : Returns (config.primary P reader) ⟨previous, token :: rest⟩ e c) :
    Returns (config.term P reader) ⟨previous, token :: rest⟩ e c := by
  have isTypes : Cursor.types ⟨previous, token :: rest⟩ = token.type :: rest.map Token.type := rfl
  rw [ParserConfig.term.eq_def]
  exact (returns_not_matchOne isTypes notNeg).bind returned

/-- A primary that begins with a key. -/
theorem returns_keyed {key : String} {offset : Nat} {e : Expression (Atom P)}
    (returned : Returns (Parse.keyed P reader config key) ⟨some ⟨.str key, offset⟩, rest⟩ e c) :
    Returns (config.term P reader) ⟨previous, ⟨.str key, offset⟩ :: rest⟩ (some e) c := by
  apply returns_primary
  · exact TokenType.noConfusion
  · rw [ParserConfig.primary.eq_def]
    have isBehind : Returns (do
        let expr ← Parse.keyed P reader config key
        return some expr : Parse (Option (Expression (Atom P)))) ⟨some ⟨.str key, offset⟩, rest⟩
        (some e) c := returned.bind rfl
    exact isBehind

/-- A key, an operator and a quoted string. -/
theorem returns_operation {key text : String} {operator : TokenType} {e : Expression (Atom P)}
    (isTypes : c.types = .str key :: operator :: .quotedStr text :: types)
    (isResult : ∀ previous first second rest, Returns (Parse.keyed P reader config key)
        ⟨previous, ⟨operator, first⟩ :: ⟨.quotedStr text, second⟩ :: rest⟩ e
        ⟨some ⟨.quotedStr text, second⟩, rest⟩) :
    ∃ c', Returns (config.term P reader) c (some e) c' ∧ c'.types = types := by
  obtain ⟨previous, offset, rest, rfl, isRest⟩ := Cursor.exists_of_types isTypes
  obtain ⟨⟨_, first⟩, behind, rfl, rfl, isBehind⟩ := map_eq_cons_iff.mp isRest
  obtain ⟨⟨_, second⟩, last, rfl, isText, isLast⟩ := map_eq_cons_iff.mp isBehind
  cases isText
  exact ⟨⟨some ⟨.quotedStr text, second⟩, last⟩, returns_keyed (isResult _ _ _ _), isLast⟩

theorem definedCreate_key (key : Key P) : definedCreate P key.1 = .atom (.defined key) :=
  negateExpr_eq (.not key)

theorem notCreate_key (key : Key P) : notCreate P key.1 = .atom (.not key) :=
  negateExpr_eq (.defined key)

theorem equalsCreate_key (key : Key P) (value : Comparand N) :
    equalsCreate P key.1 value.1 = .atom (.equals key value) :=
  negateExpr_eq (.notEquals key value)

theorem notEqualsCreate_key (key : Key P) (value : Comparand N) :
    notEqualsCreate P key.1 value.1 = .atom (.notEquals key value) :=
  negateExpr_eq (.equals key value)

/-- The text of a string value is the string. -/
theorem IsQuotable.text_eq {value : Value N} (quotable : IsQuotable value) :
    Atom.text (W.stringOf value) = value := by
  obtain ⟨s, rfl, -⟩ := quotable
  rw [W.stringOf_string]
  rfl

theorem returns_atom {a : Atom P} (simple : a.IsSimple L)
    (isTypes : c.types = a.tokenTypes W ++ type :: types) (ends : EndsLiteral type) :
    ∃ c', Returns (config.term P reader) c (some (.atom a)) c' ∧
      c'.types = type :: types := by
  cases a with
  | defined key =>
    obtain ⟨previous, offset, rest, rfl, isRest⟩ := Cursor.exists_of_types isTypes
    refine ⟨⟨some ⟨.str key.1, offset⟩, rest⟩, ?_, isRest⟩
    apply returns_keyed
    rw [← definedCreate_key]
    obtain ⟨⟨_, _⟩, behind, rfl, rfl, -⟩ := map_eq_cons_iff.mp isRest
    obtain rfl | rfl | rfl := ends <;> rfl
  | not key =>
    obtain ⟨previous, offset, rest, rfl, isRest⟩ := Cursor.exists_of_types isTypes
    obtain ⟨⟨_, second⟩, behind, rfl, isKey, isBehind⟩ := map_eq_cons_iff.mp isRest
    cases isKey
    refine ⟨⟨some ⟨.str key.1, second⟩, behind⟩, ?_, isBehind⟩
    rw [ParserConfig.term.eq_def, ← notCreate_key]
    rfl
  | equals key value =>
    apply returns_operation isTypes
    intro previous first second rest
    have isCreated : equalsCreate P key.1 (Atom.text (W.stringOf value.1)) =
        .atom (.equals key value) := by
      rw [simple.2.text_eq, equalsCreate_key]
    rw [← isCreated]
    rfl
  | notEquals key value =>
    apply returns_operation isTypes
    intro previous first second rest
    have isCreated : notEqualsCreate P key.1 (Atom.text (W.stringOf value.1)) =
        .atom (.notEquals key value) := by
      rw [simple.2.text_eq, notEqualsCreate_key]
    rw [← isCreated]
    rfl
  | regex key regexp => exact absurd simple id
  | notRegex key regexp => exact absurd simple id
  | isIn key valueKey =>
    apply returns_operation isTypes
    intro previous first second rest
    rfl
  | notIn key valueKey =>
    obtain ⟨previous, offset, rest, rfl, isRest⟩ := Cursor.exists_of_types isTypes
    obtain ⟨⟨_, _⟩, behind, rfl, rfl, isBehind⟩ := map_eq_cons_iff.mp isRest
    obtain ⟨⟨_, _⟩, text, rfl, rfl, isText⟩ := map_eq_cons_iff.mp isBehind
    obtain ⟨⟨_, third⟩, last, rfl, isValue, isLast⟩ := map_eq_cons_iff.mp isText
    cases isValue
    refine ⟨⟨some ⟨.quotedStr valueKey, third⟩, last⟩, returns_keyed ?_, isLast⟩
    rfl
  | comparison op key value => exact absurd simple id

variable (reader config) in
/-- A literal is read as itself. -/
theorem returns_literal (literal : IsLiteral (Atom.IsSimple L) l)
    (isTypes : c.types = literalTypes W l ++ type :: types) (ends : EndsLiteral type) :
    ∃ c', Returns (config.term P reader) c (some l) c' ∧ c'.types = type :: types := by
  cases literal with
  | falseExpr =>
    obtain ⟨previous, offset, rest, rfl, isRest⟩ := Cursor.exists_of_types isTypes
    refine ⟨⟨some ⟨.false, offset⟩, rest⟩, returns_primary TokenType.noConfusion ?_, isRest⟩
    rw [ParserConfig.primary.eq_def]
    rfl
  | trueExpr =>
    obtain ⟨previous, offset, rest, rfl, isRest⟩ := Cursor.exists_of_types isTypes
    refine ⟨⟨some ⟨.true, offset⟩, rest⟩, returns_primary TokenType.noConfusion ?_, isRest⟩
    rw [ParserConfig.primary.eq_def]
    rfl
  | atom simple => exact returns_atom simple isTypes ends

/-! ### Conjunctions and disjunctions -/

theorem intercalate_cons_eq {β : Type} (separator : β) (first : List β) (rest : List (List β)) :
    [separator].intercalate (first :: rest) = first ++ rest.flatMap (separator :: ·) := by
  induction rest generalizing first with
  | nil => simp
  | cons second rest ih =>
    rw [intercalate_cons_cons, ih]
    simp

theorem IsLiteral.valid {L : Letters} {v : Atom P → Bool} {l : Expression (Atom P)}
    (literal : IsLiteral (Atom.IsSimple L) l) : Valid (Atom.IsSimple L) v l := by
  cases literal with
  | falseExpr => exact .falseExpr
  | trueExpr => exact .trueExpr
  | atom simple => exact .atom simple

/-- A conjunction of literals. -/
def IsClause (L : Letters) (literals : List (Expression (Atom P))) : Prop :=
  literals ≠ [] ∧ ∀ l ∈ literals, IsLiteral (Atom.IsSimple L) l

section Loops

variable {L : Letters} {v : Atom P → Bool} (sound : SoundAtoms (atoms P) (Atom.IsSimple L) v)

include sound

variable {expr : List (Expression (Atom P))}

/-- `ContextKeyExpr.and` of the expressions that the loop has read. -/
theorem andOf_valid (nonempty : expr ≠ []) (elements : ∀ e ∈ expr, Valid (Atom.IsSimple L) v e) :
    ∃ e, Parse.andOf P (expr.map some) = some (some e) ∧ Valid (Atom.IsSimple L) v e ∧
      evaluate v e = expr.all (evaluate v) := by
  match expr with
  | [] => exact absurd rfl nonempty
  | [e] => exact ⟨e, rfl, elements e mem_cons_self, by simp⟩
  | _ :: _ :: _ => exact andCreate_valid sound nonempty elements true

/-- `ContextKeyExpr.or` of the expressions that the loop has read. -/
theorem orOf_valid (nonempty : expr ≠ []) (elements : ∀ e ∈ expr, Valid (Atom.IsSimple L) v e) :
    ∃ e, Parse.orOf P (expr.map some) = some (some e) ∧ Valid (Atom.IsSimple L) v e ∧
      evaluate v e = expr.any (evaluate v) := by
  match expr with
  | [] => exact absurd rfl nonempty
  | [e] => exact ⟨e, rfl, elements e mem_cons_self, by simp⟩
  | _ :: _ :: _ => exact orCreate_valid sound nonempty elements true

omit sound in
/-- What stands behind a part is the operator, or what stands behind all parts. -/
theorem exists_behind {β : Type} (operator type : TokenType) (parts : List β)
    (f : β → List TokenType) (types : List TokenType) :
    ∃ next rest, parts.flatMap (fun b => operator :: f b) ++ type :: types = next :: rest ∧
      (next = operator ∨ next = type) := by
  cases parts with
  | nil => exact ⟨type, types, rfl, .inr rfl⟩
  | cons b parts => exact ⟨operator, _, rfl, .inl rfl⟩

variable {literals : List (Expression (Atom P))} {before : List (Expression (Atom P))}

omit sound in
variable (reader config) in
/-- A literal is read up to the other literals of its conjunction. -/
theorem returns_nextLiteral (literal : IsLiteral (Atom.IsSimple L) l)
    (isTypes : c.types = literalTypes W l ++
      (literals.flatMap (fun l => .and :: literalTypes W l) ++ type :: types))
    (ends : type = .or ∨ type = .eof) : ∃ c', Returns (config.term P reader) c (some l) c' ∧
      c'.types = literals.flatMap (fun l => .and :: literalTypes W l) ++ type :: types := by
  obtain ⟨next, rest, isNext, isEnd⟩ := exists_behind .and type literals (literalTypes W) types
  rw [isNext] at isTypes ⊢
  refine returns_literal reader config literal isTypes ?_
  obtain rfl | rfl := isEnd
  · exact .inl rfl
  · exact .inr ends

/-- The loop of `_and` reads the other literals of a conjunction. -/
theorem returns_andLoop (isLiteral : ∀ l ∈ literals, IsLiteral (Atom.IsSimple L) l)
    (nonempty : before ≠ []) (elements : ∀ e ∈ before, Valid (Atom.IsSimple L) v e)
    (isTypes : c.types = literals.flatMap (fun l => .and :: literalTypes W l) ++ type :: types)
    (ends : type = .or ∨ type = .eof) :
    ∃ e c', Returns (config.andLoop P reader (before.map some)) c (some e) c' ∧
      c'.types = type :: types ∧ Valid (Atom.IsSimple L) v e ∧
      evaluate v e = (before.all (evaluate v) && literals.all (evaluate v)) := by
  induction literals generalizing before c with
  | nil =>
    obtain ⟨e, isCreated, valid, isValue⟩ := andOf_valid sound nonempty elements
    refine ⟨e, c, ?_, isTypes, valid, by simp [isValue]⟩
    have notAnd : type ≠ .and := by
      obtain rfl | rfl := ends <;> exact TokenType.noConfusion
    rw [ParserConfig.andLoop.eq_def]
    apply (returns_not_matchOne isTypes notAnd).bind
    simp only [Bool.false_eq_true, ↓reduceIte, isCreated]
    rfl
  | cons l literals ih =>
    have literal := isLiteral l mem_cons_self
    rw [flatMap_cons, append_assoc, cons_append] at isTypes
    obtain ⟨atLiteral, isMatched, literalAt⟩ := returns_matchOne isTypes TokenType.noConfusion
    obtain ⟨behind, isRead, behindTypes⟩ :=
      returns_nextLiteral reader config literal literalAt ends
    have grown : ∀ e ∈ before ++ [l], Valid (Atom.IsSimple L) v e :=
      forall_mem_append.mpr ⟨elements, forall_mem_singleton.mpr literal.valid⟩
    obtain ⟨e, c', isLoop, endTypes, valid, isValue⟩ := ih
      (fun l member => isLiteral l (mem_cons_of_mem _ member)) (by simp) grown behindTypes
    refine ⟨e, c', ?_, endTypes, valid, ?_⟩
    · rw [ParserConfig.andLoop.eq_def]
      apply isMatched.bind
      apply isRead.bind
      simpa using isLoop
    · rw [isValue]
      simp [Bool.and_assoc]

variable (reader config) in
/-- `_and` reads a conjunction of literals. -/
theorem returns_and (nonempty : literals ≠ [])
    (isLiteral : ∀ l ∈ literals, IsLiteral (Atom.IsSimple L) l)
    (isTypes : c.types = conjunctionTypes W literals ++ type :: types)
    (ends : type = .or ∨ type = .eof) :
    ∃ e c', Returns (config.and P reader) c (some e) c' ∧ c'.types = type :: types ∧
      Valid (Atom.IsSimple L) v e ∧ evaluate v e = literals.all (evaluate v) := by
  cases literals with
  | nil => exact absurd rfl nonempty
  | cons l literals =>
    have literal := isLiteral l mem_cons_self
    rw [conjunctionTypes, map_cons, intercalate_cons_eq, flatMap_map, append_assoc] at isTypes
    obtain ⟨behind, isRead, behindTypes⟩ :=
      returns_nextLiteral reader config literal isTypes ends
    obtain ⟨e, c', isLoop, endTypes, valid, isValue⟩ := returns_andLoop sound
      (fun l member => isLiteral l (mem_cons_of_mem _ member)) (cons_ne_nil l [])
      (by simpa using literal.valid) behindTypes ends
    refine ⟨e, c', ?_, endTypes, valid, ?_⟩
    · rw [ParserConfig.and.eq_def]
      exact isRead.bind isLoop
    · rw [isValue]
      simp

variable {clauses : List (List (Expression (Atom P)))}

/-- The loop of `_or` reads the other conjunctions. -/
theorem returns_orLoop (isClause : ∀ literals ∈ clauses, IsClause L literals)
    (nonempty : before ≠ []) (elements : ∀ e ∈ before, Valid (Atom.IsSimple L) v e)
    (isTypes : c.types =
      clauses.flatMap (fun literals => .or :: conjunctionTypes W literals) ++ [.eof]) :
    ∃ e c', Returns (config.orLoop P reader (before.map some)) c (some e) c' ∧
      c'.types = [.eof] ∧ evaluate v e = (before.any (evaluate v) ||
        clauses.any fun literals => literals.all (evaluate v)) := by
  induction clauses generalizing before c with
  | nil =>
    obtain ⟨e, isCreated, valid, isValue⟩ := orOf_valid sound nonempty elements
    refine ⟨e, c, ?_, isTypes, by simp [isValue]⟩
    rw [ParserConfig.orLoop.eq_def]
    apply (returns_not_matchOne isTypes TokenType.noConfusion).bind
    simp only [Bool.false_eq_true, ↓reduceIte, isCreated]
    rfl
  | cons literals clauses ih =>
    have clause := isClause literals mem_cons_self
    rw [flatMap_cons, append_assoc, cons_append] at isTypes
    obtain ⟨atClause, isMatched, clauseAt⟩ := returns_matchOne isTypes TokenType.noConfusion
    obtain ⟨next, rest, isNext, isEnd⟩ :=
      exists_behind .or .eof clauses (conjunctionTypes W) []
    rw [isNext] at clauseAt
    obtain ⟨first, behind, isRead, behindTypes, validFirst, firstValue⟩ :=
      returns_and reader config sound clause.1 clause.2 clauseAt isEnd
    rw [← isNext] at behindTypes
    have grown : ∀ e ∈ before ++ [first], Valid (Atom.IsSimple L) v e :=
      forall_mem_append.mpr ⟨elements, forall_mem_singleton.mpr validFirst⟩
    obtain ⟨e, c', isLoop, endTypes, isValue⟩ := ih
      (fun literals member => isClause literals (mem_cons_of_mem _ member)) (by simp) grown
      behindTypes
    refine ⟨e, c', ?_, endTypes, ?_⟩
    · rw [ParserConfig.orLoop.eq_def]
      apply isMatched.bind
      apply isRead.bind
      simpa using isLoop
    · rw [isValue]
      simp [firstValue, Bool.or_assoc]

variable (reader config) in
/-- `_or` reads a disjunction of conjunctions. -/
theorem returns_or (nonempty : clauses ≠ [])
    (isClause : ∀ literals ∈ clauses, IsClause L literals) (c : Cursor)
    (isTypes : c.types = clausesTypes W clauses ++ [.eof]) :
    ∃ e c', Returns (config.or P reader) c (some e) c' ∧ c'.types = [.eof] ∧
      evaluate v e = clauses.any fun literals => literals.all (evaluate v) := by
  cases clauses with
  | nil => exact absurd rfl nonempty
  | cons literals clauses =>
    have clause := isClause literals mem_cons_self
    rw [clausesTypes, map_cons, intercalate_cons_eq, flatMap_map, append_assoc] at isTypes
    obtain ⟨next, rest, isNext, isEnd⟩ :=
      exists_behind .or .eof clauses (conjunctionTypes W) []
    rw [isNext] at isTypes
    obtain ⟨first, behind, isRead, behindTypes, validFirst, firstValue⟩ :=
      returns_and reader config sound clause.1 clause.2 isTypes isEnd
    rw [← isNext] at behindTypes
    obtain ⟨e, c', isLoop, endTypes, isValue⟩ := returns_orLoop sound
      (fun literals member => isClause literals (mem_cons_of_mem _ member))
      (cons_ne_nil first []) (by simpa using validFirst) behindTypes
    refine ⟨e, c', ?_, endTypes, ?_⟩
    · rw [ParserConfig.or.eq_def]
      exact isRead.bind isLoop
    · rw [isValue]
      simp [firstValue]

end Loops

theorem typesFrom_nil (L : Letters) (start : Nat) : typesFrom L start [] = [.eof] := by
  rw [typesFrom, scan]
  rfl

theorem literalTypes_ne_nil {L : Letters} {l : Expression (Atom P)}
    (literal : IsLiteral (Atom.IsSimple L) l) : literalTypes W l ≠ [] := by
  cases literal with
  | falseExpr => exact cons_ne_nil _ _
  | trueExpr => exact cons_ne_nil _ _
  | @atom a simple =>
    cases a <;> simp_all [literalTypes, Atom.tokenTypes, Atom.IsSimple]

theorem clausesTypes_ne_nil {clauses : List (List (Expression (Atom P)))}
    (nonempty : clauses ≠ []) (isClause : ∀ literals ∈ clauses, IsClause L literals) :
    clausesTypes W clauses ≠ [] := by
  obtain ⟨literals, clauses, rfl⟩ := exists_cons_of_ne_nil nonempty
  obtain ⟨isNonempty, isLiteral⟩ := isClause literals mem_cons_self
  obtain ⟨l, literals, rfl⟩ := exists_cons_of_ne_nil isNonempty
  rw [clausesTypes, map_cons, intercalate_cons_eq, conjunctionTypes, map_cons, intercalate_cons_eq]
  simp [literalTypes_ne_nil (isLiteral l mem_cons_self)]

variable (reader)

/-- A disjunction of conjunctions of literals is read with its value. -/
theorem deserialize_clauses {v : Atom P → Bool}
    (sound : SoundAtoms (atoms P) (Atom.IsSimple reader.toLetters) v)
    {clauses : List (List (Expression (Atom P)))} (nonempty : clauses ≠ [])
    (isClause : ∀ literals ∈ clauses, IsClause reader.toLetters literals) :
    ∃ e, deserialize P reader (clausesText W clauses) = some (some e) ∧
      evaluate v e = clauses.any fun literals => literals.all (evaluate v) := by
  obtain ⟨next, isTypes⟩ := renders_clauses nonempty isClause (W := W) 0 [] (by simp [Separated])
  rw [append_nil, typesFrom_nil] at isTypes
  have notEmpty : clausesText W clauses ≠ "" := by
    intro isEmpty
    rw [isEmpty] at isTypes
    have isEnd : typesFrom reader.toLetters 0 "".toList = [.eof] := typesFrom_nil _ 0
    rw [isEnd] at isTypes
    have lengths := congrArg List.length isTypes
    rw [length_append, length_singleton] at lengths
    apply clausesTypes_ne_nil (W := W) nonempty isClause
    apply eq_nil_of_length_eq_zero
    omega
  obtain ⟨e, c, returned, endTypes, isValue⟩ :=
    returns_or reader ⟨false⟩ sound nonempty isClause
      ⟨none, (scan reader.toLetters 0 (clausesText W clauses).toList).1⟩ isTypes
  refine ⟨e, ?_, isValue⟩
  have isWhole : Returns (Parse.whole P reader ⟨false⟩)
      ⟨none, (scan reader.toLetters 0 (clausesText W clauses).toList).1⟩ (some e) c := by
    apply returned.bind
    obtain ⟨previous, offset, rest, rfl, isRest⟩ := Cursor.exists_of_types endTypes
    rfl
  unfold Returns at isWhole
  rw [deserialize, parse, if_neg notEmpty]
  change Option.bind (Option.bind ((Parse.whole P reader ⟨false⟩).run _).run _) _ = _
  rw [isWhole]
  rfl

end Parsing

/-! ## Round trips -/

section RoundTrip

variable [LinearOrder N] [Zero N]

theorem soundAtoms_isSimple (L : Letters) (context : String → Value N) :
    SoundAtoms (atoms P) (Atom.IsSimple L) (Atom.evaluate context) := by
  apply soundAtoms
  · intro a simple
    cases a <;> simp_all [Atom.IsSimple, Atom.negate]
  · intro a simple
    cases a <;> simp_all [Atom.IsSimple, Atom.IsNumeric]
  · intro a b simple _ key first second isPattern
    cases a <;> simp_all [Atom.IsSimple, Atom.pattern?]

/-- What an expression is written as is read again, as an expression with the same values. -/
def ReadsBack (W : Writer N R) (reader : Reader R) (e : Expression (Atom P)) : Prop :=
  ∃ read, deserialize P reader (serialize W e) = some (some read) ∧
    ∀ context : String → Value N,
      evaluate (Atom.evaluate context) read = evaluate (Atom.evaluate context) e

/-- The text of an expression that is written as clauses is read with the value of the clauses,
in every context. -/
theorem exists_read (reader : Reader R)
    {clauses : List (List (Expression (Atom P)))} (nonempty : clauses ≠ [])
    (isClause : ∀ literals ∈ clauses, IsClause reader.toLetters literals) :
    ∃ read, deserialize P reader (clausesText W clauses) = some (some read) ∧
      ∀ context : String → Value N, evaluate (Atom.evaluate context) read =
        clauses.any fun literals => literals.all (evaluate (Atom.evaluate context)) := by
  obtain ⟨read, isRead, -⟩ := deserialize_clauses (W := W) reader
    (soundAtoms_isSimple _ fun _ => .primitive .undefined) nonempty isClause
  refine ⟨read, isRead, ?_⟩
  intro context
  obtain ⟨other, isOther, isValue⟩ := deserialize_clauses (W := W) reader
    (soundAtoms_isSimple _ context) nonempty isClause
  rw [isRead] at isOther
  cases isOther
  exact isValue

end RoundTrip

/-! ## A conjunction that contains a disjunction -/

section Pairs

variable {α : Type} {A : Atoms α} {first second : Expression α}

theorem negate_atom {α : Type} (A : Atoms α) (a : α) :
    negate A (.atom a) = some (.atom (A.negate a)) := by
  rw [negate.eq_def]

theorem isRedundant_pair (isNegated : negate A first = some negated)
    (differ : equals A negated second = false) :
    isRedundant A true [first, second] = some false := by
  rw [Atoms.isRedundant.eq_def, if_pos rfl, Atoms.hasNegation.eq_def]
  simp only [isNegated, bind_eq_bind, bind_some, any_cons, any_nil, differ,
    Bool.or_false, Bool.false_eq_true, ↓reduceIte]
  rw [Atoms.hasNegation.eq_def]

theorem orCreate_pair (isGathered : gatherOr A [some first, some second] = .terms [first, second])
    (check : isRedundant A true [first, second] = some false) :
    orCreate A [some first, some second] none true = some (some (.or [first, second] none)) := by
  rw [Atoms.orCreate.eq_def, isGathered]
  simp [check]

theorem andCreate_pair (isGathered : gatherAnd A [some first, some second] = .terms [first, second])
    (notOr : second.disjuncts = none)
    (check : isRedundant A extraRedundantCheck [first, second] = some false) :
    andCreate A [some first, some second] none extraRedundantCheck =
      some (some (.and [first, second] none)) := by
  have isDistributed : distribute A extraRedundantCheck [first, second] = some [first, second] := by
    rw [Atoms.distribute.eq_def]
    cases second <;> first | rfl | cases notOr
  rw [Atoms.andCreate.eq_def, isGathered]
  simp [isDistributed, single?, check]

end Pairs

/-- Two elements that are in order, are not left out, and differ. -/
theorem gather_pair {isNeutral isAbsorbing : Expression (Atom naturalPlatform) → Bool}
    {nested : Expression (Atom naturalPlatform) → Option (List (Expression (Atom naturalPlatform)))}
    (isFirst : isNeutral first = false ∧ isAbsorbing first = false ∧ nested first = none)
    (isSecond : isNeutral second = false ∧ isAbsorbing second = false ∧ nested second = none)
    (ordered : cmp (atoms naturalPlatform) first second ≤ 0)
    (differ : equals (atoms naturalPlatform) first second = false) :
    gather (atoms naturalPlatform) isNeutral isAbsorbing nested neutral absorbing
      [some first, some second] = .terms [first, second] := by
  have isSorted : (atoms naturalPlatform).sort (cmp (atoms naturalPlatform)) [first, second] =
      [first, second] := by
    apply mergeSort_of_pairwise
    simpa using ordered
  have isUnique : eliminateDuplicates (atoms naturalPlatform) [first, second] =
      [first, second] := by
    rw [eliminateDuplicates, if_neg (by simp [differ]), eliminateDuplicates]
    simp
  simp [gather, collect, isFirst, isSecond, isSorted, isUnique]

/-- `a` -/
def sampleA : Atom naturalPlatform := .defined (naturalKey "a" constantValue_a)

/-- `b` -/
def sampleB : Atom naturalPlatform := .defined (naturalKey "b" constantValue_b)

/-- `c in d` -/
def sampleIn : Atom naturalPlatform := .isIn "c" "d"

/-- `a || b` -/
def sampleOr : Expression (Atom naturalPlatform) := .or [.atom sampleA, .atom sampleB] none

/-- `(a || b) && c in d` -/
def sampleAnd : Expression (Atom naturalPlatform) := .and [sampleOr, .atom sampleIn] none

theorem orCreate_sample :
    orCreate (atoms naturalPlatform) [some (.atom sampleA), some (.atom sampleB)] none true =
      some (some sampleOr) := by
  apply orCreate_pair
  · apply gather_pair ⟨rfl, rfl, rfl⟩ ⟨rfl, rfl, rfl⟩
    · decide
    · decide
  · apply isRedundant_pair (negate_atom _ sampleA)
    decide

/-- `!a && !b` -/
def sampleNor : Expression (Atom naturalPlatform) :=
  .and [.atom sampleA.negate, .atom sampleB.negate] none

theorem andCreate_nor :
    andCreate (atoms naturalPlatform) [some (.atom sampleA.negate),
      some (.atom sampleB.negate)] none
      false = some (some sampleNor) := by
  apply andCreate_pair
  · apply gather_pair ⟨rfl, rfl, rfl⟩ ⟨rfl, rfl, rfl⟩
    · decide
    · decide
  · rfl
  · rw [Atoms.isRedundant.eq_def]
    rfl

theorem orCreate_nor (negated : Option (Expression (Atom naturalPlatform))) (check : Bool) :
    orCreate (atoms naturalPlatform) [some sampleNor] negated check = some (some sampleNor) := by
  rw [Atoms.orCreate.eq_def]
  rfl

theorem negate_sampleOr : negate (atoms naturalPlatform) sampleOr = some sampleNor := by
  have isDistributed : distributeNegated (atoms naturalPlatform)
      [.atom sampleA.negate, .atom sampleB.negate] = some [sampleNor] := by
    rw [Atoms.distributeNegated.eq_def]
    simp only [getTerminals, disjuncts, getD_none, flatMap_cons, flatMap_nil,
      map_cons, map_nil, append_nil, mapM_cons, mapM_nil, andCreate_nor,
      pure, bind_eq_bind, bind_some, orCreate_nor]
    rw [Atoms.distributeNegated.eq_def]
  rw [sampleOr, negate.eq_def]
  have isNegated : [Expression.atom sampleA, .atom sampleB].mapM (negate (atoms naturalPlatform)) =
      some [.atom sampleA.negate, .atom sampleB.negate] := by
    simp only [mapM_cons, mapM_nil, negate_atom]
    rfl
  simp only [isNegated, isDistributed, bind_eq_bind, bind_some, map_cons, map_nil, orCreate_nor]

theorem andCreate_sample :
    andCreate (atoms naturalPlatform) [some sampleOr, some (.atom sampleIn)] none true =
      some (some sampleAnd) := by
  apply andCreate_pair
  · apply gather_pair ⟨rfl, rfl, rfl⟩ ⟨rfl, rfl, rfl⟩
    · decide
    · decide
  · rfl
  · apply isRedundant_pair negate_sampleOr
    decide

/-! ### Reading it -/

/-- ASCII letters, and regular expressions as their sources. -/
def naturalReader : Reader String where
  isLetter := Char.isAlpha
  ascii := by simp
  newRegExp source _ := some source

/-- Strings are their own texts, and numbers are written in decimal. -/
def naturalWriter : Writer Nat String where
  stringOf
    | .primitive (.string s) => s
    | .primitive (.number (some n)) => toString n
    | _ => ""
  stringOf_string _ := rfl
  flags _ := ""

theorem isSimple_sampleA : sampleA.IsSimple naturalReader.toLetters :=
  isIdentifier_of_head rfl rfl (by decide) rfl

theorem isSimple_sampleB : sampleB.IsSimple naturalReader.toLetters :=
  isIdentifier_of_head rfl rfl (by decide) rfl

theorem isSimple_sampleIn : sampleIn.IsSimple naturalReader.toLetters :=
  ⟨isIdentifier_of_head rfl rfl (by decide) rfl, isIdentifier_of_head rfl rfl (by decide) rfl⟩

theorem created_sampleOr
    (allowed : Bool → List (Option (Expression (Atom naturalPlatform))) → Prop) :
    Created (atoms naturalPlatform) (Atom.IsSimple naturalReader.toLetters) allowed sampleOr := by
  apply Created.orCreate _ orCreate_sample
  intro x member
  obtain isFirst | isSecond : x = .atom sampleA ∨ x = .atom sampleB := by
    simpa using member
  · rw [isFirst]
    exact .atom isSimple_sampleA
  · rw [isSecond]
    exact .atom isSimple_sampleB

theorem created_sampleAnd :
    Created (atoms naturalPlatform) (Atom.IsSimple naturalReader.toLetters) (fun _ _ => True)
      sampleAnd := by
  apply Created.andCreate _ trivial andCreate_sample
  intro x member
  obtain isFirst | isSecond : x = sampleOr ∨ x = .atom sampleIn := by
    simpa using member
  · rw [isFirst]
    exact created_sampleOr _
  · rw [isSecond]
    exact .atom isSimple_sampleIn

/-- `a && (a || b)` is distributed. -/
theorem allowed_sample :
    Allowed (atoms naturalPlatform) true [some (.atom sampleA), some sampleOr] := by
  intro terms isTerms
  have isGathered : gatherAnd (atoms naturalPlatform) [some (.atom sampleA), some sampleOr] =
      .terms [.atom sampleA, sampleOr] := by
    apply gather_pair ⟨rfl, rfl, rfl⟩ ⟨rfl, rfl, rfl⟩
    · decide
    · decide
  rw [isGathered] at isTerms
  cases isTerms
  have isLiteral : ∀ a : Atom naturalPlatform, DNF (fun _ => True) false (.atom a) :=
    fun _ => .atom trivial
  refine .step rfl ?_ ?_
  · intro el member
    refine allowed_of_dnf (p := fun _ => True) ?_
    obtain rfl | rfl : el = .atom sampleA ∨ el = .atom sampleB := by
      simpa using member
    all_goals simp [isLiteral]
  · intro elements resultElement _ _
    refine .stop (.inl ?_)
    cases resultElement with
    | none => exact Nat.zero_le 1
    | some resultElement => exact ((atoms naturalPlatform).sort_perm _ _).length_eq.le

end CodeEditor.ContextKey
