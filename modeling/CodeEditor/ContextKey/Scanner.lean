import CodeEditor.Foundation.Spans

/-!
# Scanning context key expressions

Model of `scanner.ts`. A text is a list of characters, and offsets count its UTF-16 code
units. Which characters are letters is a parameter.
-/

namespace CodeEditor.ContextKey

open List

/-- The characters that `\p{L}` matches; the first of them behind ASCII is U+00AA. -/
structure Letters where
  isLetter : Char → Bool
  ascii : ∀ c : Char, c.toNat < 0xaa → isLetter c = true → c.isAlpha = true

/-- The types of tokens, with the lexemes and flags that tokens have. -/
inductive TokenType
  | lParen
  | rParen
  | neg
  | eq (isTripleEq : Bool)
  | notEq (isTripleEq : Bool)
  | lt
  | ltEq
  | gt
  | gtEq
  | regexOp
  | regexStr (lexeme : String)
  | true
  | false
  | isIn
  | not
  | and
  | or
  | str (lexeme : String)
  | quotedStr (lexeme : String)
  | error (lexeme : String)
  | eof
  deriving DecidableEq

structure Token where
  type : TokenType
  offset : Nat
  deriving DecidableEq

structure LexingError where
  offset : Nat
  lexeme : String
  additionalInfo : Option String
  deriving DecidableEq

/-- `Scanner.getLexeme`; a token `>` has the text `>=` here. -/
def getLexeme (token : Token) : String :=
  match token.type with
  | .lParen => "("
  | .rParen => ")"
  | .neg => "!"
  | .eq isTripleEq => if isTripleEq then "===" else "=="
  | .notEq isTripleEq => if isTripleEq then "!==" else "!="
  | .lt => "<"
  | .ltEq => "<="
  | .gt => ">="
  | .gtEq => ">="
  | .regexOp => "=~"
  | .regexStr lexeme => lexeme
  | .true => "true"
  | .false => "false"
  | .isIn => "in"
  | .not => "not"
  | .and => "&&"
  | .or => "||"
  | .str lexeme => lexeme
  | .quotedStr lexeme => lexeme
  | .error lexeme => lexeme
  | .eof => "EOF"

/-- `Scanner._keywords`. -/
def keyword? (lexeme : String) : Option TokenType :=
  if lexeme = "not" then some .not
  else if lexeme = "in" then some .isIn
  else if lexeme = "false" then some .false
  else if lexeme = "true" then some .true
  else none

def hintDidYouMean1 (meant : String) : String := "Did you mean " ++ meant ++ "?"

def hintDidYouMean2 (meant other : String) : String :=
  "Did you mean " ++ meant ++ " or " ++ other ++ "?"

def hintDidYouForgetToOpenOrCloseQuote : String :=
  "Did you forget to open or close the quote?"

def hintDidYouForgetToEscapeSlash : String :=
  "Did you forget to escape the '/' (slash) character? " ++
    "Put two backslashes before it to escape, e.g., '\\\\/'."

/-- The number of code units of a text. -/
def unitCount (text : List Char) : Nat :=
  (text.map fun c => if c.toNat < 65536 then 1 else 2).sum

/-! ## One token -/

/-- What one round of the loop in `scan` adds, and the text behind it. -/
structure Scanned where
  tokens : List Token
  errors : List LexingError
  rest : List Char

section Scan

variable (L : Letters)

/-- The characters of `stringRe`. -/
def isStringChar (c : Char) : Bool :=
  c.isAlphanum || "_<>-./\\:*?+[]^,#@;\"%$".toList.contains c || L.isLetter c

def addToken (type : TokenType) (start : Nat) (rest : List Char) : Scanned :=
  ⟨[⟨type, start⟩], [], rest⟩

/-- `Scanner._error`. -/
def scanError (additional : String) (start : Nat) (lexeme rest : List Char) : Scanned :=
  ⟨[⟨.error (.ofList lexeme), start⟩], [⟨start, .ofList lexeme, some additional⟩], rest⟩

/-- `Scanner._string`; a character that is none of a string is skipped. -/
def scanString (start : Nat) (ch : Char) (rest : List Char) : Scanned :=
  if isStringChar L ch then
    let lexeme : String := .ofList (ch :: rest.takeWhile (isStringChar L))
    addToken ((keyword? lexeme).getD (.str lexeme)) start (rest.dropWhile (isStringChar L))
  else ⟨[], [], rest⟩

/-- `Scanner._quotedString`, behind the opening quote. -/
def scanQuotedString (start : Nat) (rest : List Char) : Scanned :=
  match rest.dropWhile (· ≠ '\'') with
  | [] => scanError hintDidYouForgetToOpenOrCloseQuote start ('\'' :: rest) []
  | _ :: behind => addToken (.quotedStr (.ofList (rest.takeWhile (· ≠ '\'')))) (start + 1) behind

/-- The first loop of `Scanner._regex`: the number of characters up to the closing slash. -/
def regexLength (inEscape inCharacterClass : Bool) : List Char → Option Nat
  | [] => none
  | ch :: rest =>
    if inEscape then (regexLength false inCharacterClass rest).map (· + 1)
    else if ch = '/' && !inCharacterClass then some 1
    else if ch = '[' then (regexLength false true rest).map (· + 1)
    else if ch = '\\' then (regexLength true inCharacterClass rest).map (· + 1)
    else if ch = ']' then (regexLength false false rest).map (· + 1)
    else (regexLength false inCharacterClass rest).map (· + 1)

/-- `Scanner._regexFlags`. -/
def isRegexFlag (c : Char) : Bool := "igsmyu".toList.contains c

/-- `Scanner._regex`, behind the opening slash. -/
def scanRegex (start : Nat) (rest : List Char) : Scanned :=
  match regexLength false false rest with
  | none => scanError hintDidYouForgetToEscapeSlash start ('/' :: rest) []
  | some length =>
    let behind := rest.drop length
    let lexeme : String := .ofList ('/' :: rest.take length ++ behind.takeWhile isRegexFlag)
    addToken (.regexStr lexeme) start (behind.dropWhile isRegexFlag)

/-- `!`, `!=` or `!==`. -/
def scanNeg (start : Nat) : List Char → Scanned
  | '=' :: '=' :: rest => addToken (.notEq true) start rest
  | '=' :: rest => addToken (.notEq false) start rest
  | rest => addToken .neg start rest

/-- `==`, `===` or `=~`. -/
def scanEq (start : Nat) : List Char → Scanned
  | '=' :: '=' :: rest => addToken (.eq true) start rest
  | '=' :: rest => addToken (.eq false) start rest
  | '~' :: rest => addToken .regexOp start rest
  | rest => scanError (hintDidYouMean2 "==" "=~") start ['='] rest

/-- `<`, `<=`, `>` or `>=`. -/
def scanBound (strict equal : TokenType) (start : Nat) : List Char → Scanned
  | '=' :: rest => addToken equal start rest
  | rest => addToken strict start rest

/-- `&&` or `||`. -/
def scanTwice (ch : Char) (type : TokenType) (start : Nat) (rest : List Char) : Scanned :=
  match rest with
  | [] => scanError (hintDidYouMean1 (.ofList [ch, ch])) start [ch] []
  | next :: behind =>
    if next = ch then addToken type start behind
    else scanError (hintDidYouMean1 (.ofList [ch, ch])) start [ch] rest

/-- A round of the loop in `scan`. -/
def scanOne (start : Nat) (ch : Char) (rest : List Char) : Scanned :=
  match ch with
  | '(' => addToken .lParen start rest
  | ')' => addToken .rParen start rest
  | '!' => scanNeg start rest
  | '\'' => scanQuotedString start rest
  | '/' => scanRegex start rest
  | '=' => scanEq start rest
  | '<' => scanBound .lt .ltEq start rest
  | '>' => scanBound .gt .gtEq start rest
  | '&' => scanTwice '&' .and start rest
  | '|' => scanTwice '|' .or start rest
  | ' ' | '\r' | '\t' | '\n' | '\u00a0' => ⟨[], [], rest⟩
  | ch => scanString L start ch rest

theorem length_rest_scanNeg (start : Nat) (rest : List Char) :
    (scanNeg start rest).rest.length ≤ rest.length := by
  unfold scanNeg
  split
  · simp only [addToken, length_cons]
    omega
  · simp only [addToken, length_cons]
    omega
  · simp [addToken]

theorem length_rest_scanEq (start : Nat) (rest : List Char) :
    (scanEq start rest).rest.length ≤ rest.length := by
  unfold scanEq
  split
  · simp only [addToken, length_cons]
    omega
  · simp only [addToken, length_cons]
    omega
  · simp [addToken]
  · simp [scanError]

theorem length_rest_scanBound (strict equal : TokenType) (start : Nat) (rest : List Char) :
    (scanBound strict equal start rest).rest.length ≤ rest.length := by
  unfold scanBound
  split
  · simp [addToken]
  · simp [addToken]

theorem length_rest_scanTwice (ch : Char) (type : TokenType) (start : Nat) (rest : List Char) :
    (scanTwice ch type start rest).rest.length ≤ rest.length := by
  unfold scanTwice
  split
  · simp [scanError]
  · split
    · simp [addToken]
    · simp [scanError]

theorem length_rest_scanQuotedString (start : Nat) (rest : List Char) :
    (scanQuotedString start rest).rest.length ≤ rest.length := by
  unfold scanQuotedString
  split
  · simp [scanError]
  · rename_i c behind isRest
    have shorter : (c :: behind).length ≤ rest.length := by
      rw [← isRest]
      apply length_dropWhile_le
    simp only [addToken]
    rw [length_cons] at shorter
    omega

theorem length_rest_scanRegex (start : Nat) (rest : List Char) :
    (scanRegex start rest).rest.length ≤ rest.length := by
  unfold scanRegex
  split
  · simp [scanError]
  · rename_i length isLength
    have shorter := length_dropWhile_le isRegexFlag (rest.drop length)
    simp only [addToken]
    rw [length_drop] at shorter
    omega

theorem length_rest_scanString (start : Nat) (ch : Char) (rest : List Char) :
    (scanString L start ch rest).rest.length ≤ rest.length := by
  unfold scanString
  split
  · apply length_dropWhile_le
  · exact le_refl _

/-- Every round takes the character it is for. -/
theorem length_rest_scanOne (start : Nat) (ch : Char) (rest : List Char) :
    (scanOne L start ch rest).rest.length ≤ rest.length := by
  unfold scanOne
  split
  · simp [addToken]
  · simp [addToken]
  · apply length_rest_scanNeg
  · apply length_rest_scanQuotedString
  · apply length_rest_scanRegex
  · apply length_rest_scanEq
  · apply length_rest_scanBound
  · apply length_rest_scanBound
  · apply length_rest_scanTwice
  · apply length_rest_scanTwice
  · exact le_refl _
  · exact le_refl _
  · exact le_refl _
  · exact le_refl _
  · exact le_refl _
  · apply length_rest_scanString

/-! ## All tokens -/

/-- `Scanner.scan`, from an offset on; the last token is the end of the text. -/
def scan (start : Nat) (input : List Char) : List Token × List LexingError :=
  match input with
  | [] => ([⟨.eof, start⟩], [])
  | ch :: rest =>
    let one := scanOne L start ch rest
    let more := scan (start + (unitCount (ch :: rest) - unitCount one.rest)) one.rest
    (one.tokens ++ more.1, one.errors ++ more.2)
termination_by input.length
decreasing_by
  exact Nat.lt_succ_of_le (length_rest_scanOne L start ch rest)

end Scan

end CodeEditor.ContextKey
