import CodeEditor.ContextKey.Atoms
import CodeEditor.ContextKey.Scanner

/-!
# Parsing context key expressions

Model of the class `Parser` in `contextkey.ts`. The productions call each other and build
expressions as they go; where one of them does not return, the model has `none`. Every error
ends the parse, so a parse has at most one.
-/

namespace CodeEditor.ContextKey

open Expression

/-- What the parser uses of the language; `new RegExp` has no result where it throws. -/
structure Reader (R : Type) extends Letters where
  newRegExp : (source : String) → (flags : Option String) → Option R

structure ParserConfig where
  regexParsingWithErrorRecovery : Bool

structure ParsingError where
  message : String
  offset : Nat
  lexeme : String
  additionalInfo : Option String
  deriving DecidableEq

def errorEmptyString : String := "Empty context key expression"

def hintEmptyString : String :=
  "Did you forget to write an expression? You can also put 'false' or 'true' to always " ++
    "evaluate to false or true, respectively."

def errorNoInAfterNot : String := "'in' after 'not'."

def errorClosingParenthesis : String := "closing parenthesis ')'"

def errorUnexpectedToken : String := "Unexpected token"

def hintUnexpectedToken : String := "Did you forget to put && or || before the token?"

def errorUnexpectedEOF : String := "Unexpected end of expression"

def hintUnexpectedEOF : String := "Did you forget to put a context key?"

def expectedNegated : String := "KEY | true | false | '(' expression ')'"

def expectedPrimary : String :=
  "true | false | KEY \n\t| KEY '=~' REGEX \n\t" ++
    "| KEY ('==' | '!=' | '<' | '<=' | '>' | '>=' | 'in' | 'not' 'in') value"

/-! ## The position in the tokens -/

/-- The previous token and those from the current one on. The last of them is the end of the
text, which is never passed. -/
structure Cursor where
  previous : Option Token
  rest : List Token

namespace Cursor

def peek (c : Cursor) : Token := c.rest.headD ⟨.eof, 0⟩

def isAtEnd (c : Cursor) : Bool := c.peek.type = .eof

def advance (c : Cursor) : Cursor := if c.isAtEnd then c else ⟨some c.peek, c.rest.tail⟩

end Cursor

abbrev Parse (β : Type) : Type := StateT Cursor (ExceptT ParsingError Option) β

namespace Parse

def peek : Parse Token := do return (← get).peek

def advance : Parse Unit := modify Cursor.advance

/-- `_errExpectedButGot`, thrown. -/
def errExpectedButGot {β : Type} (expected : String) (got : Token) : Parse β :=
  throw ⟨"Expected: " ++ expected ++ "\nReceived: '" ++ getLexeme got ++ "'.", got.offset,
    getLexeme got, none⟩

/-- `_matchOne`. -/
def matchOne (type : TokenType) : Parse Bool := do
  if (← peek).type = type then
    advance
    return true
  else return false

/-- `_consume`. -/
def consume (type : TokenType) (message : String) : Parse Unit := do
  let token ← peek
  if token.type = type then advance else errExpectedButGot message token

/-- `_value`; nothing is an empty string. -/
def value : Parse String := do
  match (← peek).type with
  | .str lexeme =>
    advance
    return lexeme
  | .quotedStr lexeme =>
    advance
    return lexeme
  | .true =>
    advance
    return "true"
  | .false =>
    advance
    return "false"
  | .isIn =>
    advance
    return "in"
  | _ => return ""

/-- Whether the previous token is a quoted string. -/
def previousIsQuoted : Parse Bool := do
  match (← get).previous with
  | some ⟨.quotedStr _, _⟩ => return true
  | _ => return false

/-! ## Regular expressions -/

section Regex

/-- `String.prototype.indexOf`, for a character. -/
def indexOf (ch : Char) (text : List Char) : Int :=
  match text.findIdx? (· = ch) with
  | some index => index
  | none => -1

/-- `String.prototype.lastIndexOf`, for a character. -/
def lastIndexOf (ch : Char) (text : List Char) : Int :=
  match text.reverse.findIdx? (· = ch) with
  | some index => text.length - 1 - index
  | none => -1

/-- `String.prototype.substring`. -/
def substring (text : List Char) (first second : Int) : String :=
  .ofList ((text.take (max first second).toNat).drop (min first second).toNat)

/-- `_removeFlagsGY`. -/
def removeFlagsGY (flags : String) : String :=
  .ofList (flags.toList.filter fun c => !(c = 'g' || c = 'y'))

variable {R : Type} (reader : Reader R)

/-- The regular expression of a lexeme `/REGEX/` or `/REGEX/FLAGS`. -/
def regexOf (lexeme : String) : Option R :=
  let text := lexeme.toList
  let closingSlashIndex := lastIndexOf '/' text
  let flags :=
    if closingSlashIndex = text.length - 1 then none
    else some (removeFlagsGY (substring text (closingSlashIndex + 1) text.length))
  reader.newRegExp (substring text 1 closingSlashIndex) flags

/-- The regular expression of a quoted string. A text of white space has no slash. -/
def regexOfQuoted (lexeme : String) : Option R :=
  let text := lexeme.toList
  let start := indexOf '/' text
  let stop := lastIndexOf '/' text
  if start ≠ stop ∧ start ≥ 0 then
    reader.newRegExp (substring text (start + 1) stop)
      (some (if text[(stop + 1).toNat]? = some 'i' then "i" else ""))
  else none

/-- The code units of a text, each as the character it belongs to. -/
def unitsOf (text : String) : List Char :=
  text.toList.flatMap fun c => List.replicate (unitCount [c]) c

/-- What a lexeme adds to the balance of parentheses. The closing ones are looked for in the
lexeme of the regular expression. -/
def parenDelta (lexeme expr : String) : Int :=
  ((unitsOf lexeme).zipIdx.map fun (c, i) =>
    if c = '(' then 1 else if (unitsOf expr)[i]? = some ')' then -1 else 0).sum

/-- What a token adds to the balance. -/
def tokenDelta (expr : String) (token : Token) : Int :=
  match token.type with
  | .lParen => 1
  | .rParen => -1
  | .regexStr lexeme => parenDelta lexeme expr
  | .quotedStr lexeme => parenDelta lexeme expr
  | _ => 0

/-- The lexemes of the tokens that belong to a regular expression with unescaped slashes. -/
def reconstruct (expr : String) (parenBalance : Int) : List Token → List String
  | [] => []
  | token :: rest =>
    if token.type = .eof ∨ token.type = .and ∨ token.type = .or then []
    else
      let balance := parenBalance + tokenDelta expr token
      if balance < 0 then [] else getLexeme token :: reconstruct expr balance rest

variable {N : Type} {P : Platform N R} (config : ParserConfig)

/-- `KEY '=~' REGEX`, behind the operator. -/
def regex (key : String) : Parse (Expression (Atom P)) := do
  let expr ← peek
  if !config.regexParsingWithErrorRecovery then
    advance
    match expr.type with
    | .regexStr lexeme =>
      match regexOf reader lexeme with
      | some regexp => return regexCreate P key (some regexp)
      | none => errExpectedButGot "REGEX" expr
    | _ => errExpectedButGot "REGEX" expr
  else
    match expr.type with
    | .regexStr lexeme | .error lexeme =>
      advance
      let lexemes := reconstruct lexeme (parenDelta lexeme lexeme) (← get).rest
      modify fun cursor => Nat.repeat Cursor.advance lexemes.length cursor
      match regexOf reader (String.join (lexeme :: lexemes)) with
      | some regexp => return regexCreate P key (some regexp)
      | none => errExpectedButGot "REGEX" expr
    | .quotedStr lexeme =>
      advance
      match regexOfQuoted reader lexeme with
      | some regexp => return regexCreate P key (some regexp)
      | none => errExpectedButGot "REGEX" expr
    | _ => errExpectedButGot "REGEX" expr

end Regex

/-! ## Productions -/

section Productions

variable {N R : Type} (P : Platform N R) (reader : Reader R) (config : ParserConfig)

/-- `KEY '==' value`, behind the operator. -/
def equals (key : String) : Parse (Expression (Atom P)) := do
  let right ← value
  if ← previousIsQuoted then return equalsCreate P key (Atom.text right)
  else if right = "true" then return definedCreate P key
  else if right = "false" then return notCreate P key
  else return equalsCreate P key (Atom.text right)

/-- `KEY '!=' value`, behind the operator. -/
def notEquals (key : String) : Parse (Expression (Atom P)) := do
  let right ← value
  if ← previousIsQuoted then return notEqualsCreate P key (Atom.text right)
  else if right = "true" then return notCreate P key
  else if right = "false" then return definedCreate P key
  else return notEqualsCreate P key (Atom.text right)

/-- The part of `_primary` behind a key. -/
def keyed (key : String) : Parse (Expression (Atom P)) := do
  if ← matchOne .regexOp then regex reader config key
  else if ← matchOne .not then
    consume .isIn errorNoInAfterNot
    return notInCreate P key (← value)
  else
    match (← peek).type with
    | .eq _ =>
      advance
      equals P key
    | .notEq _ =>
      advance
      notEquals P key
    | .lt =>
      advance
      return smallerCreate P key (Atom.text (← value))
    | .ltEq =>
      advance
      return smallerEqualsCreate P key (Atom.text (← value))
    | .gt =>
      advance
      return greaterCreate P key (Atom.text (← value))
    | .gtEq =>
      advance
      return greaterEqualsCreate P key (Atom.text (← value))
    | .isIn =>
      advance
      return inCreate P key (← value)
    | _ => return definedCreate P key

/-- `expr?.negate()`. -/
def negated (expr : Option (Expression (Atom P))) : Parse (Option (Expression (Atom P))) :=
  match expr with
  | none => return none
  | some e => do
      let result ← (negate (atoms P) e : Option (Expression (Atom P)))
      return some result

/-- `ContextKeyExpr.and`, where there is more than one expression. -/
def andOf (expr : List (Option (Expression (Atom P)))) :
    Option (Option (Expression (Atom P))) :=
  match expr with
  | [e] => some e
  | _ => andCreate (atoms P) expr none true

/-- `ContextKeyExpr.or`, where there is more than one expression. -/
def orOf (expr : List (Option (Expression (Atom P)))) :
    Option (Option (Expression (Atom P))) :=
  match expr with
  | [e] => some e
  | _ => orCreate (atoms P) expr none true

end Productions

end Parse

open Parse

variable {N R : Type}

mutual

/-- `_or`. -/
def ParserConfig.or (config : ParserConfig) (P : Platform N R) (reader : Reader R) :
    Parse (Option (Expression (Atom P))) := do
  let first ← config |>.and P reader
  config |>.orLoop P reader [first]
partial_fixpoint

/-- The loop of `_or`. -/
def ParserConfig.orLoop (config : ParserConfig) (P : Platform N R) (reader : Reader R)
    (expr : List (Option (Expression (Atom P)))) : Parse (Option (Expression (Atom P))) := do
  if ← matchOne .or then
    let right ← config |>.and P reader
    config |>.orLoop P reader (expr ++ [right])
  else
    let result ← orOf P expr
    return result
partial_fixpoint

/-- `_and`. -/
def ParserConfig.and (config : ParserConfig) (P : Platform N R) (reader : Reader R) :
    Parse (Option (Expression (Atom P))) := do
  let first ← config |>.term P reader
  config |>.andLoop P reader [first]
partial_fixpoint

/-- The loop of `_and`. -/
def ParserConfig.andLoop (config : ParserConfig) (P : Platform N R) (reader : Reader R)
    (expr : List (Option (Expression (Atom P)))) : Parse (Option (Expression (Atom P))) := do
  if ← matchOne .and then
    let right ← config |>.term P reader
    config |>.andLoop P reader (expr ++ [right])
  else
    let result ← andOf P expr
    return result
partial_fixpoint

/-- `_term`. -/
def ParserConfig.term (config : ParserConfig) (P : Platform N R) (reader : Reader R) :
    Parse (Option (Expression (Atom P))) := do
  if ← matchOne .neg then
    let token ← peek
    match token.type with
    | .true =>
      advance
      return some falseExpr
    | .false =>
      advance
      return some trueExpr
    | .lParen =>
      advance
      let expr ← config |>.or P reader
      consume .rParen errorClosingParenthesis
      negated P expr
    | .str lexeme =>
      advance
      return some (notCreate P lexeme)
    | _ => errExpectedButGot expectedNegated token
  else config |>.primary P reader
partial_fixpoint

/-- `_primary`. -/
def ParserConfig.primary (config : ParserConfig) (P : Platform N R) (reader : Reader R) :
    Parse (Option (Expression (Atom P))) := do
  let token ← peek
  match token.type with
  | .true =>
    advance
    return some trueExpr
  | .false =>
    advance
    return some falseExpr
  | .lParen =>
    advance
    let expr ← config |>.or P reader
    consume .rParen errorClosingParenthesis
    return expr
  | .str key =>
    advance
    let expr ← keyed P reader config key
    return some expr
  | .eof => throw ⟨errorUnexpectedEOF, token.offset, "", some hintUnexpectedEOF⟩
  | _ => errExpectedButGot expectedPrimary token
partial_fixpoint

end

section Parser

variable (P : Platform N R) (reader : Reader R)

/-- The production of `parse`, with nothing behind it. -/
def Parse.whole (config : ParserConfig) : Parse (Option (Expression (Atom P))) := do
  let expr ← config.or P reader
  let cursor ← get
  if cursor.isAtEnd then return expr
  else
    let additionalInfo :=
      match cursor.peek.type with
      | .str _ => some hintUnexpectedToken
      | _ => none
    throw ⟨errorUnexpectedToken, cursor.peek.offset, getLexeme cursor.peek, additionalInfo⟩

/-- `Parser.parse`, with the error that it records. -/
def parse (config : ParserConfig) (input : String) :
    Option (Except ParsingError (Option (Expression (Atom P)))) :=
  if input = "" then some (.error ⟨errorEmptyString, 0, "", some hintEmptyString⟩)
  else do
    let tokens := (scan reader.toLetters 0 input.toList).1
    let result ← (Parse.whole P reader config).run ⟨none, tokens⟩
    some (result.map Prod.fst)

/-- `ContextKeyExpr.deserialize`, of a string. -/
def deserialize (serialized : String) : Option (Option (Expression (Atom P))) := do
  let result ← parse P reader ⟨false⟩ serialized
  match result with
  | .ok expr => some expr
  | .error _ => some none

end Parser

end CodeEditor.ContextKey
