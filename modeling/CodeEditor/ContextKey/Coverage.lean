import CodeEditor.ContextKey.Parser

/-!
# What the scanner covers

The texts of the tokens, in order, make up the text apart from white space, unless `_string` meets
a character that `stringRe` does not match: this character is in no token and in no error.
-/

namespace CodeEditor.ContextKey

open List Bool

/-! ## Where tokens are -/

/-- The text that a token was scanned from, with the quotes of a quoted string. `getLexeme` gives
`>=` for `>`. A `String` has no lone surrogates, so texts with them are left out. -/
def TokenType.text : TokenType → List Char
  | .quotedStr lexeme => '\'' :: (lexeme.toList ++ ['\''])
  | .gt => ['>']
  | .eof => []
  | type => (getLexeme ⟨type, 0⟩).toList

/-- The offset of the text; the offset of a quoted string is behind its quote. -/
def Token.start (token : Token) : Nat :=
  match token.type with
  | .quotedStr _ => token.offset - 1
  | _ => token.offset

def Token.stop (token : Token) : Nat := token.start + unitCount token.type.text

theorem unitCount_append (first second : List Char) :
    unitCount (first ++ second) = unitCount first + unitCount second := by
  rw [unitCount, map_append, sum_append]
  rfl

theorem unitCount_cons (c : Char) (text : List Char) :
    unitCount (c :: text) = unitCount [c] + unitCount text :=
  unitCount_append [c] text

theorem unitCount_pos {text : List Char} (nonempty : text ≠ []) : 0 < unitCount text := by
  cases text with
  | nil => exact absurd rfl nonempty
  | cons c text =>
    rw [unitCount, map_cons, sum_cons]
    split_ifs <;> omega

/-- The white space that `scan` skips. -/
def isWhiteSpace (c : Char) : Bool := [' ', '\r', '\t', '\n', '\u00a0'].contains c

/-- The characters that `scan` has a case for, apart from white space. -/
def isSpecial (c : Char) : Bool := "()!'/=<>&|".toList.contains c

/-- The default case of `scan` finds no string at the character. -/
def isIgnored (L : Letters) (c : Char) : Bool :=
  !isWhiteSpace c && !isSpecial c && !isStringChar L c

/-! ## One round -/

/-- A round reads a text: white space or an ignored character without a token, or the text of
one token, and reports an error exactly for an error token. -/
inductive Reads (L : Letters) (start : Nat) (ch : Char) (rest : List Char) : Scanned → Prop
  | gap (skipped : isWhiteSpace ch = true ∨ isIgnored L ch = true) :
      Reads L start ch rest ⟨[], [], rest⟩
  | token {token : Token} {errors : List LexingError} {taken behind : List Char}
      (covered : isIgnored L ch = false) (black : isWhiteSpace ch = false)
      (whole : ch :: rest = taken ++ behind)
      (isText : token.type.text = taken) (isStart : token.start = start)
      (reported : ∀ lexeme, token.type = .error lexeme ↔
        ∃ error ∈ errors, error.lexeme = lexeme)
      (atStart : ∀ error ∈ errors, error.offset = token.offset) :
      Reads L start ch rest ⟨[token], errors, behind⟩

variable {L : Letters} {start : Nat} {ch : Char} {rest : List Char}

theorem isIgnored_of_special (special : isSpecial ch = true) : isIgnored L ch = false := by
  rw [isIgnored, special]
  simp

theorem reads_addToken {type : TokenType} (taken : List Char) {behind : List Char} {offset : Nat}
    (covered : isIgnored L ch = false) (black : isWhiteSpace ch = false)
    (whole : ch :: rest = taken ++ behind) (isText : type.text = taken)
    (isStart : Token.start ⟨type, offset⟩ = start) (noError : ∀ lexeme, type ≠ .error lexeme) :
    Reads L start ch rest (addToken type offset behind) := by
  refine .token covered black whole isText isStart ?_ ?_
  · intro lexeme
    constructor
    · intro isError
      exact absurd isError (noError lexeme)
    · rintro ⟨error, mem, -⟩
      cases mem
  · intro error mem
    cases mem

theorem reads_scanError {taken behind : List Char}
    (covered : isIgnored L ch = false) (black : isWhiteSpace ch = false)
    (whole : ch :: rest = taken ++ behind) :
    Reads L start ch rest (scanError additional start taken behind) := by
  refine .token covered black whole ?_ rfl ?_ ?_
  · exact String.toList_ofList
  · intro lexeme
    constructor
    · intro isError
      cases isError
      exact ⟨_, mem_singleton_self _, rfl⟩
    · rintro ⟨error, mem, isLexeme⟩
      rw [mem_singleton.mp mem] at isLexeme
      exact congrArg TokenType.error isLexeme
  · intro error mem
    rw [mem_singleton.mp mem]

theorem reads_scanNeg (start : Nat) (rest : List Char) :
    Reads L start '!' rest (scanNeg start rest) := by
  have covered : isIgnored L '!' = false := isIgnored_of_special (by decide)
  unfold scanNeg
  split
  · exact reads_addToken ['!', '=', '='] covered (by decide) rfl (by decide) rfl nofun
  · exact reads_addToken ['!', '='] covered (by decide) rfl (by decide) rfl nofun
  · exact reads_addToken ['!'] covered (by decide) rfl (by decide) rfl nofun

theorem reads_scanEq (start : Nat) (rest : List Char) :
    Reads L start '=' rest (scanEq start rest) := by
  have covered : isIgnored L '=' = false := isIgnored_of_special (by decide)
  unfold scanEq
  split
  · exact reads_addToken ['=', '=', '='] covered (by decide) rfl (by decide) rfl nofun
  · exact reads_addToken ['=', '='] covered (by decide) rfl (by decide) rfl nofun
  · exact reads_addToken ['=', '~'] covered (by decide) rfl (by decide) rfl nofun
  · exact reads_scanError covered (by decide) rfl

theorem reads_scanBound {strict equal : TokenType} (special : isSpecial ch = true)
    (isStrict : strict.text = [ch]) (isEqual : equal.text = [ch, '='])
    (here : Token.start ⟨strict, start⟩ = start) (here' : Token.start ⟨equal, start⟩ = start)
    (noError : ∀ lexeme, strict ≠ .error lexeme) (noError' : ∀ lexeme, equal ≠ .error lexeme)
    (black : isWhiteSpace ch = false) :
    Reads L start ch rest (scanBound strict equal start rest) := by
  have covered : isIgnored L ch = false := isIgnored_of_special special
  unfold scanBound
  split
  · exact reads_addToken [ch, '='] covered black rfl isEqual here' noError'
  · exact reads_addToken [ch] covered black rfl isStrict here noError

theorem reads_scanTwice {type : TokenType} (special : isSpecial ch = true)
    (isText : type.text = [ch, ch]) (here : Token.start ⟨type, start⟩ = start)
    (noError : ∀ lexeme, type ≠ .error lexeme) (black : isWhiteSpace ch = false) :
    Reads L start ch rest (scanTwice ch type start rest) := by
  have covered : isIgnored L ch = false := isIgnored_of_special special
  unfold scanTwice
  split
  · exact reads_scanError covered black rfl
  · split
    · rename_i next behind same
      subst same
      exact reads_addToken [next, next] covered black rfl isText here noError
    · exact reads_scanError covered black rfl

theorem reads_scanQuotedString (start : Nat) (rest : List Char) :
    Reads L start '\'' rest (scanQuotedString start rest) := by
  have covered : isIgnored L '\'' = false := isIgnored_of_special (by decide)
  have whole := takeWhile_append_dropWhile (p := (· ≠ '\'')) (l := rest)
  unfold scanQuotedString
  split
  · exact reads_scanError covered (by decide) (append_nil _).symm
  · rename_i quote behind isRest
    have isQuote : quote = '\'' := by
      have stops := stopsAt_dropWhile (· ≠ '\'') rest
      rw [isRest] at stops
      simpa using stops quote rfl
    subst isQuote
    refine reads_addToken ('\'' :: (rest.takeWhile (· ≠ '\'') ++ ['\''])) covered (by decide) ?_ ?_
      rfl (by intro lexeme same; cases same)
    · rw [cons_append, append_assoc, singleton_append, ← isRest, whole]
    · rw [TokenType.text, String.toList_ofList]

theorem reads_scanRegex (start : Nat) (rest : List Char) :
    Reads L start '/' rest (scanRegex start rest) := by
  have covered : isIgnored L '/' = false := isIgnored_of_special (by decide)
  unfold scanRegex
  split
  · exact reads_scanError covered (by decide) (append_nil _).symm
  · rename_i length isLength
    refine reads_addToken ('/' :: rest.take length ++ (rest.drop length).takeWhile isRegexFlag)
      covered (by decide) ?_ ?_ rfl nofun
    · rw [append_assoc, takeWhile_append_dropWhile, cons_append, take_append_drop]
    · exact String.toList_ofList

/-- A keyword has the text that it is for. -/
theorem text_of_keyword (lexeme : String) (start : Nat) :
    ((keyword? lexeme).getD (.str lexeme)).text = lexeme.toList ∧
      Token.start ⟨(keyword? lexeme).getD (.str lexeme), start⟩ = start ∧
      ∀ other, (keyword? lexeme).getD (.str lexeme) ≠ .error other := by
  unfold keyword?
  split_ifs with isNot isIn isFalse isTrue
  · exact ⟨by rw [isNot]; decide, rfl, nofun⟩
  · exact ⟨by rw [isIn]; decide, rfl, nofun⟩
  · exact ⟨by rw [isFalse]; decide, rfl, nofun⟩
  · exact ⟨by rw [isTrue]; decide, rfl, nofun⟩
  · exact ⟨rfl, rfl, nofun⟩

theorem reads_scanString (start : Nat) (rest : List Char) (black : isWhiteSpace ch = false)
    (plain : isSpecial ch = false) : Reads L start ch rest (scanString L start ch rest) := by
  unfold scanString
  split
  · rename_i isString
    obtain ⟨isText, isStart, noError⟩ :=
      text_of_keyword (.ofList (ch :: rest.takeWhile (isStringChar L))) start
    refine reads_addToken (ch :: rest.takeWhile (isStringChar L)) ?_ black ?_ ?_ isStart noError
    · rw [isIgnored, isString, Bool.not_true, Bool.and_false]
    · rw [cons_append, takeWhile_append_dropWhile]
    · rw [isText, String.toList_ofList]
  · rename_i noString
    refine .gap (.inr ?_)
    rw [isIgnored, black, plain, Bool.eq_false_iff.mpr noString]
    rfl

theorem reads_scanOne (L : Letters) (start : Nat) (ch : Char) (rest : List Char) :
    Reads L start ch rest (scanOne L start ch rest) := by
  unfold scanOne
  split
  · exact reads_addToken ['('] (isIgnored_of_special (by decide)) (by decide) rfl (by decide) rfl
      nofun
  · exact reads_addToken [')'] (isIgnored_of_special (by decide)) (by decide) rfl (by decide) rfl
      nofun
  · exact reads_scanNeg start rest
  · exact reads_scanQuotedString start rest
  · exact reads_scanRegex start rest
  · exact reads_scanEq start rest
  · exact reads_scanBound (by decide) (by decide) (by decide) rfl rfl nofun nofun (by decide)
  · exact reads_scanBound (by decide) (by decide) (by decide) rfl rfl nofun nofun (by decide)
  · exact reads_scanTwice (by decide) (by decide) rfl nofun (by decide)
  · exact reads_scanTwice (by decide) (by decide) rfl nofun (by decide)
  · exact .gap (.inl (by decide))
  · exact .gap (.inl (by decide))
  · exact .gap (.inl (by decide))
  · exact .gap (.inl (by decide))
  · exact .gap (.inl (by decide))
  · apply reads_scanString
    · simp_all [isWhiteSpace]
    · simp_all [isSpecial]

/-! ## The whole text -/

/-- The character at an offset is in the text of the token. -/
def Token.Covers (token : Token) (offset : Nat) : Prop :=
  token.start ≤ offset ∧ offset < token.stop

/-- The texts of the tokens do not overlap, come in order and stand in the text where the tokens
say; the errors are those of the error tokens. -/
structure Ordered (start : Nat) (input : List Char) (tokens : List Token)
    (errors : List LexingError) : Prop where
  ordered : tokens.Pairwise fun first second => first.stop ≤ second.start
  placed : ∀ token ∈ tokens, ∃ before behind,
    input = before ++ (token.type.text ++ behind) ∧ token.start = start + unitCount before
  reported : ∀ offset lexeme,
    (∃ token ∈ tokens, token.type = .error lexeme ∧ token.offset = offset) ↔
    ∃ error ∈ errors, error.lexeme = lexeme ∧ error.offset = offset

/-- Every character but white space is in a token. -/
def AllCovered (start : Nat) (input : List Char) (tokens : List Token) : Prop :=
  ∀ before c behind, input = before ++ c :: behind → isWhiteSpace c = false →
    ∃ token ∈ tokens, token.Covers (start + unitCount before)

/-- Tokens and errors say where every character of the text is, apart from white space. -/
structure LosesNothing (input : List Char) (tokens : List Token) (errors : List LexingError) :
    Prop extends Ordered 0 input tokens errors where
  covered : ∀ before c behind, input = before ++ c :: behind → isWhiteSpace c = false →
    ∃! token, token ∈ tokens ∧ token.Covers (unitCount before)

variable {input behind : List Char} {tokens : List Token} {errors : List LexingError}
  {token : Token}

theorem Ordered.start_le (sound : Ordered start input tokens errors) (mem : token ∈ tokens) :
    start ≤ token.start := by
  obtain ⟨before, behind, -, isStart⟩ := sound.placed token mem
  rw [isStart]
  exact Nat.le_add_right _ _

theorem ordered_eof (start : Nat) : Ordered start [] [⟨.eof, start⟩] [] where
  ordered := pairwise_singleton _ _
  placed := by
    intro token mem
    rw [mem_singleton.mp mem]
    exact ⟨[], [], rfl, rfl⟩
  reported := by
    intro offset lexeme
    constructor
    · rintro ⟨token, mem, isError, -⟩
      rw [mem_singleton.mp mem] at isError
      cases isError
    · rintro ⟨error, mem, -⟩
      cases mem

theorem Ordered.gap (sound : Ordered (start + unitCount [ch]) rest tokens errors) :
    Ordered start (ch :: rest) tokens errors where
  ordered := sound.ordered
  placed := by
    intro token mem
    obtain ⟨before, behind, split, isStart⟩ := sound.placed token mem
    refine ⟨ch :: before, behind, by rw [split, cons_append], ?_⟩
    rw [isStart, unitCount_cons ch before, Nat.add_assoc]
  reported := sound.reported

theorem Ordered.cons {errors' : List LexingError}
    (sound : Ordered (start + unitCount token.type.text) behind tokens errors)
    (isStart : token.start = start)
    (reported : ∀ lexeme, token.type = .error lexeme ↔ ∃ error ∈ errors', error.lexeme = lexeme)
    (atStart : ∀ error ∈ errors', error.offset = token.offset) :
    Ordered start (token.type.text ++ behind) (token :: tokens) (errors' ++ errors) where
  ordered := by
    refine .cons ?_ sound.ordered
    intro other mem
    rw [Token.stop, isStart]
    exact sound.start_le mem
  placed := by
    intro other mem
    cases mem_cons.mp mem with
    | inl same =>
      rw [same]
      exact ⟨[], behind, rfl, isStart⟩
    | inr later =>
      obtain ⟨before, behind', split, isStart'⟩ := sound.placed other later
      refine ⟨token.type.text ++ before, behind', by rw [split, append_assoc], ?_⟩
      rw [isStart', unitCount_append, Nat.add_assoc]
  reported := by
    intro offset lexeme
    rw [exists_mem_cons_iff]
    constructor
    · rintro (⟨isError, isOffset⟩ | later)
      · obtain ⟨error, mem, isLexeme⟩ := (reported lexeme).mp isError
        exact ⟨error, mem_append_left _ mem, isLexeme, by rw [atStart error mem, isOffset]⟩
      · obtain ⟨error, mem, same⟩ := (sound.reported offset lexeme).mp later
        exact ⟨error, mem_append_right _ mem, same⟩
    · rintro ⟨error, mem, isLexeme, isOffset⟩
      cases mem_append.mp mem with
      | inl here =>
        refine .inl ⟨(reported lexeme).mpr ⟨error, here, isLexeme⟩, ?_⟩
        rw [← atStart error here, isOffset]
      | inr later =>
        exact .inr ((sound.reported offset lexeme).mpr ⟨error, later, isLexeme, isOffset⟩)

theorem allCovered_nil (start : Nat) (tokens : List Token) : AllCovered start [] tokens := by
  intro before c behind split
  cases before <;> cases split

theorem allCovered_white (white : isWhiteSpace ch = true) :
    AllCovered start (ch :: rest) tokens ↔ AllCovered (start + unitCount [ch]) rest tokens := by
  constructor
  · intro covered before c behind split black
    have found := covered (ch :: before) c behind (by rw [split, cons_append]) black
    rw [unitCount_cons, ← Nat.add_assoc] at found
    exact found
  · intro covered before c behind split black
    cases before with
    | nil =>
      obtain ⟨rfl, -⟩ := cons_eq_cons.mp split
      rw [white] at black
      cases black
    | cons first before =>
      obtain ⟨rfl, isRest⟩ := cons_eq_cons.mp split
      have found := covered before c behind isRest black
      rw [Nat.add_assoc, ← unitCount_cons] at found
      exact found

theorem not_allCovered_ignored (ignored : isIgnored L ch = true)
    (later : ∀ token ∈ tokens, start + unitCount [ch] ≤ token.start) :
    ¬AllCovered start (ch :: rest) tokens := by
  intro covered
  have black : isWhiteSpace ch = false := by
    rw [isIgnored, and_eq_true, and_eq_true, not_eq_true'] at ignored
    exact ignored.1.1
  obtain ⟨token, mem, isStart, -⟩ := covered [] ch rest rfl black
  have positive := unitCount_pos (cons_ne_nil ch [])
  have starts := later token mem
  have none : unitCount [] = 0 := rfl
  omega

theorem allCovered_token (isStart : token.start = start) :
    AllCovered start (token.type.text ++ behind) (token :: tokens) ↔
      AllCovered (start + unitCount token.type.text) behind tokens := by
  constructor
  · intro covered before c behind' split black
    obtain ⟨other, mem, covers⟩ := covered (token.type.text ++ before) c behind'
      (by rw [split, append_assoc]) black
    rw [unitCount_append, ← Nat.add_assoc] at covers
    cases mem_cons.mp mem with
    | inl same =>
      rw [same, Token.Covers, Token.stop, isStart] at covers
      omega
    | inr inTokens => exact ⟨other, inTokens, covers⟩
  · intro covered before c behind' split black
    rcases append_eq_append_iff.mp split with ⟨more, isBefore, split'⟩ | ⟨more, isText, split'⟩
    · obtain ⟨other, mem, covers⟩ := covered more c behind' split' black
      refine ⟨other, .tail _ mem, ?_⟩
      rw [isBefore, unitCount_append, ← Nat.add_assoc]
      exact covers
    · cases more with
      | nil =>
        obtain ⟨other, mem, covers⟩ := covered [] c behind' split'.symm black
        refine ⟨other, .tail _ mem, ?_⟩
        rw [append_nil] at isText
        rw [← isText]
        exact covers
      | cons first more =>
        refine ⟨token, .head _, ?_, ?_⟩
        · rw [isStart]
          exact Nat.le_add_right _ _
        · rw [Token.stop, isStart, isText, unitCount_append]
          have positive := unitCount_pos (cons_ne_nil first more)
          omega

/-- The text at which a round of `scan` starts, and its offset. -/
inductive RoundAt (L : Letters) : Nat → List Char → Nat → List Char → Prop
  | first {start : Nat} {input : List Char} : RoundAt L start input start input
  | next {start start' : Nat} {ch : Char} {rest input : List Char}
      (later : RoundAt L
        (start + (unitCount (ch :: rest) - unitCount (scanOne L start ch rest).rest))
        (scanOne L start ch rest).rest start' input) :
      RoundAt L start (ch :: rest) start' input

/-- No round of `scan` starts at a character that the default case ignores. -/
def IgnoresNone (L : Letters) (start : Nat) (input : List Char) : Prop :=
  ∀ start' ch rest, RoundAt L start input start' (ch :: rest) → isIgnored L ch = false

theorem ignoresNone_nil (L : Letters) (start : Nat) : IgnoresNone L start [] := by
  intro start' ch rest round
  cases round

theorem ignoresNone_cons : IgnoresNone L start (ch :: rest) ↔ isIgnored L ch = false ∧
      IgnoresNone L (start + (unitCount (ch :: rest) - unitCount (scanOne L start ch rest).rest))
        (scanOne L start ch rest).rest := by
  constructor
  · intro none
    exact ⟨none _ _ _ .first, fun start' ch' rest' round => none _ _ _ (.next round)⟩
  · rintro ⟨here, later⟩ start' ch' rest' round
    cases round with
    | first => exact here
    | next round => exact later _ _ _ round

theorem scan_cons (L : Letters) (start : Nat) (ch : Char) (rest : List Char) :
    scan L start (ch :: rest) = ((scanOne L start ch rest).tokens ++ (scan L
          (start + (unitCount (ch :: rest) - unitCount (scanOne L start ch rest).rest))
          (scanOne L start ch rest).rest).1,
        (scanOne L start ch rest).errors ++ (scan L
          (start + (unitCount (ch :: rest) - unitCount (scanOne L start ch rest).rest))
          (scanOne L start ch rest).rest).2) := by
  rw [scan]

/-- The tokens of a text are in order, and cover it if no character is ignored. -/
theorem scan_spec (L : Letters) (start : Nat) (input : List Char) :
    Ordered start input (scan L start input).1 (scan L start input).2 ∧
      (AllCovered start input (scan L start input).1 ↔ IgnoresNone L start input) := by
  induction start, input using scan.induct L with
  | case1 start =>
    rw [scan]
    exact ⟨ordered_eof start, iff_of_true (allCovered_nil _ _) (ignoresNone_nil L start)⟩
  | case2 start ch rest one ih =>
    obtain ⟨sound, covered⟩ := ih
    rw [scan_cons, ignoresNone_cons]
    have reads : Reads L start ch rest one := reads_scanOne L start ch rest
    generalize scan L (start + (unitCount (ch :: rest) - unitCount one.rest)) one.rest = more
      at sound covered
    show Ordered start _ (one.tokens ++ more.1) (one.errors ++ more.2) ∧
      (AllCovered start _ (one.tokens ++ more.1) ↔ isIgnored L ch = false ∧
        IgnoresNone L (start + (unitCount (ch :: rest) - unitCount one.rest)) one.rest)
    clear_value one
    cases reads with
    | gap skipped =>
      have width : unitCount (ch :: rest) - unitCount rest = unitCount [ch] := by
        rw [unitCount_cons, Nat.add_sub_cancel]
      rw [width] at sound covered
      refine ⟨sound.gap, ?_⟩
      rw [width]
      cases skipped with
      | inl white =>
        have notIgnored : isIgnored L ch = false := by rw [isIgnored, white]; rfl
        rw [← covered, nil_append, allCovered_white white]
        exact (and_iff_right notIgnored).symm
      | inr ignored =>
        apply iff_of_false
        · exact not_allCovered_ignored ignored fun token mem => sound.start_le mem
        · rintro ⟨notIgnored, -⟩
          rw [ignored] at notIgnored
          cases notIgnored
    | @token token errors taken behind notIgnored black whole isText isStart reported atStart =>
      have width : unitCount (ch :: rest) - unitCount behind = unitCount token.type.text := by
        rw [whole, unitCount_append, Nat.add_sub_cancel, isText]
      rw [width] at sound covered
      rw [width, whole, ← isText]
      refine ⟨sound.cons isStart reported atStart, ?_⟩
      rw [← covered]
      exact (allCovered_token isStart).trans (and_iff_right notIgnored).symm

theorem Ordered.unique (sound : Ordered start input tokens errors) {first second : Token}
    (inFirst : first ∈ tokens) (inSecond : second ∈ tokens)
    (covers : first.Covers offset) (covers' : second.Covers offset) : first = second := by
  by_contra apart
  obtain ⟨start, stop⟩ := covers
  obtain ⟨start', stop'⟩ := covers'
  have disjoint : tokens.Pairwise fun first second =>
      first.stop ≤ second.start ∨ second.stop ≤ first.start := sound.ordered.imp .inl
  have symmetric : Std.Symm fun first second : Token =>
      first.stop ≤ second.start ∨ second.stop ≤ first.start := ⟨fun _ _ => Or.symm⟩
  cases disjoint.forall inFirst inSecond apart with
  | inl before => omega
  | inr before => omega

theorem losesNothing_iff (sound : Ordered 0 input tokens errors) :
    LosesNothing input tokens errors ↔ AllCovered 0 input tokens := by
  constructor
  · intro whole before c behind split black
    obtain ⟨token, ⟨mem, covers⟩, -⟩ := whole.covered before c behind split black
    rw [Nat.zero_add]
    exact ⟨token, mem, covers⟩
  · intro covered
    refine ⟨sound, ?_⟩
    intro before c behind split black
    obtain ⟨token, mem, covers⟩ := covered before c behind split black
    rw [Nat.zero_add] at covers
    exact ⟨token, ⟨mem, covers⟩, fun other both => sound.unique both.1 mem both.2 covers⟩

section Parser

variable {N R : Type} (P : Platform N R) (reader : Reader R) {expr : Option (Expression (Atom P))}

theorem whole_atEnd {c cursor : Cursor}
    (returns : (Parse.whole P reader config).run c = some (.ok (expr, cursor))) :
    cursor.isAtEnd = true := by
  unfold Parse.whole at returns
  rw [StateT.run_bind] at returns
  generalize (config.or P reader).run c = first at returns
  match first, returns with
  | none, isNone => cases isNone
  | some (.error error), isError => cases isError
  | some (.ok (expr', cursor')), isOk =>
    change (if cursor'.isAtEnd = true then _ else _ : Parse _) cursor' = _ at isOk
    split at isOk
    · rename_i atEnd
      cases isOk
      exact atEnd
    · cases isOk

/-- `Parser.parse` returns an expression only at the end of the tokens. -/
theorem parse_atEnd {config : ParserConfig} {input : String}
    (returns : parse P reader config input = some (.ok expr)) :
    ∃ cursor, (Parse.whole P reader config).run
        ⟨none, (scan reader.toLetters 0 input.toList).1⟩ = some (.ok (expr, cursor)) ∧
      cursor.isAtEnd = true := by
  unfold parse at returns
  split at returns
  · cases returns
  · obtain ⟨result, ran, isExpr⟩ := Option.bind_eq_some_iff.mp returns
    cases result with
    | error error => cases isExpr
    | ok final =>
      obtain ⟨expr', cursor⟩ := final
      cases isExpr
      exact ⟨cursor, ran, whole_atEnd P reader ran⟩

/-- The scanner loses nothing if and only if no round starts at a character that the default case
ignores; and a parse that returns an expression is at the end of the tokens. -/
theorem scan_losesNothing_iff (input : String) :
    (LosesNothing input.toList (scan reader.toLetters 0 input.toList).1
        (scan reader.toLetters 0 input.toList).2 ↔
      IgnoresNone reader.toLetters 0 input.toList) ∧
    ∀ config expr, parse P reader config input = some (.ok expr) →
      ∃ cursor, (Parse.whole P reader config).run
          ⟨none, (scan reader.toLetters 0 input.toList).1⟩ = some (.ok (expr, cursor)) ∧
        cursor.isAtEnd = true := by
  obtain ⟨sound, covered⟩ := scan_spec reader.toLetters 0 input.toList
  exact ⟨(losesNothing_iff sound).trans covered, fun config expr => parse_atEnd P reader⟩

end Parser

/-- Letters of ASCII. -/
def asciiLetters : Letters := ⟨Char.isAlpha, fun _ _ isLetter => isLetter⟩

theorem scan_tilde : scan asciiLetters 0 ['~', 'a'] = ([⟨.str "a", 1⟩, ⟨.eof, 2⟩], []) := by
  have first : scanOne asciiLetters 0 '~' ['a'] = ⟨[], [], ['a']⟩ := by
    simp [scanOne, scanString, isStringChar, asciiLetters]
  have second : scanOne asciiLetters 1 'a' [] = ⟨[⟨.str "a", 1⟩], [], []⟩ := by
    simp [scanOne, scanString, isStringChar, asciiLetters, keyword?, addToken]
  have width : unitCount ['~', 'a'] - unitCount ['a'] = 1 := by decide
  have width' : unitCount ['a'] - unitCount [] = 1 := by decide
  have last : scan asciiLetters 2 [] = ([⟨.eof, 2⟩], []) := by rw [scan]
  rw [scan_cons, first, width, scan_cons, second, width', last]
  rfl

/-- The tilde of `~a` is in no token and in no error. -/
theorem scan_loses_tilde :
    ¬∀ (L : Letters) (input : List Char), LosesNothing input (scan L 0 input).1
      (scan L 0 input).2 := by
  intro holds
  have whole := holds asciiLetters ['~', 'a']
  rw [scan_tilde] at whole
  obtain ⟨token, ⟨mem, isStart, -⟩, -⟩ := whole.covered [] '~' ['a'] rfl (by decide)
  rcases mem_cons.mp mem with rfl | isEnd
  · cases isStart
  · rw [mem_singleton.mp isEnd] at isStart
    cases isStart

end CodeEditor.ContextKey
