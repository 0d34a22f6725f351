import CardCode.Engine.Diagnostic

/-! # The engine's lexer (`src/lexer.cpp`) -/

namespace CardCode

/-- Source text as the engine receives it. -/
abbrev Bytes := List UInt8

/-- The bytes of an ASCII literal. -/
def bytes (text : String) : Bytes :=
  text.toList.map Char.toUInt8

inductive TokenKind where
  | lParen
  | rParen
  | symbol
  | integer
  | end
  deriving Repr, DecidableEq

structure Token where
  kind : TokenKind
  span : SourceSpan
  text : String
  integer : Int64
  deriving Repr, DecidableEq

structure LexResult where
  tokens : List Token
  diagnostics : List Diagnostic
  deriving Repr, DecidableEq

def isSymbolChar (c : Char) : Bool :=
  ('A' ≤ c && c ≤ 'Z') || ('a' ≤ c && c ≤ 'z') || ('0' ≤ c && c ≤ '9') ||
    c = '_' || c = '-' || c = '?' || c = '!' || c = '<' || c = '>' ||
    c = '=' || c = '+' || c = '*' || c = '/' || c = '.'

def isDigit (c : Char) : Bool :=
  '0' ≤ c && c ≤ '9'

/-- An optional leading `-` followed by one or more digits. -/
def isIntegerWord : List Char → Bool
  | '-' :: digits => !digits.isEmpty && digits.all isDigit
  | digits => !digits.isEmpty && digits.all isDigit

def int64Max : Int := 9223372036854775807

/-- The accumulating loop of `parse_int`; `none` where the next digit would
overflow. C++ division truncates, and both operands are non-negative here. -/
def parseDigits : Int → List Char → Option Int
  | value, [] => some value
  | value, c :: rest =>
      let digit : Int := c.toNat - '0'.toNat
      if value > (int64Max - digit).tdiv 10 then none
      else parseDigits (value * 10 + digit) rest

def parseInt : List Char → Option Int64
  | '-' :: digits => (parseDigits 0 digits).map fun value => Int64.ofInt (-value)
  | digits => (parseDigits 0 digits).map Int64.ofInt

/-! ## Scanning -/

/-- The three counters `lex` advances together. -/
structure Position where
  offset : UInt32 := 0
  line : UInt32 := 1
  column : UInt32 := 1
  deriving Repr, DecidableEq

def Position.advance (position : Position) (c : Char) : Position :=
  if c = '\n' then
    { offset := position.offset + 1, line := position.line + 1, column := 1 }
  else
    { position with offset := position.offset + 1, column := position.column + 1 }

def Position.spanTo (start stop : Position) : SourceSpan where
  startOffset := start.offset
  endOffset := stop.offset
  startLine := start.line
  startColumn := start.column
  endLine := stop.line
  endColumn := stop.column

def isBlank (c : Char) : Bool :=
  c = ' ' || c = '\t' || c = '\r' || c = '\n'

/-- Skip a comment up to, not including, the newline that ends it. -/
def skipComment : Position → List Char → Position × List Char
  | position, [] => (position, [])
  | position, c :: rest =>
      if c = '\n' then (position, c :: rest)
      else skipComment (position.advance c) rest

/-- The longest run of symbol characters: the word, where it ends, what follows. -/
def takeWord : Position → List Char → List Char × Position × List Char
  | position, [] => ([], position, [])
  | position, c :: rest =>
      if isSymbolChar c then
        let tail := takeWord (position.advance c) rest
        (c :: tail.1, tail.2)
      else ([], position, c :: rest)

/-- The token a word becomes, and what is reported about it. -/
def wordToken (span : SourceSpan) (word : List Char) : Token × List Diagnostic :=
  let text := String.ofList word
  if isIntegerWord word then
    match parseInt word with
    | some value => (⟨.integer, span, text, value⟩, [])
    | none => (⟨.integer, span, text, 0⟩,
        [⟨.error, span, "integer literal out of range: " ++ text⟩])
  else if word.head?.any isDigit then
    (⟨.symbol, span, text, 0⟩,
      [⟨.error, span, "invalid number or symbol '" ++ text ++ "'"⟩])
  else (⟨.symbol, span, text, 0⟩, [])

def LexResult.prepend (tokens : List Token) (diagnostics : List Diagnostic)
    (result : LexResult) : LexResult where
  tokens := tokens ++ result.tokens
  diagnostics := diagnostics ++ result.diagnostics

/-- The main loop of `lex`, on the text from `position` on. Every iteration
consumes a character, so `fuel` bounds the iterations by the text's length. -/
def lexLoop : Nat → Position → List Char → Option LexResult
  | _, position, [] =>
      some ⟨[⟨.end, position.spanTo position, "", 0⟩], []⟩
  | 0, _, _ :: _ => none
  | fuel + 1, position, c :: rest =>
      if isBlank c then lexLoop fuel (position.advance c) rest
      else if c = ';' then
        let tail := skipComment position (c :: rest)
        lexLoop fuel tail.1 tail.2
      else if c = '(' || c = ')' then
        let stop := position.advance c
        let kind := if c = '(' then TokenKind.lParen else .rParen
        (lexLoop fuel stop rest).map <|
          .prepend [⟨kind, position.spanTo stop, String.singleton c, 0⟩] []
      else if isSymbolChar c then
        let word := takeWord position (c :: rest)
        let token := wordToken (position.spanTo word.2.1) word.1
        (lexLoop fuel word.2.1 word.2.2).map <| .prepend [token.1] token.2
      else
        let stop := position.advance c
        (lexLoop fuel stop rest).map <| .prepend []
          [⟨.error, position.spanTo stop,
            "unexpected character '" ++ String.singleton c ++ "'"⟩]

/-- `lex`, or `none` where it never returns: `offset` counts in 32 bits, so the
loop's exit test `offset < src.size()` cannot fail on a longer source. -/
def lex (source : Bytes) : Option LexResult :=
  if source.length < 2 ^ 32 then
    lexLoop source.length {} (source.map Char.ofUInt8)
  else none

example : (lex (bytes "(beep) ;x")).map (fun result => result.tokens.map Token.text) =
    some ["(", "beep", ")", ""] := by decide

end CardCode
