import SqlTokens.Scanner.Basic

/-!
# Resolution of names

Whether a name is a keyword depends on where it stands. Next to a dot it is a part of a qualified
name; a function is known by the parenthesis behind it; and the mode decides about blanks before
that parenthesis, about quotation marks, about two bars and about negation. `Scanner.lex` yields
tokens with these decisions made, for a parser. It relabels the raw tokens and does not read further
than they do.
-/

namespace SqlTokens

namespace Scanner

/-- A blank between a function and its parenthesis. -/
def isFunctionBlank (b : UInt8) : Bool :=
  b == 0x20 || b == 0x09 || b == 0x0A || b == 0x0C || b == 0x0D

/-- Whether a parenthesis comes next; if the mode says so, blanks may come before it. -/
def followedByParenthesis (s : Scanner) : Bool :=
  let ahead := s.cursor.ahead
  let after := if s.config.has .ignoreSpace then ahead.dropWhile isFunctionBlank else ahead
  after.head? == some 0x28

/-- The byte of the source right before a token. -/
def byteBefore? (s : Scanner) (t : Token) : Option UInt8 :=
  if t.pos.offset = 0 then none else s.cursor.source[t.pos.offset - 1]?

/-- Whether a name has a dot at either side. -/
def isQualified (s : Scanner) (t : Token) : Bool :=
  s.cursor.rune.is '.' || s.byteBefore? t == some 0x2E

/-- The character set that a name introduces, by its canonical name. -/
def introduced? (name : Bytes) : Option String :=
  match name with
  | 0x5F :: charset => Vocabulary.charset? charset
  | _ => none

/-- Whether a word counts as a keyword where it stands. -/
def applies (s : Scanner) (word : Keyword) : Bool :=
  match word.role with
  | .keyword | .operator => true
  | .windowFunction => s.config.windowFunctions
  | .builtinFunction => s.followedByParenthesis

/-- The kind of a word that counts as a keyword. -/
def kindOf (s : Scanner) (word : Keyword) : TokenKind :=
  if word.kind = .notWord ∧ s.config.has .highNotPrecedence = true then .tightNot else word.kind

/-- A name that has just been read, as what it is where it stands. -/
def resolveName (s : Scanner) (t : Token) : Token :=
  match introduced? t.text with
  | some charset => { t with kind := .charsetIntroducer, text := Bytes.ofString charset }
  | none =>
    -- Either side of a dot is a name, whatever it spells.
    if s.isQualified t then t
    else match s.table.keyword? t.text with
      | some word => if s.applies word then { t with kind := s.kindOf word } else t
      | none => t

/-- Whether a token is written in quotation marks. -/
def isDoubleQuoted (s : Scanner) (t : Token) : Bool :=
  s.cursor.source[t.pos.offset]? == some 0x22

/-- A raw token that has just been read, as what it is where it stands. -/
def resolve (s : Scanner) (t : Token) : Token :=
  if t.kind = .identifier then s.resolveName t
  else if t.kind = .quotedIdentifier then { t with kind := .identifier }
  else if t.kind = .stringLiteral ∧ s.config.has .ansiQuotes = true ∧ s.isDoubleQuoted t = true then
    { t with kind := .identifier }
  else if t.kind = .pipes ∧ s.config.has .pipesAsConcat = false then { t with kind := .pipesAsOr }
  else t

/-- The history after a raw token has been resolved: a name that is no keyword after all, and one
that introduces a character set, count as the end of input. -/
def noteResolved (raw : Token) (kind : TokenKind) (recent : Recent) : Recent :=
  if raw.kind = .identifier then
    { recent with
      latest := if kind = .identifier ∨ kind = .charsetIntroducer then .eof else kind }
  else recent

/-- The next token as a parser takes it, and the scanner behind it. -/
def lex (s : Scanner) : Token × Scanner :=
  let (raw, next) := s.scan
  let t := next.resolve raw
  (t, { next with state.recent := noteResolved raw t.kind next.state.recent })

end Scanner

end SqlTokens
