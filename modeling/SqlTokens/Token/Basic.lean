import SqlTokens.Position
import SqlTokens.Token.Kind
import SqlTokens.Utf8.Lossy

/-!
# Tokens

A token is a piece of the source with its kind, the position of its first byte, and the text that it
stands for. The text is bytes, since malformed input passes through unchanged; for strings and
quoted names it is what the quotes enclose, with escapes undone.
-/

namespace SqlTokens

/-- A piece of the source. -/
structure Token where
  /-- What the piece is. -/
  kind : TokenKind
  /-- Where it starts. -/
  pos : Position
  /-- What it stands for. -/
  text : Bytes
  deriving DecidableEq, Repr

namespace Token

/-- Whether the token ends the input. -/
def isEnd (t : Token) : Bool := t.kind == .eof

/-- The token at the end of the input. -/
def endAt (pos : Position) : Token := ⟨.eof, pos, []⟩

/-- The text of a token as a string, with U+FFFD in the place of malformed parts. -/
def string (t : Token) : String := Utf8.lossy t.text

end Token

end SqlTokens
