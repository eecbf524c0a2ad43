import SqlTokens.Cursor.Basic
import SqlTokens.Diagnostic
import SqlTokens.Token.Basic

/-!
# Lexemes

A lexeme is what one form of the language makes of the bytes at a cursor: a kind, the text that the
piece stands for, the cursor behind it, and what is wrong with it, if anything is. Forms are
functions from a cursor to a lexeme. Each of them reads at least the rune it starts with (`Reads`),
so that scanning makes progress whatever the table sends where.
-/

namespace SqlTokens

/-- A piece of the source as one form reads it. -/
structure Lexeme where
  /-- What the piece is. -/
  kind : TokenKind
  /-- What it stands for. -/
  text : Bytes
  /-- The cursor behind it. -/
  stop : Cursor
  /-- What is wrong with it. -/
  fault : Option ScanError
  deriving DecidableEq, Repr

namespace Lexeme

/-- The lexeme that stands for exactly the bytes between two cursors. -/
def whole (kind : TokenKind) (first stop : Cursor) : Lexeme :=
  ⟨kind, first.upTo stop, stop, none⟩

/-- The malformed lexeme between two cursors, with an error at its start. -/
def broken (error : ScanErrorKind) (first stop : Cursor) : Lexeme :=
  ⟨.invalid, first.upTo stop, stop, some ⟨error, first.pos⟩⟩

/-- The token of a lexeme that starts at the given cursor. -/
def token (l : Lexeme) (first : Cursor) : Token :=
  ⟨l.kind, first.pos, l.text⟩

/-- Whether a lexeme reads on from a cursor. -/
def Reads (l : Lexeme) (c : Cursor) : Prop := l.stop.remaining < c.remaining

/-- A lexeme between two cursors ends at the second. -/
@[simp] theorem whole_stop (kind : TokenKind) (first stop : Cursor) :
    (whole kind first stop).stop = stop := rfl

/-- A malformed lexeme between two cursors ends at the second. -/
@[simp] theorem broken_stop (error : ScanErrorKind) (first stop : Cursor) :
    (broken error first stop).stop = stop := rfl

end Lexeme

namespace Cursor

/-- What lies at or behind the next cursor has been read past this one. -/
theorem remaining_lt_of_le_advance {c d : Cursor} (h : c.atEnd = false)
    (hd : d.remaining ≤ c.advance.remaining) : d.remaining < c.remaining :=
  Nat.lt_of_le_of_lt hd (remaining_advance_lt h)

end Cursor

end SqlTokens
