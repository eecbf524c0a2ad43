import SqlTokens.Lexeme.Basic
import SqlTokens.Scanner.State

/-!
# Outcomes of a step

One step of the scanner either yields a token or reads something that is no token: blanks, a
comment, or the marks of a vendor comment. In both cases there is a cursor behind it and a new
state.
-/

namespace SqlTokens

/-- What one step yields. -/
inductive Outcome where
  /-- A token, with the cursor and the state behind it. -/
  | token (token : Token) (next : Cursor) (state : State)
  /-- No token, but a cursor and a state to go on with. -/
  | trivia (next : Cursor) (state : State)
  deriving DecidableEq, Repr

namespace Outcome

/-- The cursor behind a step. -/
def next : Outcome → Cursor
  | token _ next _ => next
  | trivia next _ => next

/-- The outcome of a lexeme, whose error is added to the state. -/
def ofLexeme (c : Cursor) (s : State) (l : Lexeme) : Outcome :=
  token (l.token c) l.stop (s.report l.fault)

/-- Whether a step reads on from a cursor. -/
def Reads (o : Outcome) (c : Cursor) : Prop := o.next.remaining < c.remaining

/-- A lexeme that reads on is a step that reads on. -/
theorem ofLexeme_reads {c : Cursor} {l : Lexeme} (s : State) (h : l.Reads c) :
    (ofLexeme c s l).Reads c := h

end Outcome

end SqlTokens
