import SqlTokens.Config
import SqlTokens.Lexeme.Variable
import SqlTokens.Scanner.Comment
import SqlTokens.Table

/-!
# One step of the scanner

A step reads one piece of the source. After blanks, the rune at the cursor decides: a character of
several bytes opens a name, a rune that is not well formed is a malformed token by itself, and every
other rune is looked up in the table. Every step that finds something to read reads some of it
(`step_reads`), so a scanner that goes on after comments comes to a token or to the end.
-/

namespace SqlTokens

/-- What the form of a starter makes of the bytes at a cursor. -/
def Starter.outcome (starter : Starter) (config : Config) (s : State) (c : Cursor) : Outcome :=
  let escapes := !config.has .noBackslashEscapes
  match starter with
  | .slash => Comment.slash s c
  | .star => Comment.star s c
  | .sharp => Comment.sharp s c
  | .dash => Comment.dash s c
  | .at => .ofLexeme c s (.anyVariable escapes c)
  | .dot => .ofLexeme c s (.dot s.afterNameDot c)
  | .number => .ofLexeme c s (.number s.afterNameDot c)
  | .string => .ofLexeme c s (.string escapes c)
  | .quotedIdentifier => .ofLexeme c s (.quotedIdentifier c)
  | .hexMark => .ofLexeme c s (.hexString c)
  | .bitMark => .ofLexeme c s (.bitString c)
  | .nationalMark => .ofLexeme c s (.national c)
  | .identifier => .ofLexeme c s (.word c)

/-- The lexeme of an operator between two cursors. The beginning of an operator that is none itself
is malformed, and its first byte is reported. -/
def Lexeme.operator (kind : TokenKind) (c stop : Cursor) : Lexeme :=
  if kind = .invalid then broken (.unexpectedByte (c.ahead.headD 0)) c stop else whole kind c stop

/-- What the piece at a cursor yields, if the cursor stands behind blanks and before the end. -/
def stepAt (table : Table) (config : Config) (s : State) (c : Cursor) : Outcome :=
  let r := c.rune
  -- A byte-order mark is read as such at the start of the source only.
  if r.isBom then .trivia c.advance s
  else if r.isExtended then .ofLexeme c s (.word c)
  else if r.isInvalid then .ofLexeme c s (.broken .invalidUtf8 c c.advance)
  else match table.walk c with
    | (.starter starter, _) => starter.outcome config s c
    | (.fixed kind, stop) => .ofLexeme c s (.operator kind c stop)
    | (.none, _) => .ofLexeme c s (.broken (.unexpectedByte (c.ahead.headD 0)) c c.advance)

/-- What the next piece of a source yields. -/
def step (table : Table) (config : Config) (s : State) (c : Cursor) : Outcome :=
  let first := c.skipWhile Rune.isSpace
  if first.atEnd then .token (.endAt first.pos) first s
  else stepAt table config s first

/-! ## Progress -/

/-- Every form reads the byte that opens it. -/
theorem Starter.outcome_reads (starter : Starter) (config : Config) (s : State) {c : Cursor}
    (h : c.atEnd = false) : (starter.outcome config s c).Reads c := by
  cases starter with
  | slash => exact Comment.slash_reads s h
  | star => exact Comment.star_reads s h
  | sharp => exact Comment.sharp_reads s h
  | dash => exact Comment.dash_reads s h
  | «at» => exact Outcome.ofLexeme_reads s (Lexeme.anyVariable_reads _ h)
  | dot => exact Outcome.ofLexeme_reads s (Lexeme.dot_reads _ h)
  | number => exact Outcome.ofLexeme_reads s (Lexeme.number_reads _ h)
  | string => exact Outcome.ofLexeme_reads s (Lexeme.quoted_reads _ _ _ h)
  | quotedIdentifier => exact Outcome.ofLexeme_reads s (Lexeme.quoted_reads _ _ _ h)
  | hexMark => exact Outcome.ofLexeme_reads s (Lexeme.quotedDigits_reads _ _ _ h)
  | bitMark => exact Outcome.ofLexeme_reads s (Lexeme.quotedDigits_reads _ _ _ h)
  | nationalMark => exact Outcome.ofLexeme_reads s (Lexeme.national_reads h)
  | identifier => exact Outcome.ofLexeme_reads s (Lexeme.word_reads h)

/-- An operator ends where the walk does. -/
@[simp] theorem Lexeme.operator_stop (kind : TokenKind) (c stop : Cursor) :
    (Lexeme.operator kind c stop).stop = stop := by
  unfold Lexeme.operator
  split <;> rfl

/-- What starts at a cursor is read. -/
theorem stepAt_reads (table : Table) (config : Config) (s : State) {c : Cursor}
    (h : c.atEnd = false) : (stepAt table config s c).Reads c := by
  have h1 := Cursor.remaining_advance_lt h
  unfold stepAt
  simp only
  split
  · exact h1
  · split
    · exact Outcome.ofLexeme_reads s (Lexeme.word_reads h)
    · split
      · exact h1
      · split
        · exact Starter.outcome_reads _ config s h
        · rename_i hw
          have := Table.remaining_walk_lt hw
          simpa [Outcome.Reads, Outcome.ofLexeme, Outcome.next] using this
        · exact h1

/-- A step that comes to no end reads on. -/
theorem step_reads (table : Table) (config : Config) (s : State) {c : Cursor}
    (h : (c.skipWhile Rune.isSpace).atEnd = false) : (step table config s c).Reads c := by
  unfold step
  simp only [h, Bool.false_eq_true, if_false]
  exact Nat.lt_of_lt_of_le (stepAt_reads table config s h) (Cursor.remaining_skipWhile_le _ c)

/-- A step without token reads on. -/
theorem step_reads_of_trivia {table : Table} {config : Config} {s s' : State} {c next : Cursor}
    (h : step table config s c = .trivia next s') : next.remaining < c.remaining := by
  cases he : (c.skipWhile Rune.isSpace).atEnd with
  | false => simpa [h, Outcome.Reads, Outcome.next] using step_reads table config s he
  | true => simp [step, he] at h

/-- A step with a token reads on, unless the token ends the input. -/
theorem step_reads_of_token {table : Table} {config : Config} {s s' : State} {c next : Cursor}
    {t : Token} (h : step table config s c = .token t next s') (ht : t.isEnd = false) :
    next.remaining < c.remaining := by
  cases he : (c.skipWhile Rune.isSpace).atEnd with
  | false => simpa [h, Outcome.Reads, Outcome.next] using step_reads table config s he
  | true =>
    simp only [step, he, if_true, Outcome.token.injEq] at h
    simp [← h.1, Token.isEnd, Token.endAt] at ht

end SqlTokens
