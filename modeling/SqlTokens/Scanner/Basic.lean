import SqlTokens.Scanner.Step

/-!
# The scanner

A scanner reads one source with one table and one set of settings. `scan` yields the next raw token:
names are left names, whatever they spell. It goes on over comments until a token or the end comes,
and afterwards notes what the token means for those that follow. At the end of the source every scan
yields the same token.
-/

namespace SqlTokens

/-- The next token behind comments, and the cursor and state behind it. -/
def nextToken (table : Table) (config : Config) (s : State) (c : Cursor) : Token × Cursor × State :=
  match _h : step table config s c with
  | .token t next s => (t, next, s)
  | .trivia next s => nextToken table config s next
termination_by c.remaining
decreasing_by exact step_reads_of_trivia _h

/-- A token that does not end the input has been read. -/
theorem remaining_nextToken_lt (table : Table) (config : Config) (s : State) (c : Cursor)
    (ht : (nextToken table config s c).1.isEnd = false) :
    (nextToken table config s c).2.1.remaining < c.remaining := by
  fun_induction nextToken table config s c with
  | case1 s c t next s' h => exact step_reads_of_token h ht
  | case2 s c next s' h ih => exact Nat.lt_trans (ih ht) (step_reads_of_trivia h)

/-- A source with what it is read by, and how far it has been read. -/
structure Scanner where
  /-- The vocabulary. -/
  table : Table
  /-- The settings. -/
  config : Config
  /-- How far the source has been read. -/
  cursor : Cursor
  /-- What is carried from token to token. -/
  state : State
  /-- The offset at which the last token starts. -/
  lastStart : Nat
  deriving DecidableEq, Repr

namespace Scanner

/-- The scanner at the start of a source. -/
def start (table : Table) (config : Config) (source : Bytes) : Scanner :=
  ⟨table, config, .start source, {}, 0⟩

/-- The scanner with the same vocabulary and settings at the start of another source. -/
def restart (s : Scanner) (source : Bytes) : Scanner :=
  start s.table s.config source

/-- The scanner with another mode, for what is still to be read. -/
def setMode (s : Scanner) (mode : SqlMode) : Scanner :=
  { s with config := { s.config with mode } }

/-- The scanner behind a version number with the given least and greatest numbers of digits. -/
def skipVersion (s : Scanner) (least most : Nat) : Scanner :=
  { s with cursor := Lexeme.version least most s.cursor }

/-- The number of bytes not yet read. -/
def remaining (s : Scanner) : Nat := s.cursor.remaining

/-- What a raw token is as a keyword: the kind of the word that a name spells, and the end of input
for everything else. -/
def keywordKind (table : Table) (t : Token) : TokenKind :=
  if t.kind = .identifier then ((table.keyword? t.text).map Keyword.kind).getD .eof else .eof

/-- Whether what follows a token belongs to a qualified name: a dot right behind a name makes it so,
and the dot itself keeps it so. -/
def nameDot (t : Token) (next : Cursor) (before : Bool) : Bool :=
  if t.kind = .identifier ∨ t.kind = .quotedIdentifier then next.rune.is '.'
  else if t.kind = .ofChar '.' then before
  else false

/-- The state behind a token. -/
def settle (table : Table) (t : Token) (next : Cursor) (state : State) : State :=
  { state with
    recent := state.recent.push (keywordKind table t)
    afterNameDot := nameDot t next state.afterNameDot }

/-- The next raw token, and the scanner behind it. -/
def scan (s : Scanner) : Token × Scanner :=
  let (t, next, state) := nextToken s.table s.config s.state s.cursor
  (t, { s with
    cursor := next
    state := settle s.table t next state
    lastStart := t.pos.offset })

/-- A scan that comes to no end reads on. -/
theorem remaining_scan_lt {s : Scanner} (h : s.scan.1.isEnd = false) :
    s.scan.2.remaining < s.remaining :=
  remaining_nextToken_lt _ _ _ _ h

end Scanner

end SqlTokens
