import SqlTokens.Scanner.Outcome
import SqlTokens.Lexeme.Number
import SqlTokens.Vocabulary

/-!
# Comments

Comments between `/*` and `*/` close at the first `*/` behind their opening. Three kinds of them are
more than blanks. A vendor comment (`/*!`, perhaps with a version number) is read as code: its
opening is skipped, and so is its end. A feature comment (`/*T!` with a list of features in
brackets) is a vendor comment if all its features are known. A comment for the optimizer (`/*+`) is
a token behind the keywords that take hints. Comments behind `#` or `--` end with their line.
-/

namespace SqlTokens

namespace Comment

/-- The cursor behind the first `*/` from a cursor on. -/
def closing? (c : Cursor) : Option Cursor :=
  -- A star that closes nothing may stand right before one that does.
  let star := c.skipWhile fun r => !r.is '*'
  if star.atEnd then none
  else if star.advance.rune.is '/' then some star.advance.advance
  else closing? star.advance
termination_by c.remaining
decreasing_by
  rename_i h _
  exact Nat.lt_of_lt_of_le (Cursor.remaining_advance_lt (by simpa using h))
    (Cursor.remaining_skipWhile_le _ _)

/-- The end of the line at a cursor: its newline or the end of the source. -/
def lineEnd (c : Cursor) : Cursor :=
  c.skipWhile fun r => !r.is '\n'

/-- The comment that is opened at the first cursor and goes on from the second. -/
def block (s : State) (c inside : Cursor) : Outcome :=
  match closing? inside with
  | some stop => .trivia stop s
  | none => .ofLexeme c s (.broken .unterminatedComment c inside.toEnd)

/-- The names between a cursor and a closing bracket, with commas between them, and the cursor
behind the bracket. Each name has at least one character. -/
def names? (c : Cursor) : Option (List Bytes × Cursor) :=
  let stop := c.skipWhile Rune.isNameChar
  if !c.rune.isNameChar then none
  else if stop.rune.is ']' then some ([c.upTo stop], stop.advance)
  else if stop.rune.is ',' then
    match names? stop.advance with
    | some (names, behind) => some (c.upTo stop :: names, behind)
    | none => none
  else none
termination_by c.remaining
decreasing_by
  rename_i hcomma
  exact Nat.lt_of_lt_of_le (Cursor.remaining_advance_lt (Cursor.atEnd_eq_false_of_is hcomma))
    (Cursor.remaining_skipWhile_le _ _)

/-- The list of names in brackets at a cursor, and the cursor behind it. -/
def bracketed? (c : Cursor) : Option (List Bytes × Cursor) :=
  if c.rune.is '[' then names? c.advance else none

/-- The feature comment at the first cursor whose opening mark ends at the second. Without a list of
features, or with a damaged one, it is a vendor comment from its mark on. -/
def gated (s : State) (c mark : Cursor) : Outcome :=
  match bracketed? mark with
  | some (features, behind) =>
    if features.all Vocabulary.isFeature then .trivia behind s.openVendorBlock
    else block s c behind
  | none => .trivia mark s.openVendorBlock

/-- The comment for the optimizer at the first cursor whose text starts at the second. Behind
`FOR UPDATE` it is not honoured, except in a binding for such a statement. -/
def hint (s : State) (c inside : Cursor) : Outcome :=
  if s.recent.second ≠ .forWord ∨ s.recent.third = .bindingWord then
    match closing? inside with
    | some stop => .token ⟨.optimizerHint, c.pos, c.upTo stop⟩ stop { s with hintAt := some c.pos }
    | none => .ofLexeme c s (.broken .unterminatedComment c inside.toEnd)
  else block (s.warn .ignoredOptimizerHint c.pos) c inside

/-- What starts with the slash at a cursor. -/
def slash (s : State) (c : Cursor) : Outcome :=
  let star := c.advance
  let inside := star.advance
  if !star.rune.is '*' then .ofLexeme c s (.whole (.ofChar '/') c star)
  else if inside.rune.is '!' then .trivia (Lexeme.version 5 5 inside.advance) s.openVendorBlock
  else if inside.rune.is 'T' && inside.advance.rune.is '!' then gated s c inside.advance.advance
  else if inside.rune.is '+' && s.recent.latest.isHintable then hint s c inside
  else block s c inside

/-- What starts with the star at a cursor: the end of an open vendor comment, or an operator. -/
def star (s : State) (c : Cursor) : Outcome :=
  let next := c.advance
  if s.inVendorBlock && next.rune.is '/' then .trivia next.advance { s with inVendorBlock := false }
  else .ofLexeme c { s with afterNameDot := false } (.whole (.ofChar '*') c next)

/-- The comment behind the sharp sign at a cursor. -/
def sharp (s : State) (c : Cursor) : Outcome :=
  .trivia (lineEnd c.advance) s

/-- What starts with the dash at a cursor. Two dashes open a comment if a blank or the end of the
source follows. -/
def dash (s : State) (c : Cursor) : Outcome :=
  let second := c.advance
  let third := second.advance
  if second.rune.is '-' && (third.atEnd || third.rune.isSpace) then .trivia (lineEnd third) s
  else if second.rune.is '>' && third.rune.is '>' then
    .ofLexeme c s (.whole .jsonUnquoteExtract c third.advance)
  else if second.rune.is '>' then .ofLexeme c s (.whole .jsonExtract c third)
  else .ofLexeme c s (.whole (.ofChar '-') c second)

/-! ## Progress -/

/-- The end of a comment lies behind every cursor inside. -/
theorem remaining_closing?_le {c stop : Cursor} (h : closing? c = some stop) :
    stop.remaining ≤ c.remaining := by
  fun_induction closing? c with
  | case1 => cases h
  | case2 c star _ _ =>
    cases h
    exact Nat.le_trans (Cursor.remaining_advance_le _)
      (Nat.le_trans (Cursor.remaining_advance_le _) (Cursor.remaining_skipWhile_le _ _))
  | case3 c star _ _ ih =>
    exact Nat.le_trans (ih h)
      (Nat.le_trans (Cursor.remaining_advance_le _) (Cursor.remaining_skipWhile_le _ _))

/-- The end of a list of names lies behind its beginning. -/
theorem remaining_names?_le {c behind : Cursor} {names : List Bytes}
    (h : names? c = some (names, behind)) : behind.remaining ≤ c.remaining := by
  fun_induction names? c generalizing names with
  | case1 => cases h
  | case2 c stop _ =>
    cases h
    exact Nat.le_trans (Cursor.remaining_advance_le _) (Cursor.remaining_skipWhile_le _ _)
  | case3 =>
    rename_i hn ih
    cases h
    exact Nat.le_trans (ih hn)
      (Nat.le_trans (Cursor.remaining_advance_le _) (Cursor.remaining_skipWhile_le _ _))
  | case4 => cases h
  | case5 => cases h

/-- The end of a list in brackets lies behind its beginning. -/
theorem remaining_bracketed?_le {c behind : Cursor} {names : List Bytes}
    (h : bracketed? c = some (names, behind)) : behind.remaining ≤ c.remaining := by
  unfold bracketed? at h
  split at h
  · exact Nat.le_trans (remaining_names?_le h) (Cursor.remaining_advance_le _)
  · cases h

/-- A comment is read if its opening is. -/
theorem block_reads (s : State) {c inside : Cursor} (h : inside.remaining < c.remaining) :
    (block s c inside).Reads c := by
  unfold block
  split
  · exact Nat.lt_of_le_of_lt (remaining_closing?_le ‹_›) h
  · exact Nat.lt_of_le_of_lt inside.remaining_toEnd_le h

/-- A feature comment is read if its opening is. -/
theorem gated_reads (s : State) {c mark : Cursor} (h : mark.remaining < c.remaining) :
    (gated s c mark).Reads c := by
  unfold gated
  split
  · rename_i hb
    have := Nat.lt_of_le_of_lt (remaining_bracketed?_le hb) h
    split
    · exact this
    · exact block_reads s this
  · exact h

/-- A comment for the optimizer is read if its opening is. -/
theorem hint_reads (s : State) {c inside : Cursor} (h : inside.remaining < c.remaining) :
    (hint s c inside).Reads c := by
  unfold hint
  split
  · split
    · exact Nat.lt_of_le_of_lt (remaining_closing?_le ‹_›) h
    · exact Nat.lt_of_le_of_lt inside.remaining_toEnd_le h
  · exact block_reads _ h

/-- What starts with a slash is read. -/
theorem slash_reads (s : State) {c : Cursor} (h : c.atEnd = false) : (slash s c).Reads c := by
  have h1 := Cursor.remaining_advance_lt h
  have h2 := Nat.lt_of_le_of_lt c.advance.remaining_advance_le h1
  have h3 := Nat.lt_of_le_of_lt c.advance.advance.remaining_advance_le h2
  have h4 := Nat.lt_of_le_of_lt c.advance.advance.advance.remaining_advance_le h3
  unfold slash
  simp only
  repeat' split
  · exact h1
  · exact Nat.lt_of_le_of_lt (Lexeme.remaining_version_le 5 5 _) h3
  · exact gated_reads s h4
  · exact hint_reads s h2
  · exact block_reads s h2

/-- What starts with a star is read. -/
theorem star_reads (s : State) {c : Cursor} (h : c.atEnd = false) : (star s c).Reads c := by
  have h1 := Cursor.remaining_advance_lt h
  unfold star
  simp only
  split
  · exact Nat.lt_of_le_of_lt c.advance.remaining_advance_le h1
  · exact h1

/-- A comment behind a sharp sign is read. -/
theorem sharp_reads (s : State) {c : Cursor} (h : c.atEnd = false) : (sharp s c).Reads c :=
  Cursor.remaining_lt_of_le_advance h (Cursor.remaining_skipWhile_le _ _)

/-- What starts with a dash is read. -/
theorem dash_reads (s : State) {c : Cursor} (h : c.atEnd = false) : (dash s c).Reads c := by
  have h1 := Cursor.remaining_advance_lt h
  have h2 := Nat.lt_of_le_of_lt c.advance.remaining_advance_le h1
  unfold dash
  simp only
  repeat' split
  · exact Nat.lt_of_le_of_lt (Cursor.remaining_skipWhile_le _ _) h2
  · exact Nat.lt_of_le_of_lt (Cursor.remaining_advance_le _) h2
  · exact h2
  · exact h1

end Comment

end SqlTokens
