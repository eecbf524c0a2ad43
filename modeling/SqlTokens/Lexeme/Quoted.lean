import SqlTokens.Lexeme.Basic

/-!
# Quoted forms

Strings stand in either quote and names in backticks. Inside, the delimiter is written twice. In a
string a backslash can also escape the rune after it, unless the mode forbids; a backslash that is
the last byte of the source stands for itself. What the quotes enclose may be any bytes.
-/

namespace SqlTokens.Lexeme

/-- What the rune at a cursor stands for behind a backslash. The two wildcards of patterns keep
their backslash, and a rune without meaning of its own stands for its bytes. -/
def escaped (c : Cursor) : Bytes :=
  let r := c.rune
  let written := c.upTo c.advance
  if r.is 'n' then [0x0A]
  else if r.is 't' then [0x09]
  else if r.is 'r' then [0x0D]
  else if r.is 'b' then [0x08]
  else if r.is '0' then [0x00]
  else if r.is 'Z' then [0x1A]
  else if r.is '%' || r.is '_' then 0x5C :: written
  else written

/-- The text from a cursor up to the closing quote, if there is one, and the cursor behind the quote
or at the end. -/
def enclosed (quote : Rune) (escapes : Bool) (c : Cursor) : Option Bytes × Cursor :=
  if c.atEnd then (none, c)
  else
    let next := c.advance
    if c.rune = quote then
      -- The delimiter twice is the delimiter once; alone it closes the form.
      if next.rune = quote then
        let rest := enclosed quote escapes next.advance
        (rest.1.map (c.upTo next ++ ·), rest.2)
      else (some [], next)
    else if escapes && c.rune.is '\\' && !next.atEnd then
      let rest := enclosed quote escapes next.advance
      (rest.1.map (escaped next ++ ·), rest.2)
    else
      let rest := enclosed quote escapes next
      (rest.1.map (c.upTo next ++ ·), rest.2)
termination_by c.remaining
decreasing_by
  · exact Cursor.remaining_lt_of_le_advance (by simp_all) (Cursor.remaining_advance_le _)
  · exact Cursor.remaining_lt_of_le_advance (by simp_all) (Cursor.remaining_advance_le _)
  · exact Cursor.remaining_lt_of_le_advance (by simp_all) (Nat.le_refl _)

/-- The quoted form at a cursor: its text if it is closed, else everything up to the end. -/
def quoted (kind : TokenKind) (error : ScanErrorKind) (escapes : Bool) (c : Cursor) : Lexeme :=
  match enclosed c.rune escapes c.advance with
  | (some text, stop) => ⟨kind, text, stop, none⟩
  | (none, stop) => broken error c stop

/-- The string at a cursor. -/
def string (escapes : Bool) (c : Cursor) : Lexeme :=
  quoted .stringLiteral .unterminatedString escapes c

/-- The name in backticks at a cursor. -/
def quotedIdentifier (c : Cursor) : Lexeme :=
  quoted .quotedIdentifier .unterminatedQuotedIdentifier false c

/-- Reading up to a closing quote never brings bytes back. -/
theorem remaining_enclosed_le (quote : Rune) (escapes : Bool) (c : Cursor) :
    (enclosed quote escapes c).2.remaining ≤ c.remaining := by
  fun_induction enclosed quote escapes c with
  | case1 => exact Nat.le_refl _
  | case2 c _ next _ _ rest ih =>
    exact Nat.le_trans ih (Nat.le_trans next.remaining_advance_le c.remaining_advance_le)
  | case3 c => exact c.remaining_advance_le
  | case4 c _ next _ _ rest ih =>
    exact Nat.le_trans ih (Nat.le_trans next.remaining_advance_le c.remaining_advance_le)
  | case5 c _ next _ _ rest ih => exact Nat.le_trans ih c.remaining_advance_le

/-- A quoted form ends at or behind the cursor after its opening quote. -/
theorem remaining_quoted_le_advance (kind : TokenKind) (error : ScanErrorKind) (escapes : Bool)
    (c : Cursor) : (quoted kind error escapes c).stop.remaining ≤ c.advance.remaining := by
  have hle := remaining_enclosed_le c.rune escapes c.advance
  unfold quoted
  split
  · rename_i he
    simpa [he] using hle
  · rename_i he
    simpa [he] using hle

/-- A quoted form never brings bytes back. -/
theorem remaining_quoted_le (kind : TokenKind) (error : ScanErrorKind) (escapes : Bool)
    (c : Cursor) : (quoted kind error escapes c).stop.remaining ≤ c.remaining :=
  Nat.le_trans (remaining_quoted_le_advance kind error escapes c) c.remaining_advance_le

/-- A quoted form is read. -/
theorem quoted_reads (kind : TokenKind) (error : ScanErrorKind) (escapes : Bool) {c : Cursor}
    (h : c.atEnd = false) : (quoted kind error escapes c).Reads c :=
  Cursor.remaining_lt_of_le_advance h (remaining_quoted_le_advance kind error escapes c)

end SqlTokens.Lexeme
