import SqlTokens.Lexeme.Quoted

/-!
# Variables

A variable is a name behind one mark, for the user's, or behind two, for the system's. The name may
be quoted in any of the three ways, or it is a longest run of name characters and dots. A system
variable may name its scope between marks and name, and its text keeps marks and scope as they are
written. A single mark before anything else that can be read is a user variable without name.
-/

namespace SqlTokens.Lexeme

/-- The scopes of system variables, each with its dot. -/
def scopes : List Bytes :=
  ["global.", "session.", "local."].map Bytes.ofString

/-- The name of a variable at a cursor, if one starts there. -/
def variableName? (escapes : Bool) (c : Cursor) : Option Lexeme :=
  if c.rune.isQuote then some (string escapes c)
  else if c.rune.is '\x60' then some (quotedIdentifier c)
  else if c.rune.isVariableChar then
    some (whole .identifier c (c.advance.skipWhile Rune.isVariableChar))
  else none

/-- The variable at the first cursor with the given name, and with what stands before the name and
is part of its text. A name that is not closed makes the whole variable malformed. -/
def named (kind : TokenKind) (c : Cursor) (front : Bytes) (name : Lexeme) : Lexeme :=
  if name.kind = .invalid then ⟨.invalid, c.upTo name.stop, name.stop, name.fault⟩
  else ⟨kind, front ++ name.text, name.stop, none⟩

/-- The system variable behind the two marks at a cursor; without name it is malformed. -/
def systemVariable (escapes : Bool) (c : Cursor) : Lexeme :=
  let marks := c.advance.advance
  let scope := marks.advanceBy ((scopes.find? marks.startsWith).getD []).length
  match variableName? escapes scope with
  | some name => named .systemVariable c (c.upTo scope) name
  | none => whole .invalid c scope

/-- The variable at a cursor. -/
def anyVariable (escapes : Bool) (c : Cursor) : Lexeme :=
  let next := c.advance
  match variableName? escapes next with
  | some name => named .userVariable c [] name
  | none =>
    if next.rune.is '@' then systemVariable escapes c
    else if next.rune.isEof || next.rune.isInvalid then whole .invalid c next
    else ⟨.userVariable, [], next, none⟩

/-! ## Progress -/

/-- The name of a variable never brings bytes back. -/
theorem remaining_variableName?_le {escapes : Bool} {c : Cursor} {name : Lexeme}
    (h : variableName? escapes c = some name) : name.stop.remaining ≤ c.remaining := by
  unfold variableName? at h
  split at h
  · cases h
    exact remaining_quoted_le _ _ _ c
  · split at h
    · cases h
      exact remaining_quoted_le _ _ _ c
    · split at h
      · cases h
        exact Nat.le_trans (Cursor.remaining_skipWhile_le _ _) (Cursor.remaining_advance_le _)
      · cases h

/-- A variable ends where its name does. -/
@[simp] theorem named_stop (kind : TokenKind) (c : Cursor) (front : Bytes) (name : Lexeme) :
    (named kind c front name).stop = name.stop := by
  unfold named
  split <;> rfl

/-- A system variable is read. -/
theorem systemVariable_reads (escapes : Bool) {c : Cursor} (h : c.atEnd = false) :
    (systemVariable escapes c).Reads c := by
  have hscope (n : Nat) : (c.advance.advance.advanceBy n).remaining < c.remaining :=
    Cursor.remaining_lt_of_le_advance h
      (Nat.le_trans (Cursor.remaining_advanceBy_le _ n) (Cursor.remaining_advance_le _))
  unfold systemVariable
  simp only
  split
  · rename_i hn
    simpa [Reads] using Nat.lt_of_le_of_lt (remaining_variableName?_le hn) (hscope _)
  · exact hscope _

/-- A variable is read. -/
theorem anyVariable_reads (escapes : Bool) {c : Cursor} (h : c.atEnd = false) :
    (anyVariable escapes c).Reads c := by
  have hnext := Cursor.remaining_advance_lt h
  unfold anyVariable
  simp only
  split
  · rename_i hn
    simpa [Reads] using Nat.lt_of_le_of_lt (remaining_variableName?_le hn) hnext
  · split
    · exact systemVariable_reads escapes h
    · split
      · exact hnext
      · exact hnext

end SqlTokens.Lexeme
