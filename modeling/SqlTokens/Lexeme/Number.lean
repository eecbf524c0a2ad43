import SqlTokens.Lexeme.Word

/-!
# Numbers

Digits alone, and digits behind a leading zero and a letter, are a number only if no name character
follows; else the whole run of name characters is a name. A number with a point or an exponent ends
with its last digit, whatever follows. An exponent mark without digits makes no number: the form is
then the name at its start, which a point ends, or malformed if it starts with a point. The
hexadecimal and binary notations exist once more, as a letter before quotes.
-/

namespace SqlTokens.Lexeme

/-- The literal behind a zero and a letter, if it has digits and is not the beginning of a longer
name. -/
def radix (kind : TokenKind) (digit : Rune → Bool) (c : Cursor) : Lexeme :=
  let first := c.advance.advance
  let stop := first.skipWhile digit
  if digit first.rune && !stop.rune.isNameChar then whole kind c stop else word c

/-- The cursor behind the exponent that is marked at a cursor: a sign may stand before its digits,
of which there is at least one. -/
def exponent? (mark : Cursor) : Option Cursor :=
  let sign := mark.advance
  let first := if sign.rune.is '+' || sign.rune.is '-' then sign.advance else sign
  if first.rune.isDigit then some (first.skipWhile Rune.isDigit) else none

/-- The number whose digits and point end at the second cursor, with an exponent if one is marked
there; none if the mark has no digits. -/
def scaled? (c digits : Cursor) : Option Lexeme :=
  if digits.rune.is 'e' || digits.rune.is 'E' then
    (exponent? digits).map (whole .floatLiteral c)
  else some (whole .decimalLiteral c digits)

/-- The form that starts with the digit at a cursor. Behind the point after a name it is a name. -/
def number (afterNameDot : Bool) (c : Cursor) : Lexeme :=
  -- An upper-case B opens no binary literal: it goes on the way of any name character.
  let second := c.advance.rune
  let digits := c.advance.skipWhile Rune.isDigit
  let next := digits.rune
  if afterNameDot then word c
  else if c.rune.is '0' && (second.is 'x' || second.is 'X') then radix .hexLiteral Rune.isHexDigit c
  else if c.rune.is '0' && second.is 'b' then radix .bitLiteral Rune.isBit c
  else if next.is '.' then (scaled? c (digits.advance.skipWhile Rune.isDigit)).getD (word c)
  else if next.is 'e' || next.is 'E' then (scaled? c digits).getD (word c)
  else if next.isNameChar then word c
  else whole .intLiteral c digits

/-- The form that starts with the point at a cursor: a number if a digit follows, unless the point
belongs to a name. A number with a bad exponent is malformed together with the name it runs into. -/
def dot (afterNameDot : Bool) (c : Cursor) : Lexeme :=
  let next := c.advance
  if afterNameDot || !next.rune.isDigit then whole (.ofChar '.') c next
  else
    (scaled? c (next.skipWhile Rune.isDigit)).getD
      (whole .invalid c (next.skipWhile Rune.isNameChar))

/-- The literal in quotes behind the letter at a cursor; without the quote it is a name. The first
rune that is no digit and no closing quote is left unread. -/
def quotedDigits (kind : TokenKind) (error : ScanErrorKind) (digit : Rune → Bool) (c : Cursor) :
    Lexeme :=
  let opening := c.advance
  let stop := opening.advance.skipWhile digit
  if !opening.rune.is '\'' then word c
  else if stop.rune.is '\'' then whole kind c stop.advance
  else broken error c stop

/-- The form that starts with an `x`. -/
def hexString (c : Cursor) : Lexeme :=
  quotedDigits .hexLiteral .invalidHexLiteral Rune.isHexDigit c

/-- The form that starts with a `b`. -/
def bitString (c : Cursor) : Lexeme :=
  quotedDigits .bitLiteral .invalidBitLiteral Rune.isBit c

/-! ## Version numbers -/

/-- The cursor behind the digits at a cursor, of which at most the given number are read. -/
def skipDigits (c : Cursor) : Nat → Cursor
  | 0 => c
  | n + 1 => if c.rune.isDigit then skipDigits c.advance n else c

/-- The cursor behind a version number of at most `most` digits. If the digits end before either
bound is reached, none is read. -/
def version (least most : Nat) (c : Cursor) : Cursor :=
  let stop := skipDigits c most
  let digits := stop.offset - c.offset
  if digits < least ∧ digits < most then c else stop

/-- Reading digits never brings bytes back. -/
theorem remaining_skipDigits_le (c : Cursor) (n : Nat) :
    (skipDigits c n).remaining ≤ c.remaining := by
  induction n generalizing c with
  | zero => exact Nat.le_refl _
  | succ n ih =>
    unfold skipDigits
    split
    · exact Nat.le_trans (ih c.advance) c.remaining_advance_le
    · exact Nat.le_refl _

/-- A version number never brings bytes back. -/
theorem remaining_version_le (least most : Nat) (c : Cursor) :
    (version least most c).remaining ≤ c.remaining := by
  unfold version
  simp only
  split
  · exact Nat.le_refl _
  · exact remaining_skipDigits_le c most

/-! ## Progress -/

/-- A literal with a leading zero is read. -/
theorem radix_reads (kind : TokenKind) (digit : Rune → Bool) {c : Cursor} (h : c.atEnd = false) :
    (radix kind digit c).Reads c := by
  unfold radix
  simp only
  split
  · exact Cursor.remaining_lt_of_le_advance h
      (Nat.le_trans (Cursor.remaining_skipWhile_le _ _) (Cursor.remaining_advance_le _))
  · exact word_reads h

/-- An exponent never brings bytes back. -/
theorem remaining_exponent?_le {mark stop : Cursor} (h : exponent? mark = some stop) :
    stop.remaining ≤ mark.remaining := by
  unfold exponent? at h
  simp only [Option.ite_none_right_eq_some, Option.some.injEq] at h
  obtain ⟨_, rfl⟩ := h
  refine Nat.le_trans (Cursor.remaining_skipWhile_le _ _) ?_
  split
  · exact Nat.le_trans (Cursor.remaining_advance_le _) (Cursor.remaining_advance_le _)
  · exact Cursor.remaining_advance_le _

/-- A number with a point or an exponent is read if its digits are. -/
theorem scaled?_reads {c digits : Cursor} {l : Lexeme} (hd : digits.remaining < c.remaining)
    (h : scaled? c digits = some l) : l.Reads c := by
  unfold scaled? at h
  split at h
  · obtain ⟨stop, hs, rfl⟩ := Option.map_eq_some_iff.mp h
    exact Nat.lt_of_le_of_lt (remaining_exponent?_le hs) hd
  · cases h
    exact hd

/-- Either reading of a form that may be a number is read. -/
theorem getD_scaled?_reads {c digits : Cursor} {l : Lexeme} (hd : digits.remaining < c.remaining)
    (hl : l.Reads c) : ((scaled? c digits).getD l).Reads c := by
  cases h : scaled? c digits with
  | none => exact hl
  | some m => exact scaled?_reads hd h

/-- A form that starts with a digit is read. -/
theorem number_reads (afterNameDot : Bool) {c : Cursor} (h : c.atEnd = false) :
    (number afterNameDot c).Reads c := by
  have hdigits : (c.advance.skipWhile Rune.isDigit).remaining < c.remaining :=
    Cursor.remaining_lt_of_le_advance h (Cursor.remaining_skipWhile_le _ _)
  have hpoint : ((c.advance.skipWhile Rune.isDigit).advance.skipWhile Rune.isDigit).remaining
      < c.remaining :=
    Nat.lt_of_le_of_lt
      (Nat.le_trans (Cursor.remaining_skipWhile_le _ _) (Cursor.remaining_advance_le _)) hdigits
  unfold number
  simp only
  repeat' split
  · exact word_reads h
  · exact radix_reads _ _ h
  · exact radix_reads _ _ h
  · exact getD_scaled?_reads hpoint (word_reads h)
  · exact getD_scaled?_reads hdigits (word_reads h)
  · exact word_reads h
  · exact hdigits

/-- A form that starts with a point is read. -/
theorem dot_reads (afterNameDot : Bool) {c : Cursor} (h : c.atEnd = false) :
    (dot afterNameDot c).Reads c := by
  unfold dot
  simp only
  split
  · exact Cursor.remaining_advance_lt h
  · exact getD_scaled?_reads
      (Cursor.remaining_lt_of_le_advance h (Cursor.remaining_skipWhile_le _ _))
      (Cursor.remaining_lt_of_le_advance h (Cursor.remaining_skipWhile_le _ _))

/-- A form that starts with the letter of a notation is read. -/
theorem quotedDigits_reads (kind : TokenKind) (error : ScanErrorKind) (digit : Rune → Bool)
    {c : Cursor} (h : c.atEnd = false) : (quotedDigits kind error digit c).Reads c := by
  have hstop : (c.advance.advance.skipWhile digit).remaining < c.remaining :=
    Cursor.remaining_lt_of_le_advance h
      (Nat.le_trans (Cursor.remaining_skipWhile_le _ _) (Cursor.remaining_advance_le _))
  unfold quotedDigits
  simp only
  split
  · exact word_reads h
  · split
    · exact Nat.lt_of_le_of_lt (Cursor.remaining_advance_le _) hstop
    · exact hstop

end SqlTokens.Lexeme
