import SqlTokens.Lexeme.Basic

/-!
# Names

A name without quotes is a longest run of name characters. Whether it is a keyword is decided later,
where it is known what stands around it. An `n` right before a quote is the national introducer,
which stands for a character set.
-/

namespace SqlTokens.Lexeme

/-- The name that starts at a cursor. -/
def word (c : Cursor) : Lexeme :=
  whole .identifier c (c.advance.skipWhile Rune.isNameChar)

/-- The name that starts with an `n`, or the introducer of a national string. -/
def national (c : Cursor) : Lexeme :=
  let name := word c
  if Bytes.sameLetters name.text (Bytes.ofString "n") && name.stop.rune.is '\'' then
    ⟨.charsetIntroducer, Bytes.ofString "utf8", name.stop, none⟩
  else name

/-- A name is read. -/
theorem word_reads {c : Cursor} (h : c.atEnd = false) : (word c).Reads c :=
  Cursor.remaining_lt_of_le_advance h (Cursor.remaining_skipWhile_le _ _)

/-- A name or introducer is read. -/
theorem national_reads {c : Cursor} (h : c.atEnd = false) : (national c).Reads c := by
  unfold national
  simp only
  split
  · exact word_reads h
  · exact word_reads h

end SqlTokens.Lexeme
