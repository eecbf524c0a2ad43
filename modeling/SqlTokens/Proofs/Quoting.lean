import SqlTokens.Proofs.StringContents

/-!
# Quoting and reading back

Whoever writes SQL puts arbitrary bytes between quotes by writing some of them twice
(`Bytes.quoted`): the delimiter, and in a string the backslash where it escapes. Reading takes each
pair back to one byte (`Bytes.string?_quoted`), and stops at the delimiter that stands alone. No
content is in the way of that, since the delimiters and the backslash are runes by themselves
wherever they stand, also behind the beginning of a longer rune that is not completed.
-/

namespace SqlTokens

/-! ## Byte by byte -/

namespace Bytes

/-- Whether a byte is written twice between quotes: the delimiter, and a backslash that would
otherwise escape. -/
def isDoubled (quote : UInt8) (escapes : Bool) (b : UInt8) : Bool :=
  b == quote || (escapes && b == 0x5C)

/-- A byte as it is written between quotes. -/
def written (quote : UInt8) (escapes : Bool) (b : UInt8) : Bytes :=
  if isDoubled quote escapes b then [b, b] else [b]

/-- A content as it is written, with its delimiters. -/
def quoted (quote : UInt8) (escapes : Bool) (content : Bytes) : Bytes :=
  quote :: (content.flatMap (written quote escapes) ++ [quote])

variable {quote : UInt8} {escapes : Bool}

/-- A byte that is written is read as itself, whatever follows. -/
theorem string?_written (hslash : 0x5C ≠ quote) (b : UInt8) (rest : Bytes) :
    string? quote escapes (written quote escapes b ++ rest) =
      prepend [b] (string? quote escapes rest) := by
  by_cases hquote : b = quote
  · have hdoubled : isDoubled quote escapes b = true := by
      rw [isDoubled, hquote, beq_self_eq_true, Bool.true_or]
    rw [written, if_pos hdoubled, hquote, List.cons_append, List.cons_append, List.nil_append,
      string?, if_pos rfl, if_pos rfl]
  · have hplain : isDoubled quote escapes b = (escapes && b == 0x5C) := by
      rw [isDoubled, beq_false_of_ne hquote, Bool.false_or]
    rw [written, hplain]
    rcases hescape : escapes && b == 0x5C with _ | _
    · rw [if_neg Bool.false_ne_true, List.singleton_append, string?_plain hquote hescape]
    · -- Of two backslashes the first escapes the second.
      obtain ⟨hescapes, hb⟩ := Bool.and_eq_true_iff.mp hescape
      rw [if_pos rfl, eq_of_beq hb, hescapes, List.cons_append, List.cons_append,
        List.nil_append, string?_escape hslash]
      rfl

/-- A content between quotes is read back up to the closing quote, unless the quote also stands
behind that. -/
theorem string?_quoted (hslash : 0x5C ≠ quote) (content : Bytes) {rest : Bytes}
    (hrest : rest.head? ≠ some quote) :
    string? quote escapes (content.flatMap (written quote escapes) ++ quote :: rest) =
      some (content, rest) := by
  induction content with
  | nil => exact string?_closing hrest
  | cons b content ih =>
    rw [List.flatMap_cons, List.append_assoc, string?_written hslash, ih]
    rfl

end Bytes

/-! ## At a cursor -/

namespace Lexeme

/-- The delimiters are ASCII characters other than NUL and the backslash. -/
theorem delimiter_facts {quote : UInt8} (h : quote ∈ [0x27, 0x22, 0x60]) :
    quote ≠ 0 ∧ quote < 0x80 ∧ 0x5C ≠ quote ∧
      ∃ ch, Rune.IsByte ch ∧ Rune.ofByte quote = .ofChar ch := by
  simp only [List.mem_cons, List.not_mem_nil, or_false] at h
  rcases h with rfl | rfl | rfl
  · exact ⟨by decide, by decide, by decide, '\'', by decide, rfl⟩
  · exact ⟨by decide, by decide, by decide, '"', by decide, rfl⟩
  · exact ⟨by decide, by decide, by decide, '\x60', by decide, rfl⟩

/-- A quoted content is read back by its form and by the copier, which both stop behind the closing
delimiter. -/
theorem quoted_content (kind : TokenKind) (error : ScanErrorKind) {quote : UInt8}
    (hquote : quote ∈ [0x27, 0x22, 0x60]) (escapes : Bool) (content : Bytes) {rest : Bytes}
    (hrest : rest.head? ≠ some quote) {c : Cursor}
    (hahead : c.ahead = Bytes.quoted quote escapes content ++ rest) :
    ∃ stop, c.Reaches stop ∧ stop.ahead = rest ∧
      copy? (.ofByte quote) escapes ⟨[], c.advance.offset⟩ c.advance =
        some (some content, stop) ∧
      quoted kind error escapes c = ⟨kind, content, stop, none⟩ := by
  obtain ⟨h0, hascii, hslash, ch, hbyte, hch⟩ := delimiter_facts hquote
  rw [Bytes.quoted, List.cons_append, List.append_assoc, List.singleton_append] at hahead
  have hwithin : c.advance.offset ≤ c.advance.source.length := by
    refine (Cursor.Reaches.next c).le_length (Nat.le_of_lt (Cursor.atEnd_eq_false_iff.mp ?_))
    rw [Cursor.atEnd, hahead, List.isEmpty_cons]
  have hcopy : copy? (.ofByte quote) escapes ⟨[], c.advance.offset⟩ c.advance =
      some (enclosed (.ofByte quote) escapes c.advance) := by
    rw [hch, copy?_start hbyte escapes hwithin]
  obtain ⟨stop, hreach, hread, hform⟩ := quoted_string? kind error h0 hascii escapes hahead
  rw [Bytes.string?_quoted hslash content hrest] at hread hform
  rw [hread] at hcopy
  exact ⟨stop, hreach, hform.1, hcopy, hform.2⟩

end Lexeme

/-- Every content can be quoted and read back. If the delimiter is written twice wherever it stands
in the content, and the backslash too where a string has escapes, then between delimiters the
content is read back byte for byte, in a string with either quote and in a name with backticks. The
scanner goes on behind the closing delimiter, provided that no other delimiter follows, and nothing
is reported. The copier that takes the text in runs comes to the same. -/
theorem Starter.outcome_quoted (config : Config) (s : State) (c : Cursor) (content rest : Bytes)
    (escapes : Bool) (hescapes : escapes = !config.has .noBackslashEscapes) :
    (∀ quote ∈ [0x27, 0x22], rest.head? ≠ some quote →
      c.ahead = Bytes.quoted quote escapes content ++ rest →
      ∃ stop, c.Reaches stop ∧ stop.ahead = rest ∧
        Lexeme.copy? (.ofByte quote) escapes ⟨[], c.advance.offset⟩ c.advance =
          some (some content, stop) ∧
        Starter.string.outcome config s c = .token ⟨.stringLiteral, c.pos, content⟩ stop s) ∧
    (rest.head? ≠ some 0x60 → c.ahead = Bytes.quoted 0x60 false content ++ rest →
      ∃ stop, c.Reaches stop ∧ stop.ahead = rest ∧
        Lexeme.copy? (.ofByte 0x60) false ⟨[], c.advance.offset⟩ c.advance =
          some (some content, stop) ∧
        Starter.quotedIdentifier.outcome config s c =
          .token ⟨.quotedIdentifier, c.pos, content⟩ stop s) := by
  have houtcome {l : Lexeme} {kind : TokenKind} {stop : Cursor}
      (hl : l = ⟨kind, content, stop, none⟩) :
      Outcome.ofLexeme c s l = .token ⟨kind, c.pos, content⟩ stop s := by
    rw [hl, Outcome.ofLexeme, State.report_none]
    rfl
  constructor
  · intro quote hquote hrest hahead
    have hquote' : quote ∈ [0x27, 0x22, 0x60] := by
      rcases List.mem_pair.mp hquote with rfl | rfl <;> decide
    obtain ⟨stop, hreach, hbehind, hcopy, hform⟩ := Lexeme.quoted_content .stringLiteral
      .unterminatedString hquote' escapes content hrest hahead
    refine ⟨stop, hreach, hbehind, hcopy, ?_⟩
    rw [← houtcome hform, hescapes]
    rfl
  · intro hrest hahead
    obtain ⟨stop, hreach, hbehind, hcopy, hform⟩ := Lexeme.quoted_content .quotedIdentifier
      .unterminatedQuotedIdentifier (by decide) false content hrest hahead
    refine ⟨stop, hreach, hbehind, hcopy, ?_⟩
    rw [← houtcome hform]
    rfl

/-- A content of a quote, a backslash and a byte that starts a longer rune is read back from a
string and from a name. -/
theorem Starter.outcome_quoted_lead : ∃ stop stop',
    Starter.string.outcome {} {} (.start [0x27, 0x27, 0x27, 0x5C, 0x5C, 0xE2, 0x27, 0x3B]) =
        .token ⟨.stringLiteral, .start, [0x27, 0x5C, 0xE2]⟩ stop {} ∧
      stop.ahead = [0x3B] ∧
      Starter.quotedIdentifier.outcome {} {} (.start [0x60, 0x27, 0x5C, 0xE2, 0x60, 0x3B]) =
        .token ⟨.quotedIdentifier, .start, [0x27, 0x5C, 0xE2]⟩ stop' {} ∧
      stop'.ahead = [0x3B] := by
  obtain ⟨hstring, -⟩ := Starter.outcome_quoted {} {}
    (.start [0x27, 0x27, 0x27, 0x5C, 0x5C, 0xE2, 0x27, 0x3B]) [0x27, 0x5C, 0xE2] [0x3B] true
    (by decide)
  obtain ⟨-, hname⟩ := Starter.outcome_quoted {} {}
    (.start [0x60, 0x27, 0x5C, 0xE2, 0x60, 0x3B]) [0x27, 0x5C, 0xE2] [0x3B] true (by decide)
  obtain ⟨stop, -, hahead, -, houtcome⟩ := hstring 0x27 (by decide) (by decide) rfl
  obtain ⟨stop', -, hahead', -, houtcome'⟩ := hname (by decide) rfl
  exact ⟨stop, stop', houtcome, hahead, houtcome', hahead'⟩

end SqlTokens
