import SqlTokens.Scanner.Resolution

/-!
# Streams of tokens

All tokens of a source from a scanner on, raw or resolved. A stream ends with the first token of the
kind that ends the input. Both kinds of stream are finite, since every token before the end uses up
bytes of the source, and resolution leaves an end an end (`isEnd_lex`).
-/

namespace SqlTokens.Scanner

/-- Resolution leaves the end of the input what it is. -/
theorem isEnd_resolve {s : Scanner} {t : Token} (h : t.isEnd = true) :
    (s.resolve t).isEnd = true := by
  have hk : t.kind = .eof := by simpa [Token.isEnd] using h
  have h1 : TokenKind.eof ≠ .identifier := by decide
  have h2 : TokenKind.eof ≠ .quotedIdentifier := by decide
  have h3 : TokenKind.eof ≠ .stringLiteral := by decide
  have h4 : TokenKind.eof ≠ .pipes := by decide
  simp [resolve, hk, h1, h2, h3, h4, h]

/-- Where the raw stream ends, so does the resolved one. -/
theorem isEnd_lex {s : Scanner} (h : s.scan.1.isEnd = true) : s.lex.1.isEnd = true :=
  isEnd_resolve h

/-- A resolved token that does not end the stream has been read. -/
theorem remaining_lex_lt {s : Scanner} (h : s.lex.1.isEnd = false) :
    s.lex.2.remaining < s.remaining := by
  have : s.scan.1.isEnd = false := by
    cases he : s.scan.1.isEnd with
    | false => rfl
    | true => simp [isEnd_lex he] at h
  exact remaining_scan_lt this

/-- The raw tokens up to the one that ends the stream, that one included, and the scanner behind. -/
def scanAll (s : Scanner) : List Token × Scanner :=
  match _h : s.scan with
  | (t, next) =>
    if t.isEnd then ([t], next)
    else
      let rest := scanAll next
      (t :: rest.1, rest.2)
termination_by s.remaining
decreasing_by
  have := @remaining_scan_lt s
  simp_all

/-- The resolved tokens up to the one that ends the stream, that one included, and the scanner
behind. -/
def lexAll (s : Scanner) : List Token × Scanner :=
  match _h : s.lex with
  | (t, next) =>
    if t.isEnd then ([t], next)
    else
      let rest := lexAll next
      (t :: rest.1, rest.2)
termination_by s.remaining
decreasing_by
  have := @remaining_lex_lt s
  simp_all

/-- The raw tokens before the one that ends the stream, and the scanner behind that one. -/
def tokens (s : Scanner) : List Token × Scanner :=
  let all := s.scanAll
  (all.1.dropLast, all.2)

end SqlTokens.Scanner
