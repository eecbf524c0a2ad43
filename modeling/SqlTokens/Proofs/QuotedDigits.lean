import SqlTokens.Proofs.Names

/-!
# Digits in quotes

A hexadecimal or binary literal can also be written as a letter and digits in quotes. Behind the
opening quote stand the digits, as many as there are; then either the closing quote follows, or the
literal is broken right there (`Radix.Reads`). A broken literal is the letter, the quote and the
digits alone. What stops the digits stays unread, whatever it is, and so the next scan starts with
it: `Scanner.run_quotedDigits` says so of every scan behind every run of calls.
-/

namespace SqlTokens

/-- The notations of digits in quotes. -/
inductive Radix where
  /-- Hexadecimal digits. -/
  | hex
  /-- Binary digits. -/
  | bit
  deriving DecidableEq, Repr

namespace Radix

/-- The letters that stand before the quote. -/
def letters : Radix → List UInt8
  | hex => [0x78, 0x58]
  | bit => [0x62, 0x42]

/-- The bytes that are digits. -/
def isDigit (x : Radix) (b : UInt8) : Bool :=
  match x with
  | hex => (0x30 ≤ b && b ≤ 0x39) || (0x61 ≤ b && b ≤ 0x66) || (0x41 ≤ b && b ≤ 0x46)
  | bit => b == 0x30 || b == 0x31

/-- What a literal is. -/
def kind : Radix → TokenKind
  | hex => .hexLiteral
  | bit => .bitLiteral

/-- What is wrong with a broken one. -/
def error : Radix → ScanErrorKind
  | hex => .invalidHexLiteral
  | bit => .invalidBitLiteral

/-- The starter that the letters open. -/
def starter : Radix → Starter
  | hex => .hexMark
  | bit => .bitMark

/-- The runes that are digits. -/
def digit : Radix → Rune → Bool
  | hex => Rune.isHexDigit
  | bit => Rune.isBit

/-- How a letter at a cursor, a quote and the bytes behind it are read: the token, where the scanner
goes on, and what is reported. -/
inductive Reads (x : Radix) (c : Cursor) (letter : UInt8) (rest : Bytes) :
    Token → Cursor → List ScanError → Prop where
  /-- A quote behind the digits closes the literal. -/
  | closed {next : Cursor} : c.Reaches next → rest.dropWhile x.isDigit = 0x27 :: next.ahead →
      Reads x c letter rest
        ⟨x.kind, c.pos, letter :: 0x27 :: (rest.takeWhile x.isDigit ++ [0x27])⟩ next []
  /-- Anything else behind them is left unread. -/
  | broken {next : Cursor} : c.Reaches next → (rest.dropWhile x.isDigit).head? ≠ some 0x27 →
      next.ahead = rest.dropWhile x.isDigit →
      Reads x c letter rest ⟨.invalid, c.pos, letter :: 0x27 :: rest.takeWhile x.isDigit⟩ next
        [⟨x.error, c.pos⟩]

variable {x : Radix} {c : Cursor} {letter : UInt8} {rest : Bytes}

/-- The digits are ASCII. -/
theorem isAscii_digit (x : Radix) : Rune.IsAscii x.digit := by
  cases x with
  | hex => exact Rune.isAscii_isHexDigit
  | bit => exact Rune.isAscii_isBit

/-- A byte is a digit exactly if its rune is. -/
theorem onByte_digit (x : Radix) : ∀ b : UInt8, Rune.onByte x.digit b = x.isDigit b := by
  cases x with
  | hex => exact Bytes.forall_byte (by decide +kernel)
  | bit => exact Bytes.forall_byte (by decide +kernel)

/-- The letters are ASCII, and they open the starter. -/
theorem letter_facts (h : letter ∈ x.letters) :
    letter < 0x80 ∧ Starter.ofByte? letter = some x.starter := by
  cases x with
  | hex => rcases List.mem_pair.mp h with rfl | rfl <;> decide
  | bit => rcases List.mem_pair.mp h with rfl | rfl <;> decide

/-- The form that the letters open is the one of digits in quotes. -/
theorem outcome_eq (x : Radix) (config : Config) (s : State) (c : Cursor) :
    x.starter.outcome config s c =
      .ofLexeme c s (Lexeme.quotedDigits x.kind x.error x.digit c) := by
  cases x <;> rfl

/-- The form of digits in quotes reads a letter and a quote as the notation says. -/
theorem quotedDigits_reads (hletter : letter < 0x80) (ha : c.ahead = letter :: 0x27 :: rest) :
    let l := Lexeme.quotedDigits x.kind x.error x.digit c
    x.Reads c letter rest (l.token c) l.stop l.fault.toList := by
  obtain ⟨hone, hquote⟩ := Cursor.advance_of_ahead hletter ha
  obtain ⟨htwo, hinside⟩ := Cursor.advance_of_ahead (by decide) hquote
  have hopen : c.advance.rune.is '\'' = true :=
    (Cursor.rune_is_iff (by decide)).mpr (by rw [hquote]; rfl)
  -- The digits are the longest run of bytes that lies ahead.
  have hclass : Rune.onByte x.digit = x.isDigit := funext x.onByte_digit
  have hdigits := Cursor.upTo_skipWhile x.isAscii_digit c.advance.advance
  have hbehind := Cursor.ahead_skipWhile x.isAscii_digit c.advance.advance
  have hstop : c.advance.advance.Reaches (c.advance.advance.skipWhile x.digit) :=
    (Cursor.Reaches.refl _).skipWhile _
  rw [hinside, hclass] at hdigits hbehind
  unfold Lexeme.quotedDigits
  simp only [hopen, Bool.not_true, Bool.false_eq_true, if_false]
  generalize c.advance.advance.skipWhile x.digit = stop at hdigits hbehind hstop ⊢
  have hreach : c.Reaches stop := (Cursor.Reaches.next c).advance.trans hstop
  have hup : c.upTo stop = letter :: 0x27 :: rest.takeWhile x.isDigit := by
    rw [((Cursor.Reaches.next _).trans hstop).upTo_eq_cons hone, hstop.upTo_eq_cons htwo, hdigits]
  split
  · rename_i hclose
    obtain ⟨hlast, hahead⟩ := Cursor.upTo_advance_of_is (by decide : Rune.IsByte '\'') hclose
    have htoken : (Lexeme.whole x.kind c stop.advance).token c =
        ⟨x.kind, c.pos, letter :: 0x27 :: (rest.takeWhile x.isDigit ++ [0x27])⟩ := by
      rw [Lexeme.whole, Lexeme.token, hreach.upTo_trans (.next stop), hup, hlast]
      rfl
    rw [htoken]
    exact .closed hreach.advance (hbehind.symm.trans hahead)
  · rename_i hopen
    have htoken : (Lexeme.broken x.error c stop).token c =
        ⟨.invalid, c.pos, letter :: 0x27 :: rest.takeWhile x.isDigit⟩ := by
      rw [Lexeme.broken, Lexeme.token, hup]
    rw [htoken]
    refine .broken hreach ?_ hbehind
    rw [← hbehind]
    exact mt (Cursor.rune_is_iff (by decide : Rune.IsByte '\'')).mpr hopen

end Radix

/-- Digits in quotes. For a letter of either notation right before a quote, whatever follows, the
digits are as many as there are behind the quote. A closing quote behind them makes the literal, and
nothing is reported. Otherwise the token is malformed and covers the letter, the quote and the
digits, with one error at the letter, and what stops the digits is left unread. So it is in every
scan behind every run of calls: where such a letter and a quote are what the next token starts with,
the scan reads them so, and the next one goes on right behind what has been read. -/
theorem Scanner.run_quotedDigits (x : Radix) (letter : UInt8) (hletter : letter ∈ x.letters) :
    (∀ config s c rest, c.ahead = letter :: 0x27 :: rest →
      ∃ t next new, x.Reads c letter rest t next new ∧
        x.starter.outcome config s c = .token t next { s with errors := s.errors ++ new }) ∧
    ∀ entries config source ops s, s = (start (.ofEntries entries) config source).run ops →
      s.cursor.Crosses s.state.inVendorBlock s.head s.scan.2.state.inVendorBlock ∧
      ∀ rest, s.head.ahead = letter :: 0x27 :: rest →
        ∃ new, x.Reads s.head letter rest s.scan.1 s.scan.2.cursor new ∧
          s.scan.2.state.errors = s.state.errors ++ new ∧
          s.scan.2.cursor.Crosses s.scan.2.state.inVendorBlock s.scan.2.head
            s.scan.2.scan.2.state.inVendorBlock := by
  obtain ⟨hascii, hopens⟩ := Radix.letter_facts hletter
  refine ⟨fun config s c rest ha => ?_, fun entries config source ops s hs => ?_⟩
  · rw [x.outcome_eq]
    exact ⟨_, _, _, Radix.quotedDigits_reads hascii ha, rfl⟩
  · have hplaced : s.Placed entries := by
      rw [hs]
      exact run_placed ops (start_placed entries config source)
    refine ⟨hplaced.crosses_head, fun rest ha => ?_⟩
    have hhead : s.head.ahead.head? = some letter := by rw [ha, List.head?_cons]
    have hend : s.head.atEnd = false := by rw [Cursor.atEnd, ha, List.isEmpty_cons]
    obtain ⟨htoken, hcursor, herrors⟩ := hplaced.scan_of_head hend fun s' =>
      (stepAt_of_starter entries s.config s' hhead hopens).trans (x.outcome_eq s.config s' s.head)
    rw [htoken, hcursor]
    exact ⟨_, Radix.quotedDigits_reads hascii ha, herrors, hcursor ▸ hplaced.scan.crosses_head⟩

/-- A hexadecimal literal is broken in front of a letter that is no digit, and a closing quote
behind the letter does not mend it. A binary literal is closed in front of whatever follows. -/
theorem Scanner.run_quotedDigits_letter : ∃ s stop,
    s = (start .standard {} [0x3B, 0x20, 0x58, 0x27, 0x46, 0x67, 0x27]).run [.scan] ∧
      s.scan.1 = ⟨.invalid, s.head.pos, [0x58, 0x27, 0x46]⟩ ∧
      s.scan.2.cursor.ahead = [0x67, 0x27] ∧
      s.scan.2.state.errors = [⟨.invalidHexLiteral, s.head.pos⟩] ∧
      Starter.bitMark.outcome {} {} (.start [0x62, 0x27, 0x30, 0x31, 0x27, 0x32]) =
        .token ⟨.bitLiteral, .start, [0x62, 0x27, 0x30, 0x31, 0x27]⟩ stop {} ∧
      stop.ahead = [0x32] := by
  obtain ⟨s, hs⟩ : ∃ s, s = (start .standard {} [0x3B, 0x20, 0x58, 0x27, 0x46, 0x67, 0x27]).run
      [.scan] := ⟨_, rfl⟩
  obtain ⟨hahead, hnone⟩ : s.head.ahead = 0x58 :: 0x27 :: [0x46, 0x67, 0x27] ∧
      s.state.errors = [] := by
    rw [hs]
    decide +kernel
  obtain ⟨-, hrun⟩ := (Scanner.run_quotedDigits .hex 0x58 (by decide)).2 Vocabulary.standard {} _
    [.scan] s hs
  obtain ⟨new, hreads, herrors, -⟩ := hrun _ hahead
  obtain ⟨t, stop, new', hreads', houtcome⟩ :=
    (Scanner.run_quotedDigits .bit 0x62 (by decide)).1 {} {}
      (.start [0x62, 0x27, 0x30, 0x31, 0x27, 0x32]) [0x30, 0x31, 0x27, 0x32] rfl
  refine ⟨s, stop, hs, ?_⟩
  rw [hnone] at herrors
  generalize s.scan.1 = first at hreads ⊢
  cases hreads with
  | closed _ hclose => cases hclose
  | broken _ _ hbehind =>
    cases hreads' with
    | closed _ hclose => exact ⟨rfl, hbehind, herrors, houtcome, (List.cons.inj hclose).2.symm⟩
    | broken _ hopen _ => exact absurd rfl hopen

end SqlTokens
