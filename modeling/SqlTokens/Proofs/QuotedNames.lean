import SqlTokens.Proofs.NamePoints

/-!
# Names in quotation marks

With `ANSI_QUOTES` a name may stand in quotation marks as it may in backticks. Two cursors, each
before one of the forms, read the name rune by rune at the same positions (`Twins`), and both forms
are the same resolved token. They are not alike behind it: a name in quotation marks is first read
as a string, and that a point follows is noted behind raw names only. `Scanner.lexAll_withName` says
what this comes to. The tokens of a text with a name in quotation marks are those of the text with
the name in backticks, unless a point follows the name and the first token behind points is a number
then.
-/

namespace SqlTokens

/-- A text, a name in quotes behind a blank, and what follows it. -/
def Bytes.withName (quote : UInt8) (text name rest : Bytes) : Bytes :=
  text ++ 0x20 :: quote :: (name ++ quote :: rest)

section WithName

variable (quote : UInt8) (text name rest : Bytes)

/-- The closing quote comes behind the name. -/
theorem Bytes.withName_eq :
    withName quote text name rest = (text ++ 0x20 :: quote :: name) ++ quote :: rest := by
  rw [withName, List.append_assoc]
  rfl

/-- How many bytes come before the closing quote. -/
theorem Bytes.length_before_closing :
    (text ++ 0x20 :: quote :: name).length = text.length + name.length + 2 := by
  rw [List.length_append, List.length_cons, List.length_cons]
  omega

/-- How many bytes there are. -/
theorem Bytes.length_withName : (withName quote text name rest).length =
    text.length + name.length + 3 + rest.length := by
  rw [withName_eq, List.length_append, length_before_closing, List.length_cons]
  omega

/-- What follows the name. -/
theorem Bytes.drop_withName :
    (withName quote text name rest).drop (text.length + name.length + 3) = rest := by
  rw [withName_eq, ← List.drop_drop (i := 1), ← length_before_closing quote text name,
    List.drop_left, List.drop_one, List.tail_cons]

/-- The closing quote comes right before it. -/
theorem Bytes.getElem?_withName :
    (withName quote text name rest)[text.length + name.length + 2]? = some quote := by
  rw [withName_eq, ← length_before_closing quote, List.getElem?_append_right (Nat.le_refl _),
    Nat.sub_self, List.getElem?_cons_zero]

end WithName

/-- Whether a byte can be the quote around a name with the given bytes behind it. -/
structure Bytes.Quotes (quote : UInt8) (name rest : Bytes) : Prop where
  /-- The quote is not NUL. -/
  ne_nul : quote ≠ 0
  /-- The quote takes up one byte. -/
  ascii : quote < 0x80
  /-- The quote does not break the line. -/
  ne_line : quote ≠ 0x0A
  /-- The name does not contain the quote. -/
  outside : quote ∉ name
  /-- The closing quote does not stand twice. -/
  alone : rest.head? ≠ some quote

/-- Quotation marks and backticks can be the quotes around a name without them, if none of them
follows. -/
theorem Bytes.quotes_of_mem {quote : UInt8} {name rest : Bytes} (h : quote ∈ [0x22, 0x60])
    (hname : ∀ b ∈ name, b ∉ [0x22, 0x60, 0x5C]) (hrest : ∀ b ∈ rest.head?, b ∉ [0x22, 0x60]) :
    Quotes quote name rest := by
  rcases List.mem_pair.mp h with rfl | rfl
  · exact ⟨by decide, by decide, by decide, fun hin => hname _ hin (by decide),
      fun hhead => hrest _ hhead (by decide)⟩
  · exact ⟨by decide, by decide, by decide, fun hin => hname _ hin (by decide),
      fun hhead => hrest _ hhead (by decide)⟩

/-- What remains of a name can stand between the same quotes. -/
theorem Bytes.Quotes.drop {quote : UInt8} {name rest : Bytes} (h : Quotes quote name rest)
    (n : Nat) : Quotes quote (name.drop n) rest :=
  { h with outside := fun hmem => h.outside (List.mem_of_mem_drop hmem) }

/-! ## Cursors -/

namespace Cursor

variable {c : Cursor}

/-- A rune is read from a name alone, if an ASCII byte comes behind it. -/
theorem reading_of_name {name rest : Bytes} {b : UInt8} (hne : name ≠ []) (hb : b < 0x80)
    (h : c.ahead = name ++ b :: rest) : c.reading = Rune.decodeFrom c.offset name := by
  rw [reading, h, Rune.decodeFrom, Rune.decode_append_ascii hne hb, Rune.decodeFrom]

end Cursor

/-- Whether two cursors stand at the same position, each before its bytes. -/
structure Twins (left right : Bytes) (c c' : Cursor) : Prop where
  /-- They stand at the same position. -/
  pos_eq : c.pos = c'.pos
  /-- The bytes ahead of the first. -/
  left_eq : c.ahead = left
  /-- The bytes ahead of the second. -/
  right_eq : c'.ahead = right

namespace Twins

variable {left right name rest : Bytes} {c c' : Cursor} {b b' : UInt8}

/-- Twins pass over ASCII bytes that break no line. -/
theorem next (hb : b < 0x80) (hline : b ≠ 0x0A) (hb' : b' < 0x80) (hline' : b' ≠ 0x0A)
    (h : Twins (b :: left) (b' :: right) c c') : Twins left right c.advance c'.advance := by
  have hhead : c.ahead.head? = some b := by rw [h.left_eq, List.head?_cons]
  have hhead' : c'.ahead.head? = some b' := by rw [h.right_eq, List.head?_cons]
  refine ⟨?_, (Cursor.advance_of_ahead hb h.left_eq).2, (Cursor.advance_of_ahead hb' h.right_eq).2⟩
  rw [Cursor.pos_advance_of_head? hb hline hhead, Cursor.pos_advance_of_head? hb' hline' hhead',
    h.pos_eq]

/-- Twins before the same name read the same rune, which is one of the name. -/
theorem reading_eq (hne : name ≠ []) (hb : b < 0x80) (hb' : b' < 0x80)
    (h : Twins (name ++ b :: left) (name ++ b' :: right) c c') :
    c.reading = c'.reading ∧ 0 < c.width ∧ c.width ≤ name.length := by
  have hreading := Cursor.reading_of_name hne hb h.left_eq
  have hreading' := Cursor.reading_of_name hne hb' h.right_eq
  have hoffset : c.offset = c'.offset := congrArg Position.offset h.pos_eq
  have hwidth : c.width = (Rune.decode name).2 := by
    rw [Cursor.width_eq, h.left_eq, Rune.decode_append_ascii hne hb]
  refine ⟨by rw [hreading, hreading', hoffset], ?_, ?_⟩
  · rw [hwidth]
    exact Rune.decode_width_pos hne
  · rw [hwidth]
    exact Rune.decode_width_le name

/-- Twins pass over a rune of the same name. -/
theorem advance (hne : name ≠ []) (hb : b < 0x80) (hb' : b' < 0x80)
    (h : Twins (name ++ b :: left) (name ++ b' :: right) c c') :
    Twins (name.drop c.width ++ b :: left) (name.drop c.width ++ b' :: right)
        c.advance c'.advance ∧
      c.upTo c.advance = name.take c.width ∧ c'.upTo c'.advance = name.take c.width := by
  obtain ⟨hreading, -, hwidth⟩ := h.reading_eq hne hb hb'
  have hsame : c'.width = c.width := (congrArg Prod.snd hreading).symm
  have hrune : c.rune = c'.rune := congrArg Prod.fst hreading
  have hend : c.atEnd = false := by simp [Cursor.atEnd, h.left_eq]
  have hend' : c'.atEnd = false := by simp [Cursor.atEnd, h.right_eq]
  refine ⟨⟨?_, ?_, ?_⟩, ?_, ?_⟩
  · rw [Cursor.pos_advance hend, Cursor.pos_advance hend', h.pos_eq, hrune, hsame]
  · rw [Cursor.ahead_advance, h.left_eq, List.drop_append_of_le_length hwidth]
  · rw [Cursor.ahead_advance, h.right_eq, hsame, List.drop_append_of_le_length hwidth]
  · rw [Cursor.upTo_advance, h.left_eq, List.take_append_of_le_length hwidth]
  · rw [Cursor.upTo_advance, h.right_eq, hsame, List.take_append_of_le_length hwidth]

end Twins

/-! ## Quoted forms -/

namespace Lexeme

variable {quote quote' : UInt8} {name rest : Bytes} {escapes : Bool} {c c' : Cursor}

/-- A rune that is neither the quote nor a backslash stands for itself. -/
theorem enclosed_of_plain {quote : Rune} (hend : c.atEnd = false) (hquote : c.rune ≠ quote)
    (hslash : c.rune.is '\\' = false) : enclosed quote escapes c =
      ((enclosed quote escapes c.advance).1.map (c.upTo c.advance ++ ·),
        (enclosed quote escapes c.advance).2) := by
  rw [enclosed, if_neg (by rw [hend]; decide)]
  simp only [hquote, hslash, if_false, Bool.and_false, Bool.false_and, Bool.false_eq_true]

/-- A quote that does not stand twice closes. -/
theorem enclosed_of_quote {quote : Rune} (hend : c.atEnd = false) (hquote : c.rune = quote)
    (hnext : c.advance.rune ≠ quote) : enclosed quote escapes c = (some [], c.advance) := by
  rw [enclosed, if_neg (by rw [hend]; decide)]
  simp only [hquote, hnext, if_true, if_false]

/-- A rune of a name is neither the quote nor a backslash. -/
theorem enclosed_of_name (hquote : Bytes.Quotes quote name rest) (hslash : 0x5C ∉ name)
    (hne : name ≠ []) (hahead : c.ahead = name ++ quote :: rest) :
    enclosed (.ofByte quote) escapes c =
      ((enclosed (.ofByte quote) escapes c.advance).1.map (c.upTo c.advance ++ ·),
        (enclosed (.ofByte quote) escapes c.advance).2) := by
  obtain ⟨b, name, rfl⟩ := List.exists_cons_of_ne_nil hne
  have hhead : c.ahead.head? = some b := by rw [hahead]; rfl
  refine enclosed_of_plain (by rw [Cursor.atEnd, hahead]; rfl) ?_ ?_
  · rw [Ne, Cursor.rune_eq_ofByte_iff hquote.ne_nul hquote.ascii, hhead]
    rintro ⟨⟩
    exact hquote.outside (List.mem_cons_self ..)
  · rw [Bool.eq_false_iff, Ne, Cursor.rune_is_iff (by decide), hhead]
    rintro ⟨⟩
    exact hslash (List.mem_cons_self ..)

/-- Behind a name its quote closes. -/
theorem enclosed_of_closing (hquote : Bytes.Quotes quote [] rest)
    (hahead : c.ahead = quote :: rest) (hnext : c.advance.ahead = rest) :
    enclosed (.ofByte quote) escapes c = (some [], c.advance) := by
  have hiff (d : Cursor) := Cursor.rune_eq_ofByte_iff (c := d) hquote.ne_nul hquote.ascii
  refine enclosed_of_quote (by rw [Cursor.atEnd, hahead]; rfl) ((hiff c).mpr ?_) ?_
  · rw [hahead, List.head?_cons]
  · rw [Ne, hiff, hnext]
    exact hquote.alone

/-- Twins before a name read it up to the closing quote, whichever the quotes are. -/
theorem enclosed_twins (escapes escapes' : Bool) (hquote : Bytes.Quotes quote name rest)
    (hquote' : Bytes.Quotes quote' name rest) (hslash : 0x5C ∉ name)
    (h : Twins (name ++ quote :: rest) (name ++ quote' :: rest) c c') :
    ∃ d d', enclosed (.ofByte quote) escapes c = (some name, d) ∧
      enclosed (.ofByte quote') escapes' c' = (some name, d') ∧ Twins rest rest d d' := by
  generalize hn : name.length = n
  induction n using Nat.strong_induction_on generalizing name c c' with
  | _ n ih =>
    by_cases hne : name = []
    · subst hne
      have hnext := h.next hquote.ascii hquote.ne_line hquote'.ascii hquote'.ne_line
      exact ⟨c.advance, c'.advance, enclosed_of_closing hquote h.left_eq hnext.left_eq,
        enclosed_of_closing hquote' h.right_eq hnext.right_eq, hnext⟩
    · obtain ⟨hnext, hup, hup'⟩ := h.advance hne hquote.ascii hquote'.ascii
      obtain ⟨-, hpos, hwidth⟩ := h.reading_eq hne hquote.ascii hquote'.ascii
      have hshort : (name.drop c.width).length < n := by
        rw [List.length_drop]
        omega
      obtain ⟨d, d', hleft, hright, htwins⟩ := ih _ hshort (hquote.drop _) (hquote'.drop _)
        (fun hmem => hslash (List.mem_of_mem_drop hmem)) hnext rfl
      refine ⟨d, d', ?_, ?_, htwins⟩
      · rw [enclosed_of_name hquote hslash hne h.left_eq, hleft, hup, Option.map_some,
          List.take_append_drop]
      · rw [enclosed_of_name hquote' hslash hne h.right_eq, hright, hup', Option.map_some,
          List.take_append_drop]

/-- Twins before a name in quotation marks and in backticks read it as a string and as a name. -/
theorem quoted_twins (escapes : Bool) (hmarks : Bytes.Quotes 0x22 name rest)
    (hbackticks : Bytes.Quotes 0x60 name rest) (hslash : 0x5C ∉ name)
    (h : Twins (0x22 :: (name ++ 0x22 :: rest)) (0x60 :: (name ++ 0x60 :: rest)) c c') :
    ∃ d d', string escapes c = ⟨.stringLiteral, name, d, none⟩ ∧
      quotedIdentifier c' = ⟨.quotedIdentifier, name, d', none⟩ ∧ Twins rest rest d d' := by
  have hnext := h.next hmarks.ascii hmarks.ne_line hbackticks.ascii hbackticks.ne_line
  obtain ⟨d, d', hleft, hright, htwins⟩ := enclosed_twins escapes false hmarks hbackticks
    hslash hnext
  have hrune : c.rune = .ofByte 0x22 :=
    Cursor.rune_of_head? hmarks.ne_nul hmarks.ascii (by rw [h.left_eq, List.head?_cons])
  have hrune' : c'.rune = .ofByte 0x60 :=
    Cursor.rune_of_head? hbackticks.ne_nul hbackticks.ascii (by rw [h.right_eq, List.head?_cons])
  refine ⟨d, d', ?_, ?_, htwins⟩
  · rw [string, quoted, hrune, hleft]
  · rw [quotedIdentifier, quoted, hrune', hright]

end Lexeme

/-! ## Tokens -/

section Tokens

variable (config : Config) (s : State) {name rest : Bytes} {c c' : Cursor}

/-- A step over a blank yields what lies behind it. -/
theorem step_of_blank {b : UInt8} {bytes : Bytes} (hahead : c.ahead = 0x20 :: b :: bytes)
    (hb : Rune.onByte Rune.isSpace b = false) :
    step .standard config s c = stepAt .standard config s c.advance := by
  obtain ⟨hspace, -, hnext⟩ := Cursor.advance_of_onByte Rune.isAscii_isSpace hahead (by decide)
  have hend : c.atEnd = false := by rw [Cursor.atEnd, hahead, List.isEmpty_cons]
  have hend' : c.advance.atEnd = false := by rw [Cursor.atEnd, hnext, List.isEmpty_cons]
  have hstop : c.advance.rune.isSpace = false := by
    rw [Bool.eq_false_iff, Ne, Cursor.rune_iff_head? Rune.isAscii_isSpace, hnext]
    rintro ⟨b', hb', hin⟩
    rw [List.head?_cons, Option.some.injEq] at hb'
    rw [← hb', hb] at hin
    cases hin
  have hskip : c.skipWhile Rune.isSpace = c.advance := by
    rw [Cursor.skipWhile, if_neg (by rw [hend]; decide), if_pos hspace, Cursor.skipWhile,
      if_neg (by rw [hend']; decide), if_neg (by rw [hstop]; decide)]
  rw [step_of_open config s (by rw [hskip, hend']), hskip]

/-- What twins before a blank and a name in either quotes find. -/
theorem nextToken_twins (hmarks : Bytes.Quotes 0x22 name rest)
    (hbackticks : Bytes.Quotes 0x60 name rest) (hslash : 0x5C ∉ name)
    (h : Twins (0x20 :: 0x22 :: (name ++ 0x22 :: rest)) (0x20 :: 0x60 :: (name ++ 0x60 :: rest))
      c c') :
    ∃ d d', Twins rest rest d d' ∧
      nextToken .standard config s c = (⟨.stringLiteral, c.advance.pos, name⟩, d, s) ∧
      nextToken .standard config s c' = (⟨.quotedIdentifier, c.advance.pos, name⟩, d', s) := by
  have hquotes := h.next (by decide) (by decide) (by decide) (by decide)
  obtain ⟨d, d', hleft, hright, htwins⟩ := Lexeme.quoted_twins
    (!config.has .noBackslashEscapes) hmarks hbackticks hslash hquotes
  refine ⟨d, d', htwins, nextToken_of_token ?_, nextToken_of_token ?_⟩
  · have hhead : c.advance.ahead.head? = some 0x22 := by rw [hquotes.left_eq, List.head?_cons]
    rw [step_of_blank config s h.left_eq (by decide), Table.standard,
      stepAt_of_starter _ config s hhead (show _ = some .string by decide), Starter.outcome]
    simp only [hleft, Outcome.ofLexeme, State.report_none]
    rfl
  · have hhead : c'.advance.ahead.head? = some 0x60 := by rw [hquotes.right_eq, List.head?_cons]
    rw [step_of_blank config s h.right_eq (by decide), Table.standard,
      stepAt_of_starter _ config s hhead (show _ = some .quotedIdentifier by decide),
      Starter.outcome]
    simp only [hright, Outcome.ofLexeme, State.report_none, hquotes.pos_eq]
    rfl

end Tokens

namespace Scanner

variable {s : Scanner} {name rest : Bytes}

/-- A string in quotation marks is read as a name, if the mode says so. -/
theorem lex_of_marks {t : Token} {next : Scanner} (hscan : s.scan = (t, next))
    (ht : t.kind = .stringLiteral) (hansi : next.config.has .ansiQuotes = true)
    (hmark : next.cursor.source[t.pos.offset]? = some 0x22) :
    s.lex = ({ t with kind := .identifier }, next) := by
  have hquoted : t.kind = .stringLiteral ∧ next.config.has .ansiQuotes = true ∧
      next.isDoubleQuoted t = true := ⟨ht, hansi, beq_of_eq hmark⟩
  have hname : t.kind ≠ .identifier := by rw [ht]; decide
  have hbackticks : t.kind ≠ .quotedIdentifier := by rw [ht]; decide
  unfold Scanner.lex resolve
  rw [hscan]
  simp only [noteResolved, if_neg hname, if_neg hbackticks, if_pos hquoted]

/-- A name in backticks is read as a name. -/
theorem lex_of_backticks {t : Token} {next : Scanner} (hscan : s.scan = (t, next))
    (ht : t.kind = .quotedIdentifier) : s.lex = ({ t with kind := .identifier }, next) := by
  have hname : t.kind ≠ .identifier := by rw [ht]; decide
  unfold Scanner.lex resolve
  rw [hscan]
  simp only [noteResolved, if_neg hname, if_pos ht]

/-- Twins before a blank and a name in either quotes read the same token, and note the point behind
it if the quotes are backticks. -/
theorem Placed.lex_twins (hs : s.Placed Vocabulary.standard) {c' : Cursor}
    (hansi : s.config.has .ansiQuotes = true) (hmarks : Bytes.Quotes 0x22 name rest)
    (hbackticks : Bytes.Quotes 0x60 name rest) (hslash : 0x5C ∉ name)
    (h : Twins (0x20 :: 0x22 :: (name ++ 0x22 :: rest)) (0x20 :: 0x60 :: (name ++ 0x60 :: rest))
      s.cursor c') :
    ∃ (v : Scanner) (d' : Cursor), Twins rest rest v.cursor d' ∧
      s.lex = (⟨.identifier, s.cursor.advance.pos, name⟩, v.mark false) ∧
      ({ s with cursor := c' } : Scanner).lex = (⟨.identifier, s.cursor.advance.pos, name⟩,
        { v.mark (d'.rune.is '.') with cursor := d' }) := by
  have htable : s.table = .standard := hs.table_eq
  obtain ⟨d, d', htwins, hfound, hfound'⟩ :=
    nextToken_twins s.config s.state hmarks hbackticks hslash h
  rw [← htable] at hfound hfound'
  have hscan := scan_of_nextToken hfound
  have hscan' := scan_of_nextToken (s := { s with cursor := c' }) hfound'
  refine ⟨{ s with
    cursor := d
    state := settle s.table ⟨.stringLiteral, s.cursor.advance.pos, name⟩ d s.state
    lastStart := s.cursor.advance.offset }, d', htwins, ?_, ?_⟩
  · -- The string is told to be a name by its first byte, and nothing is noted about it.
    have hmark : d.source[s.cursor.advance.pos.offset]? = some 0x22 := by
      have hsource := hs.scan_progresses.1.source_eq
      rw [hscan] at hsource
      have hquotes := h.next (by decide) (by decide) (by decide) (by decide)
      calc d.source[s.cursor.advance.pos.offset]?
          = s.cursor.advance.source[s.cursor.advance.offset]? := by
            rw [Cursor.source_advance, ← hsource]
            rfl
        _ = some 0x22 := by rw [Cursor.getElem?_offset, hquotes.left_eq, List.head?_cons]
    exact lex_of_marks hscan rfl hansi hmark
  · exact lex_of_backticks hscan' rfl

/-- Twins before a blank and a name in either quotes read the name first, and then go on as twins
whose marks differ. -/
theorem Placed.lexAll_twins (hs : s.Placed Vocabulary.standard) {c' : Cursor}
    (hs' : ({ s with cursor := c' } : Scanner).Placed Vocabulary.standard)
    (hansi : s.config.has .ansiQuotes = true) (hmarks : Bytes.Quotes 0x22 name rest)
    (hbackticks : Bytes.Quotes 0x60 name rest) (hslash : 0x5C ∉ name)
    (h : Twins (0x20 :: 0x22 :: (name ++ 0x22 :: rest)) (0x20 :: 0x60 :: (name ++ 0x60 :: rest))
      s.cursor c') :
    ∃ (t : Token) (v : Scanner) (d' : Cursor), t.pos.offset = s.cursor.offset + 1 ∧
      v.Placed Vocabulary.standard ∧ v.cursor.source = s.cursor.source ∧
      d'.source = c'.source ∧ Twins rest rest v.cursor d' ∧
      s.lexAll.1 = t :: (v.mark false).lexAll.1 ∧
      ({ s with cursor := c' } : Scanner).lexAll.1 =
        t :: ({ v.mark (rest.head? == some 0x2E) with cursor := d' } : Scanner).lexAll.1 := by
  obtain ⟨v, d', hbehind, hlex, hlex'⟩ := hs.lex_twins hansi hmarks hbackticks hslash h
  have hblank : s.cursor.ahead.head? = some 0x20 := by rw [h.left_eq, List.head?_cons]
  have hpos := Cursor.pos_advance_of_head? (by decide) (by decide) hblank
  have hpoint : d'.rune.is '.' = (rest.head? == some 0x2E) := by
    rw [Bool.eq_iff_iff, Cursor.rune_is_iff (by decide), hbehind.right_eq, beq_iff_eq]
    rfl
  have hnext := hs.lex
  have hsource := hs.lex_progresses.1.source_eq
  have hsource' := hs'.lex_progresses.1.source_eq
  rw [hlex] at hnext hsource
  rw [hlex'] at hsource'
  refine ⟨⟨.identifier, s.cursor.advance.pos, name⟩, v, d', congrArg Position.offset hpos,
    ⟨hnext.table_eq, hnext.canonical⟩, hsource, hsource', hbehind, ?_, ?_⟩
  · rw [lexAll_unfold, hlex]
    rfl
  · rw [lexAll_unfold, hlex', ← hpoint]
    rfl

end Scanner

/-- A text with a name in quotes goes on behind the text. -/
def Continuation.ofName (quote : UInt8) (text name rest : Bytes)
    (hblank : Scanner.isFunctionBlank quote = false) (hparen : quote ≠ 0x28) : Continuation where
  part := text
  source := .withName quote text name rest
  base := 0
  tail := 0x20 :: quote :: (name ++ quote :: rest)
  base_le := Nat.zero_le _
  drop_eq := rfl
  before := .inl rfl
  blank := .inr ⟨quote, _, rfl, hblank, hparen⟩

/-- Behind a name the quotes make no difference. -/
def Continuation.behindName (quote quote' : UInt8) (text name rest : Bytes)
    (hpoint : quote ≠ 0x2E) (hpoint' : quote' ≠ 0x2E) : Continuation where
  part := .withName quote text name rest
  source := .withName quote' text name rest
  base := text.length + name.length + 3
  tail := []
  base_le := by
    rw [Bytes.length_withName]
    omega
  drop_eq := by rw [Bytes.drop_withName, Bytes.drop_withName, List.append_nil]
  before := by
    right
    rw [Nat.add_sub_assoc (by decide), Bytes.getElem?_withName, Bytes.getElem?_withName]
    exact iff_of_false (fun h => hpoint' (Option.some.inj h)) fun h => hpoint (Option.some.inj h)
  blank := .inl rfl

namespace Scanner

variable {config : Config} {text name rest : Bytes}

/-- A text with a name behind it is read up to its end, where a blank and the name come next. -/
theorem exists_before_name (hwhole : (start .standard config text).Whole) :
    ∃ (ts : List Token) (e : Scanner), e.config = config ∧ e.cursor.offset = text.length ∧
      (∀ t ∈ ts, t.pos.offset < text.length) ∧
      ∀ x : Continuation, x.part = text → x.base = 0 →
        (x.scanner e).Placed Vocabulary.standard ∧ (x.scanner e).cursor.ahead = x.tail ∧
          (start .standard config x.source).lexAll.1 = ts ++ (x.scanner e).lexAll.1 := by
  obtain ⟨ts, e, he, hconfig, hlast, hreach, -, hbefore, hcontinued⟩ :=
    (start_placed Vocabulary.standard config text).lexAll_continued
  have hend : e.cursor.offset = text.length := by
    have hle := hreach.le_length (Nat.zero_le _)
    have hge := Cursor.atEnd_iff.mp hlast
    rw [hreach.source_eq] at hle hge
    exact Nat.le_antisymm hle hge
  rw [hend] at hbefore
  refine ⟨ts, e, hconfig, hend, hbefore, fun x hpart hbase => ?_⟩
  have hx : x.Sees (start .standard config text).cursor :=
    ⟨hpart.symm, hbase ▸ Nat.zero_le _, Nat.zero_le _⟩
  have hcanonical := (hx.reaches_cursor hreach).canonical (Cursor.canonical_start x.source)
  exact ⟨⟨he.table_eq, hcanonical⟩, (hx.reaches hreach).ahead_of_atEnd hlast,
    hcontinued x hx (.inr hwhole)⟩

/-- Where a scanner stands that has read a name with its quotes. -/
theorem Placed.offset_behind_name {s : Scanner} {quote : UInt8} (hs : s.Placed Vocabulary.standard)
    (hsource : s.cursor.source = .withName quote text name rest) (hahead : s.cursor.ahead = rest) :
    s.cursor.offset = text.length + name.length + 3 := by
  have hle := hs.canonical.le_length
  have hlength := congrArg List.length (s.cursor.ahead_eq.symm.trans hahead)
  rw [List.length_drop] at hlength
  change s.cursor.source.length - s.cursor.offset = _ at hlength
  rw [hsource, Bytes.length_withName] at hle hlength
  omega

/-- What follows a name is read alike, whichever the quotes are. -/
theorem Placed.lexAll_behind_name {s : Scanner} {quote quote' : UInt8} {c' : Cursor}
    (hs : s.Placed Vocabulary.standard) (hpoint : quote ≠ 0x2E) (hpoint' : quote' ≠ 0x2E)
    (hsource : s.cursor.source = .withName quote text name rest)
    (hsource' : c'.source = .withName quote' text name rest) (h : Twins rest rest s.cursor c') :
    ({ s with cursor := c' } : Scanner).lexAll.1 = s.lexAll.1 := by
  let x := Continuation.behindName quote quote' text name rest hpoint hpoint'
  have hle := hs.canonical.le_length
  rw [hsource] at hle
  have hx : x.Sees s.cursor := ⟨hsource, (hs.offset_behind_name hsource h.left_eq).ge, hle⟩
  have hcursor : c' = x.cursor s.cursor := by
    rw [Cursor.eq_place c', hsource', ← h.pos_eq]
    rfl
  rw [hcursor]
  exact hs.lexAll_scanner hx rfl

/-- A text with a name in either quotes is read up to the end of the name in the same way, and then
by scanners that differ in the mark alone. -/
theorem exists_behind_name (hwhole : (start .standard config text).Whole)
    (hansi : config.has .ansiQuotes = true) (hmarks : Bytes.Quotes 0x22 name rest)
    (hbackticks : Bytes.Quotes 0x60 name rest) (hslash : 0x5C ∉ name) :
    ∃ (ts : List Token) (v : Scanner), v.Placed Vocabulary.standard ∧
      v.cursor.source = .withName 0x22 text name rest ∧
      v.cursor.offset = text.length + name.length + 3 ∧
      (∀ t ∈ ts, t.pos.offset < text.length + name.length + 3) ∧
      (start .standard config (.withName 0x22 text name rest)).lexAll.1 =
        ts ++ (v.mark false).lexAll.1 ∧
      (start .standard config (.withName 0x60 text name rest)).lexAll.1 =
        ts ++ (v.mark (rest.head? == some 0x2E)).lexAll.1 := by
  obtain ⟨ts, e, hconfig, hend, hbefore, hall⟩ := exists_before_name hwhole
  let x := Continuation.ofName 0x22 text name rest (by decide) (by decide)
  let x' := Continuation.ofName 0x60 text name rest (by decide) (by decide)
  obtain ⟨hplaced, hahead, htokens⟩ := hall x rfl rfl
  obtain ⟨hplaced', hahead', htokens'⟩ := hall x' rfl rfl
  have htwins : Twins x.tail x'.tail (x.scanner e).cursor (x'.scanner e).cursor :=
    ⟨rfl, hahead, hahead'⟩
  -- Behind the text the name is the same token for both.
  obtain ⟨t, v, d', ht, hv, hsource, hsource', hbehind, hname, hname'⟩ :=
    hplaced.lexAll_twins hplaced' (by rwa [← hconfig] at hansi) hmarks hbackticks hslash htwins
  refine ⟨ts ++ [t], v, hv, hsource, hv.offset_behind_name hsource hbehind.left_eq, ?_, ?_, ?_⟩
  · intro u hu
    rcases List.mem_append.mp hu with hu | hu
    · exact Nat.lt_of_lt_of_le (hbefore u hu) (by omega)
    · have hlast : u.pos.offset = text.length + 1 := by
        rw [List.mem_singleton.mp hu, ht, ← hend]
        rfl
      omega
  · rw [List.append_assoc, List.singleton_append, ← hname]
    exact htokens
  · have hmark := hv.mark (rest.head? == some 0x2E)
    rw [List.append_assoc, List.singleton_append,
      ← hmark.lexAll_behind_name (by decide) (by decide) hsource hsource' hbehind, ← hname']
    exact htokens'

/-- No token of a scanner starts before its place. -/
theorem Placed.dropWhile_lexAll {s : Scanner} (hs : s.Placed Vocabulary.standard) {n : Nat}
    (hn : n ≤ s.cursor.offset) :
    (s.lexAll.1.dropWhile fun t => t.pos.offset < n) = s.lexAll.1 := by
  have hle : n ≤ s.lex.1.pos.offset := by
    obtain ⟨hreach, ⟨-, htoken⟩ | ⟨hfirst, -⟩⟩ := hs.lex_progresses
    · rw [htoken]
      exact Nat.le_trans hn hreach.offset_le
    · exact Nat.le_trans hn hfirst
  have hstop : ¬decide (s.lex.1.pos.offset < n) = true := by simpa using hle
  rw [lexAll_unfold]
  split
  · exact List.dropWhile_cons_of_neg hstop
  · exact List.dropWhile_cons_of_neg hstop

/-- The tokens of a text with a name in quotation marks are those of the text with the name in
backticks, unless a point follows the name and a number leads what is read from there. -/
theorem lexAll_withName (hansi : config.has .ansiQuotes = true)
    (hwhole : (start .standard config text).Whole) (hname : ∀ b ∈ name, b ∉ [0x22, 0x60, 0x5C])
    (hrest : ∀ b ∈ rest.head?, b ∉ [0x22, 0x60]) :
    (start .standard config (.withName 0x22 text name rest)).lexAll.1 =
        (start .standard config (.withName 0x60 text name rest)).lexAll.1 ↔
      ¬(rest.head? = some 0x2E ∧ NumberLeads (.withName 0x22 text name rest)
        ((start .standard config (.withName 0x22 text name rest)).lexAll.1.dropWhile
          fun t => t.pos.offset < text.length + name.length + 3)) := by
  have hslash : 0x5C ∉ name := fun hmem => hname _ hmem (by decide)
  have hquotes (quote : UInt8) (h : quote ∈ [0x22, 0x60]) := Bytes.quotes_of_mem h hname hrest
  obtain ⟨ts, v, hv, hsource, hoffset, hbefore, hall, hall'⟩ :=
    exists_behind_name hwhole hansi (hquotes 0x22 (by decide)) (hquotes 0x60 (by decide)) hslash
  have hdrop : ((ts ++ (v.mark false).lexAll.1).dropWhile
      fun t => t.pos.offset < text.length + name.length + 3) = (v.mark false).lexAll.1 := by
    rw [List.dropWhile_append_of_pos fun t ht => decide_eq_true (hbefore t ht)]
    exact (hv.mark false).dropWhile_lexAll hoffset.ge
  rw [hall, hall', hdrop, List.append_cancel_left_eq, ← hsource]
  rcases hpoint : rest.head? == some 0x2E with _ | _
  · have hnot : rest.head? ≠ some 0x2E := by simpa using hpoint
    exact iff_of_true rfl fun h => hnot h.1
  · rw [hv.lexAll_marked, and_iff_right (eq_of_beq hpoint)]

/-- A name in quotation marks may stand in backticks where a name follows the point behind it, as in
`( "a".b`. -/
theorem lexAll_withName_column : ∃ config, config = { mode := .ofFlag .ansiQuotes } ∧
    (start .standard config [0x28]).Whole ∧
      (start .standard config (.withName 0x22 [0x28] [0x61] [0x2E, 0x62])).lexAll.1 =
        (start .standard config (.withName 0x60 [0x28] [0x61] [0x2E, 0x62])).lexAll.1 := by
  obtain ⟨config, hconfig⟩ : ∃ config : Config, config = { mode := .ofFlag .ansiQuotes } :=
    ⟨_, rfl⟩
  have hansi : config.has .ansiQuotes = true := by
    rw [hconfig]
    decide
  have hwhole : (start .standard config [0x28]).Whole := by
    rw [hconfig]
    decide +kernel
  have hname : ∀ b ∈ ([0x61] : Bytes), b ∉ [0x22, 0x60, 0x5C] :=
    List.forall_mem_singleton.mpr (by decide)
  have hrest : ∀ b ∈ ([0x2E, 0x62] : Bytes).head?, b ∉ [0x22, 0x60] := by
    rintro b ⟨⟩
    decide
  refine ⟨config, hconfig, hwhole, (lexAll_withName hansi hwhole hname hrest).mpr ?_⟩
  rw [hconfig]
  decide +kernel

/-- Where digits follow the point behind a name, they are a name behind backticks, and a number with
the point behind quotation marks. -/
theorem lexAll_withName_digits : ∃ config ts ts', config = { mode := .ofFlag .ansiQuotes } ∧
    (start .standard config []).Whole ∧
      (start .standard config (.withName 0x22 [] [0x61] [0x2E, 0x35])).lexAll.1 = ts ∧
      (start .standard config (.withName 0x60 [] [0x61] [0x2E, 0x35])).lexAll.1 = ts' ∧
      ts = [⟨.identifier, ⟨1, 2, 1⟩, [0x61]⟩, ⟨.decimalLiteral, ⟨1, 5, 4⟩, [0x2E, 0x35]⟩,
        .endAt ⟨1, 7, 6⟩] ∧
      ts' = [⟨.identifier, ⟨1, 2, 1⟩, [0x61]⟩, ⟨.ofChar '.', ⟨1, 5, 4⟩, [0x2E]⟩,
        ⟨.identifier, ⟨1, 6, 5⟩, [0x35]⟩, .endAt ⟨1, 7, 6⟩] ∧ ts ≠ ts' := by
  refine ⟨_, _, _, rfl, ?_, ?_, ?_, rfl, rfl, by decide⟩
  · decide +kernel
  · decide +kernel
  · decide +kernel

end Scanner

end SqlTokens
