import SqlTokens.Proofs.Errors
import SqlTokens.Proofs.NamePoints
import SqlTokens.Proofs.Numerals

/-!
# Names are the longest runs

Names come out of several forms: the plain one, the forms that a letter before quotes opens, and the
numbers that turn out to be none. Each of them, where it gives a name at all, gives the longest run
of name characters from its first one on (`word_of_stepAt`). And where a name can start, the forms
come to the same name: a letter that marks a quoted form does so in front of a quote only
(`stepAt_of_startsName`). `run_names` says both of every scan behind every run of calls.
-/

namespace SqlTokens

/-! ## Beginnings of names -/

namespace Rune

/-- What a name can start with in ASCII. -/
def isNameLetter (r : Rune) : Bool := r.isLetter || r.is '_' || r.is '$'

/-- What a name can start with. A digit starts a name behind a point alone. -/
def startsName (r : Rune) : Bool := r.isNameLetter || r.isExtended

/-- The letters that open a form in front of a quote. -/
def marksQuotes (r : Rune) : Bool :=
  r.is 'x' || r.is 'X' || r.is 'b' || r.is 'B' || r.is 'n' || r.is 'N'

/-- What a name can start with in ASCII is ASCII. -/
theorem isAscii_isNameLetter : IsAscii isNameLetter :=
  isAscii_or
    (isAscii_or (isAscii_or (isAscii_within (by decide) (by decide))
      (isAscii_within (by decide) (by decide))) (isAscii_is (by decide)))
    (isAscii_is (by decide))

/-- What a name can start with is a character of names. -/
theorem isNameChar_of_startsName {r : Rune} (h : r.startsName = true) : r.isNameChar = true := by
  simp only [startsName, isNameLetter, Bool.or_eq_true] at h
  simp only [isNameChar, isAlphanumeric, Bool.or_eq_true]
  rcases h with ((h | h) | h) | h
  · exact .inl (.inl (.inl (.inl h)))
  · exact .inl (.inl (.inr h))
  · exact .inl (.inr h)
  · exact .inr h

end Rune

/-- The forms that may come to a name where a name can start. -/
def Starter.names : List Starter := [.hexMark, .bitMark, .nationalMark, .identifier]

/-- These forms are opened by what a name can start with in ASCII, all but the last by letters that
open a form in front of a quote. -/
theorem Starter.opens_names : ∀ b : UInt8,
    (Rune.onByte Rune.isNameLetter b = true ↔ ∃ starter ∈ names, ofByte? b = some starter) ∧
      (Rune.onByte Rune.marksQuotes b = true ↔
        ∃ starter ∈ names, starter ≠ .identifier ∧ ofByte? b = some starter) :=
  Bytes.forall_byte (by decide +kernel)

/-! ## The forms that give names -/

namespace Lexeme

variable {c : Cursor}

/-- Whether a lexeme, if it is a name, is the longest one from its first character on. -/
def KeepsToWord (l : Lexeme) (c : Cursor) : Prop :=
  l.kind = .identifier → c.rune.isNameChar = true ∧ l = word c

/-- What is no name keeps to the longest one. -/
theorem keepsToWord_of_kind {l : Lexeme} (h : l.kind ≠ .identifier) : l.KeepsToWord c :=
  fun hname => absurd hname h

/-- What may be the longest name keeps to it. -/
theorem keepsToWord_of_cases {l : Lexeme} (hc : c.rune.isNameChar = true)
    (h : l = word c ∨ l.kind ≠ .identifier) : l.KeepsToWord c := by
  intro hname
  rcases h with h | h
  · exact ⟨hc, h⟩
  · exact absurd hname h

/-- A form that starts with the letter of a notation is the longest name, or it is none. -/
theorem quotedDigits_cases {kind : TokenKind} (hkind : kind ≠ .identifier) (error : ScanErrorKind)
    (digit : Rune → Bool) : quotedDigits kind error digit c = word c ∨
      (quotedDigits kind error digit c).kind ≠ .identifier := by
  unfold quotedDigits
  simp only
  repeat' split
  · exact .inl rfl
  · exact .inr hkind
  · exact .inr (show TokenKind.invalid ≠ .identifier by decide)

/-- A form that starts with an `n` is the longest name, or it is none. -/
theorem national_cases : national c = word c ∨ (national c).kind ≠ .identifier := by
  unfold national
  simp only
  split
  · exact .inr (show TokenKind.charsetIntroducer ≠ .identifier by decide)
  · exact .inl rfl

/-- A number that turns out to be none is the longest name. -/
theorem number_keepsToWord (afterNameDot : Bool) (h : c.rune.isDigit = true) :
    (number afterNameDot c).KeepsToWord c := by
  refine keepsToWord_of_cases (Rune.isNameChar_of_isDigit h) ?_
  cases afterNameDot with
  | true => exact .inl (number_true c)
  | false =>
    refine (number_cases c).imp_right fun hnumber hname => ?_
    rw [hname] at hnumber
    exact absurd hnumber (by decide)

/-- What starts with a point is no name. -/
theorem dot_kind_ne (afterNameDot : Bool) : (dot afterNameDot c).kind ≠ .identifier := by
  have hpoint : (whole (.ofChar '.') c c.advance).kind ≠ .identifier :=
    show TokenKind.ofChar '.' ≠ .identifier by decide
  cases afterNameDot with
  | true => rwa [dot_true]
  | false =>
    rcases dot_cases c with h | h
    · rwa [h]
    · intro hname
      rw [hname] at h
      exact absurd h (by decide)

/-- A quoted form is no name without quotes. -/
theorem quoted_kind_ne {kind : TokenKind} (hkind : kind ≠ .identifier) (error : ScanErrorKind)
    (escapes : Bool) : (quoted kind error escapes c).kind ≠ .identifier := by
  obtain ⟨stop, -, ⟨text, h⟩ | h⟩ := quoted_cases kind error escapes c
  · rwa [h]
  · rw [h]
    exact (by decide : TokenKind.invalid ≠ .identifier)

/-- A letter that no quote follows opens no quoted form. -/
theorem quotedDigits_of_plain (kind : TokenKind) (error : ScanErrorKind) (digit : Rune → Bool)
    (h : c.advance.rune.is '\'' = false) : quotedDigits kind error digit c = word c := by
  unfold quotedDigits
  simp only [h, Bool.not_false, if_true]

/-- A letter that no quote follows introduces no string. -/
theorem national_of_plain (hc : c.rune.isNameChar = true) (h : c.advance.rune.is '\'' = false) :
    national c = word c := by
  unfold national
  refine if_neg fun hmark => ?_
  rw [Bool.and_eq_true] at hmark
  obtain ⟨hletter, hquote⟩ := hmark
  rcases hnext : c.advance.rune.isNameChar with _ | _
  · -- The name is one rune, and the quote would be the next one.
    have hstop : (word c).stop = c.advance := Cursor.skipWhile_self (.inr hnext)
    rw [hstop, h] at hquote
    cases hquote
  · -- The name has two runes, and so it is not the letter.
    have hreach : c.advance.Reaches (word c).stop := (Cursor.Reaches.refl _).skipWhile _
    have htext : (word c).text = c.upTo c.advance ++ c.advance.upTo (word c).stop :=
      (Cursor.Reaches.next c).upTo_trans hreach
    have hfirst : c.upTo c.advance ≠ [] :=
      Cursor.upTo_advance_ne_nil (Comment.atEnd_eq_false_of_isNameChar hc)
    have hrest : c.advance.upTo (word c).stop ≠ [] :=
      Comment.upTo_skipWhile_ne_nil (Comment.atEnd_eq_false_of_isNameChar hnext) hnext
    have hlen := congrArg List.length (Bytes.sameLetters_iff.mp hletter)
    rw [Bytes.length_toUpper, Bytes.length_toUpper, htext, List.length_append] at hlen
    have hone : (Bytes.ofString "n").length = 1 := by decide
    have hfirst' := List.length_pos_iff.mpr hfirst
    have hrest' := List.length_pos_iff.mpr hrest
    omega

end Lexeme

/-! ## Steps -/

variable (config : Config) (s : State) {c : Cursor}

/-- What the form of a starter gives keeps to the longest name, if the byte there opens it. -/
theorem Starter.word_of_outcome {starter : Starter} {b : UInt8} {t : Token} {next : Cursor}
    {s' : State} (hb : c.ahead.head? = some b) (hopens : ofByte? b = some starter)
    (h : starter.outcome config s c = .token t next s') (ht : t.kind = .identifier) :
    c.rune.isNameChar = true ∧ t = (Lexeme.word c).token c ∧ next = (Lexeme.word c).stop := by
  obtain ⟨h0, hlt, -⟩ := opens_of_ofByte? hopens
  have hrune : c.rune = Rune.ofByte b := Cursor.rune_of_head? h0 hlt hb
  have hlexeme {l : Lexeme} (hl : l.KeepsToWord c) (hform : starter.outcome config s c =
      .ofLexeme c s l) :
      c.rune.isNameChar = true ∧ t = (Lexeme.word c).token c ∧ next = (Lexeme.word c).stop := by
    rw [hform, Outcome.ofLexeme, Outcome.token.injEq] at h
    obtain ⟨rfl, rfl, -⟩ := h
    obtain ⟨hc, hword⟩ := hl ht
    exact ⟨hc, by rw [hword], by rw [hword]⟩
  have hnot {kinds : List TokenKind} (hkinds : TokenKind.identifier ∉ kinds)
      (ho : (starter.outcome config s c).Kinded (· ∈ kinds)) :
      c.rune.isNameChar = true ∧ t = (Lexeme.word c).token c ∧ next = (Lexeme.word c).stop := by
    rw [h] at ho
    exact absurd (ht ▸ ho : TokenKind.identifier ∈ kinds) hkinds
  -- The letters are characters of names, and so are the digits.
  have hletter (hnames : starter ∈ names) : c.rune.isNameChar = true := by
    have hclass := (opens_names b).1.mpr ⟨starter, hnames, hopens⟩
    rw [Rune.onByte, ← hrune] at hclass
    exact Rune.isNameChar_of_startsName (by rw [Rune.startsName, hclass]; rfl)
  cases starter with
  | slash => exact hnot (by decide) (Comment.slash_kind s c)
  | star => exact hnot (by decide) (Comment.star_kind s c)
  | sharp => cases h
  | dash => exact hnot (by decide) (Comment.dash_kind s c)
  | «at» => exact hnot (by decide) (Lexeme.anyVariable_kind _ c)
  | dot => exact hlexeme (Lexeme.keepsToWord_of_kind (Lexeme.dot_kind_ne _)) rfl
  | number =>
    have hdigit : c.rune.isDigit = true := by rw [hrune, ← (opens_class b).2, hopens]
    exact hlexeme (Lexeme.number_keepsToWord _ hdigit) rfl
  | string =>
    exact hlexeme (Lexeme.keepsToWord_of_kind (Lexeme.quoted_kind_ne (by decide) _ _)) rfl
  | quotedIdentifier =>
    exact hlexeme (Lexeme.keepsToWord_of_kind (Lexeme.quoted_kind_ne (by decide) _ _)) rfl
  | hexMark =>
    exact hlexeme (Lexeme.keepsToWord_of_cases (hletter (by decide))
      (Lexeme.quotedDigits_cases (by decide) _ _)) rfl
  | bitMark =>
    exact hlexeme (Lexeme.keepsToWord_of_cases (hletter (by decide))
      (Lexeme.quotedDigits_cases (by decide) _ _)) rfl
  | nationalMark =>
    exact hlexeme (Lexeme.keepsToWord_of_cases (hletter (by decide)) Lexeme.national_cases) rfl
  | identifier => exact hlexeme (Lexeme.keepsToWord_of_cases (hletter (by decide)) (.inl rfl)) rfl

/-- A name that a step finds is the longest one where the step starts. -/
theorem word_of_stepAt {t : Token} {next : Cursor} {s' : State}
    (h : stepAt .standard config s c = .token t next s') (ht : t.kind = .identifier) :
    c.rune.isNameChar = true ∧ t = (Lexeme.word c).token c ∧ next = (Lexeme.word c).stop := by
  have hnot {kind : TokenKind} (hkind : kind ≠ .identifier) (hsame : t.kind = kind) :
      c.rune.isNameChar = true ∧ t = (Lexeme.word c).token c ∧ next = (Lexeme.word c).stop :=
    absurd (hsame.symm.trans ht) hkind
  have hinvalid : TokenKind.invalid ≠ .identifier := by decide
  unfold stepAt at h
  simp only at h
  split at h
  · cases h
  · split at h
    · -- A character of several bytes starts the name.
      rename_i hextended
      rw [Outcome.ofLexeme, Outcome.token.injEq] at h
      obtain ⟨rfl, rfl, -⟩ := h
      refine ⟨Rune.isNameChar_of_startsName ?_, rfl, rfl⟩
      rw [Rune.startsName, hextended, Bool.or_true]
    · split at h
      · cases h
        exact hnot hinvalid rfl
      · split at h
        · rename_i starter stop hwalk
          obtain ⟨b, hb, hopens⟩ := Table.opens_of_walk hwalk
          exact Starter.word_of_outcome config s hb hopens h ht
        · -- No operator is a name.
          rename_i kind stop hwalk
          unfold Lexeme.operator at h
          split at h
          · cases h
            exact hnot hinvalid rfl
          · rename_i hvalid
            obtain ⟨e, he, -, -, hentry⟩ := Table.entry_of_walk hwalk hvalid
            cases h
            exact hnot (hentry ▸ Vocabulary.standard_ne (by decide) e he) rfl
        · cases h
          exact hnot hinvalid rfl

/-- Where a name can start, and no quoted form does, a step finds the longest name. -/
theorem stepAt_of_startsName (entries : List Entry) (hname : c.rune.startsName = true)
    (hplain : ¬(c.rune.marksQuotes = true ∧ c.advance.rune.is '\'' = true)) :
    stepAt (.ofEntries entries) config s c = .ofLexeme c s (.word c) := by
  rcases hextended : c.rune.isExtended with _ | _
  · have hletter : c.rune.isNameLetter = true := by
      rwa [Rune.startsName, hextended, Bool.or_false] at hname
    obtain ⟨b, hb, hin⟩ := (Cursor.rune_iff_head? Rune.isAscii_isNameLetter).mp hletter
    obtain ⟨starter, hnames, hopens⟩ := (Starter.opens_names b).1.mp hin
    obtain ⟨h0, hlt, -⟩ := Starter.opens_of_ofByte? hopens
    -- The letters of quoted forms stand before no quote here.
    have hquote (hne : starter ≠ .identifier) : c.advance.rune.is '\'' = false := by
      have hmark := (Starter.opens_names b).2.mpr ⟨starter, hnames, hne, hopens⟩
      rw [Rune.onByte, ← Cursor.rune_of_head? h0 hlt hb] at hmark
      exact Bool.eq_false_iff.mpr fun h => hplain ⟨hmark, h⟩
    rw [stepAt_of_starter entries config s hb hopens]
    simp only [Starter.names, List.mem_cons, List.not_mem_nil, or_false] at hnames
    rcases hnames with rfl | rfl | rfl | rfl
    · exact congrArg (Outcome.ofLexeme c s)
        (Lexeme.quotedDigits_of_plain _ _ _ (hquote (by decide)))
    · exact congrArg (Outcome.ofLexeme c s)
        (Lexeme.quotedDigits_of_plain _ _ _ (hquote (by decide)))
    · exact congrArg (Outcome.ofLexeme c s)
        (Lexeme.national_of_plain (Rune.isNameChar_of_startsName hname) (hquote (by decide)))
    · rfl
  · have hbom : c.rune.isBom = false := by
      simp only [Rune.isExtended, Bool.and_eq_true, Bool.not_eq_true'] at hextended
      exact hextended.2
    unfold stepAt
    simp only [hbom, hextended, Bool.false_eq_true, if_false, if_true]

/-! ## Scans -/

/-- A search crosses what stands before its token. -/
theorem Finds.exists_crosses {s s' : State} {c next : Cursor} {t : Token}
    (h : Finds s c t next s') :
    ∃ first, c.Crosses s.inVendorBlock first s'.inVendorBlock ∧ t.pos = first.pos := by
  rcases h with ⟨hcross, -, -⟩ | ⟨hcross, -, -, -, -⟩
  · exact ⟨_, hcross, rfl⟩
  · exact ⟨_, hcross, rfl⟩

namespace Scanner

variable {entries : List Entry} {s : Scanner}

/-- The place where the next token starts. -/
def head (s : Scanner) : Cursor := .place s.cursor.source s.scan.1.pos

/-- A place of the source with the position of the next token is where it starts. -/
theorem eq_head {c : Cursor} (hreach : s.cursor.Reaches c) (hpos : s.scan.1.pos = c.pos) :
    c = s.head := by
  rw [head, hpos, ← hreach.source_eq]
  exact c.eq_place

/-- A lexeme that a step finds right behind the blanks is the next token, which starts there. -/
theorem scan_of_lexeme {first : Cursor} {l : Lexeme}
    (hskip : s.cursor.skipWhile Rune.isSpace = first) (hend : first.atEnd = false)
    (hlexeme : stepAt s.table s.config s.state first = .ofLexeme first s.state l) :
    s.scan.1 = l.token first ∧ s.head = first := by
  have hreach : s.cursor.Reaches first := by
    rw [← hskip]
    exact (Cursor.Reaches.refl _).skipWhile _
  have hstep : step s.table s.config s.state s.cursor = .ofLexeme first s.state l := by
    rw [step_of_open s.config s.state (by rwa [hskip]), hskip, hlexeme]
  have htoken : s.scan.1 = l.token first := by
    rw [scan_of_nextToken (nextToken_of_token hstep)]
  exact ⟨htoken, (eq_head hreach (by rw [htoken]; rfl)).symm⟩

/-- A lexeme that every step finds where the next token starts is that token, and its error is the
only one that the scan adds. -/
theorem Placed.scan_of_head (h : s.Placed entries) {l : Lexeme} (hend : s.head.atEnd = false)
    (hlexeme : ∀ s', stepAt (.ofEntries entries) s.config s' s.head = .ofLexeme s.head s' l) :
    s.scan.1 = l.token s.head ∧ s.scan.2.cursor = l.stop ∧
      s.scan.2.state.errors = s.state.errors ++ l.fault.toList := by
  obtain ⟨first, s', hreach, hpos, -, herrors, ⟨hatEnd, -⟩ | ⟨t, next, s'', hstep, hfound⟩⟩ :=
    nextToken_last entries s.config s.state h.canonical.le_length
  all_goals
    rw [← h.table_eq, ← scan_token] at hpos
    obtain rfl := eq_head hreach hpos
  · rw [hatEnd] at hend
    cases hend
  · rw [hlexeme, Outcome.ofLexeme, Outcome.token.injEq] at hstep
    obtain ⟨rfl, rfl, rfl⟩ := hstep
    rw [scan_token, scan_cursor, scan_state, h.table_eq, hfound, ← herrors]
    exact ⟨rfl, rfl, rfl⟩

/-- Between a scanner and the next token stands no other one. -/
theorem Placed.crosses_head (h : s.Placed entries) :
    s.cursor.Crosses s.state.inVendorBlock s.head s.scan.2.state.inVendorBlock := by
  obtain ⟨first, hcross, hpos⟩ := h.scan_finds.exists_crosses
  rwa [← eq_head hcross.reaches hpos]

/-- A scan reads on from where its token starts. -/
theorem Placed.head_reaches {entries : List Entry} (h : s.Placed entries) :
    s.head.Reaches s.scan.2.cursor := by
  obtain ⟨first, s', hreach, hpos, hnext, -⟩ :=
    nextToken_last entries s.config s.state h.canonical.le_length
  rw [← h.table_eq, ← scan_token] at hpos
  rw [← h.table_eq, ← scan_cursor] at hnext
  rwa [← eq_head hreach hpos]

/-- A token before the end has at least one byte. -/
theorem Placed.upTo_head_ne_nil {entries : List Entry} (h : s.Placed entries)
    (hend : s.scan.1.kind ≠ .eof) : s.head.upTo s.scan.2.cursor ≠ [] := by
  have hreach := h.head_reaches
  have hle := hreach.le_length (h.crosses_head.reaches.le_length h.canonical.le_length)
  rcases h.scan_finds.progress h.canonical.le_length with ⟨-, htoken⟩ | ⟨-, hlt⟩
  · exact absurd (by rw [htoken]; rfl) hend
  · have hlt : s.head.offset < s.scan.2.cursor.offset := hlt
    rw [← List.length_pos_iff, hreach.length_upTo hle]
    omega

/-- A scan that does not come to the end finds its token by a step where the token starts. -/
theorem Placed.step_head (h : s.Placed entries) (hend : s.scan.1.kind ≠ .eof) :
    ∃ s' s'', stepAt (.ofEntries entries) s.config s' s.head =
      .token s.scan.1 s.scan.2.cursor s'' := by
  obtain ⟨first, s', s'', hreach, hpos, hstep⟩ := h.scan_step hend
  rw [eq_head hreach hpos] at hstep
  exact ⟨s', s'', hstep⟩

/-- A scan that comes to the end has nothing before it. -/
theorem Placed.atEnd_head (h : s.Placed Vocabulary.standard) (hend : s.scan.1.kind = .eof) :
    s.head.atEnd = true := by
  obtain ⟨first, s', hreach, hpos, -, -, ⟨hatEnd, -⟩ | ⟨t, next, s'', hstep, hfound⟩⟩ :=
    nextToken_last Vocabulary.standard s.config s.state h.canonical.le_length
  · rw [← h.table_eq, ← scan_token] at hpos
    rwa [← eq_head hreach hpos]
  · rw [scan_token, h.table_eq, hfound] at hend
    exact absurd hend (ne_eof_of_stepAt _ _ hstep)

/-- Whether a scan reads a name: its token is the text of what has been read, which is a run of name
characters with none behind it. -/
structure ReadsName (s : Scanner) : Prop where
  /-- The token is a name. -/
  kind_eq : s.scan.1.kind = .identifier
  /-- It stands for the bytes from its start up to where the scan ends. -/
  text_eq : s.scan.1.text =
    (s.cursor.source.take s.scan.2.cursor.offset).drop s.scan.1.pos.offset
  /-- There is at least one. -/
  ne_nil : s.scan.1.text ≠ []
  /-- They are name characters. -/
  run : Comment.NameRun s.scan.1.text
  /-- No name character comes next. -/
  ends : s.scan.2.cursor.rune.isNameChar = false

/-- A scan that finds the longest name where its token starts reads a name. -/
theorem Placed.readsName (h : s.Placed entries) (hname : s.head.rune.isNameChar = true)
    (ht : s.scan.1 = (Lexeme.word s.head).token s.head)
    (hnext : s.scan.2.cursor = (Lexeme.word s.head).stop) : s.ReadsName := by
  have hword := Lexeme.word_eq hname
  have hkind : s.scan.1.kind = .identifier := by
    rw [ht]
    rfl
  have htext : s.scan.1.text = s.head.upTo (s.head.skipWhile Rune.isNameChar) := by
    rw [ht, hword]
    rfl
  refine ⟨hkind, h.scan_finds.text_eq (by rw [hkind]; decide) (by rw [hkind]; decide), ?_, ?_, ?_⟩
  · rw [htext]
    exact Comment.upTo_skipWhile_ne_nil (Comment.atEnd_eq_false_of_isNameChar hname) hname
  · rw [htext]
    exact Comment.nameRun_upTo s.head
  · rw [hnext, hword, Comment.isNameChar_rune]
    exact Comment.skipWhile_ends s.head

/-- What is no malformed token adds no error. -/
theorem Placed.errors_scan (h : s.Placed entries) (hkind : s.scan.1.kind ≠ .invalid) :
    s.scan.2.state.errors = s.state.errors := by
  rcases addsSoundly_of_recorded h.scan_records with herrors | ⟨error, hadds⟩
  · exact herrors
  · exact absurd hadds.kind_eq hkind

/-- Names are the longest runs. Behind every run of calls under the standard table, a scan that
gives a name reads a run of name characters, at least one, up to where no name character comes next,
and the token is its text. And where what stands before the next token has been skipped and a name
can start there, the scan reads that name and reports nothing, unless the letter there opens a form
in front of a quote. -/
theorem run_names (config : Config) (source : Bytes) (ops : List Op) (s : Scanner)
    (hs : s = (start .standard config source).run ops) :
    s.cursor.Crosses s.state.inVendorBlock s.head s.scan.2.state.inVendorBlock ∧
    (s.scan.1.kind = .identifier → s.ReadsName) ∧
    (s.head.rune.startsName = true →
      ¬(s.head.rune.marksQuotes = true ∧ s.head.advance.rune.is '\'' = true) →
      s.ReadsName ∧ s.scan.2.state.errors = s.state.errors) := by
  have hplaced : s.Placed Vocabulary.standard := by
    rw [hs]
    exact run_placed ops (start_placed Vocabulary.standard config source)
  have hnames (hkind : s.scan.1.kind = .identifier) : s.ReadsName := by
    obtain ⟨s', s'', hstep⟩ := hplaced.step_head (by rw [hkind]; decide)
    obtain ⟨hname, ht, hnext⟩ := word_of_stepAt _ _ hstep hkind
    exact hplaced.readsName hname ht hnext
  refine ⟨hplaced.crosses_head, hnames, fun hstarts hplain => ?_⟩
  -- At the end no name can start.
  have hend : s.scan.1.kind ≠ .eof := by
    intro heof
    have hatEnd := hplaced.atEnd_head heof
    rw [Comment.atEnd_eq_false_of_isNameChar (Rune.isNameChar_of_startsName hstarts)] at hatEnd
    cases hatEnd
  obtain ⟨s', s'', hstep⟩ := hplaced.step_head hend
  rw [stepAt_of_startsName _ _ _ hstarts hplain, Outcome.ofLexeme, Outcome.token.injEq] at hstep
  have hkind : s.scan.1.kind = .identifier := by
    rw [← hstep.1]
    rfl
  exact ⟨hnames hkind, hplaced.errors_scan (by rw [hkind]; decide)⟩

/-- A letter of a national string that another letter follows starts a name, in front of a quote,
too. -/
theorem run_names_letter : ∃ s,
    s = (start .standard {} [0x3B, 0x20, 0x6E, 0x31, 0x27]).run [.scan] ∧
      s.head.rune.marksQuotes = true ∧ s.ReadsName ∧ s.scan.1.text = [0x6E, 0x31] := by
  obtain ⟨s, hs⟩ : ∃ s, s = (start .standard {} [0x3B, 0x20, 0x6E, 0x31, 0x27]).run [.scan] :=
    ⟨_, rfl⟩
  obtain ⟨hstarts, hmark, hplain, htext⟩ : s.head.rune.startsName = true ∧
      s.head.rune.marksQuotes = true ∧
      ¬(s.head.rune.marksQuotes = true ∧ s.head.advance.rune.is '\'' = true) ∧
      s.scan.1.text = [0x6E, 0x31] := by
    rw [hs]
    decide +kernel
  exact ⟨s, hs, hmark, ((run_names {} _ [.scan] s hs).2.2 hstarts hplain).1, htext⟩

end Scanner

end SqlTokens
