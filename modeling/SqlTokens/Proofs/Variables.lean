import SqlTokens.Proofs.Features
import SqlTokens.Proofs.Quoting
import SqlTokens.Proofs.Starters

/-!
# The grammar of variables

What stands behind the mark of a variable. `Variable.Name` says it for the name, which stands
between delimiters or is a longest run, `Variable.Scope` for the scope of a system variable, and
`Variable.MarkLed` for the whole, on the bytes of the form and those behind it. The reader looks for
a name first, for a second mark only where there is none, and for a scope only behind that; it finds
each form of the grammar that lies ahead (`anyVariable_of_markLed`). Since a form lies behind every
mark (`exists_markLed`), it finds no others, and the two agree on every text
(`Starter.outcome_variable`).
-/

namespace SqlTokens

/-- The characters of variables are none of the marks. -/
theorem Rune.isPlain_isVariableChar : IsPlain isVariableChar :=
  ⟨by decide, by decide, by decide⟩

/-! ## The grammar -/

namespace Variable

/-- The delimiters of names. -/
def delimiters : List UInt8 := [0x27, 0x22, 0x60]

/-- The names of variables: their bytes, the bytes behind them, and what they stand for; none if the
closing delimiter is missing. -/
inductive Name (escapes : Bool) : Bytes → Bytes → Option Bytes → Prop where
  /-- Behind a delimiter a name is read as in quotes, up to the closing one. Backticks have no
  escapes. -/
  | delimited {quote : UInt8} {inside rest content : Bytes} : quote ∈ delimiters →
      Bytes.string? quote (escapes && quote != 0x60) (inside ++ rest) = some (content, rest) →
      Name escapes (quote :: inside) rest (some content)
  /-- If no delimiter closes it, everything up to the end belongs to it. -/
  | unclosed {quote : UInt8} {inside : Bytes} : quote ∈ delimiters →
      Bytes.string? quote (escapes && quote != 0x60) inside = none →
      Name escapes (quote :: inside) [] none
  /-- Without delimiters a name is a longest run of name characters and points. -/
  | plain {text rest : Bytes} : text ≠ [] → Rune.RunOf Rune.isVariableChar text →
      (Rune.decode rest).1.isVariableChar = false → Name escapes text rest (some text)

/-- The texts at which no name starts. -/
structure Unnamed (rest : Bytes) : Prop where
  /-- No delimiter opens one. -/
  undelimited : ∀ b ∈ rest.head?, b ∉ delimiters
  /-- No character of one stands there. -/
  plain : (Rune.decode rest).1.isVariableChar = false

/-- The words that name a scope. -/
def scopeWords : List Bytes := ["global.", "session.", "local."].map Bytes.ofString

/-- What is written as the scope of a system variable, and the bytes behind it. -/
inductive Scope : Bytes → Bytes → Prop where
  /-- One of the words, in whichever case its letters are. -/
  | word {scope word rest : Bytes} : word ∈ scopeWords → Bytes.sameLetters scope word = true →
      Scope scope rest
  /-- Nothing, if none of the words comes next. -/
  | none {rest : Bytes} : (∀ word ∈ scopeWords,
      Bytes.sameLetters (rest.take word.length) word = false) → Scope [] rest

/-- The texts at which no rune can be read, if they do not start their source. -/
def Unreadable (rest : Bytes) : Prop :=
  (Rune.decodeFrom 1 rest).1 = .eof ∨ (Rune.decodeFrom 1 rest).1 = .invalid

/-- The forms that start with the mark of variables: the kind, the bytes of the form, those behind
it, and the text that it stands for. -/
inductive MarkLed (escapes : Bool) : TokenKind → Bytes → Bytes → Bytes → Prop where
  /-- Behind one mark stands the name of a variable of the user. -/
  | user {name rest content : Bytes} : Name escapes name rest (some content) →
      MarkLed escapes .userVariable (0x40 :: name) rest content
  /-- If that is not closed, the form is malformed. -/
  | userUnclosed {name rest : Bytes} : Name escapes name rest none →
      MarkLed escapes .invalid (0x40 :: name) rest (0x40 :: name)
  /-- Behind two marks and a scope stands the name of a system variable. Marks and scope belong to
  its text as they are written. -/
  | system {scope name rest content : Bytes} : Scope scope (name ++ rest) →
      Name escapes name rest (some content) →
      MarkLed escapes .systemVariable (0x40 :: 0x40 :: (scope ++ name)) rest
        (0x40 :: 0x40 :: (scope ++ content))
  /-- If that is not closed, the form is malformed. -/
  | systemUnclosed {scope name rest : Bytes} : Scope scope (name ++ rest) →
      Name escapes name rest none →
      MarkLed escapes .invalid (0x40 :: 0x40 :: (scope ++ name)) rest
        (0x40 :: 0x40 :: (scope ++ name))
  /-- Without a name two marks and a scope are malformed by themselves. -/
  | systemUnnamed {scope rest : Bytes} : Scope scope rest → Unnamed rest →
      MarkLed escapes .invalid (0x40 :: 0x40 :: scope) rest (0x40 :: 0x40 :: scope)
  /-- One mark before any other rune is a variable without name. -/
  | nameless {rest : Bytes} : Unnamed rest → rest.head? ≠ some 0x40 → ¬Unreadable rest →
      MarkLed escapes .userVariable [0x40] rest []
  /-- One mark before what cannot be read is malformed. -/
  | lone {rest : Bytes} : Unreadable rest → MarkLed escapes .invalid [0x40] rest [0x40]

/-! ### Facts about the grammar -/

/-- The words are ASCII, and each starts with a letter of its own. -/
theorem scopeWords_facts : ∀ word ∈ scopeWords, (∀ b ∈ Bytes.toUpper word, b < 0x80) ∧ word ≠ [] ∧
    ∀ word' ∈ scopeWords, (Bytes.toUpper word).head? = (Bytes.toUpper word').head? →
      word = word' := by
  decide +kernel

/-- A byte is ASCII if its upper case is. -/
theorem lt_of_upper_lt : ∀ b : UInt8, Bytes.upper b < 0x80 → b < 0x80 :=
  Bytes.forall_byte (by decide +kernel)

/-- What is written as a word is ASCII, and as long as the word. -/
theorem written_facts {scope word : Bytes} (hword : word ∈ scopeWords)
    (hsame : Bytes.sameLetters scope word = true) :
    (∀ b ∈ scope, b < 0x80) ∧ scope.length = word.length := by
  have hupper := Bytes.sameLetters_iff.mp hsame
  constructor
  · intro b hb
    have hmem : Bytes.upper b ∈ Bytes.toUpper word := by
      rw [← hupper]
      exact List.mem_map_of_mem hb
    exact lt_of_upper_lt b ((scopeWords_facts word hword).1 _ hmem)
  · rw [← Bytes.length_toUpper scope, hupper, Bytes.length_toUpper]

/-- In front of every text a scope is written, or nothing. -/
theorem exists_scope (bytes : Bytes) : ∃ scope rest, bytes = scope ++ rest ∧ Scope scope rest := by
  by_cases h : ∃ word ∈ scopeWords, Bytes.sameLetters (bytes.take word.length) word = true
  · obtain ⟨word, hword, hsame⟩ := h
    exact ⟨_, _, (List.take_append_drop _ _).symm, .word hword hsame⟩
  · refine ⟨[], bytes, rfl, .none fun word hword => Bool.eq_false_iff.mpr fun hsame => ?_⟩
    exact h ⟨word, hword, hsame⟩

/-- Two words that lie ahead are one. -/
theorem eq_of_sameLetters_take {word word' bytes : Bytes} (hword : word ∈ scopeWords)
    (hword' : word' ∈ scopeWords)
    (hsame : Bytes.sameLetters (bytes.take word.length) word = true)
    (hsame' : Bytes.sameLetters (bytes.take word'.length) word' = true) : word = word' := by
  -- Both start with the first letter that lies ahead.
  have hhead {w : Bytes} (hw : w ∈ scopeWords)
      (hs : Bytes.sameLetters (bytes.take w.length) w = true) :
      (Bytes.toUpper w).head? = (Bytes.toUpper bytes).head? := by
    have hpos := List.length_pos_iff.mpr (scopeWords_facts w hw).2.1
    rw [← Bytes.sameLetters_iff.mp hs, Bytes.toUpper, List.map_take, List.head?_take,
      if_neg (by omega)]
    rfl
  exact (scopeWords_facts word hword).2.2 word' hword'
    ((hhead hword hsame).trans (hhead hword' hsame').symm)

end Variable

/-! ## The reader -/

namespace Lexeme

open Variable

variable {c d : Cursor} (escapes : Bool)

/-- Behind a delimiter a name is read as in quotes, and it is malformed if nothing closes it. -/
theorem variableName?_of_delimiter {quote : UInt8} {inside : Bytes} (hquote : quote ∈ delimiters)
    (ha : c.ahead = quote :: inside) :
    ∃ read, variableName? escapes c = some read ∧ c.advance.Reaches read.stop ∧
      match Bytes.string? quote (escapes && quote != 0x60) inside with
      | some (text, behind) =>
        read.stop.ahead = behind ∧ read.kind ≠ .invalid ∧ read.text = text
      | none => read.stop.ahead = [] ∧ read.kind = .invalid := by
  have his {ch : Char} (hch : Rune.IsByte ch) :
      c.rune.is ch = decide (quote = UInt8.ofNat ch.toNat) :=
    Cursor.is_eq_decide hch (by rw [ha]; rfl)
  obtain ⟨kind, error, hkind, hread⟩ : ∃ kind error, kind ≠ TokenKind.invalid ∧
      variableName? escapes c = some (quoted kind error (escapes && quote != 0x60) c) := by
    unfold variableName? Rune.isQuote
    rw [his (by decide), his (by decide), his (by decide), Bool.and_comm]
    simp only [delimiters, List.mem_cons, List.not_mem_nil, or_false] at hquote
    rcases hquote with rfl | rfl | rfl
    · exact ⟨.stringLiteral, .unterminatedString, by decide, rfl⟩
    · exact ⟨.stringLiteral, .unterminatedString, by decide, rfl⟩
    · exact ⟨.quotedIdentifier, .unterminatedQuotedIdentifier, by decide, rfl⟩
  obtain ⟨h0, hascii, -⟩ := delimiter_facts hquote
  obtain ⟨stop, -, henclosed, hform⟩ :=
    quoted_string? kind error h0 hascii (escapes && quote != 0x60) ha
  have hreach := enclosed_reaches (.ofByte quote) (escapes && quote != 0x60) c.advance
  rw [henclosed] at hreach
  cases hstring : Bytes.string? quote (escapes && quote != 0x60) inside with
  | some reading =>
    rw [hstring] at hform
    rw [hform.2] at hread
    exact ⟨_, hread, hreach, hform.1, hkind, rfl⟩
  | none =>
    rw [hstring] at hform
    rw [hform.2] at hread
    exact ⟨_, hread, hreach, hform.1, rfl⟩

/-- Without a delimiter a name is the run that starts with a character of variables. -/
theorem variableName?_of_plain (h : c.rune.isVariableChar = true) :
    variableName? escapes c = some (whole .identifier c (c.skipWhile Rune.isVariableChar)) := by
  simp only [variableName?, Rune.isQuote, Rune.is_eq_false h '\'' (by decide),
    Rune.is_eq_false h '"' (by decide), Rune.is_eq_false h '\x60' (by decide), h, Bool.or_self,
    Bool.false_eq_true, if_false, if_true, Cursor.skipWhile_advance h]

/-- Where no name starts, none is read. -/
theorem variableName?_of_unnamed (h : Unnamed c.ahead) : variableName? escapes c = none := by
  have hnot {ch : Char} (hch : Rune.IsByte ch) (hmem : UInt8.ofNat ch.toNat ∈ delimiters) :
      c.rune.is ch = false := by
    rw [Bool.eq_false_iff, Ne, Cursor.rune_is_iff hch]
    exact fun hhead => h.undelimited _ hhead hmem
  have hplain : c.rune.isVariableChar = false := by
    rw [Cursor.class_rune Rune.isPlain_isVariableChar, h.plain]
  simp only [variableName?, Rune.isQuote, hnot (by decide : Rune.IsByte '\'') (by decide),
    hnot (by decide : Rune.IsByte '"') (by decide), hplain,
    hnot (by decide : Rune.IsByte '\x60') (by decide), Bool.or_self, Bool.false_eq_true, if_false]

/-- Where no rune can be read, neither. -/
theorem variableName?_of_unreadable (h : c.rune = .eof ∨ c.rune = .invalid) :
    variableName? escapes c = none := by
  unfold variableName?
  rcases h with h | h <;> rw [h] <;> rfl

variable {escapes}

/-- A name that lies ahead is read, and it is malformed if it is not closed. -/
theorem variableName?_of_name {name rest : Bytes} {content : Option Bytes}
    (h : Name escapes name rest content) (ha : c.ahead = name ++ rest) :
    ∃ read, variableName? escapes c = some read ∧ c.Reaches read.stop ∧ c.upTo read.stop = name ∧
      match content with
      | some text => read.kind ≠ .invalid ∧ read.text = text
      | none => read.kind = .invalid := by
  cases h with
  | @delimited quote inside _ _ hquote hstring =>
    have ha' : c.ahead = quote :: (inside ++ rest) := ha
    obtain ⟨read, hread, hreach, hform⟩ := variableName?_of_delimiter escapes hquote ha'
    have hreach' := (Cursor.Reaches.next c).trans hreach
    rw [hstring] at hform
    exact ⟨read, hread, hreach', hreach'.upTo_of_ahead hform.1 ha, hform.2⟩
  | @unclosed quote inside hquote hstring =>
    have ha' : c.ahead = quote :: inside := by rw [ha, List.append_nil]
    obtain ⟨read, hread, hreach, hform⟩ := variableName?_of_delimiter escapes hquote ha'
    have hreach' := (Cursor.Reaches.next c).trans hreach
    rw [hstring] at hform
    exact ⟨read, hread, hreach', hreach'.upTo_of_ahead hform.1 ha, hform.2⟩
  | plain hne hrun hends =>
    have hrune := Cursor.rune_of_runOf Rune.isPlain_isVariableChar hrun hne ha
    obtain ⟨htext, -⟩ := Cursor.skipWhile_of_runOf Rune.isPlain_isVariableChar hrun hends ha
    exact ⟨_, variableName?_of_plain escapes hrune, (Cursor.Reaches.refl c).skipWhile _, htext,
      (by decide : TokenKind.identifier ≠ .invalid), htext⟩

/-- Wherever a name starts, there is one. -/
theorem exists_name (escapes : Bool) (h : ¬Unnamed c.ahead) :
    ∃ stop content, c.Reaches stop ∧ Name escapes (c.upTo stop) stop.ahead content := by
  by_cases hquote : ∃ quote ∈ c.ahead.head?, quote ∈ delimiters
  · obtain ⟨quote, hhead, hquote⟩ := hquote
    obtain ⟨inside, ha⟩ := List.head?_eq_some_iff.mp hhead
    obtain ⟨read, -, hreach, hform⟩ := variableName?_of_delimiter escapes hquote ha
    obtain ⟨hone, hahead⟩ := Cursor.advance_of_ahead (delimiter_facts hquote).2.1 ha
    have hinside := hreach.ahead_eq
    rw [hahead] at hinside
    have hup := hreach.upTo_eq_cons hone
    refine ⟨read.stop, ?_⟩
    rw [hup]
    cases hstring : Bytes.string? quote (escapes && quote != 0x60) inside with
    | some reading =>
      rw [hstring] at hform
      refine ⟨some reading.1, (Cursor.Reaches.next c).trans hreach, .delimited hquote ?_⟩
      rw [← hinside, hstring, hform.1]
    | none =>
      rw [hstring] at hform
      rw [hform.1, List.append_nil] at hinside
      refine ⟨none, (Cursor.Reaches.next c).trans hreach, ?_⟩
      rw [hform.1]
      exact .unclosed hquote (by rw [← hinside, hstring])
  · have hplain : c.rune.isVariableChar = true := by
      rw [Cursor.class_rune Rune.isPlain_isVariableChar, ← Bool.not_eq_false]
      exact fun hplain => h ⟨fun b hb hmem => hquote ⟨b, hb, hmem⟩, hplain⟩
    refine ⟨c.skipWhile Rune.isVariableChar, _, (Cursor.Reaches.refl c).skipWhile _, .plain ?_
      (Cursor.runOf_upTo Rune.isPlain_isVariableChar c)
      (Cursor.skipWhile_ends Rune.isPlain_isVariableChar c)⟩
    exact Comment.upTo_skipWhile_ne_nil
      (Cursor.atEnd_eq_false_of_class Rune.isPlain_isVariableChar hplain) hplain

/-- What is written as the scope is passed over. -/
theorem scope_read {scope rest : Bytes} (h : Scope scope rest) (ha : c.ahead = scope ++ rest) :
    ∃ n, ((scopes.find? c.startsWith).getD []).length = n ∧ c.upTo (c.advanceBy n) = scope ∧
      (c.advanceBy n).ahead = rest := by
  cases h with
  | @word _ word _ hword hsame =>
    obtain ⟨hascii, hlength⟩ := written_facts hword hsame
    have hahead : Bytes.sameLetters (c.ahead.take word.length) word = true := by
      rw [ha, ← hlength, List.take_left, hsame]
    have hfound : scopes.find? c.startsWith = some word := by
      rcases hfind : scopes.find? c.startsWith with _ | word'
      · exact absurd hahead (List.find?_eq_none.mp hfind word hword)
      · have hahead' : c.startsWith word' = true := List.find?_some hfind
        rw [eq_of_sameLetters_take hword (List.mem_of_find?_eq_some hfind) hahead hahead']
    refine ⟨scope.length, ?_, Cursor.advanceBy_of_ahead hascii ha⟩
    rw [hfound, Option.getD_some, hlength]
  | none hnone =>
    have hfound : scopes.find? c.startsWith = none := by
      rw [List.find?_eq_none]
      intro word hword
      rw [Cursor.startsWith, ha, List.nil_append, hnone word hword]
      exact Bool.false_ne_true
    refine ⟨0, ?_, Cursor.upTo_self c, ha⟩
    rw [hfound]
    rfl

/-- A variable whose name lies ahead stands for the text of the name, behind what is in front of it;
it is malformed if the name is. -/
theorem named_of_name (kind : TokenKind) (front : Bytes) {name rest : Bytes}
    {content : Option Bytes} (hreach : c.Reaches d) (h : Name escapes name rest content)
    (ha : d.ahead = name ++ rest) :
    ∃ read, variableName? escapes d = some read ∧ c.Reaches read.stop ∧
      c.upTo read.stop = c.upTo d ++ name ∧
      named kind c front read = match content with
        | some text => ⟨kind, front ++ text, read.stop, none⟩
        | none => ⟨.invalid, c.upTo d ++ name, read.stop, read.fault⟩ := by
  obtain ⟨read, hread, hreach', hup, hcontent⟩ := variableName?_of_name h ha
  have hup' : c.upTo read.stop = c.upTo d ++ name := by rw [hreach.upTo_trans hreach', hup]
  refine ⟨read, hread, hreach.trans hreach', hup', ?_⟩
  unfold named
  cases content with
  | some text => rw [if_neg hcontent.1, hcontent.2]
  | none => rw [if_pos hcontent, hup']

/-- Behind two marks and a scope the name of a system variable is looked for. -/
theorem anyVariable_of_scope (escapes : Bool) {scope rest : Bytes} (h : Scope scope rest)
    (ha : c.ahead = 0x40 :: 0x40 :: (scope ++ rest)) :
    ∃ stop, c.Reaches stop ∧ c.upTo stop = 0x40 :: 0x40 :: scope ∧ stop.ahead = rest ∧
      anyVariable escapes c = match variableName? escapes stop with
        | some name => named .systemVariable c (0x40 :: 0x40 :: scope) name
        | none => whole .invalid c stop := by
  obtain ⟨hone, hnext⟩ := Cursor.advance_of_ahead (by decide) ha
  obtain ⟨htwo, hmarks⟩ := Cursor.advance_of_ahead (by decide) hnext
  obtain ⟨n, hn, hup, hbehind⟩ := scope_read h hmarks
  have hmark : c.advance.rune.is '@' = true :=
    (Cursor.rune_is_iff (by decide)).mpr (by rw [hnext]; rfl)
  -- The second mark starts no name.
  have hnone : variableName? escapes c.advance = none := by
    refine variableName?_of_unnamed escapes ⟨?_, ?_⟩
    · rw [hnext]
      rintro b ⟨⟩
      decide
    · rw [hnext, Rune.decode_ascii (by decide) (by decide)]
      decide
  have hstop := (Cursor.Reaches.refl c.advance.advance).advanceBy n
  have hup' : c.upTo (c.advance.advance.advanceBy n) = 0x40 :: 0x40 :: scope := by
    rw [((Cursor.Reaches.next _).trans hstop).upTo_eq_cons hone, hstop.upTo_eq_cons htwo, hup]
  refine ⟨_, (Cursor.Reaches.next c).advance.trans hstop, hup', hbehind, ?_⟩
  rcases hread : variableName? escapes (c.advance.advance.advanceBy n) with _ | name
  · simp only [anyVariable, hnone, hmark, if_true, systemVariable, hn, hread]
  · simp only [anyVariable, hnone, hmark, if_true, systemVariable, hn, hread, hup']

/-- Behind a mark a rune is read as anywhere but at the start of a source. -/
theorem rune_behind_mark {rest : Bytes} (ha : c.ahead = 0x40 :: rest) :
    c.advance.rune = (Rune.decodeFrom 1 rest).1 := by
  obtain ⟨-, hnext⟩ := Cursor.advance_of_ahead (by decide) ha
  have hpos : 0 < c.advance.offset := by
    have hlt := Cursor.offset_lt_advance (c := c) (by rw [Cursor.atEnd, ha, List.isEmpty_cons])
    omega
  rw [Cursor.rune, Cursor.reading, hnext]
  simp only [Rune.decodeFrom, hpos, Nat.one_pos]

/-- A form of the grammar that lies ahead is read, and nothing is reported unless it is
malformed. -/
theorem anyVariable_of_markLed {kind : TokenKind} {written rest text : Bytes}
    (h : MarkLed escapes kind written rest text) (ha : c.ahead = written ++ rest) :
    ∃ stop fault, c.Reaches stop ∧ c.upTo stop = written ∧
      anyVariable escapes c = ⟨kind, text, stop, fault⟩ ∧ (kind ≠ .invalid → fault = none) := by
  have hmark {inside : Bytes} (ha : c.ahead = 0x40 :: inside) :
      c.upTo c.advance = [0x40] ∧ c.advance.ahead = inside :=
    Cursor.advance_of_ahead (by decide) ha
  cases h with
  | user hname =>
    obtain ⟨hone, hnext⟩ := hmark ha
    obtain ⟨read, hread, hreach, hup, hnamed⟩ :=
      named_of_name .userVariable [] (.next c) hname hnext
    refine ⟨read.stop, none, hreach, by rw [hup, hone]; rfl, ?_, fun _ => rfl⟩
    simp only [anyVariable, hread, hnamed, List.nil_append]
  | userUnclosed hname =>
    obtain ⟨hone, hnext⟩ := hmark ha
    obtain ⟨read, hread, hreach, hup, hnamed⟩ :=
      named_of_name .userVariable [] (.next c) hname hnext
    refine ⟨read.stop, read.fault, hreach, by rw [hup, hone]; rfl, ?_, fun h => absurd rfl h⟩
    simp only [anyVariable, hread, hnamed, hone, List.singleton_append]
  | @system scope name _ _ hscope hname =>
    rw [List.cons_append, List.cons_append, List.append_assoc] at ha
    obtain ⟨stop, hreach, hup, hbehind, hvariable⟩ := anyVariable_of_scope escapes hscope ha
    obtain ⟨read, hread, hreach', hup', hnamed⟩ :=
      named_of_name .systemVariable (0x40 :: 0x40 :: scope) hreach hname hbehind
    refine ⟨read.stop, none, hreach', by rw [hup', hup]; rfl, ?_, fun _ => rfl⟩
    rw [hvariable, hread]
    exact hnamed
  | @systemUnclosed scope name _ hscope hname =>
    rw [List.cons_append, List.cons_append, List.append_assoc] at ha
    obtain ⟨stop, hreach, hup, hbehind, hvariable⟩ := anyVariable_of_scope escapes hscope ha
    obtain ⟨read, hread, hreach', hup', hnamed⟩ :=
      named_of_name .systemVariable (0x40 :: 0x40 :: scope) hreach hname hbehind
    refine ⟨read.stop, read.fault, hreach', by rw [hup', hup]; rfl, ?_, fun h => absurd rfl h⟩
    rw [hvariable, hread]
    rw [hup] at hnamed
    exact hnamed
  | systemUnnamed hscope hnone =>
    obtain ⟨stop, hreach, hup, hbehind, hvariable⟩ := anyVariable_of_scope escapes hscope ha
    refine ⟨stop, none, hreach, hup, ?_, fun _ => rfl⟩
    rw [hvariable, variableName?_of_unnamed escapes (hbehind ▸ hnone), ← hup]
    rfl
  | nameless hnone hsingle hreadable =>
    have ha : c.ahead = 0x40 :: rest := ha
    obtain ⟨hone, hnext⟩ := hmark ha
    have hother : c.advance.rune.is '@' = false := by
      rw [Bool.eq_false_iff, Ne, Cursor.rune_is_iff (by decide), hnext]
      exact hsingle
    rw [Unreadable, ← rune_behind_mark ha, not_or] at hreadable
    refine ⟨c.advance, none, .next c, hone, ?_, fun _ => rfl⟩
    simp only [anyVariable, variableName?_of_unnamed escapes (hnext ▸ hnone), hother,
      Rune.isEof, Rune.isInvalid, beq_false_of_ne hreadable.1, beq_false_of_ne hreadable.2,
      Bool.or_self, Bool.false_eq_true, if_false]
  | lone hunreadable =>
    have ha : c.ahead = 0x40 :: rest := ha
    obtain ⟨hone, hnext⟩ := hmark ha
    rw [Unreadable, ← rune_behind_mark ha] at hunreadable
    refine ⟨c.advance, none, .next c, hone, ?_, fun _ => rfl⟩
    rw [anyVariable, variableName?_of_unreadable escapes hunreadable, whole, hone]
    rcases hunreadable with h | h <;> rw [h] <;> rfl

/-- A form of the grammar lies behind every mark. -/
theorem exists_markLed (escapes : Bool) {rest : Bytes} (ha : c.ahead = 0x40 :: rest) :
    ∃ kind stop text, c.Reaches stop ∧ MarkLed escapes kind (c.upTo stop) stop.ahead text := by
  obtain ⟨hone, hnext⟩ := Cursor.advance_of_ahead (by decide) ha
  have hform {kind : TokenKind} {stop : Cursor} {written text : Bytes} (hreach : c.Reaches stop)
      (hup : c.upTo stop = written) (h : MarkLed escapes kind written stop.ahead text) :
      ∃ kind stop text, c.Reaches stop ∧ MarkLed escapes kind (c.upTo stop) stop.ahead text :=
    ⟨kind, stop, text, hreach, hup ▸ h⟩
  by_cases hunnamed : Unnamed c.advance.ahead
  swap
  · obtain ⟨stop, content, hreach, hname⟩ := exists_name escapes hunnamed
    have hreach' := (Cursor.Reaches.next c).trans hreach
    cases content with
    | some text => exact hform hreach' (hreach.upTo_eq_cons hone) (.user hname)
    | none => exact hform hreach' (hreach.upTo_eq_cons hone) (.userUnclosed hname)
  by_cases hmark : c.advance.ahead.head? = some 0x40
  · -- A second mark, and behind it a scope or nothing.
    obtain ⟨marked, hmarked⟩ := List.head?_eq_some_iff.mp hmark
    obtain ⟨scope, behind, rfl, hscope⟩ := exists_scope marked
    rw [← hnext, hmarked] at ha
    obtain ⟨first, hreach, hup, rfl, -⟩ := anyVariable_of_scope escapes hscope ha
    by_cases hunnamed' : Unnamed first.ahead
    · exact hform hreach hup (.systemUnnamed hscope hunnamed')
    · obtain ⟨stop, content, hreach', hname⟩ := exists_name escapes hunnamed'
      have hup' : c.upTo stop = 0x40 :: 0x40 :: (scope ++ first.upTo stop) := by
        rw [hreach.upTo_trans hreach', hup]
        rfl
      rw [hreach'.ahead_eq] at hscope
      cases content with
      | some text => exact hform (hreach.trans hreach') hup' (.system hscope hname)
      | none => exact hform (hreach.trans hreach') hup' (.systemUnclosed hscope hname)
  · by_cases hread : Unreadable c.advance.ahead
    · exact hform (.next c) hone (.lone hread)
    · exact hform (.next c) hone (.nameless hunnamed hmark hread)

/-- A variable is what the grammar says, and the grammar says one thing. -/
theorem anyVariable_exact (escapes : Bool) {rest : Bytes} (ha : c.ahead = 0x40 :: rest) :
    ∃ kind text stop fault, c.Reaches stop ∧ anyVariable escapes c = ⟨kind, text, stop, fault⟩ ∧
      (kind ≠ .invalid → fault = none) ∧
      ∀ kind' written rest text', c.ahead = written ++ rest →
        (MarkLed escapes kind' written rest text' ↔
          kind' = kind ∧ written = c.upTo stop ∧ text' = text) := by
  obtain ⟨kind, first, text, hfirst, hform⟩ := exists_markLed escapes ha
  obtain ⟨stop, fault, hreach, hup, hvariable, hfault⟩ :=
    anyVariable_of_markLed hform hfirst.ahead_eq
  refine ⟨kind, text, stop, fault, hreach, hvariable, hfault, ?_⟩
  intro kind' written rest text' hahead
  constructor
  · intro hform'
    obtain ⟨stop', fault', -, hup', hvariable', -⟩ := anyVariable_of_markLed hform' hahead
    rw [hvariable, Lexeme.mk.injEq] at hvariable'
    obtain ⟨rfl, rfl, rfl, -⟩ := hvariable'
    exact ⟨rfl, hup'.symm, rfl⟩
  · rintro ⟨rfl, rfl, rfl⟩
    rw [← hfirst.ahead_of_upTo hup.symm hahead, hup]
    exact hform

end Lexeme

/-- The grammar of variables. A token that starts with the mark of variables has the kind and the
text that the grammar gives for what lies ahead, and no other form is in the grammar. The scanner
goes on right behind the form, and nothing is reported unless the form is malformed. -/
theorem Starter.outcome_variable (config : Config) (s : State) (c : Cursor)
    (hmark : c.ahead.head? = some 0x40) (escapes : Bool)
    (hescapes : escapes = !config.has .noBackslashEscapes) :
    ∃ kind text stop fault, c.Reaches stop ∧
      Starter.at.outcome config s c =
        .token ⟨kind, c.pos, text⟩ stop { s with errors := s.errors ++ fault.toList } ∧
      (kind ≠ .invalid → fault = none) ∧
      ∀ kind' written rest text', c.ahead = written ++ rest →
        (Variable.MarkLed escapes kind' written rest text' ↔
          kind' = kind ∧ written = c.upTo stop ∧ text' = text) := by
  obtain ⟨rest, ha⟩ := List.head?_eq_some_iff.mp hmark
  obtain ⟨kind, text, stop, fault, hreach, hvariable, hfault, hexact⟩ :=
    Lexeme.anyVariable_exact escapes ha
  refine ⟨kind, text, stop, fault, hreach, ?_, hfault, hexact⟩
  rw [Starter.outcome, ← hescapes, hvariable]
  rfl

/-- The text of a system variable keeps its scope as it is written, and a delimiter that is written
twice stands in it once. -/
theorem Starter.outcome_variable_scope : ∃ stop,
    Starter.at.outcome {} {} (.start [0x40, 0x40, 0x4C, 0x6F, 0x63, 0x61, 0x6C, 0x2E, 0x60, 0x61,
        0x60, 0x60, 0x60, 0x3B]) =
      .token ⟨.systemVariable, .start,
        [0x40, 0x40, 0x4C, 0x6F, 0x63, 0x61, 0x6C, 0x2E, 0x61, 0x60]⟩ stop {} ∧
      stop.ahead = [0x3B] := by
  obtain ⟨kind, text, stop, fault, hreach, houtcome, hfault, hexact⟩ :=
    Starter.outcome_variable {} {} (.start [0x40, 0x40, 0x4C, 0x6F, 0x63, 0x61, 0x6C, 0x2E, 0x60,
      0x61, 0x60, 0x60, 0x60, 0x3B]) rfl true (by decide)
  have hscope : Variable.Scope [0x4C, 0x6F, 0x63, 0x61, 0x6C, 0x2E]
      ([0x60, 0x61, 0x60, 0x60, 0x60] ++ [0x3B]) :=
    .word (by decide : Bytes.ofString "local." ∈ Variable.scopeWords) (by decide)
  have hname : Variable.Name true [0x60, 0x61, 0x60, 0x60, 0x60] [0x3B] (some [0x61, 0x60]) :=
    .delimited (by decide) (by decide)
  obtain ⟨rfl, hwritten, rfl⟩ := (hexact _ _ _ _ rfl).mp (.system hscope hname)
  rw [hfault (by decide)] at houtcome
  exact ⟨stop, houtcome, hreach.ahead_of_upTo hwritten.symm rfl⟩

end SqlTokens
