import SqlTokens.Lexeme.Variable
import SqlTokens.Lexeme.Number
import SqlTokens.Scanner.Step
import SqlTokens.Proofs.Cursors

/-!
# What a lexeme spans

Every form reads its first rune and goes on from there, and unless its kind is one of the five whose
text is rewritten, it stands for exactly the bytes that it spans (`Lexeme.Spans`). A malformed form
reports an error at its first byte, and no other form reports any (`Lexeme.Diagnosed`). Two forms
fall out of the second rule: a number behind a point and a variable may be malformed without a word,
and a variable may pass on the error of its name, which stands behind the mark.
-/

namespace SqlTokens

/-- Whether the text of tokens of a kind differs from what is written: quotes and escapes are gone,
or a character set stands in the place of its introducer. -/
def TokenKind.isRewritten (k : TokenKind) : Bool :=
  [stringLiteral, quotedIdentifier, userVariable, systemVariable, charsetIntroducer].contains k

namespace Lexeme

/-- What a lexeme spans: it goes on from behind the first rune, and it stands for the bytes up to
where it stops unless its text is rewritten. -/
structure Spans (l : Lexeme) (c : Cursor) : Prop where
  /-- The first rune is read. -/
  reaches : c.advance.Reaches l.stop
  /-- A text that is not rewritten is the one that is spanned. -/
  text_eq : l.kind.isRewritten = false → l.text = c.upTo l.stop

/-- Whether a lexeme reports an error at its first byte if it is malformed, and none if it is not.
-/
def Diagnosed (l : Lexeme) (c : Cursor) : Prop :=
  l.fault.map ScanError.pos = if l.kind = .invalid then some c.pos else none

/-! ## Plain lexemes -/

/-- A lexeme that stands for the bytes between two cursors spans them. -/
theorem whole_spans (kind : TokenKind) {c stop : Cursor} (h : c.advance.Reaches stop) :
    (whole kind c stop).Spans c :=
  ⟨h, fun _ => rfl⟩

/-- A lexeme whose text is rewritten spans what it reads. -/
theorem spans_of_rewritten {l : Lexeme} {c : Cursor} (hkind : l.kind.isRewritten = true)
    (h : c.advance.Reaches l.stop) : l.Spans c :=
  ⟨h, fun hnot => absurd hkind (by rw [hnot]; decide)⟩

/-- A malformed lexeme between two cursors spans the bytes between them. -/
theorem broken_spans (error : ScanErrorKind) {c stop : Cursor} (h : c.advance.Reaches stop) :
    (broken error c stop).Spans c :=
  ⟨h, fun _ => rfl⟩

/-- A lexeme of a kind of its own without error is diagnosed. -/
theorem diagnosed_of_none {l : Lexeme} (hkind : l.kind ≠ .invalid) (h : l.fault = none)
    (c : Cursor) : l.Diagnosed c := by
  rw [Diagnosed, if_neg hkind, h]
  rfl

/-- A lexeme that is not malformed needs no diagnosis. -/
theorem whole_diagnosed {kind : TokenKind} (h : kind ≠ .invalid) (c stop : Cursor) :
    (whole kind c stop).Diagnosed c :=
  diagnosed_of_none h rfl c

/-- A malformed lexeme between two cursors has its error at the first. -/
theorem broken_diagnosed (error : ScanErrorKind) (c stop : Cursor) :
    (broken error c stop).Diagnosed c := by
  rw [Diagnosed, broken, if_pos rfl]
  rfl

/-! ## Names -/

/-- A name spans its run. -/
theorem word_spans (c : Cursor) : (word c).Spans c :=
  whole_spans _ ((Cursor.Reaches.refl _).skipWhile _)

/-- A name is not malformed. -/
theorem word_diagnosed (c : Cursor) : (word c).Diagnosed c :=
  whole_diagnosed (by decide) _ _

/-- A name or introducer spans its run. -/
theorem national_spans (c : Cursor) : (national c).Spans c := by
  unfold national
  simp only
  split
  · exact spans_of_rewritten rfl (word_spans c).reaches
  · exact word_spans c

/-- A name or introducer is not malformed. -/
theorem national_diagnosed (c : Cursor) : (national c).Diagnosed c := by
  unfold national
  simp only
  split
  · exact diagnosed_of_none (show TokenKind.charsetIntroducer ≠ .invalid by decide) rfl c
  · exact word_diagnosed c

/-! ## Numbers -/

/-- A literal with a leading zero spans its digits. -/
theorem radix_spans (kind : TokenKind) (digit : Rune → Bool) (c : Cursor) :
    (radix kind digit c).Spans c := by
  unfold radix
  simp only
  split
  · exact whole_spans _ ((Cursor.Reaches.refl _).advance.skipWhile _)
  · exact word_spans c

/-- A literal with a leading zero is not malformed. -/
theorem radix_diagnosed {kind : TokenKind} (hkind : kind ≠ .invalid) (digit : Rune → Bool)
    (c : Cursor) : (radix kind digit c).Diagnosed c := by
  unfold radix
  simp only
  split
  · exact whole_diagnosed hkind _ _
  · exact word_diagnosed c

/-- An exponent goes on from its mark. -/
theorem exponent?_reaches {mark stop : Cursor} (h : exponent? mark = some stop) :
    mark.Reaches stop := by
  unfold exponent? at h
  simp only [Option.ite_none_right_eq_some, Option.some.injEq] at h
  obtain ⟨-, rfl⟩ := h
  split
  · exact (Cursor.Reaches.refl _).advance.advance.skipWhile _
  · exact (Cursor.Reaches.refl _).advance.skipWhile _

/-- A number with a point or an exponent is a whole lexeme of one of two kinds, which goes on from
its digits. -/
theorem scaled?_eq {c digits : Cursor} {l : Lexeme} (h : scaled? c digits = some l) :
    ∃ kind stop, l = whole kind c stop ∧ kind ≠ .invalid ∧ digits.Reaches stop := by
  unfold scaled? at h
  split at h
  · obtain ⟨stop, hs, rfl⟩ := Option.map_eq_some_iff.mp h
    exact ⟨_, stop, rfl, by decide, exponent?_reaches hs⟩
  · cases h
    exact ⟨_, digits, rfl, by decide, .refl _⟩

/-- Either reading of a form that may be a number spans it. -/
theorem getD_scaled?_spans {c digits : Cursor} {l : Lexeme} (hd : c.advance.Reaches digits)
    (hl : l.Spans c) : ((scaled? c digits).getD l).Spans c := by
  rcases h : scaled? c digits with _ | m
  · exact hl
  · obtain ⟨kind, stop, rfl, -, hstop⟩ := scaled?_eq h
    exact whole_spans kind (hd.trans hstop)

/-- Either reading of a form that may be a number is diagnosed. -/
theorem getD_scaled?_diagnosed {c digits : Cursor} {l : Lexeme} (hl : l.Diagnosed c) :
    ((scaled? c digits).getD l).Diagnosed c := by
  rcases h : scaled? c digits with _ | m
  · exact hl
  · obtain ⟨kind, stop, rfl, hkind, -⟩ := scaled?_eq h
    exact whole_diagnosed hkind c stop

/-- A form that starts with a digit spans what it reads. -/
theorem number_spans (afterNameDot : Bool) (c : Cursor) : (number afterNameDot c).Spans c := by
  have hdigits : c.advance.Reaches (c.advance.skipWhile Rune.isDigit) :=
    (Cursor.Reaches.refl _).skipWhile _
  have hpoint : c.advance.Reaches
      ((c.advance.skipWhile Rune.isDigit).advance.skipWhile Rune.isDigit) :=
    hdigits.advance.skipWhile _
  unfold number
  simp only
  repeat' split
  · exact word_spans c
  · exact radix_spans _ _ c
  · exact radix_spans _ _ c
  · -- Behind a point there may be more digits, and an exponent behind those.
    exact getD_scaled?_spans hpoint (word_spans c)
  · exact getD_scaled?_spans hdigits (word_spans c)
  · exact word_spans c
  · exact whole_spans _ hdigits

/-- A form that starts with a digit is not malformed. -/
theorem number_diagnosed (afterNameDot : Bool) (c : Cursor) :
    (number afterNameDot c).Diagnosed c := by
  unfold number
  simp only
  repeat' split
  · exact word_diagnosed c
  · exact radix_diagnosed (by decide) _ c
  · exact radix_diagnosed (by decide) _ c
  · exact getD_scaled?_diagnosed (word_diagnosed c)
  · exact getD_scaled?_diagnosed (word_diagnosed c)
  · exact word_diagnosed c
  · exact whole_diagnosed (by decide) _ _

/-- A form that starts with a point spans what it reads. -/
theorem dot_spans (afterNameDot : Bool) (c : Cursor) : (dot afterNameDot c).Spans c := by
  unfold dot
  simp only
  split
  · exact whole_spans _ (.refl _)
  · exact getD_scaled?_spans ((Cursor.Reaches.refl _).skipWhile _)
      (whole_spans _ ((Cursor.Reaches.refl _).skipWhile _))

/-- A form that starts with a point reports nothing, also if it is malformed. -/
theorem dot_fault (afterNameDot : Bool) (c : Cursor) : (dot afterNameDot c).fault = none := by
  unfold dot
  simp only
  split
  · rfl
  · rcases h : scaled? c (c.advance.skipWhile Rune.isDigit) with _ | l
    · rfl
    · obtain ⟨kind, stop, rfl, -, -⟩ := scaled?_eq h
      rfl

/-- A form that starts with the letter of a notation spans what it reads. -/
theorem quotedDigits_spans (kind : TokenKind) (error : ScanErrorKind) (digit : Rune → Bool)
    (c : Cursor) : (quotedDigits kind error digit c).Spans c := by
  have hstop : c.advance.Reaches (c.advance.advance.skipWhile digit) :=
    (Cursor.Reaches.refl _).advance.skipWhile _
  unfold quotedDigits
  simp only
  repeat' split
  · exact word_spans c
  · exact whole_spans _ hstop.advance
  · exact broken_spans _ hstop

/-- A form that starts with the letter of a notation is diagnosed. -/
theorem quotedDigits_diagnosed {kind : TokenKind} (hkind : kind ≠ .invalid) (error : ScanErrorKind)
    (digit : Rune → Bool) (c : Cursor) : (quotedDigits kind error digit c).Diagnosed c := by
  unfold quotedDigits
  simp only
  repeat' split
  · exact word_diagnosed c
  · exact whole_diagnosed hkind _ _
  · exact broken_diagnosed _ _ _

/-! ## Quoted forms -/

/-- Reading up to a closing quote moves on. -/
theorem enclosed_reaches (quote : Rune) (escapes : Bool) (c : Cursor) :
    c.Reaches (enclosed quote escapes c).2 := by
  have hadvance (c : Cursor) : c.Reaches c.advance := (Cursor.Reaches.refl c).advance
  fun_induction enclosed quote escapes c with
  | case1 c => exact .refl c
  | case2 c _ next _ _ rest ih => exact (hadvance c).advance.trans ih
  | case3 c => exact hadvance c
  | case4 c _ next _ _ rest ih => exact (hadvance c).advance.trans ih
  | case5 c _ next _ _ rest ih => exact (hadvance c).trans ih

/-- Where no closing quote is found, the end is. -/
theorem enclosed_atEnd {quote : Rune} {escapes : Bool} {c : Cursor}
    (h : (enclosed quote escapes c).1 = none) : (enclosed quote escapes c).2.atEnd = true := by
  fun_induction enclosed quote escapes c with
  | case1 c hend => exact hend
  | case2 c _ next _ _ rest ih => exact ih (Option.map_eq_none_iff.mp h)
  | case3 => cases h
  | case4 c _ next _ _ rest ih => exact ih (Option.map_eq_none_iff.mp h)
  | case5 c _ next _ _ rest ih => exact ih (Option.map_eq_none_iff.mp h)

/-- A quoted form is closed and has its kind, or it is malformed up to where reading stops. -/
theorem quoted_cases (kind : TokenKind) (error : ScanErrorKind) (escapes : Bool) (c : Cursor) :
    ∃ stop, c.advance.Reaches stop ∧
      ((∃ text, quoted kind error escapes c = ⟨kind, text, stop, none⟩) ∨
        quoted kind error escapes c = broken error c stop) := by
  have hstop := enclosed_reaches c.rune escapes c.advance
  rw [quoted]
  -- Without a text the closing quote is missing.
  rcases he : enclosed c.rune escapes c.advance with ⟨_ | text, stop⟩ <;> rw [he] at hstop
  · exact ⟨stop, hstop, .inr rfl⟩
  · exact ⟨stop, hstop, .inl ⟨text, rfl⟩⟩

/-- A quoted form spans what it reads, if its kind is rewritten. -/
theorem quoted_spans {kind : TokenKind} (hkind : kind.isRewritten = true) (error : ScanErrorKind)
    (escapes : Bool) (c : Cursor) : (quoted kind error escapes c).Spans c := by
  obtain ⟨stop, hstop, ⟨text, h⟩ | h⟩ := quoted_cases kind error escapes c
  · rw [h]
    exact spans_of_rewritten hkind hstop
  · rw [h]
    exact broken_spans error hstop

/-- A quoted form is diagnosed. -/
theorem quoted_diagnosed {kind : TokenKind} (hkind : kind ≠ .invalid) (error : ScanErrorKind)
    (escapes : Bool) (c : Cursor) : (quoted kind error escapes c).Diagnosed c := by
  obtain ⟨stop, -, ⟨text, h⟩ | h⟩ := quoted_cases kind error escapes c
  · rw [h]
    exact diagnosed_of_none hkind rfl c
  · rw [h]
    exact broken_diagnosed error c stop

/-! ## Variables -/

/-- The name of a variable goes on from where it starts, and it is diagnosed. -/
theorem variableName?_facts {escapes : Bool} {c : Cursor} {name : Lexeme}
    (h : variableName? escapes c = some name) : c.Reaches name.stop ∧ name.Diagnosed c := by
  have hadvance : c.Reaches c.advance := (Cursor.Reaches.refl c).advance
  unfold variableName? at h
  split at h
  · -- A name between quotes of a string.
    obtain rfl := Option.some.inj h
    constructor
    · exact hadvance.trans (quoted_spans (by decide) _ _ c).reaches
    · exact quoted_diagnosed (by decide) _ _ c
  · split at h
    · -- A name between backquotes.
      obtain rfl := Option.some.inj h
      constructor
      · exact hadvance.trans (quoted_spans (by decide) _ _ c).reaches
      · exact quoted_diagnosed (by decide) _ _ c
    · split at h
      · -- A name without quotes.
        obtain rfl := Option.some.inj h
        constructor
        · exact hadvance.skipWhile _
        · exact whole_diagnosed (by decide) _ _
      · cases h

/-- A variable with a name spans what it reads, if its kind is rewritten. -/
theorem named_spans {kind : TokenKind} (hkind : kind.isRewritten = true) {c : Cursor}
    (front : Bytes) {name : Lexeme} (h : c.advance.Reaches name.stop) :
    (named kind c front name).Spans c := by
  unfold named
  split
  · exact ⟨h, fun _ => rfl⟩
  · exact spans_of_rewritten hkind h

/-- A variable spans what it reads. -/
theorem anyVariable_spans (escapes : Bool) (c : Cursor) : (anyVariable escapes c).Spans c := by
  unfold anyVariable
  simp only
  split
  · rename_i name hn
    exact named_spans (by decide) [] (variableName?_facts hn).1
  · split
    · -- A second mark, and behind it a scope if there is one.
      unfold systemVariable
      simp only
      have hscope (n : Nat) : c.advance.Reaches (c.advance.advance.advanceBy n) :=
        (Cursor.Reaches.refl _).advance.advanceBy n
      split
      · rename_i name hn
        exact named_spans (by decide) _ ((hscope _).trans (variableName?_facts hn).1)
      · exact whole_spans _ (hscope _)
    · split
      · exact whole_spans _ (.refl _)
      · exact spans_of_rewritten rfl (.refl _)

/-- What a variable reports comes from its name, which starts behind the mark. -/
def DiagnosedWithin (l : Lexeme) (c : Cursor) : Prop :=
  ∀ error, l.fault = some error → ∃ d, c.advance.Reaches d ∧ error.pos = d.pos

/-- A variable with a diagnosed name reports nothing but what the name reports. -/
theorem named_diagnosed {kind : TokenKind} (c : Cursor) (front : Bytes) {d : Cursor}
    {name : Lexeme} (hd : c.advance.Reaches d) (h : name.Diagnosed d) :
    (named kind c front name).DiagnosedWithin c := by
  intro error herror
  unfold named at herror
  split at herror
  · -- A malformed name makes the variable malformed and hands its error on as it is.
    rename_i hk
    simp only at herror
    rw [Diagnosed, herror, if_pos hk, Option.map_some, Option.some_inj] at h
    exact ⟨d, hd, h⟩
  · cases herror

/-- A variable reports nothing but what its name reports. -/
theorem anyVariable_diagnosed (escapes : Bool) (c : Cursor) :
    (anyVariable escapes c).DiagnosedWithin c := by
  unfold anyVariable
  simp only
  split
  · rename_i name hn
    exact named_diagnosed c _ (.refl _) (variableName?_facts hn).2
  · split
    · unfold systemVariable
      simp only
      split
      · rename_i name hn
        exact named_diagnosed c _ ((Cursor.Reaches.refl _).advance.advanceBy _)
          (variableName?_facts hn).2
      · intro error h
        cases h
    · split
      · intro error h
        cases h
      · intro error h
        cases h

/-! ## Operators -/

/-- An operator spans what it reads. -/
theorem operator_spans (kind : TokenKind) {c stop : Cursor} (h : c.advance.Reaches stop) :
    (operator kind c stop).Spans c := by
  unfold operator
  split
  · exact broken_spans _ h
  · exact whole_spans _ h

/-- An operator is diagnosed. -/
theorem operator_diagnosed (kind : TokenKind) (c stop : Cursor) :
    (operator kind c stop).Diagnosed c := by
  unfold operator
  split
  · exact broken_diagnosed _ _ _
  · rename_i h
    exact whole_diagnosed h _ _

end Lexeme

namespace Table

/-- Following the trie moves on. -/
theorem descend_reaches (value : Option Form) (below : Trie Form) (c : Cursor) :
    c.Reaches (descend value below c).2 := by
  fun_induction descend value below c with
  | case1 _ _ c => exact .refl c
  | case2 _ _ c _ _ _ ih => exact (Cursor.Reaches.refl c).advance.trans ih

/-- An operator that is read has its first byte read. -/
theorem walk_reaches {t : Table} {c stop : Cursor} {kind : TokenKind}
    (h : t.walk c = (.fixed kind, stop)) : c.advance.Reaches stop := by
  unfold walk at h
  split at h
  · cases h
  · cases h
  · rename_i value below _ _
    have hd := descend_reaches value below c.advance
    simp only [Prod.mk.injEq, Walk.fixed.injEq] at h
    rwa [h.2] at hd

end Table

end SqlTokens
