import SqlTokens.Proofs.Excerpts
import SqlTokens.Proofs.Spans

/-!
# The forms of an excerpt

Every form reads the same lexeme in an excerpt and in the source around it (`Excerpt.lexeme`). Most
forms look only at runes of classes without the semicolon and at the rune behind those, and for them
it is enough that the first rune is no semicolon. Quoted forms go over any rune, so for them the
place where the source has read them up to must be clear; then the excerpt reads them up to the same
place.
-/

namespace SqlTokens

namespace Excerpt

/-- The lexeme of the whole source that a lexeme of an excerpt is. -/
def lexeme (x : Excerpt) (l : Lexeme) : Lexeme :=
  ⟨l.kind, l.text, x.cursor l.stop, l.fault.map (ScanError.behind x.base)⟩

variable {x : Excerpt} {d stop : Cursor}

/-- A lexeme between two cursors stands for the same bytes. -/
theorem Sees.whole_cursor (h : x.Sees d) (hstop : x.Holds stop) (kind : TokenKind) :
    Lexeme.whole kind (x.cursor d) (x.cursor stop) = x.lexeme (.whole kind d stop) := by
  rw [Lexeme.whole, hstop.upTo_cursor d h.source_eq]
  rfl

/-- A malformed lexeme between two cursors stands for the same bytes. -/
theorem Sees.broken_cursor (h : x.Sees d) (hstop : x.Holds stop) (error : ScanErrorKind) :
    Lexeme.broken error (x.cursor d) (x.cursor stop) = x.lexeme (.broken error d stop) := by
  rw [Lexeme.broken, hstop.upTo_cursor d h.source_eq]
  rfl

end Excerpt

namespace Lexeme

variable {x : Excerpt} {d : Cursor}

/-! ## Names and numbers -/

/-- A name in an excerpt is the name in the source. -/
theorem word_cursor (h : x.Sees d) (hnext : x.Sees d.advance) :
    word (x.cursor d) = x.lexeme (word d) := by
  have hname : Rune.isNameChar (.ofChar ';') = false := by decide
  rw [word, h.advance_cursor, hnext.run_cursor hname, h.whole_cursor (hnext.run hname).toHolds]
  rfl

/-- A name that starts with an `n` in an excerpt is the name or introducer in the source. -/
theorem national_cursor (h : x.Sees d) (hnext : x.Sees d.advance) :
    national (x.cursor d) = x.lexeme (national d) := by
  have hstop : x.Sees (word d).stop := hnext.run (by decide)
  have hrune : (x.lexeme (word d)).stop.rune = (word d).stop.rune := hstop.rune_cursor
  have htext : (x.lexeme (word d)).text = (word d).text := rfl
  unfold national
  simp only [word_cursor h hnext, hrune, htext]
  split
  · rfl
  · rfl

/-- A literal with a leading zero in an excerpt is the one in the source. -/
theorem radix_cursor (h : x.Sees d) (hnext : x.Sees d.advance) (hfirst : x.Sees d.advance.advance)
    (kind : TokenKind) {digit : Rune → Bool} (hdigit : digit (.ofChar ';') = false) :
    radix kind digit (x.cursor d) = x.lexeme (radix kind digit d) := by
  have hstop := hfirst.run hdigit
  unfold radix
  simp only [h.advance_cursor, hnext.advance_cursor, hfirst.run_cursor hdigit, hfirst.rune_cursor,
    hstop.rune_cursor]
  split
  · exact h.whole_cursor hstop.toHolds kind
  · exact word_cursor h hnext

/-- An exponent in an excerpt is the one in the source. -/
theorem exponent?_cursor (h : x.Sees d) (hnext : x.Sees d.advance) :
    exponent? (x.cursor d) = (exponent? d).map x.cursor := by
  have hdigit : Rune.isDigit (.ofChar ';') = false := by decide
  have hdigits {first : Cursor} (hfirst : x.Sees first) :
      (if (x.cursor first).rune.isDigit then some ((x.cursor first).skipWhile Rune.isDigit)
        else none) =
        (if first.rune.isDigit then some (first.skipWhile Rune.isDigit) else none).map
          x.cursor := by
    rw [hfirst.rune_cursor, hfirst.run_cursor hdigit]
    split
    · rfl
    · rfl
  unfold exponent?
  simp only [h.advance_cursor, hnext.rune_cursor]
  split
  · -- The sign is passed.
    rename_i hsign
    rw [hnext.advance_cursor]
    exact hdigits (hnext.pass_of (p := fun r => r.is '+' || r.is '-') (by decide) hsign)
  · exact hdigits hnext

/-- A number with a point or an exponent in an excerpt is the one in the source. -/
theorem scaled?_cursor {digits : Cursor} (h : x.Sees d) (hdigits : x.Sees digits) :
    scaled? (x.cursor d) (x.cursor digits) = (scaled? d digits).map x.lexeme := by
  unfold scaled?
  rw [hdigits.rune_cursor]
  split
  · rename_i hmark
    have hnext := hdigits.pass_of (p := fun r => r.is 'e' || r.is 'E') (by decide) hmark
    rw [exponent?_cursor hdigits hnext, Option.map_map, Option.map_map]
    rcases hstop : exponent? digits with _ | stop
    · rfl
    · exact congrArg some (h.whole_cursor (hdigits.toHolds.reaches (exponent?_reaches hstop)) _)
  · exact congrArg some (h.whole_cursor hdigits.toHolds _)

/-- A form that starts with a digit in an excerpt is the one in the source. -/
theorem number_cursor (h : x.Sees d) (hnext : x.Sees d.advance) (afterNameDot : Bool) :
    number afterNameDot (x.cursor d) = x.lexeme (number afterNameDot d) := by
  have hdigit : Rune.isDigit (.ofChar ';') = false := by decide
  have hdigits := hnext.run hdigit
  unfold number
  simp only [h.advance_cursor, h.rune_cursor, hnext.rune_cursor, hnext.run_cursor hdigit,
    hdigits.rune_cursor]
  split
  · exact word_cursor h hnext
  · split
    · rename_i hhex
      rw [Bool.and_eq_true] at hhex
      exact radix_cursor h hnext
        (hnext.pass_of (p := fun r => r.is 'x' || r.is 'X') (by decide) hhex.2) _ (by decide)
    · split
      · rename_i hbit
        rw [Bool.and_eq_true] at hbit
        exact radix_cursor h hnext (hnext.pass_of (p := fun r => r.is 'b') (by decide) hbit.2) _
          (by decide)
      · split
        · rename_i hpoint
          have hbehind := hdigits.pass_of (p := fun r => r.is '.') (by decide) hpoint
          rw [hdigits.advance_cursor, hbehind.run_cursor hdigit,
            scaled?_cursor h (hbehind.run hdigit), word_cursor h hnext, Option.getD_map]
        · split
          · rw [scaled?_cursor h hdigits, word_cursor h hnext, Option.getD_map]
          · split
            · exact word_cursor h hnext
            · exact h.whole_cursor hdigits.toHolds _

/-- A form that starts with a point in an excerpt is the one in the source. -/
theorem dot_cursor (h : x.Sees d) (hnext : x.Sees d.advance) (afterNameDot : Bool) :
    dot afterNameDot (x.cursor d) = x.lexeme (dot afterNameDot d) := by
  have hdigit : Rune.isDigit (.ofChar ';') = false := by decide
  have hname : Rune.isNameChar (.ofChar ';') = false := by decide
  unfold dot
  simp only [h.advance_cursor, hnext.rune_cursor]
  split
  · exact h.whole_cursor hnext.toHolds _
  · rw [hnext.run_cursor hdigit, hnext.run_cursor hname, scaled?_cursor h (hnext.run hdigit),
      h.whole_cursor (hnext.run hname).toHolds, Option.getD_map]

/-- A literal in quotes in an excerpt is the one in the source. -/
theorem quotedDigits_cursor (h : x.Sees d) (hnext : x.Sees d.advance) (kind : TokenKind)
    (error : ScanErrorKind) {digit : Rune → Bool} (hdigit : digit (.ofChar ';') = false) :
    quotedDigits kind error digit (x.cursor d) = x.lexeme (quotedDigits kind error digit d) := by
  unfold quotedDigits
  simp only [h.advance_cursor, hnext.rune_cursor]
  split
  · exact word_cursor h hnext
  · rename_i hquote
    have hquote' : d.advance.rune.is '\'' = true := by simpa using hquote
    have hfirst := hnext.pass_of (p := fun r => r.is '\'') (by decide) hquote'
    have hstop := hfirst.run hdigit
    rw [hnext.advance_cursor, hfirst.run_cursor hdigit, hstop.rune_cursor]
    split
    · rw [hstop.advance_cursor]
      exact h.whole_cursor (hstop.toHolds.reaches (.next _)) _
    · exact h.broken_cursor hstop.toHolds _

/-! ## Quoted forms -/

/-- What a backslash escapes in an excerpt is what it escapes in the source. -/
theorem escaped_cursor (h : x.Sees d) : escaped (x.cursor d) = escaped d := by
  have hwritten : (x.cursor d).upTo (x.cursor d.advance) = d.upTo d.advance :=
    (h.toHolds.reaches (.next d)).upTo_cursor d h.source_eq
  unfold escaped
  simp only [h.rune_cursor, h.advance_cursor, hwritten]

/-- The text between quotes is read on from behind its first rune. -/
theorem enclosed_reaches_next {quote : Rune} {escapes : Bool} {c : Cursor} (h : c.atEnd = false) :
    c.advance.Reaches (enclosed quote escapes c).2 := by
  rw [enclosed, if_neg (by rw [h]; decide)]
  simp only
  repeat' split
  · exact (Cursor.Reaches.next _).trans (enclosed_reaches quote escapes _)
  · exact .refl _
  · exact (Cursor.Reaches.next _).trans (enclosed_reaches quote escapes _)
  · exact enclosed_reaches quote escapes _

/-- The text between quotes in an excerpt is the one in the source, if what is behind it is clear.
-/
theorem enclosed_cursor (quote : Rune) (escapes : Bool) (h : x.Sees d)
    (hclear : x.Clear (enclosed quote escapes (x.cursor d)).2.offset) :
    enclosed quote escapes (x.cursor d) =
      ((enclosed quote escapes d).1, x.cursor (enclosed quote escapes d).2) := by
  have hreach (c : Cursor) : c.Reaches (enclosed quote escapes c).2 := enclosed_reaches _ _ c
  have hup {d : Cursor} (h : x.Sees d) :
      (x.cursor d).upTo (x.cursor d.advance) = d.upTo d.advance :=
    (h.toHolds.reaches (.next d)).upTo_cursor d h.source_eq
  -- The place behind the first rune is clear, since the reading goes on to a clear one.
  have hsees {d : Cursor} (h : x.Sees d) (hend : ¬d.atEnd = true)
      (hclear : x.Clear (enclosed quote escapes (x.cursor d)).2.offset) : x.Sees d.advance := by
    have hend' : (x.cursor d).atEnd = false := by rw [h.atEnd_cursor, Bool.eq_false_iff.mpr hend]
    exact h.next (hclear.of_reaches (enclosed_reaches_next hend'))
  fun_induction enclosed quote escapes d with
  | case1 d hend =>
    rw [enclosed, if_pos (by rwa [h.atEnd_cursor])]
  | case2 d hend next hquote htwice rest ih =>
    have hnext : x.Sees next := hsees h hend hclear
    rw [enclosed] at hclear ⊢
    simp only [h.atEnd_cursor, hend, h.rune_cursor, hquote, h.advance_cursor, Bool.false_eq_true,
      if_false, if_true] at hclear ⊢
    simp only [show d.advance = next from rfl, hnext.rune_cursor, htwice, if_true] at hclear ⊢
    have hbehind := hnext.next (hclear.of_reaches (hreach _))
    rw [hnext.advance_cursor] at hclear ⊢
    rw [ih hbehind hclear, hup h]
  | case3 d hend next hquote honce =>
    have hnext : x.Sees next := hsees h hend hclear
    rw [enclosed]
    simp only [h.atEnd_cursor, hend, h.rune_cursor, hquote, h.advance_cursor, Bool.false_eq_true,
      if_false, if_true]
    simp only [show d.advance = next from rfl, hnext.rune_cursor, honce, if_false]
  | case4 d hend next hquote hescape rest ih =>
    have hnext : x.Sees next := hsees h hend hclear
    rw [enclosed] at hclear ⊢
    simp only [h.atEnd_cursor, hend, h.rune_cursor, hquote, h.advance_cursor, Bool.false_eq_true,
      if_false] at hclear ⊢
    simp only [show d.advance = next from rfl, hnext.atEnd_cursor, hescape, if_true] at hclear ⊢
    have hbehind := hnext.next (hclear.of_reaches (hreach _))
    rw [hnext.advance_cursor] at hclear ⊢
    rw [ih hbehind hclear, escaped_cursor hnext]
  | case5 d hend next hquote hescape rest ih =>
    have hnext : x.Sees next := hsees h hend hclear
    rw [enclosed] at hclear ⊢
    simp only [h.atEnd_cursor, hend, h.rune_cursor, hquote, h.advance_cursor, Bool.false_eq_true,
      if_false] at hclear ⊢
    simp only [show d.advance = next from rfl, hnext.atEnd_cursor, hescape, Bool.false_eq_true,
      if_false] at hclear ⊢
    rw [ih hnext hclear, hup h]

/-- A quoted form in an excerpt is the one in the source, if what is behind it is clear. -/
theorem quoted_cursor (h : x.Sees d) (hnext : x.Sees d.advance) (kind : TokenKind)
    (error : ScanErrorKind) (escapes : Bool)
    (hclear : x.Clear (quoted kind error escapes (x.cursor d)).stop.offset) :
    quoted kind error escapes (x.cursor d) = x.lexeme (quoted kind error escapes d) := by
  have hstop : x.Clear (enclosed d.rune escapes (x.cursor d.advance)).2.offset := by
    rw [quoted, h.rune_cursor, h.advance_cursor] at hclear
    rcases he : enclosed d.rune escapes (x.cursor d.advance) with ⟨_ | text, stop⟩
    · rwa [he] at hclear
    · rwa [he] at hclear
  rw [quoted, quoted, h.rune_cursor, h.advance_cursor, enclosed_cursor _ _ hnext hstop]
  have hreach := enclosed_reaches d.rune escapes d.advance
  rcases he : enclosed d.rune escapes d.advance with ⟨_ | text, stop⟩
  · rw [he] at hreach
    exact h.broken_cursor (hnext.toHolds.reaches hreach) error
  · rfl

/-! ## Variables -/

/-- The name of a variable in an excerpt is the one in the source, if what is behind it is clear. -/
theorem variableName?_cursor (h : x.Sees d) (escapes : Bool)
    (hclear : ∀ name, variableName? escapes (x.cursor d) = some name → x.Clear name.stop.offset) :
    variableName? escapes (x.cursor d) = (variableName? escapes d).map x.lexeme := by
  have hvariable : Rune.isVariableChar (.ofChar ';') = false := by decide
  unfold variableName? at hclear ⊢
  simp only [h.rune_cursor] at hclear ⊢
  split
  · rename_i hquote
    have hnext := h.pass_of (p := Rune.isQuote) (by decide) hquote
    rw [if_pos hquote] at hclear
    exact congrArg some (quoted_cursor h hnext _ _ _ (hclear _ rfl))
  · rename_i hnoquote
    rw [if_neg hnoquote] at hclear
    split
    · rename_i hquote
      have hnext := h.pass_of (p := fun r => r.is '\x60') (by decide) hquote
      rw [if_pos hquote] at hclear
      exact congrArg some (quoted_cursor h hnext _ _ _ (hclear _ rfl))
    · split
      · rename_i hname
        have hnext := h.pass_of (p := Rune.isVariableChar) hvariable hname
        rw [h.advance_cursor, hnext.run_cursor hvariable]
        exact congrArg some (h.whole_cursor (hnext.run hvariable).toHolds _)
      · rfl

/-- A variable with a name in an excerpt is the one in the source. -/
theorem named_cursor {name : Lexeme} (h : x.Sees d) (hname : x.Holds name.stop) (kind : TokenKind)
    (front : Bytes) :
    named kind (x.cursor d) front (x.lexeme name) = x.lexeme (named kind d front name) := by
  have hkind : (x.lexeme name).kind = name.kind := rfl
  have hup : (x.cursor d).upTo (x.lexeme name).stop = d.upTo name.stop :=
    hname.upTo_cursor d h.source_eq
  unfold named
  rw [hkind, hup]
  split
  · rfl
  · rfl

/-- No scope has a semicolon. -/
theorem semicolon_not_mem_scopes : ∀ text ∈ scopes, 0x3B ∉ Bytes.toUpper text := by
  decide

/-- A system variable in an excerpt is the one in the source, if what is behind it is clear. -/
theorem systemVariable_cursor (h : x.Sees d) (hnext : x.Sees d.advance)
    (hmarks : x.Sees d.advance.advance) (escapes : Bool)
    (hclear : x.Clear (systemVariable escapes (x.cursor d)).stop.offset) :
    systemVariable escapes (x.cursor d) = x.lexeme (systemVariable escapes d) := by
  have hscope : scopes.find? (x.cursor d.advance.advance).startsWith =
      scopes.find? d.advance.advance.startsWith := by
    rw [← List.head?_filter, ← List.head?_filter]
    refine congrArg List.head? (List.filter_congr fun text htext => ?_)
    exact hmarks.startsWith_cursor (semicolon_not_mem_scopes text htext)
  unfold systemVariable at hclear ⊢
  simp only [h.advance_cursor, hnext.advance_cursor, hscope] at hclear ⊢
  generalize ((scopes.find? d.advance.advance.startsWith).getD []).length = n at hclear ⊢
  -- The variable goes on from its scope, so the place behind the scope is clear.
  have hclear' : x.Clear ((x.cursor d.advance.advance).advanceBy n).offset := by
    split at hclear
    · rename_i name hname
      rw [named_stop] at hclear
      exact hclear.of_reaches (variableName?_facts hname).1
    · exact hclear
  have hreach : d.advance.advance.Reaches (d.advance.advance.advanceBy n) :=
    (Cursor.Reaches.refl _).advanceBy n
  have hbehind' := hmarks.advanceBy_cursor hclear'
  rw [hbehind'] at hclear hclear' ⊢
  have hbehind := hmarks.reaches hreach hclear'
  have hname := variableName?_cursor hbehind escapes fun name hname => by
    rw [hname] at hclear
    rwa [named_stop] at hclear
  rw [hname, hbehind.toHolds.upTo_cursor d h.source_eq]
  rcases hfound : variableName? escapes (d.advance.advance.advanceBy n) with _ | name
  · exact h.whole_cursor hbehind.toHolds _
  · exact named_cursor h (hbehind.toHolds.reaches (variableName?_facts hfound).1) _ _

/-- A variable in an excerpt is the one in the source, if what is behind it is clear. -/
theorem anyVariable_cursor (h : x.Sees d) (hnext : x.Sees d.advance) (escapes : Bool)
    (hclear : x.Clear (anyVariable escapes (x.cursor d)).stop.offset) :
    anyVariable escapes (x.cursor d) = x.lexeme (anyVariable escapes d) := by
  unfold anyVariable at hclear ⊢
  simp only [h.advance_cursor, hnext.rune_cursor] at hclear ⊢
  have hname := variableName?_cursor hnext escapes fun name hname => by
    rw [hname] at hclear
    simpa using hclear
  rw [hname] at hclear ⊢
  rcases hfound : variableName? escapes d.advance with _ | name
  · simp only [hfound, Option.map_none] at hclear ⊢
    split
    · rename_i hmark
      rw [if_pos hmark] at hclear
      exact systemVariable_cursor h hnext (hnext.pass_of (p := fun r => r.is '@') (by decide) hmark)
        escapes hclear
    · split
      · exact h.whole_cursor hnext.toHolds _
      · rfl
  · exact named_cursor h (hnext.toHolds.reaches (variableName?_facts hfound).1) _ _

end Lexeme

end SqlTokens
