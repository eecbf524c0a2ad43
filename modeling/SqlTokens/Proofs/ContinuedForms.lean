import SqlTokens.Proofs.Continuations
import SqlTokens.Proofs.Forms

/-!
# The forms of a text that goes on

Every form that is well formed in a text is the same lexeme in each continuation of the text
(`Continuation.lexeme`). Names, numbers and literals of digits end at the first rune that they
cannot use, and the end of the text is as good as a blank to them. Quoted forms take any rune, so
what stands after the end of the text matters to those that are not closed, and to those only.
-/

namespace SqlTokens

namespace Continuation

/-- The lexeme of the source that a lexeme of the text is. -/
def lexeme (x : Continuation) (l : Lexeme) : Lexeme := { l with stop := x.cursor l.stop }

/-- Whether a lexeme of the text is well formed, or the source ends with the text. -/
def Keeps (x : Continuation) (l : Lexeme) : Prop := x.tail = [] ∨ l.kind ≠ .invalid

variable {x : Continuation} {d stop : Cursor}

/-- A lexeme between two cursors stands for the same bytes. -/
theorem Sees.whole_cursor (h : x.Sees d) (hstop : x.Sees stop) (kind : TokenKind) :
    Lexeme.whole kind (x.cursor d) (x.cursor stop) = x.lexeme (.whole kind d stop) := by
  rw [Lexeme.whole, h.upTo_cursor hstop]
  rfl

/-- A malformed lexeme between two cursors stands for the same bytes. -/
theorem Sees.broken_cursor (h : x.Sees d) (hstop : x.Sees stop) (error : ScanErrorKind) :
    Lexeme.broken error (x.cursor d) (x.cursor stop) = x.lexeme (.broken error d stop) := by
  rw [Lexeme.broken, h.upTo_cursor hstop]
  rfl

end Continuation

namespace Lexeme

variable {x : Continuation} {d : Cursor}

/-! ## Names and numbers -/

/-- A name of the text is the name of the source. -/
theorem word_continued (h : x.Sees d) (ho : x.Open d) :
    word (x.cursor d) = x.lexeme (word d) := by
  rw [word, h.advance_cursor ho, h.next.run_cursor Rune.isNameChar rfl,
    h.whole_cursor (h.next.run _)]
  rfl

/-- A name that starts with an `n` in the text is the name or introducer of the source. -/
theorem national_continued (h : x.Sees d) (ho : x.Open d) :
    national (x.cursor d) = x.lexeme (national d) := by
  have hstop : x.Sees (word d).stop := h.next.run _
  have hquote : (x.lexeme (word d)).stop.rune.is '\'' = (word d).stop.rune.is '\'' :=
    hstop.is_cursor '\'' rfl
  have htext : (x.lexeme (word d)).text = (word d).text := rfl
  unfold national
  simp only [word_continued h ho, hquote, htext]
  split
  · rfl
  · rfl

/-- A literal with a leading zero in the text is the one of the source. -/
theorem radix_continued (h : x.Sees d) (ho : x.Open d) (hnext : x.Open d.advance)
    (kind : TokenKind) {digit : Rune → Bool} (hblank : digit (.ofChar ' ') = false)
    (heof : digit .eof = false) :
    radix kind digit (x.cursor d) = x.lexeme (radix kind digit d) := by
  have hfirst : x.Sees d.advance.advance := h.next.next
  have hstop := hfirst.run digit
  have hdigit : digit (x.cursor d.advance.advance).rune = digit d.advance.advance.rune :=
    hfirst.class_cursor digit (by rw [hblank, heof])
  have hname : (x.cursor (d.advance.advance.skipWhile digit)).rune.isNameChar =
      (d.advance.advance.skipWhile digit).rune.isNameChar :=
    hstop.class_cursor Rune.isNameChar rfl
  unfold radix
  simp only [h.advance_cursor ho, h.next.advance_cursor hnext, hfirst.run_cursor digit hblank,
    hdigit, hname]
  split
  · exact h.whole_cursor hstop kind
  · exact word_continued h ho

/-- An exponent in the text is the one of the source. -/
theorem exponent?_continued (h : x.Sees d) (ho : x.Open d) :
    exponent? (x.cursor d) = (exponent? d).map x.cursor := by
  have hdigits {first : Cursor} (hfirst : x.Sees first) :
      (if (x.cursor first).rune.isDigit then some ((x.cursor first).skipWhile Rune.isDigit)
        else none) =
        (if first.rune.isDigit then some (first.skipWhile Rune.isDigit) else none).map
          x.cursor := by
    rw [hfirst.class_cursor Rune.isDigit rfl, hfirst.run_cursor Rune.isDigit rfl]
    split
    · rfl
    · rfl
  unfold exponent?
  simp only [h.advance_cursor ho, h.next.is_cursor '+' rfl, h.next.is_cursor '-' rfl]
  split
  · -- The sign is passed.
    rename_i hsign
    have hopen : x.Open d.advance :=
      Continuation.open_of (fun r => r.is '+' || r.is '-') hsign rfl
    rw [h.next.advance_cursor hopen]
    exact hdigits h.next.next
  · exact hdigits h.next

/-- A number with a point or an exponent in the text is the one of the source. -/
theorem scaled?_continued {digits : Cursor} (h : x.Sees d) (hdigits : x.Sees digits) :
    scaled? (x.cursor d) (x.cursor digits) = (scaled? d digits).map x.lexeme := by
  unfold scaled?
  rw [hdigits.is_cursor 'e' rfl, hdigits.is_cursor 'E' rfl]
  split
  · rename_i hmark
    have hopen : x.Open digits :=
      Continuation.open_of (fun r => r.is 'e' || r.is 'E') hmark rfl
    rw [exponent?_continued hdigits hopen, Option.map_map, Option.map_map]
    rcases hstop : exponent? digits with _ | stop
    · rfl
    · exact congrArg some (h.whole_cursor (hdigits.reaches (exponent?_reaches hstop)) _)
  · exact congrArg some (h.whole_cursor hdigits _)

/-- A form that starts with a digit in the text is the one of the source. -/
theorem number_continued (h : x.Sees d) (ho : x.Open d) (afterNameDot : Bool) :
    number afterNameDot (x.cursor d) = x.lexeme (number afterNameDot d) := by
  have hdigits : x.Sees (d.advance.skipWhile Rune.isDigit) := h.next.run _
  have hname : (x.cursor (d.advance.skipWhile Rune.isDigit)).rune.isNameChar =
      (d.advance.skipWhile Rune.isDigit).rune.isNameChar :=
    hdigits.class_cursor Rune.isNameChar rfl
  unfold number
  simp only [h.advance_cursor ho, h.rune_cursor ho, h.next.run_cursor Rune.isDigit rfl, hname,
    h.next.is_cursor 'x' rfl, h.next.is_cursor 'X' rfl, h.next.is_cursor 'b' rfl,
    hdigits.is_cursor '.' rfl, hdigits.is_cursor 'e' rfl, hdigits.is_cursor 'E' rfl]
  split
  · exact word_continued h ho
  · split
    · rename_i hhex
      rw [Bool.and_eq_true] at hhex
      exact radix_continued h ho
        (Continuation.open_of (fun r => r.is 'x' || r.is 'X') hhex.2 rfl) _ (by decide)
        (by decide)
    · split
      · rename_i hbit
        rw [Bool.and_eq_true] at hbit
        exact radix_continued h ho (Continuation.open_of_is hbit.2) _ (by decide) (by decide)
      · split
        · rename_i hpoint
          rw [hdigits.advance_cursor (Continuation.open_of_is hpoint),
            hdigits.next.run_cursor Rune.isDigit rfl, scaled?_continued h (hdigits.next.run _),
            word_continued h ho, Option.getD_map]
        · split
          · rw [scaled?_continued h hdigits, word_continued h ho, Option.getD_map]
          · split
            · exact word_continued h ho
            · exact h.whole_cursor hdigits _

/-- A form that starts with a point in the text is the one of the source. -/
theorem dot_continued (h : x.Sees d) (ho : x.Open d) (afterNameDot : Bool) :
    dot afterNameDot (x.cursor d) = x.lexeme (dot afterNameDot d) := by
  have hdigit : (x.cursor d.advance).rune.isDigit = d.advance.rune.isDigit :=
    h.next.class_cursor Rune.isDigit rfl
  unfold dot
  simp only [h.advance_cursor ho, hdigit]
  split
  · exact h.whole_cursor h.next _
  · rw [h.next.run_cursor Rune.isDigit rfl, h.next.run_cursor Rune.isNameChar rfl,
      scaled?_continued h (h.next.run _), h.whole_cursor (h.next.run _), Option.getD_map]

/-- A literal in quotes in the text is the one of the source. -/
theorem quotedDigits_continued (h : x.Sees d) (ho : x.Open d) (kind : TokenKind)
    (error : ScanErrorKind) {digit : Rune → Bool} (hblank : digit (.ofChar ' ') = false) :
    quotedDigits kind error digit (x.cursor d) = x.lexeme (quotedDigits kind error digit d) := by
  unfold quotedDigits
  simp only [h.advance_cursor ho, h.next.is_cursor '\'' rfl]
  split
  · exact word_continued h ho
  · rename_i hopening
    have hopen : x.Open d.advance :=
      Continuation.open_of_is (show d.advance.rune.is '\'' = true by simpa using hopening)
    have hstop : x.Sees (d.advance.advance.skipWhile digit) := h.next.next.run _
    rw [h.next.advance_cursor hopen, h.next.next.run_cursor digit hblank, hstop.is_cursor '\'' rfl]
    split
    · rename_i hclosing
      rw [hstop.advance_cursor (Continuation.open_of_is hclosing)]
      exact h.whole_cursor hstop.next _
    · exact h.broken_cursor hstop _

/-- The digits of a version number in the text are those of the source. -/
theorem skipDigits_continued (h : x.Sees d) (n : Nat) :
    skipDigits (x.cursor d) n = x.cursor (skipDigits d n) := by
  induction n generalizing d with
  | zero => rfl
  | succ n ih =>
    rw [skipDigits, skipDigits, h.class_cursor Rune.isDigit rfl]
    split
    · rename_i hdigit
      rw [h.advance_cursor (Continuation.open_of Rune.isDigit hdigit rfl)]
      exact ih h.next
    · rfl

/-- A version number in the text is the one of the source. -/
theorem version_continued (h : x.Sees d) (least most : Nat) :
    version least most (x.cursor d) = x.cursor (version least most d) := by
  unfold version
  simp only [skipDigits_continued h, Continuation.offset_cursor]
  split
  · rfl
  · rfl

/-! ## Quoted forms -/

/-- What a backslash escapes in the text is what it escapes in the source. -/
theorem escaped_continued (h : x.Sees d) (ho : x.Open d) : escaped (x.cursor d) = escaped d := by
  unfold escaped
  simp only [h.rune_cursor ho, h.advance_cursor ho, h.upTo_cursor h.next]

/-- Without an end of its own no quoted text goes on behind the text that it stands in. -/
theorem open_of_enclosed {quote : Rune} {escapes : Bool}
    (hclosed : x.tail = [] ∨ (enclosed quote escapes d).1 ≠ none) : x.Open d := by
  refine hclosed.imp_right fun hsome => ?_
  rw [Bool.eq_false_iff]
  intro hend
  rw [enclosed, if_pos hend] at hsome
  exact hsome rfl

/-- The text between quotes is the one of the source, if it is closed. -/
theorem enclosed_continued {quote : Rune} (escapes : Bool) (h : x.Sees d)
    (hblank : quote ≠ .ofChar ' ') (heof : quote ≠ .eof)
    (hclosed : x.tail = [] ∨ (enclosed quote escapes d).1 ≠ none) :
    enclosed quote escapes (x.cursor d) =
      ((enclosed quote escapes d).1, x.cursor (enclosed quote escapes d).2) := by
  -- What is left of a closed text is closed.
  have hrest {rest : Option Bytes} {front : Bytes}
      (hclosed : x.tail = [] ∨ rest.map (front ++ ·) ≠ none) : x.tail = [] ∨ rest ≠ none := by
    refine hclosed.imp_right fun hsome hnone => hsome ?_
    rw [hnone]
    rfl
  fun_induction enclosed quote escapes d with
  | case1 d hend =>
    have ho : x.Open d := hclosed.imp_right fun hsome => absurd rfl hsome
    rw [enclosed, if_pos (by rwa [h.atEnd_cursor ho])]
  | case2 d hend next hquote htwice rest ih =>
    have ho : x.Open d := .inr (Bool.eq_false_iff.mpr hend)
    have hnext : x.Sees next := h.next
    have hopen : x.Open next := by
      right
      rw [Bool.eq_false_iff, Ne, ← Cursor.rune_eq_eof_iff, htwice]
      exact heof
    rw [enclosed]
    simp only [h.atEnd_cursor ho, hend, h.rune_cursor ho, hquote, h.advance_cursor ho,
      Bool.false_eq_true, if_false, if_true]
    simp only [show d.advance = next from rfl, hnext.rune_cursor hopen, htwice, if_true]
    rw [hnext.advance_cursor hopen, ih hnext.next (hrest hclosed), h.upTo_cursor hnext]
  | case3 d hend next hquote honce =>
    have ho : x.Open d := .inr (Bool.eq_false_iff.mpr hend)
    have hnext : x.Sees next := h.next
    -- Behind the closing quote the end of the text and a blank are no quotes.
    have honce' : ¬(x.cursor next).rune = quote := by
      have hsame := hnext.class_cursor (fun r => decide (r = quote))
        (by rw [decide_eq_false hblank.symm, decide_eq_false heof.symm])
      rw [decide_eq_false honce] at hsame
      exact of_decide_eq_false hsame
    rw [enclosed]
    simp only [h.atEnd_cursor ho, hend, h.rune_cursor ho, hquote, h.advance_cursor ho,
      Bool.false_eq_true, if_false, if_true]
    simp only [show d.advance = next from rfl, honce', if_false]
  | case4 d hend next hquote hescape rest ih =>
    have ho : x.Open d := .inr (Bool.eq_false_iff.mpr hend)
    have hnext : x.Sees next := h.next
    have hopen : x.Open next := by
      rw [Bool.and_eq_true] at hescape
      exact .inr (by simpa using hescape.2)
    rw [enclosed]
    simp only [h.atEnd_cursor ho, hend, h.rune_cursor ho, hquote, h.advance_cursor ho,
      Bool.false_eq_true, if_false]
    simp only [show d.advance = next from rfl, hnext.atEnd_cursor hopen, hescape, if_true]
    rw [hnext.advance_cursor hopen, ih hnext.next (hrest hclosed), escaped_continued hnext hopen]
  | case5 d hend next hquote hescape rest ih =>
    have ho : x.Open d := .inr (Bool.eq_false_iff.mpr hend)
    have hnext : x.Sees next := h.next
    have hopen : x.Open next := open_of_enclosed (hrest hclosed)
    rw [enclosed]
    simp only [h.atEnd_cursor ho, hend, h.rune_cursor ho, hquote, h.advance_cursor ho,
      Bool.false_eq_true, if_false]
    simp only [show d.advance = next from rfl, hnext.atEnd_cursor hopen, hescape,
      Bool.false_eq_true, if_false]
    rw [ih hnext (hrest hclosed), h.upTo_cursor hnext]

/-- A quoted form of the text is the one of the source, if it is closed. -/
theorem quoted_continued (h : x.Sees d) (kind : TokenKind) (error : ScanErrorKind) (escapes : Bool)
    {ch : Char} (hquote : d.rune.is ch = true) (hch : ch ≠ ' ')
    (hkeeps : x.Keeps (quoted kind error escapes d)) :
    quoted kind error escapes (x.cursor d) = x.lexeme (quoted kind error escapes d) := by
  have ho : x.Open d := Continuation.open_of_is hquote
  have heof : d.rune ≠ .eof := by
    rw [Ne, Cursor.rune_eq_eof_iff, Cursor.atEnd_eq_false_of_is hquote]
    exact Bool.false_ne_true
  have hblank : d.rune ≠ .ofChar ' ' := by
    rw [Rune.is_iff.mp hquote]
    exact fun hsame => hch (Rune.ofChar_inj hsame)
  have hclosed : x.tail = [] ∨ (enclosed d.rune escapes d.advance).1 ≠ none := by
    refine hkeeps.imp_right fun hkind hnone => hkind ?_
    rw [quoted]
    split
    · rename_i text stop he
      rw [he] at hnone
      cases hnone
    · rfl
  have hreach := enclosed_reaches d.rune escapes d.advance
  rw [quoted, quoted, h.rune_cursor ho, h.advance_cursor ho,
    enclosed_continued escapes h.next hblank heof hclosed]
  rcases he : enclosed d.rune escapes d.advance with ⟨_ | text, stop⟩
  · rw [he] at hreach
    exact h.broken_cursor (h.next.reaches hreach) error
  · rfl

/-! ## Variables -/

/-- Either quote is a character other than the blank. -/
theorem exists_is_of_isQuote {r : Rune} (h : r.isQuote = true) :
    ∃ ch, r.is ch = true ∧ ch ≠ ' ' := by
  rw [Rune.isQuote, Bool.or_eq_true] at h
  rcases h with hsingle | hdouble
  · exact ⟨'\'', hsingle, by decide⟩
  · exact ⟨'"', hdouble, by decide⟩

/-- The name of a variable in the text is the one of the source, if it is closed. -/
theorem variableName?_continued (h : x.Sees d) (escapes : Bool)
    (hkeeps : ∀ name, variableName? escapes d = some name → x.Keeps name) :
    variableName? escapes (x.cursor d) = (variableName? escapes d).map x.lexeme := by
  have hquotes : (x.cursor d).rune.isQuote = d.rune.isQuote := h.class_cursor Rune.isQuote rfl
  have hvariable : (x.cursor d).rune.isVariableChar = d.rune.isVariableChar :=
    h.class_cursor Rune.isVariableChar rfl
  unfold variableName? at hkeeps ⊢
  simp only [hquotes, hvariable, h.is_cursor '\x60' rfl]
  split
  · rename_i hquote
    rw [if_pos hquote] at hkeeps
    obtain ⟨ch, hch, hne⟩ := exists_is_of_isQuote hquote
    exact congrArg some (quoted_continued h _ _ _ hch hne (hkeeps _ rfl))
  · rename_i hnoquote
    rw [if_neg hnoquote] at hkeeps
    split
    · rename_i hquote
      rw [if_pos hquote] at hkeeps
      exact congrArg some (quoted_continued h _ _ _ hquote (by decide) (hkeeps _ rfl))
    · split
      · rename_i hname
        rw [h.advance_cursor (Continuation.open_of Rune.isVariableChar hname rfl),
          h.next.run_cursor Rune.isVariableChar rfl]
        exact congrArg some (h.whole_cursor (h.next.run _) _)
      · rfl

/-- A variable with a name in the text is the one of the source. -/
theorem named_continued {name : Lexeme} (h : x.Sees d) (hname : x.Sees name.stop)
    (kind : TokenKind) (front : Bytes) :
    named kind (x.cursor d) front (x.lexeme name) = x.lexeme (named kind d front name) := by
  have hkind : (x.lexeme name).kind = name.kind := rfl
  have hup : (x.cursor d).upTo (x.lexeme name).stop = d.upTo name.stop := h.upTo_cursor hname
  unfold named
  rw [hkind, hup]
  split
  · rfl
  · rfl

/-- A variable with a malformed name is malformed. -/
theorem keeps_of_named {kind : TokenKind} {front : Bytes} {name : Lexeme}
    (h : x.Keeps (named kind d front name)) : x.Keeps name := by
  refine h.imp_right fun hkind hname => hkind ?_
  rw [named, if_pos hname]

/-- No scope has a blank. -/
theorem blank_not_mem_scopes : ∀ text ∈ scopes, 0x20 ∉ Bytes.toUpper text := by
  decide

/-- A system variable in the text is the one of the source, if it is well formed. -/
theorem systemVariable_continued (h : x.Sees d) (ho : x.Open d) (hnext : x.Open d.advance)
    (escapes : Bool) (hkeeps : x.Keeps (systemVariable escapes d)) :
    systemVariable escapes (x.cursor d) = x.lexeme (systemVariable escapes d) := by
  have hmarks : x.Sees d.advance.advance := h.next.next
  have hscope : scopes.find? (x.cursor d.advance.advance).startsWith =
      scopes.find? d.advance.advance.startsWith := by
    rw [← List.head?_filter, ← List.head?_filter]
    refine congrArg List.head? (List.filter_congr fun text htext => ?_)
    exact hmarks.startsWith_cursor (blank_not_mem_scopes text htext)
  unfold systemVariable at hkeeps ⊢
  simp only [h.advance_cursor ho, h.next.advance_cursor hnext, hscope] at hkeeps ⊢
  generalize ((scopes.find? d.advance.advance.startsWith).getD []).length = n at hkeeps ⊢
  have hbehind : x.Sees (d.advance.advance.advanceBy n) :=
    hmarks.reaches ((Cursor.Reaches.refl _).advanceBy n)
  rcases hfound : variableName? escapes (d.advance.advance.advanceBy n) with _ | name
  · -- Without a name the variable is malformed, so the source ends with the text.
    rw [hfound] at hkeeps
    have hnone : x.tail = [] := hkeeps.resolve_right fun hkind => hkind rfl
    rw [hmarks.advanceBy_cursor (.inl hnone),
      variableName?_continued hbehind escapes fun _ _ => .inl hnone, hfound]
    exact h.whole_cursor hbehind _
  · rw [hfound] at hkeeps
    have hname : x.Keeps name := keeps_of_named hkeeps
    -- A name has at least one rune.
    have hopen : x.Open (d.advance.advance.advanceBy n) := by
      right
      rw [Bool.eq_false_iff]
      intro hend
      unfold variableName? at hfound
      rw [Cursor.rune_eq_eof_iff.mpr hend] at hfound
      exact absurd hfound (by simp [Rune.isQuote])
    have hsome : variableName? escapes (x.cursor (d.advance.advance.advanceBy n)) =
        some (x.lexeme name) := by
      rw [variableName?_continued hbehind escapes fun name' hname' => ?_, hfound]
      · rfl
      · rw [hfound] at hname'
        rwa [← Option.some_inj.mp hname']
    rw [hmarks.advanceBy_cursor hopen, hsome, h.upTo_cursor hbehind]
    exact named_continued h (hbehind.reaches (variableName?_facts hfound).1) _ _

/-- A variable in the text is the one of the source, if it is well formed. -/
theorem anyVariable_continued (h : x.Sees d) (ho : x.Open d) (escapes : Bool)
    (hkeeps : x.Keeps (anyVariable escapes d)) :
    anyVariable escapes (x.cursor d) = x.lexeme (anyVariable escapes d) := by
  have hmark : (x.cursor d.advance).rune.is '@' = d.advance.rune.is '@' :=
    h.next.is_cursor '@' rfl
  unfold anyVariable at hkeeps ⊢
  simp only [h.advance_cursor ho, hmark]
  rcases hfound : variableName? escapes d.advance with _ | name
  · simp only [hfound] at hkeeps
    have hnone : variableName? escapes (x.cursor d.advance) = none := by
      rw [variableName?_continued h.next escapes fun _ hname => by simp [hfound] at hname, hfound]
      rfl
    simp only [hnone]
    split
    · rename_i hsystem
      rw [if_pos hsystem] at hkeeps
      exact systemVariable_continued h ho (Continuation.open_of_is hsystem) escapes hkeeps
    · rename_i hsystem
      rw [if_neg hsystem] at hkeeps
      -- A mark at the end of the text is malformed there.
      have hopen : x.Open d.advance := by
        refine hkeeps.imp_right fun hkind => ?_
        rw [Bool.eq_false_iff]
        intro hend
        rw [Cursor.rune_eq_eof_iff.mpr hend] at hkind
        exact hkind rfl
      rw [h.next.rune_cursor hopen]
      split
      · exact h.whole_cursor h.next _
      · rfl
  · simp only [hfound] at hkeeps
    have hsome : variableName? escapes (x.cursor d.advance) = some (x.lexeme name) := by
      rw [variableName?_continued h.next escapes fun name' hname' => ?_, hfound]
      · rfl
      · rw [hfound] at hname'
        rw [← Option.some_inj.mp hname']
        exact keeps_of_named hkeeps
    simp only [hsome]
    exact named_continued h (h.next.reaches (variableName?_facts hfound).1) _ _

end Lexeme

end SqlTokens
