import SqlTokens.Proofs.Names
import SqlTokens.Proofs.Operators

/-!
# Points in front of names

Where a name character comes next right behind a point (`Cursor.MeetsPoint`), the point is a token
by itself or the end of a decimal number: no other form and no text between tokens ends there
(`stepAt_keepsPoint`, `Crosses.upTo_eq_nil`). Forms that are longest runs stop in front of what is
no name character, and the others end with a rune of their own, such as a digit or a quote. For
resolution this settles what the byte before a name can be a part of.
-/

namespace SqlTokens

/-! ## Where a name meets a point -/

namespace Cursor

variable {c d : Cursor}

/-- The byte right before a cursor. -/
def before? (c : Cursor) : Option UInt8 :=
  if c.offset = 0 then none else c.source[c.offset - 1]?

/-- Whether a name character comes next, right behind a point. -/
structure MeetsPoint (c : Cursor) : Prop where
  /-- The byte before the cursor is a point. -/
  before_eq : c.before? = some 0x2E
  /-- The rune at the cursor is a name character. -/
  next_eq : c.rune.isNameChar = true

/-- The byte before a cursor is the last one that has been read. -/
theorem Reaches.before?_eq (h : c.Reaches d) (hne : c.upTo d ≠ []) :
    d.before? = (c.upTo d).getLast? := by
  have hoffset := h.offset_eq hne
  have hpos := List.length_pos_iff.mpr hne
  have hlast : c.offset + ((c.upTo d).length - 1) = d.offset - 1 := by omega
  rw [before?, if_neg (by omega), List.getLast?_eq_getElem?]
  conv_rhs => rw [upTo_eq, List.getElem?_drop]
  rw [← upTo_eq, hlast, List.getElem?_take_of_lt (by omega), h.source_eq]

/-- Where no name character comes next, no name meets a point. -/
theorem not_meetsPoint_of_next (h : c.rune.isNameChar = false) : ¬c.MeetsPoint := by
  rintro ⟨-, hnext⟩
  rw [h] at hnext
  cases hnext

/-- At the end no name meets a point. -/
theorem not_meetsPoint_of_atEnd (h : c.atEnd = true) : ¬c.MeetsPoint :=
  not_meetsPoint_of_next (by rw [rune_eq_eof_iff.mpr h, Rune.isNameChar_eof])

/-- Behind another rune than a point no name meets one. -/
theorem not_meetsPoint_advance (h : c.rune.is '.' = false) : ¬c.advance.MeetsPoint := by
  rcases hend : c.atEnd with _ | _
  · rintro ⟨hbefore, -⟩
    rw [(Reaches.next c).before?_eq (upTo_advance_ne_nil hend), upTo_advance, width_eq] at hbefore
    -- A rune with an ASCII byte is that byte.
    obtain ⟨hhead, -⟩ := Rune.eq_head_of_mem_take (by decide) (List.mem_of_getLast? hbefore)
    rw [(rune_is_iff (by decide)).mpr hhead] at h
    cases h
  · rw [advance_of_atEnd hend]
    exact not_meetsPoint_of_atEnd hend

/-- A run of a class with all name characters stops where no name meets a point. -/
theorem not_meetsPoint_of_longest {p : Rune → Bool} (hp : ∀ r, r.isNameChar = true → p r = true) :
    ¬(c.skipWhile p).MeetsPoint := by
  rcases skipWhile_stops p c with h | h
  · exact not_meetsPoint_of_atEnd h
  · rintro ⟨-, hnext⟩
    rw [hp _ hnext] at h
    cases h

/-- A run of a class without the point brings no name to one. -/
theorem not_meetsPoint_skipWhile {p : Rune → Bool} (hp : p (.ofChar '.') = false)
    (h : ¬c.MeetsPoint) : ¬(c.skipWhile p).MeetsPoint := by
  fun_induction skipWhile p c with
  | case1 => exact h
  | case2 c _ hr ih => exact ih (not_meetsPoint_advance (Rune.is_eq_false hr '.' hp))
  | case3 => exact h

/-- A run that has a rune of such a class does not do so wherever it starts. -/
theorem not_meetsPoint_run {p : Rune → Bool} (hp : p (.ofChar '.') = false)
    (h : p c.rune = true) : ¬(c.skipWhile p).MeetsPoint := by
  rw [← skipWhile_advance h]
  exact not_meetsPoint_skipWhile hp (not_meetsPoint_advance (Rune.is_eq_false h '.' hp))

end Cursor

/-! ## Texts between tokens -/

/-- A list of names ends with its bracket. -/
theorem Comment.NameList.getLast?_eq {names : List Bytes} {text : Bytes} (h : NameList names text) :
    text.getLast? = some 0x5D := by
  induction h with
  | last => exact List.getLast?_concat
  | more _ _ _ ih =>
    rw [List.getLast?_append, List.getLast?_cons, ih]
    rfl

namespace Trivia

variable {offset : Nat} {vendor vendor' : Bool} {text rest : Bytes}

/-- An item in front of something else than the end of a line does not end with a point. -/
theorem Item.getLast?_ne (h : Item offset vendor text rest vendor') (hne : rest ≠ [])
    (hline : rest.head? ≠ some 0x0A) : text.getLast? ≠ some 0x2E := by
  have hrest {text : Bytes} : ¬IsLineRest text rest := fun h => h.2.elim hne hline
  cases h with
  | blank hblank =>
    rintro ⟨⟩
    exact absurd hblank (by decide)
  | mark => decide
  | sharp h => exact absurd h hrest
  | dashes _ h => exact absurd h hrest
  | comment =>
    rw [List.getLast?_append_of_ne_nil _ (List.cons_ne_nil _ _)]
    decide
  | @version _ _ digits _ h =>
    intro hlast
    have hmem : 0x2E ∈ [0x2F, 0x2A, 0x21] ++ digits := List.mem_of_getLast? hlast
    rcases List.mem_append.mp hmem with hmem | hmem
    · exact absurd hmem (by decide)
    · exact absurd (h.2 _ hmem) (by decide)
  | opening => decide
  | features h => simp [List.getLast?_cons, h.getLast?_eq]
  | unlisted => decide
  | close => decide

/-- What stands between tokens does not end with a point in front of something else than the end of
a line. -/
theorem getLast?_ne (h : Trivia offset vendor text rest vendor') (hne : rest ≠ [])
    (hline : rest.head? ≠ some 0x0A) : text.getLast? ≠ some 0x2E := by
  induction h with
  | nil => simp
  | @cons _ _ _ _ text more rest hitem _ ih =>
    rcases hmore : more with _ | ⟨b, tail⟩
    · rw [hmore, List.nil_append] at hitem
      rw [List.append_nil]
      exact hitem.getLast?_ne hne hline
    · rw [List.getLast?_append_of_ne_nil _ (List.cons_ne_nil b tail), ← hmore]
      exact ih hne hline

end Trivia

/-- Nothing is crossed to where a name meets a point. -/
theorem Cursor.Crosses.upTo_eq_nil {c d : Cursor} {vendor vendor' : Bool}
    (h : c.Crosses vendor d vendor') (hd : d.MeetsPoint) : c.upTo d = [] := by
  by_contra hne
  have hbefore := hd.before_eq
  rw [h.reaches.before?_eq hne] at hbefore
  refine h.trivia.getLast?_ne ?_ ?_ hbefore
  · intro hnil
    exact not_meetsPoint_of_atEnd (atEnd_iff_ahead.mpr hnil) hd
  · intro hline
    have hrune := rune_of_head? (by decide) (by decide) hline
    exact not_meetsPoint_of_next (by rw [hrune]; decide) hd

/-! ## The forms -/

/-- The kinds of tokens that may end with a point in front of a name. -/
def TokenKind.pointed : List TokenKind := [.ofChar '.', .decimalLiteral]

namespace Lexeme

variable {c : Cursor} {l : Lexeme}

/-- Whether a lexeme that ends where a name meets a point is of a kind that may. -/
def KeepsPoint (l : Lexeme) : Prop := l.stop.MeetsPoint → l.kind ∈ TokenKind.pointed

/-- A lexeme that does not end there is none that may not. -/
theorem keepsPoint_of_stop (h : ¬l.stop.MeetsPoint) : l.KeepsPoint := fun hstop => absurd hstop h

/-- A name ends where no name goes on. -/
theorem not_meetsPoint_word (c : Cursor) : ¬(word c).stop.MeetsPoint :=
  Cursor.not_meetsPoint_of_longest fun _ h => h

/-- A literal with a leading zero ends where no name goes on. -/
theorem not_meetsPoint_radix (kind : TokenKind) (digit : Rune → Bool) :
    ¬(radix kind digit c).stop.MeetsPoint := by
  unfold radix
  simp only
  split
  · rename_i h
    rw [Bool.and_eq_true, Bool.not_eq_true'] at h
    exact Cursor.not_meetsPoint_of_next h.2
  · exact not_meetsPoint_word c

/-- An exponent ends with a digit. -/
theorem not_meetsPoint_exponent? {mark stop : Cursor} (h : exponent? mark = some stop) :
    ¬stop.MeetsPoint := by
  unfold exponent? at h
  simp only [Option.ite_none_right_eq_some, Option.some.injEq] at h
  obtain ⟨hdigit, rfl⟩ := h
  exact Cursor.not_meetsPoint_run (by decide) hdigit

/-- A number with a point is decimal or ends with an exponent. -/
theorem scaled?_keepsPoint {digits : Cursor} (h : scaled? c digits = some l) : l.KeepsPoint := by
  unfold scaled? at h
  split at h
  · obtain ⟨stop, hstop, rfl⟩ := Option.map_eq_some_iff.mp h
    exact keepsPoint_of_stop (not_meetsPoint_exponent? hstop)
  · cases h
    exact fun _ => (by decide : TokenKind.decimalLiteral ∈ TokenKind.pointed)

/-- Either reading of a form that may be a number keeps to the rule. -/
theorem getD_scaled?_keepsPoint {digits : Cursor} (h : l.KeepsPoint) :
    ((scaled? c digits).getD l).KeepsPoint := by
  cases hscaled : scaled? c digits with
  | none => exact h
  | some m => exact scaled?_keepsPoint hscaled

/-- A form that starts with a digit keeps to the rule. -/
theorem number_keepsPoint (afterNameDot : Bool) (c : Cursor) :
    (number afterNameDot c).KeepsPoint := by
  have hword : (word c).KeepsPoint := keepsPoint_of_stop (not_meetsPoint_word c)
  unfold number
  simp only
  repeat' split
  · exact hword
  · exact keepsPoint_of_stop (not_meetsPoint_radix _ _)
  · exact keepsPoint_of_stop (not_meetsPoint_radix _ _)
  · exact getD_scaled?_keepsPoint hword
  · exact getD_scaled?_keepsPoint hword
  · exact hword
  · rename_i h
    exact keepsPoint_of_stop (Cursor.not_meetsPoint_of_next (Bool.eq_false_iff.mpr h))

/-- A form that starts with a point keeps to the rule. -/
theorem dot_keepsPoint (afterNameDot : Bool) (c : Cursor) : (dot afterNameDot c).KeepsPoint := by
  unfold dot
  simp only
  split
  · exact fun _ => (by decide : TokenKind.ofChar '.' ∈ TokenKind.pointed)
  · exact getD_scaled?_keepsPoint
      (keepsPoint_of_stop (Cursor.not_meetsPoint_of_longest fun _ h => h))

/-- A form that starts with the letter of a notation ends with a quote, a digit or a name. -/
theorem not_meetsPoint_quotedDigits (kind : TokenKind) (error : ScanErrorKind)
    {digit : Rune → Bool} (hdigit : digit (.ofChar '.') = false) (c : Cursor) :
    ¬(quotedDigits kind error digit c).stop.MeetsPoint := by
  have hquote {d : Cursor} (h : d.rune.is '\'' = true) : ¬d.advance.MeetsPoint :=
    Cursor.not_meetsPoint_advance (Rune.is_eq_false (p := (·.is '\'')) h '.' (by decide))
  unfold quotedDigits
  simp only
  split
  · exact not_meetsPoint_word c
  · rename_i hopening
    split
    · rename_i hclosing
      exact hquote hclosing
    · rw [Bool.not_eq_true', Bool.not_eq_false] at hopening
      exact Cursor.not_meetsPoint_skipWhile hdigit (hquote hopening)

/-- What starts with an `n` ends with a name. -/
theorem not_meetsPoint_national (c : Cursor) : ¬(national c).stop.MeetsPoint := by
  unfold national
  simp only
  split
  · exact not_meetsPoint_word c
  · exact not_meetsPoint_word c

/-- Reading up to a closing quote stops behind it or at the end. -/
theorem not_meetsPoint_enclosed {quote : Rune} (hquote : quote.is '.' = false) (escapes : Bool)
    (c : Cursor) : ¬(enclosed quote escapes c).2.MeetsPoint := by
  fun_induction enclosed quote escapes c with
  | case1 c hend => exact Cursor.not_meetsPoint_of_atEnd hend
  | case2 c _ next _ _ rest ih => exact ih
  | case3 c _ _ hclosing => exact Cursor.not_meetsPoint_advance (by rw [hclosing, hquote])
  | case4 c _ next _ _ rest ih => exact ih
  | case5 c _ next _ _ rest ih => exact ih

/-- A quoted form ends with its quote or at the end. -/
theorem not_meetsPoint_quoted (kind : TokenKind) (error : ScanErrorKind) (escapes : Bool)
    (hquote : c.rune.is '.' = false) : ¬(quoted kind error escapes c).stop.MeetsPoint := by
  have hstop := not_meetsPoint_enclosed hquote escapes c.advance
  rw [quoted]
  rcases he : enclosed c.rune escapes c.advance with ⟨_ | text, stop⟩
  · rwa [he] at hstop
  · rwa [he] at hstop

/-- Behind the name of a variable no name goes on. -/
theorem not_meetsPoint_variableName? {escapes : Bool} {name : Lexeme}
    (h : variableName? escapes c = some name) : ¬name.stop.MeetsPoint := by
  unfold variableName? at h
  split at h
  · rename_i hquote
    cases h
    exact not_meetsPoint_quoted _ _ _ (Rune.is_eq_false hquote '.' (by decide))
  · split at h
    · rename_i hquote
      cases h
      exact not_meetsPoint_quoted _ _ _
        (Rune.is_eq_false (p := (·.is '\x60')) hquote '.' (by decide))
    · split at h
      · cases h
        exact Cursor.not_meetsPoint_of_longest fun _ h => by rw [Rune.isVariableChar, h]; rfl
      · cases h

/-- Where no name of a variable starts, no name does. -/
theorem not_meetsPoint_of_unnamed {escapes : Bool} (h : variableName? escapes c = none) :
    ¬c.MeetsPoint := by
  refine Cursor.not_meetsPoint_of_next (Bool.eq_false_iff.mpr fun hname => ?_)
  have hvariable : c.rune.isVariableChar = true := by rw [Rune.isVariableChar, hname]; rfl
  unfold variableName? at h
  rw [if_pos hvariable] at h
  split at h
  · cases h
  · split at h
    · cases h
    · cases h

/-- A system variable takes the name with it that follows. -/
theorem not_meetsPoint_systemVariable (escapes : Bool) (c : Cursor) :
    ¬(systemVariable escapes c).stop.MeetsPoint := by
  unfold systemVariable
  simp only
  split
  · rename_i name hname
    rw [named_stop]
    exact not_meetsPoint_variableName? hname
  · rename_i hnone
    exact not_meetsPoint_of_unnamed hnone

/-- A variable takes the name with it that follows. -/
theorem not_meetsPoint_anyVariable (escapes : Bool) (c : Cursor) :
    ¬(anyVariable escapes c).stop.MeetsPoint := by
  unfold anyVariable
  simp only
  split
  · rename_i name hname
    rw [named_stop]
    exact not_meetsPoint_variableName? hname
  · rename_i hnone
    split
    · exact not_meetsPoint_systemVariable escapes c
    · split
      · exact not_meetsPoint_of_unnamed hnone
      · exact not_meetsPoint_of_unnamed hnone

end Lexeme

/-! ## Steps -/

/-- Whether a token that a step finds is of a kind that may end with a point, if it ends where a
name meets one. -/
def Outcome.KeepsPoint : Outcome → Prop
  | token t next _ => next.MeetsPoint → t.kind ∈ TokenKind.pointed
  | trivia _ _ => True

/-- A step that finds a lexeme keeps to the rule if the lexeme does not end there. -/
theorem Outcome.ofLexeme_keepsPoint {l : Lexeme} (s : State) (c : Cursor)
    (h : ¬l.stop.MeetsPoint) : (ofLexeme c s l).KeepsPoint :=
  Lexeme.keepsPoint_of_stop h

namespace Comment

variable {c : Cursor} (s : State)

/-- A comment that is a token goes up to the end. -/
theorem block_keepsPoint (c inside : Cursor) : (block s c inside).KeepsPoint := by
  unfold block
  split
  · trivial
  · exact Outcome.ofLexeme_keepsPoint s c (Cursor.not_meetsPoint_of_atEnd (atEnd_toEnd inside))

/-- A comment for the optimizer ends with its slash. -/
theorem hint_keepsPoint (c inside : Cursor) : (hint s c inside).KeepsPoint := by
  unfold hint
  split
  · split
    · rename_i stop hstop
      obtain ⟨hreach, body, -, hup⟩ := closing?_sound hstop
      have hlast : stop.before? = some 0x2F := by
        rw [hreach.before?_eq (by rw [hup]; simp), hup,
          List.getLast?_append_of_ne_nil _ (List.cons_ne_nil _ _)]
        rfl
      rintro ⟨hbefore, -⟩
      rw [hlast] at hbefore
      cases hbefore
    · exact Outcome.ofLexeme_keepsPoint s c (Cursor.not_meetsPoint_of_atEnd (atEnd_toEnd inside))
  · exact block_keepsPoint _ c inside

/-- What starts with a slash keeps to the rule. -/
theorem slash_keepsPoint (hc : c.rune.is '.' = false) : (slash s c).KeepsPoint := by
  unfold slash gated
  simp only
  repeat' split
  · exact Outcome.ofLexeme_keepsPoint s c (Cursor.not_meetsPoint_advance hc)
  · trivial
  · trivial
  · exact block_keepsPoint s c _
  · trivial
  · exact hint_keepsPoint s c _
  · exact block_keepsPoint s c _

/-- What starts with a star keeps to the rule. -/
theorem star_keepsPoint (hc : c.rune.is '.' = false) : (star s c).KeepsPoint := by
  unfold star
  simp only
  split
  · trivial
  · exact Outcome.ofLexeme_keepsPoint _ c (Cursor.not_meetsPoint_advance hc)

/-- What starts with a dash keeps to the rule. -/
theorem dash_keepsPoint (hc : c.rune.is '.' = false) : (dash s c).KeepsPoint := by
  have harrow {d : Cursor} (h : d.rune.is '>' = true) : ¬d.advance.MeetsPoint :=
    Cursor.not_meetsPoint_advance (Rune.is_eq_false (p := (·.is '>')) h '.' (by decide))
  unfold dash
  simp only
  split
  · trivial
  · split
    · rename_i h
      rw [Bool.and_eq_true] at h
      exact Outcome.ofLexeme_keepsPoint s c (harrow h.2)
    · split
      · rename_i h
        exact Outcome.ofLexeme_keepsPoint s c (harrow h)
      · exact Outcome.ofLexeme_keepsPoint s c (Cursor.not_meetsPoint_advance hc)

end Comment

/-- What the form of a starter gives keeps to the rule, if the byte there opens it. -/
theorem Starter.outcome_keepsPoint (config : Config) (s : State) {starter : Starter} {b : UInt8}
    {c : Cursor} (hb : c.ahead.head? = some b) (hopens : ofByte? b = some starter) :
    (starter.outcome config s c).KeepsPoint := by
  have hpoint (hne : starter ≠ .dot) : c.rune.is '.' = false := by
    rw [Bool.eq_false_iff, Ne, Cursor.rune_is_iff (by decide), hb, Option.some.injEq]
    rintro rfl
    exact hne (Option.some.inj hopens).symm
  cases starter with
  | slash => exact Comment.slash_keepsPoint s (hpoint (by decide))
  | star => exact Comment.star_keepsPoint s (hpoint (by decide))
  | sharp => trivial
  | dash => exact Comment.dash_keepsPoint s (hpoint (by decide))
  | «at» => exact Outcome.ofLexeme_keepsPoint s c (Lexeme.not_meetsPoint_anyVariable _ c)
  | dot => exact Lexeme.dot_keepsPoint _ c
  | number => exact Lexeme.number_keepsPoint _ c
  | string =>
    exact Outcome.ofLexeme_keepsPoint s c
      (Lexeme.not_meetsPoint_quoted _ _ _ (hpoint (by decide)))
  | quotedIdentifier =>
    exact Outcome.ofLexeme_keepsPoint s c
      (Lexeme.not_meetsPoint_quoted _ _ _ (hpoint (by decide)))
  | hexMark =>
    exact Outcome.ofLexeme_keepsPoint s c (Lexeme.not_meetsPoint_quotedDigits _ _ (by decide) c)
  | bitMark =>
    exact Outcome.ofLexeme_keepsPoint s c (Lexeme.not_meetsPoint_quotedDigits _ _ (by decide) c)
  | nationalMark => exact Outcome.ofLexeme_keepsPoint s c (Lexeme.not_meetsPoint_national c)
  | identifier => exact Outcome.ofLexeme_keepsPoint s c (Lexeme.not_meetsPoint_word c)

/-- No operator of the vocabulary has a point. -/
theorem Vocabulary.point_not_mem_operators :
    ∀ e ∈ Table.operators standard, 0x2E ∉ e.bytes := by
  decide +kernel

/-- A walk that reads an operator, or the beginning of one, does not end with a point. -/
theorem Table.not_meetsPoint_walk {c stop : Cursor} {kind : TokenKind}
    (h : standard.walk c = (.fixed kind, stop)) : ¬stop.MeetsPoint := by
  have hstart := starter_of_fixed h
  obtain ⟨stop', hreach, hdeep, hwalk⟩ := walk_deepest Vocabulary.standard hstart
  rw [← Table.standard, h] at hwalk
  split at hwalk
  · cases hwalk
  · rename_i hne
    cases hwalk
    -- What has been read is the beginning of an operator, and so are its bytes.
    obtain ⟨-, e, he, hbegins⟩ := (leads_iff_begins hstart hne hdeep.next).mp hdeep.leads
    rintro ⟨hbefore, -⟩
    rw [hreach.before?_eq hne] at hbefore
    exact Vocabulary.point_not_mem_operators e he
      (hbegins.subset (List.mem_of_getLast? hbefore))

/-- A step that finds a token where a name meets a point keeps to the rule. -/
theorem stepAt_keepsPoint (config : Config) (s : State) (c : Cursor) :
    (stepAt .standard config s c).KeepsPoint := by
  unfold stepAt
  simp only
  split
  · trivial
  · split
    · exact Outcome.ofLexeme_keepsPoint s c (Lexeme.not_meetsPoint_word c)
    · split
      · rename_i hinvalid
        exact Outcome.ofLexeme_keepsPoint s c (Cursor.not_meetsPoint_advance
          (Rune.is_eq_false hinvalid '.' (by decide)))
      · split
        · rename_i starter stop hwalk
          obtain ⟨b, hb, hopens⟩ := Table.opens_of_walk hwalk
          exact Starter.outcome_keepsPoint config s hb hopens
        · rename_i kind stop hwalk
          refine Outcome.ofLexeme_keepsPoint s c ?_
          rw [Lexeme.operator_stop]
          exact Table.not_meetsPoint_walk hwalk
        · rename_i stop hwalk
          refine Outcome.ofLexeme_keepsPoint s c (Cursor.not_meetsPoint_advance ?_)
          -- With a point a walk would find its form.
          rw [Bool.eq_false_iff, Ne, Cursor.rune_is_iff (by decide)]
          intro hhead
          rw [Table.standard, Table.walk_of_starter hhead (s := .dot) (by decide)] at hwalk
          cases hwalk

end SqlTokens
