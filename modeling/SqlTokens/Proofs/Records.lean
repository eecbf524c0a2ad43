import SqlTokens.Proofs.Steps

/-!
# What is recorded while a token is read

A step adds to the diagnoses and takes nothing away. The error of a lexeme makes the lexeme
malformed and stands among the bytes that it spans, and it says that a form is not closed only where
the lexeme goes up to the end of the source (`Lexeme.Sound`). A warning and a hint stand where the
comment starts (`State.Grows`). What a whole search for a token records (`Recorded`) follows from
that: at most one error, since every step but the last is a comment, and comments that are skipped
have none.
-/

namespace SqlTokens

/-- Whether an error is about a form that is not closed. -/
def ScanErrorKind.isUnterminated : ScanErrorKind → Bool
  | .unterminatedString | .unterminatedQuotedIdentifier | .unterminatedComment => true
  | _ => false

namespace Lexeme

/-! ## Errors of lexemes -/

/-- Whether an error is in its place in a lexeme: the lexeme is malformed, the error stands between
two runes of it, and the lexeme goes up to the end if the error is about a form that is not closed.
-/
structure Holds (l : Lexeme) (c : Cursor) (error : ScanError) : Prop where
  /-- The lexeme is malformed. -/
  kind_eq : l.kind = .invalid
  /-- The error stands before the end of the lexeme. -/
  place : ∃ d, c.Reaches d ∧ error.pos = d.pos ∧ d.offset < l.stop.offset
  /-- A form that is not closed goes up to the end. -/
  unclosed : error.kind.isUnterminated = true → l.stop.atEnd = true

/-- Whether the error of a lexeme, if it has one, is in its place. -/
def Sound (l : Lexeme) (c : Cursor) : Prop := ∀ error, l.fault = some error → l.Holds c error

/-- A lexeme without error has none out of its place. -/
theorem sound_of_none {l : Lexeme} (h : l.fault = none) (c : Cursor) : l.Sound c := by
  intro error herror
  rw [h] at herror
  cases herror

/-- A malformed lexeme that is not empty has its error in its place, if it goes up to the end where
it has to. -/
theorem broken_sound {error : ScanErrorKind} {c stop : Cursor} (hc : c.atEnd = false)
    (hstop : c.advance.Reaches stop) (hend : error.isUnterminated = true → stop.atEnd = true) :
    (broken error c stop).Sound c := by
  intro e he
  obtain rfl := Option.some.inj he
  have hlt := Nat.lt_of_lt_of_le (Cursor.offset_lt_advance hc) hstop.offset_le
  exact ⟨rfl, ⟨c, .refl c, rfl, hlt⟩, hend⟩

/-- A name or introducer has no error. -/
theorem national_fault (c : Cursor) : (national c).fault = none := by
  unfold national
  simp only
  split
  · rfl
  · rfl

/-- A literal with a leading zero has no error. -/
theorem radix_fault (kind : TokenKind) (digit : Rune → Bool) (c : Cursor) :
    (radix kind digit c).fault = none := by
  unfold radix
  simp only
  split
  · rfl
  · rfl

/-- Neither reading of a form that may be a number has an error, if the second has none. -/
theorem getD_scaled?_fault {c digits : Cursor} {l : Lexeme} (hl : l.fault = none) :
    ((scaled? c digits).getD l).fault = none := by
  rcases h : scaled? c digits with _ | m
  · exact hl
  · obtain ⟨kind, stop, rfl, -, -⟩ := scaled?_eq h
    rfl

/-- A form that starts with a digit has no error. -/
theorem number_fault (afterNameDot : Bool) (c : Cursor) : (number afterNameDot c).fault = none := by
  unfold number
  simp only
  repeat' split
  · rfl
  · exact radix_fault _ _ c
  · exact radix_fault _ _ c
  · exact getD_scaled?_fault rfl
  · exact getD_scaled?_fault rfl
  · rfl
  · rfl

/-- The error of a literal in quotes is in its place. -/
theorem quotedDigits_sound (kind : TokenKind) {error : ScanErrorKind}
    (herror : error.isUnterminated = false) (digit : Rune → Bool) {c : Cursor}
    (hc : c.atEnd = false) : (quotedDigits kind error digit c).Sound c := by
  unfold quotedDigits
  simp only
  repeat' split
  · exact sound_of_none rfl c
  · exact sound_of_none rfl c
  · refine broken_sound hc ((Cursor.Reaches.refl _).advance.skipWhile _) fun h => ?_
    rw [herror] at h
    cases h

/-- The error of a quoted form is in its place. -/
theorem quoted_sound (kind : TokenKind) (error : ScanErrorKind) (escapes : Bool) {c : Cursor}
    (hc : c.atEnd = false) : (quoted kind error escapes c).Sound c := by
  have hstop := enclosed_reaches c.rune escapes c.advance
  have hend := @enclosed_atEnd c.rune escapes c.advance
  rw [quoted]
  rcases he : enclosed c.rune escapes c.advance with ⟨_ | text, stop⟩ <;> rw [he] at hstop hend
  · exact broken_sound hc hstop fun _ => hend rfl
  · exact sound_of_none rfl c

/-- The error of a name of a variable is in its place. -/
theorem variableName?_sound {escapes : Bool} {c : Cursor} {name : Lexeme}
    (h : variableName? escapes c = some name) : name.Sound c := by
  unfold variableName? at h
  split at h
  · rename_i hquote
    obtain rfl := Option.some.inj h
    rw [Rune.isQuote, Bool.or_eq_true] at hquote
    refine quoted_sound _ _ _ ?_
    rcases hquote with hr | hr
    · exact Cursor.atEnd_eq_false_of_is hr
    · exact Cursor.atEnd_eq_false_of_is hr
  · split at h
    · rename_i hquote
      obtain rfl := Option.some.inj h
      exact quoted_sound _ _ _ (Cursor.atEnd_eq_false_of_is hquote)
    · split at h
      · obtain rfl := Option.some.inj h
        exact sound_of_none rfl c
      · cases h

/-- The error that a variable takes over from its name is in its place. -/
theorem named_sound {kind : TokenKind} {c d : Cursor} (front : Bytes) {name : Lexeme}
    (hd : c.Reaches d) (h : name.Sound d) : (named kind c front name).Sound c := by
  unfold named
  split
  · -- The error of the name is taken over as it is, only the start of the token lies further back.
    intro error herror
    obtain ⟨-, ⟨e, hreach, hpos, hlt⟩, hend⟩ := h error herror
    exact ⟨rfl, ⟨e, hd.trans hreach, hpos, hlt⟩, hend⟩
  · exact sound_of_none rfl c

/-- The error of a variable is in its place. -/
theorem anyVariable_sound (escapes : Bool) (c : Cursor) : (anyVariable escapes c).Sound c := by
  unfold anyVariable
  simp only
  split
  · rename_i name hname
    exact named_sound [] (.next c) (variableName?_sound hname)
  · split
    · unfold systemVariable
      simp only
      split
      · rename_i name hname
        exact named_sound _ ((Cursor.Reaches.next c).advance.advanceBy _)
          (variableName?_sound hname)
      · exact sound_of_none rfl c
    · split
      · exact sound_of_none rfl c
      · exact sound_of_none rfl c

/-- The error of an operator is in its place. -/
theorem operator_sound (kind : TokenKind) {c stop : Cursor} (hc : c.atEnd = false)
    (hstop : c.advance.Reaches stop) : (operator kind c stop).Sound c := by
  unfold operator
  split
  · exact broken_sound hc hstop fun h => by cases h
  · exact sound_of_none rfl c

end Lexeme

/-! ## What a step adds -/

/-- What a step at a cursor may add to a state: the error of its lexeme, warnings at the cursor, and
a hint there. -/
structure State.Grows (s s' : State) (c : Cursor) (fault : Option ScanError) : Prop where
  /-- The error of the lexeme comes behind the errors so far. -/
  errors_eq : s'.errors = s.errors ++ fault.toList
  /-- New warnings come behind the warnings so far. -/
  warnings : ∃ new, s'.warnings = s.warnings ++ new ∧ ∀ warning ∈ new, warning.pos = c.pos
  /-- A new hint stands at the cursor. -/
  hint : s'.hintAt = s.hintAt ∨ s'.hintAt = some c.pos

/-- A state to which only an error is added. -/
theorem State.grows_report {s s' : State} (c : Cursor) (fault : Option ScanError)
    (herrors : s'.errors = s.errors) (hwarnings : s'.warnings = s.warnings)
    (hhint : s'.hintAt = s.hintAt) : s.Grows (s'.report fault) c fault :=
  ⟨by rw [report, herrors], ⟨[], by rw [List.append_nil]; exact hwarnings, by simp⟩, .inl hhint⟩

/-- A state to which nothing is added. -/
theorem State.grows_none {s s' : State} (c : Cursor) (herrors : s'.errors = s.errors)
    (hwarnings : s'.warnings = s.warnings) (hhint : s'.hintAt = s.hintAt) : s.Grows s' c none :=
  ⟨by rw [herrors]; exact (List.append_nil _).symm,
    ⟨[], by rw [List.append_nil]; exact hwarnings, by simp⟩, .inl hhint⟩

/-- Whether an outcome at a cursor adds nothing to a state but what it may. -/
def Outcome.Records (o : Outcome) (s : State) (c : Cursor) : Prop :=
  match o with
  | .token t next s' => ∃ l : Lexeme, l.Sound c ∧ t = l.token c ∧ next = l.stop ∧
      s.Grows s' c l.fault
  | .trivia _ s' => s.Grows s' c none

/-- The outcome of a lexeme with its error in its place adds that error. -/
theorem Outcome.ofLexeme_records {s s' : State} {c : Cursor} {l : Lexeme} (h : l.Sound c)
    (herrors : s'.errors = s.errors) (hwarnings : s'.warnings = s.warnings)
    (hhint : s'.hintAt = s.hintAt) : (ofLexeme c s' l).Records s c :=
  ⟨l, h, rfl, rfl, State.grows_report c l.fault herrors hwarnings hhint⟩

namespace Comment

variable {s : State} {c : Cursor}

/-- The end of the source is where a search for it ends. -/
theorem atEnd_toEnd (c : Cursor) : c.toEnd.atEnd = true := by
  rcases Cursor.skipWhile_stops (fun _ => true) c with h | h
  · exact h
  · cases h

/-- A comment that is not closed goes up to the end. -/
theorem unclosed_sound {inside : Cursor} (hc : c.atEnd = false)
    (hreach : c.advance.Reaches inside) :
    (Lexeme.broken .unterminatedComment c inside.toEnd).Sound c :=
  Lexeme.broken_sound hc (hreach.skipWhile _) fun _ => atEnd_toEnd inside

/-- A comment adds an error if it is not closed; a warning may have been added before. -/
theorem block_records {s' : State} {inside : Cursor} (hc : c.atEnd = false)
    (hreach : c.advance.Reaches inside) (hgrows : s.Grows s' c none) :
    (block s' c inside).Records s c := by
  unfold block
  split
  · exact hgrows
  · -- A warning from before has left the errors as they were.
    have herrors : s'.errors = s.errors := by rw [hgrows.errors_eq]; exact List.append_nil _
    refine ⟨_, unclosed_sound hc hreach, rfl, rfl, ?_, hgrows.warnings, hgrows.hint⟩
    rw [State.report, herrors]

/-- A feature comment adds nothing but what a comment adds. -/
theorem gated_records {mark : Cursor} (hc : c.atEnd = false) (hreach : c.advance.Reaches mark) :
    (gated s c mark).Records s c := by
  unfold gated
  split
  · rename_i names behind hlist
    split
    · exact State.grows_none c rfl rfl rfl
    · exact block_records hc (hreach.trans (bracketed?_sound hlist).1)
        (State.grows_none c rfl rfl rfl)
  · exact State.grows_none c rfl rfl rfl

/-- A comment for the optimizer adds a hint, or a warning if it is out of place. -/
theorem hint_records {inside : Cursor} (hc : c.atEnd = false) (hreach : c.advance.Reaches inside) :
    (hint s c inside).Records s c := by
  unfold hint
  split
  · split
    · rename_i stop hclosing
      exact ⟨.whole .optimizerHint c stop, Lexeme.sound_of_none rfl c, rfl, rfl,
        (List.append_nil _).symm, ⟨[], (List.append_nil _).symm, by simp⟩, .inr rfl⟩
    · exact Outcome.ofLexeme_records (unclosed_sound hc hreach) rfl rfl rfl
  · exact block_records hc hreach
      ⟨(List.append_nil _).symm, ⟨[⟨.ignoredOptimizerHint, c.pos⟩], rfl, by simp⟩, .inl rfl⟩

/-- What starts with a slash adds nothing but what it may. -/
theorem slash_records (hc : c.atEnd = false) : (slash s c).Records s c := by
  have hinside : c.advance.Reaches c.advance.advance := .next _
  unfold slash
  simp only
  repeat' split
  · exact Outcome.ofLexeme_records (Lexeme.sound_of_none rfl c) rfl rfl rfl
  · exact State.grows_none c rfl rfl rfl
  · exact gated_records hc hinside.advance.advance
  · exact hint_records hc hinside
  · exact block_records hc hinside (State.grows_none c rfl rfl rfl)

/-- What starts with a star adds nothing. -/
theorem star_records : (star s c).Records s c := by
  unfold star
  simp only
  split
  · exact State.grows_none c rfl rfl rfl
  · exact Outcome.ofLexeme_records (Lexeme.sound_of_none rfl c) rfl rfl rfl

/-- What starts with a dash adds nothing. -/
theorem dash_records : (dash s c).Records s c := by
  unfold dash
  simp only
  repeat' split
  · exact State.grows_none c rfl rfl rfl
  all_goals exact Outcome.ofLexeme_records (Lexeme.sound_of_none rfl c) rfl rfl rfl

end Comment

/-- The form of a starter adds nothing but what it may. -/
theorem Starter.outcome_records (starter : Starter) (config : Config) (s : State) {c : Cursor}
    (hc : c.atEnd = false) : (starter.outcome config s c).Records s c := by
  have hlexeme (l : Lexeme) (h : l.Sound c) : (Outcome.ofLexeme c s l).Records s c :=
    Outcome.ofLexeme_records h rfl rfl rfl
  cases starter with
  | slash => exact Comment.slash_records hc
  | star => exact Comment.star_records
  | sharp => exact State.grows_none c rfl rfl rfl
  | dash => exact Comment.dash_records
  | «at» => exact hlexeme _ (Lexeme.anyVariable_sound _ c)
  | dot => exact hlexeme _ (Lexeme.sound_of_none (Lexeme.dot_fault _ c) c)
  | number => exact hlexeme _ (Lexeme.sound_of_none (Lexeme.number_fault _ c) c)
  | string => exact hlexeme _ (Lexeme.quoted_sound _ _ _ hc)
  | quotedIdentifier => exact hlexeme _ (Lexeme.quoted_sound _ _ _ hc)
  | hexMark => exact hlexeme _ (Lexeme.quotedDigits_sound _ rfl _ hc)
  | bitMark => exact hlexeme _ (Lexeme.quotedDigits_sound _ rfl _ hc)
  | nationalMark => exact hlexeme _ (Lexeme.sound_of_none (Lexeme.national_fault c) c)
  | identifier => exact hlexeme _ (Lexeme.sound_of_none rfl c)

/-- A step from a cursor behind blanks adds nothing but what it may. -/
theorem stepAt_records (table : Table) (config : Config) (s : State) {c : Cursor}
    (hc : c.atEnd = false) : (stepAt table config s c).Records s c := by
  have hlexeme (l : Lexeme) (h : l.Sound c) : (Outcome.ofLexeme c s l).Records s c :=
    Outcome.ofLexeme_records h rfl rfl rfl
  unfold stepAt
  simp only
  split
  · exact State.grows_none c rfl rfl rfl
  · split
    · exact hlexeme _ (Lexeme.sound_of_none rfl c)
    · split
      · exact hlexeme _ (Lexeme.broken_sound hc (.refl _) fun h => by cases h)
      · split
        · exact Starter.outcome_records _ config s hc
        · rename_i kind stop hwalk
          exact hlexeme _ (Lexeme.operator_sound kind hc (Table.walk_reaches hwalk))
        · exact hlexeme _ (Lexeme.broken_sound hc (.refl _) fun h => by cases h)

/-! ## What a search adds -/

/-- What a search for a token from a cursor records: the token starts at a place that the search
comes to, an error belongs to the token, and the warnings and the hint stand at such places too. -/
structure Recorded (s : State) (c : Cursor) (t : Token) (next : Cursor) (s' : State) : Prop where
  /-- The token starts where the search comes to. -/
  token : ∃ d, c.Reaches d ∧ t.pos = d.pos
  /-- At most one error is added. It makes the token malformed and stands within it, and the token
  goes up to the end if the error is about a form that is not closed. -/
  errors : s'.errors = s.errors ∨ ∃ error, s'.errors = s.errors ++ [error] ∧ t.kind = .invalid ∧
    (∃ d, c.Reaches d ∧ error.pos = d.pos) ∧ t.pos.offset ≤ error.pos.offset ∧
    error.pos.offset < next.offset ∧ (error.kind.isUnterminated = true → next.atEnd = true)
  /-- The warnings that are added stand where the search comes to. -/
  warnings : ∃ new, s'.warnings = s.warnings ++ new ∧
    ∀ warning ∈ new, ∃ d, c.Reaches d ∧ warning.pos = d.pos
  /-- A new hint stands where the search comes to. -/
  hint : s'.hintAt = s.hintAt ∨ ∃ d, c.Reaches d ∧ s'.hintAt = some d.pos

namespace Recorded

variable {s s' : State} {c next : Cursor} {t : Token}

/-- A search that ends with a lexeme records what its last step adds. -/
theorem of_lexeme {first : Cursor} {l : Lexeme} (hreach : c.Reaches first) (hsound : l.Sound first)
    (hgrows : s.Grows s' first l.fault) : Recorded s c (l.token first) l.stop s' := by
  obtain ⟨herrors, ⟨new, hnew, hplace⟩, hhint⟩ := hgrows
  refine ⟨⟨first, hreach, rfl⟩, ?_, ⟨new, hnew, fun w hw => ⟨first, hreach, hplace w hw⟩⟩, ?_⟩
  · rcases hfault : l.fault with _ | error
    · left
      rw [herrors, hfault]
      exact List.append_nil _
    · right
      obtain ⟨hkind, ⟨d, hd, hpos, hlt⟩, hend⟩ := hsound error hfault
      refine ⟨error, by rw [herrors, hfault]; rfl, hkind, ⟨d, hreach.trans hd, hpos⟩, ?_, ?_, hend⟩
      · rw [hpos]
        exact hd.offset_le
      · rw [hpos]
        exact hlt
  · exact hhint.imp_right fun h => ⟨first, hreach, h⟩

/-- What a search records behind a comment is recorded by the search that starts before it. -/
theorem of_trivia {s'' : State} {d first : Cursor} (hfirst : d.Reaches first) (hd : d.Reaches c)
    (hgrows : s''.Grows s first none) (h : Recorded s c t next s') : Recorded s'' d t next s' := by
  obtain ⟨herrors, ⟨new, hnew, hplace⟩, hhint⟩ := hgrows
  obtain ⟨⟨e, he, hpos⟩, hadds, ⟨more, hmore, hplaces⟩, hhint'⟩ := h
  have hsame : s.errors = s''.errors := by rw [herrors]; exact List.append_nil _
  refine ⟨⟨e, hd.trans he, hpos⟩, ?_, ⟨new ++ more, ?_, ?_⟩, ?_⟩
  · -- The comment has added no error, so the one that is added is the one of the later search.
    rw [← hsame]
    refine hadds.imp_right ?_
    rintro ⟨error, heq, hkind, ⟨f, hf, hposf⟩, hrest⟩
    exact ⟨error, heq, hkind, ⟨f, hd.trans hf, hposf⟩, hrest⟩
  · rw [hmore, hnew, List.append_assoc]
  · intro w hw
    rcases List.mem_append.mp hw with hw | hw
    · exact ⟨first, hfirst, hplace w hw⟩
    · obtain ⟨f, hf, hposf⟩ := hplaces w hw
      exact ⟨f, hd.trans hf, hposf⟩
  · -- A later hint takes the place of an earlier one.
    rcases hhint' with hold | ⟨f, hf, hnewer⟩
    · rw [hold]
      exact hhint.imp_right fun h => ⟨first, hfirst, h⟩
    · exact .inr ⟨f, hd.trans hf, hnewer⟩

/-- What is noted about a token, apart from diagnoses and hints, does not change what is recorded.
-/
theorem settled {s'' : State} (herrors : s''.errors = s'.errors)
    (hwarnings : s''.warnings = s'.warnings) (hhint : s''.hintAt = s'.hintAt)
    (h : Recorded s c t next s') : Recorded s c t next s'' := by
  obtain ⟨htoken, hadds, hwarns, hhints⟩ := h
  exact ⟨htoken, by rwa [herrors], by rwa [hwarnings], by rwa [hhint]⟩

end Recorded

/-- The search for the next token records what it may. -/
theorem nextToken_records (entries : List Entry) (config : Config) (s : State) (c : Cursor)
    (hc : c.offset ≤ c.source.length) :
    Recorded s c (nextToken (.ofEntries entries) config s c).1
      (nextToken (.ofEntries entries) config s c).2.1
      (nextToken (.ofEntries entries) config s c).2.2 := by
  have hblanks (c : Cursor) : c.Reaches (c.skipWhile Rune.isSpace) :=
    (Cursor.Reaches.refl c).skipWhile _
  fun_induction nextToken (.ofEntries entries) config s c with
  | case1 s c t next s' h =>
    unfold step at h
    simp only at h
    split at h
    · -- Behind the blanks is the end of the source.
      simp only [Outcome.token.injEq] at h
      obtain ⟨rfl, rfl, rfl⟩ := h
      exact ⟨⟨_, hblanks c, rfl⟩, .inl rfl, ⟨[], (List.append_nil _).symm, by simp⟩, .inl rfl⟩
    · rename_i hend
      have hrecords := stepAt_records (.ofEntries entries) config s (Bool.eq_false_iff.mpr hend)
      rw [h] at hrecords
      obtain ⟨l, hsound, rfl, rfl, hgrows⟩ := hrecords
      exact .of_lexeme (hblanks c) hsound hgrows
  | case2 s c next s' h ih =>
    unfold step at h
    simp only at h
    split at h
    · cases h
    · -- The comment behind the blanks may have added a warning.
      rename_i hend
      have hfirst := (hblanks c).le_length hc
      have hyields := stepAt_yields entries config s hfirst
      have hrecords := stepAt_records (.ofEntries entries) config s (Bool.eq_false_iff.mpr hend)
      rw [h] at hyields hrecords
      have hall := (hblanks c).trans hyields.1.reaches
      exact (ih (hall.le_length hc)).of_trivia (hblanks c) hall hrecords

end SqlTokens
