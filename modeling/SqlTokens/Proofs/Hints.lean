import SqlTokens.Proofs.Readings

/-!
# Hints for the optimizer

A comment that starts with `/*+` is a token behind the words that take hints, and a comment
everywhere else. Which of the two it is goes by the last three tokens, as the words that they are
where they stand (`Scanner.wordOf`), whatever lies between them and the comment. `lexes_hints` says
this of every reading of a source: what the history holds, which of the comments that the next
reading comes to is a token, which of them leave a warning, and when the place of the last hint
changes.
-/

namespace SqlTokens

/-- Whether the last token is one of the five words behind which a comment may speak to the
optimizer. -/
def Recent.TakesHints (r : Recent) : Prop :=
  r.latest ∈ [.selectWord, .insertWord, .updateWord, .deleteWord, .replaceWord]

/-- Whether a comment for the optimizer is honoured behind the last three tokens. -/
def Recent.Honours (r : Recent) : Prop :=
  r.TakesHints ∧ (r.second ≠ .forWord ∨ r.third = .bindingWord)

/-- Whether a comment for the optimizer behind the last three tokens is out of place. -/
def Recent.Ignores (r : Recent) : Prop :=
  r.TakesHints ∧ r.second = .forWord ∧ r.third ≠ .bindingWord

instance (r : Recent) : Decidable r.TakesHints := inferInstanceAs (Decidable (_ ∈ _))

instance (r : Recent) : Decidable r.Honours := inferInstanceAs (Decidable (_ ∧ _))

instance (r : Recent) : Decidable r.Ignores := inferInstanceAs (Decidable (_ ∧ _ ∧ _))

namespace Comment

/-- Whether a text is the comment that stands ahead: what lies between its opening and its end has
no other end in it. -/
def Closed (text ahead : Bytes) : Prop :=
  ∃ body, Trivia.IsInside body ∧ text = [0x2F, 0x2A] ++ body ++ [0x2A, 0x2F] ∧ text <+: ahead

/-- The warning about a comment for the optimizer at a cursor, if it is out of place there. -/
def noted (r : Recent) (c : Cursor) : List ScanWarning :=
  if hintMark <+: c.ahead ∧ r.Ignores then [⟨.ignoredOptimizerHint, c.pos⟩] else []

/-- The warnings about comments that are out of place. -/
theorem flatMap_noted (r : Recent) (ds : List Cursor) :
    ds.flatMap (noted r) = if r.Ignores then
      (ds.filter fun d => hintMark <+: d.ahead).map fun d => ⟨.ignoredOptimizerHint, d.pos⟩
    else [] := by
  split
  · rename_i hplace
    induction ds with
    | nil => rfl
    | cons d ds ih =>
      rw [List.flatMap_cons, ih, noted, List.filter_cons]
      by_cases hmark : hintMark <+: d.ahead
      · rw [if_pos ⟨hmark, hplace⟩, if_pos (by simpa using hmark), List.map_cons]
        rfl
      · rw [if_neg fun hboth => hmark hboth.1, if_neg (by simpa using hmark), List.nil_append]
  · rename_i hplace
    refine List.flatMap_eq_nil_iff.mpr fun d _ => ?_
    exact if_neg fun hboth => hplace hboth.2

/-- The end that the search finds closes the comment. -/
theorem closed_of_closing? {c inside stop : Cursor} (hreach : c.Reaches inside)
    (hopen : c.upTo inside = [0x2F, 0x2A]) (h : closing? inside = some stop) :
    Closed (c.upTo stop) c.ahead := by
  obtain ⟨hstop, body, hbody, htext⟩ := closing?_sound h
  refine ⟨body, hbody, ?_, List.take_prefix _ _⟩
  rw [hreach.upTo_trans hstop, hopen, htext, List.append_assoc]

/-- Where the search finds no end, no comment is closed. -/
theorem not_closed_of_closing? {c inside : Cursor} (hreach : c.Reaches inside)
    (hopen : c.upTo inside = [0x2F, 0x2A]) (h : closing? inside = none) (text : Bytes) :
    ¬Closed text c.ahead := by
  rintro ⟨body, -, rfl, rest, hrest⟩
  refine closing?_complete h ⟨body, rest, ?_⟩
  rw [hreach.ahead_eq, hopen, List.append_assoc, List.append_assoc] at hrest
  rw [← List.append_cancel_left hrest, List.append_assoc]

end Comment

/-! ## What a step does about hints -/

/-- A state with the same history and the same last hint, and with the given new warnings. -/
structure State.Keeps (s s' : State) (new : List ScanWarning) : Prop where
  /-- The history is the same. -/
  recent_eq : s'.recent = s.recent
  /-- The last hint is the same. -/
  hintAt_eq : s'.hintAt = s.hintAt
  /-- The new warnings come behind the warnings so far. -/
  warnings_eq : s'.warnings = s.warnings ++ new

/-- A state that differs from another neither in the history nor in the hints keeps both. -/
theorem State.keeps_none {s s' : State} (hrecent : s'.recent = s.recent)
    (hhint : s'.hintAt = s.hintAt) (hwarnings : s'.warnings = s.warnings) : s.Keeps s' [] :=
  ⟨hrecent, hhint, by rw [hwarnings, List.append_nil]⟩

/-- What the outcome of a step at a cursor says about hints. -/
inductive Outcome.Heeds (s : State) (c : Cursor) : Outcome → Prop where
  /-- A comment for the optimizer is honoured. -/
  | hint {text : Bytes} {next : Cursor} {s' : State} :
      Comment.hintMark <+: c.ahead → s.recent.Honours → Comment.Closed text c.ahead →
      s'.recent = s.recent → s'.warnings = s.warnings → s'.hintAt = some c.pos →
      Heeds s c (.token ⟨.optimizerHint, c.pos, text⟩ next s')
  /-- A comment for the optimizer would be honoured, but is not closed. -/
  | unclosed {t : Token} {next : Cursor} {s' : State} :
      Comment.hintMark <+: c.ahead → s.recent.Honours → (∀ text, ¬Comment.Closed text c.ahead) →
      t.kind = .invalid → t.pos = c.pos → s.Keeps s' [] → Heeds s c (.token t next s')
  /-- There is another token. -/
  | token {t : Token} {next : Cursor} {s' : State} :
      ¬(Comment.hintMark <+: c.ahead ∧ s.recent.Honours) → t.kind ≠ .optimizerHint →
      s.Keeps s' (Comment.noted s.recent c) → Heeds s c (.token t next s')
  /-- There is no token. -/
  | trivia {next : Cursor} {s' : State} :
      ¬(Comment.hintMark <+: c.ahead ∧ s.recent.Honours) →
      s.Keeps s' (Comment.noted s.recent c) → Heeds s c (.trivia next s')

/-- Whether an outcome is no hint and leaves the history and the hints as they are. -/
def Outcome.Heedless (s : State) : Outcome → Prop
  | .token t _ s' => t.kind ≠ .optimizerHint ∧ s.Keeps s' []
  | .trivia _ s' => s.Keeps s' []

namespace Outcome

variable {s : State} {c : Cursor}

/-- The outcome of a lexeme of another kind is heedless. -/
theorem ofLexeme_heedless {s' : State} {l : Lexeme} (hkind : l.kind ≠ .optimizerHint)
    (hkeeps : s.Keeps s' []) : (ofLexeme c s' l).Heedless s :=
  ⟨hkind, hkeeps.recent_eq, hkeeps.hintAt_eq, hkeeps.warnings_eq⟩

/-- A heedless outcome says what it should where no comment for the optimizer stands. -/
theorem Heedless.heeds {o : Outcome} (h : o.Heedless s) (hplain : ¬Comment.hintMark <+: c.ahead) :
    o.Heeds s c := by
  have hnoted : Comment.noted s.recent c = [] := if_neg fun hboth => hplain hboth.1
  have hnot : ¬(Comment.hintMark <+: c.ahead ∧ s.recent.Honours) := fun hboth => hplain hboth.1
  rcases o with ⟨t, next, s'⟩ | ⟨next, s'⟩
  · exact .token hnot h.1 (by rw [hnoted]; exact h.2)
  · exact .trivia hnot (by rw [hnoted]; exact h)

end Outcome

namespace Comment

variable {s : State} {c : Cursor}

/-- The runes of the mark of a comment for the optimizer. -/
theorem runes_of_hintMark (h : hintMark <+: c.ahead) :
    c.ahead.head? = some 0x2F ∧ c.advance.rune.is '*' = true ∧
      c.advance.advance.rune.is '+' = true ∧ c.upTo c.advance.advance = [0x2F, 0x2A] := by
  obtain ⟨rest, hrest⟩ := h
  obtain ⟨hone, hstar⟩ := Cursor.advance_of_ahead (by decide) hrest.symm
  obtain ⟨htwo, hplus⟩ := Cursor.advance_of_ahead (by decide) hstar
  refine ⟨?_, (Cursor.rune_is_iff (by decide)).mpr ?_, (Cursor.rune_is_iff (by decide)).mpr ?_, ?_⟩
  · rw [← hrest]
    rfl
  · rw [hstar]
    rfl
  · rw [hplus]
    rfl
  · rw [(Cursor.Reaches.next c).upTo_trans (.next _), hone, htwo]
    rfl

/-- What starts with the mark is a comment, which the history may make a hint. -/
theorem slash_of_hintMark (h : hintMark <+: c.ahead) :
    slash s c = if s.recent.TakesHints then hint s c c.advance.advance
      else block s c c.advance.advance := by
  obtain ⟨-, hstar, hplus, -⟩ := runes_of_hintMark h
  -- Behind the star a plus stands, and so none of the other marks.
  have hrune : c.advance.advance.rune = .ofChar '+' := Rune.is_iff.mp hplus
  have hbang : (Rune.ofChar '+').is '!' = false := by decide
  have hletter : (Rune.ofChar '+').is 'T' = false := by decide
  rw [hrune] at hplus
  unfold slash
  simp only [hstar, hrune, hbang, hletter, hplus, Bool.not_true, Bool.false_and, Bool.true_and,
    Bool.false_eq_true, if_false]
  exact if_congr TokenKind.isHintable_iff rfl rfl

/-- A comment that is no hint says what it should, if its warning has been given. -/
theorem block_heeds {s' : State} (inside : Cursor)
    (hnot : ¬(hintMark <+: c.ahead ∧ s.recent.Honours))
    (hkeeps : s.Keeps s' (noted s.recent c)) : (block s' c inside).Heeds s c := by
  unfold block
  split
  · exact .trivia hnot hkeeps
  · exact .token hnot (show TokenKind.invalid ≠ .optimizerHint by decide)
      ⟨hkeeps.recent_eq, hkeeps.hintAt_eq, hkeeps.warnings_eq⟩

/-- A comment that the history makes a hint, or leaves with a warning, says what it should. -/
theorem hint_heeds (h : hintMark <+: c.ahead) (hlatest : s.recent.TakesHints) :
    (hint s c c.advance.advance).Heeds s c := by
  obtain ⟨-, -, -, hopen⟩ := runes_of_hintMark h
  have hreach : c.Reaches c.advance.advance := (Cursor.Reaches.next c).advance
  unfold hint
  split
  · rename_i hplace
    split
    · rename_i stop hclosing
      exact .hint h ⟨hlatest, hplace⟩ (closed_of_closing? hreach hopen hclosing) rfl rfl rfl
    · rename_i hclosing
      exact .unclosed h ⟨hlatest, hplace⟩ (not_closed_of_closing? hreach hopen hclosing) rfl rfl
        (State.keeps_none rfl rfl rfl)
  · rename_i hplace
    rw [not_or, not_ne_iff] at hplace
    refine block_heeds _ (fun hboth => ?_) ⟨rfl, rfl, ?_⟩
    · exact hboth.2.2.elim (fun hne => hne hplace.1) hplace.2
    · rw [noted, if_pos ⟨h, hlatest, hplace⟩]
      rfl

/-- What starts with a slash says what it should. -/
theorem slash_heeds (hslash : c.ahead.head? = some 0x2F) : (slash s c).Heeds s c := by
  by_cases h : hintMark <+: c.ahead
  · rw [slash_of_hintMark h]
    split
    · exact hint_heeds h ‹_›
    · rename_i hlatest
      refine block_heeds _ (fun hboth => hlatest hboth.2.1) ?_
      rw [noted, if_neg fun hboth => hlatest hboth.2.1]
      exact State.keeps_none rfl rfl rfl
  · -- Without the mark the history is not asked.
    have hnot : ¬(hintMark <+: c.ahead ∧ s.recent.Honours) := fun hboth => h hboth.1
    have hkeeps {s' : State} (hkeeps : s.Keeps s' []) : s.Keeps s' (noted s.recent c) := by
      rwa [noted, if_neg fun hboth => h hboth.1]
    unfold slash
    simp only
    split
    · exact (Outcome.ofLexeme_heedless (show TokenKind.ofChar '/' ≠ _ by decide)
        (State.keeps_none rfl rfl rfl)).heeds h
    · rename_i hstar
      split
      · exact .trivia hnot (hkeeps (State.keeps_none rfl rfl rfl))
      · split
        · unfold gated
          split
          · split
            · exact .trivia hnot (hkeeps (State.keeps_none rfl rfl rfl))
            · exact block_heeds _ hnot (hkeeps (State.keeps_none rfl rfl rfl))
          · exact .trivia hnot (hkeeps (State.keeps_none rfl rfl rfl))
        · split
          · rename_i hplus
            rw [Bool.and_eq_true] at hplus
            exact absurd (hintMark_isPrefix hslash (by simpa using hstar) hplus.1) h
          · exact block_heeds _ hnot (hkeeps (State.keeps_none rfl rfl rfl))

/-- What starts with a star is no hint. -/
theorem star_heedless : (star s c).Heedless s := by
  unfold star
  simp only
  split
  · exact State.keeps_none rfl rfl rfl
  · exact Outcome.ofLexeme_heedless (show TokenKind.ofChar '*' ≠ _ by decide)
      (State.keeps_none rfl rfl rfl)

/-- What starts with a dash is no hint. -/
theorem dash_heedless : (dash s c).Heedless s := by
  have hkeeps : s.Keeps s [] := State.keeps_none rfl rfl rfl
  unfold dash
  simp only
  repeat' split
  · exact hkeeps
  · exact Outcome.ofLexeme_heedless (show TokenKind.jsonUnquoteExtract ≠ _ by decide) hkeeps
  · exact Outcome.ofLexeme_heedless (show TokenKind.jsonExtract ≠ _ by decide) hkeeps
  · exact Outcome.ofLexeme_heedless (show TokenKind.ofChar '-' ≠ _ by decide) hkeeps

end Comment

section steps

variable (config : Config) (s : State) (c : Cursor)

/-- The forms that other bytes than a slash open are no hints. -/
theorem Starter.outcome_heedless {starter : Starter} (hne : starter ≠ .slash) :
    (starter.outcome config s c).Heedless s := by
  have hlexeme (l : Lexeme) (hkind : l.kind ∈ Lexeme.kinds) :
      (Outcome.ofLexeme c s l).Heedless s := by
    refine Outcome.ofLexeme_heedless (fun h => ?_) (State.keeps_none rfl rfl rfl)
    rw [h] at hkind
    exact absurd hkind (by decide)
  cases starter with
  | slash => exact absurd rfl hne
  | star => exact Comment.star_heedless
  | sharp => exact State.keeps_none rfl rfl rfl
  | dash => exact Comment.dash_heedless
  | «at» => exact hlexeme _ (Lexeme.variableKinds_subset (Lexeme.anyVariable_kind _ c))
  | dot =>
    rcases Lexeme.dot_kind s.afterNameDot c with hpoint | hkind
    · refine Outcome.ofLexeme_heedless ?_ (State.keeps_none rfl rfl rfl)
      rw [hpoint]
      decide
    · exact hlexeme _ hkind
  | number => exact hlexeme _ (Lexeme.number_kind _ c)
  | string => exact hlexeme _ (Lexeme.quoted_kind (by decide) _ _ c)
  | quotedIdentifier => exact hlexeme _ (Lexeme.quoted_kind (by decide) _ _ c)
  | hexMark => exact hlexeme _ (Lexeme.quotedDigits_kind (by decide) _ _ c)
  | bitMark => exact hlexeme _ (Lexeme.quotedDigits_kind (by decide) _ _ c)
  | nationalMark => exact hlexeme _ (Lexeme.national_kind c)
  | identifier => exact hlexeme _ (Lexeme.word_kind c)

/-- A step from a cursor behind blanks, where no slash stands, finds no hint. -/
theorem stepAt_heedless (hslash : c.ahead.head? ≠ some 0x2F) :
    (stepAt .standard config s c).Heedless s := by
  have hkeeps : s.Keeps s [] := State.keeps_none rfl rfl rfl
  have hinvalid : TokenKind.invalid ≠ .optimizerHint := by decide
  unfold stepAt
  simp only
  split
  · exact hkeeps
  · split
    · exact Outcome.ofLexeme_heedless (show TokenKind.identifier ≠ _ by decide) hkeeps
    · split
      · exact Outcome.ofLexeme_heedless hinvalid hkeeps
      · split
        · rename_i starter next hwalk
          obtain ⟨b, hb, hopens⟩ := Table.opens_of_walk hwalk
          refine Starter.outcome_heedless config s c ?_
          rintro rfl
          have hmark : (0x2F : UInt8) = b := (Starter.opens_of_ofByte? hopens).2.2
          exact hslash (by rw [hb, hmark])
        · rename_i kind stop hwalk
          refine Outcome.ofLexeme_heedless ?_ hkeeps
          unfold Lexeme.operator
          split
          · exact hinvalid
          · rename_i hkind
            obtain ⟨e, he, -, -, hentry⟩ := Table.entry_of_walk hwalk hkind
            rw [← hentry]
            exact Vocabulary.standard_ne (by decide) e he
        · exact Outcome.ofLexeme_heedless hinvalid hkeeps

/-- A step from a cursor behind blanks says what it should about hints. -/
theorem stepAt_heeds : (stepAt .standard config s c).Heeds s c := by
  by_cases hslash : c.ahead.head? = some 0x2F
  · rw [Table.standard, stepAt_of_starter _ config s hslash (show _ = some .slash by decide)]
    exact Comment.slash_heeds hslash
  · refine (stepAt_heedless config s c hslash).heeds fun hmark => hslash ?_
    exact (Comment.runes_of_hintMark hmark).1

end steps

/-! ## What a search does about hints -/

/-- The places where a search for the next token takes its steps, each behind blanks. -/
def places (table : Table) (config : Config) (s : State) (c : Cursor) : List Cursor :=
  match _h : step table config s c with
  | .token _ _ _ => [c.skipWhile Rune.isSpace]
  | .trivia next s => c.skipWhile Rune.isSpace :: places table config s next
termination_by c.remaining
decreasing_by exact step_reads_of_trivia _h

/-- A step that yields a token is the last. -/
theorem places_of_token {table : Table} {config : Config} {s s' : State} {c next : Cursor}
    {t : Token} (h : step table config s c = .token t next s') :
    places table config s c = [c.skipWhile Rune.isSpace] := by
  unfold places
  split
  · rfl
  · rename_i htrivia
    rw [h] at htrivia
    cases htrivia

/-- Behind a step that yields no token come those of the search that goes on. -/
theorem places_of_trivia {table : Table} {config : Config} {s s' : State} {c next : Cursor}
    (h : step table config s c = .trivia next s') :
    places table config s c = c.skipWhile Rune.isSpace :: places table config s' next := by
  conv => lhs; unfold places
  split
  · rename_i htoken
    rw [h] at htoken
    cases htoken
  · rename_i htrivia
    rw [h, Outcome.trivia.injEq] at htrivia
    obtain ⟨rfl, rfl⟩ := htrivia
    rfl

/-- The places of a search lie one behind another. -/
theorem places_ascend (table : Table) (config : Config) (s : State) (c : Cursor) :
    (places table config s c).Pairwise (fun d e => e.remaining < d.remaining) ∧
      ∀ d ∈ places table config s c, d.remaining ≤ c.remaining := by
  fun_induction places table config s c with
  | case1 s c t next s' h =>
    refine ⟨List.pairwise_singleton _ _, fun d hd => ?_⟩
    rw [List.mem_singleton.mp hd]
    exact Cursor.remaining_skipWhile_le _ c
  | case2 s c next s' h ih =>
    have hfirst := Cursor.remaining_skipWhile_le Rune.isSpace c
    -- The step reads on from behind the blanks.
    have hnext : next.remaining < (c.skipWhile Rune.isSpace).remaining := by
      unfold step at h
      simp only at h
      split at h
      · cases h
      · rename_i hend
        have hreads := stepAt_reads table config s (Bool.eq_false_iff.mpr hend)
        rw [h] at hreads
        exact hreads
    refine ⟨List.pairwise_cons.mpr ⟨fun e he => ?_, ih.1⟩, fun d hd => ?_⟩
    · exact Nat.lt_of_le_of_lt (ih.2 e he) hnext
    · rcases List.mem_cons.mp hd with rfl | hd
      · exact hfirst
      · exact Nat.le_trans (ih.2 d hd) (Nat.le_trans (Nat.le_of_lt hnext) hfirst)

/-- What a search that takes its steps at some places does about hints. -/
structure Heeded (s : State) (places : List Cursor) (t : Token) (s' : State) : Prop where
  /-- The history is the same. -/
  recent_eq : s'.recent = s.recent
  /-- Each comment for the optimizer that is out of place leaves a warning. -/
  warnings_eq : s'.warnings = s.warnings ++ places.flatMap (Comment.noted s.recent)
  /-- The last hint is the one that has been found, if one has been found. -/
  hintAt_eq : s'.hintAt = if t.kind = .optimizerHint then some t.pos else s.hintAt
  /-- A comment for the optimizer that is honoured is the token, which is malformed if the comment
  is not closed. -/
  honoured : ∀ d ∈ places, Comment.hintMark <+: d.ahead → s.recent.Honours →
    (∃ text, Comment.Closed text d.ahead ∧ t = ⟨.optimizerHint, d.pos, text⟩) ∨
      (∀ text, ¬Comment.Closed text d.ahead) ∧ t.kind = .invalid ∧ t.pos = d.pos
  /-- Nothing else is a hint. -/
  only : t.kind = .optimizerHint →
    s.recent.Honours ∧ ∃ d ∈ places, Comment.hintMark <+: d.ahead ∧ t.pos = d.pos

/-- A search whose last step yields a token does what the step says. -/
theorem Outcome.Heeds.heeded {s s' : State} {c next : Cursor} {t : Token}
    (h : (Outcome.token t next s').Heeds s c) : Heeded s [c] t s' := by
  have hinvalid : TokenKind.invalid ≠ .optimizerHint := by decide
  cases h with
  | hint hmark hplace hclosed hrecent hwarnings hhint =>
    -- Where a comment is honoured, it is not out of place.
    have hnoted : Comment.noted s.recent c = [] :=
      if_neg fun hboth => hplace.2.elim (fun hne => hne hboth.2.2.1) hboth.2.2.2
    refine ⟨hrecent, ?_, hhint, fun d hd _ _ => ?_, fun _ => ⟨hplace, c, ?_, hmark, rfl⟩⟩
    · rw [hwarnings, List.flatMap_singleton, hnoted, List.append_nil]
    · rw [List.mem_singleton.mp hd]
      exact .inl ⟨_, hclosed, rfl⟩
    · exact List.mem_singleton_self c
  | unclosed hmark hplace hopen hkind hpos hkeeps =>
    have hnoted : Comment.noted s.recent c = [] :=
      if_neg fun hboth => hplace.2.elim (fun hne => hne hboth.2.2.1) hboth.2.2.2
    have hnot : t.kind ≠ .optimizerHint := by rwa [hkind]
    refine ⟨hkeeps.recent_eq, ?_, ?_, fun d hd _ _ => ?_, fun heq => absurd heq hnot⟩
    · rw [hkeeps.warnings_eq, List.flatMap_singleton, hnoted]
    · rw [if_neg hnot, hkeeps.hintAt_eq]
    · rw [List.mem_singleton.mp hd]
      exact .inr ⟨hopen, hkind, hpos⟩
  | token hplain hnot hkeeps =>
    refine ⟨hkeeps.recent_eq, ?_, ?_, fun d hd hmark hplace => ?_, fun heq => absurd heq hnot⟩
    · rw [hkeeps.warnings_eq, List.flatMap_singleton]
    · rw [if_neg hnot, hkeeps.hintAt_eq]
    · rw [List.mem_singleton.mp hd] at hmark
      exact absurd ⟨hmark, hplace⟩ hplain

/-- A step without token does no more than leave a warning. -/
theorem Heeded.cons {s s' s'' : State} {c next : Cursor} {ds : List Cursor} {t : Token}
    (hstep : (Outcome.trivia next s').Heeds s c) (h : Heeded s' ds t s'') :
    Heeded s (c :: ds) t s'' := by
  rcases hstep with _ | _ | _ | ⟨hplain, hkeeps⟩
  obtain ⟨hrecent, hwarnings, hhint, hhonoured, honly⟩ := h
  rw [hkeeps.recent_eq] at hrecent hwarnings hhonoured honly
  refine ⟨hrecent, ?_, ?_, fun d hd hmark hplace => ?_, fun hkind => ?_⟩
  · rw [hwarnings, hkeeps.warnings_eq, List.flatMap_cons, List.append_assoc]
  · rw [hhint, hkeeps.hintAt_eq]
  · rcases List.mem_cons.mp hd with rfl | hd
    · exact absurd ⟨hmark, hplace⟩ hplain
    · exact hhonoured d hd hmark hplace
  · obtain ⟨hplace, d, hd, hrest⟩ := honly hkind
    exact ⟨hplace, d, List.mem_cons_of_mem c hd, hrest⟩

/-- At the end of the source no step does anything about hints. -/
theorem heeded_of_atEnd (s : State) {c : Cursor} (h : c.atEnd = true) :
    Heeded s [c] (.endAt c.pos) s := by
  have hmark : ¬Comment.hintMark <+: c.ahead := by
    rw [Cursor.atEnd_iff_ahead.mp h]
    decide
  have hplain : (Outcome.token (.endAt c.pos) c s).Heedless s :=
    ⟨show TokenKind.eof ≠ .optimizerHint by decide, State.keeps_none rfl rfl rfl⟩
  exact (hplain.heeds hmark).heeded

/-- A search does about hints what its steps say. -/
theorem nextToken_heeded (config : Config) (s : State) (c : Cursor) :
    Heeded s (places .standard config s c) (nextToken .standard config s c).1
      (nextToken .standard config s c).2.2 := by
  fun_induction nextToken .standard config s c with
  | case1 s c t next s' h =>
    rw [places_of_token h]
    unfold step at h
    simp only at h
    split at h
    · rename_i hend
      rw [Outcome.token.injEq] at h
      obtain ⟨rfl, rfl, rfl⟩ := h
      exact heeded_of_atEnd s hend
    · have hheeds := stepAt_heeds config s (c.skipWhile Rune.isSpace)
      rw [h] at hheeds
      exact hheeds.heeded
  | case2 s c next s' h ih =>
    rw [places_of_trivia h]
    unfold step at h
    simp only at h
    split at h
    · cases h
    · have hheeds := stepAt_heeds config s (c.skipWhile Rune.isSpace)
      rw [h] at hheeds
      exact ih.cons hheeds

namespace Scanner

/-! ## Readings -/

/-- The places where the next reading takes its steps. -/
def places (s : Scanner) : List Cursor := SqlTokens.places s.table s.config s.state s.cursor

/-- The token that a reading comes to, as a word: the kind of a word where it stands, and the end of
input for everything else, as it is before the first token. -/
def wordOf (s : Scanner) : Nat → TokenKind
  | 0 => .eof
  | n + 1 =>
    let t := (s.lexes n).lex.1
    if (s.lexes n).scan.1.kind = .identifier ∧ t.kind ≠ .identifier ∧ t.kind ≠ .charsetIntroducer
    then t.kind else .eof

/-- The words that the last three of a number of readings have come to. -/
def history (s : Scanner) (n : Nat) : Recent :=
  ⟨s.wordOf n, s.wordOf (n - 1), s.wordOf (n - 2)⟩

variable {s : Scanner}

/-- A scanner stays in its place over any number of readings. -/
theorem Placed.lexes {entries : List Entry} (h : s.Placed entries) (n : Nat) :
    (s.lexes n).Placed entries := by
  induction n with
  | zero => exact h
  | succ n ih => exact ih.lex

/-- A raw token of the kind of a hint is one when it is resolved, and no other token is. -/
theorem Placed.kind_lex (h : s.Placed Vocabulary.standard) :
    s.lex.1.kind = .optimizerHint ↔ s.scan.1.kind = .optimizerHint := by
  constructor
  · intro hkind
    have hrelabels := resolve_relabels s.scan.2 s.scan.1
    rw [h.scan.table_eq] at hrelabels
    have hresolved : (s.scan.2.resolve s.scan.1).kind = .optimizerHint := hkind
    rw [hrelabels.kind_eq ?_ ?_, hresolved]
    · rw [hresolved]
      exact fun e he _ => Vocabulary.standard_ne (by decide) e he
    · rw [hresolved]
      decide
  · intro hkind
    have hsame : s.scan.2.resolve s.scan.1 = s.scan.1 := by
      refine resolve_of_kind ?_
      rw [hkind]
      decide
    rw [← hkind, ← hsame]
    rfl

/-- A reading does about hints what its search does. -/
theorem Placed.lex_heeded (h : s.Placed Vocabulary.standard) :
    Heeded s.state s.places s.lex.1 (nextToken s.table s.config s.state s.cursor).2.2 := by
  have htable : s.table = .standard := h.table_eq
  have hsearch := nextToken_heeded s.config s.state s.cursor
  rw [← htable] at hsearch
  have hpos : s.lex.1.pos = s.scan.1.pos := resolve_pos _ _
  obtain ⟨hrecent, hwarnings, hhint, hhonoured, honly⟩ := hsearch
  rw [← scan_token] at hhint hhonoured honly
  refine ⟨hrecent, hwarnings, ?_, fun d hd hmark hplace => ?_, fun hkind => ?_⟩
  · rw [hhint, hpos]
    simp only [h.kind_lex]
  · -- Neither a hint nor a malformed token is relabelled.
    rcases hhonoured d hd hmark hplace with ⟨text, hclosed, htoken⟩ | ⟨hopen, hkind, hat⟩
    · refine .inl ⟨text, hclosed, ?_⟩
      show s.scan.2.resolve s.scan.1 = _
      rw [htoken]
      exact resolve_of_kind (show TokenKind.optimizerHint ∉ _ by decide)
    · refine .inr ⟨hopen, ?_, ?_⟩
      · show (s.scan.2.resolve s.scan.1).kind = _
        rw [resolve_invalid hkind, hkind]
      · rw [hpos, hat]
  · rw [hpos]
    exact honly (h.kind_lex.mp hkind)

/-- A reading notes the word that it comes to. -/
theorem Placed.recent_lexes (h : s.Placed Vocabulary.standard) (n : Nat) :
    (s.lexes (n + 1)).state.recent = (s.lexes n).state.recent.push (s.wordOf (n + 1)) := by
  have hsearch := (h.lexes n).lex_heeded.recent_eq
  have hraw : (s.lexes n).scan.2.state.recent =
      (s.lexes n).state.recent.push (keywordKind (s.lexes n).table (s.lexes n).scan.1) := by
    rw [scan_state, settle, hsearch]
    rfl
  have hnoted : (s.lexes (n + 1)).state.recent = noteResolved (s.lexes n).scan.1
      (s.lexes n).lex.1.kind (s.lexes n).scan.2.state.recent := rfl
  rw [hnoted, hraw, noteResolved, wordOf]
  by_cases hname : (s.lexes n).scan.1.kind = .identifier
  · -- What resolution takes back is no word.
    simp only [hname, true_and, if_true, ← not_or, ite_not]
    rfl
  · rw [if_neg hname, keywordKind, if_neg hname]
    simp only [hname, false_and, if_false]

/-- After any number of readings the history holds the words of the last three. -/
theorem Placed.recent_eq (h : s.Placed Vocabulary.standard) (hs : s.state.recent = {}) (n : Nat) :
    (s.lexes n).state.recent = s.history n := by
  induction n with
  | zero => exact hs
  | succ n ih =>
    rw [h.recent_lexes, ih]
    rfl

/-- Hints for the optimizer in a source. After any number of readings the history holds the words
that the last three have come to. A comment for the optimizer that the next reading comes to is its
token where the history honours it, and malformed if it is not closed; elsewhere no hint comes out.
Where it is out of place, each such comment leaves one warning, in the order of the source, and no
other warning is left. The place of the last hint is the one of the token if that is a hint, and
stays as it is otherwise. -/
theorem lexes_hints (config : Config) (source : Bytes) (s : Scanner)
    (hs : s = start .standard config source) (n : Nat) :
    (s.lexes n).state.recent = s.history n ∧
    (∀ d ∈ (s.lexes n).places, Comment.hintMark <+: d.ahead →
      if (s.history n).Honours then
        (∃ text, Comment.Closed text d.ahead ∧
          (s.lexes n).lex.1 = ⟨.optimizerHint, d.pos, text⟩ ∧
          (s.lexes (n + 1)).state.hintAt = some d.pos) ∨
        ((∀ text, ¬Comment.Closed text d.ahead) ∧ (s.lexes n).lex.1.kind = .invalid ∧
          (s.lexes n).lex.1.pos = d.pos ∧
          (s.lexes (n + 1)).state.hintAt = (s.lexes n).state.hintAt)
      else (s.lexes n).lex.1.kind ≠ .optimizerHint) ∧
    (s.lexes (n + 1)).state.warnings = (s.lexes n).state.warnings ++
      (if (s.history n).Ignores then
        ((s.lexes n).places.filter fun d => Comment.hintMark <+: d.ahead).map fun d =>
          ⟨.ignoredOptimizerHint, d.pos⟩
      else []) ∧
    (s.lexes n).places.Pairwise (fun d e => e.remaining < d.remaining) ∧
    (s.lexes (n + 1)).state.hintAt =
      (if (s.lexes n).lex.1.kind = .optimizerHint then some (s.lexes n).lex.1.pos
      else (s.lexes n).state.hintAt) ∧
    ((s.lexes n).lex.1.kind = .optimizerHint → (s.history n).Honours ∧
      ∃ d ∈ (s.lexes n).places, Comment.hintMark <+: d.ahead ∧ (s.lexes n).lex.1.pos = d.pos) := by
  have hplaced : s.Placed Vocabulary.standard := by
    rw [hs]
    exact start_placed Vocabulary.standard config source
  have hrecent : (s.lexes n).state.recent = s.history n := hplaced.recent_eq (by rw [hs]; rfl) n
  obtain ⟨-, hwarnings, hhint, hhonoured, honly⟩ := (hplaced.lexes n).lex_heeded
  rw [hrecent] at hwarnings hhonoured honly
  have hlast : (s.lexes (n + 1)).state.hintAt =
      if (s.lexes n).lex.1.kind = .optimizerHint then some (s.lexes n).lex.1.pos
      else (s.lexes n).state.hintAt := hhint
  refine ⟨hrecent, fun d hd hmark => ?_, ?_, (places_ascend _ _ _ _).1, hlast, honly⟩
  · split
    · rename_i hplace
      rcases hhonoured d hd hmark hplace with ⟨text, hclosed, htoken⟩ | ⟨hopen, hkind, hpos⟩
      · refine .inl ⟨text, hclosed, htoken, ?_⟩
        rw [hlast, htoken]
        rfl
      · refine .inr ⟨hopen, hkind, hpos, ?_⟩
        rw [hlast, hkind]
        rfl
    · rename_i hplace
      exact fun hkind => hplace (honly hkind).1
  · rw [← Comment.flatMap_noted]
    exact hwarnings

/-- Behind `SELECT` a comment for the optimizer is a hint. -/
theorem lexes_hints_select : ∃ s d,
    s = start .standard {} [0x53, 0x45, 0x4C, 0x45, 0x43, 0x54, 0x2F, 0x2A, 0x2B, 0x2A, 0x2F] ∧
      d ∈ (s.lexes 1).places ∧ Comment.hintMark <+: d.ahead ∧ (s.history 1).Honours ∧
      (s.lexes 1).lex.1.kind = .optimizerHint ∧
      (s.lexes 2).state.hintAt = some (s.lexes 1).lex.1.pos := by
  obtain ⟨s, hs⟩ : ∃ s, s = start .standard {}
      [0x53, 0x45, 0x4C, 0x45, 0x43, 0x54, 0x2F, 0x2A, 0x2B, 0x2A, 0x2F] := ⟨_, rfl⟩
  obtain ⟨hd, hmark, hplace, hkind⟩ : (s.lexes 1).cursor ∈ (s.lexes 1).places ∧
      Comment.hintMark <+: (s.lexes 1).cursor.ahead ∧ (s.history 1).Honours ∧
      (s.lexes 1).lex.1.kind ≠ .invalid := by
    rw [hs]
    decide +kernel
  obtain ⟨-, hhint, -⟩ := lexes_hints {} _ s hs 1
  have hcase := hhint _ hd hmark
  rw [if_pos hplace] at hcase
  rcases hcase with ⟨text, -, htoken, hlast⟩ | ⟨-, hinvalid, -⟩
  · exact ⟨s, _, hs, hd, hmark, hplace, by rw [htoken], by rw [hlast, htoken]⟩
  · exact absurd hinvalid hkind

end Scanner

end SqlTokens
