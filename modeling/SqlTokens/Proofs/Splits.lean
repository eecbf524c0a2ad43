import SqlTokens.Proofs.Readings
import SqlTokens.Proofs.Searches

/-!
# Splits at a semicolon

A source can be split behind a semicolon token, and both parts can be read alone
(`Reading.split_exact`). The part in front and the part behind are excerpts of the source, and the
scanner of the source and that of the excerpt go side by side (`Excerpt.Matches`) as long as the
tokens belong to the excerpt (`Reading.Stays`): one reading keeps them so (`Reading.read_behind`),
and so do several (`Reading.first_behind`). In the part in front all tokens up to the semicolon
belong to it; in the part behind all tokens do.

Resolution looks at three more places than the scan: at the byte before a token, at the byte where
it starts, and at the bytes behind it. The first is a semicolon or nothing at the start of an
excerpt, and the last do not count for a semicolon.
-/

namespace SqlTokens

/-! ## Scanners of an excerpt -/

/-- Whether one scanner reads a source where another one reads an excerpt of it. -/
structure Excerpt.Matches (x : Excerpt) (past : State) (s s' : Scanner) : Prop where
  /-- The first one has the standard table and stands on the walk through its source. -/
  placed : s.Placed Vocabulary.standard
  /-- So does the second one. -/
  placed' : s'.Placed Vocabulary.standard
  /-- Both have the same settings. -/
  config_eq : s.config = s'.config
  /-- Both stand at the same place. -/
  cursor_eq : s.cursor = x.cursor s'.cursor
  /-- Both have the same state, but for what the first one had reported before. -/
  state_eq : s.state = s'.state.behind x.base past
  /-- The source of the second one is the excerpt. -/
  source_eq : s'.cursor.source = x.part

variable {x : Excerpt} {past : State} {s s' : Scanner} {t : Token}

/-- Both scanners have the same table. -/
theorem Excerpt.Matches.table_eq (h : x.Matches past s s') : s.table = s'.table := by
  rw [h.placed.table_eq, h.placed'.table_eq]

/-- The cursor of a scanner of an excerpt stands in it. -/
theorem Excerpt.Matches.holds (h : x.Matches past s s') : x.Holds s'.cursor :=
  ⟨h.source_eq, h.placed'.canonical⟩

/-- At a clear place both scanners have the same bytes ahead. -/
theorem Excerpt.Matches.sees (h : x.Matches past s s') (hclear : x.Clear s.cursor.offset) :
    x.Sees s'.cursor := by
  rw [h.cursor_eq] at hclear
  exact ⟨h.holds, hclear⟩

namespace Scanner

/-! ## Resolution -/

/-- A dot comes right before a token of an excerpt if it does so in the source. -/
theorem byteBefore?_behind (h : x.Matches past s s') (hclear : x.Clear s.cursor.offset)
    (ht : t.pos.offset ≤ s'.cursor.offset) :
    (s.byteBefore? (t.behind x.base) == some 0x2E) = (s'.byteBefore? t == some 0x2E) := by
  have hsource : s.cursor.source = x.source := by rw [h.cursor_eq]; rfl
  have hoffset : (t.behind x.base).pos.offset = x.base.offset + t.pos.offset := rfl
  rw [h.cursor_eq, Excerpt.offset_cursor] at hclear
  unfold byteBefore?
  rw [hsource, hoffset, h.source_eq]
  rcases Nat.eq_zero_or_pos t.pos.offset with hzero | hpos
  · -- Before the excerpt there is nothing, or a semicolon.
    rw [hzero, Nat.add_zero, if_pos rfl]
    rcases x.opened with hbase | ⟨hsemi, -⟩
    · rw [if_pos hbase]
    · split
      · rfl
      · rw [hsemi]
        decide
  · rw [if_neg (by omega), if_neg (by omega), Nat.add_sub_assoc hpos,
      Excerpt.Clear.getElem?_part (hclear.of_le (by omega))]

/-- A token of an excerpt is written in quotation marks if it is so in the source. -/
theorem isDoubleQuoted_behind (h : x.Matches past s s') (hclear : x.Clear s.cursor.offset)
    (ht : t.pos.offset ≤ s'.cursor.offset) :
    s.isDoubleQuoted (t.behind x.base) = s'.isDoubleQuoted t := by
  have hsource : s.cursor.source = x.source := by rw [h.cursor_eq]; rfl
  have hoffset : (t.behind x.base).pos.offset = x.base.offset + t.pos.offset := rfl
  rw [h.cursor_eq, Excerpt.offset_cursor] at hclear
  rw [isDoubleQuoted, isDoubleQuoted, hsource, hoffset, h.source_eq,
    Excerpt.Clear.getElem?_part (hclear.of_le (by omega))]

/-- A parenthesis follows in an excerpt if it does so in the source. -/
theorem followedByParenthesis_of_matches (h : x.Matches past s s')
    (hclear : x.Clear s.cursor.offset) : s.followedByParenthesis = s'.followedByParenthesis := by
  have hcut := (h.sees hclear).cut
  unfold followedByParenthesis
  simp only [h.cursor_eq, h.config_eq]
  split
  · rw [hcut.head?_dropWhile_eq (by decide)]
  · rw [hcut.head?_eq]

/-- A name of an excerpt is what it is in the source. -/
theorem resolveName_behind (h : x.Matches past s s') (hclear : x.Clear s.cursor.offset)
    (ht : t.pos.offset ≤ s'.cursor.offset) :
    s.resolveName (t.behind x.base) = (s'.resolveName t).behind x.base := by
  have htext : (t.behind x.base).text = t.text := rfl
  have hqualified : s.isQualified (t.behind x.base) = s'.isQualified t := by
    rw [isQualified, isQualified, byteBefore?_behind h hclear ht, h.cursor_eq,
      (h.sees hclear).rune_cursor]
  have happlies (word : Keyword) : s.applies word = s'.applies word := by
    rw [applies, applies, h.config_eq, followedByParenthesis_of_matches h hclear]
  have hkind (word : Keyword) : s.kindOf word = s'.kindOf word := by
    rw [kindOf, kindOf, h.config_eq]
  unfold resolveName
  simp only [htext, hqualified, h.table_eq, happlies, hkind]
  split
  · rfl
  · split
    · rfl
    · split
      · split
        · rfl
        · rfl
      · rfl

/-- A token of an excerpt is resolved as it is in the source, if it belongs to the excerpt. -/
theorem resolve_behind (h : x.Matches past s s')
    (hincludes : x.Includes (t.behind x.base) s.cursor) (ht : t.pos.offset ≤ s'.cursor.offset) :
    s.resolve (t.behind x.base) = (s'.resolve t).behind x.base := by
  have hkind : (t.behind x.base).kind = t.kind := rfl
  rcases hincludes with hclear | ⟨hsemi, -⟩
  · have hquoted := isDoubleQuoted_behind h hclear ht
    unfold resolve
    simp only [hkind, h.config_eq, hquoted]
    split
    · exact resolveName_behind h hclear ht
    · repeat' split
      all_goals rfl
  · -- Resolution leaves a semicolon as it is.
    rw [hkind] at hsemi
    have hnot : t.kind ∉ [TokenKind.identifier, .quotedIdentifier, .stringLiteral, .pipes] := by
      rw [hsemi]
      decide
    rw [resolve_of_kind (t := t.behind x.base) hnot, resolve_of_kind hnot]

/-! ## Readings -/

/-- A dot behind a name of an excerpt is one in the source. -/
theorem nameDot_behind {next : Cursor} (hnext : x.Holds next)
    (hincludes : x.Includes (t.behind x.base) (x.cursor next)) (before : Bool) :
    nameDot (t.behind x.base) (x.cursor next) before = nameDot t next before := by
  have hkind : (t.behind x.base).kind = t.kind := rfl
  unfold nameDot
  rw [hkind]
  split
  · rename_i hname
    rcases hincludes with hclear | ⟨hsemi, -⟩
    · rw [Excerpt.Sees.rune_cursor ⟨hnext, hclear⟩]
    · -- A semicolon is no name.
      rw [hkind] at hsemi
      rw [hsemi] at hname
      exact absurd hname (by decide)
  · rfl

/-- What is noted about a token of an excerpt is what is noted about it in the source. -/
theorem settle_behind {next : Cursor} (hnext : x.Holds next)
    (hincludes : x.Includes (t.behind x.base) (x.cursor next)) (table : Table) (state : State) :
    settle table (t.behind x.base) (x.cursor next) (state.behind x.base past) =
      (settle table t next state).behind x.base past := by
  unfold settle
  rw [nameDot_behind hnext hincludes]
  rfl

/-- A scan of an excerpt reads the token that the scan of the source reads, if that belongs to the
excerpt, and goes on at the same place. -/
theorem scan_behind (h : x.Matches past s s') (hclear : x.Clear s.cursor.offset)
    (hincludes : x.Includes s.scan.1 s.scan.2.cursor) :
    s.scan.1 = s'.scan.1.behind x.base ∧ x.Matches past s.scan.2 s'.scan.2 := by
  have hsearch : nextToken s.table s.config s.state s.cursor =
      ((nextToken s'.table s'.config s'.state s'.cursor).1.behind x.base,
        x.cursor (nextToken s'.table s'.config s'.state s'.cursor).2.1,
        (nextToken s'.table s'.config s'.state s'.cursor).2.2.behind x.base past) := by
    rw [scan_token, scan_cursor] at hincludes
    rw [h.table_eq, h.config_eq, h.state_eq, h.cursor_eq, h.placed'.table_eq] at hincludes ⊢
    exact nextToken_cursor s'.config past s'.state (h.sees hclear) hincludes
  have hcursor : s.scan.2.cursor = x.cursor s'.scan.2.cursor := by
    rw [scan_cursor, hsearch]
    rfl
  have htoken : s.scan.1 = s'.scan.1.behind x.base := by
    rw [scan_token, hsearch]
    rfl
  have hreach : s'.cursor.Reaches s'.scan.2.cursor := h.placed'.scan_finds.reaches
  have hnext : x.Holds s'.scan.2.cursor := h.holds.reaches hreach
  refine ⟨htoken, h.placed.scan, h.placed'.scan, h.config_eq, hcursor, ?_, hnext.source_eq⟩
  rw [htoken, hcursor] at hincludes
  rw [scan_state, hsearch, h.table_eq]
  exact settle_behind hnext hincludes _ _

/-- A token starts before the place where its reading leaves the scanner, or it is the end. -/
theorem Progresses.start_le {call : Token × Scanner} (h : s.Progresses call) :
    call.1.pos.offset ≤ call.2.cursor.offset := by
  obtain ⟨-, ⟨-, htoken⟩ | ⟨-, hlt⟩⟩ := h
  · rw [htoken]
    exact Nat.le_refl _
  · exact Nat.le_of_lt hlt

/-- A reading of a resolved token of an excerpt is the one of the source, if the token belongs to
the excerpt. -/
theorem lex_behind (h : x.Matches past s s') (hclear : x.Clear s.cursor.offset)
    (hincludes : x.Includes s.scan.1 s.scan.2.cursor) :
    s.lex.1 = s'.lex.1.behind x.base ∧ x.Matches past s.lex.2 s'.lex.2 := by
  obtain ⟨htoken, hmatches⟩ := scan_behind h hclear hincludes
  have hresolve : s.scan.2.resolve s.scan.1 = (s'.scan.2.resolve s'.scan.1).behind x.base := by
    rw [htoken] at hincludes ⊢
    exact resolve_behind hmatches hincludes h.placed'.scan_progresses.start_le
  have hstate : s.lex.2.state = s'.lex.2.state.behind x.base past := by
    unfold Scanner.lex
    simp only [hresolve, hmatches.state_eq]
    rw [htoken]
    rfl
  exact ⟨hresolve, h.placed.lex, h.placed'.lex, h.config_eq, hmatches.cursor_eq, hstate,
    hmatches.source_eq⟩

end Scanner

namespace Reading

/-- Whether the next token of a source belongs to an excerpt, from a clear place on. -/
def Stays (m : Reading) (x : Excerpt) (s : Scanner) : Prop :=
  x.Clear s.cursor.offset ∧ x.Includes (m.read s).1 (m.read s).2.cursor

/-- A reading of an excerpt is the one of the source, if the token belongs to the excerpt. -/
theorem read_behind (m : Reading) (h : x.Matches past s s') (hstays : m.Stays x s) :
    (m.read s).1 = (m.read s').1.behind x.base ∧ x.Matches past (m.read s).2 (m.read s').2 := by
  obtain ⟨hclear, hincludes⟩ := hstays
  -- A semicolon has been read raw as one, so the raw token belongs to the excerpt too.
  have hraw : x.Includes s.scan.1 s.scan.2.cursor := by
    rw [Excerpt.Includes, ← m.cursor_read, ← m.pos_read]
    exact hincludes.imp_right fun hsemi => ⟨m.kind_scan h.placed (.inl rfl) hsemi.1, hsemi.2⟩
  cases m with
  | raw => exact Scanner.scan_behind h hclear hraw
  | resolved => exact Scanner.lex_behind h hclear hraw

/-- The first tokens of an excerpt are those of the source, if they belong to the excerpt. -/
theorem first_behind (m : Reading) (h : x.Matches past s s') {n : Nat}
    (hstays : ∀ i < n, m.Stays x (m.after i s)) :
    m.first n s = (m.first n s').map (Token.behind x.base) ∧
      x.Matches past (m.after n s) (m.after n s') := by
  induction n generalizing s s' with
  | zero => exact ⟨rfl, h⟩
  | succ n ih =>
    obtain ⟨htoken, hnext⟩ := m.read_behind h (hstays 0 (Nat.succ_pos n))
    obtain ⟨hrest, hlast⟩ := ih hnext fun i hi => hstays (i + 1) (Nat.succ_lt_succ hi)
    refine ⟨?_, hlast⟩
    rw [first, first, htoken, hrest]
    rfl

end Reading

/-! ## The source in front of a semicolon and behind it -/

/-- In a text that starts where its source does the tokens are those of the source. -/
theorem Token.start_behind (t : Token) : t.behind .start = t := by
  rw [behind, Position.start_behind]

/-- In a text that starts where its source does the errors are those of the source. -/
theorem ScanError.start_behind (e : ScanError) : e.behind .start = e := by
  rw [behind, Position.start_behind]

/-- In a text that starts where its source does the warnings are those of the source. -/
theorem ScanWarning.start_behind (w : ScanWarning) : w.behind .start = w := by
  rw [behind, Position.start_behind]

/-- In a text that starts where its source does the state is that of the source. -/
theorem State.start_behind (s : State) : s.behind .start {} = s := by
  rcases s with ⟨inVendorBlock, recent, hintAt, afterNameDot, errors, warnings⟩
  have hhint : (hintAt.map Position.start.behind).or none = hintAt := by
    cases hintAt with
    | none => rfl
    | some pos => exact congrArg some (Position.start_behind pos)
  have herrors : errors.map (ScanError.behind .start) = errors :=
    List.map_id'' ScanError.start_behind _
  have hwarnings : warnings.map (ScanWarning.behind .start) = warnings :=
    List.map_id'' ScanWarning.start_behind _
  rw [behind, hhint, herrors, hwarnings]
  rfl

namespace Excerpt

/-- The source up to an offset behind a semicolon. -/
def front (source : Bytes) (stop : Nat) (hstop : stop ≤ source.length)
    (hsemi : source[stop - 1]? = some 0x3B) : Excerpt where
  source := source
  base := .start
  stop := stop
  base_le := Nat.zero_le _
  stop_le := hstop
  opened := .inl rfl
  closed := .inr hsemi

/-- The source from a place behind a semicolon on, if no byte-order mark comes there. -/
def back (source : Bytes) (base : Position) (hbase : base.offset ≤ source.length)
    (hsemi : source[base.offset - 1]? = some 0x3B)
    (hmark : ¬Rune.bomBytes <+: source.drop base.offset) : Excerpt where
  source := source
  base := base
  stop := source.length
  base_le := hbase
  stop_le := Nat.le_refl _
  opened := .inr ⟨hsemi, hmark⟩
  closed := .inl (Nat.le_refl _)

end Excerpt

namespace Scanner

/-- The scanner that reads what another one has not read yet as a source of its own: with the same
table, settings, flags and history, but with nothing reported so far. -/
def detached (s : Scanner) : Scanner :=
  { s with
    cursor := .start (s.cursor.source.drop s.cursor.offset)
    state := { s.state with hintAt := none, errors := [], warnings := [] }
    lastStart := 0 }

/-- At the start a scanner of a source reads it where a scanner of its front does. -/
theorem start_matches (config : Config) {source : Bytes} {stop : Nat} (hstop : stop ≤ source.length)
    (hsemi : source[stop - 1]? = some 0x3B) :
    (Excerpt.front source stop hstop hsemi).Matches {} (start .standard config source)
      (start .standard config (source.take stop)) where
  placed := start_placed Vocabulary.standard config source
  placed' := start_placed Vocabulary.standard config _
  config_eq := rfl
  cursor_eq := rfl
  state_eq := rfl
  source_eq := rfl

/-- A scanner behind a semicolon reads the source where the detached one reads the back of it. -/
theorem detached_matches (h : s.Placed Vocabulary.standard)
    (hsemi : s.cursor.source[s.cursor.offset - 1]? = some 0x3B)
    (hmark : ¬Rune.bomBytes <+: s.cursor.source.drop s.cursor.offset) :
    (Excerpt.back s.cursor.source s.cursor.pos h.canonical.le_length hsemi hmark).Matches s.state s
      s.detached where
  placed := h
  placed' := ⟨h.table_eq, Cursor.canonical_start _⟩
  config_eq := rfl
  cursor_eq := by
    change s.cursor = .place s.cursor.source (s.cursor.pos.behind .start)
    rw [Position.behind_start]
    exact s.cursor.eq_place
  state_eq := by
    change s.state =
      { s.state with errors := s.state.errors ++ [], warnings := s.state.warnings ++ [] }
    rw [List.append_nil, List.append_nil]
  source_eq := by
    change s.cursor.source.drop s.cursor.offset =
      (s.cursor.source.take s.cursor.source.length).drop s.cursor.offset
    rw [List.take_length]

end Scanner

namespace Reading

variable (m : Reading)

/-- Behind a semicolon the last byte read is that of the semicolon. -/
theorem getElem?_of_semicolon (h : s.Placed Vocabulary.standard) {n : Nat}
    (hsemi : (m.read (m.after n s)).1.kind = .ofChar ';') :
    s.cursor.source[(m.after (n + 1) s).cursor.offset - 1]? = some 0x3B := by
  obtain ⟨first, hreach, hrune, -, hnext⟩ := m.semicolon (m.after_placed n h) hsemi
  have hsource : first.source = s.cursor.source := hreach.source_eq.trans (m.source_after h n)
  have hstop : (m.after (n + 1) s).cursor.offset = first.offset + 1 := by
    rw [after_succ, hnext, Lexeme.offset_advance_of_is (by decide) hrune]
  calc s.cursor.source[(m.after (n + 1) s).cursor.offset - 1]?
      = first.source[first.offset]? := by rw [hstop, hsource, Nat.add_sub_cancel]
    _ = first.ahead.head? := by rw [first.ahead_eq, List.head?_drop]; rfl
    _ = some 0x3B := (Cursor.rune_is_iff (by decide)).mp hrune

/-- The tokens up to a semicolon belong to the excerpt that ends behind it. -/
theorem stays_of_semicolon (h : s.Placed Vocabulary.standard) {n : Nat}
    (hsemi : (m.read (m.after n s)).1.kind = .ofChar ';')
    (hstop : x.stop = (m.after (n + 1) s).cursor.offset) {i : Nat} (hi : i < n + 1) :
    m.Stays x (m.after i s) := by
  obtain ⟨first, hreach, hrune, hpos, hnext⟩ := m.semicolon (m.after_placed n h) hsemi
  -- The excerpt ends right behind the semicolon, so the semicolon starts at a clear place.
  have hfirst : x.Clear first.offset := by
    left
    rw [hstop, after_succ, hnext, Lexeme.offset_advance_of_is (by decide) hrune]
    exact Nat.lt_succ_self _
  have hclear {j : Nat} (hj : j ≤ n) : x.Clear (m.after j s).cursor.offset :=
    hfirst.of_reaches ((m.after_reaches h hj).trans hreach)
  refine ⟨hclear (Nat.le_of_lt_succ hi), ?_⟩
  -- An earlier token ends before the semicolon; the last one is the semicolon.
  rcases Nat.lt_or_eq_of_le (Nat.le_of_lt_succ hi) with hlt | rfl
  · left
    rw [← after_succ]
    exact hclear hlt
  · right
    rw [hpos]
    exact ⟨hsemi, hfirst⟩

/-- Behind a semicolon that ends an excerpt the scanner of the excerpt stands at its end. -/
theorem atEnd_of_semicolon (h : x.Matches past s s') {n : Nat}
    (hsemi : (m.read (m.after n s)).1.kind = .ofChar ';')
    (hstop : x.stop = (m.after (n + 1) s).cursor.offset) :
    (m.after (n + 1) s').cursor.atEnd = true := by
  have hlast := (m.first_behind h fun _ hi => m.stays_of_semicolon h.placed hsemi hstop hi).2
  rw [hlast.cursor_eq, Excerpt.offset_cursor] at hstop
  rw [Cursor.atEnd_iff, hlast.source_eq, Excerpt.part, List.length_drop, List.length_take]
  omega

/-- A semicolon that ends an excerpt is the last token of the excerpt but the end, and behind it
nothing is reported. -/
theorem readAll_of_semicolon (h : x.Matches past s s') {n : Nat}
    (hsemi : (m.read (m.after n s)).1.kind = .ofChar ';')
    (hstop : x.stop = (m.after (n + 1) s).cursor.offset) :
    (m.readAll s').1 = m.first (n + 1) s' ++ [.endAt (m.after (n + 1) s').cursor.pos] ∧
      (m.readAll s').2.state.errors = (m.after (n + 1) s').state.errors ∧
      (m.readAll s').2.state.warnings = (m.after (n + 1) s').state.warnings := by
  have hstays (i : Nat) (hi : i < n + 1) := m.stays_of_semicolon h.placed hsemi hstop hi
  have hends := m.read_of_atEnd (m.atEnd_of_semicolon h hsemi hstop)
  -- Each token up to the semicolon is one of the source, where none ends the stream.
  have hbefore : ∀ i < n + 1, (m.read (m.after i s')).1.isEnd = false := by
    intro i hi
    have hmatches := (m.first_behind h fun j hj => hstays j (Nat.lt_trans hj hi)).2
    have htoken := (m.read_behind hmatches (hstays i hi)).1
    have hnone := m.isEnd_eq_false_of_semicolon h.placed hsemi (Nat.le_of_lt_succ hi)
    rwa [htoken] at hnone
  have hend : (m.read (m.after (n + 1) s')).1.isEnd = true := by
    rw [hends.token_eq]
    rfl
  rw [m.readAll_eq (n + 1) s' hbefore hend, first_succ m (n + 1), after_succ m (n + 1),
    hends.token_eq]
  exact ⟨rfl, hends.errors_eq, hends.warnings_eq⟩

/-- Up to a semicolon a source is read as its front is read alone: with the same tokens, followed by
the end, and with the same diagnoses. -/
theorem readAll_front (config : Config) {source : Bytes} {n : Nat}
    (hs : s = .start .standard config source) {front : Scanner}
    (hfront : front =
      .start .standard config (source.take (m.after (n + 1) s).cursor.offset))
    (hsemi : (m.read (m.after n s)).1.kind = .ofChar ';') :
    (m.readAll front).1 = m.first (n + 1) s ++ [.endAt (m.after (n + 1) s).cursor.pos] ∧
      (m.readAll front).2.state.errors = (m.after (n + 1) s).state.errors ∧
      (m.readAll front).2.state.warnings = (m.after (n + 1) s).state.warnings := by
  have h : s.Placed Vocabulary.standard := hs ▸ Scanner.start_placed _ config source
  have hsource : s.cursor.source = source := by
    rw [hs]
    rfl
  have hlength := (m.after_placed (n + 1) h).canonical.le_length
  have hbyte := m.getElem?_of_semicolon h hsemi
  rw [m.source_after h] at hlength
  rw [hsource] at hlength hbyte
  have hmatches := Scanner.start_matches config hlength hbyte
  rw [← hs, ← hfront] at hmatches
  obtain ⟨hfirst, hlast⟩ :=
    m.first_behind hmatches fun _ hi => m.stays_of_semicolon h hsemi rfl hi
  obtain ⟨htokens, herrors, hwarnings⟩ := m.readAll_of_semicolon hmatches hsemi rfl
  -- The front starts where the source does, so nothing is moved.
  have hpos := (congrArg Cursor.pos hlast.cursor_eq).trans (Position.start_behind _)
  have hstate := hlast.state_eq.trans (State.start_behind _)
  have hsame := hfirst.trans (List.map_id'' Token.start_behind _)
  refine ⟨?_, ?_, ?_⟩
  · rw [hsame, hpos]
    exact htokens
  · rw [hstate]
    exact herrors
  · rw [hstate]
    exact hwarnings

/-- Behind a semicolon a source is read as its back is read alone. -/
theorem first_back (h : s.Placed Vocabulary.standard)
    (hsemi : s.cursor.source[s.cursor.offset - 1]? = some 0x3B)
    (hmark : ¬Rune.bomBytes <+: s.cursor.source.drop s.cursor.offset) (i : Nat) :
    m.first i s = (m.first i s.detached).map (Token.behind s.cursor.pos) ∧
      (m.after i s).state = (m.after i s.detached).state.behind s.cursor.pos s.state := by
  obtain ⟨hfirst, hlast⟩ := m.first_behind (Scanner.detached_matches h hsemi hmark) (n := i)
    fun _ _ => ⟨.inr (Nat.le_refl _), .inl (.inr (Nat.le_refl _))⟩
  exact ⟨hfirst, hlast.state_eq⟩

/-- A source can be split behind each of its semicolon tokens. Up to there it is read as the part in
front is read alone. From there on it is read as what is left, by a scanner with the same flags,
history and settings, but for positions, which count on from there; only a byte-order mark would not
be skipped there as it is at the start of a source. -/
theorem split_exact (config : Config) (source : Bytes) (n : Nat) (s reached front : Scanner)
    (hs : s = .start .standard config source) (hreached : reached = m.after (n + 1) s)
    (hfront : front = .start .standard config (source.take reached.cursor.offset))
    (hsemi : (m.read (m.after n s)).1.kind = .ofChar ';') :
    ((m.readAll front).1 = m.first (n + 1) s ++ [.endAt reached.cursor.pos] ∧
        (m.readAll front).2.state.errors = reached.state.errors ∧
        (m.readAll front).2.state.warnings = reached.state.warnings) ∧
      (¬Rune.bomBytes <+: source.drop reached.cursor.offset → ∀ i,
        m.first i reached = (m.first i reached.detached).map (Token.behind reached.cursor.pos) ∧
        (m.after i reached).state.errors = reached.state.errors ++
          (m.after i reached.detached).state.errors.map (ScanError.behind reached.cursor.pos) ∧
        (m.after i reached).state.warnings = reached.state.warnings ++
          (m.after i reached.detached).state.warnings.map
            (ScanWarning.behind reached.cursor.pos)) := by
  have h : s.Placed Vocabulary.standard := hs ▸ Scanner.start_placed _ config source
  subst hreached
  refine ⟨m.readAll_front config hs hfront hsemi, fun hmark i => ?_⟩
  have hsource : (m.after (n + 1) s).cursor.source = source := by
    rw [m.source_after h, hs]
    rfl
  have hbyte := m.getElem?_of_semicolon h hsemi
  rw [← m.source_after h (n + 1)] at hbyte
  rw [← hsource] at hmark
  obtain ⟨hfirst, hlast⟩ := m.first_back (m.after_placed (n + 1) h) hbyte hmark i
  refine ⟨hfirst, ?_, ?_⟩
  · rw [hlast]
    rfl
  · rw [hlast]
    rfl

/-- A vendor comment that is still open at the semicolon, and a string that is not closed on the
line behind it. -/
theorem split_exact_vendor :
    ∃ s reached front,
      s = Scanner.start .standard {} [0x2F, 0x2A, 0x21, 0xC3, 0xA9, 0x3B, 0x0A, 0x27] ∧
      reached = resolved.after 2 s ∧
      front = .start .standard {} ([0x2F, 0x2A, 0x21, 0xC3, 0xA9, 0x3B, 0x0A, 0x27].take
        reached.cursor.offset) ∧
      (resolved.read (resolved.after 1 s)).1.kind = .ofChar ';' ∧
      ¬Rune.bomBytes <+: [0x2F, 0x2A, 0x21, 0xC3, 0xA9, 0x3B, 0x0A, 0x27].drop
        reached.cursor.offset ∧
      reached.detached.state.inVendorBlock = true ∧
      (resolved.readAll front).1 = resolved.first 2 s ++ [.endAt reached.cursor.pos] ∧
      resolved.first 1 reached =
        (resolved.first 1 reached.detached).map (Token.behind reached.cursor.pos) := by
  -- The kernel shares the run over the source among the three facts.
  obtain ⟨hsemi, hmark, hopen⟩ :
      (resolved.read (resolved.after 1 (.start .standard {}
        [0x2F, 0x2A, 0x21, 0xC3, 0xA9, 0x3B, 0x0A, 0x27]))).1.kind = .ofChar ';' ∧
      ¬Rune.bomBytes <+: [0x2F, 0x2A, 0x21, 0xC3, 0xA9, 0x3B, 0x0A, 0x27].drop
        (resolved.after 2 (.start .standard {}
          [0x2F, 0x2A, 0x21, 0xC3, 0xA9, 0x3B, 0x0A, 0x27])).cursor.offset ∧
      (resolved.after 2 (.start .standard {}
        [0x2F, 0x2A, 0x21, 0xC3, 0xA9, 0x3B, 0x0A, 0x27])).detached.state.inVendorBlock =
          true := by
    decide +kernel
  obtain ⟨⟨hfront, -⟩, hback⟩ := resolved.split_exact {}
    [0x2F, 0x2A, 0x21, 0xC3, 0xA9, 0x3B, 0x0A, 0x27] 1 _ _ _ rfl rfl rfl hsemi
  exact ⟨_, _, _, rfl, rfl, rfl, hsemi, hmark, hopen, hfront, (hback hmark 1).1⟩

end Reading

end SqlTokens
