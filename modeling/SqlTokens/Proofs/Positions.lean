import SqlTokens.Proofs.Errors

/-!
# Positions that a run reports

Every position that is reported in a run over one source, whether of a token, of an error, of a
warning or of the last hint, is the position of its offset, and its counts keep to their widths
(`Position.Exact`). For whatever is reported stands where moving on has led the scanner, and moving
on never leaves the walk through the source. The starts of the tokens ascend up to the end, since
each token starts behind what has been read before it.
-/

namespace SqlTokens

/-- Whether a position is the one of its offset in a source, between two runes, with counts that
keep to their widths. -/
structure Position.Exact (source : Bytes) (p : Position) : Prop where
  /-- The position is between two runes. -/
  boundary : Boundary source p.offset
  /-- Line and column are those of the offset. -/
  eq_ofOffset : p = ofOffset source p.offset
  /-- The counts keep to their widths. -/
  fits : p.Fits

/-- In a source whose length leaves room for one more count, the position of a cursor on the walk is
exact. -/
theorem Cursor.Canonical.exact {c : Cursor} (h : c.Canonical)
    (hlen : c.source.length + 1 < countBound) : c.pos.Exact c.source :=
  ⟨h.boundary, h.pos_eq, h.fits hlen⟩

namespace Scanner

variable {entries : List Entry} {source : Bytes} {ts : List Token} {s : Scanner}

/-- Whether everything that a run over a source has reported is in its place: the positions are
exact, and each token starts before what comes next, up to the end. -/
structure Reported (entries : List Entry) (source : Bytes) (ts : List Token) (s : Scanner) : Prop
    where
  /-- The scanner stands on the walk. -/
  placed : s.Placed entries
  /-- The run is one over the source. -/
  source_eq : s.cursor.source = source
  /-- The positions of tokens are exact. -/
  tokens : ∀ t ∈ ts, t.pos.Exact source
  /-- The positions of errors are exact. -/
  errors : ∀ error ∈ s.state.errors, error.pos.Exact source
  /-- The positions of warnings are exact. -/
  warnings : ∀ warning ∈ s.state.warnings, warning.pos.Exact source
  /-- The position of the last hint is exact. -/
  hint : ∀ p ∈ s.state.hintAt, p.Exact source
  /-- The scanner is behind the start of each token, or at the end. -/
  behind : ∀ t ∈ ts, t.pos.offset < s.cursor.offset ∨ s.cursor.atEnd = true
  /-- A token that is not the end starts behind the starts of those before it. -/
  ascending : ts.Pairwise fun t u => u.isEnd = false → t.pos.offset < u.pos.offset

/-- At the start nothing has been reported. -/
theorem start_reported (entries : List Entry) (config : Config) (source : Bytes) :
    Reported entries source [] (start (.ofEntries entries) config source) where
  placed := start_placed entries config source
  source_eq := rfl
  tokens := by simp
  errors := by simp [start]
  warnings := by simp [start]
  hint := by simp [start]
  behind := by simp
  ascending := .nil

namespace Reported

/-- A place that the scanner can come to has an exact position. -/
theorem exact (h : Reported entries source ts s) (hlen : source.length + 1 < countBound)
    {p : Position} (hp : ∃ d, s.cursor.Reaches d ∧ p = d.pos) : p.Exact source := by
  obtain ⟨d, hreach, rfl⟩ := hp
  have hsource : d.source = source := hreach.source_eq.trans h.source_eq
  have hexact := (hreach.canonical h.placed.canonical).exact (by rwa [hsource])
  rwa [hsource] at hexact

/-- Reading a token keeps what is reported in its place. -/
theorem read {call : Token × Scanner} (h : Reported entries source ts s)
    (hlen : source.length + 1 < countBound) (hplaced : call.2.Placed entries)
    (hrecorded : Recorded s.state s.cursor call.1 call.2.cursor call.2.state)
    (hprogress : s.Progresses call) : Reported entries source (ts ++ [call.1]) call.2 := by
  obtain ⟨htoken, herrors, ⟨new, hnew, hnewplace⟩, hhint⟩ := hrecorded
  obtain ⟨hreach, hmoves⟩ := hprogress
  have hsource : call.2.cursor.source = source := hreach.source_eq.trans h.source_eq
  refine ⟨hplaced, hsource, ?_, ?_, ?_, ?_, ?_, ?_⟩
  -- Tokens, errors, warnings and the hint: the new one stands where the scanner can come to.
  · intro t ht
    rcases List.mem_append.mp ht with ht | ht
    · exact h.tokens t ht
    · rw [List.mem_singleton.mp ht]
      exact h.exact hlen htoken
  · rcases herrors with hsame | ⟨error, herror, -, hplace, -⟩
    · rw [hsame]
      exact h.errors
    · rw [herror]
      intro e he
      rcases List.mem_append.mp he with he | he
      · exact h.errors e he
      · rw [List.mem_singleton.mp he]
        exact h.exact hlen hplace
  · rw [hnew]
    intro w hw
    rcases List.mem_append.mp hw with hw | hw
    · exact h.warnings w hw
    · exact h.exact hlen (hnewplace w hw)
  · rcases hhint with hsame | ⟨d, hd, hpos⟩
    · rw [hsame]
      exact h.hint
    · rw [hpos]
      intro p hp
      rw [Option.mem_some_iff] at hp
      exact h.exact hlen ⟨d, hd, hp.symm⟩
  -- The scanner leaves the new token behind unless that is the end.
  · intro t ht
    rcases hmoves with ⟨hend, -⟩ | ⟨hle, hlt⟩
    · right
      rw [Cursor.atEnd_iff, hreach.source_eq, hend]
    · left
      rcases List.mem_append.mp ht with ht | ht
      · -- Before the end the scanner was behind the start of every earlier token.
        rcases h.behind t ht with hbefore | hlast
        · exact Nat.lt_of_lt_of_le hbefore hreach.offset_le
        · have hge := Cursor.atEnd_iff.mp hlast
          have hlength := hplaced.canonical.le_length
          rw [hreach.source_eq] at hlength
          omega
      · rw [List.mem_singleton.mp ht]
        exact hlt
  -- The starts ascend, since a token starts at or behind the place where the scanner was.
  · refine List.pairwise_append.mpr ⟨h.ascending, List.pairwise_singleton _ _, ?_⟩
    intro t ht u hu hnot
    rw [List.mem_singleton.mp hu] at hnot ⊢
    rcases hmoves with ⟨-, hlast⟩ | ⟨hle, hlt⟩
    · rw [hlast] at hnot
      cases hnot
    · rcases h.behind t ht with hbefore | hlast
      · exact Nat.lt_of_lt_of_le hbefore hle
      · -- At the end no token is left that starts before it.
        have hge := Cursor.atEnd_iff.mp hlast
        have hlength := hplaced.canonical.le_length
        rw [hreach.source_eq] at hlength
        omega

/-- A version number keeps what is reported in its place. -/
theorem skipVersion (h : Reported entries source ts s) (least most : Nat) :
    Reported entries source ts (s.skipVersion least most) := by
  have hreach : s.cursor.Reaches (s.skipVersion least most).cursor :=
    Lexeme.version_reaches least most s.cursor
  refine ⟨Op.apply_placed (.skipVersion least most) h.placed, hreach.source_eq.trans h.source_eq,
    h.tokens, h.errors, h.warnings, h.hint, fun t ht => ?_, h.ascending⟩
  rcases h.behind t ht with hbefore | hlast
  · exact .inl (Nat.lt_of_lt_of_le hbefore hreach.offset_le)
  · rw [skipVersion_of_atEnd hlast]
    exact .inr hlast

end Reported

/-- In a run over one source whose length leaves room for one more count, every position is exact:
those of the tokens, the end included, of the errors, of the warnings, and of the last hint. The
tokens before the end start one behind the other. -/
theorem run_exact (entries : List Entry) (config : Config) (source : Bytes)
    (hlen : source.length + 1 < countBound) (ops : List Op) (hops : ∀ op ∈ ops, op.Stays)
    (s : Scanner) (hs : s = (start (.ofEntries entries) config source).run ops) :
    (∀ t ∈ (start (.ofEntries entries) config source).trace ops, t.pos.Exact source) ∧
      (∀ error ∈ s.state.errors, error.pos.Exact source) ∧
      (∀ warning ∈ s.state.warnings, warning.pos.Exact source) ∧
      (∀ p ∈ s.state.hintAt, p.Exact source) ∧
      ((start (.ofEntries entries) config source).trace ops).Pairwise fun t u =>
        u.isEnd = false → t.pos.offset < u.pos.offset := by
  have hreported : Reported entries source ((start (.ofEntries entries) config source).trace ops)
      ((start (.ofEntries entries) config source).run ops) := by
    refine trace_induct (P := Reported entries source) hops (start_reported entries config source)
      ?_ ?_ ?_ ?_
    · exact fun ts s h => h.read hlen h.placed.scan h.placed.scan_records h.placed.scan_progresses
    · exact fun ts s h => h.read hlen h.placed.lex h.placed.lex_records h.placed.lex_progresses
    · intro ts s mode h
      exact ⟨Op.apply_placed (.setMode mode) h.placed, h.source_eq, h.tokens, h.errors, h.warnings,
        h.hint, h.behind, h.ascending⟩
    · exact fun ts s least most h => h.skipVersion least most
  rw [hs]
  exact ⟨hreported.tokens, hreported.errors, hreported.warnings, hreported.hint,
    hreported.ascending⟩

/-- A source with a newline, a character of two bytes and a damaged byte, read in all four ways. -/
theorem run_exact_damaged :
    [0x0A, 0xC3, 0xA9, 0x20, 0xFF, 0x31, 0x32].length + 1 < countBound ∧
      (∀ op ∈ [Op.lex, .setMode .empty, .scan, .skipVersion 1 1, .lex], op.Stays) ∧
      ∃ s, s = (start (.ofEntries []) {} [0x0A, 0xC3, 0xA9, 0x20, 0xFF, 0x31, 0x32]).run
          [.lex, .setMode .empty, .scan, .skipVersion 1 1, .lex] ∧
        (⟨.invalidUtf8, ⟨2, 3, 4⟩⟩ : ScanError) ∈ s.state.errors ∧
        (⟨2, 3, 4⟩ : Position).Exact [0x0A, 0xC3, 0xA9, 0x20, 0xFF, 0x31, 0x32] := by
  have hlen : [0x0A, 0xC3, 0xA9, 0x20, 0xFF, 0x31, 0x32].length + 1 < countBound := by decide
  have hops : ∀ op ∈ [Op.lex, .setMode .empty, .scan, .skipVersion 1 1, .lex], op.Stays := by
    simp [Op.Stays]
  have herror : (⟨.invalidUtf8, ⟨2, 3, 4⟩⟩ : ScanError) ∈
      ((start (.ofEntries []) {} [0x0A, 0xC3, 0xA9, 0x20, 0xFF, 0x31, 0x32]).run
        [.lex, .setMode .empty, .scan, .skipVersion 1 1, .lex]).state.errors := by
    decide +kernel
  obtain ⟨-, herrors, -⟩ := run_exact [] {} [0x0A, 0xC3, 0xA9, 0x20, 0xFF, 0x31, 0x32] hlen _ hops
    _ rfl
  exact ⟨hlen, hops, _, rfl, herror, herrors _ herror⟩

end Scanner

end SqlTokens
