import SqlTokens.Proofs.Traces

/-!
# Errors and the tokens they belong to

A call that reads a token adds one error at most, keeps the errors before it, and adds one only if
the token is malformed, at a place within the token (`AddsError`). An error about a form that is not
closed is added only where the call comes to the end of the source. From there on every call finds
the end and adds nothing (`read_of_atEnd`), so a run over one source has one such error at most, and
the token that it belongs to is the last one before the end (`Closes`).
-/

namespace SqlTokens

namespace Scanner

variable {entries : List Entry} {s : Scanner}

/-- Whether a call that reads a token adds exactly one error, behind those before it: the token is
malformed, the error stands within what has been read of it, and the call comes to the end of the
source if the error is about a form that is not closed. -/
structure AddsError (s : Scanner) (call : Token × Scanner) (error : ScanError) : Prop where
  /-- The error comes behind the errors before it. -/
  errors_eq : call.2.state.errors = s.state.errors ++ [error]
  /-- The token is malformed. -/
  kind_eq : call.1.kind = .invalid
  /-- The error does not stand before the token. -/
  start_le : call.1.pos.offset ≤ error.pos.offset
  /-- The error stands before the place where the call leaves the scanner. -/
  lt_stop : error.pos.offset < call.2.cursor.offset
  /-- A form that is not closed goes up to the end. -/
  unclosed : error.kind.isUnterminated = true → call.2.cursor.atEnd = true

/-- Whether a call that reads a token adds no error, or one that belongs to the token. -/
def AddsSoundly (s : Scanner) (call : Token × Scanner) : Prop :=
  call.2.state.errors = s.state.errors ∨ ∃ error, s.AddsError call error

/-- What a call records of its token is sound. -/
theorem addsSoundly_of_recorded {call : Token × Scanner}
    (h : Recorded s.state s.cursor call.1 call.2.cursor call.2.state) : s.AddsSoundly call := by
  refine h.errors.imp_right ?_
  rintro ⟨error, heq, hkind, -, hle, hlt, hend⟩
  exact ⟨error, heq, hkind, hle, hlt, hend⟩

/-! ## The end of a run -/

/-- Whether a call that reads a token finds the end and changes nothing but what it notes about the
token. -/
structure FindsEnd (s : Scanner) (call : Token × Scanner) : Prop where
  /-- The token is the one that stands for the end. -/
  token_eq : call.1 = .endAt s.cursor.pos
  /-- The scanner stays where it is. -/
  cursor_eq : call.2.cursor = s.cursor
  /-- No error is added. -/
  errors_eq : call.2.state.errors = s.state.errors
  /-- No warning is added. -/
  warnings_eq : call.2.state.warnings = s.state.warnings

/-- At the end both ways of reading a token find the end. -/
theorem read_of_atEnd (h : s.cursor.atEnd = true) : s.FindsEnd s.scan ∧ s.FindsEnd s.lex := by
  obtain ⟨htoken, hcursor, herrors, hwarnings⟩ := scan_of_atEnd h
  refine ⟨⟨htoken, hcursor, herrors, hwarnings⟩, ⟨?_, hcursor, herrors, hwarnings⟩⟩
  show s.scan.2.resolve s.scan.1 = _
  rw [htoken]
  exact resolve_endAt _ _

/-- At the end there is no version number. -/
theorem skipVersion_of_atEnd (h : s.cursor.atEnd = true) (least most : Nat) :
    (s.skipVersion least most).cursor = s.cursor := by
  have hdigits := Lexeme.skipDigits_of_atEnd h most
  show Lexeme.version least most s.cursor = s.cursor
  unfold Lexeme.version
  simp only [hdigits]
  split
  · rfl
  · rfl

/-- Whether an error belongs to the last token that is read before the end: the token is malformed,
the error stands between its start and the end of the source, and behind the token nothing but the
end has been read. -/
def Closes (error : ScanError) (ts : List Token) (s : Scanner) : Prop :=
  ∃ before t after, ts = before ++ t :: after ∧ t.kind = .invalid ∧
    t.pos.offset ≤ error.pos.offset ∧ error.pos.offset < s.cursor.source.length ∧
    s.cursor.atEnd = true ∧ ∀ u ∈ after, u = .endAt s.cursor.pos

/-- The errors about forms that are not closed. -/
def unterminated (s : Scanner) : List ScanError :=
  s.state.errors.filter fun error => error.kind.isUnterminated

/-- Whether there is no error about a form that is not closed, or one that belongs to the last of
the tokens that have been read. -/
def Settles (ts : List Token) (s : Scanner) : Prop :=
  s.unterminated = [] ∨ ∃ error, s.unterminated = [error] ∧ Closes error ts s

/-- Scanners with the same errors have the same errors about forms that are not closed. -/
theorem unterminated_congr {s s' : Scanner} (h : s'.state.errors = s.state.errors) :
    s'.unterminated = s.unterminated := by
  rw [unterminated, unterminated, h]

/-- Reading a token keeps the errors about forms that are not closed settled. -/
theorem Settles.read {ts : List Token} {call : Token × Scanner} (h : Settles ts s)
    (hadds : s.AddsSoundly call) (hle : call.2.cursor.offset ≤ call.2.cursor.source.length)
    (hend : s.cursor.atEnd = true → s.FindsEnd call) : Settles (ts ++ [call.1]) call.2 := by
  rcases h with hnone | ⟨error, hone, before, t, after, hts, hkind, hstart, hstop, hlast, hafter⟩
  · rcases hadds with hsame | ⟨error, herrors, hkind, hstart, hstop, hunclosed⟩
    · left
      rw [unterminated_congr hsame]
      exact hnone
    · -- The first such error belongs to the token that has just been read.
      have hnew : call.2.unterminated = [error].filter fun e => e.kind.isUnterminated := by
        rw [unterminated, herrors, List.filter_append]
        exact congrArg (· ++ _) hnone
      rcases hunterminated : error.kind.isUnterminated with _ | _
      · left
        rw [hnew, List.filter_singleton, hunterminated]
        rfl
      · right
        refine ⟨error, ?_, ts, call.1, [], rfl, hkind, hstart, Nat.lt_of_lt_of_le hstop hle,
          hunclosed hunterminated, by simp⟩
        rw [hnew, List.filter_singleton, hunterminated]
        rfl
  · -- Behind such an error the end has been reached, and nothing is added.
    right
    obtain ⟨htoken, hcursor, herrors, -⟩ := hend hlast
    refine ⟨error, ?_, before, t, after ++ [call.1], ?_, hkind, hstart, ?_, ?_, ?_⟩
    · rw [unterminated_congr herrors]
      exact hone
    · rw [hts, List.append_assoc, List.cons_append]
    · rwa [hcursor]
    · rwa [hcursor]
    · rw [hcursor]
      intro u hu
      rcases List.mem_append.mp hu with hu | hu
      · exact hafter u hu
      · rw [List.mem_singleton.mp hu]
        exact htoken

/-- A version number keeps the errors about forms that are not closed settled. -/
theorem Settles.skipVersion {ts : List Token} (h : Settles ts s) (least most : Nat) :
    Settles ts (s.skipVersion least most) := by
  rcases h with hnone | ⟨error, hone, before, t, after, hts, hkind, hstart, hstop, hlast, hafter⟩
  · exact .inl hnone
  · -- Such an error has been found only at the end, where no digits are left.
    have hcursor := skipVersion_of_atEnd hlast least most
    refine .inr ⟨error, hone, before, t, after, hts, hkind, hstart, ?_, ?_, ?_⟩
    · rwa [hcursor]
    · rwa [hcursor]
    · rwa [hcursor]

/-- A run over one source settles the errors about forms that are not closed. -/
theorem trace_settles (entries : List Entry) (config : Config) (source : Bytes) {ops : List Op}
    (hops : ∀ op ∈ ops, op.Stays) :
    Settles ((start (.ofEntries entries) config source).trace ops)
      ((start (.ofEntries entries) config source).run ops) := by
  refine (trace_induct (P := fun ts s => s.Placed entries ∧ Settles ts s) hops
    ⟨start_placed entries config source, .inl rfl⟩ ?_ ?_ ?_ ?_).2
  · rintro ts s ⟨hplaced, h⟩
    exact ⟨hplaced.scan, h.read (addsSoundly_of_recorded hplaced.scan_records)
      hplaced.scan.canonical.le_length fun hlast => (read_of_atEnd hlast).1⟩
  · rintro ts s ⟨hplaced, h⟩
    exact ⟨hplaced.lex, h.read (addsSoundly_of_recorded hplaced.lex_records)
      hplaced.lex.canonical.le_length fun hlast => (read_of_atEnd hlast).2⟩
  · rintro ts s mode ⟨hplaced, h⟩
    exact ⟨Op.apply_placed (.setMode mode) hplaced, h⟩
  · rintro ts s least most ⟨hplaced, h⟩
    exact ⟨Op.apply_placed (.skipVersion least most) hplaced, h.skipVersion least most⟩

/-- Whatever calls were made before, reading a token adds one error at most, and only one that
belongs to the token. A run over one source has at most one error about a form that is not closed,
and it belongs to the last token before the end. -/
theorem run_errors (entries : List Entry) (config : Config) (source : Bytes) (ops : List Op)
    (s : Scanner) (hs : s = (start (.ofEntries entries) config source).run ops) :
    s.AddsSoundly s.scan ∧ s.AddsSoundly s.lex ∧
      ((∀ op ∈ ops, op.Stays) → s.unterminated.length ≤ 1 ∧ ∀ error ∈ s.state.errors,
        error.kind.isUnterminated = true →
          Closes error ((start (.ofEntries entries) config source).trace ops) s) := by
  have hplaced : s.Placed entries := by
    rw [hs]
    exact run_placed ops (start_placed entries config source)
  refine ⟨addsSoundly_of_recorded hplaced.scan_records, addsSoundly_of_recorded hplaced.lex_records,
    fun hops => ?_⟩
  have hsettles := trace_settles entries config source hops
  rw [← hs] at hsettles
  -- Whatever error of that sort there is, it is the one that the run has settled.
  rcases hsettles with hnone | ⟨last, hone, hcloses⟩
  · refine ⟨by rw [hnone]; exact Nat.zero_le 1, fun error herror hunterminated => ?_⟩
    have hmem : error ∈ s.unterminated := List.mem_filter.mpr ⟨herror, hunterminated⟩
    rw [hnone] at hmem
    cases hmem
  · refine ⟨by rw [hone]; exact Nat.le_refl 1, fun error herror hunterminated => ?_⟩
    have hmem : error ∈ s.unterminated := List.mem_filter.mpr ⟨herror, hunterminated⟩
    rw [hone, List.mem_singleton] at hmem
    rw [hmem]
    exact hcloses

/-- Behind a name, a variable whose quoted name is not closed has its one error behind the mark, and
what is read behind it is the end. -/
theorem run_errors_unclosed :
    ∃ s, s = (start (.ofEntries []) {} [0x61, 0x20, 0x40, 0x27, 0x62]).run [.lex, .scan, .scan] ∧
      (∀ op ∈ [Op.lex, .scan, .scan], op.Stays) ∧
      (⟨.unterminatedString, ⟨1, 4, 3⟩⟩ : ScanError) ∈ s.state.errors ∧
      Closes ⟨.unterminatedString, ⟨1, 4, 3⟩⟩
        ((start (.ofEntries []) {} [0x61, 0x20, 0x40, 0x27, 0x62]).trace [.lex, .scan, .scan])
        s := by
  have hops : ∀ op ∈ [Op.lex, .scan, .scan], op.Stays := by simp [Op.Stays]
  have herror : (⟨.unterminatedString, ⟨1, 4, 3⟩⟩ : ScanError) ∈
      ((start (.ofEntries []) {} [0x61, 0x20, 0x40, 0x27, 0x62]).run
        [.lex, .scan, .scan]).state.errors := by
    decide +kernel
  obtain ⟨-, -, hrun⟩ := run_errors [] {} [0x61, 0x20, 0x40, 0x27, 0x62] _ _ rfl
  exact ⟨_, rfl, hops, herror, (hrun hops).2 _ herror rfl⟩

end Scanner

end SqlTokens
