import SqlTokens.Proofs.Calls

/-!
# What a malformed token reports

A scan that yields a malformed token adds one error, at the start of the token (`Diagnoses`),
exactly if the token starts with neither the mark of a variable nor a point. A number behind a point
is malformed in silence (`IsSilent`). A variable is malformed in silence too, unless its name is
quoted and not closed: then the error is that of the name, and it stands where the name starts,
behind the start of the token (`DiagnosesLate`).
-/

namespace SqlTokens

namespace Scanner

variable {entries : List Entry} {s : Scanner}

/-- Whether a call adds one error, at the start of its token. -/
def Diagnoses (s : Scanner) (call : Token × Scanner) : Prop :=
  ∃ error, call.2.state.errors = s.state.errors ++ [error] ∧ error.pos = call.1.pos

/-- Whether a call adds no error. -/
def IsSilent (s : Scanner) (call : Token × Scanner) : Prop :=
  call.2.state.errors = s.state.errors

/-- Whether a call adds one error, behind the start of its token. -/
def DiagnosesLate (s : Scanner) (call : Token × Scanner) : Prop :=
  ∃ error, call.2.state.errors = s.state.errors ++ [error] ∧
    call.1.pos.offset < error.pos.offset

/-- A call that adds no error does not add one. -/
theorem IsSilent.not_diagnoses {call : Token × Scanner} (h : s.IsSilent call) :
    ¬s.Diagnoses call := by
  rintro ⟨error, herrors, -⟩
  have hlength := congrArg List.length herrors
  rw [show call.2.state.errors = s.state.errors from h, List.length_append,
    List.length_singleton] at hlength
  omega

/-- A call that adds an error elsewhere does not add one at the start of its token. -/
theorem DiagnosesLate.not_diagnoses {call : Token × Scanner} (h : s.DiagnosesLate call) :
    ¬s.Diagnoses call := by
  rintro ⟨error, herrors, hpos⟩
  obtain ⟨error', herrors', hlt⟩ := h
  rw [herrors', List.append_cancel_left_eq, List.cons.injEq] at herrors
  rw [herrors.1, hpos] at hlt
  exact absurd hlt (Nat.lt_irrefl _)

end Scanner

/-- What a search adds to the errors if it finds a malformed token, by the byte that the token
starts with. -/
theorem Finds.invalid {s s' : State} {c next : Cursor} {t : Token} (h : Finds s c t next s')
    (hkind : t.kind = .invalid) :
    ∃ b, c.source[t.pos.offset]? = some b ∧
      (b = 0x40 → s'.errors = s.errors ∨
        ∃ error, s'.errors = s.errors ++ [error] ∧ t.pos.offset < error.pos.offset) ∧
      (b = 0x2E → s'.errors = s.errors) ∧
      (b ≠ 0x40 → b ≠ 0x2E →
        ∃ error, s'.errors = s.errors ++ [error] ∧ error.pos = t.pos) := by
  rcases h with ⟨hcross, hend, he⟩ | ⟨hcross, hend, hspans, hreports, he⟩
  · exact absurd (show TokenKind.eof = .invalid from hkind) (by decide)
  · rename_i first l
    have hl : l.kind = .invalid := hkind
    obtain ⟨b, hb⟩ : ∃ b, first.ahead.head? = some b := by
      rw [← Option.isSome_iff_exists, List.isSome_head?]
      intro hnil
      rw [Cursor.atEnd_iff_ahead.mpr hnil] at hend
      cases hend
    have hbyte : c.source[first.offset]? = some b := by
      rw [← List.head?_drop, ← hcross.reaches.source_eq, ← hb, first.ahead_eq]
      rfl
    refine ⟨b, hbyte, fun hat => ?_, fun hdot => ?_, fun hat hdot => ?_⟩
    · -- The error of a variable is that of its name, which starts behind the mark.
      have hwithin := hreports.mark (by rw [hb, hat])
      rcases hfault : l.fault with _ | error
      · left
        rw [he, hfault]
        exact List.append_nil _
      · right
        obtain ⟨d, hreach, hpos⟩ := hwithin error hfault
        refine ⟨error, by rw [he, hfault]; rfl, ?_⟩
        rw [hpos]
        exact Nat.lt_of_lt_of_le (Cursor.offset_lt_advance hend) hreach.offset_le
    · rw [he, hreports.point (by rw [hb, hdot])]
      exact List.append_nil _
    · have hdiagnosed := hreports.other (by rw [hb]; simpa using hat) (by rw [hb]; simpa using hdot)
      rw [Lexeme.Diagnosed, if_pos hl, Option.map_eq_some_iff] at hdiagnosed
      obtain ⟨error, hfault, hpos⟩ := hdiagnosed
      exact ⟨error, by rw [he, hfault]; rfl, hpos⟩

namespace Scanner

variable {entries : List Entry} {s : Scanner}

/-- A malformed token is diagnosed where it starts, unless it starts with the mark of a variable or
with a point. -/
theorem run_invalid (entries : List Entry) (config : Config) (source : Bytes) (ops : List Op)
    (s : Scanner) (hs : s = (start (.ofEntries entries) config source).run ops)
    (hkind : s.scan.1.kind = .invalid) :
    ∃ b, s.cursor.source[s.scan.1.pos.offset]? = some b ∧
      (s.Diagnoses s.scan ↔ b ≠ 0x40 ∧ b ≠ 0x2E) ∧
      (b = 0x2E → s.IsSilent s.scan) ∧
      (b = 0x40 → s.IsSilent s.scan ∨ s.DiagnosesLate s.scan) := by
  have hplaced : s.Placed entries := by
    rw [hs]
    exact run_placed ops (start_placed entries config source)
  obtain ⟨b, hb, hat, hdot, hother⟩ := hplaced.scan_finds.invalid hkind
  refine ⟨b, hb, ⟨fun hdiagnoses => ⟨fun h => ?_, fun h => ?_⟩, fun h => hother h.1 h.2⟩, hdot, hat⟩
  · rcases hat h with hsilent | hlate
    · exact IsSilent.not_diagnoses hsilent hdiagnoses
    · exact DiagnosesLate.not_diagnoses hlate hdiagnoses
  · exact IsSilent.not_diagnoses (hdot h) hdiagnoses

/-- A string that is not closed is diagnosed where it starts, also in the middle of a run. -/
theorem run_invalid_string :
    ∃ s, s = (start (.ofEntries []) {} [0x2E, 0x27, 0x61]).run [.scan] ∧
      s.scan.1.kind = .invalid ∧ s.Diagnoses s.scan := by
  have hkind : ((start (.ofEntries []) {} [0x2E, 0x27, 0x61]).run [.scan]).scan.1.kind =
      .invalid := by decide +kernel
  obtain ⟨b, hb, hiff, -⟩ := run_invalid [] {} [0x2E, 0x27, 0x61] [.scan] _ rfl hkind
  have hquote : b = 0x27 := by
    rw [← Option.some_inj, ← hb]
    decide +kernel
  exact ⟨_, rfl, hkind, hiff.mpr (by rw [hquote]; decide)⟩

/-- A variable whose name is not closed is malformed, and its one error stands behind its start. -/
theorem scan_unclosed_variable :
    (start (.ofEntries []) {} [0x40, 0x27, 0x61]).scan.1 = ⟨.invalid, .start, [0x40, 0x27, 0x61]⟩ ∧
      (start (.ofEntries []) {} [0x40, 0x27, 0x61]).scan.2.state.errors =
        [⟨.unterminatedString, ⟨1, 2, 1⟩⟩] ∧
      ¬(start (.ofEntries []) {} [0x40, 0x27, 0x61]).Diagnoses
        (start (.ofEntries []) {} [0x40, 0x27, 0x61]).scan := by
  have hlate : (start (.ofEntries []) {} [0x40, 0x27, 0x61]).scan.2.state.errors =
      [⟨.unterminatedString, ⟨1, 2, 1⟩⟩] := by decide +kernel
  have hstart : (start (.ofEntries []) {} [0x40, 0x27, 0x61]).scan.1 =
      ⟨.invalid, .start, [0x40, 0x27, 0x61]⟩ := by decide +kernel
  refine ⟨hstart, hlate, DiagnosesLate.not_diagnoses ⟨_, hlate, ?_⟩⟩
  rw [hstart]
  decide

end Scanner

end SqlTokens
