import SqlTokens.Proofs.Characters
import SqlTokens.Proofs.Traces

/-!
# Errors about the encoding

Of the errors only one is about the encoding of the source, and only a token that starts with a
malformed rune has it: every form of the language starts with another rune and has errors of its own
(`Lexeme.Decoded`). So the places of those errors are the starts of such tokens, in order
(`Scanner.trace_damage`). A rune is malformed where no character is encoded, and at three characters
that are not told apart from damage (`ReadsMalformed`): NUL, the character that stands for damage in
other texts, and the byte-order mark behind the start. Nothing else in a well-formed text is
reported as malformed (`Scanner.run_malformed`).
-/

namespace SqlTokens

/-! ## Malformed runes -/

/-- Whether a character that is encoded at an offset is read as malformed: NUL, the replacement
character, and the byte-order mark behind the start. -/
def ReadsMalformed (offset : Nat) (ch : Char) : Prop :=
  ch = '\x00' ∨ ch = '\ufffd' ∨ ch = '\ufeff' ∧ 0 < offset

instance (offset : Nat) (ch : Char) : Decidable (ReadsMalformed offset ch) :=
  inferInstanceAs (Decidable (_ ∨ _ ∨ _))

/-- Those are the characters that are read as malformed. -/
theorem Rune.isInvalid_ofCharAt {offset : Nat} {ch : Char} :
    (ofCharAt offset ch).isInvalid = true ↔ ReadsMalformed offset ch := by
  rw [ofCharAt]
  split
  · rename_i h
    exact ⟨fun _ => h.imp_right .inr, fun _ => rfl⟩
  · rename_i h
    rw [isInvalid_ofChar]
    refine ⟨fun hch => .inr (.inl hch), ?_⟩
    rintro (hnul | hch | hbom)
    · exact absurd (.inl hnul) h
    · exact hch
    · exact absurd (.inr hbom) h

/-- A rune of a source is malformed if no character is encoded there, or one of the three. -/
theorem isInvalid_decodeAt_iff {source : Bytes} {offset : Nat} (h : offset < source.length) :
    (Rune.decodeAt source offset).1.isInvalid = true ↔
      ∀ ch, EncodedAt source offset ch → ReadsMalformed offset ch := by
  constructor
  · intro hinvalid ch hch
    rw [hch.decodeAt] at hinvalid
    exact Rune.isInvalid_ofCharAt.mp hinvalid
  · intro hall
    by_cases hd : Rune.decode (source.drop offset) = (Rune.invalid, 1)
    · rw [Rune.decodeAt, Rune.decodeFrom, hd]
      rfl
    · -- What is not damaged is the encoding of a character.
      have hne : source.drop offset ≠ [] := by
        rw [Ne, List.drop_eq_nil_iff]
        exact Nat.not_le.mpr h
      obtain ⟨ch, -, hch⟩ := Rune.decode_sound hne hd
      have hencoded : EncodedAt source offset ch := hch
      rw [hencoded.decodeAt]
      exact Rune.isInvalid_ofCharAt.mpr (hall ch hencoded)

/-- Where a rune is malformed there is one. -/
theorem lt_length_of_isInvalid {source : Bytes} {offset : Nat}
    (h : (Rune.decodeAt source offset).1.isInvalid = true) : offset < source.length := by
  by_contra hge
  rw [Rune.decodeAt, List.drop_eq_nil_of_le (Nat.not_lt.mp hge)] at h
  cases h

/-! ## Forms -/

namespace Lexeme

/-- Whether the error of a lexeme, if it has one, is not about the encoding. -/
def Decoded (l : Lexeme) : Prop := ∀ error, l.fault = some error → error.kind ≠ .invalidUtf8

/-- A lexeme without error has none about the encoding. -/
theorem decoded_of_none {l : Lexeme} (h : l.fault = none) : l.Decoded := by
  intro error herror
  rw [h] at herror
  cases herror

/-- A malformed lexeme has the error that it is made with. -/
theorem broken_decoded {error : ScanErrorKind} (h : error ≠ .invalidUtf8) (first stop : Cursor) :
    (broken error first stop).Decoded := by
  intro e he
  obtain rfl := Option.some.inj he
  exact h

/-- A literal in quotes has no other error than its own. -/
theorem quotedDigits_decoded (kind : TokenKind) {error : ScanErrorKind} (h : error ≠ .invalidUtf8)
    (digit : Rune → Bool) (c : Cursor) : (quotedDigits kind error digit c).Decoded := by
  unfold quotedDigits
  simp only
  repeat' split
  · exact decoded_of_none rfl
  · exact decoded_of_none rfl
  · exact broken_decoded h c _

/-- A quoted form has no other error than its own. -/
theorem quoted_decoded (kind : TokenKind) {error : ScanErrorKind} (h : error ≠ .invalidUtf8)
    (escapes : Bool) (c : Cursor) : (quoted kind error escapes c).Decoded := by
  unfold quoted
  split
  · exact decoded_of_none rfl
  · exact broken_decoded h c _

/-- The name of a variable has no error about the encoding. -/
theorem variableName?_decoded {escapes : Bool} {c : Cursor} {name : Lexeme}
    (h : variableName? escapes c = some name) : name.Decoded := by
  unfold variableName? at h
  repeat' split at h
  · obtain rfl := Option.some.inj h
    exact quoted_decoded _ (by decide) _ c
  · obtain rfl := Option.some.inj h
    exact quoted_decoded _ (by decide) _ c
  · obtain rfl := Option.some.inj h
    exact decoded_of_none rfl
  · cases h

/-- A variable has no other error than its name. -/
theorem named_decoded {name : Lexeme} (h : name.Decoded) (kind : TokenKind) (c : Cursor)
    (front : Bytes) : (named kind c front name).Decoded := by
  unfold named
  split
  · exact h
  · exact decoded_of_none rfl

/-- A variable has no error about the encoding. -/
theorem anyVariable_decoded (escapes : Bool) (c : Cursor) : (anyVariable escapes c).Decoded := by
  unfold anyVariable
  simp only
  split
  · rename_i name hname
    exact named_decoded (variableName?_decoded hname) _ c _
  · split
    · unfold systemVariable
      simp only
      split
      · rename_i name hname
        exact named_decoded (variableName?_decoded hname) _ c _
      · exact decoded_of_none rfl
    · split
      · exact decoded_of_none rfl
      · exact decoded_of_none rfl

/-- An operator has no other error than that of its first byte. -/
theorem operator_decoded (kind : TokenKind) (c stop : Cursor) : (operator kind c stop).Decoded := by
  unfold operator
  split
  · exact broken_decoded (fun h => by cases h) c stop
  · exact decoded_of_none rfl

end Lexeme

/-! ## Steps -/

/-- The places of the errors about the encoding, in the order of the source. -/
def State.damage (s : State) : List Position :=
  (s.errors.filter fun error => error.kind = .invalidUtf8).map ScanError.pos

/-- They are the places of those errors. -/
theorem State.mem_damage {s : State} {p : Position} :
    p ∈ s.damage ↔ ⟨.invalidUtf8, p⟩ ∈ s.errors := by
  simp only [damage, List.mem_map, List.mem_filter, decide_eq_true_eq]
  constructor
  · rintro ⟨⟨kind, pos⟩, ⟨hmem, hkind⟩, hpos⟩
    rw [← hkind, ← hpos]
    exact hmem
  · intro h
    exact ⟨_, ⟨h, rfl⟩, rfl⟩

/-- States with the same errors have the same errors about the encoding. -/
theorem State.damage_congr {s s' : State} (h : s'.errors = s.errors) : s'.damage = s.damage := by
  rw [damage, damage, h]

/-- An error that is reported adds its place if it is one of them. -/
theorem State.damage_report (s : State) (fault : Option ScanError) :
    (s.report fault).damage = s.damage ++
      (fault.toList.filter fun error => error.kind = .invalidUtf8).map ScanError.pos := by
  rw [damage, report, List.filter_append, List.map_append]
  rfl

/-- Whether an outcome adds no error about the encoding to a state. -/
def Outcome.KeepsDamage (o : Outcome) (s : State) : Prop :=
  match o with
  | .token _ _ s' | .trivia _ s' => s'.damage = s.damage

/-- A lexeme whose error is about something else adds none. -/
theorem Outcome.ofLexeme_keepsDamage {s s' : State} {l : Lexeme} (hl : l.Decoded)
    (h : s'.errors = s.errors) (c : Cursor) : (ofLexeme c s' l).KeepsDamage s := by
  have hnone : l.fault.toList.filter (fun error => decide (error.kind = .invalidUtf8)) = [] := by
    rw [List.filter_eq_nil_iff]
    intro error herror
    rw [decide_eq_true_eq]
    exact hl error (Option.mem_toList.mp herror)
  show (s'.report l.fault).damage = s.damage
  rw [State.damage_report, hnone, List.map_nil, List.append_nil]
  exact State.damage_congr h

namespace Comment

variable {s : State} {c : Cursor}

/-- A comment keeps the errors about the encoding. -/
theorem block_keepsDamage {s' : State} (h : s'.errors = s.errors) (inside : Cursor) :
    (block s' c inside).KeepsDamage s := by
  unfold block
  split
  · exact State.damage_congr h
  · exact Outcome.ofLexeme_keepsDamage (Lexeme.broken_decoded (by decide) c _) h c

/-- What starts with a slash keeps them. -/
theorem slash_keepsDamage (s : State) (c : Cursor) : (slash s c).KeepsDamage s := by
  unfold slash
  simp only
  repeat' split
  · exact Outcome.ofLexeme_keepsDamage (Lexeme.decoded_of_none rfl) rfl c
  · rfl
  · unfold gated
    repeat' split
    · rfl
    · exact block_keepsDamage rfl _
    · rfl
  · unfold hint
    repeat' split
    · rfl
    · exact Outcome.ofLexeme_keepsDamage (Lexeme.broken_decoded (by decide) c _) rfl c
    · exact block_keepsDamage rfl _
  · exact block_keepsDamage rfl _

/-- What starts with a star keeps them. -/
theorem star_keepsDamage (s : State) (c : Cursor) : (star s c).KeepsDamage s := by
  unfold star
  simp only
  split
  · rfl
  · exact Outcome.ofLexeme_keepsDamage (Lexeme.decoded_of_none rfl) rfl c

/-- What starts with a dash keeps them. -/
theorem dash_keepsDamage (s : State) (c : Cursor) : (dash s c).KeepsDamage s := by
  unfold dash
  simp only
  repeat' split
  · rfl
  all_goals exact Outcome.ofLexeme_keepsDamage (Lexeme.decoded_of_none rfl) rfl c

end Comment

/-- The form of a starter keeps the errors about the encoding. -/
theorem Starter.outcome_keepsDamage (starter : Starter) (config : Config) (s : State) (c : Cursor) :
    (starter.outcome config s c).KeepsDamage s := by
  have hlexeme (l : Lexeme) (h : l.Decoded) : (Outcome.ofLexeme c s l).KeepsDamage s :=
    Outcome.ofLexeme_keepsDamage h rfl c
  cases starter with
  | slash => exact Comment.slash_keepsDamage s c
  | star => exact Comment.star_keepsDamage s c
  | sharp => rfl
  | dash => exact Comment.dash_keepsDamage s c
  | «at» => exact hlexeme _ (Lexeme.anyVariable_decoded _ c)
  | dot => exact hlexeme _ (Lexeme.decoded_of_none (Lexeme.dot_fault _ c))
  | number => exact hlexeme _ (Lexeme.decoded_of_none (Lexeme.number_fault _ c))
  | string => exact hlexeme _ (Lexeme.quoted_decoded _ (by decide) _ c)
  | quotedIdentifier => exact hlexeme _ (Lexeme.quoted_decoded _ (by decide) _ c)
  | hexMark => exact hlexeme _ (Lexeme.quotedDigits_decoded _ (by decide) _ c)
  | bitMark => exact hlexeme _ (Lexeme.quotedDigits_decoded _ (by decide) _ c)
  | nationalMark => exact hlexeme _ (Lexeme.decoded_of_none (Lexeme.national_fault c))
  | identifier => exact hlexeme _ (Lexeme.decoded_of_none rfl)

section stepAt

variable (table : Table) (config : Config) (s : State) {c : Cursor}

/-- At a malformed rune a step yields this rune, with an error about the encoding. -/
theorem stepAt_of_isInvalid (h : c.rune.isInvalid = true) :
    stepAt table config s c = .ofLexeme c s (.broken .invalidUtf8 c c.advance) := by
  have hrune : c.rune = Rune.invalid := eq_of_beq h
  unfold stepAt
  simp only [hrune]
  rfl

/-- At every other rune it keeps the errors about the encoding. -/
theorem stepAt_keepsDamage (h : c.rune.isInvalid = false) :
    (stepAt table config s c).KeepsDamage s := by
  have hlexeme (l : Lexeme) (hl : l.Decoded) : (Outcome.ofLexeme c s l).KeepsDamage s :=
    Outcome.ofLexeme_keepsDamage hl rfl c
  unfold stepAt
  simp only [h, Bool.false_eq_true, if_false]
  split
  · rfl
  · split
    · exact hlexeme _ (Lexeme.decoded_of_none rfl)
    · split
      · exact Starter.outcome_keepsDamage _ config s c
      · exact hlexeme _ (Lexeme.operator_decoded _ c _)
      · exact hlexeme _ (Lexeme.broken_decoded (fun h => by cases h) c _)

end stepAt

namespace Scanner

variable {entries : List Entry} {s : Scanner}

/-! ## Scans and runs -/

/-- Whether a token of a source starts with a malformed rune. -/
def startsMalformed (source : Bytes) (t : Token) : Bool :=
  (Rune.decodeAt source t.pos.offset).1.isInvalid

/-- A scan adds an error about the encoding exactly if its token starts with a malformed rune, and
the error stands there. -/
theorem Placed.scan_damage (h : s.Placed entries) :
    s.scan.2.state.damage = s.state.damage ++
      ([s.scan.1].filter (startsMalformed s.cursor.source)).map Token.pos := by
  obtain ⟨first, s', hreach, hpos, -, hsame, hfound⟩ :=
    nextToken_last entries s.config s.state h.canonical.le_length
  rw [← h.table_eq] at hpos hfound
  have hstart : startsMalformed s.cursor.source s.scan.1 = first.rune.isInvalid := by
    rw [startsMalformed, scan_token, hpos, ← hreach.source_eq, Cursor.rune, Cursor.reading_eq]
    rfl
  have hbefore : s'.damage = s.state.damage := State.damage_congr hsame
  have hsettle : s.scan.2.state.damage =
      (nextToken s.table s.config s.state s.cursor).2.2.damage := by
    rw [scan_state]
    exact State.damage_congr rfl
  rw [List.filter_singleton, hstart, hsettle]
  rcases hfound with ⟨hend, hfound⟩ | ⟨t, next, s'', hstep, hfound⟩
  · -- At the end there is no rune that could be malformed.
    rw [Cursor.rune_eq_eof_iff.mpr hend, hfound]
    exact hbefore.trans (List.append_nil _).symm
  · rw [hfound]
    rw [h.table_eq] at hstep
    rcases hinvalid : first.rune.isInvalid with _ | _
    · have hkeeps := stepAt_keepsDamage (.ofEntries entries) s.config s' hinvalid
      rw [hstep] at hkeeps
      exact (hkeeps.trans hbefore).trans (List.append_nil _).symm
    · rw [stepAt_of_isInvalid _ _ _ hinvalid] at hstep
      obtain ⟨-, -, rfl⟩ := Outcome.token.inj hstep
      have hplace : s.scan.1.pos = first.pos := hpos
      rw [State.damage_report, hbefore, cond_true, List.map_singleton, hplace]
      rfl

/-- So does a reading of a resolved token. -/
theorem Placed.lex_damage (h : s.Placed entries) :
    s.lex.2.state.damage = s.state.damage ++
      ([s.lex.1].filter (startsMalformed s.cursor.source)).map Token.pos := by
  have hpos : s.lex.1.pos = s.scan.1.pos := resolve_pos _ _
  have hscan := h.scan_damage
  rw [List.filter_singleton, startsMalformed] at hscan ⊢
  rw [hpos]
  refine hscan.trans (congrArg _ ?_)
  rcases (Rune.decodeAt s.cursor.source s.scan.1.pos.offset).1.isInvalid with _ | _
  · rfl
  · rw [cond_true, cond_true, List.map_singleton, List.map_singleton, hpos]

/-- Whether a run over a source has found the damage among its tokens, and nothing else. -/
structure FindsDamage (entries : List Entry) (source : Bytes) (ts : List Token) (s : Scanner) :
    Prop where
  /-- The scanner stands on the walk. -/
  placed : s.Placed entries
  /-- The run is one over the source. -/
  source_eq : s.cursor.source = source
  /-- The tokens start between runes. -/
  boundary : ∀ t ∈ ts, Boundary source t.pos.offset
  /-- The errors about the encoding are those of the tokens that start with a malformed rune. -/
  damage_eq : s.state.damage = (ts.filter (startsMalformed source)).map Token.pos

/-- Reading a token keeps it so. -/
theorem FindsDamage.read {source : Bytes} {ts : List Token} {call : Token × Scanner}
    (h : FindsDamage entries source ts s) (hplaced : call.2.Placed entries)
    (hrecorded : Recorded s.state s.cursor call.1 call.2.cursor call.2.state)
    (hreach : s.cursor.Reaches call.2.cursor)
    (hdamage : call.2.state.damage = s.state.damage ++
      ([call.1].filter (startsMalformed s.cursor.source)).map Token.pos) :
    FindsDamage entries source (ts ++ [call.1]) call.2 := by
  obtain ⟨first, hfirst, hpos⟩ := hrecorded.token
  refine ⟨hplaced, hreach.source_eq.trans h.source_eq, fun t ht => ?_, ?_⟩
  · rcases List.mem_append.mp ht with ht | ht
    · exact h.boundary t ht
    · rw [List.mem_singleton.mp ht, hpos, ← h.source_eq, ← hfirst.source_eq]
      exact (hfirst.canonical h.placed.canonical).boundary
  · rw [hdamage, h.damage_eq, h.source_eq, List.filter_append, List.map_append]

/-- Each of the errors stands at the start of a token, where no character is encoded but one that is
read as malformed. -/
theorem FindsDamage.place {source : Bytes} {ts : List Token} (h : FindsDamage entries source ts s)
    {p : Position} (hp : ⟨.invalidUtf8, p⟩ ∈ s.state.errors) :
    Boundary source p.offset ∧ p.offset < source.length ∧
      ∀ ch, EncodedAt source p.offset ch → ReadsMalformed p.offset ch := by
  rw [← State.mem_damage, h.damage_eq, List.mem_map] at hp
  obtain ⟨t, ht, rfl⟩ := hp
  obtain ⟨htrace, hstarts⟩ := List.mem_filter.mp ht
  have hlt := lt_length_of_isInvalid hstarts
  exact ⟨h.boundary t htrace, hlt, (isInvalid_decodeAt_iff hlt).mp hstarts⟩

/-- In a run over one source the errors about the encoding are those of the tokens that start with a
malformed rune, in order. -/
theorem trace_damage (entries : List Entry) (config : Config) (source : Bytes) {ops : List Op}
    (hops : ∀ op ∈ ops, op.Stays) :
    FindsDamage entries source ((start (.ofEntries entries) config source).trace ops)
      ((start (.ofEntries entries) config source).run ops) := by
  refine trace_induct (P := FindsDamage entries source) hops
    ⟨start_placed entries config source, rfl, by simp, rfl⟩ ?_ ?_ ?_ ?_
  · intro ts s h
    exact h.read h.placed.scan h.placed.scan_records h.placed.scan_finds.reaches
      h.placed.scan_damage
  · intro ts s h
    exact h.read h.placed.lex h.placed.lex_records h.placed.scan_finds.reaches h.placed.lex_damage
  · intro ts s mode h
    exact ⟨Op.apply_placed (.setMode mode) h.placed, h.source_eq, h.boundary, h.damage_eq⟩
  · intro ts s least most h
    have hreach := Lexeme.version_reaches least most s.cursor
    exact ⟨Op.apply_placed (.skipVersion least most) h.placed, hreach.source_eq.trans h.source_eq,
      h.boundary, h.damage_eq⟩

/-- Whatever calls were made, an error about the encoding stands only where no character is encoded
but one of the three that are read as malformed. Over a text without these there is no such error.
And a scan that comes to a place where no character is encoded reports that. -/
theorem run_malformed (entries : List Entry) (config : Config) (source : Bytes) (ops : List Op)
    (s : Scanner) (hs : s = (start (.ofEntries entries) config source).run ops) :
    (∀ p, ⟨.invalidUtf8, p⟩ ∈ s.state.errors → p.offset < s.cursor.source.length ∧
        ∀ ch, EncodedAt s.cursor.source p.offset ch → ReadsMalformed p.offset ch) ∧
      (∀ text, s.cursor.source = Bytes.ofString text →
        (∀ i ch, text.toList[i]? = some ch → ¬ReadsMalformed i ch) →
        ∀ error ∈ s.state.errors, error.kind ≠ .invalidUtf8) ∧
      (s.scan.1.pos.offset < s.cursor.source.length →
        (∀ ch, ¬EncodedAt s.cursor.source s.scan.1.pos.offset ch) →
        ⟨.invalidUtf8, s.scan.1.pos⟩ ∈ s.scan.2.state.errors) := by
  obtain ⟨config', source', ops', hops', hrun⟩ := run_over_one entries config source ops
  have hfinds := trace_damage entries config' source' hops'
  rw [← hrun, ← hs] at hfinds
  have hsource := hfinds.source_eq
  subst hsource
  refine ⟨fun p hp => (hfinds.place hp).2, fun text htext hplain error herror hkind => ?_,
    fun hlt hnone => ?_⟩
  · obtain ⟨kind, p⟩ := error
    obtain rfl : kind = .invalidUtf8 := hkind
    obtain ⟨hb, hlt, hmalformed⟩ := hfinds.place herror
    rw [htext] at hb hlt hmalformed
    -- At a boundary of the text there is one of its characters, and it is none of the three.
    obtain ⟨n, ch, hch, hencoded, hpos⟩ := hb.exists_encodedAt hlt
    exact hplain n ch hch ((hmalformed ch hencoded).imp_right
      (Or.imp_right fun hbom => ⟨hbom.1, hpos hbom.2⟩))
  · have hstarts : startsMalformed s.cursor.source s.scan.1 = true :=
      (isInvalid_decodeAt_iff hlt).mpr fun ch hch => absurd hch (hnone ch)
    rw [← State.mem_damage, hfinds.placed.scan_damage, List.filter_singleton, hstarts]
    exact List.mem_append_right _ (List.mem_singleton_self _)

/-- In a source that comes after another a byte of no encoding is reported. -/
theorem run_malformed_byte :
    ∃ s, s = (start (.ofEntries []) {} [0x61]).run
        [.lex, .restart [0x61, 0x20, 0xFF], .lex, .scan] ∧
      ⟨.invalidUtf8, ⟨1, 3, 2⟩⟩ ∈ s.state.errors ∧ ∀ ch, ¬EncodedAt [0x61, 0x20, 0xFF] 2 ch := by
  obtain ⟨s, hs⟩ : ∃ s, s = (start (.ofEntries []) {} [0x61]).run
      [.lex, .restart [0x61, 0x20, 0xFF], .lex, .scan] := ⟨_, rfl⟩
  have herror : ⟨.invalidUtf8, ⟨1, 3, 2⟩⟩ ∈ s.state.errors := by
    rw [hs]
    decide +kernel
  have hsource : s.cursor.source = [0x61, 0x20, 0xFF] := by
    rw [hs]
    decide +kernel
  have hplace := (run_malformed [] {} [0x61] _ s hs).1 _ herror
  rw [hsource] at hplace
  -- Not even one of the three that would be read as malformed is encoded there.
  refine ⟨s, hs, herror, fun ch hch => ?_⟩
  rcases hplace.2 ch hch with rfl | rfl | ⟨rfl, -⟩
  · exact absurd hch (by decide)
  · exact absurd hch (by decide)
  · exact absurd hch (by decide)

/-- NUL is reported as malformed, and so is a byte-order mark behind the start, although each of
them is encoded there. -/
theorem scan_nul :
    EncodedAt (Bytes.ofString "\x00 \ufeff") 0 '\x00' ∧
      EncodedAt (Bytes.ofString "\x00 \ufeff") 2 '\ufeff' ∧
      ((start (.ofEntries []) {} (Bytes.ofString "\x00 \ufeff")).run [.scan, .scan]).state.errors =
        [⟨.invalidUtf8, ⟨1, 1, 0⟩⟩, ⟨.invalidUtf8, ⟨1, 3, 2⟩⟩] := by
  exact ⟨by decide, by decide, by decide +kernel⟩

end Scanner

end SqlTokens
