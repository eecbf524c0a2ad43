import SqlTokens.Proofs.Readings

/-!
# Settings that matter

Few of the settings of a scanner matter to what it reads. Raw tokens depend on one flag of the mode,
the one about escapes in strings (`Config.SameRaw`), and resolved tokens on five flags and on
whether the words of window functions are reserved (`Config.SameResolved`). Two scanners with
settings that agree on these read the same tokens, and are the same behind each call but for their
settings. A call that keeps two scanners like that is blind to what their settings disagree on
(`Scanner.Op.Blind`), and so is a run of such calls (`Scanner.run_blind`).
-/

namespace SqlTokens

/-- The flags that matter to the scanner. -/
def Flag.lexical : List Flag :=
  [.ansiQuotes, .noBackslashEscapes, .pipesAsConcat, .ignoreSpace, .highNotPrecedence]

namespace Config

/-- Whether two settings agree on what raw tokens depend on. -/
def SameRaw (config other : Config) : Prop :=
  config.has .noBackslashEscapes = other.has .noBackslashEscapes

instance (config other : Config) : Decidable (config.SameRaw other) :=
  inferInstanceAs (Decidable (_ = _))

/-- Whether two settings agree on what resolved tokens depend on. -/
def SameResolved (config other : Config) : Prop :=
  config.windowFunctions = other.windowFunctions ∧
    ∀ flag ∈ Flag.lexical, config.has flag = other.has flag

instance (config other : Config) : Decidable (config.SameResolved other) :=
  inferInstanceAs (Decidable (_ ∧ _))

/-- Resolved tokens depend on all that raw tokens depend on. -/
theorem SameResolved.raw {config other : Config} (h : config.SameResolved other) :
    config.SameRaw other :=
  h.2 .noBackslashEscapes (by decide)

end Config

/-! ## Steps -/

section steps

variable {config other : Config}

/-- What a form makes of the bytes at a cursor depends on the flag about escapes alone. -/
theorem Starter.outcome_sameRaw (h : config.SameRaw other) (starter : Starter) (s : State)
    (c : Cursor) : starter.outcome other s c = starter.outcome config s c := by
  have hescapes : config.has .noBackslashEscapes = other.has .noBackslashEscapes := h
  unfold Starter.outcome
  rw [hescapes]

/-- A step depends on the flag about escapes alone. -/
theorem step_sameRaw (h : config.SameRaw other) (table : Table) (s : State) (c : Cursor) :
    step table other s c = step table config s c := by
  unfold step stepAt
  simp only [Starter.outcome_sameRaw h]

/-- A search for a token depends on the flag about escapes alone. -/
theorem nextToken_sameRaw (h : config.SameRaw other) (table : Table) (s : State) (c : Cursor) :
    nextToken table other s c = nextToken table config s c := by
  fun_induction nextToken table config s c with
  | case1 s c t next s' hstep =>
    exact nextToken_of_token ((step_sameRaw h table s c).trans hstep)
  | case2 s c next s' hstep ih =>
    rw [nextToken_of_trivia ((step_sameRaw h table s c).trans hstep)]
    exact ih

end steps

namespace Scanner

/-- The scanner with other settings. -/
def withConfig (s : Scanner) (config : Config) : Scanner := { s with config }

/-! ## Readings -/

section readings

variable {s : Scanner} {other : Config}

/-- A scan reads the same token under settings that agree on what raw tokens depend on. -/
theorem scan_withConfig (h : s.config.SameRaw other) :
    (s.withConfig other).scan = (s.scan.1, s.scan.2.withConfig other) := by
  unfold scan withConfig
  simp only [nextToken_sameRaw h]

/-- A stream of scans starts with the next one, and goes on if that is not the end. -/
theorem scanAll_unfold (s : Scanner) : s.scanAll =
    if s.scan.1.isEnd then ([s.scan.1], s.scan.2)
    else (s.scan.1 :: s.scan.2.scanAll.1, s.scan.2.scanAll.2) :=
  Reading.raw.readAll_unfold s

/-- A stream of scans is the same under settings that agree on what raw tokens depend on. -/
theorem scanAll_withConfig (h : s.config.SameRaw other) :
    (s.withConfig other).scanAll = (s.scanAll.1, s.scanAll.2.withConfig other) ∧
      s.scanAll.2.config = s.config := by
  fun_induction scanAll s with
  | case1 s t next hscan hend =>
    have hone := scan_withConfig h
    have hnext : s.scan.2.config = s.config := rfl
    rw [hscan] at hone hnext
    rw [scanAll_unfold, hone, if_pos hend]
    exact ⟨rfl, hnext⟩
  | case2 s t next hscan hend rest ih =>
    have hone := scan_withConfig h
    have hnext : s.scan.2.config = s.config := rfl
    rw [hscan] at hone hnext
    obtain ⟨hrest, hconfig⟩ := ih (by rwa [hnext])
    rw [scanAll_unfold, hone, if_neg hend]
    simp only
    rw [hrest]
    exact ⟨rfl, hconfig.trans hnext⟩

/-- Resolution looks at nothing but what resolved tokens depend on. -/
theorem resolve_withConfig (h : s.config.SameResolved other) (t : Token) :
    (s.withConfig other).resolve t = s.resolve t := by
  obtain ⟨hwindows, hflags⟩ := h
  have hansi := hflags .ansiQuotes (by decide)
  have hpipes := hflags .pipesAsConcat (by decide)
  have hspace := hflags .ignoreSpace (by decide)
  have hnot := hflags .highNotPrecedence (by decide)
  have hparenthesis : (s.withConfig other).followedByParenthesis = s.followedByParenthesis := by
    unfold followedByParenthesis withConfig
    simp only [hspace]
  have happlies (word : Keyword) : (s.withConfig other).applies word = s.applies word := by
    unfold applies
    rw [hparenthesis, hwindows]
    rfl
  have hkind (word : Keyword) : (s.withConfig other).kindOf word = s.kindOf word := by
    unfold kindOf
    rw [hnot]
    rfl
  have hname : (s.withConfig other).resolveName t = s.resolveName t := by
    unfold resolveName
    simp only [happlies, hkind]
    rfl
  unfold resolve
  rw [hname, hansi, hpipes]
  rfl

/-- A reading of a resolved token is the same under settings that agree on what resolved tokens
depend on. -/
theorem lex_withConfig (h : s.config.SameResolved other) :
    (s.withConfig other).lex = (s.lex.1, s.lex.2.withConfig other) := by
  have hresolve : (s.scan.2.withConfig other).resolve s.scan.1 = s.scan.2.resolve s.scan.1 :=
    resolve_withConfig (s := s.scan.2) h s.scan.1
  unfold lex
  rw [scan_withConfig h.raw]
  simp only [hresolve]
  rfl

end readings

/-! ## Runs -/

/-- Whether a call reads the same tokens under settings that are related, and leaves the same
scanner but for settings that are related again. -/
def Op.Blind (R : Config → Config → Prop) (op : Op) : Prop :=
  ∀ (s : Scanner) (other : Config), R s.config other →
    op.reads (s.withConfig other) = op.reads s ∧
      ∃ later, op.apply (s.withConfig other) = (op.apply s).withConfig later ∧
        R (op.apply s).config later

/-- Whether a call reads a resolved token. -/
def Op.ReadsResolved : Op → Prop
  | lex => True
  | _ => False

/-- A run of calls that are blind to what settings disagree on is blind to it. -/
theorem run_blind {R : Config → Config → Prop} {ops : List Op} (hops : ∀ op ∈ ops, op.Blind R)
    {s : Scanner} {other : Config} (h : R s.config other) :
    (s.withConfig other).trace ops = s.trace ops ∧
      ∃ later, (s.withConfig other).run ops = (s.run ops).withConfig later := by
  induction ops generalizing s other with
  | nil => exact ⟨rfl, other, rfl⟩
  | cons op ops ih =>
    obtain ⟨hop, hrest⟩ := List.forall_mem_cons.mp hops
    obtain ⟨hreads, middle, happly, hmiddle⟩ := hop s other h
    obtain ⟨htrace, later, hrun⟩ := ih hrest hmiddle
    refine ⟨?_, later, ?_⟩
    · rw [trace, trace, hreads, happly, htrace]
    · change ((op.apply (s.withConfig other)).run ops) = ((op.apply s).run ops).withConfig later
      rw [happly, hrun]

/-- A call is blind to what settings disagree on if it reads no resolved token and they agree on
what raw tokens depend on, or if they agree on what resolved tokens depend on. A change of the mode
is to leave the settings related. -/
theorem Op.blind {R : Config → Config → Prop} {op : Op}
    (hraw : ∀ config other, R config other → config.SameRaw other)
    (hresolved : op.ReadsResolved → ∀ config other, R config other → config.SameResolved other)
    (hmode : ∀ config other mode, R config other →
      R { config with mode := mode } { other with mode := mode }) : op.Blind R := by
  intro s other h
  have hscan := scan_withConfig (hraw _ _ h)
  cases op with
  | scan =>
    refine ⟨?_, other, ?_, h⟩
    · rw [reads, reads, hscan]
    · rw [apply, hscan]
      rfl
  | lex =>
    have hlex := lex_withConfig (hresolved trivial _ _ h)
    refine ⟨?_, other, ?_, h⟩
    · rw [reads, reads, hlex]
    · rw [apply, hlex]
      rfl
  | tokens =>
    obtain ⟨hall, hconfig⟩ := scanAll_withConfig (hraw _ _ h)
    refine ⟨?_, other, ?_, ?_⟩
    · rw [reads, reads, hall]
    · rw [apply, Scanner.tokens, hall]
      rfl
    · rwa [apply, show s.tokens.2 = s.scanAll.2 from rfl, hconfig]
  | setMode mode => exact ⟨rfl, _, rfl, hmode _ _ mode h⟩
  | skipVersion least most => exact ⟨rfl, other, rfl, h⟩
  | restart source => exact ⟨rfl, other, rfl, h⟩

/-- Only few settings matter to what a scanner reads. Two fresh scanners whose settings agree on
whether the words of window functions are reserved and on the five flags that matter read the same
tokens, whatever the calls are, and come to the same place with the same state, errors, warnings and
hints included. If no call reads a resolved token, it is enough that the settings agree on escapes.
-/
theorem run_settings (table : Table) (source : Bytes) (config other : Config) (ops : List Op)
    (h : config.SameResolved other ∨
      config.SameRaw other ∧ ∀ op ∈ ops, ¬op.ReadsResolved) :
    (start table other source).trace ops = (start table config source).trace ops ∧
      ∃ later, (start table other source).run ops =
        ((start table config source).run ops).withConfig later := by
  have hstart : start table other source = (start table config source).withConfig other := rfl
  rw [hstart]
  rcases h with h | ⟨h, hops⟩
  · refine run_blind (R := Config.SameResolved) (fun op _ => ?_) h
    exact Op.blind (fun _ _ h => h.raw) (fun _ _ _ h => h) fun _ _ _ h => ⟨h.1, fun _ _ => rfl⟩
  · refine run_blind (R := Config.SameRaw) (fun op hop => ?_) h
    exact Op.blind (fun _ _ h => h) (fun hlex => absurd hlex (hops op hop)) fun _ _ _ _ => rfl

/-- A name in quotation marks is read alike under a strict mode with a bit that is no flag's, which
matters to no token, and its raw token also under the mode that makes it a name, which matters to
the resolved one. -/
theorem run_settings_quotes : ∃ strict ansi : Config,
    strict = { mode := ⟨0x8000000000400000⟩, recordPositions := false } ∧
      ansi = { mode := .ofFlag .ansiQuotes } ∧
      Config.SameResolved {} strict ∧ Config.SameRaw {} ansi ∧
      (start (.ofEntries []) strict [0x22, 0x61, 0x22]).trace [.lex, .scan] =
        (start (.ofEntries []) {} [0x22, 0x61, 0x22]).trace [.lex, .scan] ∧
      (start (.ofEntries []) ansi [0x22, 0x61, 0x22]).trace [.scan] =
        (start (.ofEntries []) {} [0x22, 0x61, 0x22]).trace [.scan] ∧
      (start (.ofEntries []) ansi [0x22, 0x61, 0x22]).trace [.lex] ≠
        (start (.ofEntries []) {} [0x22, 0x61, 0x22]).trace [.lex] := by
  have hstrict :
      Config.SameResolved {} { mode := ⟨0x8000000000400000⟩, recordPositions := false } := by
    decide
  have hansi : Config.SameRaw {} { mode := .ofFlag .ansiQuotes } := by decide
  refine ⟨_, _, rfl, rfl, hstrict, hansi, ?_, ?_, by decide +kernel⟩
  · exact (run_settings _ _ _ _ _ (.inl hstrict)).1
  · refine (run_settings _ _ _ _ _ (.inr ⟨hansi, ?_⟩)).1
    exact List.forall_mem_singleton.mpr id

end Scanner

end SqlTokens
