import SqlTokens.Proofs.ContinuedReadings

/-!
# Points behind names

Whether the last name is followed by a point matters in two places only: at a point, which is then
no beginning of a number, and at a digit, which is then the beginning of a name. Two searches that
differ in this mark alone part at the first of these places, or find the same token
(`nextToken_forks`). `Scanner.Placed.lexAll_marked` says this of all tokens: those of two readings
that differ in the mark are the same, unless the first token behind points is a number to the one
without mark.
-/

namespace SqlTokens

/-- The kinds of the forms that start with a digit, or with a point that is no token by itself, when
they are no names. -/
def TokenKind.numbers : List TokenKind :=
  [.intLiteral, .decimalLiteral, .floatLiteral, .hexLiteral, .bitLiteral, .invalid]

/-- Whether a byte starts a form that the point behind a name matters to. -/
def Rune.startsNumber (b : UInt8) : Bool := b == 0x2E || onByte isDigit b

/-- Whether a token of a source is a number, malformed or not, that starts with a digit or a point.
-/
def Token.IsNumber (source : Bytes) (t : Token) : Prop :=
  t.kind ∈ TokenKind.numbers ∧ ∃ b ∈ source[t.pos.offset]?, Rune.startsNumber b = true

instance (source : Bytes) (t : Token) : Decidable (t.IsNumber source) :=
  inferInstanceAs (Decidable (_ ∧ _))

/-! ## Numbers and names -/

namespace Lexeme

variable (c : Cursor)

/-- A literal with a leading zero is a name or has the kind of a number. -/
theorem radix_cases {kind : TokenKind} (hkind : kind ∈ TokenKind.numbers) (digit : Rune → Bool) :
    radix kind digit c = word c ∨ (radix kind digit c).kind ∈ TokenKind.numbers := by
  unfold radix
  simp only
  split
  · exact .inr hkind
  · exact .inl rfl

/-- A number with a point or an exponent has the kind of a number. -/
theorem scaled?_kind {digits : Cursor} {l : Lexeme} (h : scaled? c digits = some l) :
    l.kind ∈ TokenKind.numbers := by
  unfold scaled? at h
  split at h
  · obtain ⟨stop, -, rfl⟩ := Option.map_eq_some_iff.mp h
    exact (by decide : TokenKind.floatLiteral ∈ TokenKind.numbers)
  · cases h
    exact (by decide : TokenKind.decimalLiteral ∈ TokenKind.numbers)

/-- What starts with a digit is a name or has the kind of a number. -/
theorem number_cases :
    number false c = word c ∨ (number false c).kind ∈ TokenKind.numbers := by
  have hscaled (digits : Cursor) : (scaled? c digits).getD (word c) = word c ∨
      ((scaled? c digits).getD (word c)).kind ∈ TokenKind.numbers := by
    rcases h : scaled? c digits with _ | l
    · exact .inl rfl
    · exact .inr (scaled?_kind c h)
  unfold number
  simp only [Bool.false_eq_true, if_false]
  repeat' split
  · exact radix_cases c (by decide) _
  · exact radix_cases c (by decide) _
  · exact hscaled _
  · exact hscaled _
  · exact .inl rfl
  · exact .inr (by decide : TokenKind.intLiteral ∈ TokenKind.numbers)

/-- Behind the point of a name a digit starts a name. -/
theorem number_true : number true c = word c := by
  unfold number
  simp only [if_true]

/-- Behind the point of a name a point is a token by itself. -/
theorem dot_true : dot true c = whole (.ofChar '.') c c.advance := by
  unfold dot
  simp only [Bool.true_or, if_true]

/-- A point is a token by itself, or it has the kind of a number. -/
theorem dot_cases : dot false c = whole (.ofChar '.') c c.advance ∨
    (dot false c).kind ∈ TokenKind.numbers := by
  unfold dot
  simp only [Bool.false_or]
  split
  · exact .inl rfl
  · right
    rcases h : scaled? c (c.advance.skipWhile Rune.isDigit) with _ | l
    · exact (by decide : TokenKind.invalid ∈ TokenKind.numbers)
    · exact scaled?_kind c h

end Lexeme

/-! ## Steps -/

/-- The state with another mark of whether the last name is followed by a point. -/
def State.mark (s : State) (flag : Bool) : State := { s with afterNameDot := flag }

/-- The outcome with another mark in its state. -/
def Outcome.mark (flag : Bool) : Outcome → Outcome
  | .token t next s => .token t next (s.mark flag)
  | .trivia next s => .trivia next (s.mark flag)

/-- A family of outcomes, one for each mark, that the mark makes no other difference to. -/
inductive Outcome.Indifferent (o : Bool → Outcome) : Prop where
  /-- The outcomes differ in the mark that they hand on. -/
  | marked (base : Outcome) : (∀ flag, o flag = base.mark flag) → Indifferent o
  /-- The outcomes are one and the same token. -/
  | settled (t : Token) (next : Cursor) (s : State) : (∀ flag, o flag = .token t next s) →
      Indifferent o

namespace Comment

variable (s : State) (c : Cursor)

/-- A comment is the same with every mark. -/
theorem block_mark (inside : Cursor) (flag : Bool) :
    block (s.mark flag) c inside = (block s c inside).mark flag := by
  unfold block
  rcases closing? inside with _ | stop
  · rfl
  · rfl

/-- What starts with a slash is the same with every mark. -/
theorem slash_mark (flag : Bool) : slash (s.mark flag) c = (slash s c).mark flag := by
  have hgated (mark : Cursor) : gated (s.mark flag) c mark = (gated s c mark).mark flag := by
    unfold gated
    split
    · split
      · rfl
      · exact block_mark s c _ flag
    · rfl
  have hhint (inside : Cursor) : hint (s.mark flag) c inside = (hint s c inside).mark flag := by
    have hrecent : (s.mark flag).recent = s.recent := rfl
    unfold hint
    rw [hrecent]
    split
    · rcases closing? inside with _ | stop
      · rfl
      · rfl
    · exact block_mark (s.warn .ignoredOptimizerHint c.pos) c inside flag
  have hrecent : (s.mark flag).recent = s.recent := rfl
  unfold slash
  simp only [hrecent]
  split
  · rfl
  · split
    · rfl
    · split
      · exact hgated _
      · split
        · exact hhint _
        · exact block_mark s c _ flag

/-- What starts with a dash is the same with every mark. -/
theorem dash_mark (flag : Bool) : dash (s.mark flag) c = (dash s c).mark flag := by
  unfold dash
  simp only
  repeat' split
  all_goals rfl

/-- What starts with a star takes the mark away, or does not look at it. -/
theorem star_indifferent : Outcome.Indifferent fun flag => star (s.mark flag) c := by
  have hvendor (flag : Bool) : (s.mark flag).inVendorBlock = s.inVendorBlock := rfl
  unfold star
  simp only [hvendor]
  split
  · exact .marked (.trivia c.advance.advance { s with inVendorBlock := false }) fun _ => rfl
  · exact .settled ((Lexeme.whole (.ofChar '*') c c.advance).token c) c.advance
      (State.report { s with afterNameDot := false } none) fun _ => rfl

end Comment

variable (config : Config) (s : State) {c : Cursor}

/-- Where neither a point nor a digit stands, a step is the same with every mark. -/
theorem stepAt_indifferent (h : ∀ b ∈ c.ahead.head?, Rune.startsNumber b = false) :
    Outcome.Indifferent fun flag => stepAt .standard config (s.mark flag) c := by
  have hmark {o : State → Outcome} (ho : ∀ flag, o (s.mark flag) = (o s).mark flag) :
      Outcome.Indifferent fun flag => o (s.mark flag) := .marked (o s) ho
  have hlexeme (l : Lexeme) : Outcome.Indifferent fun flag => .ofLexeme c (s.mark flag) l :=
    hmark (o := fun s => .ofLexeme c s l) fun _ => rfl
  refine stepAt_cases Vocabulary.standard config c
    (P := fun o => Outcome.Indifferent fun flag => o (s.mark flag))
    (hmark (o := fun s => .trivia c.advance s) fun _ => rfl) hlexeme ?_
  intro starter b hb hopens
  have hplain := h b hb
  cases starter with
  | slash => exact hmark (o := fun s => Comment.slash s c) (Comment.slash_mark s c)
  | star => exact Comment.star_indifferent s c
  | sharp => exact hmark (o := fun s => Comment.sharp s c) fun _ => rfl
  | dash => exact hmark (o := fun s => Comment.dash s c) (Comment.dash_mark s c)
  | dot =>
    have hpoint : (0x2E : UInt8) = b := (Starter.opens_of_ofByte? hopens).2.2
    rw [← hpoint] at hplain
    exact absurd hplain (by decide)
  | number =>
    have hdigit : Rune.startsNumber b = true := by
      rw [Rune.startsNumber, Rune.onByte, (Starter.opens_class b).2.mp hopens, Bool.or_true]
    exact absurd hplain (by rw [hdigit]; decide)
  | «at» => exact hlexeme _
  | string => exact hlexeme _
  | quotedIdentifier => exact hlexeme _
  | hexMark => exact hlexeme _
  | bitMark => exact hlexeme _
  | nationalMark => exact hlexeme _
  | identifier => exact hlexeme _

/-! ## Searches -/

/-- What searches for a token that differ in the mark come to. -/
inductive Forks (config : Config) (s : State) (c : Cursor) : Prop where
  /-- They find the same token, which is no point and does not start as a number does. -/
  | same (t : Token) (next : Cursor) (s' : State) : t.kind ≠ .ofChar '.' →
      (∀ b ∈ c.source[t.pos.offset]?, Rune.startsNumber b = false) →
      (∀ flag, ∃ flag', nextToken .standard config (s.mark flag) c = (t, next, s'.mark flag')) →
      Forks config s c
  /-- They come to a point. -/
  | point (first : Cursor) (s' : State) : c.Reaches first → first.ahead.head? = some 0x2E →
      (∀ flag, nextToken .standard config (s.mark flag) c =
        ((Lexeme.dot flag first).token first, (Lexeme.dot flag first).stop, s'.mark flag)) →
      Forks config s c
  /-- They come to a digit. -/
  | digit (first : Cursor) (s' : State) (b : UInt8) : c.Reaches first →
      first.ahead.head? = some b → Rune.onByte Rune.isDigit b = true →
      (∀ flag, nextToken .standard config (s.mark flag) c =
        ((Lexeme.number flag first).token first, (Lexeme.number flag first).stop,
          s'.mark flag)) →
      Forks config s c

/-- The byte of the source at a cursor is the next one. -/
theorem Cursor.getElem?_offset (c : Cursor) : c.source[c.offset]? = c.ahead.head? := by
  rw [c.ahead_eq, List.head?_drop]
  rfl

/-- A step yields what lies behind blanks. -/
theorem step_of_open {table : Table} (h : (c.skipWhile Rune.isSpace).atEnd = false) :
    step table config s c = stepAt table config s (c.skipWhile Rune.isSpace) := by
  unfold step
  simp only [h, Bool.false_eq_true, if_false]

/-- A token that a step yields starts where the step does. -/
theorem pos_of_stepAt {entries : List Entry} {t : Token} {next : Cursor} {s' : State}
    (hc : c.offset ≤ c.source.length)
    (h : stepAt (.ofEntries entries) config s c = .token t next s') : t.pos = c.pos := by
  have hyields := stepAt_yields entries config s hc
  rw [h] at hyields
  obtain ⟨l, -, -, rfl, -⟩ := hyields
  rfl

/-- Searches that skip the same come to what they come to behind it. -/
theorem Forks.skip {s' : State} {next : Cursor} (hreach : c.Reaches next)
    (hskip : ∀ flag, nextToken .standard config (s.mark flag) c =
      nextToken .standard config (s'.mark flag) next)
    (h : Forks config s' next) : Forks config s c := by
  rcases h with ⟨t, last, s'', hkind, hbyte, hfound⟩ | ⟨place, s'', hplace, hpoint, hfound⟩ |
    ⟨place, s'', b, hplace, hb, hdigit, hfound⟩
  · rw [hreach.source_eq] at hbyte
    refine .same t last s'' hkind hbyte fun flag => ?_
    rw [hskip]
    exact hfound flag
  · exact .point place s'' (hreach.trans hplace) hpoint fun flag =>
      (hskip flag).trans (hfound flag)
  · exact .digit place s'' b (hreach.trans hplace) hb hdigit fun flag =>
      (hskip flag).trans (hfound flag)

/-- Searches that come to a point or a digit part there. -/
theorem forks_of_startsNumber {first : Cursor} {b : UInt8} (hreach : c.Reaches first)
    (hstep : ∀ s, step .standard config s c = stepAt .standard config s first)
    (hb : first.ahead.head? = some b) (hstarts : Rune.startsNumber b = true) :
    Forks config s c := by
  -- The token is the form that the byte opens, which reports nothing.
  have hform {starter : Starter} (hopens : Starter.ofByte? b = some starter) {l : Bool → Lexeme}
      (hl : ∀ flag, starter.outcome config (s.mark flag) first =
        .ofLexeme first (s.mark flag) (l flag)) (hfault : ∀ flag, (l flag).fault = none)
      (flag : Bool) : nextToken .standard config (s.mark flag) c =
        ((l flag).token first, (l flag).stop, s.mark flag) := by
    refine nextToken_of_token ?_
    rw [hstep, Table.standard, stepAt_of_starter _ config _ hb hopens, hl, Outcome.ofLexeme,
      hfault, State.report_none]
  rw [Rune.startsNumber, Bool.or_eq_true, beq_iff_eq] at hstarts
  rcases hstarts with rfl | hdigit
  · exact .point first s hreach hb (hform (show _ = some .dot by decide) (fun _ => rfl)
      fun flag => Lexeme.dot_fault flag _)
  · exact .digit first s b hreach hb hdigit (hform ((Starter.opens_class b).2.mpr hdigit)
      (fun _ => rfl) fun flag => Lexeme.number_fault flag _)

/-- Searches that differ in the mark part at a point or a digit, or find the same token. -/
theorem nextToken_forks (c : Cursor) (hc : c.offset ≤ c.source.length) : Forks config s c := by
  generalize hn : c.remaining = n
  induction n using Nat.strong_induction_on generalizing s c with
  | _ n ih =>
    have hblanks : c.Reaches (c.skipWhile Rune.isSpace) := (Cursor.Reaches.refl c).skipWhile _
    generalize hfirst : c.skipWhile Rune.isSpace = first at hblanks
    have hsource : c.source[first.offset]? = first.ahead.head? := by
      rw [← hblanks.source_eq, Cursor.getElem?_offset]
    rcases hend : first.atEnd with _ | _
    · have hstep (s : State) : step .standard config s c = stepAt .standard config s first := by
        rw [step_of_open config s (by rw [hfirst, hend]), hfirst]
      by_cases hstarts : ∃ b ∈ first.ahead.head?, Rune.startsNumber b = true
      · obtain ⟨b, hb, hstarts⟩ := hstarts
        exact forks_of_startsNumber config s hblanks hstep hb hstarts
      · have hplain : ∀ b ∈ first.ahead.head?, Rune.startsNumber b = false := fun b hb =>
          Bool.eq_false_iff.mpr fun hb' => hstarts ⟨b, hb, hb'⟩
        have hsame {t : Token} {next : Cursor} {s' : State} {m : Bool → Bool}
            (hall : ∀ flag, stepAt .standard config (s.mark flag) first =
              .token t next (s'.mark (m flag))) : Forks config s c := by
          refine .same t next s' (fun hkind => ?_) ?_ fun flag =>
            ⟨m flag, nextToken_of_token ((hstep _).trans (hall flag))⟩
          · have hpoint := hplain _ (head?_of_stepAt config _ (hall false) hkind)
            exact absurd hpoint (by decide)
          · have hpos := pos_of_stepAt config _ (hblanks.le_length hc) (hall false)
            rw [hpos]
            change ∀ b ∈ c.source[first.offset]?, _
            rwa [hsource]
        rcases stepAt_indifferent config s hplain with ⟨⟨t, next, s'⟩ | ⟨next, s'⟩, hall⟩ |
          ⟨t, next, s', hall⟩
        · exact hsame hall
        · -- What is skipped is skipped by both, and they go on behind it.
          have hreads := step_reads_of_trivia ((hstep (s.mark false)).trans (hall false))
          have hreach := step_reaches Vocabulary.standard config (s.mark false) hc
          change c.Reaches (step .standard config (s.mark false) c).next at hreach
          rw [hstep, hall] at hreach
          exact Forks.skip config s hreach
            (fun flag => nextToken_of_trivia ((hstep _).trans (hall flag)))
            (ih next.remaining (hn ▸ hreads) s' next (hreach.le_length hc) rfl)
        · exact hsame (m := fun _ => s'.afterNameDot) hall
    · refine .same (.endAt first.pos) first s (show TokenKind.eof ≠ _ by decide) ?_ fun flag =>
        ⟨flag, ?_⟩
      · change ∀ b ∈ c.source[first.offset]?, _
        rw [hsource, Cursor.atEnd_iff_ahead.mp hend]
        exact fun b hb => absurd hb (by simp)
      · refine nextToken_of_token ?_
        unfold step
        simp only [hfirst, hend, if_true]

/-! ## Readings -/

namespace Vocabulary

/-- No entry is a number. -/
theorem standard_not_number : ∀ e ∈ standard, e.kind ∉ TokenKind.numbers := by
  decide +kernel

end Vocabulary

/-- Whether the first token of a stream behind points is a number of a source. -/
def NumberLeads (source : Bytes) (ts : List Token) : Prop :=
  ∃ t ∈ ts.find? fun t => t.kind ≠ .ofChar '.', t.IsNumber source

instance (source : Bytes) (ts : List Token) : Decidable (NumberLeads source ts) :=
  inferInstanceAs (Decidable (∃ t ∈ ts.find? _, _))

section NumberLeads

variable {source : Bytes} {t : Token} (ts : List Token)

/-- A number leads behind a point if it leads what follows. -/
theorem numberLeads_cons_point (h : t.kind = .ofChar '.') :
    NumberLeads source (t :: ts) ↔ NumberLeads source ts := by
  unfold NumberLeads
  rw [List.find?_cons_of_neg (by simpa using h)]

/-- Any other token leads itself. -/
theorem numberLeads_cons (h : t.kind ≠ .ofChar '.') :
    NumberLeads source (t :: ts) ↔ t.IsNumber source := by
  unfold NumberLeads
  rw [List.find?_cons_of_pos (by simpa using h)]
  constructor
  · rintro ⟨t', ht, hnumber⟩
    rwa [Option.mem_some_iff.mp ht]
  · exact fun hnumber => ⟨t, rfl, hnumber⟩

end NumberLeads

namespace Scanner

variable {s : Scanner}

/-- Resolution leaves points and numbers as they are, and makes nothing else into one. -/
theorem Placed.lex_of_kind (hs : s.Placed Vocabulary.standard)
    (h : s.lex.1.kind ∈ .ofChar '.' :: TokenKind.numbers ∨
      s.scan.1.kind ∈ .ofChar '.' :: TokenKind.numbers) : s.lex.1 = s.scan.1 := by
  have hplain : ∀ kind ∈ .ofChar '.' :: TokenKind.numbers,
      kind ∉ [TokenKind.tightNot, .charsetIntroducer, .identifier, .pipesAsOr] ∧
        kind ∉ [TokenKind.identifier, .quotedIdentifier, .stringLiteral, .pipes] := by decide
  have hresolved : s.lex.1 = s.scan.2.resolve s.scan.1 := rfl
  have hkind : s.scan.1.kind ∈ .ofChar '.' :: TokenKind.numbers := by
    refine h.elim (fun hlex => ?_) id
    have hrelabels := resolve_relabels s.scan.2 s.scan.1
    rw [hs.scan.table_eq, ← hresolved] at hrelabels
    rwa [hrelabels.kind_eq (fun e he _ hentry => ?_) (hplain _ hlex).1]
    rw [← hentry] at hlex
    rcases List.mem_cons.mp hlex with hpoint | hnumber
    · exact Vocabulary.standard_ne (by decide) e he hpoint
    · exact Vocabulary.standard_not_number e he hnumber
  rw [hresolved, resolve_of_kind (hplain _ hkind).2]

/-- A resolved token is a point if the raw one is, and not otherwise. -/
theorem Placed.isPoint_lex (hs : s.Placed Vocabulary.standard) :
    s.lex.1.kind = .ofChar '.' ↔ s.scan.1.kind = .ofChar '.' := by
  constructor
  · intro h
    rwa [hs.lex_of_kind (.inl (h ▸ List.mem_cons_self ..))] at h
  · intro h
    rwa [hs.lex_of_kind (.inr (h ▸ List.mem_cons_self ..))]

/-- A resolved token is a number if the raw one is, and not otherwise. -/
theorem Placed.isNumber_lex (hs : s.Placed Vocabulary.standard) (source : Bytes) :
    s.lex.1.IsNumber source ↔ s.scan.1.IsNumber source := by
  constructor
  · intro h
    rwa [hs.lex_of_kind (.inl (List.mem_cons_of_mem _ h.1))] at h
  · intro h
    rwa [hs.lex_of_kind (.inr (List.mem_cons_of_mem _ h.1))]

/-- What leads a stream that does not start with a point. -/
theorem Placed.numberLeads_iff (hs : s.Placed Vocabulary.standard) (source : Bytes)
    (h : s.scan.1.kind ≠ .ofChar '.') :
    NumberLeads source s.lexAll.1 ↔ s.scan.1.IsNumber source := by
  rw [← hs.isNumber_lex]
  have hpoint : s.lex.1.kind ≠ .ofChar '.' := mt hs.isPoint_lex.mp h
  rw [lexAll_unfold]
  split
  · exact numberLeads_cons _ hpoint
  · exact numberLeads_cons _ hpoint

/-! ### Marks -/

/-- The scanner with another mark of whether the last name is followed by a point. -/
def mark (s : Scanner) (flag : Bool) : Scanner := { s with state := s.state.mark flag }

/-- A mark leaves a scanner in its place. -/
theorem Placed.mark {entries : List Entry} (h : s.Placed entries) (flag : Bool) :
    (s.mark flag).Placed entries :=
  ⟨h.table_eq, h.canonical⟩

/-- A token that is no point does not look at the mark before it. -/
theorem nameDot_of_ne {t : Token} (ht : t.kind ≠ .ofChar '.') (next : Cursor)
    (before before' : Bool) : nameDot t next before = nameDot t next before' := by
  unfold nameDot
  rw [if_neg ht, if_neg ht]

/-- A point keeps the mark before it. -/
theorem nameDot_of_point {t : Token} (ht : t.kind = .ofChar '.') (next : Cursor) (before : Bool) :
    nameDot t next before = before := by
  have hname : ¬(t.kind = .identifier ∨ t.kind = .quotedIdentifier) := by
    rw [ht]
    decide
  unfold nameDot
  rw [if_neg hname, if_pos ht]

/-- Behind a token that is no point the mark is forgotten. -/
theorem settle_mark (table : Table) {t : Token} (ht : t.kind ≠ .ofChar '.') (next : Cursor)
    (state : State) (flag : Bool) :
    settle table t next (state.mark flag) = settle table t next state := by
  unfold settle
  rw [nameDot_of_ne ht next _ state.afterNameDot]
  rfl

/-- Behind a point the mark stays. -/
theorem settle_mark_point (table : Table) {t : Token} (ht : t.kind = .ofChar '.') (next : Cursor)
    (state : State) (flag : Bool) :
    settle table t next (state.mark flag) = (settle table t next state).mark flag := by
  unfold settle
  rw [nameDot_of_point ht]
  rfl

/-- Scanners that scan the same read the same stream. -/
theorem lexAll_congr_scan {s s' : Scanner} (h : s.scan = s'.scan) : s.lexAll.1 = s'.lexAll.1 := by
  refine lexAll_congr ?_
  unfold Scanner.lex
  rw [h]

/-- Where both find the same token, and it is no point, the mark makes no difference. -/
theorem lexAll_mark_of_same {t : Token} {next : Cursor} {s' : State} (ht : t.kind ≠ .ofChar '.')
    (h : ∀ flag, ∃ flag', nextToken s.table s.config (s.state.mark flag) s.cursor =
      (t, next, s'.mark flag')) :
    (s.mark false).lexAll.1 = (s.mark true).lexAll.1 := by
  have hscan (flag : Bool) : (s.mark flag).scan = (t, { s with
      cursor := next
      state := settle s.table t next s'
      lastStart := t.pos.offset }) := by
    obtain ⟨flag', hfound⟩ := h flag
    rw [scan_of_nextToken (s := s.mark flag) hfound]
    change (t, { s with
      cursor := next
      state := settle s.table t next (s'.mark flag')
      lastStart := t.pos.offset }) = _
    rw [settle_mark _ ht]
  exact lexAll_congr_scan ((hscan false).trans (hscan true).symm)

/-- The first token of a stream is the next one. -/
theorem head?_lexAll (s : Scanner) : s.lexAll.1.head? = some s.lex.1 := by
  rw [lexAll_unfold]
  split
  · rfl
  · rfl

/-- Where both find a point, they go on behind it with the marks they had. -/
theorem lex_mark_of_point {t : Token} {next : Cursor} {s' : State} (ht : t.kind = .ofChar '.')
    (h : ∀ flag, nextToken s.table s.config (s.state.mark flag) s.cursor =
      (t, next, s'.mark flag)) : ∃ v : Scanner, ∀ flag, (s.mark flag).lex = (t, v.mark flag) := by
  refine ⟨{ s with
    cursor := next
    state := settle s.table t next s'
    lastStart := t.pos.offset }, fun flag => ?_⟩
  have hname : t.kind ≠ .identifier := by
    rw [ht]
    decide
  have hplain : t.kind ∉ [TokenKind.identifier, .quotedIdentifier, .stringLiteral, .pipes] := by
    rw [ht]
    decide
  have hscan := scan_of_nextToken (s := s.mark flag) (h flag)
  rw [show (s.mark flag).table = s.table from rfl, settle_mark_point _ ht] at hscan
  unfold Scanner.lex
  rw [hscan]
  simp only [resolve_of_kind hplain, noteResolved, if_neg hname]
  rfl

/-- Where only the scanner without mark finds a number, the streams differ. -/
theorem Placed.lexAll_mark_of_number (hs : s.Placed Vocabulary.standard)
    (hnumber : (s.mark false).scan.1.kind ∈ TokenKind.numbers)
    (hother : (s.mark true).scan.1.kind ∉ TokenKind.numbers) :
    (s.mark false).lexAll.1 ≠ (s.mark true).lexAll.1 := by
  intro hsame
  have hhead := congrArg List.head? hsame
  rw [head?_lexAll, head?_lexAll, Option.some.injEq] at hhead
  have hkind : (s.mark true).lex.1.kind ∈ TokenKind.numbers := by
    rw [← hhead, (hs.mark false).lex_of_kind (.inr (List.mem_cons_of_mem _ hnumber))]
    exact hnumber
  rw [(hs.mark true).lex_of_kind (.inl (List.mem_cons_of_mem _ hkind))] at hkind
  exact hother hkind

/-- What a search finds is the raw token of the marked scanner. -/
theorem Placed.scan_mark (hs : s.Placed Vocabulary.standard) {flag : Bool} {t : Token}
    {next : Cursor} {s' : State}
    (h : nextToken .standard s.config (s.state.mark flag) s.cursor = (t, next, s')) :
    (s.mark flag).scan.1 = t := by
  have htable : s.table = .standard := hs.table_eq
  rw [← htable] at h
  rw [scan_of_nextToken (s := s.mark flag) h]

/-- Where searches come to different forms, one of them a number, the streams differ, and the number
leads one of them. -/
theorem Placed.marked_of_forms (hs : s.Placed Vocabulary.standard) {first : Cursor} {b : UInt8}
    {s' : State} {form : Bool → Lexeme} (hreach : s.cursor.Reaches first)
    (hb : first.ahead.head? = some b) (hstarts : Rune.startsNumber b = true)
    (hfound : ∀ flag, nextToken .standard s.config (s.state.mark flag) s.cursor =
      ((form flag).token first, (form flag).stop, s'.mark flag))
    (hnumber : (form false).kind ∈ TokenKind.numbers)
    (hother : (form true).kind ∉ TokenKind.numbers) :
    (s.mark false).lexAll.1 = (s.mark true).lexAll.1 ↔
      ¬NumberLeads s.cursor.source (s.mark false).lexAll.1 := by
  have hplain := hs.scan_mark (hfound false)
  have hmarked := hs.scan_mark (hfound true)
  have hpoint : (form false).kind ≠ .ofChar '.' := by
    have hnot : TokenKind.ofChar '.' ∉ TokenKind.numbers := by decide
    exact fun hkind => hnot (hkind ▸ hnumber)
  refine iff_of_false (hs.lexAll_mark_of_number ?_ ?_) (not_not_intro ?_)
  · rwa [hplain]
  · rwa [hmarked]
  · rw [(hs.mark false).numberLeads_iff _ (by rwa [hplain]), hplain]
    refine ⟨hnumber, b, ?_, hstarts⟩
    change b ∈ s.cursor.source[first.offset]?
    rw [← hreach.source_eq, Cursor.getElem?_offset, hb]
    rfl

/-- Where searches come to the same token, and it is neither a point nor a number, the streams are
the same. -/
theorem Placed.marked_of_same (hs : s.Placed Vocabulary.standard) {t : Token} {next : Cursor}
    {s' : State} (hpoint : t.kind ≠ .ofChar '.') (hnumber : ¬t.IsNumber s.cursor.source)
    (hfound : ∀ flag, ∃ flag', nextToken .standard s.config (s.state.mark flag) s.cursor =
      (t, next, s'.mark flag')) :
    (s.mark false).lexAll.1 = (s.mark true).lexAll.1 ↔
      ¬NumberLeads s.cursor.source (s.mark false).lexAll.1 := by
  have htable : s.table = .standard := hs.table_eq
  obtain ⟨flag, hplain⟩ := hfound false
  have hscan := hs.scan_mark hplain
  refine iff_of_true (lexAll_mark_of_same hpoint (by rwa [htable])) ?_
  rwa [(hs.mark false).numberLeads_iff _ (by rwa [hscan]), hscan]

/-- Where both find a point, the streams go on behind it with the marks they had. -/
theorem Placed.marked_of_point (hs : s.Placed Vocabulary.standard) {t : Token} {next : Cursor}
    {s' : State} (ht : t.kind = .ofChar '.')
    (hfound : ∀ flag, nextToken .standard s.config (s.state.mark flag) s.cursor =
      (t, next, s'.mark flag)) :
    ∃ v : Scanner, v.Placed Vocabulary.standard ∧ v.cursor.source = s.cursor.source ∧
      v.remaining < s.remaining ∧
      ∀ flag, (s.mark flag).lexAll.1 = t :: (v.mark flag).lexAll.1 := by
  have htable : s.table = .standard := hs.table_eq
  obtain ⟨v, hlex⟩ := lex_mark_of_point ht (by rwa [htable])
  have hnext : (s.mark false).lex.2 = v.mark false := by rw [hlex]
  have hend (flag : Bool) : (s.mark flag).lex.1.isEnd = false := by
    rw [hlex]
    exact beq_false_of_ne (ht ▸ by decide)
  have hplaced := (hs.mark false).lex
  have hreach := (hs.mark false).lex_progresses.1
  have hlt := remaining_lex_lt (hend false)
  rw [hnext] at hplaced hreach hlt
  refine ⟨v, ⟨hplaced.table_eq, hplaced.canonical⟩, hreach.source_eq, hlt, fun flag => ?_⟩
  rw [lexAll_unfold, hend, if_neg Bool.false_ne_true, hlex]

/-- The tokens of a scanner do not depend on the mark, unless the first of them behind points is a
number to the scanner without mark. -/
theorem Placed.lexAll_marked (hs : s.Placed Vocabulary.standard) :
    (s.mark false).lexAll.1 = (s.mark true).lexAll.1 ↔
      ¬NumberLeads s.cursor.source (s.mark false).lexAll.1 := by
  generalize hn : s.remaining = n
  induction n using Nat.strong_induction_on generalizing s with
  | _ n ih =>
    rcases nextToken_forks s.config s.state s.cursor hs.canonical.le_length with
      ⟨t, next, s', hkind, hbyte, hfound⟩ | ⟨first, s', hreach, hpoint, hfound⟩ |
      ⟨first, s', b, hreach, hb, hdigit, hfound⟩
    · refine hs.marked_of_same hkind ?_ hfound
      rintro ⟨-, b, hb, hstarts⟩
      rw [hbyte b hb] at hstarts
      cases hstarts
    · rcases Lexeme.dot_cases first with hdot | hnumber
      · -- A point for both, which keeps the marks.
        have hsame (flag : Bool) : nextToken .standard s.config (s.state.mark flag) s.cursor =
            ((Lexeme.dot true first).token first, (Lexeme.dot true first).stop, s'.mark flag) := by
          rw [hfound]
          cases flag with
          | false => rw [hdot, Lexeme.dot_true]
          | true => rfl
        have hkind : ((Lexeme.dot true first).token first).kind = .ofChar '.' := by
          rw [Lexeme.dot_true]
          rfl
        obtain ⟨v, hv, hsource, hlt, hall⟩ := hs.marked_of_point hkind hsame
        rw [hall, hall, numberLeads_cons_point _ hkind, List.cons_inj_right, ← hsource]
        exact ih v.remaining (hn ▸ hlt) hv rfl
      · refine hs.marked_of_forms hreach hpoint (by decide) hfound hnumber ?_
        rw [Lexeme.dot_true]
        exact (by decide : TokenKind.ofChar '.' ∉ TokenKind.numbers)
    · have hname : TokenKind.identifier ∉ TokenKind.numbers := by decide
      rcases Lexeme.number_cases first with hword | hnumber
      · have hsame (flag : Bool) : nextToken .standard s.config (s.state.mark flag) s.cursor =
            ((Lexeme.word first).token first, (Lexeme.word first).stop, s'.mark flag) := by
          rw [hfound]
          cases flag with
          | false => rw [hword]
          | true => rw [Lexeme.number_true]
        have hpoint : TokenKind.identifier ≠ .ofChar '.' := by decide
        exact hs.marked_of_same hpoint (fun h => hname h.1) fun flag => ⟨flag, hsame flag⟩
      · refine hs.marked_of_forms hreach hb ?_ hfound hnumber ?_
        · rw [Rune.startsNumber, hdigit, Bool.or_true]
        · rw [Lexeme.number_true]
          exact hname

end Scanner

end SqlTokens
