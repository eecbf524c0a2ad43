import SqlTokens.Scanner.Basic
import SqlTokens.Proofs.Starters
import SqlTokens.Proofs.Outcomes

/-!
# What one step yields, and one search for a token

Every form of the table keeps the promise of an outcome (`Starter.outcome_yields`), and so does
every step behind blanks (`stepAt_yields`). By then the rule about errors is the one of the first
byte (`Lexeme.Reports`): behind a point nothing is reported, behind the mark of a variable only what
its name reports, and everywhere else a malformed lexeme is reported where it starts. A search for a
token is a chain of steps, of which all but the last are crossed (`nextToken_finds`).
-/

namespace SqlTokens

/-- How a lexeme reports what is wrong with it, by the byte that it starts with. -/
structure Lexeme.Reports (l : Lexeme) (c : Cursor) : Prop where
  /-- A variable reports nothing but what its name reports. -/
  mark : c.ahead.head? = some 0x40 → l.DiagnosedWithin c
  /-- What starts with a point reports nothing. -/
  point : c.ahead.head? = some 0x2E → l.fault = none
  /-- Everything else is diagnosed. -/
  other : c.ahead.head? ≠ some 0x40 → c.ahead.head? ≠ some 0x2E → l.Diagnosed c

/-- What is diagnosed and starts neither with the mark of a variable nor with a point reports as it
should. -/
theorem Lexeme.Diagnosed.reports {l : Lexeme} {c : Cursor} (h : l.Diagnosed c)
    (hat : c.ahead.head? ≠ some 0x40) (hdot : c.ahead.head? ≠ some 0x2E) : l.Reports c :=
  ⟨fun hhead => absurd hhead hat, fun hhead => absurd hhead hdot, fun _ _ => h⟩

/-- What the form of a starter makes of a cursor keeps the promise, if the byte there opens it. -/
theorem Starter.outcome_yields {starter : Starter} {c : Cursor} {b : UInt8}
    (hc : c.offset ≤ c.source.length) (hb : c.ahead.head? = some b)
    (hopens : ofByte? b = some starter) (config : Config) (s : State) :
    (starter.outcome config s c).Yields s c Lexeme.Reports := by
  have hmark := (opens_of_ofByte? hopens).2.2
  -- The two bytes with rules of their own open two starters only.
  have hother (o : Outcome) (h : o.Yields s c Lexeme.Diagnosed)
      (hplain : starter ≠ .at ∧ starter ≠ .dot) : o.Yields s c Lexeme.Reports := by
    refine h.mono fun l hl => hl.reports ?_ ?_
    · rw [hb, Ne, Option.some_inj]
      rintro rfl
      exact hplain.1 (Option.some_inj.mp (hopens.symm.trans (by decide)))
    · rw [hb, Ne, Option.some_inj]
      rintro rfl
      exact hplain.2 (Option.some_inj.mp (hopens.symm.trans (by decide)))
  have hlexeme (l : Lexeme) (hspans : l.Spans c) (hl : l.Diagnosed c)
      (hplain : starter ≠ .at ∧ starter ≠ .dot) :
      (Outcome.ofLexeme c s l).Yields s c Lexeme.Reports :=
    hother _ (Outcome.ofLexeme_yields rfl rfl hspans hl) hplain
  rcases starter
  case slash =>
    rw [mark?, Option.getD_some] at hmark
    exact hother _ (Comment.slash_yields hc (by rw [hb, hmark])) (by decide)
  case star =>
    rw [mark?, Option.getD_some] at hmark
    exact hother _ (Comment.star_yields (by rw [hb, hmark])) (by decide)
  case sharp =>
    rw [mark?, Option.getD_some] at hmark
    exact hother _ (Comment.sharp_yields (by rw [hb, hmark])) (by decide)
  case dash =>
    rw [mark?, Option.getD_some] at hmark
    exact hother _ (Comment.dash_yields (by rw [hb, hmark])) (by decide)
  case «at» =>
    rw [mark?, Option.getD_some] at hmark
    refine Outcome.ofLexeme_yields rfl rfl (Lexeme.anyVariable_spans _ c)
      ⟨fun _ => Lexeme.anyVariable_diagnosed _ c, fun h => ?_, fun h => absurd ?_ h⟩
    · rw [hb, ← hmark] at h
      cases h
    · rw [hb, hmark]
  case dot =>
    rw [mark?, Option.getD_some] at hmark
    refine Outcome.ofLexeme_yields rfl rfl (Lexeme.dot_spans _ c)
      ⟨fun h => ?_, fun _ => Lexeme.dot_fault _ c, fun _ h => absurd ?_ h⟩
    · rw [hb, ← hmark] at h
      cases h
    · rw [hb, hmark]
  case number =>
    exact hlexeme _ (Lexeme.number_spans _ c) (Lexeme.number_diagnosed _ c) (by decide)
  case string =>
    exact hlexeme _ (Lexeme.quoted_spans rfl _ _ c) (Lexeme.quoted_diagnosed (by decide) _ _ c)
      (by decide)
  case quotedIdentifier =>
    exact hlexeme _ (Lexeme.quoted_spans rfl _ _ c) (Lexeme.quoted_diagnosed (by decide) _ _ c)
      (by decide)
  case hexMark =>
    exact hlexeme _ (Lexeme.quotedDigits_spans _ _ _ c)
      (Lexeme.quotedDigits_diagnosed (by decide) _ _ c) (by decide)
  case bitMark =>
    exact hlexeme _ (Lexeme.quotedDigits_spans _ _ _ c)
      (Lexeme.quotedDigits_diagnosed (by decide) _ _ c) (by decide)
  case nationalMark =>
    exact hlexeme _ (Lexeme.national_spans c) (Lexeme.national_diagnosed c) (by decide)
  case identifier =>
    exact hlexeme _ (Lexeme.word_spans c) (Lexeme.word_diagnosed c) (by decide)

variable (entries : List Entry) (config : Config)

/-- Where a byte opens a form, a step reads that form. -/
theorem stepAt_of_starter (s : State) {c : Cursor} {b : UInt8} {starter : Starter}
    (hb : c.ahead.head? = some b) (hopens : Starter.ofByte? b = some starter) :
    stepAt (.ofEntries entries) config s c = starter.outcome config s c := by
  obtain ⟨h0, hlt, -⟩ := Starter.opens_of_ofByte? hopens
  have hwalk := (Table.walk_starter_iff entries c starter).mpr ⟨b, hb, hopens⟩
  have hvalue : c.rune.value < 0x80 := by
    rw [Cursor.rune_of_head? h0 hlt hb, Rune.ofByte]
    exact Int.ofNat_lt.mpr (UInt8.lt_iff_toNat_lt.mp hlt)
  -- An ASCII rune is neither a mark nor a character of several bytes.
  have hbom : c.rune.isBom = false := by
    rw [Rune.isBom, beq_eq_false_iff_ne]
    intro h
    rw [h] at hvalue
    exact absurd hvalue (by decide)
  have hinvalid : c.rune.isInvalid = false := by
    rw [Rune.isInvalid, beq_eq_false_iff_ne]
    intro h
    rw [h] at hvalue
    exact absurd hvalue (by decide)
  have hextended : c.rune.isExtended = false := by
    rw [Rune.isExtended, decide_eq_false (Int.not_le.mpr hvalue)]
    rfl
  unfold stepAt
  simp only [hbom, hextended, hinvalid, Bool.false_eq_true, if_false]
  rcases hfound : (Table.ofEntries entries).walk c with ⟨starter' | kind | _, next⟩
  · rw [hfound] at hwalk
    obtain rfl := Table.Walk.starter.inj hwalk
    rfl
  · rw [hfound] at hwalk
    cases hwalk
  · rw [hfound] at hwalk
    cases hwalk

/-- What holds of what a step may come to, as it depends on the state, holds of the step: it skips
the mark at the start of the source, or it yields a lexeme that does not depend on the state, or it
comes to the form that the next byte opens. -/
theorem stepAt_cases (c : Cursor)
    {P : (State → Outcome) → Prop} (hmark : P fun s => .trivia c.advance s)
    (hlexeme : ∀ l : Lexeme, P fun s => .ofLexeme c s l)
    (hform : ∀ starter b, c.ahead.head? = some b → Starter.ofByte? b = some starter →
      P fun s => starter.outcome config s c) :
    P fun s => stepAt (.ofEntries entries) config s c := by
  unfold stepAt
  simp only
  split
  · exact hmark
  · split
    · exact hlexeme _
    · split
      · exact hlexeme _
      · split
        · rename_i starter next hwalk
          obtain ⟨b, hb, hopens⟩ := Table.opens_of_walk hwalk
          exact hform starter b hb hopens
        · exact hlexeme _
        · exact hlexeme _

/-- A step from a cursor behind blanks keeps the promise. -/
theorem stepAt_yields (s : State) {c : Cursor} (hc : c.offset ≤ c.source.length) :
    (stepAt (.ofEntries entries) config s c).Yields s c Lexeme.Reports := by
  have hnext : c.advance.Reaches c.advance := .refl _
  -- Where no starter is found, neither of the bytes with rules of their own comes next.
  have hother {l : Lexeme} (hspans : l.Spans c) (hl : l.Diagnosed c)
      (hnot : ∀ b starter, c.ahead.head? = some b → Starter.ofByte? b ≠ some starter) :
      (Outcome.ofLexeme c s l).Yields s c Lexeme.Reports := by
    refine Outcome.ofLexeme_yields rfl rfl hspans (hl.reports (fun h => ?_) fun h => ?_)
    · exact hnot _ .at h (by decide)
    · exact hnot _ .dot h (by decide)
  have hhigh (h : 0x80 ≤ c.rune.value) :
      ∀ b starter, c.ahead.head? = some b → Starter.ofByte? b ≠ some starter := by
    intro b starter hb hopens
    obtain ⟨h0, hlt, -⟩ := Starter.opens_of_ofByte? hopens
    rw [Cursor.rune_of_head? h0 hlt hb, Rune.ofByte] at h
    have hlow : b.toNat < 0x80 := UInt8.lt_iff_toNat_lt.mp hlt
    simp only at h
    omega
  unfold stepAt
  simp only
  split
  · -- The mark at the start of the source is skipped.
    rename_i hbom
    exact ⟨Cursor.crosses_mark hbom _, rfl⟩
  · split
    · rename_i hextended
      simp only [Rune.isExtended, Bool.and_eq_true, decide_eq_true_iff] at hextended
      exact hother (Lexeme.word_spans c) (Lexeme.word_diagnosed c) (hhigh hextended.1.1.1)
    · split
      · rename_i hinvalid
        have hvalue : c.rune = Rune.invalid := eq_of_beq hinvalid
        exact hother (Lexeme.broken_spans _ hnext) (Lexeme.broken_diagnosed _ _ _)
          (hhigh (by rw [hvalue]; decide))
      · split
        · rename_i starter next hwalk
          obtain ⟨b, hb, hopens⟩ := Table.opens_of_walk hwalk
          exact Starter.outcome_yields hc hb hopens config s
        · -- A walk that ends at an operator has found no starter.
          rename_i kind stop hwalk
          refine hother (Lexeme.operator_spans kind (Table.walk_reaches hwalk))
            (Lexeme.operator_diagnosed kind c stop) fun b starter hb hopens => ?_
          have hstarter := (Table.walk_starter_iff entries c starter).mpr ⟨b, hb, hopens⟩
          rw [hwalk] at hstarter
          cases hstarter
        · rename_i next hwalk
          refine hother (Lexeme.broken_spans _ hnext) (Lexeme.broken_diagnosed _ _ _)
            fun b starter hb hopens => ?_
          have hstarter := (Table.walk_starter_iff entries c starter).mpr ⟨b, hb, hopens⟩
          rw [hwalk] at hstarter
          cases hstarter

/-- A step moves on. -/
theorem step_reaches (s : State) {c : Cursor} (hc : c.offset ≤ c.source.length) :
    c.Reaches (step (.ofEntries entries) config s c).next := by
  have hblanks : c.Reaches (c.skipWhile Rune.isSpace) := (Cursor.Reaches.refl c).skipWhile _
  unfold step
  simp only
  split
  · exact hblanks
  · exact hblanks.trans (stepAt_yields entries config s (hblanks.le_length hc)).reaches

/-! ## Searches for a token -/

/-- What a search for a token from a cursor comes to: behind what it crosses, the end of the source
or a lexeme. Its error, if there is one, is the only one that the search adds. -/
inductive Finds (s : State) (c : Cursor) : Token → Cursor → State → Prop where
  /-- The search comes to the end. -/
  | theEnd {first : Cursor} {s' : State} : c.Crosses s.inVendorBlock first s'.inVendorBlock →
      first.atEnd = true → s'.errors = s.errors → Finds s c (.endAt first.pos) first s'
  /-- The search comes to a lexeme. -/
  | lexeme {first : Cursor} {l : Lexeme} {s' : State} :
      c.Crosses s.inVendorBlock first s'.inVendorBlock → first.atEnd = false → l.Spans first →
      l.Reports first → s'.errors = s.errors ++ l.fault.toList →
      Finds s c (l.token first) l.stop s'

namespace Finds

variable {s s' : State} {c next : Cursor} {t : Token}

/-- A search moves on. -/
theorem reaches (h : Finds s c t next s') : c.Reaches next := by
  rcases h with ⟨hcross, -, -⟩ | ⟨hcross, -, hspans, -, -⟩
  · exact hcross.reaches
  · exact hcross.reaches.advance.trans hspans.reaches

/-- A search comes to the end of the source, or to a token that starts at or behind its own start
and ends behind that. -/
theorem progress (h : Finds s c t next s') (hc : c.offset ≤ c.source.length) :
    (next.offset = c.source.length ∧ t = .endAt next.pos) ∨
      (c.offset ≤ t.pos.offset ∧ t.pos.offset < next.offset) := by
  rcases h with ⟨hcross, hend, -⟩ | ⟨hcross, hend, hspans, -, -⟩
  · left
    have hle := hcross.reaches.le_length hc
    have hge := Cursor.atEnd_iff.mp hend
    rw [hcross.reaches.source_eq] at hle hge
    exact ⟨Nat.le_antisymm hle hge, rfl⟩
  · right
    exact ⟨hcross.reaches.offset_le,
      Nat.lt_of_lt_of_le (Cursor.offset_lt_advance hend) hspans.reaches.offset_le⟩

/-- A token whose text is not rewritten stands for the bytes from its start to the end of the
search. -/
theorem text_eq (h : Finds s c t next s') (hend : t.kind ≠ .eof)
    (hkind : t.kind.isRewritten = false) :
    t.text = (c.source.take next.offset).drop t.pos.offset := by
  rcases h with ⟨-, -, -⟩ | ⟨hcross, -, hspans, -, -⟩
  · exact absurd rfl hend
  · rw [← hcross.reaches.source_eq]
    exact (hspans.text_eq hkind).trans (Cursor.upTo_eq _ _)

/-- What is crossed before a search is crossed by it. -/
theorem of_crosses {d : Cursor} {s'' : State} (hc : d.offset ≤ d.source.length)
    (hcross : d.Crosses s''.inVendorBlock c s.inVendorBlock) (herrors : s.errors = s''.errors)
    (h : Finds s c t next s') : Finds s'' d t next s' := by
  rcases h with ⟨hrest, hend, he⟩ | ⟨hrest, hend, hspans, hreports, he⟩
  · exact .theEnd (hcross.trans hrest hc) hend (by rw [he, herrors])
  · exact .lexeme (hcross.trans hrest hc) hend hspans hreports (by rw [he, herrors])

/-- What is noted about a token, apart from errors and vendor comments, does not change what the
search has come to. -/
theorem settled {s'' : State} (hvendor : s''.inVendorBlock = s'.inVendorBlock)
    (herrors : s''.errors = s'.errors) (h : Finds s c t next s') : Finds s c t next s'' := by
  rcases h with ⟨hcross, hend, he⟩ | ⟨hcross, hend, hspans, hreports, he⟩
  · exact .theEnd (by rwa [hvendor]) hend (by rw [herrors, he])
  · exact .lexeme (by rwa [hvendor]) hend hspans hreports (by rw [herrors, he])

end Finds

/-- The search for the next token finds it. -/
theorem nextToken_finds (s : State) (c : Cursor) (hc : c.offset ≤ c.source.length) :
    Finds s c (nextToken (.ofEntries entries) config s c).1
      (nextToken (.ofEntries entries) config s c).2.1
      (nextToken (.ofEntries entries) config s c).2.2 := by
  have hblanks (c : Cursor) (s : State) := c.crosses_blanks s.inVendorBlock
  fun_induction nextToken (.ofEntries entries) config s c with
  | case1 s c t next s' h =>
    unfold step at h
    simp only at h
    split at h
    · rename_i hend
      simp only [Outcome.token.injEq] at h
      obtain ⟨rfl, rfl, rfl⟩ := h
      exact .theEnd (hblanks c s) hend rfl
    · -- The token lies behind blanks.
      rename_i hend
      have hfirst := (hblanks c s).reaches.le_length hc
      have hyields := stepAt_yields entries config s hfirst
      rw [h] at hyields
      obtain ⟨l, hspans, hreports, rfl, rfl, hvendor, herrors⟩ := hyields
      refine .lexeme ?_ (Bool.eq_false_iff.mpr hend) hspans hreports herrors
      rw [hvendor]
      exact hblanks c s
  | case2 s c next s' h ih =>
    unfold step at h
    simp only at h
    split at h
    · cases h
    · -- The comment lies behind blanks, and the search goes on behind the comment.
      have hfirst := (hblanks c s).reaches.le_length hc
      have hyields := stepAt_yields entries config s hfirst
      rw [h] at hyields
      obtain ⟨hcross, herrors⟩ := hyields
      have hall := (hblanks c s).trans hcross hc
      exact (ih (hall.reaches.le_length hc)).of_crosses hc hall herrors

/-- A step that yields a token ends the search. -/
theorem nextToken_of_token {table : Table} {config : Config} {s s' : State} {c next : Cursor}
    {t : Token} (h : step table config s c = .token t next s') :
    nextToken table config s c = (t, next, s') := by
  unfold nextToken
  split
  · rename_i htoken
    rw [h, Outcome.token.injEq] at htoken
    obtain ⟨rfl, rfl, rfl⟩ := htoken
    rfl
  · rename_i htrivia
    rw [h] at htrivia
    cases htrivia

/-- Behind a step that yields no token the search goes on. -/
theorem nextToken_of_trivia {table : Table} {config : Config} {s s' : State} {c next : Cursor}
    (h : step table config s c = .trivia next s') :
    nextToken table config s c = nextToken table config s' next := by
  conv => lhs; unfold nextToken
  split
  · rename_i htoken
    rw [h] at htoken
    cases htoken
  · rename_i htrivia
    rw [h, Outcome.trivia.injEq] at htrivia
    obtain ⟨rfl, rfl⟩ := htrivia
    rfl

/-- A search moves on to where its token starts, without adding an error: to the end of the source,
or to a place where a step finds the token. -/
theorem nextToken_last (s : State) {c : Cursor} (hc : c.offset ≤ c.source.length) :
    ∃ first s', c.Reaches first ∧
      (nextToken (.ofEntries entries) config s c).1.pos = first.pos ∧
      first.Reaches (nextToken (.ofEntries entries) config s c).2.1 ∧ s'.errors = s.errors ∧
      ((first.atEnd = true ∧
          nextToken (.ofEntries entries) config s c = (.endAt first.pos, first, s')) ∨
        ∃ t next s'', stepAt (.ofEntries entries) config s' first = .token t next s'' ∧
          nextToken (.ofEntries entries) config s c = (t, next, s'')) := by
  have hblanks (c : Cursor) : c.Reaches (c.skipWhile Rune.isSpace) :=
    (Cursor.Reaches.refl c).skipWhile _
  fun_induction nextToken (.ofEntries entries) config s c with
  | case1 s c t next s' h =>
    unfold step at h
    simp only at h
    split at h
    · rename_i hend
      rw [Outcome.token.injEq] at h
      obtain ⟨rfl, rfl, rfl⟩ := h
      exact ⟨_, s, hblanks c, rfl, .refl _, rfl, .inl ⟨hend, rfl⟩⟩
    · have hyields := stepAt_yields entries config s ((hblanks c).le_length hc)
      rw [h] at hyields
      obtain ⟨l, hspans, -, rfl, rfl, -⟩ := hyields
      exact ⟨_, s, hblanks c, rfl, (Cursor.Reaches.next _).trans hspans.reaches, rfl,
        .inr ⟨_, _, s', h, rfl⟩⟩
  | case2 s c next s' h ih =>
    have hreach := step_reaches entries config s hc
    rw [h] at hreach
    have herrors : s'.errors = s.errors := by
      unfold step at h
      simp only at h
      split at h
      · cases h
      · have hyields := stepAt_yields entries config s ((hblanks c).le_length hc)
        rw [h] at hyields
        exact hyields.2
    obtain ⟨first, s'', hfirst, hpos, hnext, hsame, hfound⟩ := ih (hreach.le_length hc)
    exact ⟨first, s'', hreach.trans hfirst, hpos, hnext, hsame.trans herrors, hfound⟩

/-- At the end a search finds the end and changes nothing. -/
theorem nextToken_of_atEnd (table : Table) (s : State) {c : Cursor} (h : c.atEnd = true) :
    nextToken table config s c = (.endAt c.pos, c, s) := by
  have hskip : c.skipWhile Rune.isSpace = c := by rw [Cursor.skipWhile, if_pos h]
  refine nextToken_of_token ?_
  rw [step, hskip]
  simp only [h, if_true]

end SqlTokens
