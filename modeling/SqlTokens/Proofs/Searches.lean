import SqlTokens.Proofs.Comments
import SqlTokens.Proofs.Kinds

/-!
# Searches in an excerpt

A search for a token in an excerpt is the search in the source (`nextToken_cursor`), if the place
behind the token is clear, or if the token is the semicolon at the end of the excerpt: what comes
behind a semicolon is not looked at, since no longer operator starts with one. The comments before
the token are clear in either case.
-/

namespace SqlTokens

variable {x : Excerpt} {d : Cursor}

/-! ## Operators -/

namespace Table

/-- The bytes lead on in a trie in an excerpt as they do in the source. -/
theorem follow?_cursor (h : x.Sees d) (forms : Trie Form) :
    follow? forms (x.cursor d) = follow? forms d := by
  rw [follow?, follow?, h.rune_cursor]

/-- An operator in an excerpt is read on as in the source, if what is behind it is clear. -/
theorem descend_cursor (value : Option Form) (below : Trie Form) (h : x.Sees d)
    (hclear : x.Clear (descend value below (x.cursor d)).2.offset) :
    descend value below (x.cursor d) =
      ((descend value below d).1, x.cursor (descend value below d).2) := by
  fun_induction descend value below d with
  | case1 value below d hfollow =>
    exact descend_of_none ((follow?_cursor h below).trans hfollow)
  | case2 value below d value' below' hfollow ih =>
    have hsame : descend value below (x.cursor d) = descend value' below' (x.cursor d).advance :=
      descend_of_some ((follow?_cursor h below).trans hfollow)
    rw [hsame] at hclear ⊢
    -- The byte that leads on is no last one of the excerpt, since the operator ends behind it.
    have hnext := h.next (hclear.of_reaches (descend_reaches _ _ _))
    rw [h.advance_cursor] at hclear ⊢
    exact ih hnext hclear

/-- Without an operator nothing has been read. -/
theorem walk_stop (t : Table) (c : Cursor) :
    (t.walk c).2 = c ∨ ∃ kind, (t.walk c).1 = .fixed kind := by
  unfold walk
  split
  · exact .inl rfl
  · exact .inl rfl
  · exact .inr ⟨_, rfl⟩

/-- What starts at a place in an excerpt is what starts there in the source, if what is behind it is
clear. -/
theorem walk_cursor (t : Table) (h : x.Sees d) (hclear : x.Clear (t.walk (x.cursor d)).2.offset) :
    t.walk (x.cursor d) = ((t.walk d).1, x.cursor (t.walk d).2) := by
  unfold walk at hclear ⊢
  rw [follow?_cursor h] at hclear ⊢
  rcases hfollow : follow? t.forms d with _ | ⟨value, below⟩
  · rfl
  · have hfixed (hclear : x.Clear (descend value below (x.cursor d).advance).2.offset) :
        ((Walk.fixed (descend value below (x.cursor d).advance).1,
          (descend value below (x.cursor d).advance).2) : Walk × Cursor) =
        (.fixed (descend value below d.advance).1, x.cursor (descend value below d.advance).2) := by
      have hnext := h.next (hclear.of_reaches (descend_reaches _ _ _))
      rw [h.advance_cursor] at hclear ⊢
      rw [descend_cursor value below hnext hclear]
    rw [hfollow] at hclear
    rcases value with _ | ⟨starter | kind⟩
    · exact hfixed hclear
    · rfl
    · exact hfixed hclear

end Table

/-! ## Steps -/

variable (config : Config) (past s : State)

/-- An operator in an excerpt is the one in the source. -/
theorem Lexeme.operator_cursor {stop : Cursor} (h : x.Sees d) (hstop : x.Holds stop)
    (kind : TokenKind) :
    operator kind (x.cursor d) (x.cursor stop) = x.lexeme (operator kind d stop) := by
  unfold operator
  rw [h.headD_cursor]
  split
  · exact h.broken_cursor hstop _
  · exact h.whole_cursor hstop kind

/-- What a step from behind blanks finds in an excerpt is what it finds in the source, if what is
behind it is clear. -/
theorem stepAt_cursor (entries : List Entry) (h : x.Sees d)
    (hclear : x.Clear (stepAt (.ofEntries entries) config (s.behind x.base past)
      (x.cursor d)).next.offset) :
    stepAt (.ofEntries entries) config (s.behind x.base past) (x.cursor d) =
      x.outcome past (stepAt (.ofEntries entries) config s d) := by
  have hlexeme {l l' : Lexeme} (heq : l = x.lexeme l') :
      Outcome.ofLexeme (x.cursor d) (s.behind x.base past) l =
        x.outcome past (.ofLexeme d s l') := by
    rw [heq]
    exact Outcome.ofLexeme_cursor past s d l'
  have hbehind : x.Holds d.advance := h.toHolds.reaches (.next d)
  unfold stepAt at hclear ⊢
  simp only [h.rune_cursor, h.advance_cursor, h.headD_cursor] at hclear ⊢
  split
  · rfl
  · rename_i hbom
    rw [if_neg hbom] at hclear
    split
    · rename_i hextended
      exact hlexeme (Lexeme.word_cursor h (h.pass_of (p := Rune.isExtended) (by decide) hextended))
    · rename_i hextended
      rw [if_neg hextended] at hclear
      split
      · exact hlexeme (h.broken_cursor hbehind _)
      · rename_i hinvalid
        rw [if_neg hinvalid] at hclear
        -- The walk through the table ends where it starts, or where the operator does.
        have hstop : x.Clear ((Table.ofEntries entries).walk (x.cursor d)).2.offset := by
          rcases Table.walk_stop (.ofEntries entries) (x.cursor d) with hstay | ⟨kind, hkind⟩
          · rw [hstay]
            exact h.clear
          · rcases hwalk : (Table.ofEntries entries).walk (x.cursor d) with ⟨form, stop⟩
            rw [hwalk] at hkind hclear
            simp only at hkind
            subst hkind
            simpa [Outcome.ofLexeme, Outcome.next] using hclear
        rw [Table.walk_cursor _ h hstop] at hclear ⊢
        rcases hwalk : (Table.ofEntries entries).walk d with ⟨starter | kind | _, stop⟩
        · -- The byte that opens a form is no semicolon.
          obtain ⟨b, hb, hopens⟩ := Table.opens_of_walk hwalk
          have hsemi : d.rune.is ';' = false := by
            have hnone : Starter.ofByte? 0x3B = none := by decide
            rw [Bool.eq_false_iff, Ne, Cursor.rune_is_iff (by decide), hb, Option.some_inj]
            rintro rfl
            exact absurd (hnone.symm.trans hopens) (by simp)
          rw [hwalk] at hclear
          exact Starter.outcome_cursor past s starter config h (h.pass hsemi) hclear
        · exact hlexeme (Lexeme.operator_cursor h (hbehind.reaches (Table.walk_reaches hwalk)) kind)
        · exact hlexeme (h.broken_cursor hbehind _)

/-- Whether the place behind an outcome of the source is clear, or the outcome is a semicolon. -/
def Excerpt.Admits (x : Excerpt) (o : Outcome) : Prop :=
  x.Clear o.next.offset ∨ ∃ t next s, o = .token t next s ∧ t.kind = .ofChar ';'

/-- What a step finds in an excerpt is what it finds in the source, if what is behind it is clear or
if it is a semicolon. -/
theorem step_cursor (h : x.Sees d)
    (hadmits : x.Admits (step .standard config (s.behind x.base past) (x.cursor d))) :
    step .standard config (s.behind x.base past) (x.cursor d) =
      x.outcome past (step .standard config s d) := by
  have hblank : Rune.isSpace (.ofChar ';') = false := by decide
  have hfirst := h.run hblank
  unfold step at hadmits ⊢
  simp only [h.run_cursor hblank, hfirst.atEnd_cursor] at hadmits ⊢
  split
  · rfl
  · rename_i hend
    rw [if_neg hend] at hadmits
    rcases hadmits with hclear | ⟨t, next, s', ho, hkind⟩
    · exact stepAt_cursor config past s Vocabulary.standard hfirst hclear
    · -- A semicolon is a token by itself, whatever stands behind it.
      have hlone : ';' ∈ Vocabulary.lone := by decide
      have hrune := rune_of_stepAt _ _ hlone ho hkind
      rw [stepAt_of_lone _ _ hlone hrune, hfirst.advance_cursor,
        hfirst.whole_cursor (hfirst.toHolds.reaches (.next _)),
        stepAt_of_lone _ _ hlone (by rwa [hfirst.rune_cursor] at hrune)]
      exact Outcome.ofLexeme_cursor past s _ _

/-! ## Searches -/

/-- Whether a token of the source belongs to an excerpt: the place behind it is clear, or it is a
semicolon at a clear place. -/
def Excerpt.Includes (x : Excerpt) (t : Token) (next : Cursor) : Prop :=
  x.Clear next.offset ∨ t.kind = .ofChar ';' ∧ x.Clear t.pos.offset

/-- What is skipped on the way to a token of the excerpt belongs to it too. -/
theorem Excerpt.Includes.admits {c : Cursor} (hc : c.offset ≤ c.source.length)
    (h : x.Includes (nextToken .standard config s c).1 (nextToken .standard config s c).2.1) :
    x.Admits (step .standard config s c) := by
  rcases ho : step .standard config s c with ⟨t, next, s'⟩ | ⟨next, s'⟩
  · rw [nextToken_of_token ho] at h
    exact h.imp_right fun hsemi => ⟨t, next, s', rfl, hsemi.1⟩
  · -- The token starts behind what is skipped, at a clear place.
    left
    have hreach := step_reaches Vocabulary.standard config s hc
    change c.Reaches (step .standard config s c).next at hreach
    rw [ho] at hreach
    rw [nextToken_of_trivia ho] at h
    obtain ⟨first, -, hfirst, hpos, hnext, -⟩ :=
      nextToken_last Vocabulary.standard config s' (hreach.le_length hc)
    rcases h with hclear | ⟨-, hclear⟩
    · exact hclear.of_reaches (hfirst.trans hnext)
    · refine Excerpt.Clear.of_reaches (d := first) ?_ hfirst
      change (nextToken .standard config s' next).1.pos = first.pos at hpos
      rw [hpos] at hclear
      exact hclear

/-- A search in an excerpt is the search in the source, if the token of the source belongs to the
excerpt. -/
theorem nextToken_cursor (h : x.Sees d)
    (hincludes : x.Includes (nextToken .standard config (s.behind x.base past) (x.cursor d)).1
      (nextToken .standard config (s.behind x.base past) (x.cursor d)).2.1) :
    nextToken .standard config (s.behind x.base past) (x.cursor d) =
      ((nextToken .standard config s d).1.behind x.base,
        x.cursor (nextToken .standard config s d).2.1,
        (nextToken .standard config s d).2.2.behind x.base past) := by
  have hstep (s : State) (d : Cursor) (h : x.Sees d)
      (hincludes : x.Includes (nextToken .standard config (s.behind x.base past) (x.cursor d)).1
        (nextToken .standard config (s.behind x.base past) (x.cursor d)).2.1) :=
    step_cursor config past s h (hincludes.admits config _ h.toHolds.le_length)
  fun_induction nextToken .standard config s d with
  | case1 s d t next s' ho =>
    have hstep := hstep s d h hincludes
    rw [ho] at hstep
    exact nextToken_of_token hstep
  | case2 s d next s' ho ih =>
    have hadmits := hincludes.admits config _ h.toHolds.le_length
    have hstep := hstep s d h hincludes
    rw [ho] at hstep
    rw [hstep] at hadmits
    rw [nextToken_of_trivia hstep] at hincludes ⊢
    have hreach := step_reaches Vocabulary.standard config s h.canonical.le_length
    change d.Reaches (step .standard config s d).next at hreach
    rw [ho] at hreach
    -- The comment is in the excerpt too, and the search goes on behind it in both.
    rcases hadmits with hclear | ⟨t, next', s'', htoken, -⟩
    · exact ih (h.reaches hreach hclear) hincludes
    · cases htoken

end SqlTokens
