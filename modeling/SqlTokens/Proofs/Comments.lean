import SqlTokens.Proofs.Forms
import SqlTokens.Proofs.Records

/-!
# The outcomes of an excerpt

What a starter makes of a place in an excerpt is what it makes of the place in the source
(`Starter.outcome_cursor`), if the place that the source has been read up to is clear. A scanner of
the excerpt counts positions from its own start and knows nothing of earlier diagnoses;
`State.behind` adds both.
-/

namespace SqlTokens

/-- The state of a scanner that has read an excerpt, as the state of one that has read the source up
to the excerpt before, with the given state there. -/
def State.behind (s : State) (base : Position) (past : State) : State :=
  { s with
    hintAt := (s.hintAt.map base.behind).or past.hintAt
    errors := past.errors ++ s.errors.map (ScanError.behind base)
    warnings := past.warnings ++ s.warnings.map (ScanWarning.behind base) }

/-- The outcome of a step in the source that an outcome of a step in an excerpt is. -/
def Excerpt.outcome (x : Excerpt) (past : State) : Outcome → Outcome
  | .token t next s => .token (t.behind x.base) (x.cursor next) (s.behind x.base past)
  | .trivia next s => .trivia (x.cursor next) (s.behind x.base past)

variable {x : Excerpt} {d : Cursor} (past s : State)

/-- An error in an excerpt is reported behind those of the source before. -/
theorem State.report_behind (base : Position) (fault : Option ScanError) :
    (s.behind base past).report (fault.map (ScanError.behind base)) =
      (s.report fault).behind base past := by
  have herrors : past.errors ++ s.errors.map (ScanError.behind base) ++
      (fault.map (ScanError.behind base)).toList =
      past.errors ++ (s.errors ++ fault.toList).map (ScanError.behind base) := by
    cases fault with
    | none => simp
    | some error => simp
  exact congrArg (fun errors => { s.behind base past with errors }) herrors

/-- A warning about an excerpt stands behind those about the source before. -/
theorem State.warn_behind (base : Position) (kind : ScanWarningKind) (pos : Position) :
    (s.behind base past).warn kind (base.behind pos) = (s.warn kind pos).behind base past := by
  have hwarnings : past.warnings ++ s.warnings.map (ScanWarning.behind base) ++
      [⟨kind, base.behind pos⟩] =
      past.warnings ++
        (s.warnings ++ [(⟨kind, pos⟩ : ScanWarning)]).map (ScanWarning.behind base) := by
    rw [List.map_append, List.append_assoc]
    rfl
  exact congrArg (fun warnings => { s.behind base past with warnings }) hwarnings

/-- The outcome of a lexeme in an excerpt is that of the lexeme in the source. -/
theorem Outcome.ofLexeme_cursor (d : Cursor) (l : Lexeme) :
    ofLexeme (x.cursor d) (s.behind x.base past) (x.lexeme l) =
      x.outcome past (ofLexeme d s l) := by
  have hreport : (s.behind x.base past).report (x.lexeme l).fault =
      (s.report l.fault).behind x.base past := State.report_behind past s x.base l.fault
  rw [ofLexeme, hreport]
  rfl

namespace Lexeme

/-! ## Version numbers -/

/-- Behind digits the bytes ahead are still the same. -/
theorem skipDigits_cursor (h : x.Sees d) (n : Nat) :
    skipDigits (x.cursor d) n = x.cursor (skipDigits d n) ∧ x.Sees (skipDigits d n) := by
  induction n generalizing d with
  | zero => exact ⟨rfl, h⟩
  | succ n ih =>
    rw [skipDigits, skipDigits, h.rune_cursor]
    split
    · rename_i hdigit
      rw [h.advance_cursor]
      exact ih (h.pass_of (p := Rune.isDigit) (by decide) hdigit)
    · exact ⟨rfl, h⟩

/-- A version number in an excerpt is the one in the source. -/
theorem version_cursor (h : x.Sees d) (least most : Nat) :
    version least most (x.cursor d) = x.cursor (version least most d) := by
  have hdigits : (x.cursor (skipDigits d most)).offset - (x.cursor d).offset =
      (skipDigits d most).offset - d.offset := by
    rw [Excerpt.offset_cursor, Excerpt.offset_cursor]
    omega
  unfold version
  simp only [(skipDigits_cursor h most).1, hdigits]
  split
  · rfl
  · rfl

end Lexeme

namespace Comment

/-! ## Ends of comments -/

/-- Whether it is clear where a comment ends that is open at a cursor. -/
def Ends (x : Excerpt) (c : Cursor) : Prop :=
  (closing? c).elim (x.source.length ≤ x.stop) fun stop => x.Clear stop.offset

/-- What stands before the end of a comment is clear if that is. -/
theorem Ends.clear {c e : Cursor} (h : Ends x c)
    (hreach : ∀ stop, closing? c = some stop → e.Reaches stop) : x.Clear e.offset := by
  unfold Ends at h
  rcases hc : closing? c with _ | stop
  · rw [hc] at h
    exact .inr h
  · rw [hc] at h
    exact Excerpt.Clear.of_reaches h (hreach stop hc)

/-- The search for the end of a comment goes on behind the first star. -/
theorem closing?_reaches {c stop : Cursor} (h : closing? c = some stop) :
    (c.skipWhile fun r => !r.is '*').advance.Reaches stop := by
  rw [closing?] at h
  split at h
  · cases h
  · split at h
    · cases h
      exact .next _
    · exact (closing?_sound h).1

/-- The end of a comment in an excerpt is the one in the source. -/
theorem closing?_cursor (h : x.Sees d) (hends : Ends x (x.cursor d)) :
    closing? (x.cursor d) = (closing? d).map x.cursor := by
  -- The first star and the place behind it are clear, since the search goes on there.
  have hstar (d : Cursor) (h : x.Sees d) (hends : Ends x (x.cursor d)) :
      (x.cursor d).skipWhile (fun r => !r.is '*') = x.cursor (d.skipWhile fun r => !r.is '*') ∧
        x.Sees (d.skipWhile fun r => !r.is '*') ∧
        x.Sees (d.skipWhile fun r => !r.is '*').advance := by
    have hbehind := hends.clear fun stop hstop => closing?_reaches hstop
    have hclear := hbehind.of_reaches (.next _)
    have heq := h.skipWhile_cursor hclear
    rw [heq] at hbehind hclear
    have hsees := h.reaches ((Cursor.Reaches.refl d).skipWhile _) hclear
    exact ⟨heq, hsees, hsees.next hbehind⟩
  fun_induction closing? d with
  | case1 d star hend =>
    obtain ⟨heq, hsees, -⟩ := hstar d h hends
    rw [closing?]
    simp only [heq, hsees.atEnd_cursor]
    rw [if_pos hend]
    rfl
  | case2 d star hend hslash =>
    obtain ⟨heq, hsees, hnext⟩ := hstar d h hends
    rw [closing?]
    simp only [heq, hsees.atEnd_cursor, hsees.advance_cursor, hnext.rune_cursor]
    rw [if_neg hend, if_pos hslash, hnext.advance_cursor]
    rfl
  | case3 d star hend hslash ih =>
    obtain ⟨heq, hsees, hnext⟩ := hstar d h hends
    have hsame : closing? (x.cursor d) = closing? (x.cursor star.advance) := by
      rw [closing?]
      simp only [heq, hsees.atEnd_cursor, hsees.advance_cursor, hnext.rune_cursor]
      rw [if_neg hend, if_neg hslash]
    rw [Ends, hsame] at hends
    rw [hsame]
    exact ih hnext hends

/-- The end of the source behind a comment in an excerpt is the one in the source. -/
theorem toEnd_cursor (h : x.Sees d) (hclear : x.Clear (x.cursor d).toEnd.offset) :
    (x.cursor d).toEnd = x.cursor d.toEnd :=
  h.skipWhile_cursor hclear

/-- It is clear where a comment ends if the place is clear that the source has been read up to. -/
theorem ends_of_clear {c : Cursor} (hsource : c.source = x.source)
    (hsome : ∀ stop, closing? c = some stop → x.Clear stop.offset)
    (hnone : closing? c = none → x.Clear c.toEnd.offset) : Ends x c := by
  unfold Ends
  rcases hc : closing? c with _ | stop
  · -- If the end of the source is clear, the excerpt goes up to it.
    have hend : c.toEnd.source.length ≤ c.toEnd.offset := Cursor.atEnd_iff.mp (atEnd_toEnd c)
    have hreach : c.Reaches c.toEnd := (Cursor.Reaches.refl c).skipWhile _
    rw [hreach.source_eq, hsource] at hend
    rcases hnone hc with hlt | hle
    · exact Nat.le_of_lt (Nat.lt_of_le_of_lt hend hlt)
    · exact hle
  · exact hsome stop hc

/-- An unclosed comment in an excerpt is the one in the source. -/
theorem unclosed_cursor {inside : Cursor} (h : x.Sees d) (hinside : x.Sees inside)
    (hclear : x.Clear (x.cursor inside).toEnd.offset) :
    Outcome.ofLexeme (x.cursor d) (s.behind x.base past)
        (.broken .unterminatedComment (x.cursor d) (x.cursor inside).toEnd) =
      x.outcome past (.ofLexeme d s (.broken .unterminatedComment d inside.toEnd)) := by
  have hreach : inside.Reaches inside.toEnd := (Cursor.Reaches.refl inside).skipWhile _
  rw [toEnd_cursor hinside hclear, h.broken_cursor (hinside.toHolds.reaches hreach)]
  exact Outcome.ofLexeme_cursor past s d _

/-- A comment in an excerpt is the one in the source. -/
theorem block_cursor {inside : Cursor} (h : x.Sees d) (hinside : x.Sees inside)
    (hclear : x.Clear (block (s.behind x.base past) (x.cursor d) (x.cursor inside)).next.offset) :
    block (s.behind x.base past) (x.cursor d) (x.cursor inside) =
      x.outcome past (block s d inside) := by
  unfold block at hclear ⊢
  have hends : Ends x (x.cursor inside) :=
    ends_of_clear rfl (fun stop hc => by rwa [hc] at hclear) fun hc => by rwa [hc] at hclear
  rw [closing?_cursor hinside hends] at hclear ⊢
  rcases hc : closing? inside with _ | stop
  · rw [hc] at hclear
    exact unclosed_cursor past s h hinside hclear
  · rfl

/-- A comment goes on from where its text starts. -/
theorem block_reaches (c inside : Cursor) : inside.Reaches (block s c inside).next := by
  unfold block
  split
  · rename_i stop hclosing
    exact (closing?_sound hclosing).1
  · exact (Cursor.Reaches.refl inside).skipWhile _

/-! ## Feature comments -/

/-- A list of names in an excerpt is the one in the source. -/
theorem names?_cursor (h : x.Sees d) :
    names? (x.cursor d) = (names? d).map fun list => (list.1, x.cursor list.2) := by
  have hname : Rune.isNameChar (.ofChar ';') = false := by decide
  have hcomma (d : Cursor) (h : x.Sees d)
      (hc : (d.skipWhile Rune.isNameChar).rune.is ',' = true) :
      x.Sees (d.skipWhile Rune.isNameChar).advance :=
    (h.run hname).pass_of (p := fun r => r.is ',') (by decide) hc
  -- The source reads the same name, and the same mark behind it.
  have hunfold (d : Cursor) (h : x.Sees d) : names? (x.cursor d) =
      if !d.rune.isNameChar then none
      else if (d.skipWhile Rune.isNameChar).rune.is ']' then
        some ([d.upTo (d.skipWhile Rune.isNameChar)],
          x.cursor (d.skipWhile Rune.isNameChar).advance)
      else if (d.skipWhile Rune.isNameChar).rune.is ',' then
        (names? (x.cursor (d.skipWhile Rune.isNameChar).advance)).map fun list =>
          (d.upTo (d.skipWhile Rune.isNameChar) :: list.1, list.2)
      else none := by
    have hstop := h.run hname
    rw [names?]
    rcases hmore : names? (x.cursor (d.skipWhile Rune.isNameChar).advance) with _ | list <;>
      simp only [h.rune_cursor, h.run_cursor hname, hstop.rune_cursor, hstop.advance_cursor,
        hstop.toHolds.upTo_cursor d h.source_eq, hmore, Option.map_none, Option.map_some]
  fun_induction names? d with
  | case1 d hnone =>
    rw [hunfold d h, if_pos hnone]
    rfl
  | case2 d stop =>
    rename_i hsome hclose
    rw [hunfold d h, if_neg hsome, if_pos hclose]
    rfl
  | case3 d stop =>
    rename_i hsome hclose hmark names behind hmore ih
    rw [hunfold d h, if_neg hsome, if_neg hclose, if_pos hmark, ih (hcomma d h hmark), hmore]
    rfl
  | case4 d stop =>
    rename_i hsome hclose hmark hmore ih
    rw [hunfold d h, if_neg hsome, if_neg hclose, if_pos hmark, ih (hcomma d h hmark), hmore]
    rfl
  | case5 d stop =>
    rename_i hsome hclose hmark
    rw [hunfold d h, if_neg hsome, if_neg hclose, if_neg hmark]
    rfl

/-- A list in brackets in an excerpt is the one in the source. -/
theorem bracketed?_cursor (h : x.Sees d) :
    bracketed? (x.cursor d) = (bracketed? d).map fun list => (list.1, x.cursor list.2) := by
  unfold bracketed?
  rw [h.rune_cursor]
  split
  · rename_i hopen
    rw [h.advance_cursor]
    exact names?_cursor (h.pass_of (p := fun r => r.is '[') (by decide) hopen)
  · rfl

/-- A feature comment in an excerpt is the one in the source. -/
theorem gated_cursor {mark : Cursor} (h : x.Sees d) (hmark : x.Sees mark)
    (hclear : x.Clear (gated (s.behind x.base past) (x.cursor d) (x.cursor mark)).next.offset) :
    gated (s.behind x.base past) (x.cursor d) (x.cursor mark) =
      x.outcome past (gated s d mark) := by
  unfold gated at hclear ⊢
  rw [bracketed?_cursor hmark] at hclear ⊢
  rcases hlist : bracketed? mark with _ | ⟨names, behind⟩
  · rfl
  · simp only [hlist, Option.map_some] at hclear ⊢
    split
    · rfl
    · rename_i hunknown
      rw [if_neg hunknown] at hclear
      have hbehind : x.Sees behind :=
        hmark.reaches (bracketed?_sound hlist).1 (hclear.of_reaches (block_reaches _ _ _))
      exact block_cursor past s h hbehind hclear

/-! ## Comments for the optimizer -/

/-- A comment for the optimizer in an excerpt is the one in the source. -/
theorem hint_cursor {inside : Cursor} (h : x.Sees d) (hinside : x.Sees inside)
    (hclear : x.Clear (hint (s.behind x.base past) (x.cursor d) (x.cursor inside)).next.offset) :
    hint (s.behind x.base past) (x.cursor d) (x.cursor inside) =
      x.outcome past (hint s d inside) := by
  have hrecent : (s.behind x.base past).recent = s.recent := rfl
  unfold hint at hclear ⊢
  simp only [hrecent] at hclear ⊢
  split
  · rename_i hhonoured
    rw [if_pos hhonoured] at hclear
    have hends : Ends x (x.cursor inside) :=
      ends_of_clear rfl (fun stop hc => by rwa [hc] at hclear) fun hc => by rwa [hc] at hclear
    rw [closing?_cursor hinside hends] at hclear ⊢
    rcases hc : closing? inside with _ | stop
    · rw [hc] at hclear
      exact unclosed_cursor past s h hinside hclear
    · have hstop := hinside.toHolds.reaches (closing?_sound hc).1
      simp only [Option.map_some]
      rw [hstop.upTo_cursor d h.source_eq]
      rfl
  · rename_i hignored
    rw [if_neg hignored, Excerpt.pos_cursor, State.warn_behind] at hclear
    rw [Excerpt.pos_cursor, State.warn_behind]
    exact block_cursor past _ h hinside hclear

/-! ## What starts with a mark -/

/-- What starts with a slash in an excerpt is what starts there in the source. -/
theorem slash_cursor (h : x.Sees d) (hnext : x.Sees d.advance)
    (hclear : x.Clear (slash (s.behind x.base past) (x.cursor d)).next.offset) :
    slash (s.behind x.base past) (x.cursor d) = x.outcome past (slash s d) := by
  have hrecent : (s.behind x.base past).recent = s.recent := rfl
  unfold slash at hclear ⊢
  simp only [h.advance_cursor, hnext.rune_cursor, hnext.advance_cursor, hrecent] at hclear ⊢
  split
  · rw [h.whole_cursor hnext.toHolds]
    exact Outcome.ofLexeme_cursor past s d _
  · rename_i hstar
    rw [if_neg hstar] at hclear
    have hinside : x.Sees d.advance.advance :=
      hnext.pass_of (p := fun r => r.is '*') (by decide) (by simpa using hstar)
    -- The rune behind the letter is looked at only behind the letter.
    have hfeature : (d.advance.advance.rune.is 'T' &&
        (x.cursor d.advance.advance.advance).rune.is '!') =
        (d.advance.advance.rune.is 'T' && d.advance.advance.advance.rune.is '!') := by
      rcases hletter : d.advance.advance.rune.is 'T' with _ | _
      · rfl
      · rw [(hinside.pass_of (p := fun r => r.is 'T') (by decide) hletter).rune_cursor]
    simp only [hinside.rune_cursor, hinside.advance_cursor, hfeature] at hclear ⊢
    split
    · rename_i hbang
      rw [Lexeme.version_cursor (hinside.pass_of (p := fun r => r.is '!') (by decide) hbang)]
      rfl
    · rename_i hbang
      rw [if_neg hbang] at hclear
      split
      · rename_i hgated
        rw [if_pos hgated] at hclear
        rw [Bool.and_eq_true] at hgated
        have hletter := hinside.pass_of (p := fun r => r.is 'T') (by decide) hgated.1
        have hmark := hletter.pass_of (p := fun r => r.is '!') (by decide) hgated.2
        rw [hletter.advance_cursor] at hclear ⊢
        exact gated_cursor past s h hmark hclear
      · rename_i hgated
        rw [if_neg hgated] at hclear
        split
        · rename_i hplus
          rw [if_pos hplus] at hclear
          exact hint_cursor past s h hinside hclear
        · rename_i hplus
          rw [if_neg hplus] at hclear
          exact block_cursor past s h hinside hclear

/-- What starts with a star in an excerpt is what starts there in the source. -/
theorem star_cursor (h : x.Sees d) (hnext : x.Sees d.advance) :
    star (s.behind x.base past) (x.cursor d) = x.outcome past (star s d) := by
  have hvendor : (s.behind x.base past).inVendorBlock = s.inVendorBlock := rfl
  unfold star
  rw [h.advance_cursor]
  simp only [hnext.rune_cursor, hnext.advance_cursor, hvendor]
  rcases hclose : s.inVendorBlock && d.advance.rune.is '/' with _ | _
  · simp only [Bool.false_eq_true, if_false]
    rw [h.whole_cursor hnext.toHolds]
    exact Outcome.ofLexeme_cursor past { s with afterNameDot := false } d _
  · simp only [if_true]
    rfl

/-- A comment behind a sharp sign in an excerpt is the one in the source. -/
theorem sharp_cursor (h : x.Sees d) (hnext : x.Sees d.advance)
    (hclear : x.Clear (sharp (s.behind x.base past) (x.cursor d)).next.offset) :
    sharp (s.behind x.base past) (x.cursor d) = x.outcome past (sharp s d) := by
  unfold sharp lineEnd at hclear ⊢
  rw [h.advance_cursor] at hclear ⊢
  rw [hnext.skipWhile_cursor hclear]
  rfl

/-- What starts with a dash in an excerpt is what starts there in the source. -/
theorem dash_cursor (h : x.Sees d) (hnext : x.Sees d.advance)
    (hclear : x.Clear (dash (s.behind x.base past) (x.cursor d)).next.offset) :
    dash (s.behind x.base past) (x.cursor d) = x.outcome past (dash s d) := by
  have hlexeme (kind : TokenKind) {stop : Cursor} (hstop : x.Holds stop) :
      Outcome.ofLexeme (x.cursor d) (s.behind x.base past)
          (.whole kind (x.cursor d) (x.cursor stop)) =
        x.outcome past (.ofLexeme d s (.whole kind d stop)) := by
    rw [h.whole_cursor hstop]
    exact Outcome.ofLexeme_cursor past s d _
  unfold dash at hclear ⊢
  simp only [h.advance_cursor, hnext.rune_cursor, hnext.advance_cursor] at hclear ⊢
  rcases hdash : d.advance.rune.is '-' with _ | _
  · rcases harrow : d.advance.rune.is '>' with _ | _
    · simp only [Bool.false_and, Bool.false_eq_true, if_false]
      exact hlexeme _ hnext.toHolds
    · have hthird := hnext.pass_of (p := fun r => r.is '>') (by decide) harrow
      simp only [Bool.false_and, Bool.true_and, Bool.false_eq_true, if_false, if_true,
        hthird.rune_cursor, hthird.advance_cursor]
      split
      · exact hlexeme _ (hthird.toHolds.reaches (.next _))
      · exact hlexeme _ hthird.toHolds
  · have hthird := hnext.pass_of (p := fun r => r.is '-') (by decide) hdash
    have harrow : d.advance.rune.is '>' = false :=
      Rune.is_eq_false (p := fun r => r.is '-') hdash _ (by decide)
    simp only [hdash, harrow, Bool.false_and, Bool.true_and, Bool.false_eq_true, if_false,
      hthird.rune_cursor, hthird.atEnd_cursor] at hclear ⊢
    split
    · rename_i hblank
      rw [if_pos hblank] at hclear
      rw [lineEnd, hthird.skipWhile_cursor hclear]
      rfl
    · exact hlexeme _ hnext.toHolds

end Comment

/-- What the form of a starter makes of a place in an excerpt is what it makes of the place in the
source, if the place is clear that the source has been read up to. -/
theorem Starter.outcome_cursor (starter : Starter) (config : Config) (h : x.Sees d)
    (hnext : x.Sees d.advance)
    (hclear : x.Clear (starter.outcome config (s.behind x.base past) (x.cursor d)).next.offset) :
    starter.outcome config (s.behind x.base past) (x.cursor d) =
      x.outcome past (starter.outcome config s d) := by
  have hlexeme {l l' : Lexeme} (heq : l = x.lexeme l') :
      Outcome.ofLexeme (x.cursor d) (s.behind x.base past) l =
        x.outcome past (.ofLexeme d s l') := by
    rw [heq]
    exact Outcome.ofLexeme_cursor past s d l'
  cases starter with
  | slash => exact Comment.slash_cursor past s h hnext hclear
  | star => exact Comment.star_cursor past s h hnext
  | sharp => exact Comment.sharp_cursor past s h hnext hclear
  | dash => exact Comment.dash_cursor past s h hnext hclear
  | «at» => exact hlexeme (Lexeme.anyVariable_cursor h hnext _ hclear)
  | dot => exact hlexeme (Lexeme.dot_cursor h hnext s.afterNameDot)
  | number => exact hlexeme (Lexeme.number_cursor h hnext s.afterNameDot)
  | string => exact hlexeme (Lexeme.quoted_cursor h hnext _ _ _ hclear)
  | quotedIdentifier => exact hlexeme (Lexeme.quoted_cursor h hnext _ _ _ hclear)
  | hexMark => exact hlexeme (Lexeme.quotedDigits_cursor h hnext _ _ (by decide))
  | bitMark => exact hlexeme (Lexeme.quotedDigits_cursor h hnext _ _ (by decide))
  | nationalMark => exact hlexeme (Lexeme.national_cursor h hnext)
  | identifier => exact hlexeme (Lexeme.word_cursor h hnext)

end SqlTokens
