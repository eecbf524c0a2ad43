import SqlTokens.Proofs.Hints

/-!
# Where comments end

A comment between `/*` and `*/` ends at the first `*/` behind its opening, whatever stands before
it, and goes up to the end of the source as an invalid token if there is none (`Closes`). The
opening may be longer than `/*`: the star and the slash of `/*/` are not an end, and a list of
features has no star, so it makes no difference whether the end is looked for behind the list or
behind the `/*` (`Closes.widen`, `Closes.narrow`).

What starts with `/*` is such a comment unless it opens a vendor comment (`slash_plain`). What
starts with `/*T!` opens one with its list of features, if there is a list and all its features are
known, and with the mark alone, if there is no list; with a list of other features it is a comment
that ends at the first `*/` behind the list (`slash_gated`).
-/

namespace SqlTokens

namespace Trivia

variable {inside inside' more rest rest' : Bytes}

/-- Behind what may stand inside a comment, the first end is not farther on. -/
theorem IsInside.eq_nil_of_append (h : IsInside (inside ++ more))
    (heq : 0x2A :: 0x2F :: rest = more ++ 0x2A :: 0x2F :: rest') : more = [] := by
  rcases more with _ | ⟨b, _ | ⟨b', more⟩⟩
  · rfl
  · -- The second byte would be a star and a slash at once.
    rw [List.cons_append, List.nil_append, List.cons.injEq, List.cons.injEq] at heq
    exact absurd heq.2.1 (by decide)
  · -- The end would stand inside.
    rw [List.cons_append, List.cons_append, List.cons.injEq, List.cons.injEq] at heq
    obtain ⟨rfl, rfl, -⟩ := heq
    exact absurd ⟨inside, more ++ [0x2A], by simp⟩ h

/-- A comment has one first end. -/
theorem IsInside.unique (h : IsInside inside) (h' : IsInside inside')
    (heq : inside ++ 0x2A :: 0x2F :: rest = inside' ++ 0x2A :: 0x2F :: rest') :
    inside = inside' ∧ rest = rest' := by
  have hsame : inside = inside' := by
    rcases List.append_eq_append_iff.mp heq with ⟨more, rfl, hmore⟩ | ⟨more, rfl, hmore⟩
    · rw [h'.eq_nil_of_append hmore, List.append_nil]
    · rw [h.eq_nil_of_append hmore, List.append_nil]
  subst hsame
  exact ⟨rfl, (List.cons.inj (List.cons.inj (List.append_cancel_left heq)).2).2⟩

/-- Stars may stand before the end of a comment. -/
theorem IsInside.append_stars (h : IsInside inside) (n : Nat) :
    IsInside (inside ++ List.replicate n 0x2A) := by
  induction n with
  | zero => rwa [List.replicate_zero, List.append_nil]
  | succ n ih =>
    rw [List.replicate_succ', ← List.append_assoc, IsInside, List.infix_concat_iff, not_or]
    refine ⟨fun hsuffix => ?_, ih⟩
    -- A `*/` that ends with the last byte would end with a slash.
    have hlast := hsuffix.getLast (by decide)
    rw [List.getLast_concat] at hlast
    exact absurd hlast (by decide)

/-- Behind what has no star, the rest of what may stand inside a comment may do so, too. -/
theorem IsInside.of_append (h : IsInside (inside ++ more)) : IsInside more := fun hinfix =>
  h (by rw [List.append_assoc]; exact hinfix.trans (List.suffix_append _ _).isInfix)

end Trivia

namespace Comment

/-! ## Ends of comments -/

/-- What comes of a comment at a cursor, with its opening and the bytes behind it: the given outcome
at the first end, and an invalid token up to the end of the source if there is none. -/
inductive Closes (s : State) (c : Cursor) (opening body : Bytes) (done : Cursor → Outcome) :
    Outcome → Prop where
  /-- The comment ends where the first `*/` does. -/
  | closed {inside rest : Bytes} {stop : Cursor} : Trivia.IsInside inside →
      body = inside ++ 0x2A :: 0x2F :: rest → c.Reaches stop →
      c.upTo stop = opening ++ inside ++ [0x2A, 0x2F] → stop.ahead = rest →
      Closes s c opening body done (done stop)
  /-- Without a `*/` the comment takes everything. -/
  | unclosed {stop : Cursor} : ¬[0x2A, 0x2F] <:+: body → c.Reaches stop →
      c.upTo stop = opening ++ body → stop.ahead = [] →
      Closes s c opening body done (.token ⟨.invalid, c.pos, opening ++ body⟩ stop
        { s with errors := s.errors ++ [⟨.unterminatedComment, c.pos⟩] })

section closes

variable {s : State} {c inside : Cursor} {opening front body : Bytes} {done : Cursor → Outcome}
  {o : Outcome}

/-- The search for the end of a comment finds it. -/
theorem closes_of_search (hreach : c.Reaches inside) :
    Closes s c (c.upTo inside) inside.ahead done
      (match closing? inside with
      | some stop => done stop
      | none => .ofLexeme c s (.broken .unterminatedComment c inside.toEnd)) := by
  rcases hclosing : closing? inside with _ | stop
  · have hskip : inside.Reaches inside.toEnd := (Cursor.Reaches.refl inside).skipWhile _
    have hend : inside.toEnd.ahead = [] := Cursor.atEnd_iff_ahead.mp (atEnd_toEnd inside)
    have htext : c.upTo inside.toEnd = c.upTo inside ++ inside.ahead := by
      rw [hreach.upTo_trans hskip, hskip.ahead_eq, hend, List.append_nil]
    have hunclosed : Closes s c (c.upTo inside) inside.ahead done (.token
        ⟨.invalid, c.pos, c.upTo inside ++ inside.ahead⟩ inside.toEnd
        { s with errors := s.errors ++ [⟨.unterminatedComment, c.pos⟩] }) :=
      .unclosed (closing?_complete hclosing) (hreach.trans hskip) htext hend
    rw [← htext] at hunclosed
    exact hunclosed
  · obtain ⟨hstop, body, hbody, htext⟩ := closing?_sound hclosing
    refine .closed hbody ?_ (hreach.trans hstop) ?_ rfl
    · rw [hstop.ahead_eq, htext, List.append_assoc]
      rfl
    · rw [hreach.upTo_trans hstop, htext, List.append_assoc]

/-- A comment closes in silence. -/
theorem block_closes (hreach : c.Reaches inside) :
    Closes s c (c.upTo inside) inside.ahead (fun stop => .trivia stop s) (block s c inside) :=
  closes_of_search hreach

/-- Bytes without star at the end of an opening may be counted as inside. -/
theorem Closes.widen (h : Closes s c (opening ++ front) body done o) (hfront : 0x2A ∉ front) :
    Closes s c opening (front ++ body) done o := by
  rcases h with ⟨hinside, hbody, hreach, htext, hahead⟩ | ⟨hnot, hreach, htext, hahead⟩
  · refine .closed (hinside.append hfront) ?_ hreach ?_ hahead
    · rw [hbody, List.append_assoc]
    · rw [htext, List.append_assoc opening]
  · rw [List.append_assoc] at htext ⊢
    exact .unclosed (Trivia.not_infix_append hfront hnot) hreach htext hahead

/-- Bytes without star at the start of the inside may be counted as opening. -/
theorem Closes.narrow (h : Closes s c opening (front ++ body) done o) (hfront : 0x2A ∉ front) :
    Closes s c (opening ++ front) body done o := by
  rcases h with @⟨inside, rest, stop, hinside, hbody, hreach, htext, hahead⟩ |
    ⟨hnot, hreach, htext, hahead⟩
  · -- The first star stands behind these bytes, so they are a part of the inside.
    obtain ⟨more, rfl, hmore⟩ : ∃ more, inside = front ++ more ∧
        body = more ++ 0x2A :: 0x2F :: rest := by
      rcases List.append_eq_append_iff.mp hbody with ⟨more, hin, hmore⟩ | ⟨more, rfl, hmore⟩
      · exact ⟨more, hin, hmore⟩
      · rcases more with _ | ⟨b, more⟩
        · exact ⟨[], by simp, by simpa using hmore.symm⟩
        · obtain ⟨rfl, -⟩ := List.cons.inj hmore
          exact absurd (List.mem_append_right _ List.mem_cons_self) hfront
    refine .closed hinside.of_append hmore hreach ?_ hahead
    rw [htext, List.append_assoc opening front]
  · rw [← List.append_assoc] at htext ⊢
    refine .unclosed (fun hinfix => hnot ?_) hreach htext hahead
    exact hinfix.trans (List.suffix_append _ _).isInfix

/-- Where the first end of a comment stands, the comment closes. -/
theorem Closes.of_inside {text rest : Bytes}
    (h : Closes s c opening (text ++ 0x2A :: 0x2F :: rest) done o) (htext : Trivia.IsInside text) :
    ∃ stop, c.Reaches stop ∧ c.upTo stop = opening ++ text ++ [0x2A, 0x2F] ∧ stop.ahead = rest ∧
      o = done stop := by
  rcases h with @⟨inside, rest', stop, hinside, hbody, hreach, hup, hahead⟩ | ⟨hnot, -⟩
  · obtain ⟨rfl, rfl⟩ := htext.unique hinside hbody
    exact ⟨stop, hreach, hup, hahead, rfl⟩
  · exact absurd ⟨text, rest, by simp⟩ hnot

end closes

/-! ## Openings -/

section opening

variable {s : State} {c : Cursor} {body rest : Bytes}

/-- Behind the opening of a comment stands its body. -/
theorem inside_of_opening (ha : c.ahead = 0x2F :: 0x2A :: body) :
    c.advance.rune.is '*' = true ∧ c.Reaches c.advance.advance ∧
      c.upTo c.advance.advance = [0x2F, 0x2A] ∧ c.advance.advance.ahead = body := by
  obtain ⟨hone, hstar⟩ := Cursor.advance_of_ahead (by decide) ha
  obtain ⟨htwo, hbody⟩ := Cursor.advance_of_ahead (by decide) hstar
  refine ⟨?_, (Cursor.Reaches.next c).advance, ?_, hbody⟩
  · rw [Cursor.rune_is_iff (by decide), hstar]
    rfl
  · rw [(Cursor.Reaches.next c).upTo_trans (.next _), hone, htwo]
    rfl

/-- The state behind the opening of a comment that is no vendor comment. -/
def marked (s : State) (c : Cursor) : State :=
  { s with warnings := s.warnings ++ noted s.recent c }

/-- What a comment comes to that ends at the second cursor: a token if it is a hint, and nothing
otherwise. -/
def finished (s : State) (c stop : Cursor) : Outcome :=
  if hintMark <+: c.ahead ∧ s.recent.Honours then
    .token ⟨.optimizerHint, c.pos, c.upTo stop⟩ stop { s with hintAt := some c.pos }
  else .trivia stop s

/-- Without a warning the opening leaves the state as it is. -/
theorem marked_eq (h : ¬(hintMark <+: c.ahead ∧ s.recent.Ignores)) : marked s c = s := by
  rw [marked, noted, if_neg h, List.append_nil]

/-- A comment that is no hint comes to nothing. -/
theorem finished_eq (h : ¬(hintMark <+: c.ahead ∧ s.recent.Honours)) :
    finished s c = fun stop => .trivia stop s := by
  funext stop
  rw [finished, if_neg h]

/-- Without the mark of a comment for the optimizer nothing is noted, and nothing comes of it. -/
theorem unmarked_eq (h : ¬hintMark <+: c.ahead) :
    marked s c = s ∧ finished s c = fun stop => .trivia stop s :=
  ⟨marked_eq fun hboth => h hboth.1, finished_eq fun hboth => h hboth.1⟩

/-- A comment for the optimizer closes, whether it is honoured or not. -/
theorem hinted_closes (ha : c.ahead = 0x2F :: 0x2A :: body) (hmark : hintMark <+: c.ahead) :
    Closes (marked s c) c [0x2F, 0x2A] body (finished (marked s c) c) (slash s c) := by
  obtain ⟨-, hreach, hopen, rfl⟩ := inside_of_opening ha
  rw [← hopen, slash_of_hintMark hmark]
  split
  · rename_i hlatest
    unfold hint
    split
    · -- The hint is honoured, so that there is no warning.
      rename_i hplace
      have hsame : marked s c = s := marked_eq fun hboth =>
        hplace.elim (fun hne => hne hboth.2.2.1) hboth.2.2.2
      have hdone : finished s c = fun stop =>
          .token ⟨.optimizerHint, c.pos, c.upTo stop⟩ stop { s with hintAt := some c.pos } := by
        funext stop
        rw [finished, if_pos ⟨hmark, hlatest, hplace⟩]
      rw [hsame, hdone]
      exact closes_of_search hreach
    · -- The hint is out of place, and there is a warning.
      rename_i hplace
      rw [not_or, not_ne_iff] at hplace
      have hwarned : marked s c = s.warn .ignoredOptimizerHint c.pos := by
        rw [marked, noted, if_pos ⟨hmark, hlatest, hplace⟩]
        rfl
      have hnot : ¬(hintMark <+: c.ahead ∧ (marked s c).recent.Honours) := fun hboth =>
        hboth.2.2.elim (fun hne => hne hplace.1) hplace.2
      rw [finished_eq hnot, hwarned]
      exact block_closes hreach
  · -- Behind this word the comment is like any other.
    rename_i hlatest
    rw [marked_eq fun hboth => hlatest hboth.2.1, finished_eq fun hboth => hlatest hboth.2.1]
    exact block_closes hreach

/-- A comment that is marked neither as a vendor comment nor as a feature comment closes. -/
theorem unmarked_closes (ha : c.ahead = 0x2F :: 0x2A :: body) (hbang : body.head? ≠ some 0x21)
    (hfeature : ∀ inside, body ≠ 0x54 :: 0x21 :: inside) :
    Closes (marked s c) c [0x2F, 0x2A] body (finished (marked s c) c) (slash s c) := by
  by_cases hmark : hintMark <+: c.ahead
  · exact hinted_closes ha hmark
  · obtain ⟨hstar, hreach, hopen, rfl⟩ := inside_of_opening ha
    have hslash : c.ahead.head? = some 0x2F := by rw [ha, List.head?_cons]
    have hnobang : c.advance.advance.rune.is '!' = false := by
      rw [Bool.eq_false_iff, Ne, Cursor.rune_is_iff (by decide)]
      exact hbang
    have hnofeature : (c.advance.advance.rune.is 'T' &&
        c.advance.advance.advance.rune.is '!') = false := by
      rw [Bool.eq_false_iff, Ne, Bool.and_eq_true]
      rintro ⟨hletter, hmark⟩
      refine hfeature c.advance.advance.advance.advance.ahead ?_
      rw [(Cursor.upTo_advance_of_is (by decide) hletter).2,
        (Cursor.upTo_advance_of_is (by decide) hmark).2]
      rfl
    have hnoplus : c.advance.advance.rune.is '+' = false :=
      Bool.eq_false_iff.mpr fun hplus => hmark (hintMark_isPrefix hslash hstar hplus)
    have hblock : slash s c = block s c c.advance.advance := by
      unfold slash
      simp only [hstar, hnobang, hnofeature, hnoplus, Bool.not_true, Bool.false_and,
        Bool.false_eq_true, if_false]
    obtain ⟨hsame, hdone⟩ := unmarked_eq (s := s) hmark
    rw [hblock, hsame, hdone, ← hopen]
    exact block_closes hreach

/-! ## Feature comments -/

/-- The mark of a feature comment is passed over, and what follows is up to the list. -/
theorem slash_of_mark (ha : c.ahead = 0x2F :: 0x2A :: 0x54 :: 0x21 :: rest) :
    ∃ mark, c.Reaches mark ∧ c.upTo mark = [0x2F, 0x2A, 0x54, 0x21] ∧ mark.ahead = rest ∧
      mark.pos = ⟨c.pos.line, c.pos.column + 4, c.pos.offset + 4⟩ ∧ slash s c = gated s c mark := by
  obtain ⟨hstar, hreach, hopen, hinside⟩ := inside_of_opening ha
  obtain ⟨hthree, hsecond⟩ := Cursor.advance_of_ahead (by decide) hinside
  obtain ⟨hfour, hrest⟩ := Cursor.advance_of_ahead (by decide) hsecond
  have hletter : c.advance.advance.rune = .ofByte 0x54 :=
    Cursor.rune_of_head? (by decide) (by decide) (by rw [hinside, List.head?_cons])
  have hbang : c.advance.advance.advance.rune.is '!' = true := by
    rw [Cursor.rune_is_iff (by decide), hsecond]
    rfl
  refine ⟨c.advance.advance.advance.advance, hreach.advance.advance, ?_, hrest, ?_, ?_⟩
  · rw [hreach.advance.upTo_trans (.next _), hreach.upTo_trans (.next _), hopen, hthree, hfour]
    rfl
  · -- None of the four bytes breaks the line.
    have hahead : c.advance.ahead = 0x2A :: 0x54 :: 0x21 :: rest :=
      (Cursor.advance_of_ahead (by decide) ha).2
    rw [Cursor.pos_advance_of_head? (b := 0x21) (by decide) (by decide) (by rw [hsecond]; rfl),
      Cursor.pos_advance_of_head? (b := 0x54) (by decide) (by decide) (by rw [hinside]; rfl),
      Cursor.pos_advance_of_head? (b := 0x2A) (by decide) (by decide) (by rw [hahead]; rfl),
      Cursor.pos_advance_of_head? (b := 0x2F) (by decide) (by decide) (by rw [ha]; rfl)]
  · have hnobang : (Rune.ofByte 0x54).is '!' = false := by decide
    have hT : (Rune.ofByte 0x54).is 'T' = true := by decide
    unfold slash
    simp only [hstar, hletter, hnobang, hT, hbang, Bool.not_true, Bool.true_and,
      Bool.false_eq_true, if_false, if_true]

/-- A list of features decides whether the comment is a vendor comment. -/
theorem gated_of_list {mark : Cursor} {opening list more : Bytes} {names : List Bytes}
    (hreach : c.Reaches mark) (hopen : c.upTo mark = opening) (hlist : NameList names list)
    (ha : mark.ahead = 0x5B :: list ++ more) :
    if names.all Vocabulary.isFeature then
      ∃ behind, c.Reaches behind ∧ c.upTo behind = opening ++ 0x5B :: list ∧ behind.ahead = more ∧
        gated s c mark = .trivia behind { s with inVendorBlock := true }
    else Closes s c (opening ++ 0x5B :: list) more (fun stop => .trivia stop s)
      (gated s c mark) := by
  obtain ⟨behind, hread, hbehind, htext, rfl⟩ := bracketed?_of_list hlist ha
  have hup : c.upTo behind = opening ++ 0x5B :: list := by
    rw [hreach.upTo_trans hbehind, hopen, htext]
  rw [gated, hread]
  simp only
  split
  · exact ⟨behind, hreach.trans hbehind, hup, rfl, rfl⟩
  · rw [← hup]
    exact block_closes (hreach.trans hbehind)

/-- A feature comment with an unknown feature closes. -/
theorem unsupported_closes {list more : Bytes} {names : List Bytes}
    (ha : c.ahead = 0x2F :: 0x2A :: 0x54 :: 0x21 :: (0x5B :: list ++ more))
    (hlist : NameList names list) (hall : names.all Vocabulary.isFeature = false) :
    Closes (marked s c) c [0x2F, 0x2A] (0x54 :: 0x21 :: (0x5B :: list ++ more))
      (finished (marked s c) c) (slash s c) := by
  obtain ⟨mark, hreach, hopen, hinside, -, hslash⟩ := slash_of_mark (s := s) ha
  have hgated := gated_of_list (s := s) hreach hopen hlist hinside
  rw [if_neg (by rw [hall]; decide), ← hslash] at hgated
  have hunmarked : ¬hintMark <+: c.ahead := by
    rw [ha]
    simp [hintMark]
  obtain ⟨hsame, hdone⟩ := unmarked_eq (s := s) hunmarked
  -- The end is looked for behind the list, which has no star.
  have hbehind : Closes s c ([0x2F, 0x2A] ++ 0x54 :: 0x21 :: 0x5B :: list) more
      (fun stop => .trivia stop s) (slash s c) := hgated
  rw [hsame, hdone]
  exact hbehind.widen (by simp [hlist.star_not_mem])

/-- Without a list the comment is a vendor comment from its mark on. -/
theorem gated_of_none {mark : Cursor}
    (hnone : ∀ names list, NameList names list → ¬0x5B :: list <+: mark.ahead) :
    gated s c mark = .trivia mark { s with inVendorBlock := true } := by
  rw [gated]
  split
  · rename_i names behind hread
    obtain ⟨hreach, list, hlist, htext⟩ := bracketed?_sound hread
    exact absurd ⟨behind.ahead, by rw [← htext, ← hreach.ahead_eq]⟩ (hnone names list hlist)
  · rfl

end opening

/-! ## What starts with a slash and a star -/

/-- Comments close at the first `*/`. What starts with `/*` and opens no vendor comment ends where
the first `*/` behind these two bytes does: it comes to nothing, unless it is a hint that is
honoured. Without such a `*/` it is an invalid token up to the end of the source. A slash right
behind the opening is a part of the comment, and so are all stars before the slash that ends it. -/
theorem slash_plain (s : State) (c : Cursor) (body : Bytes) (ha : c.ahead = 0x2F :: 0x2A :: body)
    (hplain : Trivia.IsPlain body) :
    Closes (marked s c) c [0x2F, 0x2A] body (finished (marked s c) c) (slash s c) ∧
    (∀ more, body = 0x2F :: more →
      Closes (marked s c) c [0x2F, 0x2A, 0x2F] more (finished (marked s c) c) (slash s c)) ∧
    ∀ front n rest, Trivia.IsInside front →
      body = front ++ List.replicate (n + 1) 0x2A ++ 0x2F :: rest →
      ∃ stop, c.Reaches stop ∧
        c.upTo stop = 0x2F :: 0x2A :: front ++ List.replicate (n + 1) 0x2A ++ [0x2F] ∧
        stop.ahead = rest ∧ slash s c = finished (marked s c) c stop := by
  obtain ⟨hbang, hfeature⟩ := hplain
  have hcloses : Closes (marked s c) c [0x2F, 0x2A] body (finished (marked s c) c)
      (slash s c) := by
    by_cases hmark : ∃ inside, body = 0x54 :: 0x21 :: inside
    · obtain ⟨inside, rfl⟩ := hmark
      obtain ⟨names, list, more, hlist, hall, rfl⟩ := hfeature inside rfl
      exact unsupported_closes ha hlist hall
    · exact unmarked_closes ha hbang fun inside hbody => hmark ⟨inside, hbody⟩
  refine ⟨hcloses, ?_, ?_⟩
  · rintro more rfl
    have hslash : Closes (marked s c) c [0x2F, 0x2A] ([0x2F] ++ more) (finished (marked s c) c)
        (slash s c) := hcloses
    exact hslash.narrow (by decide)
  · rintro front n rest hfront rfl
    -- All stars but the last stand inside.
    have hsplit : front ++ List.replicate (n + 1) 0x2A ++ 0x2F :: rest =
        (front ++ List.replicate n 0x2A) ++ 0x2A :: 0x2F :: rest := by
      rw [List.replicate_succ']
      simp
    rw [hsplit] at hcloses
    obtain ⟨stop, hreach, htext, hahead, hslash⟩ := hcloses.of_inside (hfront.append_stars n)
    refine ⟨stop, hreach, ?_, hahead, hslash⟩
    rw [htext, List.replicate_succ']
    simp

/-- Several stars before the slash end a comment as one does. -/
theorem slash_plain_stars :
    Trivia.IsPlain [0x61, 0x2A, 0x2A, 0x2F, 0x20] ∧
      ∃ stop, stop.ahead = [0x20] ∧
        slash {} (.start [0x2F, 0x2A, 0x61, 0x2A, 0x2A, 0x2F, 0x20]) = .trivia stop {} := by
  have hplain : Trivia.IsPlain [0x61, 0x2A, 0x2A, 0x2F, 0x20] :=
    ⟨by decide, fun inside h => by cases h⟩
  have hmark : ¬hintMark <+: (Cursor.start [0x2F, 0x2A, 0x61, 0x2A, 0x2A, 0x2F, 0x20]).ahead := by
    decide
  obtain ⟨-, -, hstars⟩ :=
    slash_plain {} (.start [0x2F, 0x2A, 0x61, 0x2A, 0x2A, 0x2F, 0x20]) _ rfl hplain
  have hfront : Trivia.IsInside [0x61] := by
    rw [Trivia.IsInside]
    decide
  obtain ⟨stop, -, -, hahead, hslash⟩ := hstars [0x61] 1 [0x20] hfront rfl
  refine ⟨hplain, stop, hahead, ?_⟩
  rw [hslash, (unmarked_eq hmark).1, (unmarked_eq hmark).2]

/-- Feature comments. Behind `/*T!` a list of names in brackets is read if there is one, as it
stands. If all names are known features, the list is read with the mark and a vendor comment is
open; if not, the comment ends at the first `*/` behind the list, and the vendor comment is as
before. Without a list the mark alone is read and a vendor comment is open. The place behind the
mark is the one that a jump there leads to. In every case something is read. -/
theorem slash_gated (s : State) (c : Cursor) (rest : Bytes)
    (ha : c.ahead = 0x2F :: 0x2A :: 0x54 :: 0x21 :: rest) :
    (∀ names list more, NameList names list → rest = 0x5B :: list ++ more →
      if ∀ name ∈ names, name ∈ ["auto_rand", "auto_id_cache", "auto_rand_base", "clustered_index",
          "force_inc", "placement", "ttl", "resource_group", "global_index"].map Bytes.ofString then
        ∃ behind, c.Reaches behind ∧
          c.upTo behind = [0x2F, 0x2A, 0x54, 0x21] ++ 0x5B :: list ∧ behind.ahead = more ∧
          slash s c = .trivia behind { s with inVendorBlock := true }
      else Closes s c ([0x2F, 0x2A, 0x54, 0x21] ++ 0x5B :: list) more (fun stop => .trivia stop s)
        (slash s c)) ∧
    ((∀ names list, NameList names list → ¬0x5B :: list <+: rest) →
      ∃ mark, c.Reaches mark ∧ c.upTo mark = [0x2F, 0x2A, 0x54, 0x21] ∧ mark.ahead = rest ∧
        mark.pos = ⟨c.pos.line, c.pos.column + 4, c.pos.offset + 4⟩ ∧
        (c.Canonical → mark.pos = Position.ofOffset c.source mark.offset ∧
          ∀ (r : Reader) (last : Position), r.Sound last → r.source = c.source → rest ≠ [] →
            ∃ there, r.seek? mark.offset = some there ∧ there.cursor = mark) ∧
        slash s c = .trivia mark { s with inVendorBlock := true }) ∧
    (slash s c).Reads c := by
  obtain ⟨mark, hreach, hopen, rfl, hpos, hslash⟩ := slash_of_mark (s := s) ha
  refine ⟨fun names list more hlist hrest => ?_, fun hnone => ?_, ?_⟩
  · have hgated := gated_of_list (s := s) hreach hopen hlist hrest
    simp only [List.all_eq_true, Vocabulary.isFeature_iff] at hgated
    rw [hslash]
    -- The vocabulary lists the features in the same order.
    exact hgated
  · refine ⟨mark, hreach, hopen, rfl, hpos, fun hc => ?_, by rw [hslash, gated_of_none hnone]⟩
    have hmark : mark.Canonical := hreach.canonical hc
    rw [← hreach.source_eq]
    refine ⟨hmark.pos_eq, fun r last hr hsource hne => hr.seek_cursor hmark hsource ?_⟩
    rwa [Bool.eq_false_iff, Ne, Cursor.atEnd_iff_ahead]
  · exact slash_reads s (by rw [Cursor.atEnd, ha, List.isEmpty_cons])

/-- A comment with an unknown feature ends where it is closed, and one whose features are all known
opens a vendor comment behind its list. -/
theorem slash_gated_features :
    (Cursor.start [0x2F, 0x2A, 0x54, 0x21, 0x5B, 0x78, 0x5D, 0x2A, 0x2F]).ahead =
        0x2F :: 0x2A :: 0x54 :: 0x21 :: [0x5B, 0x78, 0x5D, 0x2A, 0x2F] ∧
      (∃ stop, stop.ahead = [] ∧
        slash {} (.start [0x2F, 0x2A, 0x54, 0x21, 0x5B, 0x78, 0x5D, 0x2A, 0x2F]) =
          .trivia stop {}) ∧
      (Cursor.start [0x2F, 0x2A, 0x54, 0x21, 0x5B, 0x74, 0x74, 0x6C, 0x5D, 0x61]).ahead =
        0x2F :: 0x2A :: 0x54 :: 0x21 :: [0x5B, 0x74, 0x74, 0x6C, 0x5D, 0x61] ∧
      ∃ behind, behind.ahead = [0x61] ∧
        slash {} (.start [0x2F, 0x2A, 0x54, 0x21, 0x5B, 0x74, 0x74, 0x6C, 0x5D, 0x61]) =
          .trivia behind { inVendorBlock := true } := by
  have hunknown : NameList [[0x78]] [0x78, 0x5D] :=
    .last (by decide) (.cons (by decide) .nil)
  have hknown : NameList [[0x74, 0x74, 0x6C]] [0x74, 0x74, 0x6C, 0x5D] :=
    .last (by decide) (.cons (by decide) (.cons (by decide) (.cons (by decide) .nil)))
  refine ⟨rfl, ?_, rfl, ?_⟩
  · obtain ⟨hgated, -⟩ :=
      slash_gated {} (.start [0x2F, 0x2A, 0x54, 0x21, 0x5B, 0x78, 0x5D, 0x2A, 0x2F]) _ rfl
    have hcloses := hgated _ _ [0x2A, 0x2F] hunknown rfl
    rw [if_neg (by decide)] at hcloses
    obtain ⟨stop, -, -, hahead, hslash⟩ :=
      Closes.of_inside (show Closes _ _ _ ([] ++ _) _ _ from hcloses) Trivia.isInside_nil
    exact ⟨stop, hahead, hslash⟩
  · obtain ⟨hgated, -⟩ :=
      slash_gated {} (.start [0x2F, 0x2A, 0x54, 0x21, 0x5B, 0x74, 0x74, 0x6C, 0x5D, 0x61]) _ rfl
    have hopens := hgated _ _ [0x61] hknown rfl
    rw [if_pos (by decide)] at hopens
    obtain ⟨behind, -, -, hahead, hslash⟩ := hopens
    exact ⟨behind, hahead, hslash⟩

end Comment

end SqlTokens
