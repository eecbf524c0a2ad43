import SqlTokens.Proofs.ContinuedForms
import SqlTokens.Proofs.Hints

/-!
# Searches in a text that goes on

A search for a token in a text finds the same token in each continuation of the text, if the token
is well formed and no comment is left open by the end of the text (`nextToken_continued`). A search
that comes to the end of the text goes on from there in the continuation, with what it has noted so
far. A comment in brackets that is left open is a malformed token; a comment that ends with its line
is left open where no line break follows its opening (`Cursor.OpensLine`).
-/

namespace SqlTokens

/-- Whether a comment that ends with its line is opened at a cursor, and the line ends with the
source. -/
def Cursor.OpensLine (c : Cursor) : Prop :=
  0x0A ∉ c.ahead ∧ (c.ahead.head? = some 0x23 ∨
    [0x2D, 0x2D] <+: c.ahead ∧
      ∀ b ∈ (c.ahead.drop 2).head?, Rune.onByte Rune.isSpace b = true)

instance (c : Cursor) : Decidable c.OpensLine := inferInstanceAs (Decidable (_ ∧ _))

namespace Continuation

/-- The outcome of a step in the source that an outcome of a step in the text is. -/
def outcome (x : Continuation) : Outcome → Outcome
  | .token t next s => .token t (x.cursor next) s
  | .trivia next s => .trivia (x.cursor next) s

/-- Whether an outcome in the text is no malformed token, or the source ends with the text. -/
def Admits (x : Continuation) (o : Outcome) : Prop := x.tail = [] ∨ o.Kinded (· ≠ .invalid)

end Continuation

variable {x : Continuation} {d : Cursor} (s : State)

/-! ## Comments -/

namespace Comment

/-- The end of a comment in the text is the one in the source. -/
theorem closing?_continued (h : x.Sees d) (hclosed : x.tail = [] ∨ closing? d ≠ none) :
    closing? (x.cursor d) = (closing? d).map x.cursor := by
  fun_induction closing? d with
  | case1 d star hend =>
    have ho : x.Open star := hclosed.imp_right fun hsome => absurd rfl hsome
    have hsees : x.Sees star := h.run _
    have hstar : (x.cursor d).skipWhile (fun r => !r.is '*') = x.cursor star :=
      h.skipWhile_cursor ho
    rw [closing?]
    simp only [hstar, hsees.atEnd_cursor ho]
    rw [if_pos hend]
    rfl
  | case2 d star hend hslash =>
    have ho : x.Open star := .inr (Bool.eq_false_iff.mpr hend)
    have hsees : x.Sees star := h.run _
    have hstar : (x.cursor d).skipWhile (fun r => !r.is '*') = x.cursor star :=
      h.skipWhile_cursor ho
    rw [closing?]
    simp only [hstar, hsees.atEnd_cursor ho, hsees.advance_cursor ho, hsees.next.is_cursor '/' rfl]
    rw [if_neg hend, if_pos hslash, hsees.next.advance_cursor (Continuation.open_of_is hslash)]
    rfl
  | case3 d star hend hslash ih =>
    have ho : x.Open star := .inr (Bool.eq_false_iff.mpr hend)
    have hsees : x.Sees star := h.run _
    have hstar : (x.cursor d).skipWhile (fun r => !r.is '*') = x.cursor star :=
      h.skipWhile_cursor ho
    rw [closing?]
    simp only [hstar, hsees.atEnd_cursor ho, hsees.advance_cursor ho, hsees.next.is_cursor '/' rfl]
    rw [if_neg hend, if_neg hslash]
    exact ih hsees.next hclosed

/-- A comment that is left open goes up to the end of the source, if that is the end of the text. -/
theorem unclosed_continued {inside : Cursor} (h : x.Sees d) (hinside : x.Sees inside)
    (hnone : x.tail = []) :
    Outcome.ofLexeme (x.cursor d) s
        (.broken .unterminatedComment (x.cursor d) (x.cursor inside).toEnd) =
      x.outcome (.ofLexeme d s (.broken .unterminatedComment d inside.toEnd)) := by
  have hend : (x.cursor inside).toEnd = x.cursor inside.toEnd :=
    hinside.skipWhile_cursor (.inl hnone)
  have hsees : x.Sees inside.toEnd := hinside.run _
  rw [hend, h.broken_cursor hsees]
  rfl

/-- A comment in the text is the one in the source, if it is closed. -/
theorem block_continued {inside : Cursor} (h : x.Sees d) (hinside : x.Sees inside)
    (hadmits : x.Admits (block s d inside)) :
    block s (x.cursor d) (x.cursor inside) = x.outcome (block s d inside) := by
  unfold block at hadmits ⊢
  rcases hc : closing? inside with _ | stop
  · rw [hc] at hadmits
    have hnone : x.tail = [] := hadmits.resolve_right fun hkind => hkind rfl
    rw [closing?_continued hinside (.inl hnone), hc]
    exact unclosed_continued s h hinside hnone
  · rw [closing?_continued hinside (.inr (by rw [hc]; exact Option.some_ne_none stop)), hc]
    rfl

/-- A list of names in the text is the one in the source. -/
theorem names?_continued (h : x.Sees d) :
    names? (x.cursor d) = (names? d).map fun list => (list.1, x.cursor list.2) := by
  -- The source reads the same name, and the same mark behind it.
  have hunfold (d : Cursor) (h : x.Sees d) : names? (x.cursor d) =
      if !d.rune.isNameChar then none
      else if (d.skipWhile Rune.isNameChar).rune.is ']' then
        some ([d.upTo (d.skipWhile Rune.isNameChar)],
          x.cursor (d.skipWhile Rune.isNameChar).advance)
      else if (d.skipWhile Rune.isNameChar).rune.is ',' then
        (names? (x.cursor (d.skipWhile Rune.isNameChar).advance)).map fun list =>
          (d.upTo (d.skipWhile Rune.isNameChar) :: list.1, list.2)
      else none := by
    have hstop := h.run Rune.isNameChar
    have hmark {ch : Char} (hch : (d.skipWhile Rune.isNameChar).rune.is ch = true) :
        (x.cursor (d.skipWhile Rune.isNameChar)).advance =
          x.cursor (d.skipWhile Rune.isNameChar).advance :=
      hstop.advance_cursor (Continuation.open_of_is hch)
    rw [names?]
    simp only [h.class_cursor Rune.isNameChar rfl, h.run_cursor Rune.isNameChar rfl,
      hstop.is_cursor ']' rfl, hstop.is_cursor ',' rfl, h.upTo_cursor hstop]
    split
    · rfl
    · split
      · rename_i hclose
        rw [hmark hclose]
      · split
        · rename_i hcomma
          rw [hmark hcomma]
          split
          · rename_i hmore
            rw [hmore]
            rfl
          · rename_i hmore
            rw [hmore]
            rfl
        · rfl
  have hnext (d : Cursor) (h : x.Sees d) : x.Sees (d.skipWhile Rune.isNameChar).advance :=
    (h.run _).next
  fun_induction names? d with
  | case1 d hnone =>
    rw [hunfold d h, if_pos hnone]
    rfl
  | case2 d stop =>
    rename_i hsome hclose
    rw [hunfold d h, if_neg hsome, if_pos hclose]
    rfl
  | case3 d stop =>
    rename_i hsome hclose hmark names behind hmore ih
    rw [hunfold d h, if_neg hsome, if_neg hclose, if_pos hmark, ih (hnext d h), hmore]
    rfl
  | case4 d stop =>
    rename_i hsome hclose hmark hmore ih
    rw [hunfold d h, if_neg hsome, if_neg hclose, if_pos hmark, ih (hnext d h), hmore]
    rfl
  | case5 d stop =>
    rename_i hsome hclose hmark
    rw [hunfold d h, if_neg hsome, if_neg hclose, if_neg hmark]
    rfl

/-- A list in brackets in the text is the one in the source. -/
theorem bracketed?_continued (h : x.Sees d) :
    bracketed? (x.cursor d) = (bracketed? d).map fun list => (list.1, x.cursor list.2) := by
  unfold bracketed?
  rw [h.is_cursor '[' rfl]
  split
  · rename_i hopen
    rw [h.advance_cursor (Continuation.open_of_is hopen)]
    exact names?_continued h.next
  · rfl

/-- A feature comment in the text is the one in the source. -/
theorem gated_continued {mark : Cursor} (h : x.Sees d) (hmark : x.Sees mark)
    (hadmits : x.Admits (gated s d mark)) :
    gated s (x.cursor d) (x.cursor mark) = x.outcome (gated s d mark) := by
  unfold gated at hadmits ⊢
  rw [bracketed?_continued hmark]
  rcases hlist : bracketed? mark with _ | ⟨names, behind⟩
  · rfl
  · simp only [hlist, Option.map_some] at hadmits ⊢
    split
    · rfl
    · rename_i hunknown
      rw [if_neg hunknown] at hadmits
      exact block_continued s h (hmark.reaches (bracketed?_sound hlist).1) hadmits

/-- A comment for the optimizer in the text is the one in the source. -/
theorem hint_continued {inside : Cursor} (h : x.Sees d) (hinside : x.Sees inside)
    (hadmits : x.Admits (hint s d inside)) :
    hint s (x.cursor d) (x.cursor inside) = x.outcome (hint s d inside) := by
  unfold hint at hadmits ⊢
  split
  · rename_i hhonoured
    rw [if_pos hhonoured] at hadmits
    rcases hc : closing? inside with _ | stop
    · rw [hc] at hadmits
      have hnone : x.tail = [] := hadmits.resolve_right fun hkind => hkind rfl
      rw [closing?_continued hinside (.inl hnone), hc]
      exact unclosed_continued s h hinside hnone
    · rw [closing?_continued hinside (.inr (by rw [hc]; exact Option.some_ne_none stop)), hc]
      simp only [Option.map_some]
      rw [h.upTo_cursor (hinside.reaches (closing?_sound hc).1)]
      rfl
  · rename_i hignored
    rw [if_neg hignored] at hadmits
    exact block_continued _ h hinside hadmits

/-- What starts with a slash in the text is what starts there in the source. -/
theorem slash_continued (h : x.Sees d) (ho : x.Open d) (hadmits : x.Admits (slash s d)) :
    slash s (x.cursor d) = x.outcome (slash s d) := by
  unfold slash at hadmits ⊢
  simp only [h.advance_cursor ho, h.next.is_cursor '*' rfl] at hadmits ⊢
  split
  · rw [h.whole_cursor h.next]
    rfl
  · rename_i hstar
    rw [if_neg hstar] at hadmits
    have hinside : x.Sees d.advance.advance := h.next.next
    have hstar' : d.advance.rune.is '*' = true := by simpa using hstar
    -- The rune behind the letter is looked at only behind the letter.
    have hfeature : (d.advance.advance.rune.is 'T' &&
        (x.cursor d.advance.advance).advance.rune.is '!') =
        (d.advance.advance.rune.is 'T' && d.advance.advance.advance.rune.is '!') := by
      rcases hletter : d.advance.advance.rune.is 'T' with _ | _
      · rfl
      · rw [hinside.advance_cursor (Continuation.open_of_is hletter),
          hinside.next.is_cursor '!' rfl]
    simp only [h.next.advance_cursor (Continuation.open_of_is hstar'), hinside.is_cursor '!' rfl,
      hinside.is_cursor 'T' rfl, hinside.is_cursor '+' rfl, hfeature]
    split
    · rename_i hbang
      rw [hinside.advance_cursor (Continuation.open_of_is hbang),
        Lexeme.version_continued hinside.next]
      rfl
    · rename_i hbang
      rw [if_neg hbang] at hadmits
      split
      · rename_i hgated
        rw [if_pos hgated] at hadmits
        rw [Bool.and_eq_true] at hgated
        rw [hinside.advance_cursor (Continuation.open_of_is hgated.1),
          hinside.next.advance_cursor (Continuation.open_of_is hgated.2)]
        exact gated_continued s h hinside.next.next hadmits
      · rename_i hgated
        rw [if_neg hgated] at hadmits
        split
        · rename_i hplus
          rw [if_pos hplus] at hadmits
          exact hint_continued s h hinside hadmits
        · rename_i hplus
          rw [if_neg hplus] at hadmits
          exact block_continued s h hinside hadmits

/-- What starts with a star in the text is what starts there in the source. -/
theorem star_continued (h : x.Sees d) (ho : x.Open d) :
    star s (x.cursor d) = x.outcome (star s d) := by
  unfold star
  simp only [h.advance_cursor ho, h.next.is_cursor '/' rfl]
  split
  · rename_i hclose
    rw [Bool.and_eq_true] at hclose
    rw [h.next.advance_cursor (Continuation.open_of_is hclose.2)]
    rfl
  · rw [h.whole_cursor h.next]
    rfl

/-- A comment ends in the source before a line break that is ahead. -/
theorem atEnd_lineEnd {c : Cursor} (h : 0x0A ∈ c.ahead) : (lineEnd c).atEnd = false := by
  rw [Bool.eq_false_iff]
  intro hend
  have hreach : c.Reaches (lineEnd c) := (Cursor.Reaches.refl c).skipWhile _
  rw [hreach.ahead_eq, Cursor.atEnd_iff_ahead.mp hend, List.append_nil] at h
  exact Cursor.not_mem_upTo_skipWhile '\n' (by decide) c h

/-- A comment behind a sharp sign in the text is the one in the source, if its line ends. -/
theorem sharp_continued (h : x.Sees d) (ho : x.Open d) (hsharp : d.ahead.head? = some 0x23)
    (hline : x.tail = [] ∨ ¬d.OpensLine) : sharp s (x.cursor d) = x.outcome (sharp s d) := by
  have hopen : x.Open (lineEnd d.advance) := by
    refine hline.imp_right fun hnot => atEnd_lineEnd ?_
    have hbreak : 0x0A ∈ d.ahead := by
      by_contra hnone
      exact hnot ⟨hnone, .inl hsharp⟩
    rw [(Cursor.upTo_advance_of_head? (by decide) hsharp).2] at hbreak
    exact (List.mem_cons.mp hbreak).resolve_left (by decide)
  unfold sharp lineEnd
  rw [h.advance_cursor ho, h.next.skipWhile_cursor hopen]
  rfl

/-- Two dashes with a blank or the end behind them open a comment, which is left open if no line
break follows. -/
theorem mem_of_not_opensLine (hdash : d.ahead.head? = some 0x2D)
    (hsecond : d.advance.rune.is '-' = true)
    (hblank : d.advance.advance.atEnd = true ∨ d.advance.advance.rune.isSpace = true)
    (hline : ¬d.OpensLine) : 0x0A ∈ d.advance.advance.ahead := by
  have hone := (Cursor.upTo_advance_of_head? (by decide) hdash).2
  have htwo := (Cursor.upTo_advance_of_is (by decide) hsecond).2
  have hahead : d.ahead = 0x2D :: 0x2D :: d.advance.advance.ahead := by
    rw [hone, htwo]
    rfl
  by_contra hnone
  refine hline ⟨?_, .inr ⟨⟨d.advance.advance.ahead, ?_⟩, fun b hb => ?_⟩⟩
  · rw [hahead, List.mem_cons, List.mem_cons, not_or, not_or]
    exact ⟨by decide, by decide, hnone⟩
  · rw [hahead]
    rfl
  · rw [hahead] at hb
    change b ∈ d.advance.advance.ahead.head? at hb
    rcases hblank with hend | hspace
    · rw [Cursor.atEnd_iff_ahead.mp hend] at hb
      cases hb
    · obtain ⟨b', hb', hin⟩ := (Cursor.rune_iff_head? Rune.isAscii_isSpace).mp hspace
      rw [hb', Option.mem_some_iff] at hb
      rwa [← hb]

/-- What starts with a dash in the text is what starts there in the source, if the line of a comment
ends. -/
theorem dash_continued (h : x.Sees d) (ho : x.Open d) (hdash : d.ahead.head? = some 0x2D)
    (hline : x.tail = [] ∨ ¬d.OpensLine) : dash s (x.cursor d) = x.outcome (dash s d) := by
  have hthird : x.Sees d.advance.advance := h.next.next
  have hlexeme (kind : TokenKind) {stop : Cursor} (hstop : x.Sees stop) :
      Outcome.ofLexeme (x.cursor d) s (.whole kind (x.cursor d) (x.cursor stop)) =
        x.outcome (.ofLexeme d s (.whole kind d stop)) := by
    rw [h.whole_cursor hstop]
    rfl
  unfold dash
  simp only [h.advance_cursor ho, h.next.is_cursor '-' rfl, h.next.is_cursor '>' rfl]
  rcases hsecond : d.advance.rune.is '-' with _ | _
  · rcases harrow : d.advance.rune.is '>' with _ | _
    · simp only [Bool.false_and, Bool.false_eq_true, if_false]
      exact hlexeme _ h.next
    · simp only [Bool.false_and, Bool.true_and, Bool.false_eq_true, if_false, if_true,
        h.next.advance_cursor (Continuation.open_of_is harrow), hthird.is_cursor '>' rfl]
      split
      · rename_i hlast
        rw [hthird.advance_cursor (Continuation.open_of_is hlast)]
        exact hlexeme _ hthird.next
      · exact hlexeme _ hthird
  · have harrow : d.advance.rune.is '>' = false :=
      Rune.is_eq_false (p := fun r => r.is '-') hsecond _ (by decide)
    -- Two dashes at the end of the text would leave a comment open.
    have hopen : x.Open d.advance.advance := by
      refine hline.imp_right fun hnot => ?_
      rw [Bool.eq_false_iff]
      intro hend
      have hbreak := mem_of_not_opensLine hdash hsecond (.inl hend) hnot
      rw [Cursor.atEnd_iff_ahead.mp hend] at hbreak
      exact List.not_mem_nil hbreak
    simp only [harrow, Bool.false_and, Bool.true_and, Bool.false_eq_true, if_false,
      h.next.advance_cursor (Continuation.open_of_is hsecond), hthird.rune_cursor hopen,
      hthird.atEnd_cursor hopen]
    split
    · rename_i hblank
      rw [Bool.or_eq_true] at hblank
      have hend : x.Open (lineEnd d.advance.advance) :=
        hline.imp_right fun hnot => atEnd_lineEnd (mem_of_not_opensLine hdash hsecond hblank hnot)
      rw [lineEnd, hthird.skipWhile_cursor hend]
      rfl
    · exact hlexeme _ h.next

end Comment

/-- What the form of a starter makes of a place in the text is what it makes of the place in the
source. -/
theorem Starter.outcome_continued {starter : Starter} {b : UInt8} (config : Config)
    (h : x.Sees d) (hb : d.ahead.head? = some b) (hopens : ofByte? b = some starter)
    (hadmits : x.Admits (starter.outcome config s d)) (hline : x.tail = [] ∨ ¬d.OpensLine) :
    starter.outcome config s (x.cursor d) = x.outcome (starter.outcome config s d) := by
  have hmark := (opens_of_ofByte? hopens).2.2
  have ho : x.Open d := by
    right
    rw [Bool.eq_false_iff]
    intro hend
    rw [Cursor.atEnd_iff_ahead.mp hend] at hb
    cases hb
  have hlexeme {l l' : Lexeme} (heq : l = x.lexeme l') :
      Outcome.ofLexeme (x.cursor d) s l = x.outcome (.ofLexeme d s l') := by
    rw [heq]
    rfl
  rcases starter
  case slash => exact Comment.slash_continued s h ho hadmits
  case star => exact Comment.star_continued s h ho
  case sharp => exact Comment.sharp_continued s h ho (by rw [hb, ← hmark]; rfl) hline
  case dash => exact Comment.dash_continued s h ho (by rw [hb, ← hmark]; rfl) hline
  case «at» => exact hlexeme (Lexeme.anyVariable_continued h ho _ hadmits)
  case dot => exact hlexeme (Lexeme.dot_continued h ho s.afterNameDot)
  case number => exact hlexeme (Lexeme.number_continued h ho s.afterNameDot)
  case string =>
    have hrune : d.rune.isQuote = true := by
      obtain ⟨h0, hlt, -⟩ := opens_of_ofByte? hopens
      rw [Cursor.rune_of_head? h0 hlt hb]
      exact (opens_class b).1.mp hopens
    obtain ⟨ch, hch, hne⟩ := Lexeme.exists_is_of_isQuote hrune
    exact hlexeme (Lexeme.quoted_continued h _ _ _ hch hne hadmits)
  case quotedIdentifier =>
    have hrune : d.rune.is '\x60' = true := by
      rw [Cursor.rune_is_iff (by decide), hb, ← hmark]
      rfl
    exact hlexeme (Lexeme.quoted_continued h _ _ _ hrune (by decide) hadmits)
  case hexMark => exact hlexeme (Lexeme.quotedDigits_continued h ho _ _ (by decide))
  case bitMark => exact hlexeme (Lexeme.quotedDigits_continued h ho _ _ (by decide))
  case nationalMark => exact hlexeme (Lexeme.national_continued h ho)
  case identifier => exact hlexeme (Lexeme.word_continued h ho)

/-! ## Operators -/

namespace Trie

variable {α : Type}

/-- Whether no text of a trie has a byte. -/
def avoids (b : UInt8) : Trie α → Bool
  | empty => true
  | node byte _ below beside => byte != b && below.avoids b && beside.avoids b

/-- A byte that a trie avoids does not lead on. -/
theorem child?_of_avoids {b : UInt8} {t : Trie α} (h : t.avoids b = true) : t.child? b = none := by
  induction t with
  | empty => rfl
  | node byte value below beside _ ih =>
    simp only [avoids, Bool.and_eq_true, bne_iff_ne] at h
    rw [child?, if_neg (Ne.symm h.1.1)]
    exact ih h.2

/-- What lies below a byte avoids what the trie avoids. -/
theorem avoids_of_child? {b c : UInt8} {t below : Trie α} {value : Option α}
    (h : t.avoids b = true) (hchild : t.child? c = some (value, below)) :
    below.avoids b = true := by
  induction t with
  | empty => cases hchild
  | node byte value' below' beside _ ih =>
    simp only [avoids, Bool.and_eq_true] at h
    rw [child?] at hchild
    split at hchild
    · cases hchild
      exact h.1.2
    · exact ih h.2 hchild

end Trie

namespace Table

/-- No operator of the standard vocabulary has a blank. -/
theorem standard_avoids : standard.forms.avoids 0x20 = true := by
  decide +kernel

/-- The bytes lead on in a trie in the text as they do in the source. -/
theorem follow?_continued {forms : Trie Form} (h : x.Sees d) (hforms : forms.avoids 0x20 = true) :
    follow? forms (x.cursor d) = follow? forms d := by
  refine h.class_cursor (fun r => r.ascii?.bind forms.child?) ?_
  have hblank : (Rune.ofChar ' ').ascii? = some 0x20 := by decide
  have heof : Rune.eof.ascii? = none := by decide
  simp only [hblank, heof, Option.bind_some, Option.bind_none, Trie.child?_of_avoids hforms]

/-- An operator in the text is read on as in the source. -/
theorem descend_continued (value : Option Form) (below : Trie Form) (h : x.Sees d)
    (hforms : below.avoids 0x20 = true) :
    descend value below (x.cursor d) =
      ((descend value below d).1, x.cursor (descend value below d).2) := by
  fun_induction descend value below d with
  | case1 value below d hfollow =>
    exact descend_of_none ((follow?_continued h hforms).trans hfollow)
  | case2 value below d value' below' hfollow ih =>
    have ho : x.Open d := .inr (atEnd_eq_false_of_follow? hfollow)
    obtain ⟨b, -, hchild⟩ := Option.bind_eq_some_iff.mp hfollow
    rw [descend_of_some ((follow?_continued h hforms).trans hfollow), h.advance_cursor ho]
    exact ih h.next (Trie.avoids_of_child? hforms hchild)

/-- What starts at a place in the text is what starts there in the source. -/
theorem walk_continued (h : x.Sees d) :
    standard.walk (x.cursor d) = ((standard.walk d).1, x.cursor (standard.walk d).2) := by
  unfold walk
  rw [follow?_continued h standard_avoids]
  rcases hfollow : follow? standard.forms d with _ | ⟨value, below⟩
  · rfl
  · have ho : x.Open d := .inr (atEnd_eq_false_of_follow? hfollow)
    obtain ⟨b, -, hchild⟩ := Option.bind_eq_some_iff.mp hfollow
    have hbelow := descend_continued value below h.next
      (Trie.avoids_of_child? standard_avoids hchild)
    rcases value with _ | ⟨starter | kind⟩
    · simp only [h.advance_cursor ho, hbelow]
    · rfl
    · simp only [h.advance_cursor ho, hbelow]

end Table

/-! ## Steps -/

variable (config : Config)

/-- An operator in the text is the one in the source. -/
theorem Lexeme.operator_continued {stop : Cursor} (h : x.Sees d) (ho : x.Open d)
    (hstop : x.Sees stop) (kind : TokenKind) :
    operator kind (x.cursor d) (x.cursor stop) = x.lexeme (operator kind d stop) := by
  unfold operator
  rw [h.headD_cursor ho]
  split
  · exact h.broken_cursor hstop _
  · exact h.whole_cursor hstop kind

/-- What a step from behind blanks finds in the text is what it finds in the source, if that is no
malformed token and leaves no comment open. -/
theorem stepAt_continued (h : x.Sees d) (ho : x.Open d)
    (hadmits : x.Admits (stepAt .standard config s d)) (hline : x.tail = [] ∨ ¬d.OpensLine) :
    stepAt .standard config s (x.cursor d) = x.outcome (stepAt .standard config s d) := by
  have hlexeme {l l' : Lexeme} (heq : l = x.lexeme l') :
      Outcome.ofLexeme (x.cursor d) s l = x.outcome (.ofLexeme d s l') := by
    rw [heq]
    rfl
  unfold stepAt at hadmits ⊢
  simp only [h.rune_cursor ho, h.advance_cursor ho, h.headD_cursor ho] at hadmits ⊢
  split
  · rfl
  · rename_i hbom
    rw [if_neg hbom] at hadmits
    split
    · exact hlexeme (Lexeme.word_continued h ho)
    · rename_i hextended
      rw [if_neg hextended] at hadmits
      split
      · exact hlexeme (h.broken_cursor h.next _)
      · rename_i hinvalid
        rw [if_neg hinvalid] at hadmits
        rw [Table.walk_continued h]
        rcases hwalk : Table.standard.walk d with ⟨starter | kind | _, stop⟩
        · obtain ⟨b, hb, hopens⟩ := Table.opens_of_walk hwalk
          rw [hwalk] at hadmits
          exact Starter.outcome_continued s config h hb hopens hadmits hline
        · exact hlexeme (Lexeme.operator_continued h ho
            (h.next.reaches (Table.walk_reaches hwalk)) kind)
        · exact hlexeme (h.broken_cursor h.next _)

/-- A step in the source goes on where the blanks of the text end. -/
theorem step_skip (h : x.Sees d) : step .standard config s (x.cursor d) =
    step .standard config s (x.cursor (d.skipWhile Rune.isSpace)) := by
  unfold step
  rw [h.skipWhile_skipWhile]

/-- What a step finds in the text before its end is what it finds in the source. -/
theorem step_continued (h : x.Sees d) (ho : x.Open (d.skipWhile Rune.isSpace))
    (hadmits : x.Admits (step .standard config s d))
    (hline : x.tail = [] ∨ ¬(d.skipWhile Rune.isSpace).OpensLine) :
    step .standard config s (x.cursor d) = x.outcome (step .standard config s d) := by
  have hfirst : x.Sees (d.skipWhile Rune.isSpace) := h.run _
  unfold step at hadmits ⊢
  simp only [h.skipWhile_cursor ho, hfirst.atEnd_cursor ho] at hadmits ⊢
  split
  · rfl
  · rename_i hend
    rw [if_neg hend] at hadmits
    exact stepAt_continued s config hfirst ho hadmits hline

/-! ## Searches -/

/-- A search finds what the one from another place finds, if its first step does. -/
theorem nextToken_congr {table : Table} {config : Config} {s : State} {c c' : Cursor}
    (h : step table config s c = step table config s c') :
    nextToken table config s c = nextToken table config s c' := by
  rcases hstep : step table config s c' with ⟨t, next, s'⟩ | ⟨next, s'⟩
  · rw [nextToken_of_token (h.trans hstep), nextToken_of_token hstep]
  · rw [nextToken_of_trivia (h.trans hstep), nextToken_of_trivia hstep]

/-- What a search for a token in the text comes to, as a search in the source. -/
inductive Continuation.Finds (x : Continuation) (config : Config) (s : State) (d : Cursor)
    (t : Token) (next : Cursor) (s' : State) : Prop where
  /-- The same token is found in the source. -/
  | token : t.isEnd = false →
      nextToken .standard config s (x.cursor d) = (t, x.cursor next, s') →
      Finds x config s d t next s'
  /-- The text ends, and the source is searched on from there. -/
  | theEnd : t = .endAt next.pos → next.atEnd = true →
      nextToken .standard config s (x.cursor d) = nextToken .standard config s' (x.cursor next) →
      Finds x config s d t next s'

/-- A search for a token in the text finds the token in the source too, if the token is well formed
and no comment is left open before it; a search that comes to the end of the text goes on there. -/
theorem nextToken_continued (h : x.Sees d)
    (hsound : x.tail = [] ∨ (nextToken .standard config s d).1.kind ≠ .invalid)
    (hlines : x.tail = [] ∨ ∀ c ∈ places .standard config s d, ¬c.OpensLine) :
    x.Finds config s d (nextToken .standard config s d).1 (nextToken .standard config s d).2.1
      (nextToken .standard config s d).2.2 := by
  fun_induction nextToken .standard config s d with
  | case1 s d t next s' hstep =>
    have hlines' : x.tail = [] ∨ ¬(d.skipWhile Rune.isSpace).OpensLine := by
      refine hlines.imp_right fun hall => hall _ ?_
      rw [places_of_token hstep]
      exact List.mem_singleton_self _
    rcases hend : (d.skipWhile Rune.isSpace).atEnd with _ | _
    · -- A token lies ahead in the text.
      have hcontinued := step_continued s config h (.inr hend) (by rwa [hstep]) hlines'
      rw [hstep] at hcontinued
      refine .token ?_ (nextToken_of_token hcontinued)
      rw [step, hend] at hstep
      simp only [Bool.false_eq_true, if_false] at hstep
      rw [Token.isEnd, beq_eq_false_iff_ne]
      exact ne_eof_of_stepAt _ _ hstep
    · rw [step, hend] at hstep
      simp only [if_true, Outcome.token.injEq] at hstep
      obtain ⟨rfl, rfl, rfl⟩ := hstep
      exact .theEnd rfl hend (nextToken_congr (step_skip s config h))
  | case2 s d next s' hstep ih =>
    rw [places_of_trivia hstep] at hlines
    have hend : (d.skipWhile Rune.isSpace).atEnd = false := by
      rw [Bool.eq_false_iff]
      intro hend
      rw [step, hend] at hstep
      simp at hstep
    have hcontinued := step_continued s config h (.inr hend) (.inr (by rw [hstep]; trivial))
      (hlines.imp_right fun hall => hall _ (List.mem_cons_self ..))
    rw [hstep] at hcontinued
    have hreach : d.Reaches (step .standard config s d).next := by
      refine step_reaches Vocabulary.standard config s ?_
      rw [h.source_eq]
      exact h.le_length
    rw [hstep] at hreach
    -- The search goes on behind the comment, in both.
    have hsame := nextToken_of_trivia hcontinued
    rcases ih (h.reaches hreach) hsound
      (hlines.imp_right fun hall c hc => hall c (List.mem_cons_of_mem _ hc)) with
      ⟨ht, hfound⟩ | ⟨ht, hlast, hfound⟩
    · exact .token ht (hsame.trans hfound)
    · exact .theEnd ht hlast (hsame.trans hfound)

end SqlTokens
