import Mathlib.Data.List.TakeWhile
import SqlTokens.Proofs.Spans
import SqlTokens.Proofs.Trivia

/-!
# What an outcome yields

`Outcome.Yields` is what every step of the scanner promises: a token is that of a lexeme which spans
what has been read, whose error alone is added to the errors so far; and what is skipped is crossed.
Neither touches anything else that the proofs about the scanner follow, the flag of the vendor
comment excepted, which only a crossing changes. The forms that start with a slash, a star, a sharp
sign or a dash keep the promise (`slash_yields`, `star_yields`, `sharp_yields`, `dash_yields`), each
behind the byte that opens it.
-/

namespace SqlTokens

/-- What an outcome at a cursor yields: a token is that of a lexeme that spans what is read and
reports as the given rule says, and what is skipped stands between tokens. -/
def Outcome.Yields (o : Outcome) (s : State) (c : Cursor) (rule : Lexeme → Cursor → Prop) :
    Prop :=
  match o with
  | .token t next s' => ∃ l : Lexeme, l.Spans c ∧ rule l c ∧ t = l.token c ∧ next = l.stop ∧
      s'.inVendorBlock = s.inVendorBlock ∧ s'.errors = s.errors ++ l.fault.toList
  | .trivia next s' => c.Crosses s.inVendorBlock next s'.inVendorBlock ∧ s'.errors = s.errors

/-- The outcome of a lexeme yields it, whatever else has changed in the state. -/
theorem Outcome.ofLexeme_yields {s s' : State} {c : Cursor} {l : Lexeme}
    {rule : Lexeme → Cursor → Prop} (hvendor : s'.inVendorBlock = s.inVendorBlock)
    (herrors : s'.errors = s.errors) (hspans : l.Spans c) (hrule : rule l c) :
    (ofLexeme c s' l).Yields s c rule :=
  ⟨l, hspans, hrule, rfl, rfl, hvendor, by rw [State.report, herrors]⟩

/-- An outcome that follows one rule follows every weaker one. -/
theorem Outcome.Yields.mono {o : Outcome} {s : State} {c : Cursor}
    {rule rule' : Lexeme → Cursor → Prop} (h : o.Yields s c rule)
    (hrule : ∀ l, rule l c → rule' l c) : o.Yields s c rule' := by
  rcases o with ⟨t, next, s'⟩ | ⟨next, s'⟩
  · obtain ⟨l, hspans, hl, hrest⟩ := h
    exact ⟨l, hspans, hrule l hl, hrest⟩
  · exact h

/-- An outcome that keeps the promise moves on. -/
theorem Outcome.Yields.reaches {o : Outcome} {s : State} {c : Cursor}
    {rule : Lexeme → Cursor → Prop} (h : o.Yields s c rule) : c.Reaches o.next := by
  rcases o with ⟨t, next, s'⟩ | ⟨next, s'⟩
  · obtain ⟨l, hspans, -, -, rfl, -⟩ := h
    exact (Cursor.Reaches.next c).trans hspans.reaches
  · exact h.1.reaches

/-- A single item is crossed. -/
theorem Cursor.crosses_item {c d : Cursor} {vendor vendor' : Bool} {text : Bytes}
    (hreach : c.Reaches d) (hup : c.upTo d = text)
    (hitem : Trivia.Item c.offset vendor text d.ahead vendor') : c.Crosses vendor d vendor' :=
  ⟨hreach, .single (by rwa [hup])⟩

/-- A version number is there and is read, or none is there and none is read. -/
theorem Lexeme.version_spec {c : Cursor} (hc : c.offset ≤ c.source.length) :
    Trivia.IsVersion (c.upTo (version 5 5 c)) ∨
      (version 5 5 c = c ∧ ∀ digits, Trivia.IsVersion digits → ¬digits <+: c.ahead) := by
  have hreach := skipDigits_reaches c 5
  have hlen := hreach.length_upTo (hreach.le_length hc)
  rw [upTo_skipDigits] at hlen
  unfold version
  simp only [and_self]
  rw [← hlen]
  split
  · rename_i hshort
    right
    refine ⟨rfl, fun digits hdigits hprefix => ?_⟩
    -- The first five bytes would be the digits, and the run of digits would be all of them.
    have htake : c.ahead.take 5 = digits := by
      rw [← hdigits.1]
      exact (List.prefix_iff_eq_take.mp hprefix).symm
    have hrun : digits.takeWhile (Rune.onByte Rune.isDigit) = digits :=
      List.takeWhile_eq_self_iff.mpr hdigits.2
    rw [htake, hrun, hdigits.1] at hshort
    exact absurd hshort (by decide)
  · -- The run has five digits, and it cannot have more.
    rename_i hlong
    left
    rw [upTo_skipDigits]
    have hle := (List.takeWhile_prefix (Rune.onByte Rune.isDigit) (l := c.ahead.take 5)).length_le
    have htake := List.length_take_le 5 c.ahead
    exact ⟨by omega, List.all_eq_true.mp List.all_takeWhile⟩

namespace Comment

variable {s : State} {c : Cursor}

/-! ## Block comments -/

/-- A comment is crossed if it is closed and is no vendor comment, and it is malformed if it is not
closed. What has been read behind its opening has no star in it. -/
theorem block_yields {s' : State} {inside : Cursor} {front : Bytes}
    (hvendor : s'.inVendorBlock = s.inVendorBlock) (herrors : s'.errors = s.errors)
    (hreach : c.advance.Reaches inside) (hup : c.upTo inside = 0x2F :: 0x2A :: front)
    (hstar : 0x2A ∉ front)
    (hplain : ∀ body rest, inside.ahead = body ++ rest → Trivia.IsPlain (front ++ body)) :
    (block s' c inside).Yields s c Lexeme.Diagnosed := by
  unfold block
  split
  · rename_i stop hclosing
    obtain ⟨hstop, body, hbody, hinside⟩ := closing?_sound hclosing
    have hall := (Cursor.Reaches.next c).trans hreach
    -- What has been read already and what the search has found make up one comment.
    have htext : c.upTo stop = 0x2F :: 0x2A :: (front ++ body) ++ [0x2A, 0x2F] := by
      rw [hall.upTo_trans hstop, hup, hinside]
      simp only [List.cons_append, List.append_assoc]
    have hahead : inside.ahead = body ++ 0x2A :: 0x2F :: stop.ahead := by
      rw [hstop.ahead_eq, hinside, List.append_assoc]
      rfl
    refine ⟨?_, herrors⟩
    rw [hvendor]
    exact Cursor.crosses_item (hall.trans hstop) htext
      (.comment (hbody.append hstar) (hplain body _ hahead))
  · exact Outcome.ofLexeme_yields hvendor herrors (Lexeme.broken_spans _ (hreach.skipWhile _))
      (Lexeme.broken_diagnosed _ _ _)

/-- The opening of a feature comment is crossed, with its list if there is one and all its features
are known; else the whole comment is. -/
theorem gated_yields {mark : Cursor} (hreach : c.advance.Reaches mark)
    (hup : c.upTo mark = [0x2F, 0x2A, 0x54, 0x21]) :
    (gated s c mark).Yields s c Lexeme.Diagnosed := by
  have hall := (Cursor.Reaches.next c).trans hreach
  unfold gated
  split
  · rename_i names behind hlist
    obtain ⟨hbehind, list, hnames, htext⟩ := bracketed?_sound hlist
    have hfront : c.upTo behind = 0x2F :: 0x2A :: 0x54 :: 0x21 :: 0x5B :: list := by
      rw [hall.upTo_trans hbehind, hup, htext]
      rfl
    split
    · rename_i hknown
      exact ⟨Cursor.crosses_item (hall.trans hbehind) hfront (.features hnames hknown), rfl⟩
    · -- With a feature that is not known, the comment is skipped as a whole.
      rename_i hunknown
      refine block_yields rfl rfl (hreach.trans hbehind) hfront ?_ fun body rest _ => ?_
      · simp only [List.mem_cons, not_or]
        exact ⟨by decide, by decide, by decide, hnames.star_not_mem⟩
      · refine ⟨by simp, fun inside hinside => ⟨names, list, body, hnames, ?_, ?_⟩⟩
        · exact Bool.eq_false_iff.mpr hunknown
        · simp only [List.cons_append, List.cons.injEq, true_and] at hinside
          exact hinside.symm
  · rename_i hnone
    exact ⟨Cursor.crosses_item hall hup (.unlisted fun _ _ => bracketed?_complete hnone), rfl⟩

/-- A comment for the optimizer is a token or is crossed. -/
theorem hint_yields {inside : Cursor} (hreach : c.advance.Reaches inside)
    (hup : c.upTo inside = [0x2F, 0x2A]) (hplus : inside.ahead.head? = some 0x2B) :
    (hint s c inside).Yields s c Lexeme.Diagnosed := by
  unfold hint
  split
  · split
    · rename_i stop hclosing
      exact ⟨.whole .optimizerHint c stop,
        Lexeme.whole_spans _ (hreach.trans (closing?_sound hclosing).1),
        Lexeme.whole_diagnosed (by decide) _ _, rfl, rfl, rfl, (List.append_nil _).symm⟩
    · exact Outcome.ofLexeme_yields rfl rfl (Lexeme.broken_spans _ (hreach.skipWhile _))
        (Lexeme.broken_diagnosed _ _ _)
  · -- Out of place it is a comment, and the plus sign is neither of the marks.
    refine block_yields rfl rfl hreach hup List.not_mem_nil fun body rest hahead => ?_
    rw [hahead] at hplus
    rcases body with _ | ⟨b, body⟩
    · exact ⟨by simp, by simp⟩
    · obtain rfl : b = 0x2B := by simpa using hplus
      exact ⟨by simp, by simp⟩

/-- The opening of a vendor comment is crossed, with its version number if it has one. -/
theorem vendor_crosses {mark : Cursor} (hc : c.offset ≤ c.source.length) (hreach : c.Reaches mark)
    (hup : c.upTo mark = [0x2F, 0x2A, 0x21]) (vendor : Bool) :
    c.Crosses vendor (Lexeme.version 5 5 mark) true := by
  have hversion : mark.Reaches (Lexeme.version 5 5 mark) := Lexeme.version_reaches 5 5 mark
  rcases Lexeme.version_spec (hreach.le_length hc) with hdigits | ⟨hnone, hdigits⟩
  · refine Cursor.crosses_item (hreach.trans hversion) ?_ (.version hdigits)
    rw [hreach.upTo_trans hversion, hup]
    rfl
  · rw [hnone]
    exact Cursor.crosses_item hreach hup (.opening hdigits)

/-- A comment that starts with neither of the two marks is no vendor comment. -/
theorem isPlain_of_unmarked {inside : Cursor} (hbang : ¬inside.rune.is '!' = true)
    (hfeature : ¬(inside.rune.is 'T' && inside.advance.rune.is '!') = true) {body rest : Bytes}
    (hahead : inside.ahead = body ++ rest) : Trivia.IsPlain body := by
  constructor
  · -- The bang alone would be the first mark.
    intro hhead
    refine hbang ((Cursor.rune_is_iff (by decide)).mpr ?_)
    rw [hahead, List.head?_append, hhead]
    rfl
  · -- The letter and the bang would be the second.
    rintro inner rfl
    have hletter : inside.ahead.head? = some 0x54 := by
      rw [hahead]
      rfl
    have hsecond : inside.advance.ahead.head? = some 0x21 := by
      rw [(Cursor.advance_of_ahead (by decide) hahead).2]
      rfl
    refine absurd ?_ hfeature
    rw [Bool.and_eq_true]
    constructor
    · exact (Cursor.rune_is_iff (by decide)).mpr hletter
    · exact (Cursor.rune_is_iff (by decide)).mpr hsecond

/-- What starts with a slash keeps the promise. -/
theorem slash_yields (hc : c.offset ≤ c.source.length) (hslash : c.ahead.head? = some 0x2F) :
    (slash s c).Yields s c Lexeme.Diagnosed := by
  have hone := (Cursor.upTo_advance_of_head? (by decide) hslash).1
  have hnext := Cursor.Reaches.next c
  unfold slash
  simp only
  split
  · exact Outcome.ofLexeme_yields rfl rfl (Lexeme.whole_spans _ (.refl _))
      (Lexeme.whole_diagnosed (by decide) _ _)
  · rename_i hstar
    have htwo : c.upTo c.advance.advance = [0x2F, 0x2A] := by
      rw [hnext.upTo_trans (.next _), hone,
        (Cursor.upTo_advance_of_is (by decide : Rune.IsByte '*') (by simpa using hstar)).1]
      rfl
    have hinside : c.advance.Reaches c.advance.advance := .next _
    split
    · -- The opening of a vendor comment.
      rename_i hbang
      have hthree : c.upTo c.advance.advance.advance = [0x2F, 0x2A, 0x21] := by
        rw [hnext.advance.upTo_trans (.next _), htwo,
          (Cursor.upTo_advance_of_is (by decide) hbang).1]
        rfl
      exact ⟨vendor_crosses hc hnext.advance.advance hthree _, rfl⟩
    · rename_i hbang
      split
      · -- The opening of a feature comment.
        rename_i hfeature
        rw [Bool.and_eq_true] at hfeature
        refine gated_yields hinside.advance.advance ?_
        rw [hnext.advance.advance.upTo_trans (.next _), hnext.advance.upTo_trans (.next _), htwo,
          (Cursor.upTo_advance_of_is (by decide) hfeature.1).1,
          (Cursor.upTo_advance_of_is (by decide) hfeature.2).1]
        rfl
      · rename_i hfeature
        split
        · -- A hint, wherever the state admits one.
          rename_i hplus
          rw [Bool.and_eq_true] at hplus
          exact hint_yields hinside htwo ((Cursor.rune_is_iff (by decide)).mp hplus.1)
        · refine block_yields rfl rfl hinside htwo List.not_mem_nil fun body rest hahead => ?_
          exact isPlain_of_unmarked hbang hfeature hahead

/-! ## Line comments and the end of a vendor comment -/

/-- What starts with a star keeps the promise. -/
theorem star_yields (hstar : c.ahead.head? = some 0x2A) :
    (star s c).Yields s c Lexeme.Diagnosed := by
  have hone := (Cursor.upTo_advance_of_head? (by decide) hstar).1
  unfold star
  simp only
  split
  · -- Behind a vendor comment a slash closes it.
    rename_i hclose
    rw [Bool.and_eq_true] at hclose
    have htwo : c.upTo c.advance.advance = [0x2A, 0x2F] := by
      rw [(Cursor.Reaches.next c).upTo_trans (.next _), hone,
        (Cursor.upTo_advance_of_is (by decide) hclose.2).1]
      rfl
    refine ⟨?_, rfl⟩
    rw [hclose.1]
    exact Cursor.crosses_item (Cursor.Reaches.next c).advance htwo .close
  · exact Outcome.ofLexeme_yields rfl rfl (Lexeme.whole_spans _ (.refl _))
      (Lexeme.whole_diagnosed (by decide) _ _)

/-- A comment behind a sharp sign is crossed. -/
theorem sharp_yields (hsharp : c.ahead.head? = some 0x23) :
    (sharp s c).Yields s c Lexeme.Diagnosed := by
  have hone := (Cursor.upTo_advance_of_head? (by decide) hsharp).1
  have hend : c.advance.Reaches (lineEnd c.advance) := (Cursor.Reaches.refl _).skipWhile _
  have htext : c.upTo (lineEnd c.advance) = 0x23 :: c.advance.upTo (lineEnd c.advance) :=
    hend.upTo_eq_cons hone
  exact ⟨Cursor.crosses_item ((Cursor.Reaches.next c).trans hend) htext
    (.sharp (isLineRest c.advance)), rfl⟩

/-- What starts with a dash keeps the promise. -/
theorem dash_yields (hdash : c.ahead.head? = some 0x2D) :
    (dash s c).Yields s c Lexeme.Diagnosed := by
  have hone := (Cursor.upTo_advance_of_head? (by decide) hdash).1
  have hnext := Cursor.Reaches.next c
  have hsecond : c.advance.Reaches c.advance.advance := .next _
  unfold dash
  simp only
  split
  · -- A second dash, with a blank or the end of the source behind it.
    rename_i hcomment
    rw [Bool.and_eq_true, Bool.or_eq_true] at hcomment
    have hend : c.advance.advance.Reaches (lineEnd c.advance.advance) :=
      (Cursor.Reaches.refl _).skipWhile _
    have htext : c.upTo (lineEnd c.advance.advance) =
        0x2D :: 0x2D :: c.advance.advance.upTo (lineEnd c.advance.advance) := by
      rw [((Cursor.Reaches.next _).trans hend).upTo_eq_cons hone,
        hend.upTo_eq_cons (Cursor.upTo_advance_of_is (by decide) hcomment.1).1]
      rfl
    have hblank : ∀ b ∈ c.advance.advance.ahead.head?,
        Rune.onByte Rune.isSpace b = true := by
      intro b hb
      rcases hcomment.2 with hlast | hspace
      · rw [Cursor.atEnd_iff_ahead.mp hlast] at hb
        cases hb
      · obtain ⟨b', hb', hin⟩ := (Cursor.rune_iff_head? Rune.isAscii_isSpace).mp hspace
        rw [hb', Option.mem_some_iff] at hb
        rwa [← hb]
    rw [hend.ahead_eq] at hblank
    exact ⟨Cursor.crosses_item (hnext.advance.trans hend) htext
      (.dashes hblank (isLineRest c.advance.advance)), rfl⟩
  · repeat' split
    · exact Outcome.ofLexeme_yields rfl rfl (Lexeme.whole_spans _ hsecond.advance)
        (Lexeme.whole_diagnosed (by decide) _ _)
    · exact Outcome.ofLexeme_yields rfl rfl (Lexeme.whole_spans _ hsecond)
        (Lexeme.whole_diagnosed (by decide) _ _)
    · exact Outcome.ofLexeme_yields rfl rfl (Lexeme.whole_spans _ (.refl _))
        (Lexeme.whole_diagnosed (by decide) _ _)

end Comment

end SqlTokens
