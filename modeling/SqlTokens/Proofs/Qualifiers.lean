import SqlTokens.Proofs.NamePoints
import SqlTokens.Proofs.Words

/-!
# Names beside points

A name with a point at either side is a part of a qualified name, and stays a name whatever word it
spells. Resolution sees the point in the bytes of the source, and not in the tokens that have been
read. The two are the same: a token of the kind of the point is a point by itself, and stands where
its byte does (`Placed.point`). One case comes before the points: an underscore with the name of a
character set behind it introduces a string wherever it stands. `lexes_qualified` says this of every
reading of a source.
-/

namespace SqlTokens

namespace Scanner

variable {s : Scanner}

/-- What a token of a reading stands for in the source. -/
def slice (s : Scanner) (n : Nat) : Bytes :=
  (s.cursor.source.take (s.lexes (n + 1)).cursor.offset).drop (s.lexes n).scan.1.pos.offset

/-- Whether a token of a reading starts right where a point before it ends. -/
def BehindPoint (s : Scanner) (n : Nat) : Prop :=
  ∃ m < n, (s.lexes m).lex.1.kind = .ofChar '.' ∧
    (s.lexes (m + 1)).cursor.offset = (s.lexes n).scan.1.pos.offset

/-- Whether the token behind a token of a reading is a point, with nothing between them. -/
def BeforePoint (s : Scanner) (n : Nat) : Prop :=
  (s.lexes (n + 1)).lex.1.kind = .ofChar '.' ∧
    (s.lexes (n + 1)).lex.1.pos.offset = (s.lexes (n + 1)).cursor.offset

/-- Reading stays in the source. -/
theorem Placed.source_lexes {entries : List Entry} (h : s.Placed entries) (n : Nat) :
    (s.lexes n).cursor.source = s.cursor.source := by
  induction n with
  | zero => rfl
  | succ n ih => exact (h.lexes n).lex_progresses.1.source_eq.trans ih

/-! ## Points -/

/-- A token of the kind of the point is a point, and the scanner stands right behind it. -/
theorem Placed.point (h : s.Placed Vocabulary.standard) (ht : s.lex.1.kind = .ofChar '.') :
    ∃ first, s.cursor.Reaches first ∧ first.ahead.head? = some 0x2E ∧ s.lex.1.pos = first.pos ∧
      s.lex.2.cursor = first.advance := by
  have hscan := h.isPoint_lex.mp ht
  obtain ⟨first, s', s'', hreach, hpos, hstep⟩ := h.scan_step (by rw [hscan]; decide)
  have hhead : first.ahead.head? = some 0x2E := head?_of_stepAt _ _ hstep hscan
  have hopens : Starter.ofByte? 0x2E = some .dot := by decide
  have hform : Outcome.token s.scan.1 s.scan.2.cursor s'' =
      .ofLexeme first s' (Lexeme.dot s'.afterNameDot first) :=
    hstep.symm.trans (stepAt_of_starter Vocabulary.standard s.config s' hhead hopens)
  simp only [Outcome.ofLexeme, Outcome.token.injEq] at hform
  obtain ⟨htoken, hcursor, -⟩ := hform
  -- A number that starts with a point would have another kind.
  have hdot : Lexeme.dot s'.afterNameDot first = .whole (.ofChar '.') first first.advance := by
    rcases hflag : s'.afterNameDot with _ | _
    · rcases Lexeme.dot_cases first with hdot | hnumber
      · exact hdot
      · rw [hflag] at htoken
        have hkind : (Lexeme.dot false first).kind = .ofChar '.' := by
          rw [← hscan, htoken]
          rfl
        rw [hkind] at hnumber
        exact absurd hnumber (by decide)
    · exact Lexeme.dot_true first
  refine ⟨first, hreach, hhead, ?_, ?_⟩
  · rw [← hpos]
    exact resolve_pos _ _
  · rw [hdot] at hcursor
    exact hcursor

/-- Behind a point the byte before a token is one. -/
theorem Placed.byteBefore (h : s.Placed Vocabulary.standard) {n : Nat} (hbehind : s.BehindPoint n) :
    (s.lexes n).scan.2.byteBefore? (s.lexes n).scan.1 = some 0x2E := by
  obtain ⟨m, -, hkind, hoffset⟩ := hbehind
  obtain ⟨first, hreach, hhead, -, hcursor⟩ := (h.lexes m).point hkind
  have hstart : (s.lexes n).scan.1.pos.offset = first.offset + 1 := by
    rw [← hoffset, Scanner.lexes, hcursor, Cursor.offset,
      Cursor.pos_advance_of_head? (by decide) (by decide) hhead]
    rfl
  have hsource : (s.lexes n).scan.2.cursor.source = first.source := by
    rw [(h.lexes n).scan_finds.reaches.source_eq, h.source_lexes, hreach.source_eq, h.source_lexes]
  rw [byteBefore?, if_neg (by rw [hstart]; exact Nat.succ_ne_zero _), hstart, Nat.add_sub_cancel,
    hsource, Cursor.getElem?_offset, hhead]

/-- Before a point the next rune is one. -/
theorem Placed.rune_before (h : s.Placed Vocabulary.standard) {n : Nat}
    (hbefore : s.BeforePoint n) : (s.lexes (n + 1)).cursor.rune.is '.' = true := by
  obtain ⟨hkind, hoffset⟩ := hbefore
  have hnext := h.lexes (n + 1)
  obtain ⟨first, hreach, hhead, hpos, -⟩ := hnext.point hkind
  -- The point starts where the scanner stands, so that it is the point that stands there.
  have hsame : first = (s.lexes (n + 1)).cursor := by
    refine (hreach.canonical hnext.canonical).ext hnext.canonical hreach.source_eq ?_
    rw [← hoffset, hpos]
    rfl
  rw [Cursor.rune_is_iff (by decide), ← hsame, hhead]
  rfl

/-- A token beside a point has one at either side to resolution, too. -/
theorem Placed.isQualified (h : s.Placed Vocabulary.standard) {n : Nat}
    (hpoint : s.BehindPoint n ∨ s.BeforePoint n) :
    (s.lexes n).scan.2.isQualified (s.lexes n).scan.1 = true := by
  rw [Scanner.isQualified, Bool.or_eq_true]
  rcases hpoint with hbehind | hbefore
  · right
    rw [h.byteBefore hbehind]
    rfl
  · left
    exact h.rune_before hbefore

/-- A token has a point at neither side if the bytes there are none. -/
theorem isQualified_eq_false {t : Token} (hbefore : s.byteBefore? t ≠ some 0x2E)
    (hbehind : s.cursor.ahead.head? ≠ some 0x2E) : s.isQualified t = false := by
  rw [Scanner.isQualified, Bool.or_eq_false_iff]
  constructor
  · rw [Bool.eq_false_iff, Ne, Cursor.rune_is_iff (by decide)]
    exact hbehind
  · exact beq_false_of_ne hbefore

/-! ## Names -/

/-- A raw name stands for its slice of the source. -/
theorem Placed.text_name {entries : List Entry} (h : s.Placed entries) {n : Nat}
    (hname : (s.lexes n).scan.1.kind = .identifier) :
    (s.lexes n).scan.1.text = s.slice n := by
  have htext := (h.lexes n).scan_finds.text_eq (by rw [hname]; decide) (by rw [hname]; decide)
  rw [h.source_lexes] at htext
  exact htext

/-- A name beside a point is left as it is, unless it introduces a character set. -/
theorem resolve_of_qualified {t : Token} (hname : t.kind = .identifier)
    (hpoint : s.isQualified t = true) :
    s.resolve t = match introduced? t.text with
      | some charset => { t with kind := .charsetIntroducer, text := Bytes.ofString charset }
      | none => t := by
  rw [resolve, if_pos hname, resolveName]
  rcases introduced? t.text with _ | charset
  · exact if_pos hpoint
  · rfl

/-- A name that spells a word introduces no character set. -/
theorem introduced?_of_spelledBy {e : Entry} (he : e ∈ Vocabulary.standard) {text : Bytes}
    (hspelled : e.SpelledBy text) : introduced? text = none := by
  rcases hcharset : introduced? text with _ | charset
  · rfl
  · obtain ⟨name, rfl, -⟩ := introduced?_eq_some hcharset
    exact absurd rfl (hspelled.head?_ne he)

/-- A name that spells a word and has no point at either side is the word, if the word counts as one
there. -/
theorem resolve_of_word (htable : s.table = .standard) {t : Token} (hname : t.kind = .identifier)
    {e : Entry} (he : e ∈ Vocabulary.standard) (hspelled : e.SpelledBy t.text)
    (hpoint : s.isQualified t = false) :
    s.resolve t = if s.applies e.keyword then { t with kind := s.kindOf e.keyword } else t := by
  rw [resolve, if_pos hname, resolveName, introduced?_of_spelledBy he hspelled]
  simp only [hpoint, Bool.false_eq_true, if_false, htable, hspelled.keyword?_eq he]

/-- Names beside points stay names. In every reading of a source under the standard table, a raw
name that starts where a point ends, or that a point follows at once, is a name with its slice of
the source as text, unless it is an underscore with the name of a character set behind it. Then it
introduces the character set, as it does everywhere. -/
theorem lexes_qualified (config : Config) (source : Bytes) (s : Scanner)
    (hs : s = start .standard config source) (n : Nat)
    (hname : (s.lexes n).scan.1.kind = .identifier)
    (hpoint : s.BehindPoint n ∨ s.BeforePoint n) :
    ((∀ name, s.slice n = 0x5F :: name → Vocabulary.charset? name = none) →
      (s.lexes n).lex.1 = ⟨.identifier, (s.lexes n).scan.1.pos, s.slice n⟩) ∧
    ∀ name charset, s.slice n = 0x5F :: name → Vocabulary.charset? name = some charset →
      (s.lexes n).lex.1 =
        ⟨.charsetIntroducer, (s.lexes n).scan.1.pos, Bytes.ofString charset⟩ := by
  have hplaced : s.Placed Vocabulary.standard := by
    rw [hs]
    exact start_placed Vocabulary.standard config source
  have hresolved : (s.lexes n).lex.1 = (s.lexes n).scan.2.resolve (s.lexes n).scan.1 := rfl
  rw [hresolved, resolve_of_qualified hname (hplaced.isQualified hpoint), hplaced.text_name hname]
  constructor
  · intro hplain
    rcases hcharset : introduced? (s.slice n) with _ | charset
    · rw [← hname, ← hplaced.text_name hname]
    · obtain ⟨name, hslice, hname⟩ := introduced?_eq_some hcharset
      rw [hplain name hslice] at hname
      cases hname
  · intro name charset hslice hcharset
    rw [hslice, introduced?, hcharset]

/-- Behind a point the word `select` is a name. -/
theorem lexes_qualified_select : ∃ s,
    s = start .standard {} [0x74, 0x2E, 0x73, 0x65, 0x6C, 0x65, 0x63, 0x74] ∧
      (s.lexes 2).scan.1.kind = .identifier ∧ s.BehindPoint 2 ∧
      (s.lexes 2).lex.1 = ⟨.identifier, (s.lexes 2).scan.1.pos, s.slice 2⟩ := by
  obtain ⟨s, hs⟩ : ∃ s, s = start .standard {}
      [0x74, 0x2E, 0x73, 0x65, 0x6C, 0x65, 0x63, 0x74] := ⟨_, rfl⟩
  obtain ⟨hname, hkind, hoffset, hslice⟩ : (s.lexes 2).scan.1.kind = .identifier ∧
      (s.lexes 1).lex.1.kind = .ofChar '.' ∧
      (s.lexes 2).cursor.offset = (s.lexes 2).scan.1.pos.offset ∧
      s.slice 2 = [0x73, 0x65, 0x6C, 0x65, 0x63, 0x74] := by
    rw [hs]
    decide +kernel
  have hbehind : s.BehindPoint 2 := ⟨1, by decide, hkind, hoffset⟩
  refine ⟨s, hs, hname, hbehind, (lexes_qualified {} _ s hs 2 hname (.inl hbehind)).1 ?_⟩
  intro name hplain
  rw [hslice] at hplain
  cases hplain

/-- A character set is introduced behind a point, too, so that not every name beside a point stays
one. -/
theorem lexes_qualified_charset : ¬∀ (config : Config) (source : Bytes) (s : Scanner),
    s = start .standard config source → ∀ n, (s.lexes n).scan.1.kind = .identifier →
      s.BehindPoint n ∨ s.BeforePoint n →
      (s.lexes n).lex.1.kind = .identifier ∧ (s.lexes n).lex.1.text = s.slice n := by
  intro hall
  obtain ⟨s, hs⟩ : ∃ s, s = start .standard {}
      [0x74, 0x2E, 0x5F, 0x75, 0x74, 0x66, 0x38] := ⟨_, rfl⟩
  obtain ⟨hname, hkind, hoffset, hcharset⟩ : (s.lexes 2).scan.1.kind = .identifier ∧
      (s.lexes 1).lex.1.kind = .ofChar '.' ∧
      (s.lexes 2).cursor.offset = (s.lexes 2).scan.1.pos.offset ∧
      (s.lexes 2).lex.1.kind = .charsetIntroducer := by
    rw [hs]
    decide +kernel
  have hbehind : s.BehindPoint 2 := ⟨1, by decide, hkind, hoffset⟩
  have hstays := (hall {} _ s hs 2 hname (.inl hbehind)).1
  rw [hcharset] at hstays
  cases hstays

end Scanner

end SqlTokens
