import SqlTokens.Proofs.Points
import SqlTokens.Proofs.Qualifiers

/-!
# Keywords among the names

A name that spells a reserved word is the word, unless it is a part of a qualified name. Resolution
takes it for such a part if the byte right before it is a point, whatever that belongs to. The point
belongs to the raw token before the name, which is a point by itself or a decimal number that ends
with one (`Placed.byteBefore_iff`). So a point hides a reserved word behind it, a number such as
`1.` does so too, and nothing else does: `lexes_keywords` says this of every reading of a source.
-/

namespace SqlTokens

namespace Scanner

variable {s : Scanner}

/-- Whether a token of a reading starts right where the raw token before it ends, which is of the
given kind and ends with a point. -/
def TouchesPoint (s : Scanner) (kind : TokenKind) (n : Nat) : Prop :=
  ∃ m, m + 1 = n ∧ (s.lexes m).scan.1.kind = kind ∧
    (s.lexes m).scan.1.text.getLast? = some 0x2E ∧
    (s.lexes n).cursor.offset = (s.lexes n).scan.1.pos.offset

/-! ## The byte before a name -/

/-- A token that may end with a point stands for the bytes from its start to the end of the scan. -/
theorem Placed.text_pointed {entries : List Entry} (h : s.Placed entries)
    (hkind : s.scan.1.kind ∈ TokenKind.pointed) : s.scan.1.text = s.head.upTo s.scan.2.cursor := by
  have hplain : ∀ kind ∈ TokenKind.pointed, kind ≠ .eof ∧ kind.isRewritten = false := by
    decide
  obtain ⟨hend, hrewritten⟩ := hplain _ hkind
  rw [h.scan_finds.text_eq hend hrewritten, Cursor.upTo_eq]
  rfl

/-- The byte before a token is the one before its start. -/
theorem Placed.byteBefore_eq {entries : List Entry} (h : s.Placed entries) :
    s.scan.2.byteBefore? s.scan.1 = s.head.before? := by
  rw [byteBefore?, h.scan_finds.reaches.source_eq]
  rfl

/-- A token that starts where a name meets a point starts where the scanner stands. -/
theorem Placed.head_of_meetsPoint {entries : List Entry} (h : s.Placed entries)
    (hmeets : s.head.MeetsPoint) : s.cursor = s.head := by
  have hcross := h.crosses_head
  have hlength := hcross.reaches.length_upTo (hcross.reaches.le_length h.canonical.le_length)
  rw [hcross.upTo_eq_nil hmeets, List.length_nil] at hlength
  have hle := hcross.reaches.offset_le
  exact h.canonical.ext (hcross.reaches.canonical h.canonical) hcross.reaches.source_eq.symm
    (by omega)

/-- A scan that ends where a name meets a point has read a token that may end with one, and does. -/
theorem Placed.pointed_of_meetsPoint (h : s.Placed Vocabulary.standard)
    (hmeets : s.scan.2.cursor.MeetsPoint) :
    s.scan.1.kind ∈ TokenKind.pointed ∧ s.scan.1.text.getLast? = some 0x2E := by
  have hreach := h.head_reaches
  have hend : s.scan.1.kind ≠ .eof := by
    intro heof
    -- Behind the end nothing comes next.
    have hhead := Cursor.atEnd_iff.mp (h.atEnd_head heof)
    refine Cursor.not_meetsPoint_of_atEnd (Cursor.atEnd_iff.mpr ?_) hmeets
    rw [hreach.source_eq]
    exact Nat.le_trans hhead hreach.offset_le
  obtain ⟨s', s'', hstep⟩ := h.step_head hend
  have hkeeps := stepAt_keepsPoint s.config s' s.head
  rw [Table.standard, hstep] at hkeeps
  have hkind := hkeeps hmeets
  have hne := h.upTo_head_ne_nil hend
  exact ⟨hkind, by rw [h.text_pointed hkind, ← hreach.before?_eq hne, hmeets.before_eq]⟩

/-- In a reading from the start of a source, a name has a point right before it exactly if it
touches the raw token before it, which is a point or a decimal number with one at its end. -/
theorem Placed.byteBefore_iff (h : s.Placed Vocabulary.standard) (hstart : s.cursor.offset = 0)
    {n : Nat} (hname : (s.lexes n).scan.1.kind = .identifier) :
    (s.lexes n).scan.2.byteBefore? (s.lexes n).scan.1 = some 0x2E ↔
      ∃ kind ∈ TokenKind.pointed, s.TouchesPoint kind n := by
  have hplaced (m : Nat) : (s.lexes m).Placed Vocabulary.standard := h.lexes m
  rw [(hplaced n).byteBefore_eq]
  constructor
  · intro hbefore
    obtain ⟨s', s'', hstep⟩ := (hplaced n).step_head (by rw [hname]; decide)
    have hmeets : (s.lexes n).head.MeetsPoint := ⟨hbefore, (word_of_stepAt _ _ hstep hname).1⟩
    have hhead := (hplaced n).head_of_meetsPoint hmeets
    rw [← hhead] at hmeets
    -- There is a token before the name, since there is a byte before it.
    rcases n with _ | m
    · have hfirst : s.cursor.before? = some 0x2E := hmeets.before_eq
      rw [Cursor.before?, if_pos hstart] at hfirst
      cases hfirst
    · obtain ⟨hkind, hlast⟩ := (hplaced m).pointed_of_meetsPoint hmeets
      exact ⟨_, hkind, m, rfl, rfl, hlast, congrArg Cursor.offset hhead⟩
  · rintro ⟨_, hkind, m, rfl, rfl, hlast, hoffset⟩
    have hreach := (hplaced m).head_reaches
    have htext := (hplaced m).text_pointed hkind
    have hne : (s.lexes m).head.upTo (s.lexes m).scan.2.cursor ≠ [] := by
      rw [← htext]
      rintro hnil
      rw [hnil] at hlast
      cases hlast
    have hbefore := hreach.before?_eq hne
    rw [← htext, hlast] at hbefore
    have hsame : (s.lexes (m + 1)).head.offset = (s.lexes m).scan.2.cursor.offset := hoffset.symm
    rw [Cursor.before?, hsame]
    exact hbefore

/-! ## Reserved words -/

/-- Reading keeps the settings. -/
theorem config_lexes (s : Scanner) (n : Nat) : (s.lexes n).config = s.config := by
  induction n with
  | zero => rfl
  | succ n ih => exact ih

/-- Nothing but a point hides a reserved word. In every reading of a source under the standard
table, a raw name that spells a reserved word, with no point behind it and none as the raw token
that it touches before it, has the kind of the word, that of a negation as the mode says. The one
exception is a name that touches a decimal number with a point at its end, which stays a name. -/
theorem lexes_keywords (config : Config) (source : Bytes) (s : Scanner)
    (hs : s = start .standard config source) (n : Nat)
    (hname : (s.lexes n).scan.1.kind = .identifier) (e : Entry) (he : e ∈ Vocabulary.standard)
    (hrole : e.role = .keyword) (hspelled : e.SpelledBy (s.lexes n).scan.1.text)
    (hbehind : (s.lexes (n + 1)).cursor.ahead.head? ≠ some 0x2E)
    (hpoint : ¬s.TouchesPoint (.ofChar '.') n) :
    (¬s.TouchesPoint .decimalLiteral n → (s.lexes n).lex.1 =
      { (s.lexes n).scan.1 with
        kind := if e.kind = .notWord ∧ config.has .highNotPrecedence = true then .tightNot
          else e.kind }) ∧
    (s.TouchesPoint .decimalLiteral n → (s.lexes n).lex.1 = (s.lexes n).scan.1) := by
  have hplaced : s.Placed Vocabulary.standard := by
    rw [hs]
    exact start_placed Vocabulary.standard config source
  have hresolved : (s.lexes n).lex.1 = (s.lexes n).scan.2.resolve (s.lexes n).scan.1 := rfl
  have hbefore := hplaced.byteBefore_iff (by rw [hs]; rfl) hname
  rw [hresolved]
  constructor
  · intro hdecimal
    have hplain : (s.lexes n).scan.2.byteBefore? (s.lexes n).scan.1 ≠ some 0x2E := by
      rw [Ne, hbefore]
      rintro ⟨kind, hkind, htouches⟩
      simp only [TokenKind.pointed, List.mem_cons, List.not_mem_nil, or_false] at hkind
      rcases hkind with rfl | rfl
      · exact hpoint htouches
      · exact hdecimal htouches
    have hconfig : (s.lexes n).scan.2.config = config := by
      rw [show (s.lexes n).scan.2.config = (s.lexes n).config from rfl, config_lexes, hs]
      rfl
    have happlies : (s.lexes n).scan.2.applies e.keyword = true := by
      rw [applies, Entry.keyword, hrole]
    rw [resolve_of_word (hplaced.lexes n).scan.table_eq hname he hspelled
      (isQualified_eq_false hplain hbehind), if_pos happlies, kindOf, hconfig]
    rfl
  · intro hdecimal
    have hqualified : (s.lexes n).scan.2.isQualified (s.lexes n).scan.1 = true := by
      rw [Scanner.isQualified, hbefore.mpr ⟨_, by decide, hdecimal⟩, Bool.or_eq_true]
      exact .inr rfl
    rw [resolve_of_qualified hname hqualified, introduced?_of_spelledBy he hspelled]

/-- Behind an integer the word `from` is reserved. -/
theorem lexes_keywords_from : ∃ s, s = start .standard {} [0x31, 0x20, 0x66, 0x72, 0x4F, 0x6D] ∧
    (s.lexes 1).scan.1.kind = .identifier ∧
      (s.lexes 1).lex.1 = { (s.lexes 1).scan.1 with kind := ⟨57410⟩ } := by
  obtain ⟨s, hs⟩ : ∃ s, s = start .standard {} [0x31, 0x20, 0x66, 0x72, 0x4F, 0x6D] := ⟨_, rfl⟩
  obtain ⟨hname, hspelled, hbehind, hoffset⟩ : (s.lexes 1).scan.1.kind = .identifier ∧
      (⟨"FROM", ⟨57410⟩, .keyword⟩ : Entry).SpelledBy (s.lexes 1).scan.1.text ∧
      (s.lexes 2).cursor.ahead.head? ≠ some 0x2E ∧
      (s.lexes 1).cursor.offset ≠ (s.lexes 1).scan.1.pos.offset := by
    rw [hs]
    decide +kernel
  have hapart (kind : TokenKind) : ¬s.TouchesPoint kind 1 := by
    rintro ⟨m, -, -, -, hsame⟩
    exact hoffset hsame
  exact ⟨s, hs, hname, (lexes_keywords {} _ s hs 1 hname ⟨"FROM", ⟨57410⟩, .keyword⟩
    (by decide +kernel) rfl hspelled hbehind (hapart _)).1 (hapart _)⟩

/-- Right behind the number `1.` the word `from` is a name, though no point is a token there. -/
theorem lexes_keywords_decimal : ¬∀ (config : Config) (source : Bytes) (s : Scanner),
    s = start .standard config source → ∀ n, (s.lexes n).scan.1.kind = .identifier →
      ∀ e ∈ Vocabulary.standard, e.role = .keyword → e.SpelledBy (s.lexes n).scan.1.text →
      (s.lexes (n + 1)).cursor.ahead.head? ≠ some 0x2E →
      (¬∃ m, m + 1 = n ∧ (s.lexes m).scan.1.kind = .ofChar '.' ∧
        (s.lexes n).cursor.offset = (s.lexes n).scan.1.pos.offset) →
      (s.lexes n).lex.1.kind =
        if e.kind = .notWord ∧ config.has .highNotPrecedence = true then .tightNot else e.kind := by
  intro hall
  obtain ⟨s, hs⟩ : ∃ s, s = start .standard {} [0x31, 0x2E, 0x66, 0x72, 0x6F, 0x6D] := ⟨_, rfl⟩
  obtain ⟨hname, hspelled, hbehind, hfirst, hstays⟩ : (s.lexes 1).scan.1.kind = .identifier ∧
      (⟨"FROM", ⟨57410⟩, .keyword⟩ : Entry).SpelledBy (s.lexes 1).scan.1.text ∧
      (s.lexes 2).cursor.ahead.head? ≠ some 0x2E ∧ (s.lexes 0).scan.1.kind = .decimalLiteral ∧
      (s.lexes 1).lex.1.kind = .identifier := by
    rw [hs]
    decide +kernel
  have hapart : ¬∃ m, m + 1 = 1 ∧ (s.lexes m).scan.1.kind = .ofChar '.' ∧
      (s.lexes 1).cursor.offset = (s.lexes 1).scan.1.pos.offset := by
    rintro ⟨m, hm, hkind, -⟩
    obtain rfl : m = 0 := Nat.succ.inj hm
    rw [hfirst] at hkind
    exact absurd hkind (by decide)
  have hreserved := hall {} _ s hs 1 hname ⟨"FROM", ⟨57410⟩, .keyword⟩ (by decide +kernel) rfl
    hspelled hbehind hapart
  rw [hstays] at hreserved
  exact absurd hreserved (by decide)

end Scanner

end SqlTokens
